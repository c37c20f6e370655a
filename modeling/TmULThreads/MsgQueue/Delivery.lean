import TmULThreads.MsgQueue.Backing

/-!
# Delivery

`msg_send` returns 0 also when the pool of the queue has no block left, and the
message is then dropped.  In a run in which the pool of the queue can hold its
nodes, every message whose send returned 0 is received exactly once and in order
if and only if every send has found a block (`delivered_iff`).  A queue has 24
blocks, whatever its `maxmsg` is, so the message of the 25th send in a row is
lost (`lost_after_burst`).
-/

namespace TmULThreads
namespace MsgQueue

open Mem

/-- The messages that have gone through the queue or are still in it. -/
def flow (s : QState) (i : Qid) : List Msg :=
  (s.queue i).received.map Prod.snd ++ (s.queue i).msgList.map Prod.snd

/-- What the senders of a queue rely on: what they have sent is what was
received followed by what is queued, and receives return what is queued. -/
structure Delivered (s : QState) (i : Qid) : Prop where
  inOrder : (s.queue i).sent = flow s i
  drained : ∀ t, s.inRcv t = none →
    ∃ s', PartialSteps.run qStep s (List.replicate (s.queue i).msgList.length (.rcv t i)) =
        some s' ∧
      (s'.queue i).received.map Prod.snd = (s.queue i).sent

/-- The queue is made with a pool that can hold its nodes: there is room for at
least one message, the area is less than 2 GiB, and the table of blocks could be
allocated. -/
def SoundCreate (i : Qid) (s : QState) : Op → Prop
  | .create maxmsg _ _ _ tableOk =>
      getQid s = some i → 1 ≤ maxmsg ∧ maxmsg * sizeofMsg * sizeofMsg < 2 ^ 31 ∧ tableOk = true
  | _ => True

/-- A send to the queue finds a block. -/
def Accepted (i : Qid) (s : QState) : Op → Prop
  | .send j _ _ => j = i → findsBlock s i = true
  | _ => True

/-! ## What holds of a queue along a run -/

/-- The queue has no pool yet, or one that holds its nodes; and no more has gone
through it than was sent. -/
structure Sound (i : Qid) (s : QState) : Prop where
  wired : Wired s
  pool : (s.queue i).mpoolId = none ∨ ∃ p idxs, Backed s i p idxs ∧ Roomy p
  counted : (flow s i).length ≤ (s.queue i).sent.length

theorem sound_init (i : Qid) : Sound i msgQInit := ⟨wired_init, .inl rfl, le_rfl⟩

/-- The block size that `msg_create_Q` asks for. -/
theorem blockSize_eq {n : Nat} (hn : n < 2 ^ 31) : toSizeT n * sizeofMsg % 2 ^ 64 = n * 24 := by
  rw [toSizeT_of_nonneg (by omega)]
  exact Nat.mod_eq_of_lt (show n * 24 < 2 ^ 64 by omega)

/-- Whatever `maxmsg` is, a new pool has 24 blocks and none of them is out. -/
theorem newPool_tracks (memid : Nat) {n area : Nat} (hn : n < 2 ^ 31) (harea : area ≠ 0)
    (huser : area < userSpace) :
    Tracks (newPool memid (toSizeT n * sizeofMsg % 2 ^ 64) sizeofMsg area true) ∅ := by
  rw [blockSize_eq hn]
  refine tracks_newPool memid (n * 24) sizeofMsg area fun i hi => ?_
  have hi' : i < 24 := hi
  have hoff : i * (n * 24) ≤ 24 * (n * 24) := Nat.mul_le_mul_right _ hi'.le
  unfold userSpace at huser
  rw [computeAddrBlock, Nat.mod_eq_of_lt (by omega)]
  omega

theorem newPool_roomy (memid : Nat) {n area : Nat} (hpos : 1 ≤ n) (hsmall : n * 24 * 24 < 2 ^ 31)
    (huser : area < userSpace) :
    Roomy (newPool memid (toSizeT n * sizeofMsg % 2 ^ 64) sizeofMsg area true) := by
  rw [blockSize_eq (by omega)]
  have hbytes := poolBytes_lt (n * 24) sizeofMsg
  unfold userSpace at huser
  refine ⟨sized_newPool memid (n * 24) sizeofMsg area (by omega) ?_ (by omega), ?_, rfl⟩
  · show 24 * (n * 24) < 2 ^ 31
    omega
  · show 24 ≤ n * 24
    omega

/-- A step that does not change what has been sent and what has gone through. -/
theorem flow_of_queue {s s' : QState} {i : Qid} (h : s'.queue i = s.queue i) :
    flow s' i = flow s i := by
  rw [flow, flow, h]

theorem Sound.of_touches {i j : Qid} {s s' : QState} (h : Sound i s) (hw : Wired s')
    (ht : Touches j s s') (hne : i ≠ j) : Sound i s' where
  wired := hw
  pool := by
    rw [ht.mpoolId_eq]
    refine h.pool.imp_right ?_
    rintro ⟨p, idxs, hb, hr⟩
    exact ⟨p, idxs, hb.of_touches h.wired ht hne, hr⟩
  counted := by
    rw [flow_of_queue (ht.others i hne), ht.others i hne]
    exact h.counted

/-- A step that writes neither the list nor the logs of the queue. -/
theorem Sound.of_pool {i : Qid} {s s' : QState} (h : Sound i s) (hw : Wired s')
    (hflow : flow s' i = flow s i) (hsent : (s'.queue i).sent = (s.queue i).sent)
    (hpool : (s'.queue i).mpoolId = none ∨ ∃ p idxs, Backed s' i p idxs ∧ Roomy p) :
    Sound i s' ∧ flow s' i = flow s i ∧ (s'.queue i).sent = (s.queue i).sent := by
  refine ⟨⟨hw, hpool, ?_⟩, hflow, hsent⟩
  rw [hflow, hsent]
  exact h.counted

/-- A step that leaves the queue and the pools that there are alone.  Who sleeps on the queue
does not matter. -/
theorem Sound.of_queue {i : Qid} {s s' : QState} {c : List ThreadId} (h : Sound i s)
    (hw : Wired s') (hqueue : s'.queue i = { s.queue i with qCnd := c })
    (hmem : ∀ id ≤ s.mem.lastId, getMemInfo s'.mem id = getMemInfo s.mem id) :
    Sound i s' ∧ flow s' i = flow s i ∧ (s'.queue i).sent = (s.queue i).sent := by
  have hflow : flow s' i = flow s i := by
    rw [flow, flow, hqueue]
  refine h.of_pool hw hflow (by rw [hqueue]) ?_
  rcases h.pool with hnone | ⟨p, idxs, hb, hr⟩
  · rw [hqueue]
    exact .inl hnone
  · have hknown : p.memid ≤ s.mem.lastId := h.wired.known i _ hb.pool
    exact .inr ⟨p, idxs, hb.of_eq (by rw [hqueue]) (by rw [hqueue]) (hmem _ hknown), hr⟩

theorem Sound.of_sleepers {i j : Qid} {s s' : QState} {c : List ThreadId} (h : Sound i s)
    (hw : Wired s') (hmem : s'.mem = s.mem)
    (hqueue : s'.queue = Function.update s.queue j { s.queue j with qCnd := c }) :
    Sound i s' ∧ flow s' i = flow s i ∧ (s'.queue i).sent = (s.queue i).sent := by
  have hsame : s'.queue i = { s.queue i with qCnd := (s'.queue i).qCnd } := by
    rw [hqueue]
    by_cases hij : i = j
    · rw [hij, Function.update_self]
    · rw [Function.update_of_ne hij]
  exact h.of_queue hw hsame fun id _ => by rw [hmem]

/-- A receive moves a message from the list to the log. -/
theorem Sound.of_tryRcv {i j : Qid} {t : ThreadId} {s s' : QState} (h : Sound i s)
    (hrcv : tryRcv s t j = some s') :
    Sound i s' ∧ flow s' i = flow s i ∧ (s'.queue i).sent = (s.queue i).sent := by
  have hw := h.wired.of_tryRcv hrcv
  by_cases hij : i = j
  · subst hij
    rcases tryRcv_cases hrcv with ⟨hnil, rfl⟩ | ⟨a, msg, rest, id, mem, ret, hcons, hid, -, -⟩
    · exact h.of_sleepers hw rfl rfl
    · rcases h.pool with hnone | ⟨p, idxs, hb, hr⟩
      · rw [hnone] at hid
        cases hid
      · obtain ⟨s₁, p', hrcv', hb', hsame, -, hqueue⟩ := hb.tryRcv_cons hr t hcons
        obtain rfl : s₁ = s' := Option.some.inj (hrcv'.symm.trans hrcv)
        have hflow : flow s₁ i = flow s i := by
          simp only [flow, hqueue, hcons, List.map_append, List.map_cons, List.map_nil,
            List.append_assoc, List.singleton_append]
        refine ⟨⟨hw, .inr ⟨p', idxs.tail, hb', SamePool.roomy hsame hr⟩, ?_⟩, hflow, ?_⟩
        · rw [hflow, hqueue]
          exact h.counted
        · rw [hqueue]
  · have ht := tryRcv_touches hrcv
    refine ⟨h.of_touches hw ht hij, flow_of_queue (ht.others i hij), ?_⟩
    rw [ht.others i hij]

/-- A send is logged in any case, and goes through the queue if there is a block
for it. -/
theorem Sound.of_msgSend {i j : Qid} {msg : Msg} {wake : Option ThreadId} {s s' : QState}
    (h : Sound i s) (hsend : msgSend s j msg wake = some s') :
    Sound i s' ∧
      ((j ≠ i ∧ flow s' i = flow s i ∧ (s'.queue i).sent = (s.queue i).sent) ∨
        (j = i ∧ findsBlock s i = true ∧ flow s' i = flow s i ++ [msg] ∧
          (s'.queue i).sent = (s.queue i).sent ++ [msg]) ∨
        (j = i ∧ findsBlock s i = false ∧ flow s' i = flow s i ∧
          (s'.queue i).sent = (s.queue i).sent ++ [msg])) := by
  have hw := h.wired.of_msgSend hsend
  by_cases hij : i = j
  · subst hij
    obtain ⟨s₁, c, hlink, rfl⟩ := msgSend_cases hsend
    rcases h.pool with hnone | ⟨p, idxs, hb, hr⟩
    · obtain ⟨p, -, -, hid, -⟩ := linkMsg_cases hlink
      rw [hnone] at hid
      cases hid
    · have hcounted := h.counted
      rcases hb.of_linkMsg hlink with ⟨-, hfinds, hb', hqueue⟩ |
        ⟨k, p', a, -, hfinds, hb', hsame, hqueue⟩
      · have hsent : (s₁.queue i).sent = (s.queue i).sent := by rw [hqueue]
        have hflow : flow s₁ i = flow s i := flow_of_queue (by rw [hqueue])
        refine ⟨⟨hw, .inr ⟨p, idxs, hb'.of_eq ?_ ?_ rfl, hr⟩, ?_⟩, .inr (.inr ⟨rfl, hfinds, ?_, ?_⟩)⟩
        · rw [setQ_queue_self]
        · rw [setQ_queue_self]
        · rw [← hflow, ← hsent] at hcounted
          simp only [flow, setQ_queue_self, List.length_append] at hcounted ⊢
          omega
        · rw [← hflow]
          simp only [flow, setQ_queue_self]
        · rw [setQ_queue_self, hsent]
      · have hsent : (s₁.queue i).sent = (s.queue i).sent := by rw [hqueue]
        have hflow : flow s₁ i = flow s i ++ [msg] := by
          simp only [flow, hqueue, List.map_append, List.map_cons, List.map_nil,
            List.append_assoc]
        refine ⟨⟨hw, .inr ⟨p', idxs ++ [k], hb'.of_eq ?_ ?_ rfl, SamePool.roomy hsame hr⟩, ?_⟩,
          .inr (.inl ⟨rfl, hfinds, ?_, ?_⟩)⟩
        · rw [setQ_queue_self]
        · rw [setQ_queue_self]
        · have hlen : (flow s₁ i).length ≤ ((s₁.queue i).sent ++ [msg]).length := by
            rw [hflow, hsent, List.length_append, List.length_append]
            exact Nat.add_le_add_right hcounted _
          simp only [flow, setQ_queue_self] at hlen ⊢
          exact hlen
        · rw [← hflow]
          simp only [flow, setQ_queue_self]
        · rw [setQ_queue_self, hsent]
  · have ht := msgSend_touches hsend
    refine ⟨h.of_touches hw ht hij, .inl ⟨Ne.symm hij, flow_of_queue (ht.others i hij), ?_⟩⟩
    rw [ht.others i hij]

/-- Creating a queue changes no list and no log, and gives the new queue a pool
that is sound if it was asked for so. -/
theorem Sound.of_create {i : Qid} {s : QState} (h : Sound i s) {maxmsg size : Int} {mcbOk : Bool}
    {area : Nat} {tableOk : Bool} (huser : area < userSpace)
    (hsound : SoundCreate i s (.create maxmsg size mcbOk area tableOk)) :
    let s' := (msgCreateQ s maxmsg size mcbOk area tableOk).1
    Sound i s' ∧ flow s' i = flow s i ∧ (s'.queue i).sent = (s.queue i).sent := by
  intro s'
  have hw : Wired s' := h.wired.of_create maxmsg size mcbOk area tableOk
  rcases msgCreateQ_cases s maxmsg size mcbOk area tableOk with
    hres | ⟨j, k, hqid, -, hres⟩ | ⟨j, p, hqid, -, harea, hp, hres⟩
  · have hs' : s' = s := congrArg Prod.fst hres
    rw [hs']
    exact ⟨h, rfl, rfl⟩
  · have hs' : s' = { s with mem := ⟨s.mem.hdMcb, k⟩ }.setQ j
        { s.queue j with mpoolId := none } := congrArg Prod.fst hres
    by_cases hij : i = j
    · subst hij
      have hqueue : s'.queue i = { s.queue i with mpoolId := none } := by
        rw [hs', setQ_queue_self]
      refine h.of_pool hw ?_ ?_ (.inl ?_)
      · simp only [flow, hqueue]
      · rw [hqueue]
      · rw [hqueue]
    · have hqueue : s'.queue i = s.queue i := by
        rw [hs']
        exact setQ_queue_of_ne _ _ hij
      refine h.of_queue hw hqueue fun id _ => ?_
      rw [hs']
      rfl
  · have hs' : s' = { s with mem := ⟨s.mem.hdMcb ++ [p], s.mem.lastId + 1⟩ }.setQ j
        { s.queue j with mpoolId := some (s.mem.lastId + 1), maxMsg := maxmsg, size := size,
                         flags := .active } := congrArg Prod.fst hres
    have hmemid : p.memid = s.mem.lastId + 1 := by rw [hp, memid_newPool]
    have hget := getMemInfo_append h.wired.numbered (k := s.mem.lastId + 1) hmemid
    have hmem : s'.mem = ⟨s.mem.hdMcb ++ [p], s.mem.lastId + 1⟩ := by
      rw [hs']
      rfl
    by_cases hij : i = j
    · subst hij
      obtain ⟨hpos, hsmall, rfl⟩ := hsound hqid
      obtain ⟨n, rfl⟩ : ∃ n : Nat, maxmsg = n := ⟨maxmsg.toNat, by omega⟩
      have hsmall' : n * 24 * 24 < 2 ^ 31 := by
        unfold sizeofMsg at hsmall
        omega
      have hr := newPool_roomy (s.mem.lastId + 1) (by omega) hsmall' huser
      have ht := newPool_tracks (s.mem.lastId + 1) (show n < 2 ^ 31 by omega) harea huser
      rw [← hp] at hr ht
      have hlist := (h.wired.unused i (h.wired.free i (getQid_free hqid))).1
      have hqueue : s'.queue i = { s.queue i with
          mpoolId := some (s.mem.lastId + 1), maxMsg := n, size := size, flags := .active } := by
        rw [hs', setQ_queue_self]
      refine h.of_pool hw ?_ ?_ (.inr ⟨p, [], ⟨?_, ?_, List.nodup_nil, ht, ?_⟩, hr⟩)
      · simp only [flow, hqueue]
      · rw [hqueue]
      · rw [hqueue, hmemid]
      · rw [hmem, hget, if_pos hmemid]
      · rw [hqueue, hlist]
        rfl
    · have hqueue : s'.queue i = s.queue i := by
        rw [hs']
        exact setQ_queue_of_ne _ _ hij
      refine h.of_queue hw hqueue fun id hid => ?_
      rw [hmem, hget, if_neg (by omega)]

/-- Along a run the log and the flow stay equal exactly as long as every send to
the queue finds a block. -/
theorem Sound.of_qStep {i : Qid} {s s' : QState} {op : Op} (h : Sound i s)
    (hsound : SoundCreate i s op) (hstep : qStep s op = some s') :
    Sound i s' ∧ ((s'.queue i).sent = flow s' i ↔
      (s.queue i).sent = flow s i ∧ Accepted i s op) := by
  cases op with
  | create maxmsg size mcbOk area tableOk =>
      simp only [qStep] at hstep
      split at hstep
      · rename_i huser
        cases hstep
        obtain ⟨hs, hflow, hsent⟩ := h.of_create huser hsound
        rw [hflow, hsent]
        exact ⟨hs, (and_iff_left trivial).symm⟩
      · cases hstep
  | send j msg wake =>
      obtain ⟨hs, hcase⟩ := h.of_msgSend hstep
      refine ⟨hs, ?_⟩
      rcases hcase with ⟨hj, hflow, hsent⟩ | ⟨hj, hfinds, hflow, hsent⟩ | ⟨hj, hfinds, hflow, hsent⟩
      · rw [hflow, hsent]
        exact (and_iff_left fun hji => absurd hji hj).symm
      · rw [hflow, hsent, List.append_left_inj]
        exact (and_iff_left fun _ => hfinds).symm
      · rw [hflow, hsent]
        constructor
        · intro heq
          have hlen := congrArg List.length heq
          have hcounted := h.counted
          rw [List.length_append, List.length_singleton] at hlen
          omega
        · rintro ⟨-, hacc⟩
          rw [hacc hj] at hfinds
          cases hfinds
  | rcv t j =>
      simp only [qStep] at hstep
      split at hstep
      · obtain ⟨hs, hflow, hsent⟩ := h.of_tryRcv hstep
        rw [hflow, hsent]
        exact ⟨hs, (and_iff_left trivial).symm⟩
      · cases hstep
  | resume t =>
      simp only [qStep, Option.bind_eq_bind, Option.bind_eq_some_iff] at hstep
      obtain ⟨j, -, hstep⟩ := hstep
      split at hstep
      · cases hstep
      · obtain ⟨hs, hflow, hsent⟩ := h.of_tryRcv hstep
        rw [hflow, hsent]
        exact ⟨hs, (and_iff_left trivial).symm⟩
  | spurious t =>
      have hw := h.wired.of_qStep hstep
      simp only [qStep, Option.bind_eq_bind, Option.bind_eq_some_iff] at hstep
      obtain ⟨j, -, hstep⟩ := hstep
      split at hstep
      · cases hstep
        obtain ⟨hs, hflow, hsent⟩ := h.of_sleepers (j := j) hw rfl rfl
        rw [hflow, hsent]
        exact ⟨hs, (and_iff_left trivial).symm⟩
      · cases hstep

/-! ## Delivery -/

/-- As many receives as there are messages in the queue return them all, in
order. -/
theorem Sound.drain {i : Qid} {s : QState} (h : Sound i s) {t : ThreadId}
    (ht : s.inRcv t = none) :
    ∃ s', PartialSteps.run qStep s (List.replicate (s.queue i).msgList.length (.rcv t i)) =
        some s' ∧
      (s'.queue i).received.map Prod.snd = flow s i := by
  -- by induction on the messages that are left
  generalize hlen : (s.queue i).msgList.length = n
  induction n generalizing s with
  | zero =>
      have hnil := List.eq_nil_of_length_eq_zero hlen
      refine ⟨s, rfl, ?_⟩
      rw [flow, hnil, List.map_nil, List.append_nil]
  | succ n ih =>
      cases hlist : (s.queue i).msgList with
      | nil =>
          rw [hlist] at hlen
          cases hlen
      | cons e rest =>
          rcases h.pool with hnone | ⟨p, idxs, hb, hr⟩
          · rw [(h.wired.unused i hnone).1] at hlist
            cases hlist
          · obtain ⟨s₁, p', hrcv, -, -, hin, hqueue⟩ := hb.tryRcv_cons hr t hlist
            obtain ⟨hs₁, hflow, -⟩ := h.of_tryRcv hrcv
            have ht₁ : s₁.inRcv t = none := by
              rw [hin, Function.update_self]
            have hlen₁ : (s₁.queue i).msgList.length = n := by
              rw [hlist, List.length_cons] at hlen
              rw [hqueue]
              exact Nat.succ.inj hlen
            obtain ⟨s', hrun, hrecv⟩ := ih hs₁ ht₁ hlen₁
            refine ⟨s', ?_, hrecv.trans hflow⟩
            rw [List.replicate_succ, PartialSteps.run_cons]
            refine ⟨s₁, ?_, hrun⟩
            rw [qStep, if_pos ht]
            exact hrcv

theorem Sound.delivered_iff_inOrder {i : Qid} {s : QState} (h : Sound i s) :
    Delivered s i ↔ (s.queue i).sent = flow s i := by
  constructor
  · exact Delivered.inOrder
  · intro heq
    refine ⟨heq, fun t ht => ?_⟩
    rw [heq]
    exact h.drain ht

/-- In every run of any number of senders and receivers, over a queue whose pool
can hold its nodes, all that has been sent is delivered exactly when every send
has found a block. -/
theorem delivered_iff (i : Qid) (ops : List Op) (s : QState)
    (hsound : PartialSteps.Meets qStep (SoundCreate i) msgQInit ops)
    (hrun : PartialSteps.run qStep msgQInit ops = some s) :
    Delivered s i ↔ PartialSteps.Meets qStep (Accepted i) msgQInit ops := by
  have hs : Sound i s := PartialSteps.run_invariant qStep
    (fun _ _ _ h hc hstep => (h.of_qStep hc hstep).1) (sound_init i) hsound hrun
  rw [hs.delivered_iff_inOrder]
  have hiff := PartialSteps.run_iff_meets qStep (P := fun s => (s.queue i).sent = flow s i)
    (fun _ _ _ h hc hstep => h.of_qStep hc hstep) (sound_init i) hsound hrun
  rw [hiff]
  exact and_iff_right rfl

/-- A receiver waits for a queue; two messages are sent, and it gets the first. -/
theorem delivered_to_waiter :
    ∃ s, PartialSteps.run qStep msgQInit
        [.create 3 8 true 4096 true, .rcv 0 9, .send 9 7 (some 0), .send 9 8 none, .resume 0] =
          some s ∧
      (s.queue 9).received = [(0, 7)] ∧ Delivered s 9 := by
  refine ⟨_, rfl, rfl, (delivered_iff 9 [.create 3 8 true 4096 true, .rcv 0 9,
    .send 9 7 (some 0), .send 9 8 none, .resume 0] _ ?_ rfl).mpr ?_⟩
  · refine .cons rfl ?_ (.cons rfl trivial (.cons rfl trivial (.cons rfl trivial
      (.cons rfl trivial trivial))))
    exact fun _ => ⟨by decide, by decide, rfl⟩
  · refine .cons rfl trivial (.cons rfl trivial (.cons rfl ?_ (.cons rfl ?_
      (.cons rfl trivial trivial))))
    · exact fun _ => rfl
    · exact fun _ => rfl

/-- 25 sends to a queue made for 100 messages all return 0, and 24 messages are
queued. -/
theorem lost_after_burst :
    ∃ s, PartialSteps.run qStep msgQInit
        (.create 100 8 true 4096 true :: List.replicate 25 (.send 9 7 none)) = some s ∧
      (s.queue 9).sent.length = 25 ∧ (flow s 9).length = 24 ∧ ¬ Delivered s 9 := by
  refine ⟨_, rfl, rfl, rfl, fun h => ?_⟩
  have hlen := congrArg List.length h.inOrder
  exact absurd hlen (by decide)

end MsgQueue
end TmULThreads
