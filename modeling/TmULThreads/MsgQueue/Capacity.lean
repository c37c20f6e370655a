import TmULThreads.MsgQueue.Delivery

/-!
# Capacity

`msg_create_Q` hands its parameters to `mem_pool_create` the wrong way round: it
asks for `sizeof (struct msg)` blocks of `maxmsg * sizeof (struct msg)` bytes.
Every queue therefore takes 24 messages, and has the capacity it was made for
exactly when that is 24 (`capacity_iff`).
-/

namespace TmULThreads
namespace MsgQueue

open Mem

/-- A send that wakes the thread that has slept longest, if there is one. -/
def sendNext (i : Qid) (s : QState) (msg : Msg) : Option QState :=
  msgSend s i msg (s.queue i).qCnd.head?

/-- Of any messages that are sent next, the first `n` are linked and no other. -/
def AcceptsExactly (s : QState) (i : Qid) (n : Nat) : Prop :=
  ∀ msgs : List Msg, ∃ s', PartialSteps.run (sendNext i) s msgs = some s' ∧
    (s'.queue i).msgList.map Prod.snd = (s.queue i).msgList.map Prod.snd ++ msgs.take n

/-- From `s` on, the queue has room for what is left of `maxmsg`. -/
def HasCapacity (s : QState) (i : Qid) (maxmsg : Nat) : Prop :=
  ∀ ops s', PartialSteps.run qStep s ops = some s' →
    (s'.queue i).msgList.length ≤ maxmsg ∧
      AcceptsExactly s' i (maxmsg - (s'.queue i).msgList.length)

/-! ## Sending until the pool is empty -/

theorem signal_head (s : QState) (i : Qid) : ∃ s', signal s i (s.queue i).qCnd.head? = some s' := by
  simp only [signal]
  cases hlist : (s.queue i).qCnd with
  | nil => exact ⟨s, by simp⟩
  | cons t rest => exact ⟨_, if_pos (List.mem_cons_self ..)⟩

/-- One send: the message is linked if a block is left. -/
theorem Backed.of_sendNext {s s' : QState} {i : Qid} {p : MemInfo} {idxs : List Nat} {msg : Msg}
    (h : Backed s i p idxs) (hsend : sendNext i s msg = some s') :
    ∃ p' idxs', Backed s' i p' idxs' ∧ SamePool p p' ∧
      ((idxs.length = p.nblks.toNat ∧ idxs' = idxs ∧
          (s'.queue i).msgList.map Prod.snd = (s.queue i).msgList.map Prod.snd) ∨
        (idxs.length < p.nblks.toNat ∧ idxs'.length = idxs.length + 1 ∧
          (s'.queue i).msgList.map Prod.snd = (s.queue i).msgList.map Prod.snd ++ [msg])) := by
  obtain ⟨s₁, c, hlink, rfl⟩ := msgSend_cases hsend
  rcases h.of_linkMsg hlink with ⟨hfull, -, hb, hqueue⟩ | ⟨k, p', a, hroom, -, hb, hsame, hqueue⟩
  · refine ⟨p, idxs, hb.of_eq ?_ ?_ rfl, SamePool.refl p, .inl ⟨hfull, rfl, ?_⟩⟩
    · rw [setQ_queue_self]
    · rw [setQ_queue_self]
    · rw [setQ_queue_self, hqueue]
  · refine ⟨p', idxs ++ [k], hb.of_eq ?_ ?_ rfl, hsame, .inr ⟨hroom, ?_, ?_⟩⟩
    · rw [setQ_queue_self]
    · rw [setQ_queue_self]
    · rw [List.length_append, List.length_singleton]
    · rw [setQ_queue_self, hqueue, List.map_append]
      rfl

/-- As many messages are linked as there were blocks left. -/
theorem Backed.of_sends {s s' : QState} {i : Qid} {p : MemInfo} {idxs : List Nat}
    {msgs : List Msg} (h : Backed s i p idxs)
    (hrun : PartialSteps.run (sendNext i) s msgs = some s') :
    (s'.queue i).msgList.map Prod.snd =
      (s.queue i).msgList.map Prod.snd ++ msgs.take (p.nblks.toNat - idxs.length) := by
  induction msgs generalizing s p idxs with
  | nil =>
      cases hrun
      rw [List.take_nil, List.append_nil]
  | cons msg rest ih =>
      obtain ⟨mid, hsend, hrest⟩ := (PartialSteps.run_cons _).mp hrun
      obtain ⟨p', idxs', hb, hsame, hcase⟩ := h.of_sendNext hsend
      rw [ih hb hrest, hsame.nblks]
      rcases hcase with ⟨hfull, rfl, hlist⟩ | ⟨hroom, hlen, hlist⟩
      · rw [hlist, hfull, Nat.sub_self, List.take_zero, List.take_zero]
      · have hleft : p.nblks.toNat - idxs.length = p.nblks.toNat - idxs'.length + 1 := by omega
        rw [hlist, hleft, List.take_succ_cons, List.append_assoc, List.singleton_append]

/-- Into a roomy queue any messages can be sent. -/
theorem Backed.exists_sends {s : QState} {i : Qid} {p : MemInfo} {idxs : List Nat}
    (h : Backed s i p idxs) (hroomy : Roomy p) (msgs : List Msg) :
    ∃ s', PartialSteps.run (sendNext i) s msgs = some s' := by
  induction msgs generalizing s p idxs with
  | nil => exact ⟨s, rfl⟩
  | cons msg rest ih =>
      have hsend : ∃ mid, sendNext i s msg = some mid := by
        obtain ⟨s₁, hlink⟩ := h.exists_linkMsg hroomy msg
        have hsleep : (s₁.queue i).qCnd = (s.queue i).qCnd := by
          rcases h.of_linkMsg hlink with ⟨-, -, -, hqueue⟩ | ⟨k, p', a, -, -, -, -, hqueue⟩
          · rw [hqueue]
          · rw [hqueue]
        obtain ⟨s₂, hsignal⟩ := signal_head s₁ i
        rw [hsleep] at hsignal
        refine ⟨s₂.setQ i { s₂.queue i with sent := (s₂.queue i).sent ++ [msg] }, ?_⟩
        simp only [sendNext, msgSend, hlink, hsignal, Option.bind_eq_bind, Option.bind_some]
      obtain ⟨mid, hmid⟩ := hsend
      obtain ⟨p', idxs', hb, hsame, -⟩ := h.of_sendNext hmid
      obtain ⟨s', hrest⟩ := ih hb (SamePool.roomy hsame hroomy)
      exact ⟨s', (PartialSteps.run_cons _).mpr ⟨mid, hmid, hrest⟩⟩

/-! ## A queue that has been made -/

/-- The state right after a successful `msg_create_Q`. -/
theorem backed_of_create {s : QState} (hw : Wired s) {i : Qid} (hqid : getQid s = some i)
    {n : Nat} (hn : n < 2 ^ 31) {size : Int} {area : Nat} (harea : area ≠ 0)
    (huser : area < userSpace) :
    ∃ p, p = newPool (s.mem.lastId + 1) (toSizeT n * sizeofMsg % 2 ^ 64) sizeofMsg area true ∧
      Backed (msgCreateQ s n size true area true).1 i p [] ∧
      ((msgCreateQ s n size true area true).1.queue i).flags = .active ∧
      flow (msgCreateQ s n size true area true).1 i = [] := by
  obtain ⟨hlist, -, hrecv⟩ := hw.unused i (hw.free i (getQid_free hqid))
  have hres : (msgCreateQ s n size true area true).1 =
      { s with mem := ⟨s.mem.hdMcb ++ [newPool (s.mem.lastId + 1)
          (toSizeT n * sizeofMsg % 2 ^ 64) sizeofMsg area true], s.mem.lastId + 1⟩ }.setQ i
        { s.queue i with mpoolId := some (s.mem.lastId + 1), maxMsg := n, size := size,
                         flags := .active } := by
    simp only [msgCreateQ, hqid, createPool, memPoolCreate, harea, not_true_eq_false, if_false]
  refine ⟨_, rfl, ⟨?_, ?_, List.nodup_nil, newPool_tracks _ hn harea huser, ?_⟩, ?_, ?_⟩
  · rw [hres, setQ_queue_self, memid_newPool]
  · rw [hres, setQ_mem, getMemInfo_append hw.numbered (memid_newPool ..), if_pos (memid_newPool ..)]
  · rw [hres, setQ_queue_self, hlist]
    rfl
  · rw [hres, setQ_queue_self]
  · rw [hres, flow, setQ_queue_self, hlist, hrecv]
    rfl

/-- A queue that is in use stays in use, with the pool that it has. -/
theorem active_of_qStep {s s' : QState} {op : Op} {i : Qid}
    (h : (s.queue i).flags = .active) (hstep : qStep s op = some s') :
    (s'.queue i).flags = .active ∧ (s'.queue i).mpoolId = (s.queue i).mpoolId := by
  have htouch {j : Qid} (ht : Touches j s s') :
      (s'.queue i).flags = .active ∧ (s'.queue i).mpoolId = (s.queue i).mpoolId := by
    refine ⟨?_, ht.mpoolId_eq i⟩
    by_cases hij : i = j
    · rw [hij] at h ⊢
      exact ht.flags.trans h
    · rw [ht.others i hij]
      exact h
  cases op with
  | create maxmsg size mcbOk area tableOk =>
      simp only [qStep] at hstep
      split at hstep
      · cases hstep
        have hne {j : Qid} (hqid : getQid s = some j) : i ≠ j := by
          rintro rfl
          rw [getQid_free hqid] at h
          cases h
        rcases msgCreateQ_cases s maxmsg size mcbOk area tableOk with
          hres | ⟨j, k, hqid, -, hres⟩ | ⟨j, p, hqid, -, -, -, hres⟩
        · rw [hres]
          exact ⟨h, rfl⟩
        · rw [hres, setQ_queue_of_ne _ _ (hne hqid)]
          exact ⟨h, rfl⟩
        · rw [hres, setQ_queue_of_ne _ _ (hne hqid)]
          exact ⟨h, rfl⟩
      · cases hstep
  | send j msg wake => exact htouch (msgSend_touches hstep)
  | rcv t j =>
      simp only [qStep] at hstep
      split at hstep
      · exact htouch (tryRcv_touches hstep)
      · cases hstep
  | resume t =>
      simp only [qStep, Option.bind_eq_bind, Option.bind_eq_some_iff] at hstep
      obtain ⟨j, -, hstep⟩ := hstep
      split at hstep
      · cases hstep
      · exact htouch (tryRcv_touches hstep)
  | spurious t =>
      simp only [qStep, Option.bind_eq_bind, Option.bind_eq_some_iff] at hstep
      obtain ⟨j, -, hstep⟩ := hstep
      split at hstep
      · cases hstep
        exact htouch (Touches.of_setQ rfl rfl)
      · cases hstep

/-- A queue that is in use is not created again, so it keeps a sound pool by
itself. -/
theorem Sound.backed_of_run {i : Qid} {s s' : QState} {ops : List Op} (h : Sound i s)
    (hactive : (s.queue i).flags = .active) (hpool : (s.queue i).mpoolId ≠ none)
    (hrun : PartialSteps.run qStep s ops = some s') :
    ∃ p idxs, Backed s' i p idxs ∧ Roomy p := by
  have hkeep (s : QState) (op : Op) (s' : QState)
      (hold : Sound i s ∧ (s.queue i).flags = .active ∧ (s.queue i).mpoolId ≠ none)
      (hstep : qStep s op = some s') :
      Sound i s' ∧ (s'.queue i).flags = .active ∧ (s'.queue i).mpoolId ≠ none := by
    obtain ⟨hs, hflags, hid⟩ := hold
    obtain ⟨hflags', hid'⟩ := active_of_qStep hflags hstep
    refine ⟨(hs.of_qStep ?_ hstep).1, hflags', hid' ▸ hid⟩
    cases op with
    | create maxmsg size mcbOk area tableOk =>
        intro hqid
        rw [getQid_free hqid] at hflags
        cases hflags
    | _ => trivial
  obtain ⟨hs', -, hpool'⟩ :=
    PartialSteps.run_invariant_always qStep hkeep ⟨h, hactive, hpool⟩ hrun
  exact hs'.pool.resolve_left hpool'

/-- A queue freshly made for `maxmsg` messages, in any state that the program can
reach, has room for `maxmsg` messages, and later for what is left of them,
exactly when `maxmsg` is the size of a node. -/
theorem capacity_iff (ops : List Op) (s : QState) (i : Qid) (maxmsg : Nat) (size : Int)
    (area : Nat) (hrun : PartialSteps.run qStep msgQInit ops = some s)
    (hqid : getQid s = some i) (hmax : maxmsg < 2 ^ 31) (harea : area ≠ 0)
    (huser : area < userSpace) :
    HasCapacity (msgCreateQ s maxmsg size true area true).1 i maxmsg ↔ maxmsg = sizeofMsg := by
  have hw : Wired s := PartialSteps.run_invariant_always qStep
    (fun _ _ _ h hstep => h.of_qStep hstep) wired_init hrun
  obtain ⟨p, hp, hb, hactive, hflow⟩ :
      ∃ p, p = newPool (s.mem.lastId + 1) (toSizeT maxmsg * sizeofMsg % 2 ^ 64) sizeofMsg area true ∧
        Backed (msgCreateQ s maxmsg size true area true).1 i p [] ∧
        ((msgCreateQ s maxmsg size true area true).1.queue i).flags = .active ∧
        flow (msgCreateQ s maxmsg size true area true).1 i = [] :=
    backed_of_create hw hqid hmax harea huser
  constructor
  · intro hcap
    -- more messages than both numbers show how many the queue takes
    obtain ⟨-, haccepts⟩ := hcap [] _ rfl
    obtain ⟨s', hsends, htaken⟩ := haccepts (List.replicate (maxmsg + sizeofMsg) 0)
    have hpool : p.nblks.toNat = sizeofMsg := by
      rw [hp]
      rfl
    rw [hb.of_sends hsends, hpool, List.append_right_inj] at htaken
    have hlen := congrArg List.length htaken
    rw [hb.length] at hlen
    simp only [List.length_nil, Nat.sub_zero, List.length_take, List.length_replicate] at hlen
    omega
  · rintro rfl ops' s' hrun'
    have hr : Roomy p := by
      rw [hp]
      exact newPool_roomy _ (by decide) (by decide) huser
    have hs₁ : Sound i (msgCreateQ s sizeofMsg size true area true).1 := by
      refine ⟨hw.of_create _ _ _ _ _, .inr ⟨p, [], hb, hr⟩, ?_⟩
      rw [hflow]
      exact Nat.zero_le _
    have hid : ((msgCreateQ s sizeofMsg size true area true).1.queue i).mpoolId ≠ none := by
      rw [hb.pool]
      exact nofun
    obtain ⟨p', idxs, hb', hr'⟩ := hs₁.backed_of_run hactive hid hrun'
    have hpool : p'.nblks.toNat = sizeofMsg := by
      rw [hr'.nblks]
      rfl
    have hle : idxs.length ≤ sizeofMsg := by
      rw [← List.toFinset_card_of_nodup hb'.nodup, ← hpool]
      have hcard := Finset.card_le_card hb'.tracks.sub
      rwa [Finset.card_range] at hcard
    rw [hb'.length]
    refine ⟨hle, fun msgs => ?_⟩
    obtain ⟨last, hsends⟩ := hb'.exists_sends hr' msgs
    refine ⟨last, hsends, ?_⟩
    rw [hb'.of_sends hsends, hpool]

/-- A queue made for 24 messages by the first call has room for 24. -/
theorem capacity_of_sizeofMsg :
    ∃ i, getQid msgQInit = some i ∧
      HasCapacity (msgCreateQ msgQInit 24 8 true 4096 true).1 i 24 :=
  ⟨9, rfl, (capacity_iff [] msgQInit 9 24 8 4096 rfl rfl (by decide) (by decide)
    (by decide)).mpr rfl⟩

/-- A queue made for one message takes two. -/
theorem overfull_with_one :
    ¬ HasCapacity (msgCreateQ msgQInit 1 8 true 4096 true).1 9 1 := by
  intro h
  obtain ⟨-, haccepts⟩ := h [] _ rfl
  obtain ⟨s', hsends, htaken⟩ := haccepts [5, 6]
  obtain rfl : _ = s' := Option.some.inj hsends
  cases htaken

end MsgQueue
end TmULThreads
