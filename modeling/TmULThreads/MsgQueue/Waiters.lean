import TmULThreads.MsgQueue.Delivery

/-!
# Senders and receivers around the condition variable

A `msg_send` signals once, and the message it has linked may be taken by a
receiver that never slept.  Two things hold in every run all the same.  What the
receivers have got is a part of what the senders have linked, from the front
(`flow_eq_linkedMsgs`).  And a receiver does not sleep on messages that nobody is
about to take: the receivers that have been woken and have not looked again are at
least as many as the messages, as long as anybody sleeps (`Watched`).

The third property, that the pool has as many blocks out as there are messages in
the list, needs a pool that `free_blk` can deal with.  It rejects blocks behind an area
whose length has been cut off, and it computes the offset of a block as an `int`, so
neither these nor a block that lies 2 GiB into the pool are given back
(`leaked_beyond_int`).
-/

namespace TmULThreads
namespace MsgQueue

open Mem

/-! ## What has been linked -/

/-- The message that a step links into the list of the queue. -/
def linkedBy (i : Qid) (s : QState) : Op → List Msg
  | .send j msg _ => if j = i ∧ findsBlock s i = true then [msg] else []
  | _ => []

/-- The messages that the steps of a run link, in order. -/
def linkedMsgs (i : Qid) : QState → List Op → List Msg
  | _, [] => []
  | s, op :: ops =>
      linkedBy i s op ++
        match qStep s op with
        | none => []
        | some s' => linkedMsgs i s' ops

theorem findsBlock_eq {s : QState} {i : Qid} {p p' : MemInfo} {a : Nat}
    (hid : (s.queue i).mpoolId = some p.memid) (hfound : getMemInfo s.mem p.memid = some p)
    (halloc : p.allocBlock = some (p', a)) : findsBlock s i = decide (a ≠ 0) := by
  simp only [findsBlock, hid, allocBlock, hfound, halloc, Option.bind_eq_bind, Option.bind_some]

theorem flow_of_msgSend {s s' : QState} {i j : Qid} {msg : Msg} {wake : Option ThreadId}
    (h : msgSend s j msg wake = some s') :
    flow s' i = flow s i ++ linkedBy i s (.send j msg wake) := by
  by_cases hij : j = i
  · subst hij
    obtain ⟨s₁, c, hlink, rfl⟩ := msgSend_cases h
    obtain ⟨p, p', a, hid, hfound, -, halloc, hcase⟩ := linkMsg_cases hlink
    have hfinds := findsBlock_eq hid hfound halloc
    rcases hcase with ⟨rfl, rfl⟩ | ⟨hne, rfl⟩
    · simp [linkedBy, hfinds, flow]
    · simp [linkedBy, hfinds, hne, flow]
  · have ht := msgSend_touches h
    rw [flow_of_queue (ht.others i (Ne.symm hij)), linkedBy, if_neg (fun hand => hij hand.1),
      List.append_nil]

theorem flow_of_tryRcv {s s' : QState} {i j : Qid} {t : ThreadId} (h : tryRcv s t j = some s') :
    flow s' i = flow s i := by
  by_cases hij : i = j
  · subst hij
    rcases tryRcv_cases h with ⟨-, rfl⟩ | ⟨a, msg, rest, id, mem, ret, hcons, -, -, rfl⟩
    · simp only [flow, setQ_queue_self]
    · simp only [flow, setQ_queue_self, hcons, List.map_append, List.map_cons, List.map_nil,
        List.append_assoc, List.singleton_append]
  · exact flow_of_queue ((tryRcv_touches h).others i hij)

theorem queue_of_create (s : QState) (maxmsg size : Int) (mcbOk : Bool) (area : Nat)
    (tableOk : Bool) (i : Qid) :
    ∃ m n id f, (msgCreateQ s maxmsg size mcbOk area tableOk).1.queue i =
      { s.queue i with maxMsg := m, size := n, mpoolId := id, flags := f } := by
  have hset (u : QState) (j : Qid) (m n : Int) (id : Option Nat) (f : MqFlags)
      (hu : u.queue = s.queue) :
      ∃ m' n' id' f',
        (u.setQ j { s.queue j with maxMsg := m, size := n, mpoolId := id, flags := f }).queue i =
          { s.queue i with maxMsg := m', size := n', mpoolId := id', flags := f' } := by
    by_cases hij : i = j
    · rw [hij, setQ_queue_self]
      exact ⟨m, n, id, f, rfl⟩
    · rw [setQ_queue_of_ne _ _ hij, hu]
      exact ⟨_, _, _, _, rfl⟩
  rcases msgCreateQ_cases s maxmsg size mcbOk area tableOk with
    hres | ⟨j, k, -, -, hres⟩ | ⟨j, p, -, -, -, -, hres⟩
  · rw [hres]
    exact ⟨_, _, _, _, rfl⟩
  · rw [hres]
    exact hset { s with mem := ⟨s.mem.hdMcb, k⟩ } j (s.queue j).maxMsg (s.queue j).size none
      (s.queue j).flags rfl
  · rw [hres]
    exact hset { s with mem := ⟨s.mem.hdMcb ++ [p], s.mem.lastId + 1⟩ } j maxmsg size
      (some (s.mem.lastId + 1)) .active rfl

theorem flow_of_qStep {s s' : QState} {op : Op} (i : Qid) (h : qStep s op = some s') :
    flow s' i = flow s i ++ linkedBy i s op := by
  cases op with
  | create maxmsg size mcbOk area tableOk =>
      simp only [qStep] at h
      split at h
      · cases h
        obtain ⟨m, n, id, f, hqueue⟩ := queue_of_create s maxmsg size mcbOk area tableOk i
        simp only [flow, hqueue, linkedBy, List.append_nil]
      · cases h
  | send j msg wake => exact flow_of_msgSend h
  | rcv t j =>
      simp only [qStep] at h
      split at h
      · exact (flow_of_tryRcv h).trans (List.append_nil _).symm
      · cases h
  | resume t =>
      simp only [qStep, Option.bind_eq_bind, Option.bind_eq_some_iff] at h
      obtain ⟨j, -, h⟩ := h
      split at h
      · cases h
      · exact (flow_of_tryRcv h).trans (List.append_nil _).symm
  | spurious t =>
      simp only [qStep, Option.bind_eq_bind, Option.bind_eq_some_iff] at h
      obtain ⟨j, -, h⟩ := h
      split at h
      · cases h
        refine Eq.trans ?_ (List.append_nil _).symm
        by_cases hij : i = j
        · subst hij
          simp only [flow, setQ_queue_self]
        · exact flow_of_queue (setQ_queue_of_ne _ _ hij)
      · cases h

/-- What has been linked along a run is what was received and what is queued. -/
theorem flow_of_run {s s' : QState} {ops : List Op} (i : Qid)
    (h : PartialSteps.run qStep s ops = some s') :
    flow s' i = flow s i ++ linkedMsgs i s ops := by
  induction ops generalizing s with
  | nil =>
      cases h
      exact (List.append_nil _).symm
  | cons op ops ih =>
      obtain ⟨mid, hstep, hrest⟩ := (PartialSteps.run_cons qStep).mp h
      rw [ih hrest, flow_of_qStep i hstep, linkedMsgs, hstep, List.append_assoc]

theorem flow_eq_linkedMsgs {s : QState} {ops : List Op} (i : Qid)
    (h : PartialSteps.run qStep msgQInit ops = some s) : flow s i = linkedMsgs i msgQInit ops :=
  flow_of_run i h

/-! ## Who is awake -/

/-- The receivers of the queue that are awake, and what is known of the others:
they sleep, each once, and only as long as those awake can take all messages. -/
structure Watched (s : QState) (i : Qid) (awake : Finset ThreadId) : Prop where
  mem_awake : ∀ t, t ∈ awake ↔ s.inRcv t = some i ∧ t ∉ (s.queue i).qCnd
  asleep : ∀ t ∈ (s.queue i).qCnd, s.inRcv t = some i
  nodup : (s.queue i).qCnd.Nodup
  enough : (s.queue i).qCnd ≠ [] → (s.queue i).msgList.length ≤ awake.card

/-- A step that does not touch the queue, nor a thread that receives from it. -/
theorem Watched.of_eq {s s' : QState} {i : Qid} {awake : Finset ThreadId} (h : Watched s i awake)
    (hcnd : (s'.queue i).qCnd = (s.queue i).qCnd)
    (hlist : (s'.queue i).msgList = (s.queue i).msgList)
    (hin : ∀ t, s'.inRcv t = some i ↔ s.inRcv t = some i) : Watched s' i awake where
  mem_awake := by
    intro t
    rw [h.mem_awake, hcnd, hin]
  asleep := by
    intro t ht
    rw [hcnd] at ht
    exact (hin t).mpr (h.asleep t ht)
  nodup := hcnd ▸ h.nodup
  enough := by
    rw [hcnd, hlist]
    exact h.enough

/-- A sleeping receiver is woken, and at most one message is linked. -/
theorem Watched.of_wake {s s' : QState} {i : Qid} {awake : Finset ThreadId} {t : ThreadId}
    (h : Watched s i awake) (ht : t ∈ (s.queue i).qCnd)
    (hcnd : (s'.queue i).qCnd = (s.queue i).qCnd.erase t)
    (hlist : (s'.queue i).msgList.length ≤ (s.queue i).msgList.length + 1)
    (hin : s'.inRcv = s.inRcv) : Watched s' i (insert t awake) where
  mem_awake := by
    intro u
    rw [Finset.mem_insert, h.mem_awake, hin, hcnd, h.nodup.mem_erase_iff]
    by_cases hu : u = t
    · simp [hu, h.asleep t ht]
    · simp [hu]
  asleep := by
    intro u hu
    rw [hin]
    exact h.asleep u (List.mem_of_mem_erase (hcnd ▸ hu))
  nodup := hcnd ▸ h.nodup.erase t
  enough := by
    intro _
    have hnew : t ∉ awake := fun hmem => ((h.mem_awake t).mp hmem).2 ht
    have hold := h.enough (List.ne_nil_of_mem ht)
    rw [Finset.card_insert_of_notMem hnew]
    omega

/-- A receiver that is awake or has just come looks at the list. -/
theorem Watched.of_tryRcv {s s' : QState} {i : Qid} {awake : Finset ThreadId} {t : ThreadId}
    (h : Watched s i awake) (hrcv : tryRcv s t i = some s') (hout : t ∉ (s.queue i).qCnd) :
    Watched s' i (awake.erase t) := by
  rcases tryRcv_cases hrcv with ⟨hnil, rfl⟩ | ⟨a, msg, rest, id, mem, ret, hcons, -, -, rfl⟩
  · refine ⟨fun u => ?_, fun u hu => ?_, ?_, fun _ => ?_⟩
    · simp only [Finset.mem_erase, h.mem_awake, setQ_queue_self, List.mem_append,
        List.mem_singleton]
      by_cases hu : u = t
      · simp [hu]
      · simp [hu, Function.update_of_ne]
    · simp only [setQ_queue_self, List.mem_append, List.mem_singleton] at hu
      rcases hu with hu | rfl
      · have hne : u ≠ t := fun heq => hout (heq ▸ hu)
        exact (Function.update_of_ne hne ..).trans (h.asleep u hu)
      · exact Function.update_self ..
    · simp only [setQ_queue_self, List.nodup_append, List.nodup_singleton, true_and,
        List.mem_singleton]
      refine ⟨h.nodup, fun u hu v hv heq => hout ?_⟩
      rw [← hv, ← heq]
      exact hu
    · simp [hnil]
  · refine ⟨fun u => ?_, fun u hu => ?_, ?_, fun hne => ?_⟩
    · simp only [Finset.mem_erase, h.mem_awake, setQ_queue_self]
      by_cases hu : u = t
      · simp [hu]
      · simp [hu, Function.update_of_ne]
    · simp only [setQ_queue_self] at hu
      have hne : u ≠ t := fun heq => hout (heq ▸ hu)
      exact (Function.update_of_ne hne ..).trans (h.asleep u hu)
    · simp only [setQ_queue_self]
      exact h.nodup
    · simp only [setQ_queue_self] at hne ⊢
      have hold := h.enough hne
      have herase := Finset.pred_card_le_card_erase (s := awake) (a := t)
      rw [hcons, List.length_cons] at hold
      omega

theorem tryRcv_inRcv {s s' : QState} {j : Qid} {t : ThreadId} (h : tryRcv s t j = some s') :
    ∃ o, s'.inRcv = Function.update s.inRcv t o ∧ (o = none ∨ o = some j) := by
  rcases tryRcv_cases h with ⟨-, rfl⟩ | ⟨a, msg, rest, id, mem, ret, -, -, -, rfl⟩
  · exact ⟨some j, rfl, .inr rfl⟩
  · exact ⟨none, rfl, .inl rfl⟩

theorem Watched.of_tryRcv_other {s s' : QState} {i j : Qid} {awake : Finset ThreadId}
    {t : ThreadId} (h : Watched s i awake) (hrcv : tryRcv s t j = some s') (hij : i ≠ j)
    (hin : s.inRcv t = none ∨ s.inRcv t = some j) : Watched s' i awake := by
  have hqueue := (tryRcv_touches hrcv).others i hij
  have hother {o : Option Qid} (ho : o = none ∨ o = some j) : o ≠ some i := by
    rcases ho with rfl | rfl
    · exact nofun
    · exact fun heq => hij (Option.some.inj heq).symm
  obtain ⟨o, hupdate, ho⟩ := tryRcv_inRcv hrcv
  refine h.of_eq (by rw [hqueue]) (by rw [hqueue]) fun u => ?_
  rw [hupdate]
  by_cases hu : u = t
  · rw [hu, Function.update_self]
    exact iff_of_false (hother ho) (hother hin)
  · rw [Function.update_of_ne hu]

/-- A send signals: it wakes a sleeping receiver if there is one. -/
theorem msgSend_wake {s s' : QState} {i : Qid} {msg : Msg} {wake : Option ThreadId}
    (h : msgSend s i msg wake = some s') :
    s'.inRcv = s.inRcv ∧ (s'.queue i).msgList.length ≤ (s.queue i).msgList.length + 1 ∧
      (((s.queue i).qCnd = [] ∧ (s'.queue i).qCnd = []) ∨
        ∃ t ∈ (s.queue i).qCnd, (s'.queue i).qCnd = (s.queue i).qCnd.erase t) := by
  simp only [msgSend, Option.bind_eq_bind, Option.bind_eq_some_iff] at h
  obtain ⟨s₁, hlink, s₂, hsignal, h⟩ := h
  cases h
  obtain ⟨hin, hlist, hcnd⟩ : s₁.inRcv = s.inRcv ∧
      (s₁.queue i).msgList.length ≤ (s.queue i).msgList.length + 1 ∧
      (s₁.queue i).qCnd = (s.queue i).qCnd := by
    obtain ⟨p, p', a, -, -, -, -, ⟨-, rfl⟩ | ⟨-, rfl⟩⟩ := linkMsg_cases hlink
    · exact ⟨rfl, Nat.le_succ _, rfl⟩
    · simp
  simp only [signal] at hsignal
  rw [← hin, ← hcnd]
  split at hsignal
  · split at hsignal
    · rename_i hempty
      cases hsignal
      refine ⟨rfl, ?_, .inl ⟨hempty, ?_⟩⟩
      · rw [setQ_queue_self]
        exact hlist
      · rw [setQ_queue_self]
        exact hempty
    · cases hsignal
  · rename_i t
    split at hsignal
    · rename_i hmem
      cases hsignal
      refine ⟨rfl, ?_, .inr ⟨t, hmem, ?_⟩⟩
      · simp only [setQ_queue_self]
        exact hlist
      · simp only [setQ_queue_self]
    · cases hsignal

theorem Watched.of_msgSend {s s' : QState} {i j : Qid} {awake : Finset ThreadId} {msg : Msg}
    {wake : Option ThreadId} (h : Watched s i awake) (hsend : msgSend s j msg wake = some s') :
    ∃ awake', Watched s' i awake' := by
  obtain ⟨hin, hlist, hcnd⟩ := msgSend_wake hsend
  by_cases hij : i = j
  · subst hij
    rcases hcnd with ⟨hnone, hnone'⟩ | ⟨t, ht, herase⟩
    · -- nobody sleeps, so nothing has to be shown of the number of messages
      refine ⟨awake, fun u => ?_, ?_, ?_, fun hne => absurd hnone' hne⟩
      · rw [h.mem_awake, hin, hnone, hnone']
      · rw [hnone']
        exact nofun
      · rw [hnone']
        exact List.nodup_nil
    · exact ⟨insert t awake, h.of_wake ht herase hlist hin⟩
  · have hqueue := (msgSend_touches hsend).others i hij
    exact ⟨awake, h.of_eq (by rw [hqueue]) (by rw [hqueue]) fun u => by rw [hin]⟩

theorem Watched.of_qStep {s s' : QState} {i : Qid} {awake : Finset ThreadId} {op : Op}
    (h : Watched s i awake) (hstep : qStep s op = some s') : ∃ awake', Watched s' i awake' := by
  have hrcv {t : ThreadId} {j : Qid} (hin : s.inRcv t = none ∨ s.inRcv t = some j)
      (hout : j = i → t ∉ (s.queue i).qCnd) (htry : tryRcv s t j = some s') :
      ∃ awake', Watched s' i awake' := by
    by_cases hij : i = j
    · subst hij
      exact ⟨awake.erase t, h.of_tryRcv htry (hout rfl)⟩
    · exact ⟨awake, h.of_tryRcv_other htry hij hin⟩
  cases op with
  | create maxmsg size mcbOk area tableOk =>
      simp only [qStep] at hstep
      split at hstep
      · cases hstep
        obtain ⟨m, n, id, f, hqueue⟩ := queue_of_create s maxmsg size mcbOk area tableOk i
        have hin : (msgCreateQ s maxmsg size mcbOk area tableOk).1.inRcv = s.inRcv := by
          rcases msgCreateQ_cases s maxmsg size mcbOk area tableOk with
            hres | ⟨j, k, -, -, hres⟩ | ⟨j, p, -, -, -, -, hres⟩ <;> rw [hres] <;> rfl
        exact ⟨awake, h.of_eq (by rw [hqueue]) (by rw [hqueue]) fun u => by rw [hin]⟩
      · cases hstep
  | send j msg wake => exact h.of_msgSend hstep
  | rcv t j =>
      simp only [qStep] at hstep
      split at hstep
      · rename_i hnone
        refine hrcv (.inl hnone) (fun _ hmem => ?_) hstep
        rw [h.asleep t hmem] at hnone
        cases hnone
      · cases hstep
  | resume t =>
      simp only [qStep, Option.bind_eq_bind, Option.bind_eq_some_iff] at hstep
      obtain ⟨j, hj, hstep⟩ := hstep
      split at hstep
      · cases hstep
      · rename_i hout
        exact hrcv (.inr hj) (fun hji => hji ▸ hout) hstep
  | spurious t =>
      simp only [qStep, Option.bind_eq_bind, Option.bind_eq_some_iff] at hstep
      obtain ⟨j, hj, hstep⟩ := hstep
      split at hstep
      · rename_i hmem
        cases hstep
        by_cases hij : i = j
        · subst hij
          refine ⟨insert t awake, h.of_wake hmem ?_ ?_ rfl⟩
          · rw [setQ_queue_self]
          · rw [setQ_queue_self]
            exact Nat.le_succ _
        · have hqueue := setQ_queue_of_ne s
            { s.queue j with qCnd := (s.queue j).qCnd.erase t } hij
          exact ⟨awake, h.of_eq (by rw [hqueue]) (by rw [hqueue]) fun u => Iff.rfl⟩
      · cases hstep

theorem watched_init (i : Qid) : Watched msgQInit i ∅ where
  mem_awake := fun t => by simp [msgQInit]
  asleep := nofun
  nodup := List.nodup_nil
  enough := fun hne => absurd rfl hne

theorem exists_watched {s : QState} {ops : List Op} (i : Qid)
    (h : PartialSteps.run qStep msgQInit ops = some s) : ∃ awake, Watched s i awake := by
  refine PartialSteps.run_invariant_always qStep (I := fun s => ∃ awake, Watched s i awake)
    (fun s op s' hs hstep => ?_) ⟨∅, watched_init i⟩ h
  obtain ⟨awake, hw⟩ := hs
  exact hw.of_qStep hstep

/-! ## The queue as its users see it -/

structure QueueOk (s : QState) (i : Qid) (linked : List Msg) : Prop where
  inOrder : (s.queue i).received.map Prod.snd <+: linked
  inUse : ∀ id p, (s.queue i).mpoolId = some id → getMemInfo s.mem id = some p →
    p.useblks = (s.queue i).msgList.length
  attended : (s.queue i).msgList ≠ [] → (s.queue i).qCnd ≠ [] →
    ∃ t, s.inRcv t = some i ∧ t ∉ (s.queue i).qCnd

theorem Watched.attended {s : QState} {i : Qid} {awake : Finset ThreadId} (h : Watched s i awake)
    (hlist : (s.queue i).msgList ≠ []) (hcnd : (s.queue i).qCnd ≠ []) :
    ∃ t, s.inRcv t = some i ∧ t ∉ (s.queue i).qCnd := by
  have hpos := List.length_pos_of_ne_nil hlist
  have henough := h.enough hcnd
  obtain ⟨t, ht⟩ := Finset.card_pos.mp (hpos.trans_le henough)
  exact ⟨t, (h.mem_awake t).mp ht⟩

theorem Sound.useblks {i : Qid} {s : QState} (h : Sound i s) {id : Nat} {p : MemInfo}
    (hid : (s.queue i).mpoolId = some id) (hp : getMemInfo s.mem id = some p) :
    p.useblks = (s.queue i).msgList.length := by
  rcases h.pool with hnone | ⟨q, idxs, hb, -⟩
  · rw [hnone] at hid
    cases hid
  · obtain rfl : q.memid = id := Option.some.inj (hb.pool.symm.trans hid)
    obtain rfl : q = p := Option.some.inj (hb.found.symm.trans hp)
    rw [hb.tracks.useblks, List.toFinset_card_of_nodup hb.nodup, hb.length]

/-- In every run of any number of senders and receivers, over a queue whose pool
can hold its nodes, the receivers get a prefix of what was linked, the pool has as
many blocks out as messages are queued, and no receiver sleeps on messages that
nobody else is about to take. -/
theorem queueOk_of_run (i : Qid) (ops : List Op) (s : QState)
    (hsound : PartialSteps.Meets qStep (SoundCreate i) msgQInit ops)
    (hrun : PartialSteps.run qStep msgQInit ops = some s) :
    QueueOk s i (linkedMsgs i msgQInit ops) := by
  have hs : Sound i s := PartialSteps.run_invariant qStep
    (fun _ _ _ h hc hstep => (h.of_qStep hc hstep).1) (sound_init i) hsound hrun
  obtain ⟨awake, hw⟩ := exists_watched i hrun
  refine ⟨?_, fun id p hid hp => hs.useblks hid hp, hw.attended⟩
  rw [← flow_eq_linkedMsgs i hrun]
  exact List.prefix_append _ _

/-- Two receivers sleep; a third one takes the message that the first was woken
for. -/
theorem queueOk_after_barging :
    ∃ s, PartialSteps.run qStep msgQInit
        [.create 3 8 true 4096 true, .rcv 0 9, .rcv 1 9, .send 9 7 (some 0), .rcv 2 9] = some s ∧
      (s.queue 9).received = [(2, 7)] ∧ (s.queue 9).qCnd = [1] ∧ QueueOk s 9 [7] := by
  refine ⟨_, rfl, rfl, rfl, queueOk_of_run 9 [.create 3 8 true 4096 true, .rcv 0 9, .rcv 1 9,
    .send 9 7 (some 0), .rcv 2 9] _ ?_ rfl⟩
  refine .cons rfl ?_ (.cons rfl trivial (.cons rfl trivial (.cons rfl trivial
    (.cons rfl trivial trivial))))
  exact fun _ => ⟨by decide, by decide, rfl⟩

/-- A run that ends with an empty list and a block that the pool counts as used. -/
theorem leaked_of_run {i : Qid} {ops : List Op} {id : Nat}
    (hrun : (PartialSteps.run qStep msgQInit ops).map (fun s => ((s.queue i).msgList,
      (s.queue i).mpoolId, (getMemInfo s.mem id).map MemInfo.useblks)) =
        some ([], some id, some 1)) :
    ∃ s, PartialSteps.run qStep msgQInit ops = some s ∧ (s.queue i).msgList = [] ∧
      ∃ p, (s.queue i).mpoolId = some id ∧ getMemInfo s.mem id = some p ∧ p.useblks = 1 ∧
        ¬ QueueOk s i (linkedMsgs i msgQInit ops) := by
  obtain ⟨s, hs, hfacts⟩ := Option.map_eq_some_iff.mp hrun
  simp only [Prod.mk.injEq] at hfacts
  obtain ⟨hlist, hid, hpool⟩ := hfacts
  obtain ⟨p, hp, huse⟩ := Option.map_eq_some_iff.mp hpool
  refine ⟨s, hs, hlist, p, hid, hp, huse, fun hok => ?_⟩
  have heq := hok.inUse id p hid hp
  rw [huse, hlist] at heq
  cases heq

/-- The blocks of a queue made for 7456541 messages have 178956984 bytes, and 24 of them come to
320 bytes in an `unsigned int`: no block fits into the area, and `free_blk` rejects the first
one.  With seven million messages the area is long enough, but the 14th block lies more than
2 GiB into it, which is too much for the `int` of `free_blk`. -/
theorem leaked_beyond_int :
    (let ops := [.create 7456541 8 true 4096 true, .send 9 7 none, .rcv 0 9]
      ∃ s, PartialSteps.run qStep msgQInit ops = some s ∧ (s.queue 9).msgList = [] ∧
        ∃ p, (s.queue 9).mpoolId = some 1 ∧ getMemInfo s.mem 1 = some p ∧ p.useblks = 1 ∧
          ¬ QueueOk s 9 (linkedMsgs 9 msgQInit ops)) ∧
    let ops := .create 7000000 8 true 4096 true ::
      (List.replicate 14 (.send 9 7 none) ++ List.replicate 14 (.rcv 0 9))
    ∃ s, PartialSteps.run qStep msgQInit ops = some s ∧ (s.queue 9).msgList = [] ∧
      ∃ p, (s.queue 9).mpoolId = some 1 ∧ getMemInfo s.mem 1 = some p ∧ p.useblks = 1 ∧
        ¬ QueueOk s 9 (linkedMsgs 9 msgQInit ops) := by
  constructor
  · exact leaked_of_run (by decide +kernel)
  · exact leaked_of_run (by decide +kernel)

end MsgQueue
end TmULThreads
