import TmULThreads.MsgQueue.Model

/-!
# Queues and their pools

Every queue that has been created has a pool of its own, so a step on one queue
changes neither the list of another one nor the pool behind it (`Touches`).  The
nodes linked in a queue are then exactly the blocks of its pool that are out
(`Backed`): a send takes a block that is not out, or finds that all are, and a
receive gives the block of the first node back.
-/

namespace TmULThreads
namespace MsgQueue

open Mem

/-! ## One queue at a time -/

/-- Only the queue `i` and its pool have changed. -/
structure Touches (i : Qid) (s s' : QState) : Prop where
  lastId : s'.mem.lastId = s.mem.lastId
  numbered : s.mem.Numbered → s'.mem.Numbered
  others : ∀ j, j ≠ i → s'.queue j = s.queue j
  pools : ∀ id, (s.queue i).mpoolId ≠ some id → getMemInfo s'.mem id = getMemInfo s.mem id
  mpoolId : (s'.queue i).mpoolId = (s.queue i).mpoolId
  flags : (s'.queue i).flags = (s.queue i).flags

namespace Touches

variable {i : Qid} {s s' s'' : QState}

theorem refl (i : Qid) (s : QState) : Touches i s s :=
  ⟨rfl, id, fun _ _ => rfl, fun _ _ => rfl, rfl, rfl⟩

theorem trans (h : Touches i s s') (h' : Touches i s' s'') : Touches i s s'' where
  lastId := h'.lastId.trans h.lastId
  numbered := h'.numbered ∘ h.numbered
  others := fun j hj => (h'.others j hj).trans (h.others j hj)
  pools := by
    intro id hid
    rw [← h.pools id hid]
    apply h'.pools
    rwa [h.mpoolId]
  mpoolId := h'.mpoolId.trans h.mpoolId
  flags := h'.flags.trans h.flags

/-- A change of the record alone. -/
theorem of_setQ {q : Q} (hid : q.mpoolId = (s.queue i).mpoolId)
    (hflags : q.flags = (s.queue i).flags) : Touches i s (s.setQ i q) where
  lastId := rfl
  numbered := id
  others := fun _ hj => setQ_queue_of_ne s q hj
  pools := fun _ _ => rfl
  mpoolId := by rw [setQ_queue_self, hid]
  flags := by rw [setQ_queue_self, hflags]

/-- A change of the pool alone. -/
theorem of_setMem {p p₀ : MemInfo} (hpool : (s.queue i).mpoolId = some p.memid)
    (hfound : getMemInfo s.mem p.memid = some p₀) :
    Touches i s { s with mem := s.mem.set p } where
  lastId := rfl
  numbered := by
    intro h
    obtain ⟨hmem, hid⟩ := getMemInfo_mem hfound
    exact Numbered.of_set h (hid ▸ h p₀ hmem)
  others := fun _ _ => rfl
  pools := by
    intro id hid
    apply getMemInfo_set_of_ne
    rintro rfl
    exact hid hpool
  mpoolId := rfl
  flags := rfl

end Touches

/-! ## What the calls do to a queue -/

theorem allocBlock_cases {m m' : MemState} {id a : Nat} (h : allocBlock m id = some (m', a)) :
    ∃ p p', getMemInfo m id = some p ∧ p.allocBlock = some (p', a) ∧ m' = m.set p' := by
  simp only [allocBlock, Option.bind_eq_bind, Option.bind_eq_some_iff, Option.some.injEq] at h
  obtain ⟨p, hp, ⟨p', a'⟩, halloc, hres⟩ := h
  obtain ⟨rfl, rfl⟩ := Prod.mk.inj hres
  exact ⟨p, p', hp, halloc, rfl⟩

/-- A send takes a block of the pool; it links a node there unless the pool had
none. -/
theorem linkMsg_cases {s s' : QState} {i : Qid} {msg : Msg} (h : linkMsg s i msg = some s') :
    ∃ p p' a, (s.queue i).mpoolId = some p.memid ∧ getMemInfo s.mem p.memid = some p ∧
      p'.memid = p.memid ∧ p.allocBlock = some (p', a) ∧
      ((a = 0 ∧ s' = { s with mem := s.mem.set p' }) ∨
        (a ≠ 0 ∧ s' = { s with mem := s.mem.set p' }.setQ i
          { s.queue i with msgList := (s.queue i).msgList ++ [(a, msg)] })) := by
  simp only [linkMsg, Option.bind_eq_bind, Option.bind_eq_some_iff] at h
  obtain ⟨id, hid, ⟨mem, a⟩, halloc, h⟩ := h
  obtain ⟨p, p', hfound, hblock, rfl⟩ := allocBlock_cases halloc
  obtain ⟨-, rfl⟩ := getMemInfo_mem hfound
  refine ⟨p, p', a, hid, hfound, memid_allocBlock hblock, hblock, ?_⟩
  by_cases ha : a = 0
  · rw [if_pos ha] at h
    exact .inl ⟨ha, (Option.some.inj h).symm⟩
  · rw [if_neg ha] at h
    simp only [Option.bind_eq_some_iff] at h
    obtain ⟨p₁, -, h⟩ := h
    split at h
    · exact .inr ⟨ha, (Option.some.inj h).symm⟩
    · cases h

theorem linkMsg_touches {s s' : QState} {i : Qid} {msg : Msg} (h : linkMsg s i msg = some s') :
    Touches i s s' := by
  obtain ⟨p, p', a, hid, hfound, hmemid, -, hcase⟩ := linkMsg_cases h
  have hmem : Touches i s { s with mem := s.mem.set p' } := by
    rw [← hmemid] at hid hfound
    exact Touches.of_setMem hid hfound
  rcases hcase with ⟨-, rfl⟩ | ⟨-, rfl⟩
  · exact hmem
  · exact hmem.trans (Touches.of_setQ rfl rfl)

/-- A signal changes only who is asleep. -/
theorem signal_cases {s s' : QState} {i : Qid} {wake : Option ThreadId}
    (h : signal s i wake = some s') :
    s' = s ∨ ∃ c, s' = s.setQ i { s.queue i with qCnd := c } := by
  simp only [signal] at h
  split at h
  · split at h
    · exact .inl (Option.some.inj h).symm
    · cases h
  · split at h
    · exact .inr ⟨_, (Option.some.inj h).symm⟩
    · cases h

/-- The part of a queue that a signal leaves alone, and the log. -/
theorem msgSend_cases {s s' : QState} {i : Qid} {msg : Msg} {wake : Option ThreadId}
    (h : msgSend s i msg wake = some s') :
    ∃ s₁ c, linkMsg s i msg = some s₁ ∧
      s' = s₁.setQ i { s₁.queue i with qCnd := c, sent := (s₁.queue i).sent ++ [msg] } := by
  simp only [msgSend, Option.bind_eq_bind, Option.bind_eq_some_iff] at h
  obtain ⟨s₁, hlink, s₂, hsignal, h⟩ := h
  cases h
  rcases signal_cases hsignal with rfl | ⟨c, rfl⟩
  · exact ⟨s₂, (s₂.queue i).qCnd, hlink, rfl⟩
  · refine ⟨s₁, c, hlink, ?_⟩
    simp only [QState.setQ, Function.update_self, Function.update_idem]

theorem msgSend_touches {s s' : QState} {i : Qid} {msg : Msg} {wake : Option ThreadId}
    (h : msgSend s i msg wake = some s') : Touches i s s' := by
  obtain ⟨s₁, c, hlink, rfl⟩ := msgSend_cases h
  exact (linkMsg_touches hlink).trans (Touches.of_setQ rfl rfl)

/-- A turn of `msg_rcv` goes to sleep, or takes the first message and gives its
block back. -/
theorem tryRcv_cases {s s' : QState} {t : ThreadId} {i : Qid} (h : tryRcv s t i = some s') :
    ((s.queue i).msgList = [] ∧
        s' = { s.setQ i { s.queue i with qCnd := (s.queue i).qCnd ++ [t] } with
          inRcv := Function.update s.inRcv t (some i) }) ∨
      ∃ a msg rest id mem ret, (s.queue i).msgList = (a, msg) :: rest ∧
        (s.queue i).mpoolId = some id ∧ freeBlk s.mem id a = some (mem, ret) ∧
        s' = { { s with mem := mem }.setQ i
            { s.queue i with msgList := rest, received := (s.queue i).received ++ [(t, msg)] } with
          inRcv := Function.update s.inRcv t none } := by
  simp only [tryRcv] at h
  split at h
  · rename_i hnil
    exact .inl ⟨hnil, (Option.some.inj h).symm⟩
  · rename_i a msg rest hcons
    simp only [Option.bind_eq_bind, Option.bind_eq_some_iff] at h
    obtain ⟨id, hid, ⟨mem, ret⟩, hfree, h⟩ := h
    exact .inr ⟨a, msg, rest, id, mem, ret, hcons, hid, hfree, (Option.some.inj h).symm⟩

theorem freeBlk_touches {s : QState} {i : Qid} {id a : Nat} {mem : MemState} {ret : Int}
    (hid : (s.queue i).mpoolId = some id) (h : freeBlk s.mem id a = some (mem, ret)) :
    Touches i s { s with mem := mem } := by
  unfold freeBlk at h
  split at h
  · cases h
    exact Touches.refl i s
  · rename_i p hfound
    obtain ⟨⟨p', ret'⟩, hfree, hres⟩ := Option.bind_eq_some_iff.mp h
    cases hres
    obtain ⟨-, rfl⟩ := getMemInfo_mem hfound
    rw [← memid_freeBlk hfree] at hid hfound
    exact Touches.of_setMem hid hfound

theorem tryRcv_touches {s s' : QState} {t : ThreadId} {i : Qid} (h : tryRcv s t i = some s') :
    Touches i s s' := by
  -- `inRcv` is not part of what `Touches` speaks about
  rcases tryRcv_cases h with ⟨-, rfl⟩ | ⟨a, msg, rest, id, mem, ret, -, hid, hfree, rfl⟩
  · have hset : Touches i s (s.setQ i { s.queue i with qCnd := (s.queue i).qCnd ++ [t] }) :=
      Touches.of_setQ rfl rfl
    exact ⟨hset.lastId, hset.numbered, hset.others, hset.pools, hset.mpoolId, hset.flags⟩
  · have hset := (freeBlk_touches hid hfree).trans (Touches.of_setQ (i := i)
      (q := { s.queue i with msgList := rest, received := (s.queue i).received ++ [(t, msg)] })
      rfl rfl)
    exact ⟨hset.lastId, hset.numbered, hset.others, hset.pools, hset.mpoolId, hset.flags⟩

/-! ## Every queue has a pool of its own -/

structure Wired (s : QState) : Prop where
  numbered : s.mem.Numbered
  known : ∀ i id, (s.queue i).mpoolId = some id → id ≤ s.mem.lastId
  own : ∀ i j id, (s.queue i).mpoolId = some id → (s.queue j).mpoolId = some id → i = j
  free : ∀ i, (s.queue i).flags = .free → (s.queue i).mpoolId = none
  unused : ∀ i, (s.queue i).mpoolId = none →
    (s.queue i).msgList = [] ∧ (s.queue i).sent = [] ∧ (s.queue i).received = []

theorem wired_init : Wired msgQInit where
  numbered := fun _ hp => absurd hp List.not_mem_nil
  known := nofun
  own := nofun
  free := fun _ _ => rfl
  unused := fun _ _ => ⟨rfl, rfl, rfl⟩

theorem Touches.mpoolId_eq {i : Qid} {s s' : QState} (h : Touches i s s') (j : Qid) :
    (s'.queue j).mpoolId = (s.queue j).mpoolId := by
  by_cases hj : j = i
  · rw [hj, h.mpoolId]
  · rw [h.others j hj]

theorem Wired.of_touches {i : Qid} {s s' : QState} (h : Wired s) (ht : Touches i s s')
    (hunused : (s.queue i).mpoolId = none →
      (s'.queue i).msgList = [] ∧ (s'.queue i).sent = [] ∧ (s'.queue i).received = []) :
    Wired s' where
  numbered := ht.numbered h.numbered
  known := by
    intro j id hid
    rw [ht.mpoolId_eq] at hid
    rw [ht.lastId]
    exact h.known j id hid
  own := by
    intro j k id hj hk
    rw [ht.mpoolId_eq] at hj hk
    exact h.own j k id hj hk
  free := by
    intro j hfree
    rw [ht.mpoolId_eq]
    apply h.free
    by_cases hj : j = i
    · rw [hj] at hfree ⊢
      rwa [ht.flags] at hfree
    · rwa [ht.others j hj] at hfree
  unused := by
    intro j hnone
    rw [ht.mpoolId_eq] at hnone
    by_cases hj : j = i
    · rw [hj] at hnone ⊢
      exact hunused hnone
    · rw [ht.others j hj]
      exact h.unused j hnone

theorem Wired.of_msgSend {s s' : QState} {i : Qid} {msg : Msg} {wake : Option ThreadId}
    (h : Wired s) (hsend : msgSend s i msg wake = some s') : Wired s' := by
  refine h.of_touches (msgSend_touches hsend) fun hnone => ?_
  obtain ⟨s₁, c, hlink, -⟩ := msgSend_cases hsend
  obtain ⟨p, -, -, hid, -⟩ := linkMsg_cases hlink
  rw [hnone] at hid
  cases hid

theorem Wired.of_tryRcv {s s' : QState} {t : ThreadId} {i : Qid} (h : Wired s)
    (hrcv : tryRcv s t i = some s') : Wired s' := by
  refine h.of_touches (tryRcv_touches hrcv) fun hnone => ?_
  obtain ⟨hlist, hsent, hrecv⟩ := h.unused i hnone
  rcases tryRcv_cases hrcv with ⟨-, rfl⟩ | ⟨a, msg, rest, id, mem, ret, hcons, -⟩
  · simp only [setQ_queue_self]
    exact ⟨hlist, hsent, hrecv⟩
  · rw [hlist] at hcons
    cases hcons

theorem getQid_free {s : QState} {i : Qid} (h : getQid s = some i) :
    (s.queue i).flags = .free := by
  have hfree := List.find?_some h
  simpa using hfree

/-- What `msg_create_Q` does: nothing, a failed attempt that leaves the queue
free, or a queue with a new pool. -/
theorem msgCreateQ_cases (s : QState) (maxmsg size : Int) (mcbOk : Bool) (area : Nat)
    (tableOk : Bool) :
    (msgCreateQ s maxmsg size mcbOk area tableOk = (s, none)) ∨
      (∃ i k, getQid s = some i ∧ s.mem.lastId ≤ k ∧
        msgCreateQ s maxmsg size mcbOk area tableOk =
          ({ s with mem := ⟨s.mem.hdMcb, k⟩ }.setQ i { s.queue i with mpoolId := none }, none)) ∨
      ∃ i p, getQid s = some i ∧ mcbOk = true ∧ area ≠ 0 ∧
        p = newPool (s.mem.lastId + 1) (toSizeT maxmsg * sizeofMsg % 2 ^ 64) sizeofMsg area tableOk ∧
        msgCreateQ s maxmsg size mcbOk area tableOk =
          ({ s with mem := ⟨s.mem.hdMcb ++ [p], s.mem.lastId + 1⟩ }.setQ i
            { s.queue i with mpoolId := some (s.mem.lastId + 1), maxMsg := maxmsg, size := size,
                             flags := .active }, some i) := by
  unfold msgCreateQ
  cases hqid : getQid s with
  | none => exact .inl rfl
  | some i =>
      right
      simp only [createPool, memPoolCreate]
      by_cases hmcb : mcbOk = true
      · by_cases harea : area = 0
        · left
          refine ⟨i, s.mem.lastId + 1, rfl, Nat.le_succ _, ?_⟩
          simp only [hmcb, harea, not_true_eq_false, if_false, if_true]
        · right
          refine ⟨i, _, rfl, hmcb, harea, rfl, ?_⟩
          simp only [hmcb, harea, not_true_eq_false, if_false]
      · left
        refine ⟨i, s.mem.lastId, rfl, le_rfl, ?_⟩
        rw [if_pos hmcb]

/-- A queue gets a pool with an identifier larger than all that are in use. -/
theorem Wired.of_newPool {s : QState} (h : Wired s) {i : Qid} {p : MemInfo} {q : Q}
    (hp : p.memid = s.mem.lastId + 1) (hpool : q.mpoolId = some (s.mem.lastId + 1))
    (hflags : q.flags ≠ .free) :
    Wired ({ s with mem := ⟨s.mem.hdMcb ++ [p], s.mem.lastId + 1⟩ }.setQ i q) := by
  have hold (j : Qid) (hj : j ≠ i) :
      (({ s with mem := ⟨s.mem.hdMcb ++ [p], s.mem.lastId + 1⟩ } : QState).setQ i q).queue j =
        s.queue j :=
    setQ_queue_of_ne _ _ hj
  have hfresh (l : Qid) (hl : (s.queue l).mpoolId = some (s.mem.lastId + 1)) : False :=
    absurd (h.known l _ hl) (by omega)
  constructor
  · intro r hr
    rcases List.mem_append.mp hr with hr | hr
    · exact (h.numbered r hr).trans (Nat.le_succ _)
    · rw [List.mem_singleton.mp hr, hp]
      rfl
  · intro j id hid
    by_cases hj : j = i
    · rw [hj, setQ_queue_self, hpool] at hid
      cases hid
      rfl
    · rw [hold j hj] at hid
      exact (h.known j id hid).trans (Nat.le_succ _)
  · intro j k id hjd hkd
    by_cases hj : j = i
    · by_cases hk : k = i
      · rw [hj, hk]
      · rw [hj, setQ_queue_self, hpool] at hjd
        cases hjd
        rw [hold k hk] at hkd
        exact (hfresh k hkd).elim
    · rw [hold j hj] at hjd
      by_cases hk : k = i
      · rw [hk, setQ_queue_self, hpool] at hkd
        cases hkd
        exact (hfresh j hjd).elim
      · rw [hold k hk] at hkd
        exact h.own j k id hjd hkd
  · intro j hfree
    by_cases hj : j = i
    · rw [hj, setQ_queue_self] at hfree
      exact absurd hfree hflags
    · rw [hold j hj] at hfree ⊢
      exact h.free j hfree
  · intro j hnone
    by_cases hj : j = i
    · rw [hj, setQ_queue_self, hpool] at hnone
      cases hnone
    · rw [hold j hj] at hnone ⊢
      exact h.unused j hnone

theorem Wired.of_create {s : QState} (h : Wired s) (maxmsg size : Int) (mcbOk : Bool)
    (area : Nat) (tableOk : Bool) : Wired (msgCreateQ s maxmsg size mcbOk area tableOk).1 := by
  rcases msgCreateQ_cases s maxmsg size mcbOk area tableOk with
    hres | ⟨i, k, hqid, hk, hres⟩ | ⟨i, p, hqid, -, -, hp, hres⟩
  · rw [hres]
    exact h
  · -- the queue was free, so it had no pool before either
    have hnone := h.free i (getQid_free hqid)
    have hsame : { s with mem := ⟨s.mem.hdMcb, k⟩ }.setQ i { s.queue i with mpoolId := none } =
        { s with mem := ⟨s.mem.hdMcb, k⟩ } := by
      simp only [QState.setQ, ← hnone, Function.update_eq_self]
    rw [hres, hsame]
    exact ⟨fun p hp => (h.numbered p hp).trans hk, fun j id hid => (h.known j id hid).trans hk,
      h.own, h.free, h.unused⟩
  · rw [hres]
    have hmemid : p.memid = s.mem.lastId + 1 := by rw [hp, memid_newPool]
    exact h.of_newPool hmemid rfl fun hfree => nomatch hfree

theorem Wired.of_qStep {s s' : QState} {op : Op} (h : Wired s) (hstep : qStep s op = some s') :
    Wired s' := by
  cases op with
  | create maxmsg size mcbOk area tableOk =>
      simp only [qStep] at hstep
      split at hstep
      · cases hstep
        exact h.of_create maxmsg size mcbOk area tableOk
      · cases hstep
  | send i msg wake => exact h.of_msgSend hstep
  | rcv t i =>
      simp only [qStep] at hstep
      split at hstep
      · exact h.of_tryRcv hstep
      · cases hstep
  | resume t =>
      simp only [qStep, Option.bind_eq_bind, Option.bind_eq_some_iff] at hstep
      obtain ⟨i, -, hstep⟩ := hstep
      split at hstep
      · cases hstep
      · exact h.of_tryRcv hstep
  | spurious t =>
      simp only [qStep, Option.bind_eq_bind, Option.bind_eq_some_iff] at hstep
      obtain ⟨i, -, hstep⟩ := hstep
      split at hstep
      · cases hstep
        refine h.of_touches (Touches.of_setQ rfl rfl) fun hnone => ?_
        rw [setQ_queue_self]
        exact h.unused i hnone
      · cases hstep

/-! ## The nodes of a queue are the blocks that are out -/

structure Backed (s : QState) (i : Qid) (p : MemInfo) (idxs : List Nat) : Prop where
  pool : (s.queue i).mpoolId = some p.memid
  found : getMemInfo s.mem p.memid = some p
  nodup : idxs.Nodup
  tracks : Tracks p idxs.toFinset
  addrs : (s.queue i).msgList.map Prod.fst = idxs.map p.blockAddr

theorem Backed.length {s : QState} {i : Qid} {p : MemInfo} {idxs : List Nat}
    (h : Backed s i p idxs) : (s.queue i).msgList.length = idxs.length := by
  have hlen := congrArg List.length h.addrs
  simpa using hlen

/-- Changes that leave the list of the queue and its pool alone. -/
theorem Backed.of_eq {s s' : QState} {i : Qid} {p : MemInfo} {idxs : List Nat}
    (h : Backed s i p idxs) (hid : (s'.queue i).mpoolId = (s.queue i).mpoolId)
    (hlist : (s'.queue i).msgList = (s.queue i).msgList)
    (hpool : getMemInfo s'.mem p.memid = getMemInfo s.mem p.memid) : Backed s' i p idxs where
  pool := hid.trans h.pool
  found := hpool.trans h.found
  nodup := h.nodup
  tracks := h.tracks
  addrs := hlist ▸ h.addrs

/-- Steps on another queue do not matter. -/
theorem Backed.of_touches {s s' : QState} {i j : Qid} {p : MemInfo} {idxs : List Nat}
    (h : Backed s i p idxs) (hw : Wired s) (ht : Touches j s s') (hne : i ≠ j) :
    Backed s' i p idxs := by
  have hqueue := ht.others i hne
  refine h.of_eq (by rw [hqueue]) (by rw [hqueue]) (ht.pools _ fun hj => ?_)
  exact hne (hw.own i j _ h.pool hj)

/-- `alloc_block` on the pool of the queue returns a block. -/
def findsBlock (s : QState) (i : Qid) : Bool :=
  match (s.queue i).mpoolId with
  | none => false
  | some id =>
      match allocBlock s.mem id with
      | none => false
      | some (_, a) => a ≠ 0

/-- A send into a queue: the pool is empty and nothing is linked, or one more
block is out and the message stands at the end of the list. -/
theorem Backed.of_linkMsg {s s' : QState} {i : Qid} {p : MemInfo} {idxs : List Nat} {msg : Msg}
    (h : Backed s i p idxs) (hlink : linkMsg s i msg = some s') :
    (idxs.length = p.nblks.toNat ∧ findsBlock s i = false ∧ Backed s' i p idxs ∧
        s'.queue = s.queue) ∨
      ∃ k p' a, idxs.length < p.nblks.toNat ∧ findsBlock s i = true ∧
        Backed s' i p' (idxs ++ [k]) ∧ SamePool p p' ∧
        s'.queue i = { s.queue i with msgList := (s.queue i).msgList ++ [(a, msg)] } := by
  obtain ⟨p₀, p', a, hid, hfound, hmemid, halloc, hcase⟩ := linkMsg_cases hlink
  obtain rfl : p₀ = p := by
    have hsame : p₀.memid = p.memid := Option.some.inj (hid.symm.trans h.pool)
    rw [hsame, h.found] at hfound
    exact (Option.some.inj hfound).symm
  have hcard : idxs.toFinset.card = idxs.length := List.toFinset_card_of_nodup h.nodup
  have hfinds : findsBlock s i = decide (a ≠ 0) := by
    simp only [findsBlock, h.pool, allocBlock, h.found, halloc, Option.bind_eq_bind,
      Option.bind_some]
  have hself : getMemInfo (s.mem.set p') p'.memid = some p' := by
    rw [← hmemid] at hfound
    exact getMemInfo_set_self hfound
  rcases h.tracks.allocBlock_cases with ⟨hfull, hnull⟩ | ⟨k, q, hk, hnew, hroom, hblock, htracks, hsame⟩
  · left
    rw [hnull] at halloc
    cases halloc
    obtain ⟨-, rfl⟩ := hcase.resolve_right fun hne => hne.1 rfl
    exact ⟨hcard.symm.trans hfull, hfinds, ⟨h.pool, hself, h.nodup, h.tracks, h.addrs⟩, rfl⟩
  · right
    rw [hblock] at halloc
    cases halloc
    obtain ⟨-, rfl⟩ := hcase.resolve_left fun hzero => h.tracks.addr_ne k hk hzero.1
    have hnotin : k ∉ idxs := fun hmem => hnew (List.mem_toFinset.mpr hmem)
    refine ⟨k, p', p₀.blockAddr k, hcard ▸ hroom, ?_, ?_, hsame, setQ_queue_self ..⟩
    · rw [hfinds, decide_eq_true_eq]
      exact h.tracks.addr_ne k hk
    constructor
    · rw [setQ_queue_self, hmemid]
      exact h.pool
    · exact hself
    · exact List.nodup_append.mpr ⟨h.nodup, List.nodup_singleton k, by
        rintro x hx y hy rfl
        exact hnotin (List.mem_singleton.mp hy ▸ hx)⟩
    · have hset : (idxs ++ [k]).toFinset = insert k idxs.toFinset := by
        ext x
        simp
      rw [hset]
      exact htracks
    · rw [setQ_queue_self, List.map_append, h.addrs, hsame.blockAddr, List.map_append]
      rfl

/-! ## Pools with room for their nodes -/

/-- The pool of a queue, where a block holds a node and the whole area is
addressed by an `int`. -/
structure Roomy (p : MemInfo) : Prop where
  sized : Sized p
  node : sizeofMsg ≤ p.size
  nblks : p.nblks = sizeofMsg

theorem SamePool.roomy {p q : MemInfo} (h : SamePool p q) (hp : Roomy p) : Roomy q where
  sized := SamePool.sized h hp.sized
  node := by
    rw [h.size]
    exact hp.node
  nblks := h.nblks.trans hp.nblks

/-- Blocks of different index do not overlap. -/
theorem Roomy.apart {p : MemInfo} (h : Roomy p) {j k : Nat} (hj : j < p.nblks.toNat)
    (hk : k < p.nblks.toNat) (hne : j ≠ k) :
    p.blockAddr k + sizeofMsg ≤ p.blockAddr j ∨ p.blockAddr j + sizeofMsg ≤ p.blockAddr k := by
  have hnode := h.node
  rw [(h.sized.blockAddr hj).1, (h.sized.blockAddr hk).1]
  rcases Nat.lt_or_gt_of_ne hne with hlt | hgt
  · right
    have hstep : (j + 1) * p.size ≤ k * p.size := Nat.mul_le_mul_right _ hlt
    rw [Nat.succ_mul] at hstep
    omega
  · left
    have hstep : (k + 1) * p.size ≤ j * p.size := Nat.mul_le_mul_right _ hgt
    rw [Nat.succ_mul] at hstep
    omega

theorem Backed.lt_of_mem {s : QState} {i : Qid} {p : MemInfo} {idxs : List Nat}
    (h : Backed s i p idxs) {k : Nat} (hk : k ∈ idxs) : k < p.nblks.toNat :=
  Finset.mem_range.mp (h.tracks.sub (List.mem_toFinset.mpr hk))

/-- The node that a send writes lies in the pool and apart from the others. -/
theorem Backed.nodeOk_block {s : QState} {i : Qid} {p p' : MemInfo} {idxs : List Nat}
    (h : Backed s i p idxs) (hroomy : Roomy p) (hsame : SamePool p p') {k : Nat}
    (hk : k < p.nblks.toNat) (hnew : k ∉ idxs) :
    nodeOk p' (s.queue i) (p.blockAddr k) = true := by
  obtain ⟨haddr, hend⟩ := hroomy.sized.blockAddr hk
  have hnode := hroomy.node
  simp only [nodeOk, Bool.and_eq_true, decide_eq_true_eq, List.all_eq_true, Bool.or_eq_true,
    hsame.saddr, hsame.eaddr]
  refine ⟨⟨by omega, by omega⟩, fun e he => ?_⟩
  have hmem : e.1 ∈ idxs.map p.blockAddr := by
    rw [← h.addrs]
    exact List.mem_map_of_mem he
  obtain ⟨j, hj, hje⟩ := List.mem_map.mp hmem
  rw [← hje]
  exact hroomy.apart (h.lt_of_mem hj) hk fun heq => hnew (heq ▸ hj)

/-- A send into a roomy queue has an outcome. -/
theorem Backed.exists_linkMsg {s : QState} {i : Qid} {p : MemInfo} {idxs : List Nat}
    (h : Backed s i p idxs) (hroomy : Roomy p) (msg : Msg) : ∃ s', linkMsg s i msg = some s' := by
  rcases h.tracks.allocBlock_cases with ⟨-, hnull⟩ | ⟨k, p', hk, hnew, -, hblock, -, hsame⟩
  · refine ⟨{ s with mem := s.mem.set p }, ?_⟩
    simp only [linkMsg, h.pool, allocBlock, h.found, hnull, Option.bind_eq_bind, Option.bind_some,
      if_true]
  · have hfound : getMemInfo (s.mem.set p') p.memid = some p' := by
      rw [← hsame.memid]
      apply getMemInfo_set_self (q := p)
      rw [hsame.memid]
      exact h.found
    have hnode := h.nodeOk_block hroomy hsame hk fun hmem => hnew (List.mem_toFinset.mpr hmem)
    refine ⟨{ s with mem := s.mem.set p' }.setQ i { s.queue i with
      msgList := (s.queue i).msgList ++ [(p.blockAddr k, msg)] }, ?_⟩
    simp only [linkMsg, h.pool, allocBlock, h.found, hblock, Option.bind_eq_bind, Option.bind_some,
      h.tracks.addr_ne k hk, if_false, hfound, hnode, if_true]

/-- A receive from a roomy queue that is not empty returns the first message and
gives its block back. -/
theorem Backed.tryRcv_cons {s : QState} {i : Qid} {p : MemInfo} {idxs : List Nat}
    (h : Backed s i p idxs) (hroomy : Roomy p) (t : ThreadId) {a : Nat} {msg : Msg}
    {rest : List (Nat × Msg)} (hlist : (s.queue i).msgList = (a, msg) :: rest) :
    ∃ s' p', tryRcv s t i = some s' ∧ Backed s' i p' idxs.tail ∧ SamePool p p' ∧
      s'.inRcv = Function.update s.inRcv t none ∧
      s'.queue i = { s.queue i with msgList := rest,
                                    received := (s.queue i).received ++ [(t, msg)] } := by
  have haddrs := h.addrs
  rw [hlist] at haddrs
  cases idxs with
  | nil => cases haddrs
  | cons k ks =>
      obtain ⟨hk, hks⟩ := List.cons.inj haddrs
      replace hk : a = p.blockAddr k := hk
      obtain ⟨hnot, hnodup⟩ := List.nodup_cons.mp h.nodup
      have hused : k ∈ (k :: ks).toFinset := List.mem_toFinset.mpr (.head _)
      obtain ⟨p', -, hfree, htracks, hsame⟩ :=
        (h.tracks.freeBlk_block hroomy.sized (h.lt_of_mem (.head _))).resolve_left
          fun hout => hout.1 hused
      have hset : (k :: ks).toFinset.erase k = ks.toFinset := by
        rw [List.toFinset_cons, Finset.erase_insert fun hmem => hnot (List.mem_toFinset.mp hmem)]
      have hrcv : freeBlk s.mem p.memid a = some (s.mem.set p', 0) := by
        rw [hk, freeBlk, h.found]
        simp only [hfree, Option.bind_eq_bind, Option.bind_some]
      have hfound : getMemInfo (s.mem.set p') p'.memid = some p' := by
        apply getMemInfo_set_self (q := p)
        rw [hsame.memid]
        exact h.found
      refine ⟨{ { s with mem := s.mem.set p' }.setQ i
            { s.queue i with msgList := rest, received := (s.queue i).received ++ [(t, msg)] } with
          inRcv := Function.update s.inRcv t none }, p', ?_, ?_, hsame, rfl, setQ_queue_self ..⟩
      · simp only [tryRcv, hlist, h.pool, hrcv, Option.bind_eq_bind, Option.bind_some]
      · constructor
        · rw [setQ_queue_self, hsame.memid]
          exact h.pool
        · exact hfound
        · exact hnodup
        · rw [List.tail_cons, ← hset]
          exact htracks
        · rw [setQ_queue_self, hsame.blockAddr]
          exact hks

end MsgQueue
end TmULThreads
