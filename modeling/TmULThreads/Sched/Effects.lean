import TmULThreads.Sched.Queues

/-!
# What a step of the scheduler does

`Effect` lists, once and for all operations, what a step can do to the lists,
the `onrq` flags, the priorities, the two counters, `current` and the cached
next task.  The invariants are proved from it, without looking at the functions
again.

Its cases are a step that touches nothing of this, a wait of the current task, a
wakeup of a given task, wakeups of tasks that were found in a list (`unlock`,
`wake_io_task` and `post_event`), a new task, and a `schedule`.
-/

namespace TmULThreads
namespace Sched

/-! ## The kinds of step -/

/-- A step that nothing looked at here can see. -/
structure Untouched (s s' : SchedState) : Prop extends Quiet s s' where
  prio : ∀ t, (s'.tsk t).prio = (s.tsk t).prio
  current : s'.current = s.current
  cache : s'.nxtImmTask = s.nxtImmTask
  nrp : s'.nrp = s.nrp
  nwp : s'.nwp = s.nwp

/-- The current task has put itself on the list `h`, which is not a run queue. -/
structure Waited (h : Head) (s s' : SchedState) : Prop where
  moved : Moved s.current h s s'
  not_rq : h.isRq = false
  prio : ∀ t, (s'.tsk t).prio = (s.tsk t).prio
  current : s'.current = s.current
  cache : s'.nxtImmTask = s.nxtImmTask

/-- The task `p` has been woken: it is on a run queue now, and it may have become
the cached task. -/
structure Woken (p : TaskId) (s s' : SchedState) : Prop where
  change :
    ((s.tsk p).onrq = true ∧ Quiet s s' ∧ s'.nrp = s.nrp ∧ s'.nwp = s.nwp) ∨
      ((s.tsk p).onrq = false ∧ Moved p (.rq (s.tsk p).prio) s s' ∧ s'.nrp = s.nrp + 1 ∧
        s'.nwp = s.nwp - 1)
  prio : ∀ t, (s'.tsk t).prio = (s.tsk t).prio
  current : s'.current = s.current
  cache : ∀ c, s'.nxtImmTask = some c → c = p ∨ s.nxtImmTask = some c

/-- Wakeups of tasks that are linked somewhere, one after the other. -/
inductive Wakes : SchedState → SchedState → Prop
  | done (s : SchedState) : Wakes s s
  | wake {s mid s' : SchedState} {p : TaskId} {h : Head} (hmem : p ∈ s.hd h)
      (hwoken : Woken p s mid) (hrest : Wakes mid s') : Wakes s s'

/-- The task `p` is new. -/
structure Joined (p : TaskId) (k : Fin maxPrio) (s s' : SchedState) : Prop where
  spawned : Spawned p k s s'
  prio_self : (s'.tsk p).prio = k
  prio_other : ∀ t, t ≠ p → (s'.tsk t).prio = (s.tsk t).prio
  current : s'.current = s.current
  cache : ∀ c, s'.nxtImmTask = some c → c = p ∨ s.nxtImmTask = some c
  nrp : s'.nrp = s.nrp + 1
  nwp : s'.nwp = s.nwp

/-- Electing `e` does not change its priority. -/
def KeepsPrio (s : SchedState) (e : TaskId) : Prop :=
  e = s.idle ∨ e = s.current ∨ isDemoted s e = false ∨ (s.tsk e).prio = 19

instance (s : SchedState) (e : TaskId) : Decidable (KeepsPrio s e) :=
  inferInstanceAs (Decidable (_ ∨ _))

/-- The task `e` has been elected and is the current one now. -/
structure Switched (e : TaskId) (s s' : SchedState) : Prop where
  elected : (getNextEligibleTaskToRun s).2 = some e
  change :
    Quiet s s' ∨ ((∃ k, e ∈ s.hd (.rq k)) ∧ Moved e (.rq (s.tsk e).prio) s s')
  onrq : ∀ t, (s'.tsk t).onrq = (s.tsk t).onrq
  prio : KeepsPrio s e → ∀ t, (s'.tsk t).prio = (s.tsk t).prio
  demoted : ¬ KeepsPrio s e → (s'.tsk e).prio = 19
  current : s'.current = e
  cache : ∀ c, s'.nxtImmTask = some c → s.nxtImmTask = some c
  nrp : s'.nrp = s.nrp
  nwp : s'.nwp = s.nwp

/-! ## Waiting -/

theorem moved_listAddTail (s : SchedState) (p : TaskId) (h : Head) (t : Tsk)
    (honrq : t.onrq = h.isRq) : Moved p h s ((listAddTail (listDel s p) p h).setTsk p t) where
  live := rfl
  taskid := le_rfl
  idle := rfl
  parent := rfl
  hd_self := by
    show (Function.update (listDel s p).hd h _ h).Perm _
    rw [Function.update_self]
    exact List.perm_append_singleton p _
  hd_other := fun h' hne => Function.update_of_ne hne ..
  onrq_self := by rw [setTsk_tsk_self, honrq]
  onrq_other := fun q hq => by
    rw [setTsk_tsk_of_ne _ t hq]
    rfl

/-- Writing a task leaves the priorities alone if its own is the same. -/
theorem prio_setTsk {s : SchedState} {p : TaskId} {t : Tsk} (h : t.prio = (s.tsk p).prio)
    (q : TaskId) : ((s.setTsk p t).tsk q).prio = (s.tsk q).prio := by
  by_cases hq : q = p
  · rw [hq, setTsk_tsk_self, h]
  · rw [setTsk_tsk_of_ne s t hq]

/-- The three ways of waiting differ in the list, and in what they do to the
counters. -/
theorem waited_setTsk {s : SchedState} {h : Head} (t : Tsk) (hrq : h.isRq = false)
    (honrq : t.onrq = false) (hprio : t.prio = (s.tsk s.current).prio) (n m : Int) :
    Waited h s { (listAddTail (listDel s s.current) s.current h).setTsk s.current t with
      nrp := n, nwp := m } where
  moved := Moved.of_quiet (Quiet.refl s) (moved_listAddTail s s.current h t (honrq.trans hrq.symm))
    ⟨rfl, le_rfl, rfl, rfl, rfl, fun _ => rfl⟩
  not_rq := hrq
  prio := prio_setTsk (s := listAddTail (listDel s s.current) s.current h) hprio
  current := rfl
  cache := rfl

/-- A wait moves the task to the wait queue, unless it is waiting already. -/
theorem addTaskToWaitQ_cases (s : SchedState) (now : Int) :
    ((s.tsk s.current).onrq = false ∧ addTaskToWaitQ s s.current now = s) ∨
      ((s.tsk s.current).onrq = true ∧ Waited .wq s (addTaskToWaitQ s s.current now) ∧
        (addTaskToWaitQ s s.current now).nrp = s.nrp - 1 ∧
        (addTaskToWaitQ s s.current now).nwp = s.nwp + 1) := by
  unfold addTaskToWaitQ
  cases honrq : (s.tsk s.current).onrq with
  | false => exact .inl ⟨rfl, if_neg Bool.false_ne_true⟩
  | true =>
      right
      rw [if_pos rfl]
      let t := { s.tsk s.current with state := .interruptible, onrq := false, stime := now }
      exact ⟨rfl, waited_setTsk t rfl rfl rfl _ _, rfl, rfl⟩

theorem waited_queueOnFd (s : SchedState) (fd : Fin maxFds) : Waited (.io fd) s (queueOnFd s fd) :=
  waited_setTsk { s.tsk s.current with onrq := false } rfl rfl rfl _ _

theorem waited_lockPass {s : SchedState} {l : LockId} (h : (s.lock l).lock ≠ 0) :
    Waited (.lock l) s (lockPass s l) := by
  unfold lockPass
  rw [if_pos h]
  exact waited_setTsk { s.tsk s.current with onrq := false } rfl rfl rfl s.nrp _

theorem untouched_lockPass {s : SchedState} {l : LockId} (h : (s.lock l).lock = 0) :
    Untouched s (lockPass s l) := by
  unfold lockPass
  rw [if_neg (not_not.mpr h)]
  exact ⟨⟨rfl, le_rfl, rfl, rfl, rfl, fun _ => rfl⟩, fun _ => rfl, rfl, rfl, rfl, rfl⟩

/-! ## Waking -/

theorem moved_listAdd (s : SchedState) (p : TaskId) (h : Head) (t : Tsk)
    (honrq : t.onrq = h.isRq) : Moved p h s ((listAdd (listDel s p) p h).setTsk p t) where
  live := rfl
  taskid := le_rfl
  idle := rfl
  parent := rfl
  hd_self := by
    show (Function.update (listDel s p).hd h _ h).Perm _
    rw [Function.update_self]
    exact List.Perm.refl _
  hd_other := fun h' hne => Function.update_of_ne hne ..
  onrq_self := by rw [setTsk_tsk_self, honrq]
  onrq_other := fun q hq => by
    rw [setTsk_tsk_of_ne _ t hq]
    rfl

/-- The task `p` is announced to the scheduler: nothing but the cached task
changes, and that only to `p`. -/
structure Announced (p : TaskId) (s s' : SchedState) : Prop extends Quiet s s' where
  prio : ∀ t, (s'.tsk t).prio = (s.tsk t).prio
  current : s'.current = s.current
  cache : ∀ c, s'.nxtImmTask = some c → c = p ∨ s.nxtImmTask = some c
  nrp : s'.nrp = s.nrp
  nwp : s'.nwp = s.nwp

theorem Announced.trans {p : TaskId} {s s' s'' : SchedState} (h : Announced p s s')
    (h' : Announced p s' s'') : Announced p s s'' where
  toQuiet := h.toQuiet.trans h'.toQuiet
  prio := fun t => (h'.prio t).trans (h.prio t)
  current := h'.current.trans h.current
  cache := fun c hc => (h'.cache c hc).elim .inl (h.cache c)
  nrp := h'.nrp.trans h.nrp
  nwp := h'.nwp.trans h.nwp

theorem announced_requestSched (s : SchedState) (p : TaskId) :
    Announced p s (requestSched s p) := by
  unfold requestSched
  split <;>
    exact ⟨⟨rfl, le_rfl, rfl, rfl, rfl, fun _ => rfl⟩, fun _ => rfl, rfl, fun _ => .inr, rfl, rfl⟩

theorem announced_cacheTask (s : SchedState) (p : TaskId) : Announced p s (cacheTask s p) := by
  have hset : Announced p s { s with nxtImmTask := some p } :=
    ⟨⟨rfl, le_rfl, rfl, rfl, rfl, fun _ => rfl⟩, fun _ => rfl, rfl,
      fun c hc => .inl (Option.some.inj hc).symm, rfl, rfl⟩
  unfold cacheTask
  split
  · split
    · exact hset
    · exact ⟨Quiet.refl s, fun _ => rfl, rfl, fun _ => .inr, rfl, rfl⟩
  · exact hset

theorem announced_setTsk {s : SchedState} {p : TaskId} {t : Tsk}
    (honrq : t.onrq = (s.tsk p).onrq) (hprio : t.prio = (s.tsk p).prio) :
    Announced p s (s.setTsk p t) :=
  ⟨quiet_setTsk honrq, prio_setTsk hprio, rfl, fun _ => .inr, rfl, rfl⟩

theorem woken_wakeupTask (s : SchedState) (p : TaskId) (now : Int) :
    Woken p s (wakeupTask s p now) := by
  have htail (u : SchedState) : Announced p u ((cacheTask (requestSched u p) p).setTsk p
      { (cacheTask (requestSched u p) p).tsk p with
        stime := now - ((cacheTask (requestSched u p) p).tsk p).stime }) :=
    ((announced_requestSched u p).trans (announced_cacheTask _ p)).trans (announced_setTsk rfl rfl)
  unfold wakeupTask
  cases honrq : (s.tsk p).onrq with
  | true =>
      have hs := htail s
      exact ⟨.inl ⟨honrq, hs.toQuiet, hs.nrp, hs.nwp⟩, hs.prio, hs.current, hs.cache⟩
  | false =>
      let moved := (listAdd (listDel s p) p (.rq (s.tsk p).prio)).setTsk p
        { s.tsk p with onrq := true }
      have hm : Moved p (.rq (s.tsk p).prio) s moved := moved_listAdd s p _ _ rfl
      have hprio : ∀ t, (moved.tsk t).prio = (s.tsk t).prio :=
        prio_setTsk (s := listAdd (listDel s p) p (.rq (s.tsk p).prio)) rfl
      let mid : SchedState := { moved with nrp := s.nrp + 1, nwp := s.nwp - 1 }
      have hmid : Quiet moved mid := ⟨rfl, le_rfl, rfl, rfl, rfl, fun _ => rfl⟩
      have hs := htail mid
      exact ⟨.inr ⟨honrq, Moved.of_quiet (Quiet.refl s) hm (hmid.trans hs.toQuiet), hs.nrp, hs.nwp⟩,
        fun t => (hs.prio t).trans (hprio t), hs.current, hs.cache⟩

/-! ## New tasks -/

/-- A new task is announced before and after it is linked. -/
theorem wakeupNewTask_announced (s : SchedState) (p : TaskId) (now : Int) :
    ∃ mid, Announced p s mid ∧ Announced p (taskFindRightRQ mid p) (wakeupNewTask s p now) :=
  ⟨requestSched s p, announced_requestSched s p,
    (announced_cacheTask _ p).trans (announced_setTsk rfl rfl)⟩

theorem joined_spawnTask (s : SchedState) (k : Fin maxPrio) (now : Int) :
    Joined (s.taskid + 1) k s (spawnTask s k true true true now).1 := by
  let p := s.taskid + 1
  let fresh : SchedState :=
    { { s with taskid := p, live := s.live ++ [p] }.setTsk p { prio := k } with
      taskCount := s.taskCount + 1 }
  obtain ⟨mid, hmid, hlast⟩ := wakeupNewTask_announced fresh p now
  have hk : (mid.tsk p).prio = k := by
    rw [hmid.prio]
    exact congrArg Tsk.prio (setTsk_tsk_self ..)
  have hother (t : TaskId) (ht : t ≠ p) : fresh.tsk t = s.tsk t := setTsk_tsk_of_ne _ _ ht
  have hset : (taskFindRightRQ mid p).tsk p = { mid.tsk p with onrq := true } :=
    setTsk_tsk_self ..
  have hunset (t : TaskId) (ht : t ≠ p) : (taskFindRightRQ mid p).tsk t = mid.tsk t :=
    setTsk_tsk_of_ne _ _ ht
  have hhd : (taskFindRightRQ mid p).hd =
      Function.update s.hd (.rq k) (s.hd (.rq k) ++ [p]) := by
    show Function.update mid.hd (.rq (mid.tsk p).prio) _ = _
    rw [hk, hmid.hd]
    rfl
  show Joined p k s (wakeupNewTask fresh p now)
  refine ⟨⟨rfl, ?_, ?_, ?_, ?_, ?_, ?_, ?_, ?_⟩, ?_, ?_, ?_, ?_, ?_, ?_⟩
  · exact hlast.live.trans hmid.live
  · exact hmid.taskid.trans hlast.taskid
  · exact hlast.idle.trans hmid.idle
  · exact hlast.parent.trans hmid.parent
  · rw [hlast.hd, hhd, Function.update_self]
  · intro h' hne
    rw [hlast.hd, hhd, Function.update_of_ne hne]
  · rw [hlast.onrq, hset]
  · intro t ht
    rw [hlast.onrq, hunset t ht, hmid.onrq, hother t ht]
  · rw [hlast.prio, hset]
    exact hk
  · intro t ht
    rw [hlast.prio, hunset t ht, hmid.prio, hother t ht]
  · exact hlast.current.trans hmid.current
  · exact fun c hc => (hlast.cache c hc).elim .inl (hmid.cache c)
  · rw [hlast.nrp]
    exact congrArg (· + 1) hmid.nrp
  · exact hlast.nwp.trans hmid.nwp

/-- A `spawn_task` that gets no memory uses up at most a `tid`. -/
theorem untouched_spawnTask (s : SchedState) (k : Fin maxPrio) {tskOk stkOk : Bool}
    (hfail : (tskOk && stkOk) = false) (now : Int) :
    Untouched s (spawnTask s k true tskOk stkOk now).1 ∧
      (spawnTask s k true tskOk stkOk now).1.taskCount = s.taskCount := by
  cases tskOk with
  | false =>
      exact ⟨⟨⟨rfl, le_rfl, rfl, rfl, rfl, fun _ => rfl⟩, fun _ => rfl, rfl, rfl, rfl, rfl⟩, rfl⟩
  | true =>
      obtain rfl : stkOk = false := hfail
      exact ⟨⟨⟨rfl, Nat.le_succ _, rfl, rfl, rfl, fun _ => rfl⟩, fun _ => rfl, rfl, rfl, rfl, rfl⟩,
        rfl⟩

/-! ## Scheduling -/

theorem Untouched.trans {s s' s'' : SchedState} (h : Untouched s s') (h' : Untouched s' s'') :
    Untouched s s'' where
  toQuiet := h.toQuiet.trans h'.toQuiet
  prio := fun t => (h'.prio t).trans (h.prio t)
  current := h'.current.trans h.current
  cache := h'.cache.trans h.cache
  nrp := h'.nrp.trans h.nrp
  nwp := h'.nwp.trans h.nwp

theorem untouched_setTsk {s : SchedState} {p : TaskId} {t : Tsk}
    (honrq : t.onrq = (s.tsk p).onrq) (hprio : t.prio = (s.tsk p).prio) :
    Untouched s (s.setTsk p t) :=
  ⟨quiet_setTsk honrq, prio_setTsk hprio, rfl, rfl, rfl, rfl⟩

theorem untouched_calcCurrentCpuUsage (s : SchedState) : Untouched s (calcCurrentCpuUsage s) :=
  untouched_setTsk rfl rfl

theorem untouched_clearSchedNeed (s : SchedState) : Untouched s { s with schedNeed := false } :=
  ⟨⟨rfl, le_rfl, rfl, rfl, rfl, fun _ => rfl⟩, fun _ => rfl, rfl, rfl, rfl, rfl⟩

theorem untouched_updateStats (s : SchedState) (now : Int) : Untouched s (updateStats s now) :=
  (untouched_calcCurrentCpuUsage s).trans (untouched_setTsk rfl rfl)

theorem untouched_accountTaskTimeStats (s : SchedState) (now : Int) :
    Untouched s (accountTaskTimeStats s now) := by
  let t := s.tsk s.current
  have hset : Untouched s (s.setTsk s.current
      { t with etick := now, currt := (now - t.stick) * 10 }) := untouched_setTsk rfl rfl
  unfold accountTaskTimeStats
  dsimp only
  split
  · exact ⟨⟨hset.live, hset.taskid, hset.idle, hset.parent, hset.hd, hset.onrq⟩, hset.prio,
      hset.current, hset.cache, hset.nrp, hset.nwp⟩
  · exact hset

theorem setTsk_setTsk (s : SchedState) (p : TaskId) (t t' : Tsk) :
    (s.setTsk p t).setTsk p t' = s.setTsk p t' := by
  simp only [SchedState.setTsk, Function.update_idem]

/-- The time slice code writes one task, and its priority only to demote it. -/
theorem calculateTimeSlice_eq {s s' : SchedState} {p : TaskId}
    (h : calculateTimeSlice s p = some s') :
    (s' = s ∧ KeepsPrio s p) ∨ ∃ t, s' = s.setTsk p t ∧ t.event = (s.tsk p).event ∧
      t.onrq = (s.tsk p).onrq ∧ (KeepsPrio s p → t.prio = (s.tsk p).prio) ∧
        (¬ KeepsPrio s p → t.prio = 19) := by
  unfold calculateTimeSlice at h
  split at h
  · rename_i hspecial
    exact .inl ⟨(Option.some.inj h).symm, hspecial.imp id .inl⟩
  · rename_i hspecial
    obtain ⟨hidle, hcur⟩ := not_or.mp hspecial
    split at h
    · cases h
    · right
      simp only [Option.bind_eq_bind, Option.bind_eq_some_iff, Option.some.injEq] at h
      obtain ⟨share, -, rfl⟩ := h
      cases hdem : isDemoted s p with
      | false =>
          simp only [Bool.false_eq_true, if_false]
          exact ⟨_, rfl, rfl, rfl, fun _ => rfl,
            fun hnot => absurd (.inr (.inr (.inl hdem))) hnot⟩
      | true =>
          simp only [if_true, setTsk_tsk_self, setTsk_setTsk]
          refine ⟨_, rfl, rfl, rfl, ?_, fun _ => rfl⟩
          rintro (h | h | h | h)
          · exact absurd h hidle
          · exact absurd h hcur
          · rw [hdem] at h
            cases h
          · exact h.symm

theorem quiet_calculateTimeSlice {s s' : SchedState} {p : TaskId}
    (h : calculateTimeSlice s p = some s') :
    Quiet s s' ∧ (KeepsPrio s p → ∀ t, (s'.tsk t).prio = (s.tsk t).prio) ∧
      (¬ KeepsPrio s p → (s'.tsk p).prio = 19) ∧
      s'.nxtImmTask = s.nxtImmTask ∧ s'.nrp = s.nrp ∧ s'.nwp = s.nwp := by
  rcases calculateTimeSlice_eq h with ⟨rfl, hkeeps⟩ | ⟨t, rfl, -, honrq, hprio, hdemoted⟩
  · exact ⟨Quiet.refl _, fun _ _ => rfl, fun hnot => absurd hkeeps hnot, rfl, rfl, rfl⟩
  · refine ⟨quiet_setTsk honrq, fun hk => prio_setTsk (hprio hk), fun hnot => ?_, rfl, rfl, rfl⟩
    rw [setTsk_tsk_self, hdemoted hnot]

theorem quiet_contextSwitch (s : SchedState) (e : TaskId) (now : Int) :
    Quiet s (contextSwitch s e now) ∧
      ∀ t, ((contextSwitch s e now).tsk t).prio = (s.tsk t).prio := by
  have hcur : Quiet s { s with current := e } := ⟨rfl, le_rfl, rfl, rfl, rfl, fun _ => rfl⟩
  exact ⟨hcur.trans (quiet_setTsk rfl), prio_setTsk (s := { s with current := e }) rfl⟩

theorem moved_rmNMoveTaskNewRq {s : SchedState} {e : TaskId} (honrq : (s.tsk e).onrq = true) :
    Moved e (.rq (s.tsk e).prio) s (rmNMoveTaskNewRq s e) := by
  have hm := moved_listAddTail s e (.rq (s.tsk e).prio) (s.tsk e) honrq
  refine Moved.of_quiet (Quiet.refl s) hm ⟨rfl, le_rfl, rfl, rfl, rfl, fun t => ?_⟩
  exact (congrArg Tsk.onrq (congrFun (Function.update_eq_self e s.tsk) t)).symm

theorem firstReady_mem {s : SchedState} {p : TaskId} (h : firstReady s = some p) :
    ∃ k, p ∈ s.hd (.rq k) := by
  obtain ⟨k, -, hhead⟩ := List.exists_of_findSome?_eq_some h
  exact ⟨k, List.mem_of_mem_head? hhead⟩

theorem firstReady_isSome {s : SchedState} {p : TaskId} {k : Fin maxPrio}
    (h : p ∈ s.hd (.rq k)) : (firstReady s).isSome := by
  rw [firstReady, List.findSome?_isSome_iff]
  exact ⟨k, List.mem_finRange k, by simpa using List.ne_nil_of_mem h⟩

/-- What an election does to the state. -/
structure Elected (e : TaskId) (s s' : SchedState) : Prop where
  change : Quiet s s' ∨ ((∃ k, e ∈ s.hd (.rq k)) ∧ Moved e (.rq (s.tsk e).prio) s s')
  tsk : s'.tsk = s.tsk
  current : s'.current = s.current
  idle : s'.idle = s.idle
  cache : ∀ c, s'.nxtImmTask = some c → s.nxtImmTask = some c
  nrp : s'.nrp = s.nrp
  nwp : s'.nwp = s.nwp
  taskCount : s'.taskCount = s.taskCount

theorem elected_nextTaskReadyToRun {s s' : SchedState} {e : TaskId} (hl : ListsOk s)
    (h : nextTaskReadyToRun s = (s', some e)) : Elected e s s' := by
  unfold nextTaskReadyToRun at h
  split at h
  · cases h
  · split at h
    · cases h
    · rename_i p hfirst
      obtain ⟨k, hmem⟩ := firstReady_mem hfirst
      have honrq : (s.tsk p).onrq = true := (hl.member _ _ hmem).2.2
      cases h
      split
      · exact ⟨.inr ⟨⟨k, hmem⟩, moved_rmNMoveTaskNewRq honrq⟩, rfl, rfl, rfl, fun _ => id, rfl, rfl,
          rfl⟩
      · exact ⟨.inl (Quiet.refl s), rfl, rfl, rfl, fun _ => id, rfl, rfl, rfl⟩

theorem elected_getNextEligibleTaskToRun {s s' : SchedState} {e : TaskId} (hl : ListsOk s)
    (h : getNextEligibleTaskToRun s = (s', some e)) : Elected e s s' := by
  unfold getNextEligibleTaskToRun at h
  split at h
  · cases h
    exact ⟨.inl (Quiet.refl s), rfl, rfl, rfl, fun _ => id, rfl, rfl, rfl⟩
  · split at h
    · cases h
      split
      · exact ⟨.inl ⟨rfl, le_rfl, rfl, rfl, rfl, fun _ => rfl⟩, rfl, rfl, rfl, nofun, rfl, rfl, rfl⟩
      · exact ⟨.inl (Quiet.refl s), rfl, rfl, rfl, fun _ => id, rfl, rfl, rfl⟩
    · exact elected_nextTaskReadyToRun hl h

/-- Where an elected task comes from. -/
theorem elected_source {s : SchedState} {e : TaskId}
    (h : (getNextEligibleTaskToRun s).2 = some e) :
    (s.nrp = 0 ∧ e = s.idle) ∨ (s.nrp ≠ 0 ∧ s.nxtImmTask = some e) ∨ ∃ k, e ∈ s.hd (.rq k) := by
  unfold getNextEligibleTaskToRun at h
  split at h
  · rename_i hnrp
    exact .inl ⟨hnrp, (Option.some.inj h).symm⟩
  · rename_i hnrp
    split at h
    · rename_i hcache
      cases h
      exact .inr (.inl ⟨hnrp, hcache⟩)
    · rw [nextTaskReadyToRun, if_neg hnrp] at h
      split at h
      · cases h
      · rename_i hfirst
        cases h
        exact .inr (.inr (firstReady_mem hfirst))

theorem schedule_eq_some {s s' : SchedState} {now : Int} (h : schedule s now = some s') :
    ∃ first e, getNextEligibleTaskToRun s = (first, some e) ∧
      ((first.current = e ∧ s' = calcCurrentCpuUsage { first with schedNeed := false }) ∨
        (first.current ≠ e ∧ ∃ mid,
          calculateTimeSlice (updateStats { first with schedNeed := false } now) e = some mid ∧
            s' = contextSwitch
              (mid.setTsk mid.current { mid.tsk mid.current with state := .interruptible }) e now)) := by
  unfold schedule at h
  rcases hnext : getNextEligibleTaskToRun s with ⟨first, etsk⟩
  rw [hnext] at h
  cases etsk with
  | none => simp at h
  | some e =>
      refine ⟨first, e, rfl, ?_⟩
      simp only [Option.bind_eq_bind, Option.bind_some] at h
      split at h
      · rename_i hne
        obtain ⟨mid, hslice, hs'⟩ := Option.bind_eq_some_iff.mp h
        exact .inr ⟨hne, mid, hslice, (Option.some.inj hs').symm⟩
      · rename_i heq
        exact .inl ⟨not_not.mp heq, (Option.some.inj h).symm⟩

/-- The lists and the cached task after `schedule` are those after the election. -/
theorem schedule_frame {s s' : SchedState} {now : Int} (h : schedule s now = some s') :
    ∃ first e, getNextEligibleTaskToRun s = (first, some e) ∧ s'.hd = first.hd ∧
      s'.live = first.live ∧ s'.nxtImmTask = first.nxtImmTask := by
  obtain ⟨first, e, hnext, hcases⟩ := schedule_eq_some h
  refine ⟨first, e, hnext, ?_⟩
  rcases hcases with ⟨-, rfl⟩ | ⟨-, mid, hslice, rfl⟩
  · exact ⟨rfl, rfl, rfl⟩
  · obtain ⟨hquiet, -, -, hcache, -⟩ := quiet_calculateTimeSlice hslice
    exact ⟨hquiet.hd, hquiet.live, hcache⟩

/-- What follows the election is seen only as a change of `current`, apart from a
demotion. -/
theorem switched_of_elected {e : TaskId} {s first s' : SchedState}
    (hnext : getNextEligibleTaskToRun s = (first, some e)) (hfirst : Elected e s first)
    (hquiet : Quiet first s') (hprio : KeepsPrio s e → ∀ t, (s'.tsk t).prio = (first.tsk t).prio)
    (hdemoted : ¬ KeepsPrio s e → (s'.tsk e).prio = 19)
    (hcur : s'.current = e) (hcache : s'.nxtImmTask = first.nxtImmTask)
    (hnrp : s'.nrp = first.nrp) (hnwp : s'.nwp = first.nwp) : Switched e s s' where
  elected := by rw [hnext]
  change := hfirst.change.imp (fun h => h.trans hquiet)
    (fun h => ⟨h.1, Moved.of_quiet (Quiet.refl s) h.2 hquiet⟩)
  onrq := fun t => by rw [hquiet.onrq, hfirst.tsk]
  prio := fun h t => by rw [hprio h, hfirst.tsk]
  demoted := hdemoted
  current := hcur
  cache := fun c hc => hfirst.cache c (hcache ▸ hc)
  nrp := hnrp.trans hfirst.nrp
  nwp := hnwp.trans hfirst.nwp

/-- The statistics of the task that is left do not matter for the one that is
elected. -/
theorem keepsPrio_updateStats {e : TaskId} {s first : SchedState} (now : Int)
    (hfirst : Elected e s first) (hne : first.current ≠ e) :
    KeepsPrio (updateStats { first with schedNeed := false } now) e ↔ KeepsPrio s e := by
  have htsk : (updateStats { first with schedNeed := false } now).tsk e = s.tsk e := by
    rw [← hfirst.tsk]
    exact (setTsk_tsk_of_ne _ _ hne.symm).trans (setTsk_tsk_of_ne _ _ hne.symm)
  have hload : getLoadOnSystem (updateStats { first with schedNeed := false } now) =
      getLoadOnSystem s := by
    show Int.bmod (toUInt (first.nrp * 100) / first.taskCount) (2 ^ 32) = _
    rw [hfirst.nrp, hfirst.taskCount]
    rfl
  have hidle : (updateStats { first with schedNeed := false } now).idle = s.idle := hfirst.idle
  have hcur : (updateStats { first with schedNeed := false } now).current = s.current :=
    hfirst.current
  unfold KeepsPrio isDemoted
  rw [htsk, hload, hidle, hcur]

theorem switched_schedule {s s' : SchedState} {now : Int} (hl : ListsOk s)
    (h : schedule s now = some s') : ∃ e, Switched e s s' := by
  obtain ⟨first, e, hnext, hcases⟩ := schedule_eq_some h
  have hfirst := elected_getNextEligibleTaskToRun hl hnext
  have hclear := untouched_clearSchedNeed first
  refine ⟨e, ?_⟩
  rcases hcases with ⟨hcur, rfl⟩ | ⟨hne, mid, hslice, rfl⟩
  · have hall := hclear.trans (untouched_calcCurrentCpuUsage _)
    have hself : e = s.current := hcur.symm.trans hfirst.current
    exact switched_of_elected hnext hfirst hall.toQuiet (fun _ => hall.prio)
      (fun hnot => absurd (.inr (.inl hself)) hnot) (hall.current.trans hcur) hall.cache hall.nrp hall.nwp
  · have hstats := hclear.trans (untouched_updateStats _ now)
    have hiff := keepsPrio_updateStats now hfirst hne
    obtain ⟨hmid, hmidPrio, hmidDemoted, hmidCache, hmidNrp, hmidNwp⟩ := quiet_calculateTimeSlice hslice
    let left := mid.setTsk mid.current { mid.tsk mid.current with state := .interruptible }
    have hleft : Untouched mid left := untouched_setTsk rfl rfl
    obtain ⟨hlast, hlastPrio⟩ := quiet_contextSwitch left e now
    refine switched_of_elected hnext hfirst
      (((hstats.toQuiet.trans hmid).trans hleft.toQuiet).trans hlast) (fun hkeeps t => ?_)
      (fun hnot => ?_) rfl ((hleft.cache.trans hmidCache).trans hstats.cache)
      ((hleft.nrp.trans hmidNrp).trans hstats.nrp) ((hleft.nwp.trans hmidNwp).trans hstats.nwp)
    · rw [hlastPrio, hleft.prio, hmidPrio (hiff.mpr hkeeps), hstats.prio]
    · rw [hlastPrio, hleft.prio, hmidDemoted (mt hiff.mp hnot)]

theorem Switched.eq_of_next {e a : TaskId} {s s' first : SchedState} (hs : Switched e s s')
    (hnext : getNextEligibleTaskToRun s = (first, some a)) : a = e := by
  have helected := hs.elected
  rw [hnext] at helected
  exact Option.some.inj helected

/-- `schedule` writes the task that it leaves and the one that it elects. -/
theorem schedule_tsk_of_ne {s s' : SchedState} {now : Int} {t : TaskId} (hl : ListsOk s)
    (h : schedule s now = some s') (hcur : t ≠ s.current)
    (helected : (getNextEligibleTaskToRun s).2 ≠ some t) : s'.tsk t = s.tsk t := by
  obtain ⟨first, e, hnext, hcases⟩ := schedule_eq_some h
  have hfirst := elected_getNextEligibleTaskToRun hl hnext
  have hleft : t ≠ first.current := hfirst.current ▸ hcur
  have hnew : t ≠ e := by
    rintro rfl
    rw [hnext] at helected
    exact helected rfl
  rcases hcases with ⟨-, rfl⟩ | ⟨-, mid, hslice, rfl⟩
  · exact (setTsk_tsk_of_ne _ _ hleft).trans (congrFun hfirst.tsk t)
  · have hstats : (updateStats { first with schedNeed := false } now).tsk t = s.tsk t :=
      ((setTsk_tsk_of_ne _ _ hleft).trans (setTsk_tsk_of_ne _ _ hleft)).trans
        (congrFun hfirst.tsk t)
    have hmid : mid.tsk t = s.tsk t ∧ mid.current = first.current := by
      rcases calculateTimeSlice_eq hslice with ⟨rfl, -⟩ | ⟨u, rfl, -⟩
      · exact ⟨hstats, rfl⟩
      · exact ⟨(setTsk_tsk_of_ne _ _ hnew).trans hstats, rfl⟩
    have hlast : t ≠ mid.current := hmid.2 ▸ hleft
    exact (setTsk_tsk_of_ne _ _ hnew).trans ((setTsk_tsk_of_ne _ _ hlast).trans hmid.1)

end Sched
end TmULThreads
