import TmULThreads.Sched.Bounds
import TmULThreads.Sched.Election

/-!
# The cached next task

`get_next_eligible_task_to_run` answers with the cached task `nxt_imm_task` if there is
one, and looks through the run queues only otherwise.  `CacheLaw` is what the shortcut
needs in order to make no difference: no linked task has a smaller `prio` than the task
from the cache, and the search would have stopped at the queue of that `prio`.

A woken or new task is compared with the cached task only.  So it becomes the next one
whenever the cache is empty, however many tasks of higher priority are linked.  And the
cache is not looked at when a task leaves the run queues: the cached task may be the one
that leaves.  `Orderly` excludes these steps, and `cacheLaw_of_orderly` shows that nothing
else goes wrong, wrong counters and demotions included.  A demoted task stays in a queue
before the one of its `prio`, never behind it (`Placed.sunk`).
-/

namespace TmULThreads
namespace Sched

/-- The class of the search is the queue at which its loop stops. -/
def CacheLaw (s : SchedState) : Prop :=
  s.nrp ≠ 0 → s.nxtImmTask.isSome → ∀ e ∈ (getNextEligibleTaskToRun s).2,
    (∀ k, ∀ t ∈ s.hd (.rq k), (s.tsk e).prio ≤ (s.tsk t).prio) ∧
      ∀ q ∈ (nextTaskReadyToRun s).2, q ∈ s.hd (.rq (s.tsk e).prio)

/-! ## The condition on a step -/

/-- The priorities of the tasks that the operation wakes or creates. -/
def arrivals (s : SchedState) : Op → List (Fin maxPrio)
  | .spawn prio tskOk stkOk _ =>
      if h : 0 ≤ prio ∧ prio < maxPrio then
        if tskOk && stkOk then [⟨prio.toNat, toNat_lt_maxPrio h⟩] else []
      else []
  | .wakeup p _ => [(s.tsk p).prio]
  | .unlock l _ =>
      if (s.lock l).owner = some s.current then
        (s.hd (.lock l)).head?.toList.map fun p => (s.tsk p).prio
      else []
  | .wakeIo fd _ =>
      if h : fd < maxFds then (s.hd (.io ⟨fd, h⟩)).map fun p => (s.tsk p).prio else []
  | .postEvent tid _ _ => (findTask s tid).toList.map fun p => (s.tsk p).prio
  | _ => []

/-- A task gets into the empty cache only if it is ahead of all run queues.  Of several
tasks that are woken at once the best one has to be. -/
def FillsCache (s : SchedState) (op : Op) : Prop :=
  s.nxtImmTask = none → arrivals s op ≠ [] →
    ∃ m ∈ arrivals s op, ∀ k, ∀ t ∈ s.hd (.rq k), m ≤ k

/-- The task leaves another one in the queue of the cached priority. -/
def LeavesCache (s : SchedState) (t : TaskId) : Prop :=
  ∀ c ∈ s.nxtImmTask, ∃ u ∈ s.hd (.rq (s.tsk c).prio), u ≠ t

/-- A task that is woken while it is runnable is linked, and so is not the program itself
before its first wait. -/
def WokenLinked (s : SchedState) : Op → Prop
  | .wakeup p _ => (s.tsk p).onrq = true → ∃ k, p ∈ s.hd (.rq k)
  | _ => True

def Orderly (s : SchedState) : ExitOp → Prop
  | .op op => FillsCache s op ∧ (Waits s op → LeavesCache s s.current) ∧ WokenLinked s op
  | .exit e => ∀ t ∈ ended s e, s.nxtImmTask ≠ some t ∧ LeavesCache s t

instance (s : SchedState) (op : Op) : Decidable (FillsCache s op) :=
  inferInstanceAs (Decidable (_ → _))

instance (s : SchedState) (t : TaskId) : Decidable (LeavesCache s t) :=
  inferInstanceAs (Decidable (∀ _ ∈ _, _))

instance (s : SchedState) : ∀ op, Decidable (WokenLinked s op)
  | .wakeup p _ => inferInstanceAs (Decidable ((s.tsk p).onrq = true → ∃ k, p ∈ s.hd (.rq k)))
  | .spawn .. | .addToWaitQ .. | .waitOnFd .. | .lock .. | .unlock .. | .wakeIo .. | .postEvent ..
  | .tick .. | .schedule .. => isTrue trivial

instance (s : SchedState) : ∀ i, Decidable (Orderly s i)
  | .op op => inferInstanceAs (Decidable (FillsCache s op ∧ _ ∧ WokenLinked s op))
  | .exit e => inferInstanceAs (Decidable (∀ t ∈ ended s e, s.nxtImmTask ≠ some t ∧ LeavesCache s t))

/-! ## The cache after a wakeup -/

/-- The cached task once `p` of priority `k` has been announced. -/
def preferred (s : SchedState) (p : TaskId) (k : Fin maxPrio) : TaskId :=
  match s.nxtImmTask with
  | some c => if k < (s.tsk c).prio then p else c
  | none => p

theorem cacheTask_nxtImmTask (s : SchedState) (p : TaskId) :
    (cacheTask s p).nxtImmTask = some (preferred s p (s.tsk p).prio) := by
  unfold cacheTask preferred
  cases hcache : s.nxtImmTask with
  | none => rfl
  | some c =>
      dsimp only
      split
      · rfl
      · exact hcache

/-- What is announced in between does not matter, as long as it leaves the cache and the
priorities alone. -/
theorem preferred_congr {s s' : SchedState} {p : TaskId} {k : Fin maxPrio}
    (hcache : s'.nxtImmTask = s.nxtImmTask)
    (hprio : ∀ c, s.nxtImmTask = some c → (s'.tsk c).prio = (s.tsk c).prio) :
    preferred s' p k = preferred s p k := by
  unfold preferred
  rw [hcache]
  cases hc : s.nxtImmTask with
  | none => rfl
  | some c =>
      dsimp only
      rw [hprio c hc]

theorem requestSched_cache (s : SchedState) (p : TaskId) :
    (requestSched s p).nxtImmTask = s.nxtImmTask := by
  unfold requestSched
  split <;> rfl

theorem wakeupTask_nxtImmTask (s : SchedState) (p : TaskId) (now : Int) :
    (wakeupTask s p now).nxtImmTask = some (preferred s p (s.tsk p).prio) := by
  have htail (u : SchedState) (hcache : u.nxtImmTask = s.nxtImmTask)
      (hprio : ∀ t, (u.tsk t).prio = (s.tsk t).prio) :
      (cacheTask (requestSched u p) p).nxtImmTask = some (preferred s p (s.tsk p).prio) := by
    have hreq := announced_requestSched u p
    rw [cacheTask_nxtImmTask, hreq.prio, hprio p]
    exact congrArg some (preferred_congr ((requestSched_cache u p).trans hcache) fun c _ =>
      (hreq.prio c).trans (hprio c))
  unfold wakeupTask
  cases honrq : (s.tsk p).onrq with
  | true => exact htail s rfl fun _ => rfl
  | false =>
      exact htail _ rfl
        (prio_setTsk (s := listAdd (listDel s p) p (.rq (s.tsk p).prio))
          (t := { s.tsk p with onrq := true }) rfl)

theorem spawnTask_nxtImmTask {s : SchedState} (k : Fin maxPrio) (now : Int)
    (hold : ∀ c, s.nxtImmTask = some c → c ≠ s.taskid + 1) :
    (spawnTask s k true true true now).1.nxtImmTask = some (preferred s (s.taskid + 1) k) := by
  let p := s.taskid + 1
  let fresh : SchedState :=
    { { s with taskid := p, live := s.live ++ [p] }.setTsk p { prio := k } with
      taskCount := s.taskCount + 1 }
  have hreq := announced_requestSched fresh p
  have hlink (t : TaskId) : ((taskFindRightRQ (requestSched fresh p) p).tsk t).prio =
      (fresh.tsk t).prio := by
    rw [← hreq.prio t]
    exact prio_setTsk (s := listAddTail (requestSched fresh p) p (.rq ((requestSched fresh p).tsk p).prio))
      (t := { (requestSched fresh p).tsk p with onrq := true }) rfl t
  have hself : (fresh.tsk p).prio = k := congrArg Tsk.prio (setTsk_tsk_self ..)
  show (cacheTask (taskFindRightRQ (requestSched fresh p) p) p).nxtImmTask = _
  rw [cacheTask_nxtImmTask, hlink, hself]
  refine congrArg some (preferred_congr (requestSched_cache fresh p) fun c hc => ?_)
  rw [hlink]
  exact congrArg Tsk.prio (setTsk_tsk_of_ne _ _ (hold c hc))

/-- Either the new task or the old one is cached, whichever has the smaller `prio`. -/
theorem preferred_cases (s : SchedState) (p : TaskId) (k : Fin maxPrio) :
    (preferred s p k = p ∧ ∀ c ∈ s.nxtImmTask, k ≤ (s.tsk c).prio) ∨
      ∃ c, preferred s p k = c ∧ s.nxtImmTask = some c ∧ (s.tsk c).prio ≤ k := by
  unfold preferred
  cases hcache : s.nxtImmTask with
  | none => exact .inl ⟨rfl, nofun⟩
  | some c =>
      dsimp only
      split
      · rename_i hlt
        refine .inl ⟨rfl, fun c' hc' => ?_⟩
        cases hc'
        exact hlt.le
      · rename_i hge
        exact .inr ⟨c, rfl, rfl, not_lt.mp hge⟩

/-! ## The invariant -/

structure Placed (s : SchedState) : Prop where
  lists : ListsOk s
  sunk : ∀ k t, t ∈ s.hd (.rq k) → k ≤ (s.tsk t).prio

/-- The queue of the cached priority is not empty. -/
structure Manned (s : SchedState) : Prop extends Placed s where
  live : ∀ c, s.nxtImmTask = some c → c ∈ s.live
  manned : ∀ c, s.nxtImmTask = some c → ∃ t, t ∈ s.hd (.rq (s.tsk c).prio)

/-- It is the first one that is not empty. -/
structure Backed (s : SchedState) : Prop extends Manned s where
  low : ∀ c, s.nxtImmTask = some c → ∀ k t, t ∈ s.hd (.rq k) → (s.tsk c).prio ≤ k

/-- The search goes through the queues in the order of their priorities. -/
theorem firstReady_le {s : SchedState} {q : TaskId} (h : firstReady s = some q) :
    ∃ k, q ∈ s.hd (.rq k) ∧ ∀ k' t, t ∈ s.hd (.rq k') → k ≤ k' := by
  obtain ⟨before, k, after, hsplit, hhead, hempty⟩ := List.findSome?_eq_some_iff.mp h
  refine ⟨k, List.mem_of_mem_head? hhead, fun k' t ht => ?_⟩
  have hsorted := List.pairwise_lt_finRange maxPrio
  have hmem := List.mem_finRange k'
  rw [hsplit] at hsorted hmem
  rcases List.mem_append.mp hmem with hbefore | hafter
  · rw [List.head?_eq_none_iff.mp (hempty k' hbefore)] at ht
    cases ht
  · rcases List.mem_cons.mp hafter with rfl | hlater
    · exact le_rfl
    · exact (List.rel_of_pairwise_cons (List.pairwise_append.mp hsorted).2.1 hlater).le

theorem Backed.cacheLaw {s : SchedState} (h : Backed s) : CacheLaw s := by
  intro hnrp hsome e he
  obtain ⟨c, hc⟩ := Option.isSome_iff_exists.mp hsome
  obtain rfl : c = e := by
    simp only [getNextEligibleTaskToRun, if_neg hnrp, hc] at he
    exact Option.some.inj he
  refine ⟨fun k t ht => (h.low c hc k t ht).trans (h.sunk k t ht), fun q hq => ?_⟩
  have hfirst : firstReady s = some q := by
    simp only [nextTaskReadyToRun, if_neg hnrp] at hq
    split at hq
    · cases hq
    · rename_i p hp
      cases hq
      exact hp
  obtain ⟨k, hmem, hle⟩ := firstReady_le hfirst
  obtain ⟨t, ht⟩ := h.manned c hc
  rw [le_antisymm (h.low c hc k q hmem) (hle _ t ht)]
  exact hmem

/-! ## Steps that announce no task -/

theorem Placed.of_untouched {s s' : SchedState} (h : Placed s) (hu : Untouched s s') :
    Placed s' where
  lists := h.lists.of_quiet hu.toQuiet
  sunk := by
    intro k t ht
    rw [hu.hd] at ht
    rw [hu.prio]
    exact h.sunk k t ht

theorem Manned.of_untouched {s s' : SchedState} (h : Manned s) (hu : Untouched s s') :
    Manned s' where
  toPlaced := h.toPlaced.of_untouched hu
  live := by
    rw [hu.cache, hu.live]
    exact h.live
  manned := by
    intro c hc
    rw [hu.hd, hu.prio]
    exact h.manned c (hu.cache ▸ hc)

theorem Backed.of_untouched {s s' : SchedState} (h : Backed s) (hu : Untouched s s') :
    Backed s' where
  toManned := h.toManned.of_untouched hu
  low := by
    intro c hc
    rw [hu.hd, hu.prio]
    exact h.low c (hu.cache ▸ hc)

/-- A task is taken off its run queue, by waiting or by its end. -/
theorem Placed.of_removed {s s' : SchedState} {p : TaskId} (h : Placed s) (hl : ListsOk s')
    (hmem : ∀ k t, t ∈ s'.hd (.rq k) ↔ t ∈ s.hd (.rq k) ∧ t ≠ p)
    (hprio : ∀ t, t ≠ p → (s'.tsk t).prio = (s.tsk t).prio) : Placed s' where
  lists := hl
  sunk := by
    intro k t ht
    obtain ⟨hold, hne⟩ := (hmem k t).mp ht
    rw [hprio t hne]
    exact h.sunk k t hold

theorem Backed.of_removed {s s' : SchedState} {p : TaskId} (h : Backed s) (hl : ListsOk s')
    (hmem : ∀ k t, t ∈ s'.hd (.rq k) ↔ t ∈ s.hd (.rq k) ∧ t ≠ p)
    (hprio : ∀ t, t ≠ p ∨ s.nxtImmTask = some t → (s'.tsk t).prio = (s.tsk t).prio)
    (hcache : s'.nxtImmTask = s.nxtImmTask) (hlive : ∀ c, s.nxtImmTask = some c → c ∈ s'.live)
    (hleaves : LeavesCache s p) : Backed s' where
  toPlaced := h.toPlaced.of_removed hl hmem fun t hne => hprio t (.inl hne)
  live := by
    rw [hcache]
    exact hlive
  manned := by
    intro c hc
    rw [hcache] at hc
    obtain ⟨u, hu, hne⟩ := hleaves c hc
    rw [hprio c (.inr hc)]
    exact ⟨u, (hmem _ u).mpr ⟨hu, hne⟩⟩
  low := by
    intro c hc k t ht
    rw [hcache] at hc
    rw [hprio c (.inr hc)]
    exact h.low c hc k t ((hmem k t).mp ht).1

theorem Waited.mem_rq {h : Head} {s s' : SchedState} (hw : Waited h s s') (k : Fin maxPrio)
    (t : TaskId) : t ∈ s'.hd (.rq k) ↔ t ∈ s.hd (.rq k) ∧ t ≠ s.current := by
  have hne : Head.rq k ≠ h := by
    rintro rfl
    exact Bool.false_ne_true hw.not_rq.symm
  rw [hw.moved.mem_iff]
  simp [hne, and_comm]

theorem Backed.of_waited {s s' : SchedState} {hd : Head} (h : Backed s) (hw : Waited hd s s')
    (hl : ListsOk s') (hleaves : LeavesCache s s.current) : Backed s' :=
  h.of_removed hl hw.mem_rq (fun t _ => hw.prio t) hw.cache
    (fun c hc => hw.moved.live.symm ▸ h.live c hc) hleaves

theorem Backed.of_taskExit {s : SchedState} {p : TaskId} (h : Backed s) (hidle : p ≠ s.idle)
    (hcached : s.nxtImmTask ≠ some p) (hleaves : LeavesCache s p) : Backed (taskExit s p) := by
  have hne (c : TaskId) (hc : s.nxtImmTask = some c) : c ≠ p := fun heq => hcached (heq ▸ hc)
  refine h.of_removed (h.lists.of_taskExit hidle) (fun _ _ => mem_taskExit_hd) (fun t ht => ?_) rfl
    (fun c hc => mem_taskExit_live.mpr ⟨h.live c hc, hne c hc⟩) hleaves
  rw [taskExit_tsk_of_ne (ht.elim id (hne t))]

/-- A task that is still cached after an election was cached before it, and the election
was one that moves no task. -/
theorem getNextEligibleTaskToRun_cached {s first : SchedState} {e c : TaskId}
    (h : getNextEligibleTaskToRun s = (first, some e)) (hc : first.nxtImmTask = some c) :
    first = s ∧ (e = s.idle ∨ e = s.current) := by
  unfold getNextEligibleTaskToRun at h
  split at h
  · cases h
    exact ⟨rfl, .inl rfl⟩
  · split at h
    · rename_i c' hcache
      by_cases hcur : s.current = c'
      · rw [if_neg (not_not.mpr hcur)] at h
        cases h
        exact ⟨rfl, .inr hcur.symm⟩
      · rw [if_pos hcur] at h
        cases h
        cases hc
    · rename_i hcache
      -- the search does not fill the cache
      unfold nextTaskReadyToRun at h
      split at h
      · cases h
      · split at h
        · cases h
        · cases h
          split at hc <;> exact absurd (hcache.symm.trans hc) nofun

theorem Placed.of_schedule {s s' : SchedState} {now : Int} (h : Placed s) (hl : ListsOk s')
    (hstep : schedule s now = some s') : Placed s' where
  lists := hl
  sunk := by
    intro k t ht
    obtain ⟨e, hs⟩ := switched_schedule h.lists hstep
    -- the elected task is in the queue of the `prio` that it had, and this only grows
    have hself : (s.tsk e).prio ≤ (s'.tsk e).prio := by
      by_cases hkeeps : KeepsPrio s e
      · rw [hs.prio hkeeps]
      · rw [hs.demoted hkeeps]
        exact Fin.le_last _
    by_cases hte : t = e
    · subst hte
      rcases hs.change with hquiet | ⟨-, hmoved⟩
      · rw [hquiet.hd] at ht
        exact (h.sunk k t ht).trans hself
      · rcases (hmoved.mem_iff t _).mp ht with ⟨-, hk⟩ | ⟨hne, -⟩
        · rw [Head.rq.inj hk]
          exact hself
        · exact absurd rfl hne
    · rw [prio_schedule_of_ne h.lists hstep hs.elected hte]
      rcases hs.change with hquiet | ⟨-, hmoved⟩
      · rw [hquiet.hd] at ht
        exact h.sunk k t ht
      · rcases (hmoved.mem_iff t _).mp ht with ⟨heq, -⟩ | ⟨-, hold⟩
        · exact absurd heq hte
        · exact h.sunk k t hold

theorem Backed.of_schedule {s s' : SchedState} {now : Int} (h : Backed s) (hl : ListsOk s')
    (hstep : schedule s now = some s') : Backed s' := by
  obtain ⟨first, e, hnext, hhd, hlive, hcache⟩ := schedule_frame hstep
  have hkept (c : TaskId) (hc : s'.nxtImmTask = some c) :
      s.nxtImmTask = some c ∧ s'.hd = s.hd ∧ s'.live = s.live ∧
        (s'.tsk c).prio = (s.tsk c).prio := by
    obtain ⟨rfl, hself⟩ := getNextEligibleTaskToRun_cached hnext (hcache ▸ hc)
    obtain ⟨e', hs⟩ := switched_schedule h.lists hstep
    obtain rfl := hs.eq_of_next hnext
    exact ⟨hcache ▸ hc, hhd, hlive, hs.prio (hself.imp id .inl) c⟩
  refine ⟨⟨h.toPlaced.of_schedule hl hstep, fun c hc => ?_, fun c hc => ?_⟩, fun c hc => ?_⟩
  all_goals obtain ⟨hold, hhd', hlive', hprio⟩ := hkept c hc
  · rw [hlive']
    exact h.live c hold
  · rw [hhd', hprio]
    exact h.manned c hold
  · rw [hhd', hprio]
    exact h.low c hold

/-! ## Wakeups -/

/-- Before every task that is linked comes the cached one, or one of those of the
priorities `r`, which are about to be woken. -/
structure Covered (r : List (Fin maxPrio)) (s : SchedState) : Prop extends Manned s where
  low : ∀ k t, t ∈ s.hd (.rq k) →
    (∃ c, s.nxtImmTask = some c ∧ (s.tsk c).prio ≤ k) ∨ ∃ m ∈ r, m ≤ k

theorem Backed.covered {s : SchedState} (h : Backed s) {r : List (Fin maxPrio)}
    (hr : s.nxtImmTask = none → ∃ m ∈ r, ∀ k, ∀ t ∈ s.hd (.rq k), m ≤ k) : Covered r s where
  toManned := h.toManned
  low := by
    intro k t ht
    cases hcache : s.nxtImmTask with
    | none =>
        obtain ⟨m, hm, hle⟩ := hr hcache
        exact .inr ⟨m, hm, hle k t ht⟩
    | some c => exact .inl ⟨c, rfl, h.low c hcache k t ht⟩

theorem Covered.backed {s : SchedState} (h : Covered [] s) : Backed s where
  toManned := h.toManned
  low := by
    intro c hc k t ht
    rcases h.low k t ht with ⟨c', hc', hle⟩ | ⟨m, hm, -⟩
    · obtain rfl : c = c' := Option.some.inj (hc.symm.trans hc')
      exact hle
    · cases hm

theorem Covered.of_untouched {s s' : SchedState} {r : List (Fin maxPrio)} (h : Covered r s)
    (hu : Untouched s s') : Covered r s' where
  toManned := h.toManned.of_untouched hu
  low := by
    intro k t ht
    rw [hu.hd] at ht
    simp only [hu.cache, hu.prio]
    exact h.low k t ht

theorem Placed.of_woken {s s' : SchedState} {p : TaskId} (h : Placed s) (hw : Woken p s s')
    (hlive : p ∈ s.live) (hidle : p ≠ s.idle) : Placed s' where
  lists := h.lists.of_woken hw hlive hidle
  sunk := by
    intro k t ht
    rw [hw.prio]
    rcases hw.change with ⟨-, hquiet, -⟩ | ⟨-, hmoved, -⟩
    · rw [hquiet.hd] at ht
      exact h.sunk k t ht
    · rcases (hmoved.mem_iff t _).mp ht with ⟨rfl, hk⟩ | ⟨-, hold⟩
      · rw [Head.rq.inj hk]
      · exact h.sunk k t hold

theorem Woken.mem_rq {p : TaskId} {s s' : SchedState} (hw : Woken p s s') (hl : ListsOk s)
    (k : Fin maxPrio) (t : TaskId) :
    t ∈ s'.hd (.rq k) ↔
      t ∈ s.hd (.rq k) ∨ (t = p ∧ k = (s.tsk p).prio ∧ (s.tsk p).onrq = false) := by
  rcases hw.change with ⟨honrq, hquiet, -⟩ | ⟨honrq, hmoved, -⟩
  · rw [hquiet.hd]
    simp [honrq]
  · rw [hmoved.mem_iff]
    constructor
    · rintro (⟨rfl, hk⟩ | ⟨-, hold⟩)
      · exact .inr ⟨rfl, Head.rq.inj hk, honrq⟩
      · exact .inl hold
    · rintro (hold | ⟨rfl, rfl, -⟩)
      · refine .inr ⟨?_, hold⟩
        rintro rfl
        exact Bool.false_ne_true (honrq.symm.trans (hl.member _ t hold).2.2)
      · exact .inl ⟨rfl, rfl⟩

/-- The cached task is ahead of the one before it and of the one that is announced. -/
theorem preferred_le (s : SchedState) (p : TaskId) :
    (s.tsk (preferred s p (s.tsk p).prio)).prio ≤ (s.tsk p).prio ∧
      ∀ c, s.nxtImmTask = some c → (s.tsk (preferred s p (s.tsk p).prio)).prio ≤ (s.tsk c).prio := by
  rcases preferred_cases s p (s.tsk p).prio with ⟨heq, hle⟩ | ⟨c, heq, hc, hle⟩
  · rw [heq]
    exact ⟨le_rfl, hle⟩
  · rw [heq]
    refine ⟨hle, fun c' hc' => ?_⟩
    rw [Option.some.inj (hc.symm.trans hc')]

/-- A wakeup after which the queue of the task is not empty, should it be the cached
one. -/
theorem Covered.of_woken {s s' : SchedState} {p : TaskId} {r : List (Fin maxPrio)}
    (h : Covered ((s.tsk p).prio :: r) s) (hw : Woken p s s') (hlive : p ∈ s.live)
    (hidle : p ≠ s.idle) (hcache : s'.nxtImmTask = some (preferred s p (s.tsk p).prio))
    (hself : preferred s p (s.tsk p).prio = p → ∃ t, t ∈ s'.hd (.rq (s.tsk p).prio)) :
    Covered r s' := by
  have hmem := hw.mem_rq h.lists
  obtain ⟨hlep, hlec⟩ := preferred_le s p
  refine ⟨⟨h.toPlaced.of_woken hw hlive hidle, fun c hc => ?_, fun c hc => ?_⟩, fun k t ht => ?_⟩
  · rw [hw.live_eq]
    rcases hw.cache c hc with rfl | hold
    · exact hlive
    · exact h.live c hold
  · obtain rfl : preferred s p (s.tsk p).prio = c := Option.some.inj (hcache.symm.trans hc)
    rw [hw.prio]
    rcases preferred_cases s p (s.tsk p).prio with ⟨heq, -⟩ | ⟨c, heq, hold, -⟩
    · rw [heq]
      exact hself heq
    · obtain ⟨t, ht⟩ := h.manned c hold
      rw [heq]
      exact ⟨t, (hmem _ t).mpr (.inl ht)⟩
  · -- the cached task is ahead of the queue, unless one that is still to be woken is
    have hnew (hle : (s.tsk (preferred s p (s.tsk p).prio)).prio ≤ k) :
        ∃ c, s'.nxtImmTask = some c ∧ (s'.tsk c).prio ≤ k := by
      refine ⟨_, hcache, ?_⟩
      rw [hw.prio]
      exact hle
    rcases (hmem k t).mp ht with hold | ⟨-, rfl, -⟩
    · rcases h.low k t hold with ⟨c, hc, hle⟩ | ⟨m, hm, hle⟩
      · exact .inl (hnew ((hlec c hc).trans hle))
      · rcases List.mem_cons.mp hm with rfl | hrest
        · exact .inl (hnew (hlep.trans hle))
        · exact .inr ⟨m, hrest, hle⟩
    · exact .inl (hnew hlep)

theorem Covered.wakeup_waiting {s : SchedState} {p : TaskId} {r : List (Fin maxPrio)}
    (h : Covered ((s.tsk p).prio :: r) s) (hlive : p ∈ s.live) (hidle : p ≠ s.idle)
    (honrq : (s.tsk p).onrq = false) (now : Int) : Covered r (wakeupTask s p now) := by
  have hw := woken_wakeupTask s p now
  exact h.of_woken hw hlive hidle (wakeupTask_nxtImmTask s p now) fun _ =>
    ⟨p, (hw.mem_rq h.lists _ p).mpr (.inr ⟨rfl, rfl, honrq⟩)⟩

/-- A task that is woken while it is linked in a run queue becomes the cached one only if
it is in the queue of its own `prio`. -/
theorem Covered.wakeup_linked {s : SchedState} {p : TaskId} (h : Covered [(s.tsk p).prio] s)
    {kp : Fin maxPrio} (hp : p ∈ s.hd (.rq kp)) (now : Int) : Covered [] (wakeupTask s p now) := by
  have hw := woken_wakeupTask s p now
  obtain ⟨hlive, hidle, -⟩ := h.lists.member _ p hp
  refine h.of_woken hw hlive hidle (wakeupTask_nxtImmTask s p now) fun heq => ?_
  have hle : (s.tsk p).prio ≤ kp := by
    rcases h.low kp p hp with ⟨c, hc, hle⟩ | ⟨m, hm, hle⟩
    · have hpc := (preferred_le s p).2 c hc
      rw [heq] at hpc
      exact hpc.trans hle
    · exact List.mem_singleton.mp hm ▸ hle
  rw [le_antisymm hle (h.sunk kp p hp)]
  exact ⟨p, (hw.mem_rq h.lists _ p).mpr (.inl hp)⟩

/-- Between the look at the state and the wakeup something else may have been written. -/
theorem Covered.wakeup {s mid : SchedState} {p : TaskId} (h : Covered [(s.tsk p).prio] s)
    (hmid : Untouched s mid) (hlive : p ∈ s.live) (hidle : p ≠ s.idle)
    (hlinked : (s.tsk p).onrq = true → InRq s p) (now : Int) : Backed (wakeupTask mid p now) := by
  have hcov := h.of_untouched hmid
  rw [← hmid.prio p] at hcov
  cases honrq : (mid.tsk p).onrq with
  | false =>
      exact (hcov.wakeup_waiting (hmid.live.symm ▸ hlive) (hmid.idle.symm ▸ hidle) honrq now).backed
  | true =>
      obtain ⟨k, hp⟩ := (hlinked (hmid.onrq p ▸ honrq)).of_quiet hmid.toQuiet
      exact (hcov.wakeup_linked hp now).backed

/-- The wakeup of a task that has been found in a list. -/
theorem Covered.wakeup_found {s mid : SchedState} {p : TaskId} (h : Covered [(s.tsk p).prio] s)
    (hmid : Untouched s mid) {hd : Head} (hp : p ∈ s.hd hd) (now : Int) :
    Backed (wakeupTask mid p now) := by
  obtain ⟨hlive, hidle, -⟩ := h.lists.member hd p hp
  exact h.wakeup hmid hlive hidle (h.lists.inRq hp) now

theorem Covered.wakeIo {fd : Fin maxFds} {now : Int} {l : List TaskId} {s : SchedState}
    (h : Covered (l.map fun p => (s.tsk p).prio) s) (hnodup : l.Nodup)
    (hmem : ∀ p ∈ l, p ∈ s.hd (.io fd)) :
    Covered [] (l.foldl (fun s p => wakeupTask (listDel s p) p now) s) := by
  induction l generalizing s with
  | nil => exact h
  | cons p l ih =>
      obtain ⟨hnot, hrest⟩ := List.nodup_cons.mp hnodup
      have hp := hmem p List.mem_cons_self
      obtain ⟨hlive, hidle, honrq⟩ := h.lists.member _ _ hp
      have hw := woken_wakeupTask s p now
      rw [List.foldl_cons, wakeupTask_listDel honrq]
      refine ih ?_ hrest fun q hq => ?_
      · simp only [hw.prio]
        exact h.wakeup_waiting hlive hidle honrq now
      · have hne : q ≠ p := fun heq => hnot (heq ▸ hq)
        rcases hw.change with ⟨hon, -⟩ | ⟨-, hmoved, -⟩
        · exact absurd (honrq.symm.trans hon) Bool.false_ne_true
        · exact (hmoved.mem_iff q _).mpr (.inr ⟨hne, hmem q (List.mem_cons_of_mem p hq)⟩)

/-! ## New tasks -/

theorem Placed.of_joined {s s' : SchedState} {p : TaskId} {k : Fin maxPrio} (h : Placed s)
    (hj : Joined p k s s') : Placed s' where
  lists := h.lists.of_spawned hj.spawned
  sunk := by
    intro k' t ht
    rcases (hj.spawned.mem_iff t _).mp ht with ⟨rfl, hk⟩ | hold
    · rw [hj.prio_self, Head.rq.inj hk]
    · have hne : t ≠ p := hj.spawned.fresh ▸ h.lists.fresh (h.lists.member _ t hold).1
      rw [hj.prio_other t hne]
      exact h.sunk k' t hold

theorem Backed.spawn {s : SchedState} (h : Backed s) {k : Fin maxPrio} {now : Int}
    (hfills : s.nxtImmTask = none → ∀ k', ∀ t ∈ s.hd (.rq k'), k ≤ k') :
    Backed (spawnTask s k true true true now).1 := by
  have hj := joined_spawnTask s k now
  have hold {t : TaskId} (ht : t ∈ s.live) : t ≠ s.taskid + 1 := h.lists.fresh ht
  have hcache := spawnTask_nxtImmTask k now fun c hc => hold (h.live c hc)
  generalize (spawnTask s k true true true now).1 = s' at hj hcache ⊢
  have hmem := hj.spawned.mem_iff
  have hlive {t : TaskId} (ht : t ∈ s.live) : t ∈ s'.live := by
    rw [hj.spawned.live]
    exact List.mem_append_left _ ht
  have hplaced : Placed s' := h.toPlaced.of_joined hj
  rcases preferred_cases s (s.taskid + 1) k with ⟨heq, hle⟩ | ⟨c, heq, hc, hle⟩
  · -- the new task is the cached one
    rw [heq] at hcache
    refine ⟨⟨hplaced, fun c hc => ?_, fun c hc => ?_⟩, fun c hc k' t ht => ?_⟩
    all_goals obtain rfl : s.taskid + 1 = c := Option.some.inj (hcache.symm.trans hc)
    · rw [hj.spawned.live]
      exact List.mem_append_right _ (List.mem_singleton_self _)
    · rw [hj.prio_self]
      exact ⟨_, (hmem _ _).mpr (.inl ⟨rfl, rfl⟩)⟩
    · rw [hj.prio_self]
      rcases (hmem t _).mp ht with ⟨-, hk⟩ | hold
      · rw [Head.rq.inj hk]
      · cases hc : s.nxtImmTask with
        | none => exact hfills hc k' t hold
        | some c => exact (hle c hc).trans (h.low c hc k' t hold)
  · rw [heq] at hcache
    have hprio := hj.prio_other c (hold (h.live c hc))
    refine ⟨⟨hplaced, fun c' hc' => ?_, fun c' hc' => ?_⟩, fun c' hc' k' t ht => ?_⟩
    all_goals obtain rfl : c = c' := Option.some.inj (hcache.symm.trans hc')
    · exact hlive (h.live c hc)
    · obtain ⟨t, ht⟩ := h.manned c hc
      rw [hprio]
      exact ⟨t, (hmem t _).mpr (.inr ht)⟩
    · rw [hprio]
      rcases (hmem t _).mp ht with ⟨-, hk⟩ | hold
      · rw [Head.rq.inj hk]
        exact hle
      · exact h.low c hc k' t hold

/-! ## One step -/

theorem FillsCache.covered {s : SchedState} {op : Op} (hok : FillsCache s op) (h : Backed s)
    (hne : arrivals s op ≠ []) : Covered (arrivals s op) s :=
  h.covered fun hcache => hok hcache hne

theorem Backed.of_spawn {s s' : SchedState} (h : Backed s) {prio : Int} {tskOk stkOk : Bool}
    {now : Int} (hok : FillsCache s (.spawn prio tskOk stkOk now))
    (hstep : schedStep s (.spawn prio tskOk stkOk now) = some s') : Backed s' := by
  simp only [schedStep] at hstep
  split at hstep
  · rename_i hrange
    cases hstep
    cases halloc : tskOk && stkOk with
    | false => exact h.of_untouched (untouched_spawnTask s _ halloc now).1
    | true =>
        obtain ⟨rfl, rfl⟩ := Bool.and_eq_true_iff.mp halloc
        refine h.spawn fun hcache => ?_
        simp only [FillsCache, arrivals, dif_pos hrange, Bool.and_self, if_true] at hok
        obtain ⟨m, hm, hle⟩ := hok hcache (List.cons_ne_nil _ _)
        exact List.mem_singleton.mp hm ▸ hle
  · cases hstep

theorem Backed.of_unlock {s s' : SchedState} (h : Backed s) {l : LockId} {now : Int}
    (hok : FillsCache s (.unlock l now)) (hstep : Sched.unlock s l now = some s') : Backed s' := by
  have hmid := untouched_dropLock s l
  rcases unlock_eq_some hstep with ⟨-, rfl⟩ | ⟨howner, ⟨-, rfl⟩ | ⟨p, rest, hcons, rfl⟩⟩
  · exact h
  · exact h.of_untouched hmid
  · have hp : p ∈ s.hd (.lock l) := hcons ▸ List.mem_cons_self
    have harr : arrivals s (.unlock l now) = [(s.tsk p).prio] := by
      simp only [arrivals, if_pos howner]
      rw [hcons]
      rfl
    have hcov := hok.covered h (harr ▸ List.cons_ne_nil _ _)
    rw [harr] at hcov
    exact hcov.wakeup_found hmid hp now

theorem Backed.of_postEvent {s : SchedState} (h : Backed s) {tid : TaskId} {event : BitVec 32}
    {now : Int} (hok : FillsCache s (.postEvent tid event now)) :
    Backed (Sched.postEvent s tid event now) := by
  rcases postEvent_cases s tid event now with ⟨-, heq⟩ | ⟨p, hfind, heq⟩
  · rw [heq]
    exact h
  · obtain ⟨rfl, hd, hmem⟩ := findTask_eq_some hfind
    have harr : arrivals s (.postEvent p event now) = [(s.tsk p).prio] := by
      simp only [arrivals, hfind]
      rfl
    have hcov := hok.covered h (harr ▸ List.cons_ne_nil _ _)
    rw [harr] at hcov
    rw [heq]
    exact hcov.wakeup_found (untouched_addEvent s p event) hmem now

theorem Backed.of_wakeIoTask {s : SchedState} (h : Backed s) {fd : Fin maxFds} {now : Int}
    (hok : FillsCache s (.wakeIo fd now)) : Backed (wakeIoTask s fd now) := by
  have harr : arrivals s (.wakeIo fd now) = (s.hd (.io fd)).map fun p => (s.tsk p).prio := by
    simp only [arrivals, dif_pos fd.isLt]
  cases hhd : s.hd (.io fd) with
  | nil =>
      rw [wakeIoTask, hhd]
      exact h
  | cons p rest =>
      have hcov := hok.covered h (by rw [harr, hhd]; exact List.cons_ne_nil _ _)
      rw [harr] at hcov
      exact (hcov.wakeIo (h.lists.nodup _) fun _ => id).backed

theorem Backed.of_schedStep {s s' : SchedState} {op : Op} (h : Backed s) (hl : ListsOk s')
    (hok : Orderly s (.op op)) (hstep : schedStep s op = some s') : Backed s' := by
  obtain ⟨hfills, hleaves, hwoken⟩ := hok
  cases op with
  | spawn prio tskOk stkOk now => exact h.of_spawn hfills hstep
  | addToWaitQ now =>
      obtain ⟨-, rfl⟩ := schedStep_addToWaitQ hstep
      rcases addTaskToWaitQ_cases s now with ⟨-, heq⟩ | ⟨honrq, hw, -⟩
      · rw [heq]
        exact h
      · exact h.of_waited hw hl (hleaves honrq)
  | waitOnFd fd =>
      obtain ⟨-, _, -, rfl⟩ := schedStep_waitOnFd hstep
      exact h.of_waited (waited_queueOnFd s _) hl (hleaves trivial)
  | lock l =>
      obtain ⟨-, rfl⟩ := schedStep_lock hstep
      by_cases hlock : (s.lock l).lock = 0
      · exact h.of_untouched (untouched_lockPass hlock)
      · exact h.of_waited (waited_lockPass hlock) hl (hleaves hlock)
  | unlock l now => exact h.of_unlock hfills hstep
  | wakeup p now =>
      obtain ⟨hlive, hidle, rfl⟩ := schedStep_wakeup hstep
      have hcov := hfills.covered h (List.cons_ne_nil _ _)
      exact hcov.wakeup (Untouched.refl s) hlive hidle hwoken now
  | wakeIo fd now =>
      obtain ⟨k, rfl, rfl⟩ := schedStep_wakeIo hstep
      have hback : Backed (wakeIoTask s k now) := h.of_wakeIoTask hfills
      exact hback
  | postEvent tid event now =>
      cases hstep
      exact h.of_postEvent hfills
  | tick now =>
      cases hstep
      exact h.of_untouched (untouched_accountTaskTimeStats s now)
  | schedule now => exact h.of_schedule hl hstep

theorem Backed.of_step {s s' : SchedState} {i : ExitOp} (h : Backed s) (hok : Orderly s i)
    (hstep : exitStep s i = some s') : Backed s' := by
  have hl := h.lists.of_exitStep hstep
  cases i with
  | op op => exact h.of_schedStep hl hok (exitStep_op hstep).2
  | exit e =>
      cases hended : ended s e with
      | none =>
          rw [exit_of_ended_none hstep hended]
          exact h
      | some p =>
          obtain ⟨-, hidle, rfl⟩ := ended_live h.lists hstep hended
          obtain ⟨hcached, hleaves⟩ := hok p hended
          exact h.of_taskExit hidle hcached hleaves

theorem Placed.of_exitStep {s s' : SchedState} {i : ExitOp} (h : Placed s)
    (hstep : exitStep s i = some s') : Placed s' := by
  have hl := h.lists.of_exitStep hstep
  cases i with
  | op op =>
      obtain ⟨-, hop⟩ := exitStep_op hstep
      cases effect_of_schedStep h.lists hop with
      | untouched _ hu => exact h.of_untouched hu
      | waited _ _ hw => exact h.of_removed hl hw.mem_rq fun t _ => hw.prio t
      | woken hlive hidle hw => exact h.of_woken hw hlive hidle
      | wakes _ hmid hw =>
          refine hw.preserves (fun u u' p hd hmem hwoken hu => ?_) (h.of_untouched hmid)
          obtain ⟨hlive, hidle, -⟩ := hu.lists.member hd p hmem
          exact hu.of_woken hwoken hlive hidle
      | joined _ hj => exact h.of_joined hj
      | switched _ => exact h.of_schedule hl hop
  | exit e =>
      cases hended : ended s e with
      | none =>
          rw [exit_of_ended_none hstep hended]
          exact h
      | some p =>
          obtain ⟨-, -, rfl⟩ := ended_live h.lists hstep hended
          refine h.of_removed hl (fun _ _ => mem_taskExit_hd) fun t hne => ?_
          rw [taskExit_tsk_of_ne hne]

/-! ## Runs -/

theorem backed_tmlibInit (now : Int) : Backed (tmlibInit now) := by
  have hprio : ((tmlibInit now).tsk 3).prio = 1 := by simp [bootTsk, bootTask]
  have hcache (c : TaskId) (hc : (tmlibInit now).nxtImmTask = some c) : c = 3 := by
    rw [tmlibInit_nxtImmTask] at hc
    exact (Option.some.inj hc).symm
  have hmem (k : Fin maxPrio) (t : TaskId) (ht : t ∈ (tmlibInit now).hd (.rq k)) :
      k = 1 ∧ t = 3 := by
    obtain ⟨hk, ht⟩ := mem_tmlibInit_hd.mp ht
    exact ⟨Head.rq.inj hk, ht⟩
  refine ⟨⟨⟨(regular_tmlibInit now).toQueued.listsOk, fun k t ht => ?_⟩, fun c hc => ?_,
    fun c hc => ?_⟩, fun c hc k t ht => ?_⟩
  · obtain ⟨rfl, rfl⟩ := hmem k t ht
    rw [hprio]
  · simp [hcache c hc]
  · rw [hcache c hc, hprio]
    exact ⟨3, mem_tmlibInit_hd.mpr ⟨rfl, rfl⟩⟩
  · rw [hcache c hc, hprio, (hmem k t ht).1]

theorem placed_of_run {now : Int} {ops : List ExitOp} {s : SchedState}
    (hrun : PartialSteps.run exitStep (tmlibInit now) ops = some s) : Placed s :=
  PartialSteps.run_invariant_always exitStep (fun _ _ _ hs hstep => hs.of_exitStep hstep)
    (backed_tmlibInit now).toPlaced hrun

/-- In every run of orderly steps the cached task is one that the search could have
found. -/
theorem cacheLaw_of_orderly {now : Int} {ops : List ExitOp} {s : SchedState}
    (hrun : PartialSteps.run exitStep (tmlibInit now) ops = some s)
    (hok : PartialSteps.Meets exitStep Orderly (tmlibInit now) ops) : CacheLaw s :=
  (PartialSteps.run_invariant exitStep (fun _ _ _ hs hi hstep => hs.of_step hi hstep)
    (backed_tmlibInit now) hok hrun).cacheLaw

/-- The program starts two tasks and waits.  The soft irq task runs, wakes the program
again, which is ahead of all others, and ends its turn by a wait. -/
def orderlyRun : List ExitOp :=
  [.op (.spawn 5 true true 1), .op (.spawn 10 true true 2), .op (.addToWaitQ 3),
    .op (.schedule 4), .op (.wakeup 1 5), .op (.addToWaitQ 6)]

theorem cacheLaw_orderlyRun :
    ∃ s, PartialSteps.run exitStep (tmlibInit 0) orderlyRun = some s ∧
      PartialSteps.Meets exitStep Orderly (tmlibInit 0) orderlyRun ∧
      (getNextEligibleTaskToRun s).2 = some 1 ∧ s.nxtImmTask = some 1 ∧ CacheLaw s := by
  have hfacts : (PartialSteps.run exitStep (tmlibInit 0) orderlyRun).map
      (fun s => ((getNextEligibleTaskToRun s).2, s.nxtImmTask)) = some (some 1, some 1) := by
    decide +kernel
  have hok : PartialSteps.Meets exitStep Orderly (tmlibInit 0) orderlyRun := by decide +kernel
  obtain ⟨s, hrun, hs⟩ := Option.map_eq_some_iff.mp hfacts
  simp only [Prod.mk.injEq] at hs
  exact ⟨s, hrun, hok, hs.1, hs.2, cacheLaw_of_orderly hrun hok⟩

/-- The program and the soft irq task wait, and the task of priority 5 runs, which starts
one of priority 10. -/
def lowSpawnRun : List ExitOp :=
  [.op (.spawn 5 true true 1), .op (.addToWaitQ 2), .op (.schedule 3), .op (.addToWaitQ 4),
    .op (.schedule 5), .op (.spawn 10 true true 6)]

/-- The new task is the next one to run, where the search would choose the task that
started it. -/
theorem not_cacheLaw_lowSpawn :
    ∃ s, PartialSteps.run exitStep (tmlibInit 0) lowSpawnRun = some s ∧
      (getNextEligibleTaskToRun s).2 = some 5 ∧ (s.tsk 5).prio = 10 ∧
      (nextTaskReadyToRun s).2 = some 4 ∧ (s.tsk 4).prio = 5 ∧ ¬ CacheLaw s := by
  have hfacts : (PartialSteps.run exitStep (tmlibInit 0) lowSpawnRun).any
      (fun s => (getNextEligibleTaskToRun s).2 = some 5 ∧ (s.tsk 5).prio = 10 ∧
        (nextTaskReadyToRun s).2 = some 4 ∧ (s.tsk 4).prio = 5 ∧ s.nxtImmTask = some 5 ∧
          s.nrp ≠ 0 ∧ 4 ∈ s.hd (.rq 5)) := by
    decide +kernel
  simp only [Option.any_eq_true, decide_eq_true_eq] at hfacts
  obtain ⟨s, hrun, helected, hlow, hsearch, hhigh, hcache, hnrp, hlinked⟩ := hfacts
  refine ⟨s, hrun, helected, hlow, hsearch, hhigh, fun hlaw => ?_⟩
  have hle := (hlaw hnrp (Option.isSome_iff_exists.mpr ⟨5, hcache⟩) 5 helected).1 5 4 hlinked
  rw [hlow, hhigh] at hle
  exact absurd hle (by decide)

end Sched
end TmULThreads
