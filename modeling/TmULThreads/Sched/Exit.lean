import TmULThreads.Sched.Counters

/-!
# The end of a task

`task_exit` and its callers: `kill_task`, which ends the task that `find_task` finds,
and the return of a start routine through `clone_thread`.

`task_exit` takes the task off its list and off `task_count`, but neither off `rq.nrp`
nor off `wq.nwp`, whichever of them the task was charged to.  `exitExact_iff` states
that no task ends without leaving one of the two counters too high by one.
-/

namespace TmULThreads
namespace Sched

/-- `task_exit`.  The task is cleared before it is freed. -/
def taskExit (s : SchedState) (p : TaskId) : SchedState :=
  let s := (listDel s p).setTsk p { prio := 0, tslice := 0 }
  { s with live := s.live.filter (· ≠ p), taskCount := toUInt (s.taskCount - 1) }

/-- `kill_task`, and `task_cancel`, which drops the result. -/
def killTask (s : SchedState) (tid : TaskId) : SchedState × Int :=
  match findTask s tid with
  | none => (s, -1)
  | some p => (taskExit s p, 0)

/-- The ways in which a task ends. -/
inductive Exit where
  | kill (tid : TaskId)
  /-- The start routine of the current task returns. -/
  | ret
  deriving DecidableEq, Repr

/-- The task that ends. -/
def ended (s : SchedState) : Exit → Option TaskId
  | .kill tid => findTask s tid
  | .ret => some s.current

/-- The idle task does not return, and the program itself was not started by
`clone_thread`. -/
def exit (s : SchedState) : Exit → Option SchedState
  | .kill tid => some (killTask s tid).1
  | .ret =>
      if s.current = s.idle ∨ s.current = s.parent then none else some (taskExit s s.current)

inductive ExitOp where
  | op (op : Op)
  | exit (e : Exit)
  deriving DecidableEq, Repr

/-- A task that has ended does nothing any more. -/
def exitStep (s : SchedState) (i : ExitOp) : Option SchedState :=
  if s.current ∈ s.live then
    match i with
    | .op op => schedStep s op
    | .exit e => Sched.exit s e
  else none

/-- The tasks with a start routine that have not ended. -/
def spawned (s : SchedState) : Nat := s.live.countP fun t => t ≠ s.parent

/-- The counters after the end of `p`, or of no task. -/
structure ExitExact (s : SchedState) (p : Option TaskId) (s' : SchedState) : Prop where
  nrp : s'.nrp = s.nrp - p.elim 0 fun p => bit (s.tsk p).onrq
  nwp : s'.nwp = s.nwp - p.elim 0 fun p => bit !(s.tsk p).onrq
  taskCount : s.taskCount = spawned s → s'.taskCount = spawned s'
  /-- With exact counters, idle is picked when there is no runnable task left. -/
  idle : Counted s → runnable s' = 0 → (getNextEligibleTaskToRun s').2 = some s'.idle

/-! ## Lists and counts -/

theorem mem_taskExit_hd {s : SchedState} {p t : TaskId} {h : Head} :
    t ∈ (taskExit s p).hd h ↔ t ∈ s.hd h ∧ t ≠ p := by
  show t ∈ (s.hd h).filter (· ≠ p) ↔ _
  rw [List.mem_filter, decide_eq_true_eq]

theorem mem_taskExit_live {s : SchedState} {p t : TaskId} :
    t ∈ (taskExit s p).live ↔ t ∈ s.live ∧ t ≠ p := by
  show t ∈ s.live.filter (· ≠ p) ↔ _
  rw [List.mem_filter, decide_eq_true_eq]

theorem taskExit_tsk_of_ne {s : SchedState} {p t : TaskId} (h : t ≠ p) :
    (taskExit s p).tsk t = s.tsk t :=
  Function.update_of_ne h ..

theorem ListsOk.of_taskExit {s : SchedState} (h : ListsOk s) {p : TaskId} (hidle : p ≠ s.idle) :
    ListsOk (taskExit s p) where
  live_nodup := h.live_nodup.filter _
  live_le t ht := h.live_le t (mem_taskExit_live.mp ht).1
  idle_live := mem_taskExit_live.mpr ⟨h.idle_live, hidle.symm⟩
  nodup hd := (h.nodup hd).filter _
  unique t hd hd' ht ht' := h.unique t hd hd' (mem_taskExit_hd.mp ht).1 (mem_taskExit_hd.mp ht').1
  member hd t ht := by
    obtain ⟨hmem, hne⟩ := mem_taskExit_hd.mp ht
    obtain ⟨hlive, hti, honrq⟩ := h.member hd t hmem
    rw [taskExit_tsk_of_ne hne]
    exact ⟨mem_taskExit_live.mpr ⟨hlive, hne⟩, hti, honrq⟩

/-- Taking one element out of a list without duplicates. -/
theorem countP_filter_ne {l : List TaskId} (hnodup : l.Nodup) {p : TaskId} (hp : p ∈ l)
    {f g : TaskId → Bool} (hagree : ∀ t ∈ l, t ≠ p → f t = g t) :
    (l.filter (· ≠ p)).countP f + bit (g p) = l.countP g := by
  rw [List.countP_filter]
  have hcount := countP_add_ite hnodup hp (f := fun t => f t && decide (t ≠ p)) (g := g)
    fun t ht hne => by simp [hne, hagree t ht hne]
  simpa [bit] using hcount

theorem taskExit_counts {s : SchedState} (h : ListsOk s) {p : TaskId} (hlive : p ∈ s.live)
    (hidle : p ≠ s.idle) :
    runnable (taskExit s p) + bit (s.tsk p).onrq = runnable s ∧
      waiting (taskExit s p) + bit (!(s.tsk p).onrq) = waiting s := by
  constructor
  · have hcount : runnable (taskExit s p) + bit (decide (p ≠ s.idle) && (s.tsk p).onrq) =
        runnable s :=
      countP_filter_ne h.live_nodup hlive
        (f := fun t => t ≠ s.idle && ((taskExit s p).tsk t).onrq)
        (g := fun t => t ≠ s.idle && (s.tsk t).onrq)
        fun t _ hne => by rw [taskExit_tsk_of_ne hne]
    rwa [decide_eq_true hidle, Bool.true_and] at hcount
  · exact countP_filter_ne h.live_nodup hlive
      (f := fun t => !((taskExit s p).tsk t).onrq) (g := fun t => !(s.tsk t).onrq)
      fun t _ hne => by rw [taskExit_tsk_of_ne hne]

/-- The counter that the task was charged to stays too high by one. -/
theorem taskExit_drift {s : SchedState} (h : ListsOk s) {p : TaskId} (hlive : p ∈ s.live)
    (hidle : p ≠ s.idle) :
    runDrift (taskExit s p) = runDrift s + bit (s.tsk p).onrq ∧
      waitDrift (taskExit s p) = waitDrift s + bit !(s.tsk p).onrq := by
  obtain ⟨hrun, hwait⟩ := taskExit_counts h hlive hidle
  have hnrp : (taskExit s p).nrp = s.nrp := rfl
  have hnwp : (taskExit s p).nwp = s.nwp := rfl
  unfold runDrift waitDrift
  omega

/-! ## Reachable states -/

theorem exitStep_op {s s' : SchedState} {op : Op} (h : exitStep s (.op op) = some s') :
    s.current ∈ s.live ∧ schedStep s op = some s' := by
  simp only [exitStep] at h
  split at h
  · rename_i hcur
    exact ⟨hcur, h⟩
  · cases h

theorem ended_live {s s' : SchedState} (h : ListsOk s) {e : Exit} {p : TaskId}
    (hstep : exitStep s (.exit e) = some s') (hended : ended s e = some p) :
    p ∈ s.live ∧ p ≠ s.idle ∧ s' = taskExit s p := by
  simp only [exitStep] at hstep
  split at hstep
  · rename_i hcur
    cases e with
    | kill tid =>
        have hfind : findTask s tid = some p := hended
        obtain ⟨rfl, hd, hmem⟩ := findTask_eq_some hfind
        obtain ⟨hlive, hidle, -⟩ := h.member hd p hmem
        simp only [exit, killTask, hfind] at hstep
        exact ⟨hlive, hidle, (Option.some.inj hstep).symm⟩
    | ret =>
        cases hended
        simp only [exit] at hstep
        split at hstep
        · cases hstep
        · rename_i hne
          exact ⟨hcur, fun hidle => hne (.inl hidle), (Option.some.inj hstep).symm⟩
  · cases hstep

/-- An exit does nothing but end the task. -/
theorem exit_cases {s s' : SchedState} {e : Exit} (hstep : exitStep s (.exit e) = some s') :
    (ended s e = none ∧ s' = s) ∨ ∃ p, ended s e = some p ∧ s' = taskExit s p := by
  simp only [exitStep] at hstep
  split at hstep
  · cases e with
    | kill tid =>
        simp only [exit, killTask] at hstep
        cases hfind : findTask s tid with
        | none =>
            rw [hfind] at hstep
            exact .inl ⟨hfind, (Option.some.inj hstep).symm⟩
        | some p =>
            rw [hfind] at hstep
            exact .inr ⟨p, hfind, (Option.some.inj hstep).symm⟩
    | ret =>
        simp only [exit] at hstep
        split at hstep
        · cases hstep
        · exact .inr ⟨s.current, rfl, (Option.some.inj hstep).symm⟩
  · cases hstep

theorem exit_of_ended_none {s s' : SchedState} {e : Exit}
    (hstep : exitStep s (.exit e) = some s') (hended : ended s e = none) : s' = s := by
  rcases exit_cases hstep with ⟨-, heq⟩ | ⟨p, hp, -⟩
  · exact heq
  · rw [hended] at hp
    cases hp

theorem ListsOk.of_exitStep {s s' : SchedState} {i : ExitOp} (h : ListsOk s)
    (hstep : exitStep s i = some s') : ListsOk s' := by
  cases i with
  | op op =>
      obtain ⟨hcur, hop⟩ := exitStep_op hstep
      exact h.of_effect hcur (effect_of_schedStep h hop)
  | exit e =>
      cases hended : ended s e with
      | none =>
          rw [exit_of_ended_none hstep hended]
          exact h
      | some p =>
          obtain ⟨-, hidle, rfl⟩ := ended_live h hstep hended
          exact h.of_taskExit hidle

theorem listsOk_of_run {now : Int} {ops : List ExitOp} {s : SchedState}
    (hrun : PartialSteps.run exitStep (tmlibInit now) ops = some s) : ListsOk s :=
  PartialSteps.run_invariant_always exitStep (fun _ _ _ hs hstep => hs.of_exitStep hstep)
    (regular_tmlibInit now).toQueued.listsOk hrun

theorem exitExact_none {s : SchedState} : ExitExact s none s where
  nrp := (sub_zero _).symm
  nwp := (sub_zero _).symm
  taskCount := id
  idle hcounted hrun := by
    have hnrp : s.nrp = 0 := by
      rw [hcounted.1, hrun]
      rfl
    rw [getNextEligibleTaskToRun, if_pos hnrp]

theorem not_exitExact_taskExit {s : SchedState} (p : TaskId) :
    ¬ ExitExact s (some p) (taskExit s p) := by
  intro h
  have hnrp : s.nrp = s.nrp - bit (s.tsk p).onrq := h.nrp
  have hnwp : s.nwp = s.nwp - bit !(s.tsk p).onrq := h.nwp
  cases honrq : (s.tsk p).onrq with
  | true =>
      rw [honrq, bit, if_pos rfl] at hnrp
      omega
  | false =>
      rw [honrq, Bool.not_false, bit, if_pos rfl] at hnwp
      omega

/-- In every reachable state the counters are exact after an exit only if no task has
ended: the end of a task leaves `nrp` or `nwp` too high by one. -/
theorem exitExact_iff {now : Int} {ops : List ExitOp} {s s' : SchedState} {e : Exit}
    (hrun : PartialSteps.run exitStep (tmlibInit now) ops = some s)
    (hstep : exitStep s (.exit e) = some s') :
    (ExitExact s (ended s e) s' ↔ ended s e = none) ∧
      ∀ p, ended s e = some p →
        runDrift s' = runDrift s + bit (s.tsk p).onrq ∧
          waitDrift s' = waitDrift s + bit !(s.tsk p).onrq := by
  have hl := listsOk_of_run hrun
  cases hended : ended s e with
  | none =>
      rw [exit_of_ended_none hstep hended]
      exact ⟨⟨fun _ => rfl, fun _ => exitExact_none⟩, nofun⟩
  | some p =>
      obtain ⟨hlive, hidle, rfl⟩ := ended_live hl hstep hended
      refine ⟨⟨fun hexact => absurd hexact (not_exitExact_taskExit p), nofun⟩, fun q hq => ?_⟩
      cases hq
      exact taskExit_drift hl hlive hidle

/-- `kill_task` does not find the program itself before it has waited. -/
theorem exitExact_kill_main :
    ∃ s s', PartialSteps.run exitStep (tmlibInit 0) [.op (.spawn 5 true true 1)] = some s ∧
      exitStep s (.exit (.kill 1)) = some s' ∧ ExitExact s (ended s (.kill 1)) s' := by
  have hfacts : (PartialSteps.run exitStep (tmlibInit 0) [.op (.spawn 5 true true 1)]).map
      (fun s => (ended s (.kill 1), (exitStep s (.exit (.kill 1))).isSome)) = some (none, true) := by
    decide +kernel
  obtain ⟨s, hrun, hs⟩ := Option.map_eq_some_iff.mp hfacts
  simp only [Prod.mk.injEq] at hs
  obtain ⟨s', hstep⟩ := Option.isSome_iff_exists.mp hs.2
  exact ⟨s, s', hrun, hstep, (exitExact_iff hrun hstep).1.mpr hs.1⟩

/-- The program and the soft irq task wait; task 4 has started task 5, which is the
current one. -/
def beforeKill : List ExitOp :=
  [.op (.spawn 5 true true 1), .op (.addToWaitQ 2), .op (.schedule 3), .op (.addToWaitQ 4),
    .op (.schedule 5), .op (.spawn 5 true true 6), .op (.schedule 7)]

/-- Task 5 kills task 4 and waits.  No task is runnable, `nrp` is 1, and `schedule`
elects no task at all. -/
theorem not_exitExact_kill_runnable :
    ∃ s s' last, PartialSteps.run exitStep (tmlibInit 0) beforeKill = some s ∧
      exitStep s (.exit (.kill 4)) = some s' ∧ ended s (.kill 4) = some 4 ∧
      ¬ ExitExact s (some 4) s' ∧ exitStep s' (.op (.addToWaitQ 8)) = some last ∧
      runnable last = 0 ∧ last.nrp = 1 ∧ (getNextEligibleTaskToRun last).2 = none := by
  have hfacts : ((PartialSteps.run exitStep (tmlibInit 0) beforeKill).bind fun s =>
      (exitStep s (.exit (.kill 4))).bind fun s' =>
        (exitStep s' (.op (.addToWaitQ 8))).map fun last =>
          (ended s (.kill 4), runnable last, last.nrp, (getNextEligibleTaskToRun last).2)) =
        some (some 4, 0, 1, none) := by
    decide +kernel
  obtain ⟨s, hrun, hfacts⟩ := Option.bind_eq_some_iff.mp hfacts
  obtain ⟨s', hkill, hfacts⟩ := Option.bind_eq_some_iff.mp hfacts
  obtain ⟨last, hwait, hfacts⟩ := Option.map_eq_some_iff.mp hfacts
  simp only [Prod.mk.injEq] at hfacts
  obtain ⟨hended, hrunnable, hnrp, helected⟩ := hfacts
  refine ⟨s, s', last, hrun, hkill, hended, ?_, hwait, hrunnable, hnrp, helected⟩
  obtain ⟨-, -, rfl⟩ := ended_live (listsOk_of_run hrun) hkill hended
  exact not_exitExact_taskExit 4

end Sched
end TmULThreads
