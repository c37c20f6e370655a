import TmULThreads.Sched.Regular

/-!
# The state after `tmlib_init`

`tmlibInit` written out.  Three tasks exist: the program itself (`Main`), which is
the current one and is linked nowhere, the idle task, which has been taken off its
run queue, and the task of the soft interrupts, which is ready and cached.
-/

namespace TmULThreads
namespace Sched

def bootTask (now : Int) : TaskId → Tsk
  | 1 => { prio := 1, onrq := true, state := .running, stick := now }
  | 2 => { prio := 19, onrq := true, state := .interruptible, stime := now }
  | _ => { prio := 1, onrq := true, stime := now }

/-- The tasks after `n` calls of `spawn_task`. -/
def bootTsk (now : Int) : Nat → TaskId → Tsk
  | 0 => fun _ => { prio := 0 }
  | n + 1 => Function.update (bootTsk now n) (n + 1) (bootTask now (n + 1))

theorem createParentTask_eq (now : Int) :
    createParentTask initScheduler now =
      { initScheduler with
        live := [1], tsk := bootTsk now 1, taskid := 1, current := 1, parent := 1 } := by
  simp [createParentTask, spawnTask, initScheduler, SchedState.setTsk, bootTsk, bootTask]

/-- A list that a task is put on and taken off again. -/
theorem filter_update_singleton (h h' : Head) (p : TaskId) :
    (Function.update (fun _ : Head => ([] : List TaskId)) h [p] h').filter (· ≠ p) = [] := by
  by_cases heq : h' = h
  · simp [heq]
  · simp [Function.update_of_ne heq]

theorem createIdleTask_eq (now : Int) :
    createIdleTask (createParentTask initScheduler now) now =
      { initScheduler with
        live := [1, 2], tsk := bootTsk now 2, taskid := 2, current := 1, parent := 1, idle := 2,
        nxtImmTask := some 2, nrp := 1, taskCount := 1 } := by
  rw [createParentTask_eq]
  simp only [createIdleTask, spawnTask, wakeupNewTask, requestSched, taskFindRightRQ, cacheTask,
    listAddTail, listDel]
  have hhd : (fun h => (Function.update (fun _ : Head => []) (.rq 19) [2] h).filter
      fun t : TaskId => !decide (t = 2)) = fun _ => [] := by
    funext h
    simpa using filter_update_singleton (.rq 19) h 2
  simp [initScheduler, SchedState.setTsk, bootTsk, bootTask, hhd]

theorem tmlibInit_eq (now : Int) :
    tmlibInit now =
      { initScheduler with
        live := [1, 2, 3], tsk := bootTsk now 3, taskid := 3, current := 1, parent := 1, idle := 2,
        nxtImmTask := some 3, hd := Function.update (fun _ => []) (.rq 1) [3], nrp := 2,
        taskCount := 2 } := by
  rw [tmlibInit, createIdleTask_eq]
  simp [initSoftIrq, spawnTask, initScheduler, SchedState.setTsk, bootTsk, bootTask, wakeupNewTask,
    requestSched, taskFindRightRQ, cacheTask, listAddTail]

theorem mem_tmlibInit_hd {now : Int} {h : Head} {t : TaskId} :
    t ∈ (tmlibInit now).hd h ↔ h = .rq 1 ∧ t = 3 := by
  rw [tmlibInit_eq]
  by_cases heq : h = .rq 1
  · simp [heq]
  · simp [heq, Function.update_of_ne]

section Fields

variable (now : Int)

@[simp] theorem tmlibInit_live : (tmlibInit now).live = [1, 2, 3] := by rw [tmlibInit_eq]
@[simp] theorem tmlibInit_tsk : (tmlibInit now).tsk = bootTsk now 3 := by rw [tmlibInit_eq]
@[simp] theorem tmlibInit_taskid : (tmlibInit now).taskid = 3 := by rw [tmlibInit_eq]
@[simp] theorem tmlibInit_current : (tmlibInit now).current = 1 := by rw [tmlibInit_eq]
@[simp] theorem tmlibInit_idle : (tmlibInit now).idle = 2 := by rw [tmlibInit_eq]
@[simp] theorem tmlibInit_parent : (tmlibInit now).parent = 1 := by rw [tmlibInit_eq]
@[simp] theorem tmlibInit_nxtImmTask : (tmlibInit now).nxtImmTask = some 3 := by rw [tmlibInit_eq]
@[simp] theorem tmlibInit_nrp : (tmlibInit now).nrp = 2 := by rw [tmlibInit_eq]
@[simp] theorem tmlibInit_nwp : (tmlibInit now).nwp = 0 := by rw [tmlibInit_eq, initScheduler]

end Fields

theorem regular_tmlibInit (now : Int) : Regular (tmlibInit now) where
  live_nodup := by simp
  live_le := by simp
  idle_live := by simp
  parent_live := by simp
  idle_ne := by simp
  idle_onrq := by simp [bootTsk, bootTask]
  nodup := by
    intro h
    rw [tmlibInit_eq]
    by_cases heq : h = .rq 1
    · simp [heq]
    · simp [Function.update_of_ne heq]
  unique := by
    intro t h h' ht ht'
    exact (mem_tmlibInit_hd.mp ht).1.trans (mem_tmlibInit_hd.mp ht').1.symm
  member := by
    intro h t ht
    obtain ⟨rfl, rfl⟩ := mem_tmlibInit_hd.mp ht
    simp [bootTsk, bootTask, Head.isRq]
  linked := by
    intro t ht hidle hparent
    obtain rfl : t = 3 := by simp_all
    exact ⟨.rq 1, mem_tmlibInit_hd.mpr ⟨rfl, rfl⟩⟩
  stray := fun _ => by simp [bootTsk, bootTask]
  current_live := by simp
  cache_live := by simp

/-- `Regular` holds in every state that is reached. -/
theorem regular_of_run {now : Int} {ops : List Op} {s : SchedState}
    (h : PartialSteps.run schedStep (tmlibInit now) ops = some s) : Regular s :=
  PartialSteps.run_invariant_always schedStep (fun _ _ _ hs hstep => hs.of_step hstep)
    (regular_tmlibInit now) h

end Sched
end TmULThreads
