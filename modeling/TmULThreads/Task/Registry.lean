import TmULThreads.Lib.PartialSteps

/-!
# The registry of tasks

`task_create`, `tsk_wrap` and `task_delete` where a task is a POSIX thread.  A new thread runs
`tsk_wrap`, which links the record of the task into `tsk_hd` and calls the start routine;
meanwhile `start_task` stores the identifier of the thread in the record.  `task_delete`
takes the record out of the list and cancels the thread.

When a start routine returns, `tsk_wrap` returns too, and the record stays in the list.
`registryLaw_always_iff` states that the list is otherwise what it should be.
-/

namespace TmULThreads
namespace Task
namespace Registry

/-- How far a task has come. -/
inductive Phase where
  /-- The thread has been created, and has not come to `tsk_node_add`. -/
  | created
  | running
  /-- The start routine has returned. -/
  | returned
  | deleted
  deriving DecidableEq, Repr

/-- `NO_TASK_ID`. -/
def noTaskId : Nat := 1

/-- `MAX_TASK_NAME`. -/
def maxTaskName : Nat := 6

/-- The part of `tmtask_t` that the registry is about, with the thread of the task. -/
structure TmTask where
  taskName : List UInt8
  taskId : Nat
  /-- What `pthread_create` has returned. -/
  thread : Nat
  phase : Phase
  deriving DecidableEq, Repr

/-- All records that have been made, and `tsk_hd` as a list of places in them.  The record of
a deleted task has been freed. -/
structure Tasks where
  recs : List TmTask
  tskHd : List Nat
  deriving DecidableEq, Repr

def noTasks : Tasks := ⟨[], []⟩

/-! ## Functions -/

/-- The first linked record with a property. -/
def findTsk (s : Tasks) (p : TmTask → Bool) : Option Nat :=
  s.tskHd.find? fun t => s.recs[t]?.any p

/-- `get_tsk_info`. -/
def getTskInfo (s : Tasks) (tskname : List UInt8) (tskid : Nat) : Option Nat :=
  findTsk s fun r => r.taskName == tskname && r.taskId == tskid

/-- `get_tsk_info_frm_id`. -/
def getTskInfoFrmId (s : Tasks) (tskid : Nat) : Option Nat := findTsk s fun r => r.taskId == tskid

/-- The record that `fill_tsk_info` has filled in, with the thread that `pthread_create` has
made for it. -/
def newTsk (tskname : List UInt8) (thread : Nat) : TmTask where
  taskName := tskname.take maxTaskName
  taskId := noTaskId
  thread := thread
  phase := .created

/-- The thread is one of a task that has not ended. -/
def TmTask.Uses (thread : Nat) (r : TmTask) : Prop :=
  r.thread = thread ∧ (r.phase = .created ∨ r.phase = .running)

instance (thread : Nat) (r : TmTask) : Decidable (r.Uses thread) :=
  inferInstanceAs (Decidable (_ ∧ _))

inductive TaskOp where
  /-- A `task_create` that succeeds, up to `pthread_create`. -/
  | create (tskname : List UInt8) (thread : Nat)
  /-- `start_task` stores the identifier. -/
  | store (t : Nat)
  /-- `tsk_wrap`, up to the start routine. -/
  | start (t : Nat)
  /-- The start routine returns. -/
  | ret (t : Nat)
  /-- `task_delete`, called by a thread. -/
  | delete (self : Nat) (tskname : List UInt8) (tskid : Nat)
  deriving DecidableEq, Repr

/-- `TSK_SUCCESS`. -/
def tskSuccess : Nat := 1

/-- `TSK_FAILURE`. -/
def tskFailure : Nat := 0

/-- `task_delete`, with the value it returns.  A record without its identifier makes it cancel
a thread that there is not, which has no defined outcome. -/
def taskDelete (s : Tasks) (self : Nat) (tskname : List UInt8) (tskid : Nat) :
    Option (Tasks × Nat) :=
  match getTskInfo s tskname tskid with
  | none => some (s, tskFailure)
  | some t => do
      let r ← s.recs[t]?
      if r.taskId = self then some (s, tskFailure)
      else if r.taskId = r.thread then
        some (⟨s.recs.set t { r with phase := .deleted }, s.tskHd.erase t⟩, tskSuccess)
      else none

/-- `none` is a step that cannot be taken, or one without a defined outcome.  The system does
not give a new thread the identifier of one that has not ended. -/
def taskStep (s : Tasks) : TaskOp → Option Tasks
  | .create tskname thread =>
      if ∃ r ∈ s.recs, r.Uses thread then none
      else some { s with recs := s.recs ++ [newTsk tskname thread] }
  | .store t => do
      let r ← s.recs[t]?
      if r.phase = .deleted then none
      else some { s with recs := s.recs.set t { r with taskId := r.thread } }
  | .start t => do
      let r ← s.recs[t]?
      if r.phase = .created then
        some ⟨s.recs.set t { r with phase := .running }, t :: s.tskHd⟩
      else none
  | .ret t => do
      let r ← s.recs[t]?
      if r.phase = .running then some { s with recs := s.recs.set t { r with phase := .returned } }
      else none
  | .delete self tskname tskid => (taskDelete s self tskname tskid).map Prod.fst

/-! ## The property -/

/-- The task has started, and has neither returned nor been deleted. -/
def Tasks.Live (s : Tasks) (t : Nat) : Prop := ∃ r, s.recs[t]? = some r ∧ r.phase = .running

/-- The task has ended. -/
def Tasks.Ended (s : Tasks) (t : Nat) : Prop :=
  ∃ r, s.recs[t]? = some r ∧ (r.phase = .returned ∨ r.phase = .deleted)

structure RegistryLaw (s : Tasks) : Prop where
  nodup : s.tskHd.Nodup
  exact : ∀ t, t ∈ s.tskHd ↔ s.Live t
  found : ∀ tskid t, getTskInfoFrmId s tskid = some t → ¬ s.Ended t

/-- The step is not the return of a start routine. -/
def NoReturn (_ : Tasks) : TaskOp → Prop
  | .ret _ => False
  | _ => True

instance (s : Tasks) : ∀ op, Decidable (NoReturn s op)
  | .ret _ => isFalse id
  | .create _ _ | .store _ | .start _ | .delete _ _ _ => isTrue trivial

/-! ## Registries and records -/

theorem findTsk_mem {s : Tasks} {p : TmTask → Bool} {t : Nat} (h : findTsk s p = some t) :
    t ∈ s.tskHd := List.mem_of_find?_eq_some h

/-- What a list contains is enough for what is found in it. -/
theorem RegistryLaw.of_exact {s : Tasks} (hnodup : s.tskHd.Nodup)
    (hexact : ∀ t, t ∈ s.tskHd ↔ s.Live t) : RegistryLaw s where
  nodup := hnodup
  exact := hexact
  found tskid t hfind := by
    obtain ⟨r, hr, hrun⟩ := (hexact t).mp (findTsk_mem hfind)
    rintro ⟨r', hr', hended⟩
    rw [← Option.some.inj (hr.symm.trans hr'), hrun] at hended
    rcases hended with hret | hdel
    · cases hret
    · cases hdel

/-- The records after a write to one of them. -/
theorem live_set {recs : List TmTask} (hd : List Nat) {hd' : List Nat} {t : Nat} {r r' : TmTask}
    (hr : recs[t]? = some r) (u : Nat) :
    Tasks.Live ⟨recs.set t r', hd'⟩ u ↔
      (u = t ∧ r'.phase = .running) ∨ (u ≠ t ∧ Tasks.Live ⟨recs, hd⟩ u) := by
  obtain ⟨hlt, -⟩ := List.getElem?_eq_some_iff.mp hr
  unfold Tasks.Live
  dsimp only
  by_cases hut : u = t
  · subst hut
    rw [List.getElem?_set_self hlt]
    simp
  · rw [List.getElem?_set_ne (Ne.symm hut)]
    simp [hut]

/-- A new record is not that of a live task. -/
theorem live_append {recs : List TmTask} {hd : List Nat} {r : TmTask} (hr : r.phase ≠ .running)
    (u : Nat) : Tasks.Live ⟨recs ++ [r], hd⟩ u ↔ Tasks.Live ⟨recs, hd⟩ u := by
  unfold Tasks.Live
  dsimp only
  rcases lt_trichotomy u recs.length with hlt | heq | hgt
  · rw [List.getElem?_append_left hlt]
  · subst heq
    simp [hr]
  · have hlen : recs.length + 1 ≤ u := hgt
    have hnone : (recs ++ [r])[u]? = none := by
      rw [List.getElem?_eq_none_iff]
      simpa using hlen
    have hnone' : recs[u]? = none := List.getElem?_eq_none_iff.mpr (by omega)
    rw [hnone, hnone']

/-! ## One step -/

/-- What a step can do. -/
inductive TaskEffect (s : Tasks) : TaskOp → Tasks → Prop
  | created (tskname : List UInt8) (thread : Nat) :
      TaskEffect s (.create tskname thread) { s with recs := s.recs ++ [newTsk tskname thread] }
  | stored {t : Nat} {r : TmTask} (hr : s.recs[t]? = some r) :
      TaskEffect s (.store t) { s with recs := s.recs.set t { r with taskId := r.thread } }
  | started {t : Nat} {r : TmTask} (hr : s.recs[t]? = some r) (hphase : r.phase = .created) :
      TaskEffect s (.start t) ⟨s.recs.set t { r with phase := .running }, t :: s.tskHd⟩
  | returned {t : Nat} {r : TmTask} (hr : s.recs[t]? = some r) (hphase : r.phase = .running) :
      TaskEffect s (.ret t) { s with recs := s.recs.set t { r with phase := .returned } }
  | refused {self : Nat} {tskname : List UInt8} {tskid : Nat} :
      TaskEffect s (.delete self tskname tskid) s
  | deleted {self : Nat} {tskname : List UInt8} {tskid t : Nat} {r : TmTask}
      (hr : s.recs[t]? = some r) :
      TaskEffect s (.delete self tskname tskid)
        ⟨s.recs.set t { r with phase := .deleted }, s.tskHd.erase t⟩

theorem effect_of_taskDelete {s s' : Tasks} {self tskid ret : Nat} {tskname : List UInt8}
    (h : taskDelete s self tskname tskid = some (s', ret)) :
    TaskEffect s (.delete self tskname tskid) s' := by
  simp only [taskDelete] at h
  split at h
  · cases h
    exact .refused
  · obtain ⟨r, hr, h⟩ := Option.bind_eq_some_iff.mp h
    split at h
    · cases h
      exact .refused
    · split at h
      · cases h
        exact .deleted hr
      · cases h

theorem effect_of_taskStep {s s' : Tasks} {op : TaskOp} (hstep : taskStep s op = some s') :
    TaskEffect s op s' := by
  cases op with
  | create tskname thread =>
      simp only [taskStep] at hstep
      split at hstep
      · cases hstep
      · cases hstep
        exact .created tskname thread
  | store t =>
      obtain ⟨r, hr, hstep⟩ := Option.bind_eq_some_iff.mp hstep
      split at hstep
      · cases hstep
      · cases hstep
        exact .stored hr
  | start t =>
      obtain ⟨r, hr, hstep⟩ := Option.bind_eq_some_iff.mp hstep
      split at hstep
      · rename_i hphase
        cases hstep
        exact .started hr hphase
      · cases hstep
  | ret t =>
      obtain ⟨r, hr, hstep⟩ := Option.bind_eq_some_iff.mp hstep
      split at hstep
      · rename_i hphase
        cases hstep
        exact .returned hr hphase
      · cases hstep
  | delete self tskname tskid =>
      obtain ⟨⟨s₁, ret⟩, hdelete, rfl⟩ := Option.map_eq_some_iff.mp hstep
      exact effect_of_taskDelete hdelete

/-- A step keeps the registry exact, unless a start routine returns: that breaks it. -/
theorem RegistryLaw.step {s s' : Tasks} {op : TaskOp} (h : RegistryLaw s)
    (hstep : taskStep s op = some s') :
    (NoReturn s op → RegistryLaw s') ∧ (RegistryLaw s' → NoReturn s op) := by
  cases effect_of_taskStep hstep with
  | created tskname thread =>
      refine ⟨fun _ => .of_exact h.nodup fun t => ?_, fun _ => trivial⟩
      rw [live_append (by simp [newTsk])]
      exact h.exact t
  | @stored t r hr =>
      refine ⟨fun _ => .of_exact h.nodup fun u => ?_, fun _ => trivial⟩
      rw [live_set s.tskHd hr, h.exact u]
      by_cases hut : u = t
      · subst hut
        simp [Tasks.Live, hr]
      · simp [hut]
  | @started t r hr hphase =>
      have hnot : t ∉ s.tskHd := by
        rw [h.exact t]
        rintro ⟨r', hr', hrun⟩
        rw [← Option.some.inj (hr.symm.trans hr'), hphase] at hrun
        cases hrun
      have hnodup : (t :: s.tskHd).Nodup := List.nodup_cons.mpr ⟨hnot, h.nodup⟩
      refine ⟨fun _ => .of_exact hnodup fun u => ?_, fun _ => trivial⟩
      rw [live_set s.tskHd hr, List.mem_cons]
      by_cases hut : u = t
      · simp [hut]
      · simp [hut, h.exact u]
  | @returned t r hr hphase =>
      refine ⟨fun hfalse => hfalse.elim, fun h' => ?_⟩
      -- the record is still linked
      have hmem : t ∈ s.tskHd := (h.exact t).mpr ⟨r, hr, hphase⟩
      have hlive := (h'.exact t).mp hmem
      rw [live_set s.tskHd hr] at hlive
      simp at hlive
  | refused => exact ⟨fun _ => h, fun _ => trivial⟩
  | @deleted _ _ _ t r hr =>
      refine ⟨fun _ => .of_exact (h.nodup.erase t) fun u => ?_, fun _ => trivial⟩
      rw [live_set s.tskHd hr, h.nodup.mem_erase_iff, h.exact u]
      simp

/-- Along every run, the registry holds the live tasks, each of them once, and no task that has
ended is found by its identifier, exactly if no start routine returns. -/
theorem registryLaw_always_iff (ops : List TaskOp) (s : Tasks)
    (hrun : PartialSteps.run taskStep noTasks ops = some s) :
    PartialSteps.Always taskStep RegistryLaw noTasks ops ↔
      PartialSteps.Meets taskStep NoReturn noTasks ops := by
  refine PartialSteps.always_iff_meets taskStep (fun _ h => h) (fun s op s' h => h.step) ?_ hrun
  refine .of_exact List.nodup_nil fun t => ?_
  simp [noTasks, Tasks.Live]

/-- Two tasks; the second links itself before its identifier is stored, and deletes the
first. -/
def deletedRun : List TaskOp :=
  [.create [65] 10, .store 0, .start 0, .create [66] 11, .start 1, .store 1, .delete 11 [65] 10,
    .create [67] 10]

theorem registryLaw_deletedRun :
    (∃ s, PartialSteps.run taskStep noTasks deletedRun = some s ∧ s.tskHd = [1]) ∧
      PartialSteps.Always taskStep RegistryLaw noTasks deletedRun := by
  have hfacts : (PartialSteps.run taskStep noTasks deletedRun).map Tasks.tskHd = some [1] := by
    decide +kernel
  obtain ⟨s, hrun, hs⟩ := Option.map_eq_some_iff.mp hfacts
  exact ⟨⟨s, hrun, hs⟩, (registryLaw_always_iff deletedRun s hrun).mpr (by decide +kernel)⟩

/-- The start routine of the only task returns, and the task is still found. -/
theorem not_registryLaw_returned :
    ∃ s, PartialSteps.run taskStep noTasks [.create [65] 10, .store 0, .start 0, .ret 0] = some s ∧
      getTskInfoFrmId s 10 = some 0 ∧ s.Ended 0 ∧ ¬ RegistryLaw s := by
  have hfacts : (PartialSteps.run taskStep noTasks
      [.create [65] 10, .store 0, .start 0, .ret 0]).map
        (fun s => (getTskInfoFrmId s 10, s.recs[0]?.map TmTask.phase)) =
      some (some 0, some .returned) := by decide +kernel
  obtain ⟨s, hrun, hs⟩ := Option.map_eq_some_iff.mp hfacts
  simp only [Prod.mk.injEq, Option.map_eq_some_iff] at hs
  obtain ⟨hfind, r, hr, hphase⟩ := hs
  have hended : s.Ended 0 := ⟨r, hr, .inl hphase⟩
  exact ⟨s, hrun, hfind, hended, fun hlaw => hlaw.found 10 0 hfind hended⟩

end Registry
end Task
end TmULThreads
