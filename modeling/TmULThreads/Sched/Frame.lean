import TmULThreads.Sched.Regular

/-!
# What the scheduler never writes

The locks and the event words of the tasks are changed by the calls that are about
them and by nothing else.  `Framed` says so for one function of the scheduler after
the other, and `lock_of_schedStep` and `event_of_schedStep` for a whole step.  The
tasks that there are change only with `spawn_task` (`sameTasks_of_schedStep`).
-/

namespace TmULThreads
namespace Sched

structure Framed (s s' : SchedState) : Prop where
  lock : s'.lock = s.lock
  event : ∀ t, (s'.tsk t).event = (s.tsk t).event

theorem Framed.refl (s : SchedState) : Framed s s := ⟨rfl, fun _ => rfl⟩

theorem Framed.trans {s mid s' : SchedState} (h : Framed s mid) (h' : Framed mid s') :
    Framed s s' :=
  ⟨h'.lock.trans h.lock, fun t => (h'.event t).trans (h.event t)⟩

theorem event_setTsk_eq {s : SchedState} {p : TaskId} {t : Tsk}
    (h : t.event = (s.tsk p).event) (q : TaskId) :
    ((s.setTsk p t).tsk q).event = (s.tsk q).event := by
  by_cases hq : q = p
  · rw [hq, setTsk_tsk_self, h]
  · rw [setTsk_tsk_of_ne _ _ hq]

theorem framed_setTsk {s : SchedState} {p : TaskId} {t : Tsk} (h : t.event = (s.tsk p).event) :
    Framed s (s.setTsk p t) :=
  ⟨rfl, event_setTsk_eq h⟩

theorem framed_cacheTask (s : SchedState) (p : TaskId) : Framed s (cacheTask s p) := by
  unfold cacheTask
  split
  · split <;> exact ⟨rfl, fun _ => rfl⟩
  · exact ⟨rfl, fun _ => rfl⟩

theorem framed_requestSched (s : SchedState) (p : TaskId) : Framed s (requestSched s p) := by
  unfold requestSched
  split <;> exact ⟨rfl, fun _ => rfl⟩

theorem framed_addTaskToWaitQ (s : SchedState) (p : TaskId) (now : Int) :
    Framed s (addTaskToWaitQ s p now) := by
  unfold addTaskToWaitQ
  split
  · exact ⟨rfl, event_setTsk_eq rfl⟩
  · exact .refl s

theorem framed_wakeupTask (s : SchedState) (p : TaskId) (now : Int) :
    Framed s (wakeupTask s p now) := by
  have htail (u : SchedState) : Framed u ((cacheTask (requestSched u p) p).setTsk p
      { (cacheTask (requestSched u p) p).tsk p with
        stime := now - ((cacheTask (requestSched u p) p).tsk p).stime }) :=
    ((framed_requestSched u p).trans (framed_cacheTask _ p)).trans (framed_setTsk rfl)
  unfold wakeupTask
  split
  · exact htail s
  · refine Framed.trans ⟨?_, ?_⟩ (htail _)
    · rfl
    · exact event_setTsk_eq (s := s) rfl

theorem framed_wakeIoTask (s : SchedState) (fd : Fin maxFds) (now : Int) :
    Framed s (wakeIoTask s fd now) := by
  unfold wakeIoTask
  generalize s.hd (.io fd) = l
  induction l generalizing s with
  | nil => exact .refl s
  | cons p l ih =>
      have hdel : Framed s (listDel s p) := ⟨rfl, fun _ => rfl⟩
      exact (hdel.trans (framed_wakeupTask _ p now)).trans (ih _)

theorem framed_wakeupNewTask (s : SchedState) (p : TaskId) (now : Int) :
    Framed s (wakeupNewTask s p now) := by
  have hqueue (u : SchedState) : Framed u (taskFindRightRQ u p) := ⟨rfl, event_setTsk_eq rfl⟩
  exact (((framed_requestSched s p).trans (hqueue _)).trans (framed_cacheTask _ p)).trans
    (framed_setTsk rfl)

/-- A new task starts with no event; the others keep theirs. -/
theorem framed_spawnTask (s : SchedState) (k : Fin maxPrio) (tskOk stkOk : Bool) (now : Int) :
    (spawnTask s k true tskOk stkOk now).1.lock = s.lock ∧
      ∀ t, t ≤ s.taskid →
        ((spawnTask s k true tskOk stkOk now).1.tsk t).event = (s.tsk t).event := by
  cases tskOk with
  | false => exact ⟨rfl, fun _ _ => rfl⟩
  | true =>
      cases stkOk with
      | false => exact ⟨rfl, fun _ _ => rfl⟩
      | true =>
          have hframed := framed_wakeupNewTask
            { ({ s with taskid := s.taskid + 1, live := s.live ++ [s.taskid + 1] } : SchedState).setTsk
                (s.taskid + 1) { prio := k } with taskCount := s.taskCount + 1 } (s.taskid + 1) now
          refine ⟨hframed.lock, fun t ht => (hframed.event t).trans ?_⟩
          have hne : t ≠ s.taskid + 1 := Nat.ne_of_lt (Nat.lt_succ_of_le ht)
          exact congrArg Tsk.event (Function.update_of_ne hne ..)

theorem framed_getNextEligibleTaskToRun (s : SchedState) :
    Framed s (getNextEligibleTaskToRun s).1 := by
  unfold getNextEligibleTaskToRun nextTaskReadyToRun
  split
  · exact .refl s
  · split
    · dsimp only
      split <;> exact ⟨rfl, fun _ => rfl⟩
    · split
      · exact .refl s
      · dsimp only
        split <;> exact ⟨rfl, fun _ => rfl⟩

theorem framed_calculateTimeSlice {s s' : SchedState} {p : TaskId}
    (h : calculateTimeSlice s p = some s') : Framed s s' := by
  rcases calculateTimeSlice_eq h with ⟨rfl, -⟩ | ⟨t, rfl, hevent, -⟩
  · exact .refl s'
  · exact framed_setTsk hevent

theorem framed_updateStats (s : SchedState) (now : Int) : Framed s (updateStats s now) :=
  have husage : Framed s (calcCurrentCpuUsage s) := framed_setTsk rfl
  husage.trans (framed_setTsk rfl)

theorem framed_contextSwitch (s : SchedState) (next : TaskId) (now : Int) :
    Framed s (contextSwitch s next now) :=
  ⟨rfl, event_setTsk_eq (s := s) rfl⟩

theorem framed_schedule {s s' : SchedState} {now : Int} (h : schedule s now = some s') :
    Framed s s' := by
  obtain ⟨first, e, hnext, hcases⟩ := schedule_eq_some h
  have hfirst : Framed s { first with schedNeed := false } := by
    have hframed := framed_getNextEligibleTaskToRun s
    rw [hnext] at hframed
    exact ⟨hframed.lock, hframed.event⟩
  rcases hcases with ⟨-, rfl⟩ | ⟨-, mid, hslice, rfl⟩
  · exact hfirst.trans (framed_setTsk rfl)
  · have hmid := (hfirst.trans (framed_updateStats _ now)).trans (framed_calculateTimeSlice hslice)
    have hstate : Framed mid
        (mid.setTsk mid.current { mid.tsk mid.current with state := .interruptible }) :=
      framed_setTsk rfl
    exact (hmid.trans hstate).trans (framed_contextSwitch _ e now)

theorem framed_accountTaskTimeStats (s : SchedState) (now : Int) :
    Framed s (accountTaskTimeStats s now) := by
  unfold accountTaskTimeStats
  dsimp only
  split <;> exact ⟨rfl, event_setTsk_eq (s := s) rfl⟩

/-! ## One step -/

/-- Operations of interrupts and of the scheduler itself, which do not depend on
where the current task is. -/
def Op.isInterrupt : Op → Bool
  | .wakeup .. | .wakeIo .. | .tick .. | .schedule .. => true
  | _ => false

theorem not_waits_of_isInterrupt {s : SchedState} {op : Op} (h : op.isInterrupt = true) :
    ¬ Waits s op := by
  cases op <;> first | exact id | cases h

/-- Operations on the lock `l`. -/
def Op.usesLock (l : LockId) : Op → Bool
  | .lock l' | .unlock l' _ => l' = l
  | _ => false

def Op.isPost : Op → Bool
  | .postEvent .. => true
  | _ => false

theorem event_unlock {s s' : SchedState} {l : LockId} {now : Int} (h : unlock s l now = some s')
    (t : TaskId) : (s'.tsk t).event = (s.tsk t).event := by
  rcases unlock_eq_some h with ⟨-, rfl⟩ | ⟨-, ⟨-, rfl⟩ | ⟨p, rest, -, rfl⟩⟩
  · rfl
  · rfl
  · exact (framed_wakeupTask (s.dropLock l) p now).event t

theorem lock_unlock_of_ne {s s' : SchedState} {l l' : LockId} {now : Int}
    (h : unlock s l' now = some s') (hne : l ≠ l') : s'.lock l = s.lock l := by
  have hdrop : (s.dropLock l').lock l = s.lock l := Function.update_of_ne hne ..
  rcases unlock_eq_some h with ⟨-, rfl⟩ | ⟨-, ⟨-, rfl⟩ | ⟨p, rest, -, rfl⟩⟩
  · rfl
  · exact hdrop
  · rw [(framed_wakeupTask (s.dropLock l') p now).lock]
    exact hdrop

/-- Steps that write neither the locks nor the event words of tasks that exist. -/
theorem frame_of_schedStep {s s' : SchedState} {op : Op} (h : schedStep s op = some s') :
    (∃ l, op.usesLock l) ∨ op.isPost ∨
      (s'.lock = s.lock ∧ ∀ t, t ≤ s.taskid → (s'.tsk t).event = (s.tsk t).event) := by
  have hframed {u : SchedState} (hu : Framed s u) :
      u.lock = s.lock ∧ ∀ t, t ≤ s.taskid → (u.tsk t).event = (s.tsk t).event :=
    ⟨hu.lock, fun t _ => hu.event t⟩
  cases op with
  | spawn prio tskOk stkOk now =>
      obtain ⟨_, -, rfl⟩ := schedStep_spawn h
      exact .inr (.inr (framed_spawnTask ..))
  | addToWaitQ now =>
      obtain ⟨-, rfl⟩ := schedStep_addToWaitQ h
      exact .inr (.inr (hframed (framed_addTaskToWaitQ ..)))
  | waitOnFd fd =>
      obtain ⟨-, _, -, rfl⟩ := schedStep_waitOnFd h
      exact .inr (.inr (hframed ⟨rfl, event_setTsk_eq (s := s) rfl⟩))
  | lock l => exact .inl ⟨l, by simp [Op.usesLock]⟩
  | unlock l now => exact .inl ⟨l, by simp [Op.usesLock]⟩
  | wakeup p now =>
      obtain ⟨-, -, rfl⟩ := schedStep_wakeup h
      exact .inr (.inr (hframed (framed_wakeupTask ..)))
  | wakeIo fd now =>
      obtain ⟨_, -, rfl⟩ := schedStep_wakeIo h
      exact .inr (.inr (hframed (framed_wakeIoTask ..)))
  | postEvent tid event now => exact .inr (.inl rfl)
  | tick now =>
      cases h
      exact .inr (.inr (hframed (framed_accountTaskTimeStats s now)))
  | schedule now => exact .inr (.inr (hframed (framed_schedule h)))

theorem lock_of_schedStep {s s' : SchedState} {op : Op} {l : LockId} (h : schedStep s op = some s')
    (hop : op.usesLock l = false) : s'.lock l = s.lock l := by
  rcases frame_of_schedStep h with ⟨l', huses⟩ | hpost | ⟨hlock, -⟩
  · cases op with
    | lock l₀ =>
        have hne : l ≠ l₀ := fun heq => by simp [Op.usesLock, heq] at hop
        obtain ⟨-, rfl⟩ := schedStep_lock h
        unfold lockPass
        split
        · rfl
        · exact Function.update_of_ne hne ..
    | unlock l₀ now =>
        exact lock_unlock_of_ne h fun heq => by simp [Op.usesLock, heq] at hop
    | _ => cases huses
  · cases op with
    | postEvent tid event now =>
        cases h
        unfold Sched.postEvent
        split
        · rfl
        · rw [(framed_wakeupTask ..).lock]
          rfl
    | _ => cases hpost
  · rw [hlock]

theorem event_of_schedStep {s s' : SchedState} {op : Op} (h : schedStep s op = some s')
    (hop : op.isPost = false) {t : TaskId} (ht : t ≤ s.taskid) :
    (s'.tsk t).event = (s.tsk t).event := by
  rcases frame_of_schedStep h with ⟨l', huses⟩ | hpost | ⟨-, hevent⟩
  · cases op with
    | lock l₀ =>
        obtain ⟨-, rfl⟩ := schedStep_lock h
        unfold lockPass
        split
        · exact event_setTsk_eq (s := s) (p := s.current)
            (t := { s.tsk s.current with onrq := false }) rfl t
        · rfl
    | unlock l₀ now => exact event_unlock h t
    | _ => cases huses
  · rw [hop] at hpost
    cases hpost
  · exact hevent t ht

/-- `post_event` adds its bits to the word of the task that it finds. -/
theorem event_postEvent {s : SchedState} {tid p : TaskId} (event : BitVec 32) (now : Int)
    (hfind : findTask s tid = some p) (t : TaskId) :
    ((postEvent s tid event now).tsk t).event =
      if t = p then (s.tsk t).event ||| event else (s.tsk t).event := by
  unfold postEvent
  rw [hfind]
  dsimp only
  rw [(framed_wakeupTask ..).event]
  split
  · rename_i heq
    rw [heq, setTsk_tsk_self]
  · rename_i hne
    rw [setTsk_tsk_of_ne _ _ hne]

/-! ## The set of tasks -/

/-- No task is created or ended. -/
structure SameTasks (s s' : SchedState) : Prop where
  live : s'.live = s.live
  taskid : s.taskid ≤ s'.taskid

theorem SameTasks.trans {s mid s' : SchedState} (h : SameTasks s mid) (h' : SameTasks mid s') :
    SameTasks s s' :=
  ⟨h'.live.trans h.live, h.taskid.trans h'.taskid⟩

theorem Quiet.sameTasks {s s' : SchedState} (h : Quiet s s') : SameTasks s s' := ⟨h.live, h.taskid⟩

theorem Moved.sameTasks {p : TaskId} {hd : Head} {s s' : SchedState} (h : Moved p hd s s') :
    SameTasks s s' :=
  ⟨h.live, h.taskid⟩

theorem Woken.sameTasks {p : TaskId} {s s' : SchedState} (h : Woken p s s') : SameTasks s s' := by
  rcases h.change with ⟨-, hquiet, -⟩ | ⟨-, hmoved, -⟩
  · exact hquiet.sameTasks
  · exact hmoved.sameTasks

theorem Wakes.sameTasks {s s' : SchedState} (h : Wakes s s') : SameTasks s s' := by
  refine h.preserves (J := SameTasks s) (fun _ _ _ _ _ hwoken hs => ?_) ⟨rfl, le_rfl⟩
  exact hs.trans hwoken.sameTasks

theorem sameTasks_unlock {s s' : SchedState} {l : LockId} {now : Int}
    (h : unlock s l now = some s') : SameTasks s s' := by
  have hdrop := (untouched_dropLock s l).toQuiet.sameTasks
  rcases unlock_eq_some h with ⟨-, rfl⟩ | ⟨-, ⟨-, rfl⟩ | ⟨p, rest, -, rfl⟩⟩
  · exact ⟨rfl, le_rfl⟩
  · exact hdrop
  · exact hdrop.trans (woken_wakeupTask _ p now).sameTasks

theorem sameTasks_postEvent (s : SchedState) (tid : TaskId) (event : BitVec 32) (now : Int) :
    SameTasks s (postEvent s tid event now) := by
  rcases postEvent_cases s tid event now with ⟨-, heq⟩ | ⟨p, -, heq⟩
  · rw [heq]
    exact ⟨rfl, le_rfl⟩
  · rw [heq]
    exact (untouched_addEvent s p event).toQuiet.sameTasks.trans (woken_wakeupTask _ p now).sameTasks

def Op.isSpawn : Op → Bool
  | .spawn .. => true
  | _ => false

/-- Only `spawn_task` creates a task. -/
theorem sameTasks_of_schedStep {s s' : SchedState} {op : Op} (hl : ListsOk s)
    (h : schedStep s op = some s') (hop : op.isSpawn = false) : SameTasks s s' := by
  cases op with
  | spawn prio tskOk stkOk now => cases hop
  | addToWaitQ now =>
      obtain ⟨-, rfl⟩ := schedStep_addToWaitQ h
      rcases addTaskToWaitQ_cases s now with ⟨-, heq⟩ | ⟨-, hw, -⟩
      · rw [heq]
        exact ⟨rfl, le_rfl⟩
      · exact hw.moved.sameTasks
  | waitOnFd fd =>
      obtain ⟨-, _, -, rfl⟩ := schedStep_waitOnFd h
      exact ⟨rfl, le_rfl⟩
  | lock l =>
      obtain ⟨-, rfl⟩ := schedStep_lock h
      unfold lockPass
      split <;> exact ⟨rfl, le_rfl⟩
  | unlock l now => exact sameTasks_unlock h
  | wakeup p now =>
      obtain ⟨-, -, rfl⟩ := schedStep_wakeup h
      exact (woken_wakeupTask s p now).sameTasks
  | wakeIo fd now =>
      obtain ⟨_, -, rfl⟩ := schedStep_wakeIo h
      exact (wakes_wakeIoTask hl _ now).sameTasks
  | postEvent tid event now =>
      cases h
      exact sameTasks_postEvent s tid event now
  | tick now =>
      cases h
      exact (untouched_accountTaskTimeStats s now).toQuiet.sameTasks
  | schedule now =>
      obtain ⟨e, he⟩ := switched_schedule hl h
      rcases he.change with hquiet | ⟨-, hmoved⟩
      · exact hquiet.sameTasks
      · exact hmoved.sameTasks

end Sched
end TmULThreads
