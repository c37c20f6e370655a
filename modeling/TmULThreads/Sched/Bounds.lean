import TmULThreads.Sched.Exit

/-!
# Indexes of the run queues and of the IO wait lists

`rq.hd` is indexed by the `prio` of a task, and `io_wait_task` by a descriptor.  The calls of
the library take both as they come: `spawn_task` stores the priority of the attributes, which is
100 unless it is set, and links the new task with it; `tm_read` and `tm_mq_receive` queue the
task on whatever descriptor they were given.  The only test is that of `setup_io_interrupt`,
and `tm_socket` does not look at its result.

Every access is noted in a log.  The field `prio` is kept as the `int` that it is, beside the
scheduler; `Faithful` says that it agrees with the scheduler as long as nothing is out of
bounds, which is why the accesses of later wake-ups are in bounds.  `inBounds_iff` states that
the arguments of the calls are the only source of other accesses.
-/

namespace TmULThreads
namespace Sched

/-- An access to `rq.hd` or to `io_wait_task`. -/
inductive Access where
  | rq (i : Int)
  | io (i : Int)
  deriving DecidableEq, Repr

def Access.InBounds : Access → Prop
  | .rq i => 0 ≤ i ∧ i < maxPrio
  | .io i => 0 ≤ i ∧ i < maxFds

instance : ∀ a : Access, Decidable a.InBounds
  | .rq _ => inferInstanceAs (Decidable (_ ∧ _))
  | .io _ => inferInstanceAs (Decidable (_ ∧ _))

/-- What `read` returns. -/
inductive ReadRet where
  | bytes
  /-- `-1` with `EINTR`. -/
  | intr
  /-- `-1` with any other error. -/
  | fails
  deriving DecidableEq, Repr

/-- A call of the library, or an interrupt. -/
inductive Call where
  /-- `spawn_task`, or `task_create`; without a priority, the attributes are those of
  `thread_attr_init`. -/
  | spawn (prio : Option Int) (tskOk stkOk : Bool) (now : Int)
  /-- `tm_socket`, with the descriptor that `socket` returns.  `armed` says whether the calls
  of `fcntl` succeed. -/
  | socket (fd : Int) (armed : Bool)
  /-- `tm_mq_open`, with the descriptor that `mq_open` returns. -/
  | mqOpen (mqid : Int)
  /-- A turn of `tm_read`. -/
  | read (fd : Int) (ret : ReadRet)
  /-- A turn of `tm_mq_receive`. -/
  | mqReceive (mqid : Int) (ok : Bool)
  /-- A `SIGIO` for a descriptor. -/
  | sigio (fd : Int) (now : Int)
  /-- A `SIGIO` for a message queue. -/
  | mqSigio (mqid : Int) (now : Int)
  | waitQ (now : Int)
  | lock (l : LockId)
  | unlock (l : LockId) (now : Int)
  | wakeup (p : TaskId) (now : Int)
  | post (tid : TaskId) (event : BitVec 32) (now : Int)
  | tick (now : Int)
  | schedule (now : Int)
  | exit (e : Exit)
  deriving DecidableEq, Repr

structure BoundsSys where
  sched : SchedState
  /-- The field `prio` of the tasks. -/
  prio : TaskId → Int
  /-- The descriptors that `setup_io_interrupt` has set up. -/
  armed : List Int
  /-- The queues that `setup_mq_notify` has been called for. -/
  notified : List Int
  log : List Access

/-! ## Accesses -/

/-- The `prio` that `thread_attr_init` sets. -/
def threadAttrInitPrio : Int := 100

def attrPrio (prio : Option Int) : Int := prio.getD threadAttrInitPrio

/-- A loop over `rq.hd`; one that ends early makes the first of these accesses. -/
def rqScan : List Access := (List.range maxPrio).map fun i => .rq i

/-- A loop over `io_wait_task`. -/
def ioScan : List Access := (List.range maxFds).map fun i => .io i

/-- The access of `wakeup_task`. -/
def wakeupUses (s : BoundsSys) (p : TaskId) : List Access :=
  if (s.sched.tsk p).onrq then [] else [.rq (s.prio p)]

/-- The accesses of `wake_io_task`. -/
def wakeIoUses (s : BoundsSys) (fd : Int) : List Access :=
  .io fd :: (if h : 0 ≤ fd ∧ fd < maxFds then
    (s.sched.hd (.io ⟨fd.toNat, by omega⟩)).flatMap (wakeupUses s) else [])

/-- The accesses of `next_task_ready_to_run`, if `schedule` calls it. -/
def scheduleUses (s : BoundsSys) : List Access :=
  if s.sched.nrp = 0 then []
  else
    match s.sched.nxtImmTask with
    | some _ => []
    | none =>
        rqScan ++ (match firstReady s.sched with
          | none => []
          | some p => if p ≠ s.sched.current then [.rq (s.prio p)] else [])

def uses (s : BoundsSys) : Call → List Access
  | .spawn prio tskOk stkOk _ => if tskOk ∧ stkOk then [.rq (attrPrio prio)] else []
  | .socket _ _ | .mqOpen _ => []
  | .read fd ret => if ret = .fails then [.io fd] else []
  | .mqReceive mqid ok => if ok then [] else [.io mqid]
  | .sigio fd _ => wakeIoUses s fd
  | .mqSigio mqid _ => wakeIoUses s mqid
  | .waitQ _ | .lock _ | .tick _ => []
  | .unlock l _ =>
      if (s.sched.lock l).owner = some s.sched.current then
        match s.sched.hd (.lock l) with
        | [] => []
        | p :: _ => wakeupUses s p
      else []
  | .wakeup p _ => wakeupUses s p
  | .post tid _ _ =>
      ioScan ++ rqScan ++ (match findTask s.sched tid with
        | none => []
        | some p => wakeupUses s p)
  | .schedule _ => scheduleUses s
  | .exit (.kill _) => ioScan ++ rqScan
  | .exit .ret => []

/-! ## Steps -/

/-- What the scheduler does for a call. -/
def Call.op : Call → Option ExitOp
  | .spawn prio tskOk stkOk now =>
      -- the priority does not matter when there is no task
      some (.op (.spawn (if tskOk ∧ stkOk then attrPrio prio else 0) tskOk stkOk now))
  | .socket _ _ | .mqOpen _ => none
  | .read fd ret => if ret = .fails then some (.op (.waitOnFd fd.toNat)) else none
  | .mqReceive mqid ok => if ok then none else some (.op (.waitOnFd mqid.toNat))
  | .sigio fd now => some (.op (.wakeIo fd.toNat now))
  | .mqSigio mqid now => some (.op (.wakeIo mqid.toNat now))
  | .waitQ now => some (.op (.addToWaitQ now))
  | .lock l => some (.op (.lock l))
  | .unlock l now => some (.op (.unlock l now))
  | .wakeup p now => some (.op (.wakeup p now))
  | .post tid event now => some (.op (.postEvent tid event now))
  | .tick now => some (.op (.tick now))
  | .schedule now => some (.op (.schedule now))
  | .exit e => some (.exit e)

/-- The writes to `prio`: by `spawn_task`, by `calculate_time_slice`, and by the `memset` of
`task_exit`. -/
def writtenPrio (s : BoundsSys) : Call → TaskId → Int
  | .spawn prio tskOk stkOk _ =>
      if tskOk ∧ stkOk then Function.update s.prio (s.sched.taskid + 1) (attrPrio prio) else s.prio
  | .schedule _ =>
      match (getNextEligibleTaskToRun s.sched).2 with
      | none => s.prio
      | some e =>
          if e ≠ s.sched.idle ∧ e ≠ s.sched.current ∧ isDemoted s.sched e then
            Function.update s.prio e 19
          else s.prio
  | .exit e =>
      match ended s.sched e with
      | none => s.prio
      | some p => Function.update s.prio p 0
  | _ => s.prio

/-- `setup_io_interrupt` refuses a descriptor that is too large. -/
def armedAfter (s : BoundsSys) : Call → List Int
  | .socket fd armed => if fd ≠ -1 ∧ fd < maxFds ∧ armed then fd :: s.armed else s.armed
  | _ => s.armed

def notifiedAfter (s : BoundsSys) : Call → List Int
  | .mqOpen mqid => if mqid ≠ -1 then mqid :: s.notified else s.notified
  | _ => s.notified

/-- The system returns descriptors, or `-1`, and signals only what has been set up. -/
def Call.Possible (s : BoundsSys) : Call → Prop
  | .socket fd _ => -1 ≤ fd
  | .sigio fd _ => fd ∈ s.armed
  | .mqSigio mqid _ => mqid ∈ s.notified
  | _ => True

instance (s : BoundsSys) : ∀ c : Call, Decidable (c.Possible s)
  | .socket _ _ => inferInstanceAs (Decidable (_ ≤ _))
  | .sigio fd _ => inferInstanceAs (Decidable (fd ∈ s.armed))
  | .mqSigio mqid _ => inferInstanceAs (Decidable (mqid ∈ s.notified))
  | .spawn .. | .mqOpen _ | .read .. | .mqReceive .. | .waitQ _ | .lock _ | .unlock .. | .wakeup ..
  | .post .. | .tick _ | .schedule _ | .exit _ => isTrue trivial

/-- All accesses so far were in bounds. -/
def BoundsSys.Safe (s : BoundsSys) : Prop := ∀ a ∈ s.log, a.InBounds

instance (s : BoundsSys) : Decidable s.Safe := inferInstanceAs (Decidable (∀ a ∈ s.log, a.InBounds))

/-- Nothing is known after an access out of bounds. -/
def boundsStep (s : BoundsSys) (c : Call) : Option BoundsSys :=
  if s.Safe ∧ c.Possible s ∧ s.sched.current ∈ s.sched.live then
    let s' := { s with armed := armedAfter s c, notified := notifiedAfter s c
                       log := s.log ++ uses s c }
    if s'.Safe then
      match c.op with
      | none => some s'
      | some op => (exitStep s.sched op).map fun sched =>
          { s' with sched := sched, prio := writtenPrio s c }
    else some s'
  else none

/-- The state after `tmlib_init`; the standard input has been set up. -/
def boundsInit (now : Int) : BoundsSys where
  sched := tmlibInit now
  prio t := ((tmlibInit now).tsk t).prio
  armed := [0]
  notified := []
  log := rqScan ++ ioScan ++ [.rq 19, .rq 1]

/-- The arguments of the call are indexes, where it uses them as such. -/
def Call.InRange : Call → Prop
  | .spawn prio tskOk stkOk _ => tskOk = true → stkOk = true → (Access.rq (attrPrio prio)).InBounds
  | .read fd ret => ret = .fails → (Access.io fd).InBounds
  | .mqReceive mqid ok => ok = false → (Access.io mqid).InBounds
  | .mqSigio mqid _ => (Access.io mqid).InBounds
  | _ => True

instance : ∀ c : Call, Decidable c.InRange
  | .spawn .. => inferInstanceAs (Decidable (_ → _ → _))
  | .read .. => inferInstanceAs (Decidable (_ → _))
  | .mqReceive .. => inferInstanceAs (Decidable (_ → _))
  | .mqSigio mqid _ => inferInstanceAs (Decidable (Access.io mqid).InBounds)
  | .socket .. | .mqOpen _ | .sigio .. | .waitQ _ | .lock _ | .unlock .. | .wakeup .. | .post ..
  | .tick _ | .schedule _ | .exit _ => isTrue trivial

/-! ## Stored priorities -/

/-- The priorities are those of the scheduler, and the descriptors that have been set up are
small enough. -/
structure Faithful (s : BoundsSys) : Prop where
  lists : ListsOk s.sched
  prio : ∀ t, s.prio t = (s.sched.tsk t).prio
  armed : ∀ fd ∈ s.armed, (Access.io fd).InBounds

theorem inBounds_rqScan : ∀ a ∈ rqScan, a.InBounds := by decide

theorem inBounds_ioScan : ∀ a ∈ ioScan, a.InBounds := by decide

theorem Faithful.rq_inBounds {s : BoundsSys} (h : Faithful s) (t : TaskId) :
    (Access.rq (s.prio t)).InBounds := by
  have hlt := (s.sched.tsk t).prio.isLt
  rw [h.prio t]
  exact ⟨Int.natCast_nonneg _, by omega⟩

theorem Faithful.wakeupUses {s : BoundsSys} (h : Faithful s) (p : TaskId) :
    ∀ a ∈ wakeupUses s p, a.InBounds := by
  unfold Sched.wakeupUses
  split
  · exact fun a ha => absurd ha List.not_mem_nil
  · intro a ha
    rw [List.mem_singleton.mp ha]
    exact h.rq_inBounds p

theorem Faithful.wakeIoUses_iff {s : BoundsSys} (h : Faithful s) (fd : Int) :
    (∀ a ∈ wakeIoUses s fd, a.InBounds) ↔ (Access.io fd).InBounds := by
  unfold wakeIoUses
  rw [List.forall_mem_cons]
  refine and_iff_left fun a ha => ?_
  split at ha
  · obtain ⟨p, -, hp⟩ := List.mem_flatMap.mp ha
    exact h.wakeupUses p a hp
  · exact absurd ha List.not_mem_nil

theorem Faithful.scheduleUses {s : BoundsSys} (h : Faithful s) :
    ∀ a ∈ scheduleUses s, a.InBounds := by
  have hnone : ∀ a ∈ ([] : List Access), a.InBounds := fun a ha => absurd ha List.not_mem_nil
  unfold Sched.scheduleUses
  split
  · exact hnone
  · split
    · exact hnone
    · rw [List.forall_mem_append]
      refine ⟨inBounds_rqScan, ?_⟩
      split
      · exact hnone
      · split
        · intro a ha
          rw [List.mem_singleton.mp ha]
          exact h.rq_inBounds _
        · exact hnone

/-- The accesses of a call are in bounds exactly if its arguments are. -/
theorem Faithful.uses_iff {s : BoundsSys} (h : Faithful s) {c : Call} (hc : c.Possible s) :
    (∀ a ∈ uses s c, a.InBounds) ↔ c.InRange := by
  have hnone : ∀ a ∈ ([] : List Access), a.InBounds := fun a ha => absurd ha List.not_mem_nil
  cases c with
  | spawn prio tskOk stkOk now =>
      cases tskOk <;> cases stkOk <;> simp [uses, Call.InRange]
  | read fd ret =>
      cases ret <;> simp [uses, Call.InRange]
  | mqReceive mqid ok =>
      cases ok <;> simp [uses, Call.InRange]
  | sigio fd now => exact iff_of_true ((h.wakeIoUses_iff fd).mpr (h.armed fd hc)) trivial
  | mqSigio mqid now => exact h.wakeIoUses_iff mqid
  | unlock l now =>
      refine iff_of_true ?_ trivial
      simp only [uses]
      split
      · split
        · exact hnone
        · exact h.wakeupUses _
      · exact hnone
  | wakeup p now => exact iff_of_true (h.wakeupUses p) trivial
  | post tid event now =>
      refine iff_of_true ?_ trivial
      simp only [uses, List.forall_mem_append]
      refine ⟨⟨inBounds_ioScan, inBounds_rqScan⟩, ?_⟩
      split
      · exact hnone
      · exact h.wakeupUses _
  | schedule now => exact iff_of_true h.scheduleUses trivial
  | exit e =>
      refine iff_of_true ?_ trivial
      cases e with
      | kill tid =>
          simp only [uses, List.forall_mem_append]
          exact ⟨inBounds_ioScan, inBounds_rqScan⟩
      | ret => exact hnone
  | socket | mqOpen | waitQ | lock | tick => exact iff_of_true hnone trivial

/-! ## Writes -/

/-- Electing a task writes no other priority. -/
theorem prio_schedule_of_ne {s s' : SchedState} {now : Int} {e t : TaskId} (hl : ListsOk s)
    (h : schedule s now = some s') (he : (getNextEligibleTaskToRun s).2 = some e) (hne : t ≠ e) :
    (s'.tsk t).prio = (s.tsk t).prio := by
  obtain ⟨first, e', hnext, hcases⟩ := schedule_eq_some h
  have hfirst := elected_getNextEligibleTaskToRun hl hnext
  obtain rfl : e' = e := by
    rw [hnext] at he
    exact Option.some.inj he
  have hstart : (first.tsk t).prio = (s.tsk t).prio := congrArg Tsk.prio (congrFun hfirst.tsk t)
  rcases hcases with ⟨-, rfl⟩ | ⟨-, mid, hslice, rfl⟩
  · rw [(untouched_calcCurrentCpuUsage _).prio]
    exact hstart
  · have hmid : (mid.tsk t).prio = (s.tsk t).prio := by
      have hstats := (untouched_updateStats { first with schedNeed := false } now).prio t
      rcases calculateTimeSlice_eq hslice with ⟨rfl, -⟩ | ⟨u, rfl, -⟩
      · exact hstats.trans hstart
      · rw [setTsk_tsk_of_ne _ _ hne]
        exact hstats.trans hstart
    have hleft : Untouched mid
        (mid.setTsk mid.current { mid.tsk mid.current with state := .interruptible }) :=
      untouched_setTsk rfl rfl
    rw [(quiet_contextSwitch _ e' now).2, hleft.prio]
    exact hmid

theorem prio_wakeIoTask (s : SchedState) (fd : Fin maxFds) (now : Int) (t : TaskId) :
    ((wakeIoTask s fd now).tsk t).prio = (s.tsk t).prio := by
  unfold wakeIoTask
  generalize s.hd (.io fd) = l
  induction l generalizing s with
  | nil => rfl
  | cons p l ih =>
      rw [List.foldl_cons, ih, (woken_wakeupTask (listDel s p) p now).prio]
      rfl

/-- The operations other than a spawn or a switch write no priority. -/
theorem prio_of_schedStep {s s' : SchedState} {op : Op} (hstep : schedStep s op = some s')
    (hspawn : ∀ prio tskOk stkOk now, op ≠ .spawn prio tskOk stkOk now)
    (hsched : ∀ now, op ≠ .schedule now) (t : TaskId) : (s'.tsk t).prio = (s.tsk t).prio := by
  cases op with
  | spawn prio tskOk stkOk now => exact absurd rfl (hspawn prio tskOk stkOk now)
  | schedule now => exact absurd rfl (hsched now)
  | addToWaitQ now =>
      obtain ⟨-, rfl⟩ := schedStep_addToWaitQ hstep
      rcases addTaskToWaitQ_cases s now with ⟨-, heq⟩ | ⟨-, hw, -⟩
      · rw [heq]
      · exact hw.prio t
  | waitOnFd fd =>
      obtain ⟨-, _, -, rfl⟩ := schedStep_waitOnFd hstep
      exact (waited_queueOnFd s _).prio t
  | lock l =>
      obtain ⟨-, rfl⟩ := schedStep_lock hstep
      by_cases hfree : (s.lock l).lock = 0
      · exact (untouched_lockPass hfree).prio t
      · exact (waited_lockPass hfree).prio t
  | unlock l now =>
      rcases unlock_eq_some hstep with ⟨-, rfl⟩ | ⟨-, ⟨-, rfl⟩ | ⟨p, rest, -, rfl⟩⟩
      · rfl
      · rfl
      · exact (woken_wakeupTask (s.dropLock l) p now).prio t
  | wakeup p now =>
      obtain ⟨-, -, rfl⟩ := schedStep_wakeup hstep
      exact (woken_wakeupTask s p now).prio t
  | wakeIo fd now =>
      obtain ⟨_, -, rfl⟩ := schedStep_wakeIo hstep
      exact prio_wakeIoTask s _ now t
  | postEvent tid event now =>
      cases hstep
      rcases postEvent_cases s tid event now with ⟨-, heq⟩ | ⟨p, -, heq⟩
      · rw [heq]
      · rw [heq, (woken_wakeupTask _ _ now).prio, (untouched_addEvent s p event).prio]
  | tick now =>
      cases hstep
      exact (untouched_accountTaskTimeStats s now).prio t

theorem Faithful.spawn {s : BoundsSys} (h : Faithful s) {prio : Option Int} {tskOk stkOk : Bool}
    {now : Int} {sched : SchedState}
    (hstep : schedStep s.sched
      (.spawn (if tskOk ∧ stkOk then attrPrio prio else 0) tskOk stkOk now) = some sched)
    (t : TaskId) : writtenPrio s (.spawn prio tskOk stkOk now) t = (sched.tsk t).prio := by
  cases tskOk with
  | false =>
      cases hstep
      exact h.prio t
  | true =>
      cases stkOk with
      | false =>
          cases hstep
          exact h.prio t
      | true =>
          simp only [schedStep, and_self, if_true] at hstep
          split at hstep
          · rename_i hrange
            cases hstep
            have hjoined := joined_spawnTask s.sched ⟨(attrPrio prio).toNat, by omega⟩ now
            simp only [writtenPrio, and_self, if_true]
            by_cases ht : t = s.sched.taskid + 1
            · subst ht
              rw [Function.update_self, hjoined.prio_self]
              exact (Int.toNat_of_nonneg hrange.1).symm
            · rw [Function.update_of_ne ht, hjoined.prio_other t ht]
              exact h.prio t
          · cases hstep

theorem Faithful.schedule {s : BoundsSys} (h : Faithful s) {now : Int} {sched : SchedState}
    (hstep : Sched.schedule s.sched now = some sched) (t : TaskId) :
    writtenPrio s (.schedule now) t = (sched.tsk t).prio := by
  obtain ⟨e, he⟩ := switched_schedule h.lists hstep
  simp only [writtenPrio, he.elected]
  by_cases hte : t = e
  · subst hte
    split
    · -- the task has been demoted, or was at the lowest priority already
      rw [Function.update_self]
      by_cases hkeeps : KeepsPrio s.sched t
      · rename_i hdemoted
        rw [he.prio hkeeps t]
        rcases hkeeps with hidle | hcur | hnot | hlow
        · exact absurd hidle hdemoted.1
        · exact absurd hcur hdemoted.2.1
        · rw [hnot] at hdemoted
          cases hdemoted.2.2
        · rw [hlow]
          rfl
      · rw [he.demoted hkeeps]
        rfl
    · rename_i hnot
      have hkeeps : KeepsPrio s.sched t := by
        by_contra hkeeps
        simp only [KeepsPrio, not_or, Bool.not_eq_false] at hkeeps
        exact hnot ⟨hkeeps.1, hkeeps.2.1, hkeeps.2.2.1⟩
      rw [he.prio hkeeps t]
      exact h.prio t
  · rw [prio_schedule_of_ne h.lists hstep he.elected hte]
    split
    · rw [Function.update_of_ne hte]
      exact h.prio t
    · exact h.prio t

theorem Faithful.exit {s : BoundsSys} (h : Faithful s) {e : Exit} {sched : SchedState}
    (hstep : exitStep s.sched (.exit e) = some sched) (t : TaskId) :
    writtenPrio s (.exit e) t = (sched.tsk t).prio := by
  cases hended : ended s.sched e with
  | none =>
      rw [exit_of_ended_none hstep hended]
      simp only [writtenPrio, hended]
      exact h.prio t
  | some p =>
      obtain ⟨-, -, rfl⟩ := ended_live h.lists hstep hended
      simp only [writtenPrio, hended]
      by_cases htp : t = p
      · subst htp
        have hself : (taskExit s.sched t).tsk t = { prio := 0, tslice := 0 } := setTsk_tsk_self ..
        rw [Function.update_self, hself]
        rfl
      · rw [Function.update_of_ne htp, taskExit_tsk_of_ne htp]
        exact h.prio t

/-- The writes to `prio` are those of the scheduler. -/
theorem Faithful.writtenPrio_eq {s : BoundsSys} (h : Faithful s) {c : Call} {op : ExitOp}
    {sched : SchedState} (hop : c.op = some op) (hstep : exitStep s.sched op = some sched)
    (t : TaskId) : writtenPrio s c t = (sched.tsk t).prio := by
  -- the calls that write no priority
  have hsame {o : Op} (ho : op = .op o) (hspawn : ∀ prio tskOk stkOk now, o ≠ .spawn prio tskOk stkOk now)
      (hsched : ∀ now, o ≠ .schedule now) : s.prio t = (sched.tsk t).prio := by
    subst ho
    rw [prio_of_schedStep (exitStep_op hstep).2 hspawn hsched]
    exact h.prio t
  cases c with
  | spawn prio tskOk stkOk now =>
      cases hop
      exact h.spawn (exitStep_op hstep).2 t
  | schedule now =>
      cases hop
      exact h.schedule (exitStep_op hstep).2 t
  | exit e =>
      cases hop
      exact h.exit hstep t
  | socket | mqOpen => cases hop
  | read fd ret =>
      simp only [Call.op] at hop
      split at hop
      · exact hsame (Option.some.inj hop).symm nofun nofun
      · cases hop
  | mqReceive mqid ok =>
      simp only [Call.op] at hop
      split at hop
      · cases hop
      · exact hsame (Option.some.inj hop).symm nofun nofun
  | sigio | mqSigio | waitQ | lock | unlock | wakeup | post | tick =>
      exact hsame (Option.some.inj hop).symm nofun nofun

theorem Faithful.armedAfter {s : BoundsSys} (h : Faithful s) {c : Call} (hc : c.Possible s) :
    ∀ fd ∈ armedAfter s c, (Access.io fd).InBounds := by
  cases c with
  | socket fd armed =>
      simp only [Sched.armedAfter]
      split
      · rename_i hnew
        rw [List.forall_mem_cons]
        have hle : -1 ≤ fd := hc
        exact ⟨⟨by omega, hnew.2.1⟩, h.armed⟩
      · exact h.armed
  | spawn | mqOpen | read | mqReceive | sigio | mqSigio | waitQ | lock | unlock | wakeup | post | tick
  | schedule | exit => exact h.armed

/-- A call keeps all accesses in bounds exactly if its arguments are in range. -/
theorem Faithful.step {s s' : BoundsSys} {c : Call} (h : Faithful s)
    (hstep : boundsStep s c = some s') : Faithful s' ∧ (s'.Safe ↔ s.Safe ∧ c.InRange) := by
  simp only [boundsStep] at hstep
  split at hstep
  swap
  · cases hstep
  rename_i hguard
  obtain ⟨hsafe, hpossible, -⟩ := hguard
  have hlog (sched : SchedState) (prio : TaskId → Int) :
      BoundsSys.Safe ⟨sched, prio, Sched.armedAfter s c, notifiedAfter s c, s.log ++ uses s c⟩ ↔
        s.Safe ∧ c.InRange := by
    rw [← h.uses_iff hpossible]
    exact List.forall_mem_append
  have hkept : Faithful ⟨s.sched, s.prio, Sched.armedAfter s c, notifiedAfter s c,
      s.log ++ uses s c⟩ := ⟨h.lists, h.prio, h.armedAfter hpossible⟩
  split at hstep
  · split at hstep
    · cases hstep
      exact ⟨hkept, hlog _ _⟩
    · rename_i op hop
      obtain ⟨sched, hexit, rfl⟩ := Option.map_eq_some_iff.mp hstep
      refine ⟨⟨h.lists.of_exitStep hexit, fun t => ?_, h.armedAfter hpossible⟩, hlog _ _⟩
      exact h.writtenPrio_eq hop hexit t
  · cases hstep
    exact ⟨hkept, hlog _ _⟩

theorem faithful_boundsInit (now : Int) : Faithful (boundsInit now) where
  lists := (regular_tmlibInit now).toQueued.listsOk
  prio _ := rfl
  armed := by
    show ∀ fd ∈ [0], (Access.io fd).InBounds
    decide

/-- Two tasks, one of which waits for a descriptor and is woken by a signal. -/
def rangeRun : List Call :=
  [.socket 3 true, .spawn (some 19) true true 0, .schedule 0, .schedule 0, .read 3 .fails,
    .schedule 0, .sigio 3 0, .post 4 1 0]

end Sched
end TmULThreads
