import TmULThreads.Sched.Election
import TmULThreads.Sched.Frame

/-!
# Waiting for a lock

Tasks that use one lock, over the scheduler, where a switch happens only inside
`schedule`.  A pass through the loop of `lock` and a call of `unlock` are then
single steps.  `LockPc` tells where a task is: outside of `lock`, in its loop after
it has queued up, or there after `unlock` has woken it and before it has tested the
lock again.

A wakeup hands nothing over: a newcomer can take the lock first, and the woken task
queues up again.  `not_stranded` shows that no waiter is forgotten all the same:
whenever the lock is free and tasks wait for it, one that `unlock` has woken is on
its way.
-/

namespace TmULThreads
namespace Sched

inductive LockPc where
  | out
  | queued
  | woken
  deriving DecidableEq, Repr

structure LockSys where
  sched : SchedState
  pc : TaskId → LockPc

/-- `unlock` with its return value; an error leaves everything as it is. -/
def unlockRet (s : SchedState) (l : LockId) (now : Int) : Option (SchedState × Int) :=
  if (s.lock l).owner ≠ some s.current then some (s, -1)
  else (unlock s l now).map fun s' => (s', 0)

theorem unlockRet_state (s : SchedState) (l : LockId) (now : Int) :
    (unlockRet s l now).map Prod.fst = unlock s l now := by
  unfold unlockRet
  split
  · rename_i howner
    rw [unlock, if_pos howner]
    rfl
  · simp [Option.map_map, Function.comp_def]

inductive LockOp where
  /-- The current task runs a pass of `lock`. -/
  | pass
  | unlock (now : Int)
  /-- What else the current task or an interrupt does. -/
  | other (op : Op)
  deriving DecidableEq, Repr

/-- The task that `unlock` wakes. -/
def wokenByUnlock (s : SchedState) (l : LockId) : Option TaskId :=
  if (s.lock l).owner ≠ some s.current then none else (s.hd (.lock l)).head?

def lockSysStep (l : LockId) (s : LockSys) : LockOp → Option LockSys
  | .pass => do
      let taken := decide ((s.sched.lock l).lock ≠ 0)
      let sched ← schedStep s.sched (.lock l)
      some ⟨sched, Function.update s.pc s.sched.current (if taken then .queued else .out)⟩
  | .unlock now =>
      if s.pc s.sched.current ≠ .out then none
      else do
        let (sched, _) ← unlockRet s.sched l now
        match wokenByUnlock s.sched l with
        | none => some { s with sched := sched }
        | some p => some ⟨sched, Function.update s.pc p .woken⟩
  | .other op =>
      if op.usesLock l ∨ (s.pc s.sched.current ≠ .out ∧ op.isInterrupt = false) then none
      else do
        let sched ← schedStep s.sched op
        some { s with sched := sched }

def lockSysInit (now : Int) : LockSys := ⟨tmlibInit now, fun _ => .out⟩

/-- A task that has queued up goes on only after it has been taken off the list of
the lock. -/
def Resumes (l : LockId) (s : LockSys) : LockOp → Prop
  | .pass => s.sched.current ∉ s.sched.hd (.lock l)
  | _ => True

instance (l : LockId) (s : LockSys) : ∀ op, Decidable (Resumes l s op)
  | .pass => inferInstanceAs (Decidable (s.sched.current ∉ s.sched.hd (.lock l)))
  | .unlock _ | .other _ => isTrue trivial

/-- A free lock that tasks wait for has a task on its way. -/
def NotStranded (l : LockId) (s : LockSys) : Prop :=
  (s.sched.lock l).lock = 0 → s.sched.hd (.lock l) ≠ [] →
    ∃ p, s.pc p = .woken ∧ (s.sched.tsk p).onrq = true ∧ InRq s.sched p

/-! ## The invariant -/

structure Attended (l : LockId) (s : LockSys) : Prop where
  regular : Regular s.sched
  queued : ∀ p ∈ s.sched.hd (.lock l), s.pc p = .queued
  woken : ∀ p, s.pc p = .woken → InRq s.sched p
  free : (s.sched.lock l).lock = 0 → s.sched.hd (.lock l) ≠ [] → ∃ p, s.pc p = .woken

theorem Attended.notStranded {l : LockId} {s : LockSys} (h : Attended l s) : NotStranded l s := by
  intro hlock hwq
  obtain ⟨p, hp⟩ := h.free hlock hwq
  have hrq := h.woken p hp
  exact ⟨p, hp, hrq.onrq h.regular.toQueued, hrq⟩

theorem Attended.of_other {l : LockId} {s : LockSys} {sched : SchedState} {op : Op}
    (h : Attended l s) (hstep : schedStep s.sched op = some sched) (huses : op.usesLock l = false)
    (hpc : s.pc s.sched.current = .out ∨ op.isInterrupt = true) :
    Attended l { s with sched := sched } := by
  have he := effect_of_step h.regular.toQueued hstep
  have hlock := lock_of_schedStep hstep huses
  have hmem {p : TaskId} (hp : p ∈ sched.hd (.lock l)) : p ∈ s.sched.hd (.lock l) := by
    rcases he.mem_of_not_rq rfl hp with hold | ⟨-, -, hop⟩
    · exact hold
    · rw [hop l rfl] at huses
      simp [Op.usesLock] at huses
  refine ⟨h.regular.of_effect he, fun p hp => h.queued p (hmem hp), fun p hp => ?_, ?_⟩
  · refine (h.woken p hp).of_effect he fun hwaits heq => ?_
    -- a task that waits of its own is not inside `lock`
    rcases hpc with hout | hint
    · rw [← heq, hp] at hout
      cases hout
    · exact not_waits_of_isInterrupt hint hwaits
  · intro hfree hwq
    obtain ⟨p, hp⟩ := List.exists_mem_of_ne_nil _ hwq
    exact h.free (hlock ▸ hfree) (List.ne_nil_of_mem (hmem hp))

/-- A pass of `lock` leaves the lock taken. -/
theorem Attended.of_pass {l : LockId} {s : LockSys} {sched : SchedState} (h : Attended l s)
    (hresumes : s.sched.current ∉ s.sched.hd (.lock l))
    (hstep : schedStep s.sched (.lock l) = some sched) :
    Attended l ⟨sched, Function.update s.pc s.sched.current
      (if decide ((s.sched.lock l).lock ≠ 0) then .queued else .out)⟩ := by
  have he := effect_of_step h.regular.toQueued hstep
  have hreg := h.regular.of_effect he
  have hpass : sched = lockPass s.sched l := (schedStep_lock hstep).2
  have htaken : (sched.lock l).lock ≠ 0 := by
    rw [hpass, lockPass]
    split
    · rename_i hlock
      exact hlock
    · show ((Function.update s.sched.lock l ⟨some s.sched.current, 1⟩) l).lock ≠ 0
      rw [Function.update_self]
      exact one_ne_zero
  refine ⟨hreg, fun p hp => ?_, fun p hp => ?_, fun hfree => absurd hfree htaken⟩
  · by_cases hcur : p = s.sched.current
    · -- the current task was not on the list, so it has been put there
      have hwaits : Waits s.sched (.lock l) := by
        rcases he.mem_of_not_rq rfl hp with hold | ⟨hwaits, -⟩
        · exact absurd (hcur ▸ hold) hresumes
        · exact hwaits
      rw [hcur]
      have hne : (s.sched.lock l).lock ≠ 0 := hwaits
      simp [hne]
    · rcases he.mem_of_not_rq rfl hp with hold | ⟨-, heq, -⟩
      · exact (Function.update_of_ne hcur ..).trans (h.queued p hold)
      · exact absurd heq hcur
  · have hcur : p ≠ s.sched.current := by
      rintro rfl
      have hself := (Function.update_self s.sched.current _ s.pc).symm.trans hp
      split at hself <;> cases hself
    have hold := (Function.update_of_ne hcur _ s.pc).symm.trans hp
    exact (h.woken p hold).of_effect he fun _ => hcur

/-- An `unlock` by another task than the owner changes nothing. -/
theorem unlockRet_of_not_owner {s : SchedState} {l : LockId} (now : Int)
    (h : (s.lock l).owner ≠ some s.current) : unlockRet s l now = some (s, -1) :=
  if_pos h

/-- What `unlock` does: it fails and changes nothing, finds nobody waiting, or wakes
the first task of the list. -/
theorem unlock_cases {s s' : SchedState} {l : LockId} {now : Int} (h : unlock s l now = some s') :
    (s' = s ∧ wokenByUnlock s l = none) ∨
      (s'.hd = s.hd ∧ s.hd (.lock l) = [] ∧ wokenByUnlock s l = none) ∨
      ∃ p u, p ∈ s.hd (.lock l) ∧ wokenByUnlock s l = some p ∧ Untouched s u ∧
        s' = wakeupTask u p now := by
  unfold wokenByUnlock
  rcases unlock_eq_some h with ⟨howner, rfl⟩ | ⟨howner, hcase⟩
  · exact .inl ⟨rfl, if_pos howner⟩
  · rw [if_neg (not_not.mpr howner)]
    rcases hcase with ⟨hnil, rfl⟩ | ⟨p, rest, hcons, rfl⟩
    · exact .inr (.inl ⟨rfl, hnil, by rw [hnil]; rfl⟩)
    · refine .inr (.inr ⟨p, _, ?_, by rw [hcons]; rfl, untouched_dropLock s l, rfl⟩)
      rw [hcons]
      exact List.mem_cons_self

theorem Attended.of_unlock {l : LockId} {s s' : LockSys} {now : Int} (h : Attended l s)
    (hstep : lockSysStep l s (.unlock now) = some s') : Attended l s' := by
  simp only [lockSysStep] at hstep
  split at hstep
  · cases hstep
  · rename_i hpc
    obtain ⟨⟨sched, ret⟩, hret, hstep⟩ := Option.bind_eq_some_iff.mp hstep
    have hunlock : unlock s.sched l now = some sched := by
      rw [← unlockRet_state, hret]
      rfl
    have he : Effect s.sched (.unlock l now) sched := effect_of_step h.regular.toQueued hunlock
    have hreg := h.regular.of_effect he
    have hwoken {p : TaskId} (hp : s.pc p = .woken) : InRq sched p :=
      (h.woken p hp).of_effect he fun hwaits => hwaits.elim
    have hmem {p : TaskId} (hp : p ∈ sched.hd (.lock l)) : p ∈ s.sched.hd (.lock l) :=
      (he.mem_of_not_rq rfl hp).resolve_right fun hwait => hwait.1
    rcases unlock_cases hunlock with ⟨rfl, hnone⟩ | ⟨hhd, hnil, hnone⟩ | ⟨p, u, hp, hsome, hu, rfl⟩
    · rw [hnone] at hstep
      cases hstep
      exact h
    · rw [hnone] at hstep
      cases hstep
      refine ⟨hreg, fun p hp => h.queued p (hmem hp), fun p => hwoken, fun _ hwq => ?_⟩
      rw [hhd] at hwq
      exact absurd hnil hwq
    · rw [hsome] at hstep
      cases hstep
      have hqueued := h.regular.toQueued.of_quiet hu.toQuiet
      have hself : InRq (wakeupTask u p now) p :=
        (woken_wakeupTask u p now).inRq hqueued (h := .lock l) (hu.hd ▸ hp)
      refine ⟨hreg, fun q hq => ?_, fun q hq => ?_, fun _ _ => ⟨p, Function.update_self ..⟩⟩
      · have hne : q ≠ p := by
          rintro rfl
          exact (woken_wakeupTask u q now).not_mem hqueued rfl hq
        exact (Function.update_of_ne hne ..).trans (h.queued q (hmem hq))
      · by_cases hqp : q = p
        · rw [hqp]
          exact hself
        · exact hwoken ((Function.update_of_ne hqp _ s.pc).symm.trans hq)

/-! ## Whole runs -/

theorem attended_lockSysInit (l : LockId) (now : Int) : Attended l (lockSysInit now) where
  regular := regular_tmlibInit now
  queued p hp := by cases (mem_tmlibInit_hd.mp hp).1
  woken _ hp := by cases hp
  free _ hwq := by
    obtain ⟨p, hp⟩ := List.exists_mem_of_ne_nil _ hwq
    cases (mem_tmlibInit_hd.mp hp).1

theorem Attended.of_step {l : LockId} {s s' : LockSys} {op : LockOp} (h : Attended l s)
    (hresumes : Resumes l s op) (hstep : lockSysStep l s op = some s') : Attended l s' := by
  cases op with
  | pass =>
      obtain ⟨sched, hsched, hs'⟩ := Option.bind_eq_some_iff.mp hstep
      cases hs'
      exact h.of_pass hresumes hsched
  | unlock now => exact h.of_unlock hstep
  | other op =>
      simp only [lockSysStep] at hstep
      split at hstep
      · cases hstep
      · rename_i hguard
        rw [not_or, Bool.not_eq_true] at hguard
        obtain ⟨sched, hsched, hs'⟩ := Option.bind_eq_some_iff.mp hstep
        cases hs'
        refine h.of_other hsched hguard.1 ?_
        by_contra hinside
        rw [not_or, Bool.not_eq_true] at hinside
        exact hguard.2 hinside

/-- In every run whose tasks resume only after a wakeup, no waiter is left on a free
lock, and an `unlock` by another task than the owner fails and changes nothing. -/
theorem not_stranded {l : LockId} {now : Int} {ops : List LockOp} {s : LockSys}
    (hrun : PartialSteps.run (lockSysStep l) (lockSysInit now) ops = some s)
    (hresumes : PartialSteps.Meets (lockSysStep l) (Resumes l) (lockSysInit now) ops) :
    NotStranded l s ∧ ∀ now', (s.sched.lock l).owner ≠ some s.sched.current →
      unlockRet s.sched l now' = some (s.sched, -1) := by
  have h : Attended l s :=
    PartialSteps.run_invariant (lockSysStep l) (fun _ _ _ h hop hstep => h.of_step hop hstep)
      (attended_lockSysInit l now) hresumes hrun
  exact ⟨h.notStranded, fun now' => unlockRet_of_not_owner now'⟩

/-- Tasks 5 and 6 queue up for the lock of task 4, which then releases it. -/
def twoWaiters : List LockOp :=
  [.other (.spawn 0 true true 1), .other (.schedule 2), .pass, .other (.spawn 0 true true 3),
    .other (.spawn 0 true true 4), .other (.schedule 5), .pass, .other (.schedule 6),
    .other (.schedule 7), .pass, .other (.schedule 8), .unlock 9]

theorem not_stranded_twoWaiters :
    ∃ s, PartialSteps.run (lockSysStep 0) (lockSysInit 0) twoWaiters = some s ∧
      (s.sched.lock 0).lock = 0 ∧ s.sched.hd (.lock 0) = [6] ∧ s.pc 5 = .woken ∧
      NotStranded 0 s := by
  have hfacts : (PartialSteps.run (lockSysStep 0) (lockSysInit 0) twoWaiters).map
      (fun s => ((s.sched.lock 0).lock, s.sched.hd (.lock 0), s.pc 5)) = some (0, [6], .woken) := by
    decide +kernel
  obtain ⟨s, hrun, hs⟩ := Option.map_eq_some_iff.mp hfacts
  simp only [Prod.mk.injEq] at hs
  have hresumes : PartialSteps.Meets (lockSysStep 0) (Resumes 0) (lockSysInit 0) twoWaiters := by
    decide +kernel
  exact ⟨s, hrun, hs.1, hs.2.1, hs.2.2, (not_stranded hrun hresumes).1⟩

end Sched
end TmULThreads
