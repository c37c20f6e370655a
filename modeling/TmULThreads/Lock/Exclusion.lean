import TmULThreads.Lock.Statements
import Mathlib.Tactic

/-!
# Mutual exclusion under preemption

`Exclusive` is what a lock is for: at most one task holds it, `lock->lock` is 0 or
1, and `lock->owner` is the task that holds it.

The test of `lock->lock` and its increment are two statements, and so are the
decrement and the reset of `owner` in `unlock`.  A tick between the two of a pair
can break the lock.  `exclusive_always_iff` says exactly when: in a run the lock
works all along if and only if `lock->lock` was 0 at each increment, and nobody
held the lock when `owner` was reset.
-/

namespace TmULThreads
namespace Lock

structure Exclusive (s : LockState) : Prop where
  one : ∀ t u, s.holds t = true → s.holds u = true → t = u
  bit : s.lock = 0 ∨ s.lock = 1
  owner : ∀ t, s.holds t = true → s.owner = some t

/-- Nothing has come between the test and the increment, or between the decrement
and the reset of the owner, that matters. -/
def Undivided (s : LockState) : Op → Prop
  | .step t =>
      (s.pc t = .inc → s.lock = 0) ∧ (s.pc t = .clearOwner → ∀ u, s.holds u = false)
  | _ => True

/-! ## The phases of a task -/

inductive Phase where
  | other
  /-- The test has found the lock free. -/
  | entering
  /-- The lock has been incremented and has no owner yet. -/
  | inside
  /-- The task has been found to be the owner. -/
  | leaving
  /-- The lock has been decremented and still has its owner. -/
  | left
  deriving DecidableEq

def Pc.phase : Pc → Phase
  | .inc => .entering
  | .checkInc | .setOwner => .inside
  | .dec => .leaving
  | .checkDec | .clearOwner => .left
  | _ => .other

/-- The task is counted in `lock->lock`. -/
def Inside (s : LockState) (t : TaskId) : Prop := s.holds t = true ∨ (s.pc t).phase = .inside

structure Guarded (s : LockState) : Prop where
  inside : (s.lock = 0 ∧ ∀ t, ¬ Inside s t) ∨
    (s.lock = 1 ∧ ∃ t, Inside s t ∧ ∀ u, Inside s u → u = t)
  owner : ∀ t, s.holds t = true → s.owner = some t
  owned : ∀ t, s.owner = some t → s.holds t = true ∨ (s.pc t).phase = .left
  entering : ∀ t, (s.pc t).phase = .entering ∨ (s.pc t).phase = .inside → s.holds t = false
  leaving : ∀ t, (s.pc t).phase = .leaving → s.holds t = true

theorem guarded_createLock : Guarded createLock where
  inside := by
    left
    refine ⟨rfl, fun t h => ?_⟩
    rcases h with h | h <;> cases h
  owner := nofun
  owned := nofun
  entering := fun _ _ => rfl
  leaving := nofun

theorem Guarded.exclusive {s : LockState} (h : Guarded s) : Exclusive s where
  one := by
    intro t u ht hu
    exact Option.some.inj ((h.owner t ht).symm.trans (h.owner u hu))
  bit := h.inside.imp And.left And.left
  owner := h.owner

/-- A task moves within its phase, and nothing else changes that counts. -/
theorem Guarded.of_samePhase {s s' : LockState} (h : Guarded s) (hlock : s'.lock = s.lock)
    (howner : s'.owner = s.owner) (hholds : s'.holds = s.holds)
    (hpc : ∀ t, (s'.pc t).phase = (s.pc t).phase) : Guarded s' := by
  have hinside (t : TaskId) : Inside s' t ↔ Inside s t := by
    unfold Inside
    rw [hholds, hpc]
  refine ⟨?_, ?_, ?_, ?_, ?_⟩
  · rw [hlock]
    simpa only [hinside] using h.inside
  · rw [hholds, howner]
    exact h.owner
  · rw [hholds, howner]
    simpa only [hpc] using h.owned
  · rw [hholds]
    simpa only [hpc] using h.entering
  · rw [hholds]
    simpa only [hpc] using h.leaving

theorem phase_goto {s s' : LockState} {t : TaskId} {pc : Pc} (hpc : s'.pc = s.pc)
    (hphase : pc.phase = (s.pc t).phase) (u : TaskId) :
    ((s'.goto t pc).pc u).phase = (s.pc u).phase := by
  by_cases hu : u = t
  · rw [hu, goto_pc_self, hphase]
  · rw [goto_pc_of_ne _ _ hu, hpc]

/-- Statements that only move the task, within its phase. -/
theorem Guarded.of_goto {s s' : LockState} {t : TaskId} {pc : Pc} (h : Guarded s)
    (hlock : s'.lock = s.lock) (howner : s'.owner = s.owner) (hholds : s'.holds = s.holds)
    (hpc : s'.pc = s.pc) (hphase : pc.phase = (s.pc t).phase) : Guarded (s'.goto t pc) :=
  h.of_samePhase hlock howner hholds (phase_goto hpc hphase)

/-! ## Statements that change the phase -/

theorem Guarded.not_inside {s : LockState} (h : Guarded s) (hlock : s.lock = 0) (t : TaskId) :
    ¬ Inside s t := by
  rcases h.inside with ⟨-, hnone⟩ | ⟨hone, -⟩
  · exact hnone t
  · omega

theorem Guarded.eq_of_inside {s : LockState} (h : Guarded s) {t u : TaskId} (ht : Inside s t)
    (hu : Inside s u) : s.lock = 1 ∧ u = t := by
  rcases h.inside with ⟨-, hnone⟩ | ⟨hone, v, -, hall⟩
  · exact absurd ht (hnone t)
  · exact ⟨hone, (hall u hu).trans (hall t ht).symm⟩

/-- Only what is known of the task `t` changes. -/
structure ChangesOnly (t : TaskId) (s s' : LockState) : Prop where
  holds : ∀ u, u ≠ t → s'.holds u = s.holds u
  phase : ∀ u, u ≠ t → (s'.pc u).phase = (s.pc u).phase

theorem ChangesOnly.inside_iff {t u : TaskId} {s s' : LockState} (h : ChangesOnly t s s')
    (hu : u ≠ t) : Inside s' u ↔ Inside s u := by
  unfold Inside
  rw [h.holds u hu, h.phase u hu]

theorem changesOnly_goto {s s' : LockState} {t : TaskId} (pc : Pc) (hpc : s'.pc = s.pc)
    (hholds : ∀ u, u ≠ t → s'.holds u = s.holds u) : ChangesOnly t s (s'.goto t pc) where
  holds := hholds
  phase := by
    intro u hu
    rw [goto_pc_of_ne _ _ hu, hpc]

/-- A change of one task that leaves the owner alone. -/
theorem Guarded.of_change {s s' : LockState} {t : TaskId} (h : Guarded s)
    (hc : ChangesOnly t s s') (howner : s'.owner = s.owner)
    (hinside : (s'.lock = 0 ∧ ∀ u, ¬ Inside s' u) ∨
      (s'.lock = 1 ∧ ∃ u, Inside s' u ∧ ∀ v, Inside s' v → v = u))
    (hheld : s'.holds t = true → s.owner = some t)
    (howned : s.owner = some t → s'.holds t = true ∨ (s'.pc t).phase = .left)
    (hentering : (s'.pc t).phase = .entering ∨ (s'.pc t).phase = .inside → s'.holds t = false)
    (hleaving : (s'.pc t).phase = .leaving → s'.holds t = true) : Guarded s' := by
  refine ⟨hinside, fun u => ?_, fun u => ?_, fun u => ?_, fun u => ?_⟩
  all_goals by_cases hu : u = t
  · rw [hu, howner]
    exact hheld
  · rw [hc.holds u hu, howner]
    exact h.owner u
  · rw [hu, howner]
    exact howned
  · rw [hc.holds u hu, hc.phase u hu, howner]
    exact h.owned u
  · rw [hu]
    exact hentering
  · rw [hc.holds u hu, hc.phase u hu]
    exact h.entering u
  · rw [hu]
    exact hleaving
  · rw [hc.holds u hu, hc.phase u hu]
    exact h.leaving u

/-- The test finds the lock free. -/
theorem Guarded.of_test {s : LockState} {t : TaskId} (h : Guarded s) (hpc : s.pc t = .test)
    (hlock : s.lock = 0) : Guarded (s.goto t .inc) := by
  have hnone := h.not_inside hlock
  have hfree : s.holds t = false := Bool.eq_false_iff.mpr fun hheld => hnone t (.inl hheld)
  have hc : ChangesOnly t s (s.goto t .inc) := changesOnly_goto _ rfl fun _ _ => rfl
  refine h.of_change hc rfl (.inl ⟨hlock, fun u => ?_⟩) (h.owner t) (fun ho => ?_)
    (fun _ => hfree) ?_
  · by_cases hu : u = t
    · rw [hu, Inside, goto_pc_self, goto_holds, hfree]
      simp [Pc.phase]
    · rw [hc.inside_iff hu]
      exact hnone u
  · have howned := h.owned t ho
    rw [hpc, hfree] at howned
    simp [Pc.phase] at howned
  · rw [goto_pc_self]
    exact nofun

/-- The increment of a lock that is free. -/
theorem Guarded.of_inc {s : LockState} {t : TaskId} (h : Guarded s) (hpc : s.pc t = .inc)
    (hlock : s.lock = 0) : Guarded ({ s with lock := s.lock + 1 }.goto t .checkInc) := by
  have hnone := h.not_inside hlock
  have hfree : s.holds t = false := h.entering t (.inl (by rw [hpc]; rfl))
  have hc : ChangesOnly t s ({ s with lock := s.lock + 1 }.goto t .checkInc) :=
    changesOnly_goto _ rfl fun _ _ => rfl
  refine h.of_change hc rfl (.inr ⟨?_, t, ?_, fun u hu => ?_⟩) (h.owner t) (fun ho => ?_)
    (fun _ => hfree) ?_
  · show s.lock + 1 = 1
    omega
  · right
    rw [goto_pc_self]
    rfl
  · by_contra hne
    exact hnone u ((hc.inside_iff hne).mp hu)
  · have howned := h.owned t ho
    rw [hpc, hfree] at howned
    simp [Pc.phase] at howned
  · rw [goto_pc_self]
    exact nofun

/-- The task that has incremented the lock becomes its owner. -/
theorem Guarded.of_setOwner {s : LockState} {t : TaskId} (h : Guarded s)
    (hpc : s.pc t = .setOwner) :
    Guarded (({ s with owner := some t }.setHolds t true).goto t .out) := by
  have ht : Inside s t := .inr (by rw [hpc]; rfl)
  have hlock := (h.eq_of_inside ht ht).1
  have hc : ChangesOnly t s (({ s with owner := some t }.setHolds t true).goto t .out) :=
    changesOnly_goto _ rfl fun u hu => setHolds_of_ne _ _ hu
  have hself : (({ s with owner := some t }.setHolds t true).goto t .out).holds t = true := by
    rw [goto_holds, setHolds_self]
  have honly (u : TaskId) (hu : s.holds u = true) : u = t := (h.eq_of_inside ht (.inl hu)).2
  refine ⟨.inr ⟨hlock, t, .inl hself, fun u hu => ?_⟩, fun u hu => ?_, fun u hu => ?_,
    fun u hu => ?_, fun u hu => ?_⟩
  · by_contra hne
    exact hne (h.eq_of_inside ht ((hc.inside_iff hne).mp hu)).2
  · by_cases hne : u = t
    · rw [hne]
      rfl
    · rw [hc.holds u hne] at hu
      exact absurd (honly u hu) hne
  · obtain rfl : t = u := Option.some.inj hu
    exact .inl hself
  · by_cases hne : u = t
    · rw [hne, goto_pc_self] at hu
      simp [Pc.phase] at hu
    · rw [hc.phase u hne] at hu
      rw [hc.holds u hne]
      exact h.entering u hu
  · by_cases hne : u = t
    · rw [hne]
      exact hself
    · rw [hc.phase u hne] at hu
      rw [hc.holds u hne]
      exact h.leaving u hu

/-- The owner goes on to release the lock. -/
theorem Guarded.of_checkOwner {s : LockState} {t : TaskId} (h : Guarded s)
    (hpc : s.pc t = .checkOwner) (howner : s.owner = some t) : Guarded (s.goto t .dec) := by
  have hheld : s.holds t = true := by
    rcases h.owned t howner with hheld | hleft
    · exact hheld
    · rw [hpc] at hleft
      cases hleft
  have hc : ChangesOnly t s (s.goto t .dec) := changesOnly_goto _ rfl fun _ _ => rfl
  have hinside (u : TaskId) : Inside (s.goto t .dec) u ↔ Inside s u := by
    by_cases hu : u = t
    · rw [hu]
      exact iff_of_true (.inl hheld) (.inl hheld)
    · exact hc.inside_iff hu
  refine h.of_change hc rfl ?_ (h.owner t) (fun _ => .inl hheld) ?_ (fun _ => hheld)
  · simpa only [hinside, goto_lock] using h.inside
  · rw [goto_pc_self]
    rintro (hphase | hphase) <;> cases hphase

/-- The decrement, by the task that holds the lock. -/
theorem Guarded.of_dec {s : LockState} {t : TaskId} (h : Guarded s) (hpc : s.pc t = .dec) :
    Guarded (({ s with lock := s.lock - 1 }.setHolds t false).goto t .checkDec) := by
  have hheld : s.holds t = true := h.leaving t (by rw [hpc]; rfl)
  have hlock := (h.eq_of_inside (.inl hheld) (.inl hheld)).1
  have hc : ChangesOnly t s (({ s with lock := s.lock - 1 }.setHolds t false).goto t .checkDec) :=
    changesOnly_goto _ rfl fun u hu => setHolds_of_ne _ _ hu
  have hself : (({ s with lock := s.lock - 1 }.setHolds t false).goto t .checkDec).holds t =
      false := by
    rw [goto_holds, setHolds_self]
  refine h.of_change hc rfl (.inl ⟨?_, fun u hu => ?_⟩) (fun hs => ?_) (fun _ => .inr ?_)
    (fun _ => hself) ?_
  · show s.lock - 1 = 0
    omega
  · by_cases hne : u = t
    · rw [hne, Inside, hself, goto_pc_self] at hu
      simp [Pc.phase] at hu
    · exact hne (h.eq_of_inside (.inl hheld) ((hc.inside_iff hne).mp hu)).2
  · rw [hself] at hs
    cases hs
  · rw [goto_pc_self]
    rfl
  · rw [goto_pc_self]
    exact nofun

/-- The owner is reset while nobody holds the lock. -/
theorem Guarded.of_clearOwner {s : LockState} {t : TaskId} (h : Guarded s)
    (hpc : s.pc t = .clearOwner) (hfree : ∀ u, s.holds u = false) :
    Guarded ({ s with owner := none }.goto t .testWq) := by
  have hc : ChangesOnly t s ({ s with owner := none }.goto t .testWq) :=
    changesOnly_goto _ rfl fun _ _ => rfl
  have hinside (u : TaskId) : Inside ({ s with owner := none }.goto t .testWq) u ↔ Inside s u := by
    by_cases hu : u = t
    · rw [hu, Inside, Inside, goto_pc_self, hpc]
      simp [Pc.phase]
    · exact hc.inside_iff hu
  refine ⟨?_, fun u hu => ?_, nofun, fun u _ => hfree u, fun u hu => ?_⟩
  · simpa only [hinside, goto_lock] using h.inside
  · rw [goto_holds, hfree u] at hu
    cases hu
  · by_cases hne : u = t
    · rw [hne, goto_pc_self] at hu
      cases hu
    · rw [hc.phase u hne] at hu
      exact h.leaving u hu

/-! ## Runs -/

theorem Guarded.of_runStatement {s s' : LockState} {t : TaskId} (h : Guarded s)
    (hok : Undivided s (.step t)) (hstep : runStatement s t = some s') : Guarded s' := by
  unfold runStatement at hstep
  cases hpc : s.pc t with
  | out =>
      rw [hpc] at hstep
      cases hstep
  | test =>
      rw [hpc] at hstep
      cases hstep
      split
      · exact h.of_goto rfl rfl rfl rfl (by rw [hpc]; rfl)
      · rename_i hlock
        exact h.of_test hpc (not_not.mp hlock)
  | inc =>
      rw [hpc] at hstep
      cases hstep
      exact h.of_inc hpc (hok.1 hpc)
  | setOwner =>
      rw [hpc] at hstep
      cases hstep
      exact h.of_setOwner hpc
  | checkOwner =>
      rw [hpc] at hstep
      cases hstep
      split
      · exact h.of_goto rfl rfl rfl rfl (by rw [hpc]; rfl)
      · rename_i howner
        exact h.of_checkOwner hpc (not_not.mp howner)
  | dec =>
      rw [hpc] at hstep
      cases hstep
      exact h.of_dec hpc
  | clearOwner =>
      rw [hpc] at hstep
      cases hstep
      exact h.of_clearOwner hpc (hok.2 hpc)
  | testWq =>
      rw [hpc] at hstep
      cases hstep
      refine h.of_goto rfl rfl rfl rfl ?_
      rw [hpc]
      split <;> rfl
  | wakeFirst =>
      rw [hpc] at hstep
      dsimp only at hstep
      split at hstep
      · cases hstep
      · rename_i p _ _
        cases hstep
        obtain ⟨wq, onrq, hwake⟩ := wakeupTask_eq s p
        rw [hwake]
        exact h.of_goto rfl rfl rfl rfl (by rw [hpc]; rfl)
  | checkInc | checkDec =>
      rw [hpc] at hstep
      dsimp only at hstep
      split at hstep
      · cases hstep
      · cases hstep
        exact h.of_goto rfl rfl rfl rfl (by rw [hpc]; rfl)
  | listDel | listAddTail | setTaskNotRq | asleep =>
      rw [hpc] at hstep
      cases hstep
      exact h.of_goto rfl rfl rfl rfl (by rw [hpc]; rfl)

theorem Guarded.of_lockStep {s s' : LockState} {op : Op} (h : Guarded s) (hok : Undivided s op)
    (hstep : lockStep s op = some s') : Guarded s' := by
  cases op with
  | lock t | unlock t =>
      simp only [lockStep] at hstep
      split at hstep
      · rename_i hpc
        cases hstep
        exact h.of_goto rfl rfl rfl rfl (by rw [hpc]; rfl)
      · cases hstep
  | step t => exact h.of_runStatement hok hstep

/-- A step that is not undivided breaks the lock at once. -/
theorem Guarded.undivided_of_exclusive {s s' : LockState} {op : Op} (h : Guarded s)
    (hstep : lockStep s op = some s') (hex : Exclusive s') : Undivided s op := by
  cases op with
  | lock t => trivial
  | unlock t => trivial
  | step t =>
      simp only [lockStep, runStatement] at hstep
      refine ⟨fun hpc => ?_, fun hpc u => ?_⟩
      · rw [hpc] at hstep
        cases hstep
        have hbit : s.lock + 1 = 0 ∨ s.lock + 1 = 1 := hex.bit
        have hold := h.exclusive.bit
        omega
      · rw [hpc] at hstep
        cases hstep
        rw [Bool.eq_false_iff]
        intro hheld
        have howner : none = some u := hex.owner u hheld
        cases howner

theorem exclusive_always_iff (ops : List Op) (s : LockState)
    (hrun : PartialSteps.run lockStep createLock ops = some s) :
    PartialSteps.Always lockStep Exclusive createLock ops ↔
      PartialSteps.Meets lockStep Undivided createLock ops :=
  PartialSteps.always_iff_meets lockStep (fun _ h => h.exclusive)
    (fun _ _ _ h hstep =>
      ⟨fun hok => h.of_lockStep hok hstep, fun hex => h.undivided_of_exclusive hstep hex⟩)
    guarded_createLock hrun

/-- A task is preempted while it takes the lock, after the increment; the task
that runs instead finds the lock taken. -/
theorem exclusive_preempted_after_inc :
    ∃ s, PartialSteps.run lockStep createLock
        [.lock 1, .step 1, .step 1, .lock 2, .step 2, .step 1, .step 1] = some s ∧
      s.holds 1 = true ∧ s.pc 2 = .listDel ∧
      PartialSteps.Always lockStep Exclusive createLock
        [.lock 1, .step 1, .step 1, .lock 2, .step 2, .step 1, .step 1] := by
  refine ⟨_, rfl, rfl, rfl, (exclusive_always_iff _ _ rfl).mpr ?_⟩
  exact .cons rfl trivial (.cons rfl ⟨nofun, nofun⟩ (.cons rfl ⟨fun _ => rfl, nofun⟩
    (.cons rfl trivial (.cons rfl ⟨nofun, nofun⟩ (.cons rfl ⟨nofun, nofun⟩
      (.cons rfl ⟨nofun, nofun⟩ trivial))))))

/-- A task is preempted between the test and the increment, and another one takes
the lock meanwhile. -/
theorem not_exclusive_preempted_before_inc :
    ∃ s, PartialSteps.run lockStep createLock
        [.lock 1, .step 1, .lock 2, .step 2, .step 2, .step 2, .step 2, .step 1] = some s ∧
      s.holds 2 = true ∧ s.pc 1 = .checkInc ∧ s.lock = 2 ∧ ¬ Exclusive s := by
  refine ⟨_, rfl, rfl, rfl, rfl, fun hex => ?_⟩
  have hbit := hex.bit
  revert hbit
  decide

end Lock
end TmULThreads
