import TmULThreads.Timers.Tracking
import TmULThreads.Timers.Count

/-!
# Ticks without a service

`update_times` asks `timers_pending_for_service` whether to service the timers at all.  The
test looks at the count first and then at the trees, each under the test of its own boundary,
while `tm_process_tick_and_update_timers` nests the boundaries.  `skip_of_not_pending` states
that a tick that is skipped would have changed nothing.

What the test needs of the count is only that it is not zero while a tree holds a node
(`Counted`).  The count may be too high, by timers of no ticks.  It is never too low as long
as timers are armed by `start_timer`, whose limit keeps it far from a wrap.
-/

namespace TmULThreads
namespace Timers

open RedBlackTree

/-! ## The count covers the nodes -/

/-- The count is not too low, and a timer more does not make it wrap. -/
structure CountCovers (s : TmrState) : Prop where
  counted : Counted s
  bounded : s.count.toNat ≤ maxTimers.toNat + 1

theorem CountCovers.of_settles {s s' : TmrState} (h : CountCovers s) (hs : Settles s s') : CountCovers s' := by
  obtain ⟨k, hcard, hcount⟩ := hs
  obtain ⟨hle, hbound⟩ := h
  have hlt := s.count.isLt
  have hlt' := s'.count.isLt
  have hsum := congrArg BitVec.toNat hcount
  rw [BitVec.toNat_add, BitVec.toNat_ofNat] at hsum
  -- the nodes that left were on the count, so taking them off does not wrap it
  have hexact : s'.count.toNat + k = s.count.toNat := by
    unfold Counted at hle
    omega
  constructor
  · unfold Counted at hle ⊢
    omega
  · omega

theorem CountCovers.of_arms {b : Build} {d : U32} {s s' : TmrState} (h : CountCovers s)
    (hlimit : s.count ≤ maxTimers) (ha : Arms b d s s') : CountCovers s' := by
  obtain ⟨hcount, hcard⟩ := ha
  obtain ⟨hle, -⟩ := h
  have hlimit' : s.count.toNat ≤ 2000 := hlimit
  have hsucc : s'.count.toNat = s.count.toNat + 1 := by
    rw [hcount, BitVec.toNat_add]
    exact Nat.mod_eq_of_lt (show s.count.toNat + 1 < 2 ^ 32 by omega)
  constructor
  · unfold Counted at hle ⊢
    rw [hcard, hsucc]
    split <;> omega
  · rw [hsucc]
    exact Nat.succ_le_succ hlimit'

/-- The step is not a `mod_timer`, which arms timers without a limit. -/
def Op.Limited : Op → Prop
  | .call (.modTimer ..) => False
  | _ => True

instance : ∀ op : Op, Decidable op.Limited
  | .call (.modTimer ..) => isFalse id
  | .call (.startTimer ..) | .call (.setupTimer ..) | .call (.timerRestart ..)
  | .call (.stopTimer _) | .call (.delTimer _) | .tick | .bottomHalf | .finishExpd _ =>
      isTrue trivial

theorem limit_of_arming {b : Build} {s : TmrState} {op : Op} {d : U32} (hop : op.Limited)
    (h : op.arming b s = some d) : s.count ≤ maxTimers := by
  cases op with
  | call c =>
      cases c with
      | startTimer ticks data handler flags timerOk appOk =>
          obtain ⟨hstarts, -⟩ := Option.ite_none_right_eq_some.mp h
          exact hstarts.1
      | modTimer => cases hop
      | setupTimer => cases h
      | timerRestart => cases h
      | stopTimer => cases h
      | delTimer => cases h
  | tick => cases h
  | bottomHalf => cases h
  | finishExpd => cases h

theorem countCovers_of_run {b : Build} {ops : List Op} {s : TmrState} (hops : ∀ op ∈ ops, op.Limited)
    (hrun : PartialSteps.run (step b) initTimerMgr ops = some s) : CountCovers s := by
  have hmeets := (PartialSteps.meets_const_iff (step b) hrun).mpr hops
  have hboth : Linked s ∧ CountCovers s := by
    refine PartialSteps.run_invariant (step b) (I := fun m => Linked m ∧ CountCovers m) ?_
      ⟨linked_init, ⟨le_rfl, Nat.zero_le _⟩⟩ hmeets hrun
    rintro m op m' ⟨hl, hm⟩ hop hstep
    have hl' := (hl.of_step hstep).2
    rcases settles_or_arms hl hstep with ⟨-, hs⟩ | ⟨d, hsome, ha⟩
    · exact ⟨hl', hm.of_settles hs⟩
    · exact ⟨hl', hm.of_arms (limit_of_arming hop hsome) ha⟩
  exact hboth.2

/-! ## The service that is skipped -/

theorem processTimers_of_isEmpty {s : TmrState} {w : Wheel} (h : (s.root w).isEmpty = true)
    (expires : U32) : processTimers s w expires = some (s, 0) := by
  have hnil : s.root w = .nil := by
    cases hroot : s.root w with
    | nil => rfl
    | node =>
        rw [hroot] at h
        cases h
  rw [processTimers, hnil]
  rfl

/-- A pass over empty trees. -/
theorem tmProcess_of_isEmpty {b : Build} {s : TmrState}
    (h : ∀ w, serviced b s.clk w = true → (s.root w).isEmpty = true) :
    tmProcessTickAndUpdateTimers b s = some (s, 0) := by
  have hscan (w : Wheel) (hw : serviced b s.clk w = true) (expires : U32) :
      processTimers s w expires = some (s, 0) :=
    processTimers_of_isEmpty (h w hw) expires
  unfold tmProcessTickAndUpdateTimers
  simp only [hscan .tick rfl, Option.bind_eq_bind, Option.bind_some]
  by_cases hsec : isNxtSecHappend b s.clk = true
  · simp only [hsec, if_true, hscan .sec hsec, Option.bind_some]
    by_cases hmin : isNxtMinHappend s.clk = true
    · have hscanMin := hscan .min (by simp [serviced, hsec, hmin])
      simp only [hmin, if_true, hscanMin, Option.bind_some]
      by_cases hhr : isNxtHrHappend s.clk = true
      · have hscanHrs := hscan .hrs (by simp [serviced, hsec, hmin, hhr])
        simp only [hhr, if_true, hscanHrs, Option.bind_some]
      · simp only [hhr, if_false, Bool.false_eq_true]
    · simp only [hmin, if_false, Bool.false_eq_true]
  · simp only [hsec, if_false, Bool.false_eq_true]

/-- At every tick of every run, a service that the test lets be skipped would have returned
zero and changed nothing, and no timer was due. -/
theorem skip_of_not_pending {b : Build} {ops : List Op} {s : TmrState}
    (hops : ∀ op ∈ ops, op.Limited)
    (hrun : PartialSteps.run (step b) initTimerMgr ops = some s)
    (hpend : timersPendingForService b { s with clk := s.clk.advance b } = false) :
    tmProcessTickAndUpdateTimers b { s with clk := s.clk.advance b } =
        some ({ s with clk := s.clk.advance b }, 0) ∧
      ∀ n ∈ s.nodes, n.pending.isDue b (s.clk.advance b) = false := by
  have hcounted : Counted { s with clk := s.clk.advance b } := (countCovers_of_run hops hrun).counted
  constructor
  · exact tmProcess_of_isEmpty fun w hw => isEmpty_of_not_pending hcounted hpend hw
  · exact fun n hn => not_due_of_not_pending hcounted hpend hn

/-- A timer for the wheel of the seconds waits while the clock goes through its first
second. -/
def waitingForSecond : List Op := [.call (.startTimer 250 0 none 0 true true), .tick, .tick]

theorem skip_waitingForSecond :
    ∃ s, PartialSteps.run (step .normal) initTimerMgr waitingForSecond = some s ∧
      s.count = 1 ∧ s.nodes.card = 1 ∧
      tmProcessTickAndUpdateTimers .normal { s with clk := s.clk.advance .normal } =
        some ({ s with clk := s.clk.advance .normal }, 0) := by
  have hfacts : (PartialSteps.run (step .normal) initTimerMgr waitingForSecond).any
      (fun s => s.count = 1 ∧ s.nodes.card = 1 ∧
        timersPendingForService .normal { s with clk := s.clk.advance .normal } = false) := by
    decide +kernel
  simp only [Option.any_eq_true, decide_eq_true_eq] at hfacts
  obtain ⟨s, hrun, hcount, hcard, hpend⟩ := hfacts
  exact ⟨s, hrun, hcount, hcard, (skip_of_not_pending (by decide) hrun hpend).1⟩

end Timers
end TmULThreads
