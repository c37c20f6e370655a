import TmULThreads.Timers.Deferred

/-!
# The clock over runs of any length

The counters are advanced by divisibility tests on wrapped 32-bit values, and 2^32 is a
multiple neither of the number of ticks in a second nor of 60.  When a counter wraps to
zero, the test takes the zero for the end of a unit that is not finished, and the next
counter moves too early.

`clkAfter_eq_carries` gives the four counters after any number of ticks.  They follow the
plain divisions exactly as long as the tick counter has not wrapped (`clockLaw_iff`); the
first tick that wraps it is a second too many (`not_clockLaw_wrap`).
-/

namespace TmULThreads
namespace Timers

/-- The counters of a clock that has been running for `n` ticks. -/
structure ClockLaw (b : Build) (n : Nat) (c : Clk) : Prop where
  tick : c.tick.toNat = n % 2 ^ 32
  sec : c.sec.toNat = n / tps b % 2 ^ 32
  min : c.min.toNat = n / (60 * tps b) % 2 ^ 32
  hrs : c.hrs.toNat = n / (3600 * tps b) % 2 ^ 32

/-! ## How often a wrapping counter carries -/

/-- The number of times that a 32-bit counter is a multiple of `d` while it is
incremented `n` times from zero. -/
def carries (d n : Nat) : Nat := n / 2 ^ 32 * ((2 ^ 32 - 1) / d + 1) + n % 2 ^ 32 / d

@[simp] theorem carries_zero (d : Nat) : carries d 0 = 0 := by
  simp [carries]

theorem carries_succ (d n : Nat) :
    carries d (n + 1) = carries d n + if (n + 1) % 2 ^ 32 % d = 0 then 1 else 0 := by
  unfold carries
  by_cases hwrap : (n + 1) % 2 ^ 32 = 0
  · -- the whole of a lap has been counted, and its last value is zero
    have hdiv : (n + 1) / 2 ^ 32 = n / 2 ^ 32 + 1 := by omega
    have hmod : n % 2 ^ 32 = 2 ^ 32 - 1 := by omega
    rw [hwrap, hdiv, hmod, Nat.zero_mod, if_pos rfl, Nat.zero_div, Nat.add_mul]
    omega
  · have hdiv : (n + 1) / 2 ^ 32 = n / 2 ^ 32 := by omega
    have hmod : (n + 1) % 2 ^ 32 = n % 2 ^ 32 + 1 := by omega
    rw [hdiv, hmod, Nat.succ_div, ← Nat.add_assoc]
    simp only [Nat.dvd_iff_mod_eq_zero]

/-- A counter that is fed by the carries of a finer one. -/
theorem carries_moved {d k k' : Nat} {moves : Prop} [Decidable moves]
    (hk : k' = k + if moves then 1 else 0) :
    carries d k' = carries d k + if moves ∧ (k + 1) % 2 ^ 32 % d = 0 then 1 else 0 := by
  rw [hk]
  by_cases hmoves : moves
  · simp only [hmoves, if_true, true_and]
    exact carries_succ d k
  · simp only [hmoves, if_false, false_and, Nat.add_zero]

/-- Before the first wrap it is a division. -/
theorem carries_of_lt {d n : Nat} (h : n < 2 ^ 32) : carries d n = n / d := by
  unfold carries
  rw [Nat.div_eq_of_lt h, Nat.mod_eq_of_lt h, Nat.zero_mul, Nat.zero_add]

/-! ## The counters -/

/-- A counter that holds `k` carries on its next increment. -/
theorem carry_iff {x : U32} {k : Nat} (h : x.toNat = k % 2 ^ 32) (d : Nat) :
    (x.toNat + 1) % 2 ^ 32 % d = 0 ↔ (k + 1) % 2 ^ 32 % d = 0 := by
  rw [h, Nat.mod_add_mod]

theorem toNat_moved {x : U32} {k k' : Nat} {moves : Prop} [Decidable moves]
    (h : x.toNat = k % 2 ^ 32) (hk : k' = k + if moves then 1 else 0) :
    (if moves then x + 1 else x).toNat = k' % 2 ^ 32 := by
  rw [hk]
  by_cases hmoves : moves
  · rw [if_pos hmoves, if_pos hmoves, BitVec.toNat_add, h]
    exact Nat.mod_add_mod ..
  · rw [if_neg hmoves, if_neg hmoves, h, Nat.add_zero]

/-- The counters after any number of ticks, across any number of wraps. -/
theorem clkAfter_eq_carries (b : Build) (n : Nat) :
    (clkAfter b n).tick.toNat = n % 2 ^ 32 ∧
      (clkAfter b n).sec.toNat = carries (tps b) n % 2 ^ 32 ∧
      (clkAfter b n).min.toNat = carries 60 (carries (tps b) n) % 2 ^ 32 ∧
      (clkAfter b n).hrs.toNat = carries 60 (carries 60 (carries (tps b) n)) % 2 ^ 32 := by
  classical
  induction n with
  | zero => simp [clkAfter, Clk.after, Clk.zero]
  | succ n ih =>
      obtain ⟨htick, hsec, hmin, hhrs⟩ := ih
      -- every test is a test on the counter that the carries have led to
      have hb1 : SecBoundary b (clkAfter b n) ↔ (n + 1) % 2 ^ 32 % tps b = 0 := carry_iff htick _
      have hb2 : MinBoundary b (clkAfter b n) ↔
          SecBoundary b (clkAfter b n) ∧ (carries (tps b) n + 1) % 2 ^ 32 % 60 = 0 :=
        and_congr_right fun _ => carry_iff hsec 60
      have hb3 : HrBoundary b (clkAfter b n) ↔
          MinBoundary b (clkAfter b n) ∧
            (carries 60 (carries (tps b) n) + 1) % 2 ^ 32 % 60 = 0 :=
        and_congr_right fun _ => carry_iff hmin 60
      have hsecs : carries (tps b) (n + 1) =
          carries (tps b) n + if SecBoundary b (clkAfter b n) then 1 else 0 := by
        simp only [hb1]
        exact carries_succ (tps b) n
      have hmins := carries_moved (d := 60) hsecs
      simp only [← hb2] at hmins
      have hhours := carries_moved (d := 60) hmins
      simp only [← hb3] at hhours
      show ((clkAfter b n).advance b).tick.toNat = _ ∧ ((clkAfter b n).advance b).sec.toNat = _ ∧
        ((clkAfter b n).advance b).min.toNat = _ ∧ ((clkAfter b n).advance b).hrs.toNat = _
      rw [advance_tick, advance_sec, advance_min, advance_hrs]
      refine ⟨?_, toNat_moved hsec hsecs, toNat_moved hmin hmins, toNat_moved hhrs hhours⟩
      rw [BitVec.toNat_add, htick]
      exact Nat.mod_add_mod ..

theorem clockLaw_of_lt (b : Build) {n : Nat} (hn : n < 2 ^ 32) : ClockLaw b n (clkAfter b n) := by
  obtain ⟨htick, hsec, hmin, hhrs⟩ := clkAfter_eq_carries b n
  have hs : n / tps b < 2 ^ 32 := (Nat.div_le_self _ _).trans_lt hn
  have hm : n / tps b / 60 < 2 ^ 32 := (Nat.div_le_self _ _).trans_lt hs
  rw [carries_of_lt hn] at hsec hmin hhrs
  rw [carries_of_lt hs] at hmin hhrs
  rw [carries_of_lt hm] at hhrs
  refine ⟨htick, hsec, ?_, ?_⟩
  · rw [hmin, Nat.div_div_eq_div_mul, Nat.mul_comm]
  · rw [hhrs, Nat.div_div_eq_div_mul, Nat.div_div_eq_div_mul]
    congr 2
    omega

/-- On the tick that wraps the tick counter the seconds are one ahead.  The number is a
variable here, as a term with 2^32 ticks must not be evaluated. -/
theorem sec_clkAfter_wrap (b : Build) {k : Nat} (hk : k = 2 ^ 32) :
    (clkAfter b k).sec.toNat = k / tps b + 1 := by
  obtain ⟨-, hsec, -⟩ := clkAfter_eq_carries b k
  rw [hsec, hk]
  cases b with
  | sfs => decide
  | normal => decide

theorem not_clockLaw_at_wrap (b : Build) {k : Nat} (hk : k = 2 ^ 32) :
    ¬ ClockLaw b k (clkAfter b k) := by
  intro h
  have hsec := h.sec
  rw [sec_clkAfter_wrap b hk, hk] at hsec
  rcases tps_cases b with htps | htps
  · rw [htps] at hsec
    omega
  · rw [htps] at hsec
    omega

/-! ## Runs -/

/-- The clock depends on nothing but the number of ticks. -/
theorem clk_of_run {b : Build} {ops : List Op} {s : TmrState}
    (hrun : PartialSteps.run (step b) initTimerMgr ops = some s) :
    s.clk = clkAfter b (tickCount ops) := by
  have hgen {k : Nat} {r : TmrState} {ops : List Op} (hl : Linked r) (hclk : r.clk = clkAfter b k)
      (hrun : PartialSteps.run (step b) r ops = some s) :
      s.clk = clkAfter b (k + tickCount ops) := by
    induction ops generalizing k r with
    | nil =>
        cases hrun
        exact hclk
    | cons op rest ih =>
        obtain ⟨mid, hstep, hrest⟩ := (PartialSteps.run_cons _).mp hrun
        obtain ⟨hmid, hlmid⟩ := hl.of_step hstep
        rw [tickCount_cons, ← Nat.add_assoc]
        refine ih hlmid ?_ hrest
        rw [hmid, hclk]
        cases op with
        | call c => rfl
        | tick => rfl
        | bottomHalf => rfl
        | finishExpd appOk => rfl
  have h := hgen (k := 0) linked_init rfl hrun
  rwa [Nat.zero_add] at h

theorem tickCount_ticks (n : Nat) : tickCount (List.replicate n .tick) = n := by
  unfold tickCount
  rw [List.countP_replicate]
  rfl

/-- Whatever else is called between the ticks, the counters are the plain divisions in
all runs of up to `n` ticks if and only if the tick counter does not wrap in them. -/
theorem clockLaw_iff (b : Build) (n : Nat) :
    (∀ ops s, PartialSteps.run (step b) initTimerMgr ops = some s → tickCount ops ≤ n →
      ClockLaw b (tickCount ops) s.clk) ↔ n < 2 ^ 32 := by
  constructor
  · intro h
    by_contra hn
    obtain ⟨k, hk⟩ : ∃ k, k = 2 ^ 32 := ⟨_, rfl⟩
    have hle : tickCount (List.replicate k .tick) ≤ n := by
      rw [tickCount_ticks]
      omega
    have hwrap := h _ _ (run_ticks_idle b Clk.zero k) hle
    rw [tickCount_ticks] at hwrap
    exact not_clockLaw_at_wrap b hk hwrap
  · intro hn ops s hrun hle
    rw [clk_of_run hrun]
    exact clockLaw_of_lt b (hle.trans_lt hn)

/-- A year and four months after the start the pthread build gains a second. -/
theorem not_clockLaw_wrap :
    ∃ k s, k = 2 ^ 32 ∧
      PartialSteps.run (step .normal) initTimerMgr (List.replicate k .tick) = some s ∧
      s.clk.tick = 0 ∧ s.clk.sec.toNat = 42949673 ∧ k / tps .normal = 42949672 ∧
      ¬ ClockLaw .normal k s.clk := by
  obtain ⟨k, hk⟩ : ∃ k, k = 2 ^ 32 := ⟨_, rfl⟩
  have htick : (clkAfter .normal k).tick.toNat = 0 := by
    rw [(clkAfter_eq_carries .normal k).1, hk, Nat.mod_self]
  have hdiv : k / tps .normal = 42949672 := by
    rw [hk]
    rfl
  have hsec := sec_clkAfter_wrap .normal hk
  rw [hdiv] at hsec
  exact ⟨k, _, hk, run_ticks_idle .normal Clk.zero k, BitVec.eq_of_toNat_eq htick, hsec, hdiv,
    not_clockLaw_at_wrap .normal hk⟩

end Timers
end TmULThreads
