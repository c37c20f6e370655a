import TmULThreads.Timers.Ctime

/-!
# The four clock counters

`update_times` advances `clk[TICK]` on every call and carries into `clk[SEC]`,
`clk[MIN]` and `clk[HRS]` by divisibility tests on the wrapped 32-bit values
(`TIMERS/src/tmr_init.c`).  The servicing code asks the clock, with the
`IS_NXT_*_HAPPEND` macros, which wheels have to be looked at.

`serviced` collects these nested tests.  The two facts that the later modules
rest on are that a wheel is only ever looked at on a tick that moved its own
counter (`get_advance_of_serviced`), and the closed form of the counters up to
the first wrap (`clkAfter_toNat`).
-/

namespace TmULThreads
namespace Timers

/-- `clk[TIMER_WHEEL]`. -/
structure Clk where
  tick : U32
  sec : U32
  min : U32
  hrs : U32
  deriving DecidableEq, Repr

namespace Clk

def zero : Clk := ⟨0, 0, 0, 0⟩

def get (c : Clk) : Wheel → U32
  | .tick => c.tick
  | .sec => c.sec
  | .min => c.min
  | .hrs => c.hrs

/-- The counter part of `update_times`. -/
def advance (b : Build) (c : Clk) : Clk :=
  let c := { c with tick := c.tick + 1 }
  if c.tick % tmGetTicksPerSecond b = 0 then
    let c := { c with sec := c.sec + 1 }
    if c.sec % 60 = 0 then
      let c := { c with min := c.min + 1 }
      if c.min % 60 = 0 then { c with hrs := c.hrs + 1 } else c
    else c
  else c

end Clk

/-- `IS_NXT_SEC_HAPPEND`. -/
def isNxtSecHappend (b : Build) (c : Clk) : Bool :=
  c.tick % tmGetTicksPerSecond b == 0

/-- `IS_NXT_MIN_HAPPEND`; a zero seconds counter never counts as a boundary. -/
def isNxtMinHappend (c : Clk) : Bool :=
  (if c.sec ≠ 0 then c.sec % 60 else 1) == 0

/-- `IS_NXT_HR_HAPPEND`. -/
def isNxtHrHappend (c : Clk) : Bool :=
  (if c.min ≠ 0 then c.min % 60 else 1) == 0

/-- The wheels that `tm_process_tick_and_update_timers` scans at a clock. -/
def serviced (b : Build) (c : Clk) : Wheel → Bool
  | .tick => true
  | .sec => isNxtSecHappend b c
  | .min => isNxtSecHappend b c && isNxtMinHappend c
  | .hrs => isNxtSecHappend b c && isNxtMinHappend c && isNxtHrHappend c

/-! ## Counters as numbers -/

/-- The next tick completes a second. -/
def SecBoundary (b : Build) (c : Clk) : Prop := (c.tick.toNat + 1) % 2 ^ 32 % tps b = 0

/-- The next tick completes a minute. -/
def MinBoundary (b : Build) (c : Clk) : Prop :=
  SecBoundary b c ∧ (c.sec.toNat + 1) % 2 ^ 32 % 60 = 0

/-- The next tick completes an hour. -/
def HrBoundary (b : Build) (c : Clk) : Prop :=
  MinBoundary b c ∧ (c.min.toNat + 1) % 2 ^ 32 % 60 = 0

private theorem umod_eq_zero_iff (x y : U32) : x % y = 0 ↔ x.toNat % y.toNat = 0 := by
  rw [← BitVec.toNat_umod]
  exact BitVec.toNat_inj.symm

private theorem toNat_succ (x : U32) : (x + 1).toNat = (x.toNat + 1) % 2 ^ 32 :=
  BitVec.toNat_add x 1

theorem secBoundary_iff (b : Build) (c : Clk) :
    SecBoundary b c ↔ (c.tick + 1) % tmGetTicksPerSecond b = 0 := by
  rw [umod_eq_zero_iff, toNat_succ]
  rfl

theorem boundary60_iff (x : U32) : (x.toNat + 1) % 2 ^ 32 % 60 = 0 ↔ (x + 1) % 60 = 0 := by
  rw [umod_eq_zero_iff, toNat_succ]
  rfl

@[simp] theorem advance_tick (b : Build) (c : Clk) : (c.advance b).tick = c.tick + 1 := by
  simp only [Clk.advance]
  split_ifs <;> rfl

theorem advance_sec (b : Build) (c : Clk) [Decidable (SecBoundary b c)] :
    (c.advance b).sec = if SecBoundary b c then c.sec + 1 else c.sec := by
  simp only [Clk.advance, secBoundary_iff]
  split_ifs <;> rfl

theorem advance_min (b : Build) (c : Clk) [Decidable (MinBoundary b c)] :
    (c.advance b).min = if MinBoundary b c then c.min + 1 else c.min := by
  simp only [Clk.advance, MinBoundary, secBoundary_iff, boundary60_iff]
  split_ifs <;> simp_all

theorem advance_hrs (b : Build) (c : Clk) [Decidable (HrBoundary b c)] :
    (c.advance b).hrs = if HrBoundary b c then c.hrs + 1 else c.hrs := by
  simp only [Clk.advance, HrBoundary, MinBoundary, secBoundary_iff, boundary60_iff]
  split_ifs <;> simp_all

/-- One lemma for the four counters: the boundary at which each one moves. -/
def boundary (b : Build) (c : Clk) : Wheel → Prop
  | .tick => True
  | .sec => SecBoundary b c
  | .min => MinBoundary b c
  | .hrs => HrBoundary b c

theorem get_advance_of_boundary {b : Build} {c : Clk} {w : Wheel} (h : boundary b c w) :
    (c.advance b).get w = c.get w + 1 := by
  classical
  cases w with
  | tick => exact advance_tick b c
  | sec => exact (advance_sec b c).trans (if_pos h)
  | min => exact (advance_min b c).trans (if_pos h)
  | hrs => exact (advance_hrs b c).trans (if_pos h)

theorem get_advance_of_not_boundary {b : Build} {c : Clk} {w : Wheel} (h : ¬ boundary b c w) :
    (c.advance b).get w = c.get w := by
  classical
  cases w with
  | tick => exact absurd trivial h
  | sec => exact (advance_sec b c).trans (if_neg h)
  | min => exact (advance_min b c).trans (if_neg h)
  | hrs => exact (advance_hrs b c).trans (if_neg h)

/-! ## Which wheels are serviced -/

theorem isNxtSecHappend_iff (b : Build) (c : Clk) :
    isNxtSecHappend b c = true ↔ c.tick.toNat % tps b = 0 := by
  unfold isNxtSecHappend
  rw [beq_iff_eq, umod_eq_zero_iff]
  rfl

private theorem boundaryTest_iff (x : U32) :
    ((if x ≠ 0 then x % 60 else 1) == 0) = true ↔ x.toNat ≠ 0 ∧ x.toNat % 60 = 0 := by
  have hzero : x = 0 ↔ x.toNat = 0 := BitVec.toNat_inj.symm
  by_cases h : x = 0
  · simp [h]
  · have hne : x.toNat ≠ 0 := fun hx => h (hzero.mpr hx)
    rw [beq_iff_eq, if_pos h, umod_eq_zero_iff]
    exact ⟨fun hmod => ⟨hne, hmod⟩, fun hmod => hmod.2⟩

theorem isNxtMinHappend_iff (c : Clk) :
    isNxtMinHappend c = true ↔ c.sec.toNat ≠ 0 ∧ c.sec.toNat % 60 = 0 :=
  boundaryTest_iff c.sec

theorem isNxtHrHappend_iff (c : Clk) :
    isNxtHrHappend c = true ↔ c.min.toNat ≠ 0 ∧ c.min.toNat % 60 = 0 :=
  boundaryTest_iff c.min

theorem isNxtSecHappend_advance (b : Build) (c : Clk) :
    isNxtSecHappend b (c.advance b) = true ↔ SecBoundary b c := by
  rw [isNxtSecHappend_iff, advance_tick, toNat_succ]
  rfl

/-- After a tick a wheel is scanned exactly when the tick moved its counter,
unless the next finer counter has just wrapped to zero. -/
theorem serviced_advance_iff (b : Build) (c : Clk) (w : Wheel) :
    serviced b (c.advance b) w = true ↔
      boundary b c w ∧
        (1 < w.rank → (c.advance b).sec.toNat ≠ 0) ∧
        (2 < w.rank → (c.advance b).min.toNat ≠ 0) := by
  classical
  have hsec := isNxtSecHappend_advance b c
  have hmin : SecBoundary b c → (isNxtMinHappend (c.advance b) = true ↔
      (c.advance b).sec.toNat ≠ 0 ∧ (c.sec.toNat + 1) % 2 ^ 32 % 60 = 0) := by
    intro hb
    rw [isNxtMinHappend_iff, advance_sec, if_pos hb, toNat_succ]
  have hhrs : MinBoundary b c → (isNxtHrHappend (c.advance b) = true ↔
      (c.advance b).min.toNat ≠ 0 ∧ (c.min.toNat + 1) % 2 ^ 32 % 60 = 0) := by
    intro hb
    rw [isNxtHrHappend_iff, advance_min, if_pos hb, toNat_succ]
  cases w with
  | tick => simp [serviced, boundary, Wheel.rank]
  | sec => simp [serviced, boundary, Wheel.rank, hsec]
  | min =>
      simp only [serviced, boundary, Wheel.rank, Bool.and_eq_true, hsec]
      constructor
      · rintro ⟨hb, hm⟩
        obtain ⟨hne, hmod⟩ := (hmin hb).mp hm
        exact ⟨⟨hb, hmod⟩, fun _ => hne, fun h => absurd h (by omega)⟩
      · rintro ⟨hb, hne, -⟩
        exact ⟨hb.1, (hmin hb.1).mpr ⟨hne (by omega), hb.2⟩⟩
  | hrs =>
      simp only [serviced, boundary, Wheel.rank, Bool.and_eq_true, hsec]
      constructor
      · rintro ⟨⟨hb, hm⟩, hh⟩
        obtain ⟨hne, hmod⟩ := (hmin hb).mp hm
        obtain ⟨hne', hmod'⟩ := (hhrs ⟨hb, hmod⟩).mp hh
        exact ⟨⟨⟨hb, hmod⟩, hmod'⟩, fun _ => hne, fun _ => hne'⟩
      · rintro ⟨hb, hne, hne'⟩
        refine ⟨⟨hb.1.1, (hmin hb.1.1).mpr ⟨hne (by omega), hb.1.2⟩⟩, ?_⟩
        exact (hhrs hb.1).mpr ⟨hne' (by omega), hb.2⟩

theorem get_advance_of_serviced {b : Build} {c : Clk} {w : Wheel}
    (h : serviced b (c.advance b) w = true) : (c.advance b).get w = c.get w + 1 :=
  get_advance_of_boundary ((serviced_advance_iff b c w).mp h).1

/-! ## All that one tick can do to the counters -/

/-- The counter `x` with carry modulus `m` becomes `x'` without a carry. -/
def Counts (m x x' : Nat) : Prop := x' = x + 1 ∧ x' % m = x % m + 1 ∧ x % m + 1 < m

/-- The counter `x` becomes `x'` and carries: either it has completed its
modulus, or it has wrapped to zero inside an unfinished one. -/
def Carries (m x x' : Nat) : Prop :=
  x' % m = 0 ∧ (x' = x + 1 ∧ x % m + 1 = m ∨ x' = 0 ∧ x + 1 = 2 ^ 32 ∧ x % m + 1 < m)

theorem counts_or_carries {m x : Nat} (hm : m = 50 ∨ m = 100 ∨ m = 60) (hx : x < 2 ^ 32) :
    (¬ (x + 1) % 2 ^ 32 % m = 0 ∧ Counts m x ((x + 1) % 2 ^ 32)) ∨
      ((x + 1) % 2 ^ 32 % m = 0 ∧ Carries m x ((x + 1) % 2 ^ 32)) := by
  unfold Counts Carries
  by_cases hwrap : x + 1 = 2 ^ 32
  · rw [hwrap]
    rcases hm with rfl | rfl | rfl <;> omega
  · rw [Nat.mod_eq_of_lt (show x + 1 < 2 ^ 32 by omega)]
    rcases hm with rfl | rfl | rfl <;> omega

theorem tick_cases (b : Build) (c : Clk) :
    (¬ SecBoundary b c ∧ ¬ MinBoundary b c ∧ ¬ HrBoundary b c ∧
        Counts (tps b) c.tick.toNat (c.advance b).tick.toNat ∧
        (c.advance b).sec = c.sec ∧ (c.advance b).min = c.min) ∨
      (SecBoundary b c ∧ ¬ MinBoundary b c ∧ ¬ HrBoundary b c ∧
        Carries (tps b) c.tick.toNat (c.advance b).tick.toNat ∧
        Counts 60 c.sec.toNat (c.advance b).sec.toNat ∧ (c.advance b).min = c.min) ∨
      (SecBoundary b c ∧ MinBoundary b c ∧ ¬ HrBoundary b c ∧
        Carries (tps b) c.tick.toNat (c.advance b).tick.toNat ∧
        Carries 60 c.sec.toNat (c.advance b).sec.toNat ∧
        Counts 60 c.min.toNat (c.advance b).min.toNat) ∨
      (SecBoundary b c ∧ MinBoundary b c ∧ HrBoundary b c ∧
        Carries (tps b) c.tick.toNat (c.advance b).tick.toNat ∧
        Carries 60 c.sec.toNat (c.advance b).sec.toNat ∧
        Carries 60 c.min.toNat (c.advance b).min.toNat) := by
  classical
  have htps : tps b = 50 ∨ tps b = 100 ∨ tps b = 60 := by
    rcases tps_cases b with h | h <;> omega
  have htick := counts_or_carries htps c.tick.isLt
  have hsec := counts_or_carries (m := 60) (by omega) c.sec.isLt
  have hmin := counts_or_carries (m := 60) (by omega) c.min.isLt
  rw [advance_tick, advance_sec, advance_min, toNat_succ]
  unfold HrBoundary MinBoundary SecBoundary
  rcases htick with ⟨h1, htick⟩ | ⟨h1, htick⟩
  · exact Or.inl ⟨h1, fun h => h1 h.1, fun h => h1 h.1.1, htick, if_neg h1, if_neg fun h => h1 h.1⟩
  · rcases hsec with ⟨h2, hsec⟩ | ⟨h2, hsec⟩
    · refine Or.inr (Or.inl ⟨h1, fun h => h2 h.2, fun h => h2 h.1.2, htick, ?_, ?_⟩)
      · rw [if_pos h1, toNat_succ]
        exact hsec
      · exact if_neg fun h => h2 h.2
    · rcases hmin with ⟨h3, hmin⟩ | ⟨h3, hmin⟩
      · refine Or.inr (Or.inr (Or.inl ⟨h1, ⟨h1, h2⟩, fun h => h3 h.2, htick, ?_, ?_⟩))
        · rw [if_pos h1, toNat_succ]
          exact hsec
        · rw [if_pos ⟨h1, h2⟩, toNat_succ]
          exact hmin
      · refine Or.inr (Or.inr (Or.inr ⟨h1, ⟨h1, h2⟩, ⟨⟨h1, h2⟩, h3⟩, htick, ?_, ?_⟩))
        · rw [if_pos h1, toNat_succ]
          exact hsec
        · rw [if_pos ⟨h1, h2⟩, toNat_succ]
          exact hmin

/-! ## The counters up to the first wrap -/

/-- The clock after `n` more calls of `update_times`. -/
def Clk.after (b : Build) (c : Clk) : Nat → Clk
  | 0 => c
  | n + 1 => (c.after b n).advance b

theorem Clk.after_succ (b : Build) (c : Clk) (n : Nat) :
    c.after b (n + 1) = (c.advance b).after b n := by
  induction n with
  | zero => rfl
  | succ n ih => exact congrArg (Clk.advance b) ih

theorem Clk.after_tick (b : Build) (c : Clk) (n : Nat) :
    (c.after b n).tick = c.tick + BitVec.ofNat 32 n := by
  induction n with
  | zero => simp [Clk.after]
  | succ n ih =>
      rw [Clk.after, advance_tick, ih, BitVec.add_assoc, BitVec.ofNat_add]
      rfl

/-- The clock after `n` calls of `update_times` from zero. -/
def clkAfter (b : Build) (n : Nat) : Clk := Clk.zero.after b n

theorem clkAfter_toNat (b : Build) (n : Nat) (hn : n < 2 ^ 32) :
    (clkAfter b n).tick.toNat = n ∧
      (clkAfter b n).sec.toNat = n / tps b ∧
      (clkAfter b n).min.toNat = n / tps b / 60 ∧
      (clkAfter b n).hrs.toNat = n / tps b / 60 / 60 := by
  classical
  have htps := tps_cases b
  induction n with
  | zero => simp [clkAfter, Clk.after, Clk.zero]
  | succ n ih =>
      obtain ⟨htick, hsec, hmin, hhrs⟩ := ih (by omega)
      have hsecFit : n / tps b + 1 < 2 ^ 32 := by
        rcases htps with h | h <;> rw [h] <;> omega
      have hminFit : n / tps b / 60 + 1 < 2 ^ 32 := by
        rcases htps with h | h <;> rw [h] <;> omega
      -- below the first wrap every test is a test on the exact counter
      have hb1 : SecBoundary b (clkAfter b n) ↔ (n + 1) % tps b = 0 := by
        unfold SecBoundary
        rw [htick, Nat.mod_eq_of_lt hn]
      have hb2 : MinBoundary b (clkAfter b n) ↔
          (n + 1) % tps b = 0 ∧ (n / tps b + 1) % 60 = 0 := by
        unfold MinBoundary
        rw [hb1, hsec, Nat.mod_eq_of_lt hsecFit]
      have hb3 : HrBoundary b (clkAfter b n) ↔
          ((n + 1) % tps b = 0 ∧ (n / tps b + 1) % 60 = 0) ∧ (n / tps b / 60 + 1) % 60 = 0 := by
        unfold HrBoundary
        rw [hb2, hmin, Nat.mod_eq_of_lt hminFit]
      show ((clkAfter b n).advance b).tick.toNat = n + 1 ∧
        ((clkAfter b n).advance b).sec.toNat = (n + 1) / tps b ∧
        ((clkAfter b n).advance b).min.toNat = (n + 1) / tps b / 60 ∧
        ((clkAfter b n).advance b).hrs.toNat = (n + 1) / tps b / 60 / 60
      rw [advance_tick, advance_sec, advance_min, advance_hrs]
      simp only [apply_ite BitVec.toNat, toNat_succ, htick, hsec, hmin, hhrs, hb1, hb2, hb3]
      rcases htps with h | h <;> rw [h] <;> refine ⟨by omega, ?_, ?_, ?_⟩ <;>
        split_ifs <;> omega

end Timers
end TmULThreads
