import TmULThreads.Timers.Cascade

/-!
# Arming a timer

`start_timer` packs a number of ticks into the time word and places the node
by its highest field.  This module computes, from the clock at that moment,
when the cascade of such a node ends.

* The wheel chosen for `d` ticks is the coarsest one whose unit is at most `d`,
  and the cascade takes `d` ticks less the phase of that wheel
  (`unit_of_arm`, `due_of_arm`).
* The node expires after exactly `d` ticks if and only if the clock stands on
  a boundary of that unit and no finer counter wraps on the way, which is
  `ArmedOnBoundary` (`expiresAt_arm_iff`).
* In the first lap of the counters the phase is the number of ticks since the
  start of the machine modulo the unit (`expiresAt_firstLap`).
-/

namespace TmULThreads
namespace Timers

/-- The ticks that the hour field of the time word can hold. -/
def maxTicks (b : Build) : Nat := 1024 * 3600 * tps b

theorem packCtime_eq_zero_iff (b : Build) (ticks : U32) :
    packCtime b ticks = 0 ↔ ticks.toNat % maxTicks b = 0 := by
  have hpack := toNat_packCtime b ticks
  rw [← BitVec.toNat_inj, show BitVec.toNat (0 : U32) = 0 from rfl]
  unfold maxTicks
  rcases tps_cases b with htps | htps <;> rw [htps] at hpack ⊢ <;> omega

/-- The coarsest unit that does not exceed `d` ticks. -/
def coarsestUnit (b : Build) (d : Nat) : Nat :=
  if 3600 * tps b ≤ d then 3600 * tps b
  else if 60 * tps b ≤ d then 60 * tps b
  else if tps b ≤ d then tps b
  else 1

/-- Every counter that the cascade of `d` ticks drops to stands at the start of
its unit and has room for the units still to come. -/
def ArmedOnBoundary (b : Build) (c : Clk) (d : Nat) : Prop :=
  (tps b ≤ d → c.tick.toNat % tps b = 0 ∧ c.tick.toNat + d / tps b * tps b < 2 ^ 32) ∧
    (60 * tps b ≤ d →
      c.sec.toNat % 60 = 0 ∧ c.sec.toNat + d / tps b / 60 * 60 < 2 ^ 32) ∧
    (3600 * tps b ≤ d →
      c.min.toNat % 60 = 0 ∧ c.min.toNat + d / tps b / 60 / 60 * 60 < 2 ^ 32)

instance (b : Build) (c : Clk) (d : Nat) : Decidable (ArmedOnBoundary b c d) :=
  inferInstanceAs (Decidable (_ ∧ _ ∧ _))

/-! ## The digits of the packed word -/

/-- The four fields are the digits of `d`; no hour is lost below `maxTicks`. -/
theorem field_packCtime_hrs {b : Build} {d : U32} (hd : d.toNat < maxTicks b) :
    field .hrs (packCtime b d) = d.toNat / tps b / 60 / 60 := by
  obtain ⟨-, -, -, hhrs⟩ := field_packCtime b d
  rw [hhrs]
  apply Nat.mod_eq_of_lt
  unfold maxTicks at hd
  rcases tps_cases b with h | h <;> rw [h] at hd ⊢ <;> omega

theorem upto_packCtime (b : Build) (d : U32) :
    upto b (packCtime b d) .tick = d.toNat % tps b ∧
      upto b (packCtime b d) .sec = d.toNat % (60 * tps b) ∧
      upto b (packCtime b d) .min = d.toNat % (3600 * tps b) := by
  obtain ⟨htick, hsec, hmin, -⟩ := field_packCtime b d
  simp only [upto, low, unit, htick, hsec, hmin]
  rcases tps_cases b with h | h <;> rw [h] <;> omega

theorem upto_packCtime_hrs {b : Build} {d : U32} (hd : d.toNat < maxTicks b) :
    upto b (packCtime b d) .hrs = d.toNat := by
  obtain ⟨htick, hsec, hmin, -⟩ := field_packCtime b d
  simp only [upto, low, unit, htick, hsec, hmin, field_packCtime_hrs hd]
  rcases tps_cases b with h | h <;> rw [h] <;> omega

variable {b : Build} {c : Clk} {d : U32} {p : Pending}

/-- A positive duration is always placed. -/
theorem exists_arm (b : Build) (c : Clk) {d : U32} (hpos : 0 < d.toNat)
    (hd : d.toNat < maxTicks b) : ∃ p, place c (packCtime b d) = some p := by
  cases h : place c (packCtime b d) with
  | some p => exact ⟨p, rfl⟩
  | none =>
      have hzero := upto_packCtime_hrs hd
      rw [(place_eq_none_iff _ _).mp h] at hzero
      simp only [upto, low, field_zero, Nat.zero_mul, Nat.add_zero] at hzero
      omega

/-- Which wheel is chosen, by comparing `d` with the units. -/
theorem wheel_of_arm (h : place c (packCtime b d) = some p) (hd : d.toNat < maxTicks b) :
    (p.wheel = .hrs ↔ 3600 * tps b ≤ d.toNat) ∧
      (p.wheel = .min ↔ 60 * tps b ≤ d.toNat ∧ d.toNat < 3600 * tps b) ∧
      (p.wheel = .sec ↔ tps b ≤ d.toNat ∧ d.toNat < 60 * tps b) ∧
      (p.wheel = .tick ↔ d.toNat < tps b) := by
  obtain ⟨-, -, hne, habove⟩ := place_eq_some h
  have hhrs := field_packCtime_hrs hd
  obtain ⟨htick, hsec, hmin, -⟩ := field_packCtime b d
  have htps := tps_cases b
  generalize tps b = n at *
  cases hw : p.wheel <;> rw [hw] at hne habove <;>
    simp only [htick, hsec, hmin, hhrs] at hne
  · have hz1 := habove .sec (by decide)
    have hz2 := habove .min (by decide)
    have hz3 := habove .hrs (by decide)
    rw [hsec] at hz1
    rw [hmin] at hz2
    rw [hhrs] at hz3
    rcases htps with rfl | rfl <;>
      refine ⟨⟨nofun, ?_⟩, ⟨nofun, ?_⟩, ⟨nofun, ?_⟩, ⟨fun _ => ?_, fun _ => rfl⟩⟩ <;> omega
  · have hz2 := habove .min (by decide)
    have hz3 := habove .hrs (by decide)
    rw [hmin] at hz2
    rw [hhrs] at hz3
    rcases htps with rfl | rfl <;>
      refine ⟨⟨nofun, ?_⟩, ⟨nofun, ?_⟩, ⟨fun _ => ?_, fun _ => rfl⟩, ⟨nofun, ?_⟩⟩ <;> omega
  · have hz3 := habove .hrs (by decide)
    rw [hhrs] at hz3
    rcases htps with rfl | rfl <;>
      refine ⟨⟨nofun, ?_⟩, ⟨fun _ => ?_, fun _ => rfl⟩, ⟨nofun, ?_⟩, ⟨nofun, ?_⟩⟩ <;> omega
  · rcases htps with rfl | rfl <;>
      refine ⟨⟨fun _ => ?_, fun _ => rfl⟩, ⟨nofun, ?_⟩, ⟨nofun, ?_⟩, ⟨nofun, ?_⟩⟩ <;> omega

theorem unit_of_arm (h : place c (packCtime b d) = some p) (hd : d.toNat < maxTicks b) :
    unit b p.wheel = coarsestUnit b d.toNat := by
  obtain ⟨hhrs, hmin, hsec, htick⟩ := wheel_of_arm h hd
  unfold coarsestUnit
  cases hw : p.wheel with
  | tick =>
      have := htick.mp hw
      rw [if_neg (by omega), if_neg (by omega), if_neg (by omega)]
      rfl
  | sec =>
      have := hsec.mp hw
      rw [if_neg (by omega), if_neg (by omega), if_pos (by omega)]
      rfl
  | min =>
      have := hmin.mp hw
      rw [if_neg (by omega), if_pos (by omega)]
      rfl
  | hrs =>
      rw [if_pos (hhrs.mp hw)]
      rfl

theorem due_of_arm (h : place c (packCtime b d) = some p) (hd : d.toNat < maxTicks b) :
    p.due b c = d.toNat - phase b c p.wheel := by
  rw [due_of_place h, upto_packCtime_hrs hd]

/-- A phase is zero when every finer counter is at the start of its unit. -/
theorem phase_eq_zero_iff (b : Build) (c : Clk) (w : Wheel) :
    phase b c w = 0 ↔
      (0 < w.rank → c.tick.toNat % tps b = 0) ∧ (1 < w.rank → c.sec.toNat % 60 = 0) ∧
        (2 < w.rank → c.min.toNat % 60 = 0) := by
  have htps := tps_cases b
  cases w <;> simp only [phase, Wheel.rank] <;> generalize c.tick.toNat % tps b = r <;>
    generalize tps b = n at *
  · simp
  all_goals rcases htps with rfl | rfl <;> omega

/-- On a boundary, the counter `v` reaches the last whole unit below `d`. -/
theorem atDrop_of_arm (h : place c (packCtime b d) = some p) (hd : d.toNat < maxTicks b)
    (hphase : phase b c p.wheel = 0) :
    (0 < p.wheel.rank →
        p.atDrop b c .tick = c.tick.toNat + d.toNat / tps b * tps b) ∧
      (1 < p.wheel.rank →
        p.atDrop b c .sec = c.sec.toNat + d.toNat / tps b / 60 * 60) ∧
      (2 < p.wheel.rank →
        p.atDrop b c .min = c.min.toNat + d.toNat / tps b / 60 / 60 * 60) := by
  obtain ⟨htick, hsec, hmin⟩ := upto_packCtime b d
  obtain ⟨hz1, hz2, -⟩ := (phase_eq_zero_iff b c p.wheel).mp hphase
  have hdue : p.due b c = d.toNat := by
    rw [due_of_arm h hd, hphase, Nat.sub_zero]
  simp only [Pending.atDrop, hdue, (place_eq_some h).1, htick, hsec, hmin, phase, unit, Clk.get]
  have htps := tps_cases b
  refine ⟨fun _ => ?_, fun hr => ?_, fun hr => ?_⟩
  · rcases htps with h | h <;> rw [h] <;> omega
  · rw [hz1 (by omega)]
    rcases htps with h | h <;> rw [h] <;> omega
  · rw [hz1 (by omega), hz2 (by omega)]
    rcases htps with h | h <;> rw [h] <;> omega

theorem fits_iff (b : Build) (c : Clk) (p : Pending) :
    p.Fits b c ↔
      (0 < p.wheel.rank → p.atDrop b c .tick < 2 ^ 32) ∧
        (1 < p.wheel.rank → p.atDrop b c .sec < 2 ^ 32) ∧
        (2 < p.wheel.rank → p.atDrop b c .min < 2 ^ 32) := by
  constructor
  · intro hf
    exact ⟨hf .tick, hf .sec, hf .min⟩
  · rintro ⟨htick, hsec, hmin⟩ v hv
    cases v with
    | tick => exact htick hv
    | sec => exact hsec hv
    | min => exact hmin hv
    | hrs =>
        have hle : p.wheel.rank ≤ Wheel.hrs.rank := by cases p.wheel <;> decide
        omega

theorem rank_of_arm (h : place c (packCtime b d) = some p) (hd : d.toNat < maxTicks b) :
    (0 < p.wheel.rank ↔ tps b ≤ d.toNat) ∧ (1 < p.wheel.rank ↔ 60 * tps b ≤ d.toNat) ∧
      (2 < p.wheel.rank ↔ 3600 * tps b ≤ d.toNat) := by
  obtain ⟨hhrs, hmin, hsec, htick⟩ := wheel_of_arm h hd
  have htps := tps_cases b
  cases hw : p.wheel with
  | tick =>
      have := htick.mp hw
      simp only [Wheel.rank]
      omega
  | sec =>
      have := hsec.mp hw
      simp only [Wheel.rank]
      omega
  | min =>
      have := hmin.mp hw
      simp only [Wheel.rank]
      omega
  | hrs =>
      have := hhrs.mp hw
      simp only [Wheel.rank]
      omega

/-- A node armed for `d` ticks expires on the `d`-th tick exactly when it was
armed on a boundary. -/
theorem expiresAt_arm_iff (h : place c (packCtime b d) = some p) (hpos : 0 < d.toNat)
    (hd : d.toNat < maxTicks b) :
    p.expiresAt b c d.toNat ↔ ArmedOnBoundary b c d.toNat := by
  have hdue := due_of_arm h hd
  rw [Pending.expiresAt_iff (place_valid h) (by omega) d.isLt]
  have hphase : p.due b c = d.toNat ↔ phase b c p.wheel = 0 := by
    rw [hdue]
    omega
  rw [hphase]
  obtain ⟨hr0, hr1, hr2⟩ := rank_of_arm h hd
  -- with the phase zero, `Fits` is the room of the counters in `ArmedOnBoundary`
  have hroom (hz : phase b c p.wheel = 0) :
      p.Fits b c ↔
        (tps b ≤ d.toNat → c.tick.toNat + d.toNat / tps b * tps b < 2 ^ 32) ∧
          (60 * tps b ≤ d.toNat → c.sec.toNat + d.toNat / tps b / 60 * 60 < 2 ^ 32) ∧
          (3600 * tps b ≤ d.toNat →
            c.min.toNat + d.toNat / tps b / 60 / 60 * 60 < 2 ^ 32) := by
    obtain ⟨ht, hs, hm⟩ := atDrop_of_arm h hd hz
    rw [fits_iff, ← hr0, ← hr1, ← hr2]
    refine and_congr ?_ (and_congr ?_ ?_)
    · exact forall_congr' fun hr => by rw [ht hr]
    · exact forall_congr' fun hr => by rw [hs hr]
    · exact forall_congr' fun hr => by rw [hm hr]
  have hzero := phase_eq_zero_iff b c p.wheel
  rw [hr0, hr1, hr2] at hzero
  unfold ArmedOnBoundary
  constructor
  · rintro ⟨hz, hf⟩
    obtain ⟨hf1, hf2, hf3⟩ := (hroom hz).mp hf
    obtain ⟨hz1, hz2, hz3⟩ := hzero.mp hz
    exact ⟨fun hle => ⟨hz1 hle, hf1 hle⟩, fun hle => ⟨hz2 hle, hf2 hle⟩,
      fun hle => ⟨hz3 hle, hf3 hle⟩⟩
  · rintro ⟨h1, h2, h3⟩
    have hz := hzero.mpr ⟨fun hle => (h1 hle).1, fun hle => (h2 hle).1, fun hle => (h3 hle).1⟩
    exact ⟨hz, (hroom hz).mpr
      ⟨fun hle => (h1 hle).2, fun hle => (h2 hle).2, fun hle => (h3 hle).2⟩⟩

/-! ## The first lap of the counters -/

theorem phase_clkAfter (b : Build) {n : Nat} (hn : n < 2 ^ 32) (w : Wheel) :
    phase b (clkAfter b n) w = n % unit b w := by
  obtain ⟨htick, hsec, hmin, -⟩ := clkAfter_toNat b n hn
  have htps := tps_cases b
  cases w <;> simp only [phase, unit, htick, hsec, hmin]
  · omega
  all_goals rcases htps with h | h <;> rw [h] <;> omega

/-- Before the tick counter has wrapped, a node armed at tick `n` for `d` ticks
expires on tick `n - n % unit + d`. -/
theorem expiresAt_firstLap {n : Nat} (h : place (clkAfter b n) (packCtime b d) = some p)
    (hd : d.toNat < maxTicks b) (hn : n + d.toNat < 2 ^ 32) :
    p.expiresAt b (clkAfter b n) (d.toNat - n % coarsestUnit b d.toNat) := by
  have hlap : n < 2 ^ 32 := by omega
  have hdue : p.due b (clkAfter b n) = d.toNat - n % coarsestUnit b d.toNat := by
    rw [due_of_arm h hd, phase_clkAfter b hlap, unit_of_arm h hd]
  rw [← hdue]
  refine Pending.expiresAt_due (place_valid h) ?_
  intro v hv
  obtain ⟨htick, hsec, hmin, hhrs⟩ := clkAfter_toNat b n hlap
  have hphase := phase_clkAfter b hlap v
  have htps := tps_cases b
  unfold Pending.atDrop
  rw [hphase, hdue]
  -- the counter moves by at most the units in `n + d`, and one more for the phase
  cases v <;> simp only [unit, Clk.get, htick, hsec, hmin, hhrs]
  · rw [Nat.mod_one, Nat.div_one]
    omega
  all_goals
    generalize n % coarsestUnit b d.toNat = k
    generalize upto b p.ctime _ = u
    rcases htps with h | h <;> rw [h] <;> omega

end Timers
end TmULThreads
