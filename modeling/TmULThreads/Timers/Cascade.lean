import TmULThreads.Timers.Clock

/-!
# One pending timer in the cascade

What happens to one pending timer depends on the clock alone: when the
counter of its wheel reaches `rt` on a serviced tick, the field of that wheel
is cleared and the timer is placed again by the highest field that is left, or
expires when nothing is left.  `Pending.step` is this automaton.

The module answers how many ticks the cascade takes.

* `due` is the number of ticks that the cascade will take if no counter wraps:
  whole units of the wheel, less the part of the current unit that has already
  gone by (`phase`), plus the lower fields.
* A tick is `Smooth` for a wheel when no finer counter wraps to zero inside an
  unfinished unit.  Each tick lowers `due` by at least one, and by exactly one
  when it is smooth.
* `Fits` says that no finer counter wraps before the timer has left its wheel,
  and holds exactly when the next tick is smooth and `Fits` holds after it.
* Hence a timer expires exactly `due` ticks later when `Fits` holds, and
  strictly earlier, or not for the next `2 ^ 32` ticks, when it does not
  (`expiresAt_due`, `expiresAt_le`).
-/

namespace TmULThreads
namespace Timers

/-- What decides the future of a timer node: its wheel, the counter value it
waits for, and its time word. -/
structure Pending where
  wheel : Wheel
  rt : U32
  ctime : U32
  deriving DecidableEq, Repr

/-- The choice of `find_tmr_slot_and_place` for a time word at a clock. -/
def place (c : Clk) (ct : U32) : Option Pending :=
  match findSlot ct with
  | none => none
  | some (w, t) => some ⟨w, c.get w + t, ct⟩

namespace Pending

/-- The node is met by the scan of its wheel at this clock. -/
def isDue (b : Build) (c : Clk) (p : Pending) : Bool :=
  serviced b c p.wheel && p.rt == c.get p.wheel

/-- The node after a tick that has brought the clock to `c`; `none` when it
has expired. -/
def step (b : Build) (c : Clk) (p : Pending) : Option Pending :=
  if p.isDue b c then place c (clearWheel p.wheel p.ctime) else some p

/-- The timer expires on the `k`-th tick after the clock stood at `c`. -/
def expiresAt (b : Build) : Clk → Pending → Nat → Prop
  | _, _, 0 => False
  | c, p, k + 1 =>
      match p.step b (c.advance b) with
      | none => k = 0
      | some p' => expiresAt b (c.advance b) p' k

/-- Counter steps that are still missing to `rt`. -/
def gap (c : Clk) (p : Pending) : Nat := (p.rt - c.get p.wheel).toNat

/-- A node as the arming functions leave it: still ahead of its counter, with
nothing left in the fields above its wheel. -/
structure Valid (c : Clk) (p : Pending) : Prop where
  gap_pos : 0 < p.gap c
  above : ∀ v, p.wheel.rank < v.rank → field v p.ctime = 0

end Pending

/-- Ticks in one step of a counter. -/
def unit (b : Build) : Wheel → Nat
  | .tick => 1
  | .sec => tps b
  | .min => 60 * tps b
  | .hrs => 3600 * tps b

/-- Ticks in the fields below a wheel. -/
def low (b : Build) (ct : U32) : Wheel → Nat
  | .tick => 0
  | .sec => field .tick ct
  | .min => field .sec ct * tps b + field .tick ct
  | .hrs => field .min ct * (60 * tps b) + field .sec ct * tps b + field .tick ct

/-- Ticks in the fields up to a wheel. -/
def upto (b : Build) (ct : U32) (w : Wheel) : Nat :=
  field w ct * unit b w + low b ct w

/-- The part of the current unit of a wheel that the finer counters say has
already gone by. -/
def phase (b : Build) (c : Clk) : Wheel → Nat
  | .tick => 0
  | .sec => c.tick.toNat % tps b
  | .min => c.sec.toNat % 60 * tps b + c.tick.toNat % tps b
  | .hrs => c.min.toNat % 60 * (60 * tps b) + c.sec.toNat % 60 * tps b + c.tick.toNat % tps b

/-- The next tick wraps no counter finer than the wheel inside an unfinished
unit. -/
def Smooth (b : Build) (c : Clk) : Wheel → Prop
  | .tick => True
  | .sec => SecBoundary b c → c.tick.toNat + 1 < 2 ^ 32
  | .min => (SecBoundary b c → c.tick.toNat + 1 < 2 ^ 32) ∧
      (MinBoundary b c → c.sec.toNat + 1 < 2 ^ 32)
  | .hrs => (SecBoundary b c → c.tick.toNat + 1 < 2 ^ 32) ∧
      (MinBoundary b c → c.sec.toNat + 1 < 2 ^ 32) ∧
      (HrBoundary b c → c.min.toNat + 1 < 2 ^ 32)

namespace Pending

/-- Ticks until expiry if no counter wraps on the way. -/
def due (b : Build) (c : Clk) (p : Pending) : Nat :=
  p.gap c * unit b p.wheel + low b p.ctime p.wheel - phase b c p.wheel

/-- Where the counter `v` will stand when the timer drops to the wheel `v`, if
no counter wraps on the way. -/
def atDrop (b : Build) (c : Clk) (p : Pending) (v : Wheel) : Nat :=
  (c.get v).toNat + (p.due b c - upto b p.ctime v + phase b c v) / unit b v

/-- No counter finer than the wheel wraps before the timer has left it. -/
def Fits (b : Build) (c : Clk) (p : Pending) : Prop :=
  ∀ v, v.rank < p.wheel.rank → p.atDrop b c v < 2 ^ 32

end Pending

theorem unit_pos (b : Build) (w : Wheel) : 0 < unit b w := by
  have htps := tps_cases b
  cases w <;> simp only [unit] <;> omega

/-! ## The phase of a wheel over one tick -/

theorem phase_lt_unit (b : Build) (c : Clk) (w : Wheel) : phase b c w < unit b w := by
  have htps := tps_cases b
  have hT : c.tick.toNat % tps b < tps b := Nat.mod_lt _ (by omega)
  have hS : c.sec.toNat % 60 < 60 := Nat.mod_lt _ (by omega)
  have hM : c.min.toNat % 60 < 60 := Nat.mod_lt _ (by omega)
  generalize c.tick.toNat % tps b = r at *
  cases w <;> simp only [phase, unit] <;> rcases htps with h | h <;> simp only [h] at * <;> omega

/-- Inside a unit the phase grows, by one exactly when the tick is smooth. -/
theorem phase_advance_of_not_boundary {b : Build} {c : Clk} {w : Wheel}
    (h : ¬ boundary b c w) :
    phase b c w + 1 ≤ phase b (c.advance b) w ∧
      (phase b c w + 1 = phase b (c.advance b) w ↔ Smooth b c w) := by
  have htps := tps_cases b
  cases w with
  | tick => exact absurd trivial h
  | sec =>
      have hsmooth : Smooth b c .sec := fun h1 => absurd h1 h
      rcases tick_cases b c with ⟨h1, -, -, hT, -⟩ | ⟨h1, -⟩ | ⟨h1, -⟩ | ⟨h1, -⟩
      · obtain ⟨-, hT, -⟩ := hT
        simp only [phase, hsmooth, iff_true]
        omega
      all_goals exact absurd h1 h
  | min =>
      rcases tick_cases b c with ⟨h1, -, -, hT, hS, -⟩ | ⟨h1, -, -, hT, hS, -⟩ | ⟨-, h2, -⟩ |
        ⟨-, h2, -⟩
      · obtain ⟨-, hT, -⟩ := hT
        have hsmooth : Smooth b c .min := ⟨fun h1' => absurd h1' h1, fun h2 => absurd h2 h⟩
        simp only [phase, hsmooth, iff_true, hS]
        omega
      · obtain ⟨hT0, hT⟩ := hT
        obtain ⟨-, hS, -⟩ := hS
        have hsmooth : Smooth b c .min ↔ c.tick.toNat + 1 < 2 ^ 32 :=
          ⟨fun hs => hs.1 h1, fun hs => ⟨fun _ => hs, fun h2 => absurd h2 h⟩⟩
        simp only [phase, hsmooth, hT0, hS]
        generalize c.tick.toNat % tps b = r at *
        generalize c.sec.toNat % 60 = s at *
        generalize tps b = n at *
        have hTlt := (c.advance b).tick.isLt
        rcases htps with rfl | rfl <;> omega
      all_goals exact absurd h2 h
  | hrs =>
      rcases tick_cases b c with ⟨h1, h2, -, hT, hS, hM⟩ | ⟨h1, h2, -, hT, hS, hM⟩ |
        ⟨h1, h2, -, hT, hS, hM⟩ | ⟨-, -, h3, -⟩
      · obtain ⟨-, hT, -⟩ := hT
        have hsmooth : Smooth b c .hrs :=
          ⟨fun h1' => absurd h1' h1, fun h2' => absurd h2' h2, fun h3 => absurd h3 h⟩
        simp only [phase, hsmooth, iff_true, hS, hM]
        omega
      · obtain ⟨hT0, hT⟩ := hT
        obtain ⟨-, hS, -⟩ := hS
        have hsmooth : Smooth b c .hrs ↔ c.tick.toNat + 1 < 2 ^ 32 :=
          ⟨fun hs => hs.1 h1,
            fun hs => ⟨fun _ => hs, fun h2' => absurd h2' h2, fun h3 => absurd h3 h⟩⟩
        simp only [phase, hsmooth, hT0, hS, hM]
        generalize c.tick.toNat % tps b = r at *
        generalize c.sec.toNat % 60 = s at *
        generalize c.min.toNat % 60 = m at *
        generalize tps b = n at *
        have hTlt := (c.advance b).tick.isLt
        rcases htps with rfl | rfl <;> omega
      · obtain ⟨hT0, hT⟩ := hT
        obtain ⟨hS0, hS⟩ := hS
        obtain ⟨-, hM, -⟩ := hM
        have hsmooth : Smooth b c .hrs ↔ c.tick.toNat + 1 < 2 ^ 32 ∧ c.sec.toNat + 1 < 2 ^ 32 :=
          ⟨fun hs => ⟨hs.1 h1, hs.2.1 h2⟩,
            fun hs => ⟨fun _ => hs.1, fun _ => hs.2, fun h3 => absurd h3 h⟩⟩
        simp only [phase, hsmooth, hT0, hS0, hM]
        have hTlt := (c.advance b).tick.isLt
        have hSlt := (c.advance b).sec.isLt
        generalize c.tick.toNat % tps b = r at *
        generalize c.sec.toNat % 60 = s at *
        generalize c.min.toNat % 60 = m at *
        generalize tps b = n at *
        rcases htps with rfl | rfl <;> omega
      · exact absurd h3 h

/-- On a boundary the phase starts again, and the unit was complete exactly
when the tick is smooth. -/
theorem phase_advance_of_boundary {b : Build} {c : Clk} {w : Wheel} (h : boundary b c w) :
    phase b (c.advance b) w = 0 ∧ (phase b c w + 1 = unit b w ↔ Smooth b c w) := by
  have htps := tps_cases b
  have hT' := (c.advance b).tick.isLt
  have hS' := (c.advance b).sec.isLt
  have hM' := (c.advance b).min.isLt
  cases w with
  | tick => exact ⟨rfl, by simp [phase, unit, Smooth]⟩
  | sec =>
      have hT : Carries (tps b) c.tick.toNat (c.advance b).tick.toNat := by
        rcases tick_cases b c with ⟨h1, -⟩ | ⟨-, -, -, hT, -⟩ | ⟨-, -, -, hT, -⟩ | ⟨-, -, -, hT, -⟩
        · exact absurd h h1
        all_goals exact hT
      obtain ⟨hT0, hT⟩ := hT
      have hsmooth : Smooth b c .sec ↔ c.tick.toNat + 1 < 2 ^ 32 :=
        ⟨fun hs => hs h, fun hs _ => hs⟩
      simp only [phase, unit, hsmooth, hT0, true_and]
      generalize c.tick.toNat % tps b = r at *
      omega
  | min =>
      have hTS : Carries (tps b) c.tick.toNat (c.advance b).tick.toNat ∧
          Carries 60 c.sec.toNat (c.advance b).sec.toNat := by
        rcases tick_cases b c with ⟨-, h2, -⟩ | ⟨-, h2, -⟩ | ⟨-, -, -, hT, hS, -⟩ |
          ⟨-, -, -, hT, hS, -⟩
        · exact absurd h h2
        · exact absurd h h2
        all_goals exact ⟨hT, hS⟩
      obtain ⟨⟨hT0, hT⟩, hS0, hS⟩ := hTS
      have hsmooth : Smooth b c .min ↔ c.tick.toNat + 1 < 2 ^ 32 ∧ c.sec.toNat + 1 < 2 ^ 32 :=
        ⟨fun hs => ⟨hs.1 h.1, hs.2 h⟩, fun hs => ⟨fun _ => hs.1, fun _ => hs.2⟩⟩
      simp only [phase, unit, hsmooth, hT0, hS0]
      generalize c.tick.toNat % tps b = r at *
      generalize c.sec.toNat % 60 = s at *
      generalize tps b = n at *
      rcases htps with rfl | rfl <;> omega
  | hrs =>
      have hTSM : Carries (tps b) c.tick.toNat (c.advance b).tick.toNat ∧
          Carries 60 c.sec.toNat (c.advance b).sec.toNat ∧
          Carries 60 c.min.toNat (c.advance b).min.toNat := by
        rcases tick_cases b c with ⟨-, -, h3, -⟩ | ⟨-, -, h3, -⟩ | ⟨-, -, h3, -⟩ | ⟨-, -, -, hC⟩
        · exact absurd h h3
        · exact absurd h h3
        · exact absurd h h3
        · exact hC
      obtain ⟨⟨hT0, hT⟩, ⟨hS0, hS⟩, hM0, hM⟩ := hTSM
      have hsmooth : Smooth b c .hrs ↔
          c.tick.toNat + 1 < 2 ^ 32 ∧ c.sec.toNat + 1 < 2 ^ 32 ∧ c.min.toNat + 1 < 2 ^ 32 :=
        ⟨fun hs => ⟨hs.1 h.1.1, hs.2.1 h.1, hs.2.2 h⟩,
          fun hs => ⟨fun _ => hs.1, fun _ => hs.2.1, fun _ => hs.2.2⟩⟩
      simp only [phase, unit, hsmooth, hT0, hS0, hM0]
      generalize c.tick.toNat % tps b = r at *
      generalize c.sec.toNat % 60 = s at *
      generalize c.min.toNat % 60 = m at *
      generalize tps b = n at *
      rcases htps with rfl | rfl <;> omega

/-- A smooth tick wraps no counter finer than the wheel. -/
theorem get_advance_of_smooth {b : Build} {c : Clk} {v w : Wheel} (hvw : v.rank < w.rank)
    (hs : Smooth b c w) (h : boundary b c v) :
    ((c.advance b).get v).toNat = (c.get v).toNat + 1 := by
  have hfit : (c.get v).toNat + 1 < 2 ^ 32 ∨ ((c.advance b).get v).toNat = (c.get v).toNat + 1 := by
    cases v with
    | tick =>
        have hsec : SecBoundary b c → c.tick.toNat + 1 < 2 ^ 32 := by
          cases w with
          | tick => exact absurd hvw (by decide)
          | sec => exact hs
          | min => exact hs.1
          | hrs => exact hs.1
        rcases tick_cases b c with ⟨-, -, -, hT, -⟩ | ⟨h1, -⟩ | ⟨h1, -⟩ | ⟨h1, -⟩
        · exact Or.inr hT.1
        all_goals exact Or.inl (hsec h1)
    | sec =>
        have hmin : MinBoundary b c → c.sec.toNat + 1 < 2 ^ 32 := by
          cases w with
          | tick => exact absurd hvw (by decide)
          | sec => exact absurd hvw (by decide)
          | min => exact hs.2
          | hrs => exact hs.2.1
        rcases tick_cases b c with ⟨h1, -⟩ | ⟨-, -, -, -, hS, -⟩ | ⟨-, h2, -⟩ | ⟨-, h2, -⟩
        · exact absurd h h1
        · exact Or.inr hS.1
        all_goals exact Or.inl (hmin h2)
    | min =>
        have hhrs : HrBoundary b c → c.min.toNat + 1 < 2 ^ 32 := by
          cases w with
          | tick => exact absurd hvw (by decide)
          | sec => exact absurd hvw (by decide)
          | min => exact absurd hvw (by decide)
          | hrs => exact hs.2.2
        rcases tick_cases b c with ⟨-, h2, -⟩ | ⟨-, h2, -⟩ | ⟨-, -, -, -, -, hM⟩ | ⟨-, -, h3, -⟩
        · exact absurd h h2
        · exact absurd h h2
        · exact Or.inr hM.1
        · exact Or.inl (hhrs h3)
    | hrs => cases w <;> exact absurd hvw (by decide)
  rcases hfit with hfit | hfit
  · rw [get_advance_of_boundary h, BitVec.toNat_add]
    exact Nat.mod_eq_of_lt hfit
  · exact hfit

theorem Smooth.mono {b : Build} {c : Clk} {v w : Wheel} (hvw : v.rank ≤ w.rank)
    (hs : Smooth b c w) : Smooth b c v := by
  cases v with
  | tick => trivial
  | sec =>
      cases w with
      | tick => exact absurd hvw (by decide)
      | sec => exact hs
      | min => exact hs.1
      | hrs => exact hs.1
  | min =>
      cases w with
      | tick => exact absurd hvw (by decide)
      | sec => exact absurd hvw (by decide)
      | min => exact hs
      | hrs => exact ⟨hs.1, hs.2.1⟩
  | hrs =>
      cases w with
      | hrs => exact hs
      | _ => exact absurd hvw (by decide)

/-! ## The remaining time over one tick -/

theorem upto_le_low {b : Build} {ct : U32} {v w : Wheel} (hvw : v.rank < w.rank) :
    upto b ct v ≤ low b ct w := by
  cases v <;> cases w <;> first | exact absurd hvw (by decide) | skip
  all_goals
    simp only [upto, low, unit]
    omega

namespace Pending

theorem gap_advance_of_boundary {b : Build} {c : Clk} {p : Pending} (hpos : 0 < p.gap c)
    (h : boundary b c p.wheel) : p.gap (c.advance b) + 1 = p.gap c := by
  unfold gap at *
  rw [get_advance_of_boundary h]
  bv_omega

theorem gap_advance_of_not_boundary {b : Build} {c : Clk} {p : Pending}
    (h : ¬ boundary b c p.wheel) : p.gap (c.advance b) = p.gap c := by
  unfold gap
  rw [get_advance_of_not_boundary h]

theorem rt_eq_iff (c : Clk) (p : Pending) : p.rt = c.get p.wheel ↔ p.gap c = 0 := by
  unfold gap
  bv_omega

theorem isDue_iff (b : Build) (c : Clk) (p : Pending) :
    p.isDue b c = true ↔ serviced b c p.wheel = true ∧ p.gap c = 0 := by
  unfold isDue
  rw [Bool.and_eq_true, beq_iff_eq, rt_eq_iff]

variable {b : Build} {c : Clk} {p : Pending}

theorem unit_le_gap_mul (hpos : 0 < p.gap c) : unit b p.wheel ≤ p.gap c * unit b p.wheel :=
  Nat.le_mul_of_pos_left _ hpos

theorem low_lt_due (hpos : 0 < p.gap c) : low b p.ctime p.wheel < p.due b c := by
  have hphase := phase_lt_unit b c p.wheel
  have hunit := unit_le_gap_mul (b := b) hpos
  unfold due
  omega

/-- A timer that stays in its wheel. -/
theorem due_advance (hpos : 0 < p.gap c) (hpos' : 0 < p.gap (c.advance b)) :
    p.due b (c.advance b) + 1 ≤ p.due b c ∧
      (p.due b (c.advance b) + 1 = p.due b c ↔ Smooth b c p.wheel) := by
  have hphase := phase_lt_unit b c p.wheel
  have hphase' := phase_lt_unit b (c.advance b) p.wheel
  have hunit := unit_le_gap_mul (b := b) hpos
  have hunit' := unit_le_gap_mul (b := b) hpos'
  unfold due
  by_cases h : boundary b c p.wheel
  · obtain ⟨hzero, hsmooth⟩ := phase_advance_of_boundary h
    have hgap : p.gap c * unit b p.wheel =
        p.gap (c.advance b) * unit b p.wheel + unit b p.wheel := by
      rw [← gap_advance_of_boundary hpos h, Nat.succ_mul]
    rw [← hsmooth, hzero]
    omega
  · obtain ⟨hle, hsmooth⟩ := phase_advance_of_not_boundary h
    rw [← hsmooth, gap_advance_of_not_boundary h]
    omega

/-- A timer that has reached the end of its wheel. -/
theorem due_of_drop (hpos : 0 < p.gap c) (hzero : p.gap (c.advance b) = 0) :
    boundary b c p.wheel ∧
      (low b p.ctime p.wheel + 1 = p.due b c ↔ Smooth b c p.wheel) := by
  have hb : boundary b c p.wheel := by
    by_contra h
    rw [gap_advance_of_not_boundary h] at hzero
    omega
  have hone : p.gap c = 1 := by
    rw [← gap_advance_of_boundary hpos hb, hzero]
  have hphase := phase_lt_unit b c p.wheel
  refine ⟨hb, ?_⟩
  rw [← (phase_advance_of_boundary hb).2]
  unfold due
  rw [hone]
  omega

/-- Over a smooth tick the expected counter positions do not move.  `d` is the
time that remains after the tick. -/
theorem atDrop_of_smooth {v : Wheel} {d : Nat} (hvw : v.rank < p.wheel.rank)
    (hs : Smooth b c p.wheel) (hd : d + 1 = p.due b c) (hle : upto b p.ctime v ≤ d) :
    p.atDrop b c v = ((c.advance b).get v).toNat +
      (d - upto b p.ctime v + phase b (c.advance b) v) / unit b v := by
  have hsv : Smooth b c v := hs.mono hvw.le
  unfold atDrop
  by_cases h : boundary b c v
  · obtain ⟨hzero, hunit⟩ := phase_advance_of_boundary h
    have hfull := hunit.mpr hsv
    rw [get_advance_of_smooth hvw hs h, hzero]
    have hsum : p.due b c - upto b p.ctime v + phase b c v =
        (d - upto b p.ctime v) + unit b v := by omega
    rw [hsum, Nat.add_div_right _ (unit_pos b v)]
    simp only [Nat.add_zero]
    omega
  · have hphase := (phase_advance_of_not_boundary h).2.mpr hsv
    rw [get_advance_of_not_boundary h]
    congr 2
    omega

/-- While the next counter `v` is smooth below itself, its own wrap would show
in the expected position. -/
theorem get_succ_lt_of_fits {v : Wheel} (hpos : 0 < p.gap c) (hvw : v.rank < p.wheel.rank)
    (hf : p.Fits b c) (hs : Smooth b c v) (h : boundary b c v) :
    (c.get v).toNat + 1 < 2 ^ 32 := by
  have hdrop := hf v hvw
  have hfull := (phase_advance_of_boundary h).2.mpr hs
  have hle : upto b p.ctime v ≤ low b p.ctime p.wheel := upto_le_low hvw
  have hlt := low_lt_due (b := b) hpos
  have hone : 1 ≤ (p.due b c - upto b p.ctime v + phase b c v) / unit b v :=
    (Nat.one_le_div_iff (unit_pos b v)).mpr (by omega)
  unfold atDrop at hdrop
  omega

theorem smooth_of_fits (hpos : 0 < p.gap c) (hf : p.Fits b c) : Smooth b c p.wheel := by
  -- from the finest counter upwards: each one is smooth once those below are
  have htick : 0 < p.wheel.rank → Smooth b c .sec := fun hw _ =>
    get_succ_lt_of_fits (v := .tick) hpos hw hf trivial trivial
  have hsec : 1 < p.wheel.rank → Smooth b c .min := fun hw =>
    ⟨htick (by omega),
      fun h2 => get_succ_lt_of_fits (v := .sec) hpos hw hf (htick (by omega)) h2.1⟩
  have hmin : 2 < p.wheel.rank → Smooth b c .hrs := fun hw =>
    ⟨(hsec (by omega)).1, (hsec (by omega)).2,
      fun h3 => get_succ_lt_of_fits (v := .min) hpos hw hf (hsec (by omega)) h3.1⟩
  cases hw : p.wheel with
  | tick => trivial
  | sec => exact htick (by rw [hw]; decide)
  | min => exact hsec (by rw [hw]; decide)
  | hrs => exact hmin (by rw [hw]; decide)

/-- `Fits` over a tick that leaves the timer in its wheel. -/
theorem fits_advance_iff (hpos : 0 < p.gap c) (hpos' : 0 < p.gap (c.advance b)) :
    p.Fits b c ↔ Smooth b c p.wheel ∧ p.Fits b (c.advance b) := by
  have hmove : Smooth b c p.wheel → ∀ v, v.rank < p.wheel.rank →
      p.atDrop b c v = p.atDrop b (c.advance b) v := by
    intro hs v hvw
    have hle : upto b p.ctime v ≤ low b p.ctime p.wheel := upto_le_low hvw
    have hlt := low_lt_due (b := b) hpos'
    exact atDrop_of_smooth hvw hs ((due_advance hpos hpos').2.mpr hs) (by omega)
  constructor
  · intro hf
    have hs := smooth_of_fits hpos hf
    refine ⟨hs, fun v hvw => ?_⟩
    rw [← hmove hs v hvw]
    exact hf v hvw
  · rintro ⟨hs, hf⟩ v hvw
    rw [hmove hs v hvw]
    exact hf v hvw

/-! ## Leaving a wheel -/

end Pending

theorem place_eq_some {c : Clk} {ct : U32} {p : Pending} (h : place c ct = some p) :
    p.ctime = ct ∧ p.gap c = field p.wheel ct ∧ field p.wheel ct ≠ 0 ∧
      ∀ v, p.wheel.rank < v.rank → field v ct = 0 := by
  unfold place at h
  split at h
  · cases h
  · rename_i w t hslot
    cases h
    obtain ⟨ht, hne, habove⟩ := (findSlot_eq_some_iff ct w t).mp hslot
    refine ⟨rfl, ?_, hne, habove⟩
    show (c.get w + t - c.get w).toNat = field w ct
    rw [BitVec.add_comm, BitVec.add_sub_cancel]
    exact ht

theorem place_eq_none_iff (c : Clk) (ct : U32) : place c ct = none ↔ ct = 0 := by
  rw [← findSlot_eq_none_iff]
  unfold place
  split <;> simp_all

theorem place_valid {c : Clk} {ct : U32} {p : Pending} (h : place c ct = some p) :
    p.Valid c := by
  obtain ⟨hct, hgap, hne, habove⟩ := place_eq_some h
  refine ⟨?_, ?_⟩
  · rw [hgap]
    omega
  · rw [hct]
    exact habove

/-- Empty fields add nothing between two wheels. -/
theorem upto_eq_low_of_above {b : Build} {ct : U32} {v w : Wheel} (hvw : v.rank < w.rank)
    (h : ∀ u, v.rank < u.rank → u.rank < w.rank → field u ct = 0) :
    upto b ct v = low b ct w := by
  have hsec := h .sec
  have hmin := h .min
  cases v <;> cases w <;> first | exact absurd hvw (by decide) | skip
  all_goals
    simp_all [upto, low, unit, Wheel.rank, Nat.add_assoc]

theorem upto_hrs_of_above {b : Build} {ct : U32} {w : Wheel}
    (h : ∀ v, w.rank < v.rank → field v ct = 0) : upto b ct .hrs = upto b ct w := by
  by_cases hw : w = .hrs
  · rw [hw]
  · have hlt : w.rank < Wheel.hrs.rank := by cases w <;> first | decide | exact absurd rfl hw
    rw [upto_eq_low_of_above hlt fun u hu _ => h u hu]
    simp [upto, h .hrs hlt]

/-- A placed timer will take its whole word, less the phase of the wheel it
was placed in. -/
theorem due_of_place {b : Build} {c : Clk} {ct : U32} {p : Pending} (h : place c ct = some p) :
    p.due b c = upto b ct .hrs - phase b c p.wheel := by
  obtain ⟨hct, hgap, hne, habove⟩ := place_eq_some h
  unfold Pending.due
  rw [hgap, hct, upto_hrs_of_above habove]
  rfl

/-- The fields below a wheel do not see the clearing of that wheel. -/
theorem low_clearWheel {b : Build} {ct : U32} {v w : Wheel} (hvw : v.rank ≤ w.rank) :
    low b (clearWheel w ct) v = low b ct v := by
  cases v <;> cases w <;> first | exact absurd hvw (by decide) | skip
  all_goals simp [low, field_clearWheel]

theorem upto_clearWheel {b : Build} {ct : U32} {v w : Wheel} (hvw : v.rank < w.rank) :
    upto b (clearWheel w ct) v = upto b ct v := by
  have hne : v ≠ w := by
    rintro rfl
    omega
  unfold upto
  rw [low_clearWheel hvw.le, field_clearWheel, if_neg hne]

theorem upto_clearWheel_self {b : Build} {ct : U32} {w : Wheel}
    (habove : ∀ v, w.rank < v.rank → field v ct = 0) :
    upto b (clearWheel w ct) .hrs = low b ct w := by
  have hcleared : ∀ v, w.rank < v.rank → field v (clearWheel w ct) = 0 := by
    intro v hv
    rw [field_clearWheel]
    split
    · rfl
    · exact habove v hv
  rw [upto_hrs_of_above hcleared]
  unfold upto
  rw [field_clearWheel, if_pos rfl, low_clearWheel (le_refl _)]
  omega

theorem boundary_mono {b : Build} {c : Clk} {v w : Wheel} (hvw : v.rank ≤ w.rank)
    (h : boundary b c w) : boundary b c v := by
  cases v with
  | tick => trivial
  | sec =>
      cases w with
      | tick => exact absurd hvw (by decide)
      | sec => exact h
      | min => exact h.1
      | hrs => exact h.1.1
  | min =>
      cases w with
      | tick => exact absurd hvw (by decide)
      | sec => exact absurd hvw (by decide)
      | min => exact h
      | hrs => exact h.1
  | hrs =>
      cases w with
      | hrs => exact h
      | _ => exact absurd hvw (by decide)

/-- On a boundary of a wheel every finer wheel starts a unit as well. -/
theorem phase_eq_zero_of_boundary {b : Build} {c : Clk} {v w : Wheel} (hvw : v.rank ≤ w.rank)
    (h : boundary b c w) : phase b (c.advance b) v = 0 :=
  (phase_advance_of_boundary (boundary_mono hvw h)).1

/-- A wheel is skipped on its own boundary only when a finer counter wraps. -/
theorem not_smooth_of_skipped {b : Build} {c : Clk} {w : Wheel} (hb : boundary b c w)
    (hskip : ¬ serviced b (c.advance b) w = true) : ¬ Smooth b c w := by
  intro hs
  apply hskip
  rw [serviced_advance_iff]
  refine ⟨hb, fun hw => ?_, fun hw => ?_⟩
  · have hsec : ((c.advance b).get .sec).toNat = (c.get .sec).toNat + 1 :=
      get_advance_of_smooth hw hs (boundary_mono (v := .sec) hw.le hb)
    show ((c.advance b).get .sec).toNat ≠ 0
    omega
  · have hmin : ((c.advance b).get .min).toNat = (c.get .min).toNat + 1 :=
      get_advance_of_smooth hw hs (boundary_mono (v := .min) hw.le hb)
    show ((c.advance b).get .min).toNat ≠ 0
    omega

namespace Pending

variable {b : Build} {c : Clk} {p : Pending}

/-- A timer always drops to a finer wheel. -/
theorem rank_lt_of_drop {p' : Pending} {c' : Clk}
    (habove : ∀ v, p.wheel.rank < v.rank → field v p.ctime = 0)
    (h : place c' (clearWheel p.wheel p.ctime) = some p') : p'.wheel.rank < p.wheel.rank := by
  have hne := (place_eq_some h).2.2.1
  rw [field_clearWheel] at hne
  by_contra hge
  split at hne
  · exact hne rfl
  · rename_i hdiff
    have hrank : p.wheel.rank ≠ p'.wheel.rank := fun heq => hdiff (Wheel.rank_injective heq.symm)
    exact hne (habove p'.wheel (by omega))

theorem due_of_drop_place {p' : Pending} (hv : p.Valid c) (hb : boundary b c p.wheel)
    (h : place (c.advance b) (clearWheel p.wheel p.ctime) = some p') :
    p'.due b (c.advance b) = low b p.ctime p.wheel := by
  rw [due_of_place h, upto_clearWheel_self hv.above,
    phase_eq_zero_of_boundary (rank_lt_of_drop hv.above h).le hb, Nat.sub_zero]

/-- `Fits` over a tick that takes the timer out of its wheel: what is left to
check is `Fits` at the new place, if there is one. -/
theorem fits_drop_iff (hv : p.Valid c) (hzero : p.gap (c.advance b) = 0) :
    p.Fits b c ↔
      Smooth b c p.wheel ∧
        ∀ p', place (c.advance b) (clearWheel p.wheel p.ctime) = some p' →
          p'.Fits b (c.advance b) := by
  obtain ⟨hb, hlow⟩ := due_of_drop hv.gap_pos hzero
  have hmove : Smooth b c p.wheel → ∀ v, v.rank < p.wheel.rank →
      p.atDrop b c v = ((c.advance b).get v).toNat +
        (low b p.ctime p.wheel - upto b p.ctime v) / unit b v := by
    intro hs v hvw
    rw [atDrop_of_smooth hvw hs (hlow.mpr hs) (upto_le_low hvw),
      phase_eq_zero_of_boundary hvw.le hb, Nat.add_zero]
  have hnew : ∀ p', place (c.advance b) (clearWheel p.wheel p.ctime) = some p' →
      p'.wheel.rank < p.wheel.rank ∧
      ∀ v, v.rank < p'.wheel.rank → p'.atDrop b (c.advance b) v =
        ((c.advance b).get v).toNat + (low b p.ctime p.wheel - upto b p.ctime v) / unit b v := by
    intro p' hplace
    have hlt := rank_lt_of_drop hv.above hplace
    refine ⟨hlt, fun v hvw => ?_⟩
    unfold atDrop
    rw [due_of_drop_place hv hb hplace, (place_eq_some hplace).1, upto_clearWheel (by omega),
      phase_eq_zero_of_boundary (by omega) hb, Nat.add_zero]
  constructor
  · intro hf
    have hs := smooth_of_fits hv.gap_pos hf
    refine ⟨hs, fun p' hplace v hvw => ?_⟩
    obtain ⟨hlt, hdrop⟩ := hnew p' hplace
    rw [hdrop v hvw, ← hmove hs v (by omega)]
    exact hf v (by omega)
  · rintro ⟨hs, hrest⟩ v hvw
    rw [hmove hs v hvw]
    by_cases hstay : ∃ p', place (c.advance b) (clearWheel p.wheel p.ctime) = some p' ∧
        v.rank < p'.wheel.rank
    · obtain ⟨p', hplace, hvp⟩ := hstay
      rw [← (hnew p' hplace).2 v hvp]
      exact hrest p' hplace v hvp
    · -- nothing is left between `v` and the wheel, so the counter `v` is where it drops
      have hempty : ∀ u, v.rank < u.rank → u.rank < p.wheel.rank → field u p.ctime = 0 := by
        intro u huv huw
        have hcleared : field u p.ctime = field u (clearWheel p.wheel p.ctime) := by
          rw [field_clearWheel, if_neg]
          rintro rfl
          omega
        rw [hcleared]
        cases hplace : place (c.advance b) (clearWheel p.wheel p.ctime) with
        | none =>
            rw [(place_eq_none_iff _ _).mp hplace]
            exact field_zero u
        | some p' =>
            have hle : ¬ v.rank < p'.wheel.rank := fun h => hstay ⟨p', hplace, h⟩
            exact (place_eq_some hplace).2.2.2 u (by omega)
      rw [upto_eq_low_of_above hvw hempty, Nat.sub_self, Nat.zero_div]
      exact ((c.advance b).get v).isLt

/-! ## How long the cascade takes -/

/-- All that a tick can do to a node that is still ahead of its counter. -/
theorem step_cases (b : Build) (hv : p.Valid c) :
    (0 < p.gap (c.advance b) ∧ p.step b (c.advance b) = some p) ∨
      (p.gap (c.advance b) = 0 ∧ serviced b (c.advance b) p.wheel = true ∧
        p.step b (c.advance b) = place (c.advance b) (clearWheel p.wheel p.ctime)) ∨
      (p.gap (c.advance b) = 0 ∧ ¬ Smooth b c p.wheel ∧ p.step b (c.advance b) = some p) := by
  unfold step
  by_cases hzero : p.gap (c.advance b) = 0
  · by_cases hserv : serviced b (c.advance b) p.wheel = true
    · exact Or.inr (Or.inl ⟨hzero, hserv, if_pos ((isDue_iff _ _ _).mpr ⟨hserv, hzero⟩)⟩)
    · refine Or.inr (Or.inr ⟨hzero, ?_, if_neg fun h => hserv ((isDue_iff _ _ _).mp h).1⟩)
      exact not_smooth_of_skipped (due_of_drop hv.gap_pos hzero).1 hserv
  · refine Or.inl ⟨Nat.pos_of_ne_zero hzero, if_neg fun h => hzero ((isDue_iff _ _ _).mp h).2⟩

/-- A node whose counter has passed it waits for the counter to come round
again. -/
theorem not_expiresAt_of_passed (k : Nat) (hk : (c.get p.wheel - p.rt).toNat + k < 2 ^ 32) :
    ¬ p.expiresAt b c k := by
  induction k generalizing c with
  | zero => exact id
  | succ k ih =>
      have hstay : p.step b (c.advance b) = some p := by
        refine if_neg fun h => ?_
        obtain ⟨hserv, hgap⟩ := (isDue_iff _ _ _).mp h
        rw [← rt_eq_iff, get_advance_of_serviced hserv] at hgap
        rw [hgap] at hk
        bv_omega
      have hnext : ((c.advance b).get p.wheel - p.rt).toNat + k < 2 ^ 32 := by
        by_cases hb : boundary b c p.wheel
        · rw [get_advance_of_boundary hb]
          bv_omega
        · rw [get_advance_of_not_boundary hb]
          omega
      unfold expiresAt
      rw [hstay]
      exact ih hnext

theorem expiresAt_le {k : Nat} (hv : p.Valid c) (h : p.expiresAt b c k) (hk : k < 2 ^ 32) :
    k ≤ p.due b c ∧ (¬ p.Fits b c → k < p.due b c) := by
  induction k generalizing c p with
  | zero => exact absurd h id
  | succ k ih =>
      unfold expiresAt at h
      rcases step_cases b hv with ⟨hpos, hstep⟩ | ⟨hzero, -, hstep⟩ | ⟨hzero, -, hstep⟩
      · rw [hstep] at h
        obtain ⟨hle, hsmooth⟩ := due_advance (b := b) hv.gap_pos hpos
        obtain ⟨hk1, hk2⟩ := ih ⟨hpos, hv.above⟩ h (by omega)
        rw [fits_advance_iff hv.gap_pos hpos, ← hsmooth]
        refine ⟨by omega, fun hnot => ?_⟩
        by_cases hfits : p.Fits b (c.advance b)
        · have hne : p.due b (c.advance b) + 1 ≠ p.due b c := fun heq => hnot ⟨heq, hfits⟩
          omega
        · have := hk2 hfits
          omega
      · rw [hstep] at h
        obtain ⟨hb, hsmooth⟩ := due_of_drop (b := b) hv.gap_pos hzero
        have hlow := low_lt_due (b := b) hv.gap_pos
        rw [fits_drop_iff hv hzero, ← hsmooth]
        cases hplace : place (c.advance b) (clearWheel p.wheel p.ctime) with
        | none =>
            rw [hplace] at h
            change k = 0 at h
            refine ⟨by omega, fun hnot => ?_⟩
            have hne : low b p.ctime p.wheel + 1 ≠ p.due b c := fun heq =>
              hnot ⟨heq, fun p' hp' => by cases hp'⟩
            omega
        | some p' =>
            rw [hplace] at h
            change p'.expiresAt b (c.advance b) k at h
            obtain ⟨hk1, hk2⟩ := ih (place_valid hplace) h (by omega)
            rw [due_of_drop_place hv hb hplace] at hk1 hk2
            refine ⟨by omega, fun hnot => ?_⟩
            by_cases hfits : p'.Fits b (c.advance b)
            · have hne : low b p.ctime p.wheel + 1 ≠ p.due b c := by
                intro heq
                refine hnot ⟨heq, fun q hq => ?_⟩
                obtain rfl : p' = q := Option.some.inj hq
                exact hfits
              omega
            · have := hk2 hfits
              omega
      · rw [hstep] at h
        have hpassed : p.rt = (c.advance b).get p.wheel := (rt_eq_iff _ _).mpr hzero
        refine absurd h (not_expiresAt_of_passed k ?_)
        rw [hpassed, BitVec.sub_self]
        show 0 + k < 2 ^ 32
        omega

theorem expiresAt_due (hv : p.Valid c) (hf : p.Fits b c) : p.expiresAt b c (p.due b c) := by
  obtain ⟨n, hn⟩ : ∃ n, p.due b c = n := ⟨_, rfl⟩
  rw [hn]
  induction n generalizing c p with
  | zero =>
      have := low_lt_due (b := b) hv.gap_pos
      omega
  | succ n ih =>
      have hs := smooth_of_fits hv.gap_pos hf
      unfold expiresAt
      rcases step_cases b hv with ⟨hpos, hstep⟩ | ⟨hzero, -, hstep⟩ | ⟨-, hrough, -⟩
      · have hdue := (due_advance hv.gap_pos hpos).2.mpr hs
        rw [hstep]
        exact ih ⟨hpos, hv.above⟩ ((fits_advance_iff hv.gap_pos hpos).mp hf).2 (by omega)
      · obtain ⟨hb, hsmooth⟩ := due_of_drop (b := b) hv.gap_pos hzero
        have hlow := hsmooth.mpr hs
        rw [hstep]
        cases hplace : place (c.advance b) (clearWheel p.wheel p.ctime) with
        | none =>
            have hlow0 : low b p.ctime p.wheel = 0 := by
              rw [← upto_clearWheel_self hv.above, (place_eq_none_iff _ _).mp hplace]
              simp only [upto, low, field_zero, Nat.zero_mul, Nat.add_zero]
            show n = 0
            omega
        | some p' =>
            refine ih (place_valid hplace) (((fits_drop_iff hv hzero).mp hf).2 p' hplace) ?_
            rw [due_of_drop_place hv hb hplace]
            omega
      · exact absurd hs hrough

/-- The node after `k` more ticks; `none` from its expiry on. -/
def after (b : Build) (c : Clk) (p : Pending) : Nat → Option Pending
  | 0 => some p
  | k + 1 => (after b c p k).bind (step b (c.after b (k + 1)))

theorem after_succ (b : Build) (c : Clk) (p : Pending) (k : Nat) :
    p.after b c (k + 1) =
      (p.step b (c.advance b)).bind fun p' => p'.after b (c.advance b) k := by
  induction k with
  | zero =>
      show (some p).bind (step b (c.advance b)) = _
      simp only [after, Option.bind_some, Option.bind_fun_some]
  | succ k ih =>
      rw [after, ih, Option.bind_assoc, Clk.after_succ]
      rfl

theorem expiresAt_succ_iff (b : Build) (c : Clk) (p : Pending) (k : Nat) :
    p.expiresAt b c (k + 1) ↔ p.after b c k ≠ none ∧ p.after b c (k + 1) = none := by
  induction k generalizing c p with
  | zero =>
      rw [after_succ]
      unfold expiresAt
      cases p.step b (c.advance b) with
      | none => simp [after]
      | some p' => simp [after, expiresAt]
  | succ k ih =>
      rw [after_succ b c p k, after_succ b c p (k + 1), expiresAt]
      cases p.step b (c.advance b) with
      | none => simp
      | some p' => exact ih (c.advance b) p'

theorem after_eq_none_of_le {j k : Nat} (hjk : j ≤ k) (h : p.after b c j = none) :
    p.after b c k = none := by
  induction k, hjk using Nat.le_induction with
  | base => exact h
  | succ k _ ih => rw [after, ih, Option.bind_none]

theorem lt_of_after_ne_none {e k : Nat} (he : p.expiresAt b c e) (hk : p.after b c k ≠ none) :
    k < e := by
  cases e with
  | zero => exact absurd he id
  | succ e =>
      by_contra hge
      exact hk (after_eq_none_of_le (by omega) ((expiresAt_succ_iff b c p e).mp he).2)

/-- A timer expires on one tick only. -/
theorem expiresAt_unique {j k : Nat} (hj : p.expiresAt b c j) (hk : p.expiresAt b c k) :
    j = k := by
  induction j generalizing c p k with
  | zero => exact absurd hj id
  | succ j ih =>
      cases k with
      | zero => exact absurd hk id
      | succ k =>
          unfold expiresAt at hj hk
          split at hj
          · rename_i hstep
            rw [hstep] at hk
            change k = 0 at hk
            omega
          · rename_i p' hstep
            rw [hstep] at hk
            rw [ih hj hk]

/-- From a valid node the tick of expiry settles both whether it was on time
and whether a counter wrapped. -/
theorem expiresAt_iff {n : Nat} (hv : p.Valid c) (hle : p.due b c ≤ n) (hn : n < 2 ^ 32) :
    p.expiresAt b c n ↔ p.due b c = n ∧ p.Fits b c := by
  constructor
  · intro h
    obtain ⟨hk1, hk2⟩ := expiresAt_le hv h hn
    refine ⟨by omega, ?_⟩
    by_contra hnot
    have := hk2 hnot
    omega
  · rintro ⟨rfl, hf⟩
    exact expiresAt_due hv hf

end Pending

end Timers
end TmULThreads
