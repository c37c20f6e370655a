import TmULThreads.Timers.Arming
import TmULThreads.Timers.Model

/-!
# Reading the time word back

`calc_time` writes a number of ticks into the time word as hours, minutes, seconds and ticks,
and everything that happens to the timer later goes by what the four macros read there.  The
hours get ten bits, and `SET_HRS` shifts the rest of them out of the word.

* `readBack_calcTime` gives the number that is read back: what is left of the duration after
  full laps of 1024 hours.
* `ctimeLaw_iff` states that a duration survives exactly if it is shorter than one lap.
-/

namespace TmULThreads
namespace Timers

/-- The number of ticks that `GET_HRS`, `GET_MINS`, `GET_SECS` and `GET_TICK` read. -/
def readBack (b : Build) (ct : U32) : Nat :=
  (((getHrs ct).toNat * 60 + (getMins ct).toNat) * 60 + (getSecs ct).toNat) * tps b +
    (getTick ct).toNat

/-- The word stands for `ticks`, and a timer that is not placed has no ticks to wait. -/
structure CtimeLaw (b : Build) (ticks ct : U32) : Prop where
  decodes : readBack b ct = ticks.toNat
  placed : ct = 0 → ticks = 0

theorem readBack_packCtime (b : Build) (ticks : U32) :
    readBack b (packCtime b ticks) = ticks.toNat % maxTicks b := by
  obtain ⟨htick, hsec, hmin, hhrs⟩ := field_packCtime b ticks
  unfold readBack maxTicks
  rw [toNat_getHrs, toNat_getMins, toNat_getSecs, toNat_getTick, htick, hsec, hmin, hhrs]
  -- the digits of a number in a mixed radix, less the laps of the last one
  rcases tps_cases b with htps | htps
  · rw [htps]
    omega
  · rw [htps]
    omega

/-- The word that a new entry is given. -/
theorem calcTime_ctime {b : Build} {s s' : TmrState} {x x' : AppTimer} {p : TimerId} {tmr : Timer}
    (hzero : x.ctime = 0) (hp : x.timer = some p) (htmr : s.timers p = some tmr)
    (hcalc : calcTime b s x = some (s', x')) : x'.ctime = packCtime b tmr.rmt := by
  unfold calcTime at hcalc
  simp only [hp, htmr, hzero, Option.bind_eq_bind, Option.bind_some, Option.some.injEq,
    Prod.mk.injEq] at hcalc
  obtain ⟨-, rfl⟩ := hcalc
  rfl

theorem readBack_calcTime {b : Build} {s s' : TmrState} {x x' : AppTimer} {p : TimerId}
    {tmr : Timer} (hzero : x.ctime = 0) (hp : x.timer = some p) (htmr : s.timers p = some tmr)
    (hcalc : calcTime b s x = some (s', x')) :
    readBack b x'.ctime = tmr.rmt.toNat % maxTicks b := by
  rw [calcTime_ctime hzero hp htmr hcalc]
  exact readBack_packCtime b tmr.rmt

/-- What `calc_time` packs for a new entry can be read back if and only if the duration is
below 1024 hours. -/
theorem ctimeLaw_iff (b : Build) (s s' : TmrState) (x x' : AppTimer) (p : TimerId) (tmr : Timer)
    (hzero : x.ctime = 0) (hp : x.timer = some p) (htmr : s.timers p = some tmr)
    (hcalc : calcTime b s x = some (s', x')) :
    CtimeLaw b tmr.rmt x'.ctime ↔ tmr.rmt.toNat < maxTicks b := by
  have hread := readBack_calcTime hzero hp htmr hcalc
  constructor
  · rintro ⟨hdecodes, -⟩
    have hpos : 0 < maxTicks b := by
      cases b <;> decide
    rw [← hdecodes, hread]
    exact Nat.mod_lt _ hpos
  · intro hlt
    rw [Nat.mod_eq_of_lt hlt] at hread
    refine ⟨hread, fun hct => ?_⟩
    apply BitVec.eq_of_toNat_eq
    rw [← hread, hct]
    cases b <;> rfl

/-- A timer of so many ticks, and an entry for it. -/
def oneTimer (ticks : U32) : TmrState := initTimerMgr.setTimer 0 { rmt := ticks }

/-- One hour and 23 ticks. -/
theorem ctimeLaw_hour :
    ∃ s' x', calcTime .sfs (oneTimer 180023) { addr := 0, timer := some 0 } = some (s', x') ∧
      CtimeLaw .sfs 180023 x'.ctime :=
  ⟨_, _, rfl, (ctimeLaw_iff .sfs (oneTimer 180023) _ { addr := 0, timer := some 0 } _ 0
    { rmt := 180023 } rfl rfl rfl rfl).mpr (by decide)⟩

/-- Of 1024 hours nothing is left: the word is zero, no wheel is chosen and the timer is never
placed. -/
theorem not_ctimeLaw_lap :
    ∃ s' x', calcTime .sfs (oneTimer 184320000) { addr := 0, timer := some 0 } = some (s', x') ∧
      x'.ctime = 0 ∧ findSlot x'.ctime = none ∧ ¬ CtimeLaw .sfs 184320000 x'.ctime := by
  refine ⟨_, _, rfl, by decide, by decide, fun hlaw => ?_⟩
  have hnone := hlaw.placed (by decide)
  exact absurd hnone (by decide)

end Timers
end TmULThreads
