import Mathlib.Tactic

/-!
# The packed time word of a pending timer

A pending timer keeps what is left of its duration in one 32-bit word, with
ten bits of hours, six of minutes, six of seconds and ten of ticks
(`TIMERS/inc/tmrtypes.h`).  `calc_time` fills the word with shifts and ors,
`find_tmr_slot_and_place` reads the highest non-zero field, and
`clear_wheel_timer` masks one field out.

The word operations are translated as they stand.  Their meaning is given by
`field`, the value of one field as a natural number: `field_packCtime` for
filling, `findSlot_eq_some_iff` for choosing a wheel and `field_clearWheel` for
clearing.  Later modules never look at the bits again.
-/

namespace TmULThreads
namespace Timers

/-- `unsigned int`. -/
abbrev U32 := BitVec 32

/-- The two values of `SCHED` in `build/make.h`: the library's own scheduler
(`SFS_WANTED`) or pthreads. -/
inductive Build where
  | sfs
  | normal
  deriving DecidableEq, Repr

/-- The four timer wheels, which are also the four clock counters. -/
inductive Wheel where
  | tick
  | sec
  | min
  | hrs
  deriving DecidableEq, Repr

/-- `SYS_MAX_TICKS_IN_SEC` of the build. -/
def tmGetTicksPerSecond : Build → U32
  | .sfs => 50
  | .normal => 100

/-- `tmGetTicksPerSecond` as a number. -/
def tps (b : Build) : Nat := (tmGetTicksPerSecond b).toNat

theorem tps_cases (b : Build) : tps b = 50 ∨ tps b = 100 := by
  cases b
  · exact Or.inl rfl
  · exact Or.inr rfl

/-! ## The macros of `tmrtypes.h` -/

def setTick (b : Build) (ct t : U32) : U32 := ct ||| (t % tmGetTicksPerSecond b)
def setSecs (ct t : U32) : U32 := ct ||| ((t % 60) <<< 10)
def setMins (ct t : U32) : U32 := ct ||| ((t % 60) <<< 16)
def setHrs (ct t : U32) : U32 := ct ||| (t <<< 22)

def getTick (ct : U32) : U32 := ~~~((~~~(0 : U32)) <<< 10) &&& ct
def getSecs (ct : U32) : U32 := ~~~((~~~(0 : U32)) <<< 6) &&& (ct >>> 10)
def getMins (ct : U32) : U32 := ~~~((~~~(0 : U32)) <<< 6) &&& (ct >>> 16)
def getHrs (ct : U32) : U32 := ~~~((~~~(0 : U32)) <<< 10) &&& (ct >>> 22)

/-- The word that `calc_time` packs from a tick count, starting from the zero
word of a freshly allocated `APP_TIMER_T`. -/
def packCtime (b : Build) (ticks : U32) : U32 :=
  let secs := ticks / tmGetTicksPerSecond b
  let mins := secs / 60
  let hrs := mins / 60
  setHrs (setMins (setSecs (setTick b 0 ticks) secs) mins) hrs

/-- The cascade of tests in `find_tmr_slot_and_place`: the wheel it chooses
and the value it reads there. -/
def findSlot (ct : U32) : Option (Wheel × U32) :=
  if getHrs ct ≠ 0 then some (.hrs, getHrs ct)
  else if getMins ct ≠ 0 then some (.min, getMins ct)
  else if getSecs ct ≠ 0 then some (.sec, getSecs ct)
  else if getTick ct ≠ 0 then some (.tick, getTick ct)
  else none

/-- `wheel_mask` of `clear_wheel_timer`. -/
def wheelMask : Wheel → U32
  | .tick => 0xFFFFFC00
  | .sec => 0xFFFF03FF
  | .min => 0xFFC0FFFF
  | .hrs => 0x3FFFFF

def clearWheel (w : Wheel) (ct : U32) : U32 := ct &&& wheelMask w

/-! ## Fields as numbers -/

/-- The value of one field of a time word. -/
def field : Wheel → U32 → Nat
  | .tick, ct => ct.toNat % 1024
  | .sec, ct => ct.toNat / 1024 % 64
  | .min, ct => ct.toNat / 65536 % 64
  | .hrs, ct => ct.toNat / 4194304

theorem toNat_getTick (ct : U32) : (getTick ct).toNat = field .tick ct := by
  show (0x3FF#32 &&& ct).toNat = ct.toNat % 1024
  rw [BitVec.toNat_and, Nat.and_comm]
  exact Nat.and_two_pow_sub_one_eq_mod ct.toNat 10

theorem toNat_getSecs (ct : U32) : (getSecs ct).toNat = field .sec ct := by
  show (0x3F#32 &&& (ct >>> 10)).toNat = ct.toNat / 1024 % 64
  rw [BitVec.toNat_and, Nat.and_comm, BitVec.toNat_ushiftRight, Nat.shiftRight_eq_div_pow]
  exact Nat.and_two_pow_sub_one_eq_mod (ct.toNat / 1024) 6

theorem toNat_getMins (ct : U32) : (getMins ct).toNat = field .min ct := by
  show (0x3F#32 &&& (ct >>> 16)).toNat = ct.toNat / 65536 % 64
  rw [BitVec.toNat_and, Nat.and_comm, BitVec.toNat_ushiftRight, Nat.shiftRight_eq_div_pow]
  exact Nat.and_two_pow_sub_one_eq_mod (ct.toNat / 65536) 6

theorem toNat_getHrs (ct : U32) : (getHrs ct).toNat = field .hrs ct := by
  show (0x3FF#32 &&& (ct >>> 22)).toNat = ct.toNat / 4194304
  rw [BitVec.toNat_and, Nat.and_comm, BitVec.toNat_ushiftRight, Nat.shiftRight_eq_div_pow]
  have hmod := Nat.and_two_pow_sub_one_eq_mod (ct.toNat / 4194304) 10
  have hlt := ct.isLt
  -- the hours are the ten highest bits, so the mask removes nothing
  have hfit : ct.toNat / 4194304 % 1024 = ct.toNat / 4194304 := by omega
  exact hmod.trans hfit

theorem field_lt (w : Wheel) (ct : U32) : field w ct < 1024 := by
  have hlt := ct.isLt
  cases w <;> simp only [field] <;> omega

/-- The four fields cover the whole word. -/
theorem eq_zero_of_field_eq_zero {ct : U32} (h : ∀ w, field w ct = 0) : ct = 0 := by
  have htick := h .tick
  have hsec := h .sec
  have hmin := h .min
  have hhrs := h .hrs
  simp only [field] at htick hsec hmin hhrs
  apply BitVec.eq_of_toNat_eq
  show ct.toNat = 0
  omega

@[simp] theorem field_zero (w : Wheel) : field w 0 = 0 := by
  cases w <;> rfl

/-- Masking one field out leaves the others as they are. -/
theorem field_clearWheel (w v : Wheel) (ct : U32) :
    field v (clearWheel w ct) = if v = w then 0 else field v ct := by
  have hlt := ct.isLt
  have hlow : ct.toNat % 2 ^ 10 &&& 1023 = ct.toNat % 2 ^ 10 := by
    rw [show (1023 : Nat) = 2 ^ 10 - 1 from rfl, Nat.and_two_pow_sub_one_eq_mod, Nat.mod_mod]
  have hsix (x : Nat) : x % 2 ^ 6 &&& 63 = x % 2 ^ 6 := by
    rw [show (63 : Nat) = 2 ^ 6 - 1 from rfl, Nat.and_two_pow_sub_one_eq_mod, Nat.mod_mod]
  have hhigh : ct.toNat / 2 ^ 22 &&& 1023 = ct.toNat / 2 ^ 22 := by
    rw [show (1023 : Nat) = 2 ^ 10 - 1 from rfl, Nat.and_two_pow_sub_one_eq_mod]
    omega
  have htick : (ct.toNat &&& (wheelMask w).toNat) % 2 ^ 10 =
      if Wheel.tick = w then 0 else ct.toNat % 2 ^ 10 := by
    rw [Nat.and_mod_two_pow]
    cases w
    · exact Nat.and_zero _
    · exact hlow
    · exact hlow
    · exact hlow
  have hsec : (ct.toNat &&& (wheelMask w).toNat) / 2 ^ 10 % 2 ^ 6 =
      if Wheel.sec = w then 0 else ct.toNat / 2 ^ 10 % 2 ^ 6 := by
    rw [Nat.and_div_two_pow, Nat.and_mod_two_pow]
    cases w
    · exact hsix _
    · exact Nat.and_zero _
    · exact hsix _
    · exact hsix _
  have hmin : (ct.toNat &&& (wheelMask w).toNat) / 2 ^ 16 % 2 ^ 6 =
      if Wheel.min = w then 0 else ct.toNat / 2 ^ 16 % 2 ^ 6 := by
    rw [Nat.and_div_two_pow, Nat.and_mod_two_pow]
    cases w
    · exact hsix _
    · exact hsix _
    · exact Nat.and_zero _
    · exact hsix _
  have hhrs : (ct.toNat &&& (wheelMask w).toNat) / 2 ^ 22 =
      if Wheel.hrs = w then 0 else ct.toNat / 2 ^ 22 := by
    rw [Nat.and_div_two_pow]
    cases w
    · exact hhigh
    · exact hhigh
    · exact hhigh
    · exact Nat.and_zero _
  cases v
  · exact htick
  · exact hsec
  · exact hmin
  · exact hhrs

/-- Or-ing a value into free high bits is addition. -/
theorem toNat_or_shiftLeft (ct x : U32) (k : Nat) (hct : ct.toNat < 2 ^ k) :
    (ct ||| (x <<< k)).toNat = ct.toNat + x.toNat * 2 ^ k % 2 ^ 32 := by
  rw [BitVec.toNat_or, BitVec.toNat_shiftLeft, Nat.shiftLeft_eq]
  by_cases hk : k ≤ 32
  · have hsplit : x.toNat * 2 ^ k % 2 ^ 32 = 2 ^ k * (x.toNat % 2 ^ (32 - k)) := by
      rw [show (2 : Nat) ^ 32 = 2 ^ k * 2 ^ (32 - k) by rw [← Nat.pow_add]; congr 1; omega,
        Nat.mul_comm x.toNat, Nat.mul_mod_mul_left]
    rw [hsplit, Nat.or_comm, ← Nat.two_pow_add_eq_or_of_lt hct]
    omega
  · have hzero : x.toNat * 2 ^ k % 2 ^ 32 = 0 := by
      rw [show (2 : Nat) ^ k = 2 ^ (k - 32) * 2 ^ 32 by rw [← Nat.pow_add]; congr 1; omega,
        ← Nat.mul_assoc]
      exact Nat.mul_mod_left _ _
    rw [hzero]
    simp

/-- The packed word as a sum: hours beyond ten bits are cut off. -/
theorem toNat_packCtime (b : Build) (ticks : U32) :
    (packCtime b ticks).toNat =
      ticks.toNat % tps b + ticks.toNat / tps b % 60 * 1024 +
        ticks.toNat / tps b / 60 % 60 * 65536 +
        ticks.toNat / tps b / 60 / 60 % 1024 * 4194304 := by
  have htps := tps_cases b
  have hsecs : (ticks / tmGetTicksPerSecond b).toNat = ticks.toNat / tps b := BitVec.toNat_udiv
  have hmins : (ticks / tmGetTicksPerSecond b / 60).toNat = ticks.toNat / tps b / 60 := by
    rw [BitVec.toNat_udiv, hsecs]
    rfl
  have hhrs : (ticks / tmGetTicksPerSecond b / 60 / 60).toNat = ticks.toNat / tps b / 60 / 60 := by
    rw [BitVec.toNat_udiv, hmins]
    rfl
  have h1 : (setTick b 0 ticks).toNat = ticks.toNat % tps b := by
    unfold setTick
    rw [BitVec.toNat_or, BitVec.toNat_umod]
    exact Nat.zero_or _
  have h2 : (setSecs (setTick b 0 ticks) (ticks / tmGetTicksPerSecond b)).toNat =
      ticks.toNat % tps b + ticks.toNat / tps b % 60 * 1024 := by
    unfold setSecs
    rw [toNat_or_shiftLeft _ _ 10 (by rw [h1]; rcases htps with h | h <;> rw [h] <;> omega),
      BitVec.toNat_umod, hsecs, h1]
    show ticks.toNat % tps b + ticks.toNat / tps b % 60 * 1024 % 4294967296 = _
    omega
  have h3 : (setMins (setSecs (setTick b 0 ticks) (ticks / tmGetTicksPerSecond b))
      (ticks / tmGetTicksPerSecond b / 60)).toNat =
      ticks.toNat % tps b + ticks.toNat / tps b % 60 * 1024 +
        ticks.toNat / tps b / 60 % 60 * 65536 := by
    unfold setMins
    rw [toNat_or_shiftLeft _ _ 16 (by rw [h2]; rcases htps with h | h <;> rw [h] <;> omega),
      BitVec.toNat_umod, hmins, h2]
    show ticks.toNat % tps b + ticks.toNat / tps b % 60 * 1024 +
      ticks.toNat / tps b / 60 % 60 * 65536 % 4294967296 = _
    omega
  show (setHrs (setMins (setSecs (setTick b 0 ticks) (ticks / tmGetTicksPerSecond b))
    (ticks / tmGetTicksPerSecond b / 60)) (ticks / tmGetTicksPerSecond b / 60 / 60)).toNat = _
  unfold setHrs
  rw [toNat_or_shiftLeft _ _ 22 (by rw [h3]; rcases htps with h | h <;> rw [h] <;> omega),
    hhrs, h3]
  show _ + ticks.toNat / tps b / 60 / 60 * 4194304 % 4294967296 = _
  omega

/-- What each field holds after packing. -/
theorem field_packCtime (b : Build) (ticks : U32) :
    field .tick (packCtime b ticks) = ticks.toNat % tps b ∧
      field .sec (packCtime b ticks) = ticks.toNat / tps b % 60 ∧
      field .min (packCtime b ticks) = ticks.toNat / tps b / 60 % 60 ∧
      field .hrs (packCtime b ticks) = ticks.toNat / tps b / 60 / 60 % 1024 := by
  have hpack := toNat_packCtime b ticks
  have htick : ticks.toNat % tps b < 1024 := by
    rcases tps_cases b with h | h <;> rw [h] <;> omega
  have hsec : ticks.toNat / tps b % 60 < 60 := Nat.mod_lt _ (by omega)
  have hmin : ticks.toNat / tps b / 60 % 60 < 60 := Nat.mod_lt _ (by omega)
  have hhrs : ticks.toNat / tps b / 60 / 60 % 1024 < 1024 := Nat.mod_lt _ (by omega)
  simp only [field, hpack]
  -- four digits below their radix are read back by division
  generalize ticks.toNat % tps b = t at *
  generalize ticks.toNat / tps b % 60 = s at *
  generalize ticks.toNat / tps b / 60 % 60 = m at *
  generalize ticks.toNat / tps b / 60 / 60 % 1024 = h at *
  clear hpack
  omega

/-! ## The chosen wheel -/

/-- Position of a wheel in the cascade. -/
def Wheel.rank : Wheel → Nat
  | .tick => 0
  | .sec => 1
  | .min => 2
  | .hrs => 3

theorem Wheel.rank_injective {w v : Wheel} (h : w.rank = v.rank) : w = v := by
  cases w <;> cases v <;> simp_all [Wheel.rank]

private theorem getHrs_eq_zero (ct : U32) : getHrs ct = 0 ↔ field .hrs ct = 0 := by
  rw [← toNat_getHrs]; exact BitVec.toNat_inj.symm

private theorem getMins_eq_zero (ct : U32) : getMins ct = 0 ↔ field .min ct = 0 := by
  rw [← toNat_getMins]; exact BitVec.toNat_inj.symm

private theorem getSecs_eq_zero (ct : U32) : getSecs ct = 0 ↔ field .sec ct = 0 := by
  rw [← toNat_getSecs]; exact BitVec.toNat_inj.symm

private theorem getTick_eq_zero (ct : U32) : getTick ct = 0 ↔ field .tick ct = 0 := by
  rw [← toNat_getTick]; exact BitVec.toNat_inj.symm

/-- The chosen wheel is the one of the highest non-zero field, and the value
read there is that field. -/
theorem findSlot_eq_some_iff (ct : U32) (w : Wheel) (t : U32) :
    findSlot ct = some (w, t) ↔
      t.toNat = field w ct ∧ field w ct ≠ 0 ∧ ∀ v, w.rank < v.rank → field v ct = 0 := by
  have hall (v : Wheel) (p : Wheel → Prop) :
      (∀ u, v.rank < u.rank → p u) ↔
        (v.rank < 1 → p .sec) ∧ (v.rank < 2 → p .min) ∧ (v.rank < 3 → p .hrs) := by
    constructor
    · intro h
      exact ⟨h .sec, h .min, h .hrs⟩
    · rintro ⟨hsec, hmin, hhrs⟩ u hu
      cases u with
      | tick => exact absurd hu (Nat.not_lt_zero _)
      | sec => exact hsec hu
      | min => exact hmin hu
      | hrs => exact hhrs hu
  rw [hall]
  unfold findSlot
  simp only [ne_eq, getHrs_eq_zero, getMins_eq_zero, getSecs_eq_zero, getTick_eq_zero]
  have heq (x : U32) : t.toNat = x.toNat ↔ x = t :=
    ⟨fun h => (BitVec.eq_of_toNat_eq h).symm, fun h => by rw [h]⟩
  cases w
  · rw [← toNat_getTick, heq]
    split_ifs <;> simp_all [Wheel.rank]
  · rw [← toNat_getSecs, heq]
    split_ifs <;> simp_all [Wheel.rank]
  · rw [← toNat_getMins, heq]
    split_ifs <;> simp_all [Wheel.rank]
  · rw [← toNat_getHrs, heq]
    split_ifs <;> simp_all [Wheel.rank]

theorem findSlot_eq_none_iff (ct : U32) : findSlot ct = none ↔ ct = 0 := by
  constructor
  · intro h
    unfold findSlot at h
    simp only [ne_eq, getHrs_eq_zero, getMins_eq_zero, getSecs_eq_zero, getTick_eq_zero] at h
    split_ifs at h with h1 h2 h3 h4
    apply eq_zero_of_field_eq_zero
    intro w
    cases w
    · exact h4
    · exact h3
    · exact h2
    · exact h1
  · rintro rfl
    rfl

end Timers
end TmULThreads
