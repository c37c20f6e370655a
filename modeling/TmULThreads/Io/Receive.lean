import TmULThreads.Timers.Ctime
import Mathlib.Data.Int.Init

/-!
# Receiving a datagram

`tm_recvfrom` of `iostream.c` and of `common.c`: both call `recvfrom` until it has returned
more than 40.  The test should tell a failure from a success, but it takes a short datagram
for a failure, throws it away and calls `recvfrom` once more.  The version of the SFS build
keeps the length in an `int`.

What `recvfrom` returns, and the `errno` that is found after each call, is a parameter.
`recvLaw_iff` states that the loop returns the first datagram exactly if it is longer than
40 bytes and, in the SFS build, its length is a value of an `int`.
-/

namespace TmULThreads
namespace Io

open Timers (Build)

/-- What is found after a call of `recvfrom`: `-1` or the length of a datagram, and an `errno`
that only a failure has written. -/
structure Outcome where
  ret : Int
  errno : Int
  documented : ret = -1 ∨ (0 ≤ ret ∧ ret < 2 ^ 63)
  deriving DecidableEq, Repr

/-- The value of an `int` that an `ssize_t` is stored in. -/
def toInt (n : Int) : Int := Int.bmod n (2 ^ 32)

/-- The variable `rval`, which is an `int` in `iostream.c` and an `ssize_t` in `common.c`. -/
def rvalOf : Build → Int → Int
  | .sfs, ret => toInt ret
  | .normal, ret => ret

/-- `EINTR`. -/
def eintr : Int := 4

/-- How a turn of the loop ends. -/
inductive Turn where
  | again
  /-- `wait_on_fd`, and then another turn. -/
  | wait
  | done (rval : Int)
  deriving DecidableEq, Repr

/-- What comes after the tests: only the SFS build waits there. -/
def Turn.last : Build → Turn
  | .sfs => .wait
  | .normal => .again

def turn (b : Build) (o : Outcome) : Turn :=
  let rval := rvalOf b o.ret
  if rval ≤ 40 then if o.errno = eintr then .again else .last b
  else if rval > 40 then .done rval
  else .last b

/-- `tm_recvfrom`: what it returns, and how often it has waited.  `none` means that it has
called `recvfrom` more often than there are outcomes. -/
def tmRecvfrom (b : Build) : List Outcome → Option (Int × Nat)
  | [] => none
  | o :: os =>
      match turn b o with
      | .done rval => some (rval, 0)
      | .again => tmRecvfrom b os
      | .wait => (tmRecvfrom b os).map fun r => (r.1, r.2 + 1)

/-- The length of the first datagram that has been delivered. -/
def firstDatagram (os : List Outcome) : Option Int := (os.map Outcome.ret).find? (0 ≤ ·)

/-- The loop returns the first datagram. -/
def RecvLaw (b : Build) (os : List Outcome) : Prop :=
  (tmRecvfrom b os).map Prod.fst = firstDatagram os

/-- The length passes the test, and the variable can hold it. -/
def Recognised (b : Build) (n : Int) : Prop := 40 < n ∧ (b = .sfs → n < 2 ^ 31)

/-! ## One turn -/

theorem toInt_lt (n : Int) : toInt n < 2 ^ 31 := by
  have hlt := Int.bmod_lt (x := n) (m := 2 ^ 32) (by decide)
  unfold toInt
  omega

theorem toInt_of_lt {n : Int} (hnonneg : 0 ≤ n) (hlt : n < 2 ^ 31) : toInt n = n := by
  unfold toInt
  rw [Int.bmod_eq_of_le] <;> omega

/-- Whatever the loop returns is longer than 40 bytes and a value of its variable. -/
theorem turn_done {b : Build} {o : Outcome} {n : Int} (h : turn b o = .done n) :
    Recognised b n := by
  have hlast : Turn.last b ≠ .done n := by
    cases b <;> exact Turn.noConfusion
  unfold turn at h
  by_cases hle : rvalOf b o.ret ≤ 40
  · rw [if_pos hle] at h
    split at h
    · cases h
    · exact absurd h hlast
  · rw [if_neg hle, if_pos (not_le.mp hle)] at h
    cases h
    refine ⟨not_le.mp hle, ?_⟩
    rintro rfl
    exact toInt_lt _

theorem turn_of_recognised {b : Build} {o : Outcome} (h : Recognised b o.ret) :
    turn b o = .done o.ret := by
  obtain ⟨hgt, hlt⟩ := h
  have hrval : rvalOf b o.ret = o.ret := by
    cases b with
    | sfs => exact toInt_of_lt (by omega) (hlt rfl)
    | normal => rfl
  simp only [turn, hrval, not_le.mpr hgt, hgt, if_false, if_true]

/-- A failure does not end the loop. -/
theorem turn_of_failure {b : Build} {o : Outcome} (h : o.ret < 0) :
    turn b o = .again ∨ turn b o = .wait := by
  have hret : o.ret = -1 := by
    rcases o.documented with hfail | hdata
    · exact hfail
    · omega
  have hrval : rvalOf b o.ret ≤ 40 := by
    rw [hret]
    cases b <;> decide
  simp only [turn, hrval, if_true]
  by_cases herrno : o.errno = eintr
  · exact .inl (if_pos herrno)
  · rw [if_neg herrno]
    cases b with
    | sfs => exact .inr rfl
    | normal => exact .inl rfl

/-! ## The loop -/

theorem tmRecvfrom_recognised {b : Build} {os : List Outcome} {r : Int × Nat}
    (h : tmRecvfrom b os = some r) : Recognised b r.1 := by
  induction os generalizing r with
  | nil => cases h
  | cons o os ih =>
      unfold tmRecvfrom at h
      cases hturn : turn b o with
      | done n =>
          rw [hturn] at h
          cases h
          exact turn_done hturn
      | again =>
          rw [hturn] at h
          exact ih h
      | wait =>
          rw [hturn] at h
          obtain ⟨r', hr', rfl⟩ := Option.map_eq_some_iff.mp h
          exact (ih hr' : Recognised b r'.1)

/-- A turn that does not return is only seen in the number of waits. -/
theorem tmRecvfrom_cons {b : Build} {o : Outcome} {os : List Outcome}
    (h : turn b o = .again ∨ turn b o = .wait) :
    (tmRecvfrom b (o :: os)).map Prod.fst = (tmRecvfrom b os).map Prod.fst := by
  rcases h with hturn | hturn
  · simp only [tmRecvfrom, hturn]
  · simp only [tmRecvfrom, hturn, Option.map_map]
    rfl

theorem recvLaw_of_recognised {b : Build} {os : List Outcome} {n : Int}
    (hfirst : firstDatagram os = some n) (h : Recognised b n) : RecvLaw b os := by
  unfold RecvLaw
  induction os with
  | nil => cases hfirst
  | cons o os ih =>
      by_cases hret : 0 ≤ o.ret
      · have hhead : firstDatagram (o :: os) = some o.ret := by
          simp [firstDatagram, hret]
        rw [hhead] at hfirst
        obtain rfl : o.ret = n := Option.some.inj hfirst
        simp only [tmRecvfrom, turn_of_recognised h, hhead, Option.map_some]
      · have htail : firstDatagram (o :: os) = firstDatagram os := by
          simp [firstDatagram, hret]
        rw [htail] at hfirst ⊢
        rw [tmRecvfrom_cons (turn_of_failure (not_le.mp hret))]
        exact ih hfirst

/-- A sequence that ends with a datagram has a first one. -/
theorem exists_firstDatagram {os : List Outcome} {o : Outcome} (hlast : os.getLast? = some o)
    (hret : 0 ≤ o.ret) : ∃ n, firstDatagram os = some n := by
  have hmem : o ∈ os := List.mem_of_getLast? hlast
  rw [← Option.isSome_iff_exists, firstDatagram, List.find?_isSome]
  exact ⟨o.ret, List.mem_map.mpr ⟨o, hmem, rfl⟩, decide_eq_true hret⟩

/-- In both builds, for every sequence of outcomes that ends with a datagram, `tm_recvfrom`
returns the first datagram if and only if its length can be recognised. -/
theorem recvLaw_iff (b : Build) (os : List Outcome) (o : Outcome) (hlast : os.getLast? = some o)
    (hret : 0 ≤ o.ret) :
    RecvLaw b os ↔ ∀ n, firstDatagram os = some n → 40 < n ∧ (b = .sfs → n < 2 ^ 31) := by
  obtain ⟨n, hfirst⟩ := exists_firstDatagram hlast hret
  constructor
  · intro hlaw m hm
    rw [RecvLaw, hm] at hlaw
    obtain ⟨r, hr, rfl⟩ := Option.map_eq_some_iff.mp hlaw
    exact tmRecvfrom_recognised hr
  · exact fun hall => recvLaw_of_recognised hfirst (hall n hfirst)

/-- A call that was interrupted, one that found nothing, and a datagram of 100 bytes with the
`errno` of the last failure. -/
def patient : List Outcome :=
  [⟨-1, eintr, .inl rfl⟩, ⟨-1, 11, .inl rfl⟩, ⟨100, 11, .inr (by decide)⟩]

theorem recvLaw_patient : RecvLaw .sfs patient ∧ RecvLaw .normal patient := by
  have hcond (b : Build) : ∀ n, firstDatagram patient = some n →
      40 < n ∧ (b = .sfs → n < 2 ^ 31) := by
    rintro n ⟨⟩
    exact ⟨by decide, fun _ => by decide⟩
  exact ⟨(recvLaw_iff .sfs patient _ rfl (by decide)).mpr (hcond .sfs),
    (recvLaw_iff .normal patient _ rfl (by decide)).mpr (hcond .normal)⟩

/-- A datagram of ten bytes is thrown away in both builds, and one of 2^32 + 50 bytes is
reported as one of 50 in the SFS build. -/
theorem not_recvLaw_short :
    (∀ b, tmRecvfrom b [⟨10, 0, .inr (by decide)⟩] = none ∧
      ¬ RecvLaw b [⟨10, 0, .inr (by decide)⟩]) ∧
    tmRecvfrom .sfs [⟨2 ^ 32 + 50, 0, .inr (by decide)⟩] = some (50, 0) ∧
      ¬ RecvLaw .sfs [⟨2 ^ 32 + 50, 0, .inr (by decide)⟩] := by
  refine ⟨fun b => ?_, by decide, by unfold RecvLaw; decide⟩
  cases b
  · exact ⟨by decide, by unfold RecvLaw; decide⟩
  · exact ⟨by decide, by unfold RecvLaw; decide⟩

end Io
end TmULThreads
