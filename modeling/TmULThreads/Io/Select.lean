import TmULThreads.Lib.PartialSteps

/-!
# Waiting with a timeout

`tm_select` of `iostream.c` calls `select` with the length of a time slice as the timeout, until
a descriptor is ready or the caller's timeout is used up.  After each call that has found
nothing it takes the microseconds of the slice off the seconds of the timeout, and it leaves
the loop when seconds and microseconds are exactly zero.

What `select` returns is a parameter.  `rounds_done` says when the loop ends if all calls time
out: the timeout is a positive number of seconds and a multiple of the slice's microseconds,
and a millionth of the timeout has passed.  So there is no timeout that it keeps
(`not_selectLaw`).
-/

namespace TmULThreads
namespace Io

/-- `struct timeval`. -/
structure Timeval where
  sec : Int
  usec : Int
  deriving DecidableEq, Repr

/-- The time in microseconds. -/
def Timeval.total (t : Timeval) : Int := t.sec * 1000000 + t.usec

/-- A value of a `time_t`. -/
def IsTime (n : Int) : Prop := -2 ^ 63 ≤ n ∧ n < 2 ^ 63

instance (n : Int) : Decidable (IsTime n) := inferInstanceAs (Decidable (_ ∧ _))

/-- The microseconds of a time slice.  `get_current_task_tslice` returns the slice as an `int`,
and a product that is not one has no defined value. -/
def sliceUsec (tslice : Nat) : Option Int :=
  let usec := Int.bmod tslice (2 ^ 32) * 1000
  if -2 ^ 31 ≤ usec ∧ usec < 2 ^ 31 then some usec else none

/-- Where the loop is: what is left of the timeout and the time that the calls of `select` have
waited; or the function has returned. -/
inductive Status where
  | running (t : Timeval) (waited : Int)
  | done (rval : Int) (t : Timeval) (waited : Int)
  deriving DecidableEq, Repr

/-- A turn of the loop in which `select` returns `rval`.  A call that returns zero has waited
for its whole timeout. -/
def selectRound (usec : Int) : Status → Int → Option Status
  | .done rval t waited, _ => some (.done rval t waited)
  | .running t waited, rval =>
      let waited := if rval = 0 then waited + usec else waited
      if rval ≤ 0 then
        let t := { t with sec := t.sec - usec }
        if ¬ IsTime t.sec then none
        else if t.sec = 0 ∧ t.usec = 0 then some (.done rval t waited)
        else some (.running t waited)
      else some (.done rval t waited)

/-- `tm_select`, as far as it gets with these results of `select`. -/
def tmSelect (tslice : Nat) (t : Timeval) (rvals : List Int) : Option Status := do
  let usec ← sliceUsec tslice
  PartialSteps.run (selectRound usec) (.running t 0) rvals

/-- As long as `select` returns zero, the loop ends after finitely many turns, returns zero, and
has waited for the timeout and for less than a slice more. -/
def SelectLaw (tslice : Nat) (t : Timeval) : Prop :=
  ∃ n t' waited, tmSelect tslice t (List.replicate n 0) = some (.done 0 t' waited) ∧
    t.total ≤ waited ∧ waited < t.total + tslice * 1000

/-! ## The loop when every call times out -/

section

variable {usec : Int} {t : Timeval}

/-- What is known after `n` calls. -/
structure Ticked (usec : Int) (t : Timeval) (n : Nat) (t' : Timeval) (waited : Int) : Prop where
  left : t'.sec = t.sec - n * usec
  same : t'.usec = t.usec
  waits : waited = n * usec

/-- The loop is still running, or it has ended in one of the turns, with nothing left. -/
def Elapsed (usec : Int) (t : Timeval) (n : Nat) : Status → Prop
  | .running t' waited => Ticked usec t n t' waited
  | .done rval t' waited =>
      rval = 0 ∧ t'.sec = 0 ∧ t'.usec = 0 ∧ ∃ k ≤ n, 0 < k ∧ Ticked usec t k t' waited

theorem Elapsed.round {n : Nat} {s s' : Status} (h : Elapsed usec t n s)
    (hround : selectRound usec s 0 = some s') : Elapsed usec t (n + 1) s' := by
  cases s with
  | done rval t' waited =>
      cases hround
      obtain ⟨hrval, hsec, husec, k, hk, hpos, hticked⟩ := h
      exact ⟨hrval, hsec, husec, k, Nat.le_succ_of_le hk, hpos, hticked⟩
  | running t' waited =>
      have hticked : Ticked usec t (n + 1) { t' with sec := t'.sec - usec } (waited + usec) := by
        refine ⟨?_, h.same, ?_⟩
        · show t'.sec - usec = t.sec - (n + 1 : Nat) * usec
          rw [h.left]
          push_cast
          ring
        · rw [h.waits]
          push_cast
          ring
      simp only [selectRound, le_refl, if_true] at hround
      split at hround
      · cases hround
      · split at hround
        · rename_i hzero
          cases hround
          exact ⟨rfl, hzero.1, hzero.2, n + 1, le_rfl, Nat.succ_pos n, hticked⟩
        · cases hround
          exact hticked

theorem elapsed_of_run {n m : Nat} {s s' : Status} (h : Elapsed usec t m s)
    (hrun : PartialSteps.run (selectRound usec) s (List.replicate n 0) = some s') :
    Elapsed usec t (m + n) s' := by
  induction n generalizing m s with
  | zero =>
      cases hrun
      exact h
  | succ n ih =>
      obtain ⟨mid, hround, hrest⟩ := (PartialSteps.run_cons _).mp hrun
      have hmid := ih (h.round hround) hrest
      rwa [Nat.add_assoc, Nat.add_comm 1 n] at hmid

/-- When the loop ends, the seconds of the timeout have passed as microseconds. -/
theorem rounds_done {n : Nat} {rval waited : Int} {t' : Timeval}
    (hrun : PartialSteps.run (selectRound usec) (.running t 0) (List.replicate n 0) =
      some (.done rval t' waited)) :
    rval = 0 ∧ t.usec = 0 ∧ waited = t.sec ∧ ∃ k : Nat, 0 < k ∧ t.sec = k * usec := by
  have hstart : Elapsed usec t 0 (.running t 0) := ⟨by simp, rfl, by simp⟩
  obtain ⟨hrval, hsec, husec, k, -, hpos, hticked⟩ := elapsed_of_run hstart hrun
  have hmul : t.sec = k * usec := by
    have hleft := hticked.left
    omega
  refine ⟨hrval, ?_, ?_, k, hpos, hmul⟩
  · rw [← hticked.same]
    exact husec
  · rw [hticked.waits, hmul]

end

theorem sliceUsec_ne_zero {tslice : Nat} {usec : Int} (hpos : 0 < tslice) (hlt : tslice < 2 ^ 32)
    (h : sliceUsec tslice = some usec) : usec ≠ 0 := by
  unfold sliceUsec at h
  obtain ⟨-, hsome⟩ := Option.ite_none_right_eq_some.mp h
  rintro rfl
  have hzero := Option.some.inj hsome
  have hmod : Int.bmod tslice (2 ^ 32) = 0 := (mul_eq_zero.mp hzero).resolve_right (by decide)
  have hdvd : 2 ^ 32 ∣ tslice := Int.natCast_dvd_natCast.mp (Int.dvd_of_bmod_eq_zero hmod)
  exact absurd (Nat.le_of_dvd hpos hdvd) (not_le.mpr hlt)

/-- The loop of a call that has returned. -/
theorem run_of_tmSelect {tslice : Nat} {t : Timeval} {rvals : List Int} {s : Status}
    (h : tmSelect tslice t rvals = some s) :
    ∃ usec, sliceUsec tslice = some usec ∧
      PartialSteps.run (selectRound usec) (.running t 0) rvals = some s := by
  rw [tmSelect, Option.bind_eq_bind, Option.bind_eq_some_iff] at h
  exact h

/-- For no timeout and no time slice does `tm_select` wait as long as it should. -/
theorem not_selectLaw (tslice : Nat) (t : Timeval) (hpos : 0 < tslice) (hlt : tslice < 2 ^ 32)
    (hsec : 0 ≤ t.sec) : ¬ SelectLaw tslice t := by
  rintro ⟨n, t', waited, hselect, hleast, -⟩
  obtain ⟨usec, hslice, hrun⟩ := run_of_tmSelect hselect
  obtain ⟨-, hzero, hwaited, k, hk, hmul⟩ := rounds_done hrun
  unfold Timeval.total at hleast
  -- a million times the seconds are not more than the seconds, so there are none
  have hnone : t.sec = 0 := by omega
  rw [hnone] at hmul
  rcases mul_eq_zero.mp hmul.symm with hk' | husec'
  · omega
  · exact sliceUsec_ne_zero hpos hlt hslice husec'

/-- A timeout of 86000 seconds, with a slice of one millisecond: the loop ends when 86 calls
have waited for 86 milliseconds. -/
theorem not_selectLaw_early :
    tmSelect 1 ⟨86000, 0⟩ (List.replicate 86 0) = some (.done 0 ⟨0, 0⟩ 86000) ∧
      ¬ SelectLaw 1 ⟨86000, 0⟩ :=
  ⟨by decide +kernel, not_selectLaw 1 ⟨86000, 0⟩ (by decide) (by decide) (by decide)⟩

/-- A timeout of one second, with a slice of 60 milliseconds: the seconds become negative in the
first turn, and the loop never ends. -/
theorem not_selectLaw_second :
    (∀ n rval t' waited, tmSelect 60 ⟨1, 0⟩ (List.replicate n 0) ≠ some (.done rval t' waited)) ∧
      ¬ SelectLaw 60 ⟨1, 0⟩ := by
  have hends : ∀ n rval t' waited,
      tmSelect 60 ⟨1, 0⟩ (List.replicate n 0) ≠ some (.done rval t' waited) := by
    intro n rval t' waited hselect
    obtain ⟨usec, hslice, hrun⟩ := run_of_tmSelect hselect
    obtain ⟨-, -, -, k, -, hmul⟩ := rounds_done hrun
    have husec : sliceUsec 60 = some 60000 := by decide
    rw [husec, Option.some.injEq] at hslice
    rw [← hslice] at hmul
    change (1 : Int) = k * 60000 at hmul
    omega
  refine ⟨hends, ?_⟩
  rintro ⟨n, t', waited, hselect, -⟩
  exact hends n 0 t' waited hselect

end Io
end TmULThreads
