import Mathlib.Data.Finset.Card
import Mathlib.Data.Finset.Range
import Mathlib.Data.List.GetD
import Mathlib.Data.List.Range

/-!
# Tables of free slots

A table of `n` slots in which slot `i` holds the word `addr i` while the slot is
free, and zero while it is taken.  The abstract content of such a table is the
set of the indices that are taken; `table` is the list that a program keeps for
it.  Taking the first free slot and giving a slot back are `insert` and `erase`
on that set.
-/

namespace SlotTable

variable (addr : Nat → Nat) (n : Nat)

/-- The list that stands for the set of taken slots. -/
def table (used : Finset Nat) : List Nat :=
  (List.range n).map fun i => if i ∈ used then 0 else addr i

@[simp] theorem length_table (used : Finset Nat) : (table addr n used).length = n := by
  simp [table]

theorem getElem?_table (used : Finset Nat) {i : Nat} (hi : i < n) :
    (table addr n used)[i]? = some (if i ∈ used then 0 else addr i) := by
  simp [table, hi]

/-- The first slot that does not hold zero. -/
def firstFree (slots : List Nat) : Option Nat := slots.findIdx? (· ≠ 0)

variable {addr n}

theorem firstFree_table_eq_some (haddr : ∀ i < n, addr i ≠ 0) {used : Finset Nat} {i : Nat} :
    firstFree (table addr n used) = some i ↔ i < n ∧ i ∉ used ∧ ∀ j < i, j ∈ used := by
  have hslot (j : Nat) (hj : j < n) : (if j ∈ used then 0 else addr j) ≠ 0 ↔ j ∉ used := by
    by_cases hused : j ∈ used
    · simp [hused]
    · simp [hused, haddr j hj]
  simp only [firstFree, List.findIdx?_eq_some_iff_getElem, length_table, decide_eq_true_eq]
  constructor
  · rintro ⟨hi, hfree, hbefore⟩
    simp only [table, List.getElem_map, List.getElem_range] at hfree hbefore
    refine ⟨hi, (hslot i hi).mp hfree, fun j hj => ?_⟩
    by_contra hused
    exact hbefore j hj ((hslot j (hj.trans hi)).mpr hused)
  · rintro ⟨hi, hfree, hbefore⟩
    refine ⟨hi, ?_, fun j hj => ?_⟩
    · simp only [table, List.getElem_map, List.getElem_range]
      exact (hslot i hi).mpr hfree
    · simp only [table, List.getElem_map, List.getElem_range]
      exact fun hne => (hslot j (hj.trans hi)).mp hne (hbefore j hj)

/-- No slot is free exactly when all are taken. -/
theorem firstFree_table_eq_none (haddr : ∀ i < n, addr i ≠ 0) {used : Finset Nat} :
    firstFree (table addr n used) = none ↔ ∀ i < n, i ∈ used := by
  constructor
  · intro hnone i
    -- the least index outside the set would have been found
    induction i using Nat.strong_induction_on with
    | _ i ih =>
        intro hi
        by_contra hfree
        have hfound := (firstFree_table_eq_some haddr).mpr
          ⟨hi, hfree, fun j hj => ih j hj (hj.trans hi)⟩
        rw [hnone] at hfound
        cases hfound
  · intro hall
    cases hfound : firstFree (table addr n used) with
    | none => rfl
    | some i =>
        obtain ⟨hi, hfree, -⟩ := (firstFree_table_eq_some haddr).mp hfound
        exact absurd (hall i hi) hfree

theorem set_table_zero (used : Finset Nat) (i : Nat) :
    (table addr n used).set i 0 = table addr n (insert i used) := by
  apply List.ext_getElem
  · simp
  · intro j hj _
    simp only [List.getElem_set, table, List.getElem_map, List.getElem_range, Finset.mem_insert]
    by_cases hij : i = j
    · simp [hij]
    · simp [hij, Ne.symm hij]

theorem set_table_addr (used : Finset Nat) (i : Nat) :
    (table addr n used).set i (addr i) = table addr n (used.erase i) := by
  apply List.ext_getElem
  · simp
  · intro j hj _
    simp only [List.getElem_set, table, List.getElem_map, List.getElem_range, Finset.mem_erase]
    by_cases hij : i = j
    · simp [hij]
    · simp [hij, Ne.symm hij]

/-- All slots are taken when as many indices are taken as there are slots. -/
theorem all_taken_iff {used : Finset Nat} (hsub : used ⊆ Finset.range n) :
    (∀ i < n, i ∈ used) ↔ used.card = n := by
  constructor
  · intro hall
    have heq : used = Finset.range n :=
      Finset.Subset.antisymm hsub fun i hi => hall i (Finset.mem_range.mp hi)
    rw [heq, Finset.card_range]
  · intro hcard i hi
    have heq : used = Finset.range n := by
      apply Finset.eq_of_subset_of_card_le hsub
      rw [Finset.card_range, hcard]
    rw [heq]
    exact Finset.mem_range.mpr hi

/-- The words of a table other than zero are those of the free slots. -/
theorem countP_table (haddr : ∀ i < n, addr i ≠ 0) {used : Finset Nat}
    (hsub : used ⊆ Finset.range n) :
    (table addr n used).countP (· ≠ 0) + used.card = n := by
  have hfree : (table addr n used).countP (· ≠ 0) = (List.range n).countP (· ∉ used) := by
    rw [table, List.countP_map]
    refine List.countP_congr fun i hi => ?_
    by_cases hused : i ∈ used
    · simp [hused]
    · simp [hused, haddr i (List.mem_range.mp hi)]
  have hcard : (List.range n).countP (· ∉ used) = (Finset.range n \ used).card := by
    rw [Finset.sdiff_eq_filter, List.countP_eq_length_filter]
    rfl
  rw [hfree, hcard, Finset.card_sdiff_add_card_eq_card hsub, Finset.card_range]

/-! ## Taking one slot after the other -/

theorem firstFree_eq_none {slots : List Nat} :
    firstFree slots = none ↔ slots.filter (· ≠ 0) = [] := by
  simp [firstFree, List.findIdx?_eq_none_iff, List.filter_eq_nil_iff]

/-- The first free slot holds the first word that is not zero, and when it has been taken the
other words are still there. -/
theorem filter_of_firstFree {slots : List Nat} {i : Nat} (h : firstFree slots = some i) :
    slots.filter (· ≠ 0) = slots.getD i 0 :: (slots.set i 0).filter (· ≠ 0) := by
  induction slots generalizing i with
  | nil => cases h
  | cons word slots ih =>
      rw [firstFree, List.findIdx?_cons] at h
      by_cases hword : word = 0
      · subst hword
        simp only [ne_eq, not_true_eq_false, decide_false, Bool.false_eq_true, if_false,
          Option.map_eq_some_iff] at h
        obtain ⟨j, hj, rfl⟩ := h
        simpa using ih hj
      · simp only [ne_eq, hword, not_false_eq_true, decide_true, if_true, Option.some.injEq] at h
        subst h
        simp [hword]

end SlotTable
