import Mathlib.Data.List.Nodup
import Mathlib.Logic.Function.Basic
import Mathlib.Tactic

/-!
# Chains of linked records

A chain is a sequence of records, each of which holds the address of the next one; zero ends
it.  `next` is the field of all records at once, so that a write to one record is a
`Function.update`.

`search` is the loop that every operation on a chain is made of: it goes along the chain to
the first record with some property, and remembers the record before it.  `Chain.relink` says
what a write to the link at the place where a search has stopped does to the chain.
-/

namespace LinkedChain

/-- The records of `l`, in this order, starting at the address `a`. -/
inductive Chain (next : Nat → Nat) : Nat → List Nat → Prop
  | nil : Chain next 0 []
  | cons {a : Nat} {l : List Nat} (hne : a ≠ 0) (hrest : Chain next (next a) l) :
      Chain next a (a :: l)

variable {next next' : Nat → Nat} {a : Nat} {l : List Nat}

theorem chain_nil_iff : Chain next a [] ↔ a = 0 := by
  constructor
  · intro h
    cases h
    rfl
  · rintro rfl
    exact .nil

theorem chain_cons_iff {b : Nat} :
    Chain next a (b :: l) ↔ a = b ∧ b ≠ 0 ∧ Chain next (next b) l := by
  constructor
  · intro h
    cases h with
    | cons hne hrest => exact ⟨rfl, hne, hrest⟩
  · rintro ⟨rfl, hne, hrest⟩
    exact .cons hne hrest

theorem Chain.ne_zero (h : Chain next a l) : ∀ b ∈ l, b ≠ 0 := by
  induction h with
  | nil => exact fun b hb => absurd hb List.not_mem_nil
  | cons hne _ ih =>
      intro b hb
      rcases List.mem_cons.mp hb with rfl | hrest
      · exact hne
      · exact ih b hrest

/-- Only the links of the chain itself matter. -/
theorem Chain.congr (h : Chain next a l) (heq : ∀ b ∈ l, next' b = next b) : Chain next' a l := by
  induction h with
  | nil => exact .nil
  | cons hne _ ih =>
      refine .cons hne ?_
      rw [heq _ List.mem_cons_self]
      exact ih fun b hb => heq b (List.mem_cons_of_mem _ hb)

/-- A write to a record outside of the chain. -/
theorem Chain.update (h : Chain next a l) {b : Nat} (hb : b ∉ l) (ptr : Nat) :
    Chain (Function.update next b ptr) a l := by
  refine h.congr fun c hc => Function.update_of_ne ?_ _ _
  rintro rfl
  exact hb hc

/-! ## Loops -/

/-- The record before the one where the loop stops, or `prev`, and the record itself, or zero
at the end of the chain. -/
def search (next : Nat → Nat) (p : Nat → Bool) : Nat → Nat → Nat → Option (Nat × Nat)
  | 0, _, _ => none
  | fuel + 1, prev, a =>
      if a = 0 then some (prev, 0)
      else if p a then some (prev, a)
      else search next p fuel a (next a)

theorem Chain.search_eq (h : Chain next a l) (p : Nat → Bool) {fuel : Nat}
    (hfuel : l.length < fuel) (prev : Nat) :
    search next p fuel prev a =
      some ((l.takeWhile fun b => !p b).getLast?.getD prev, (l.find? p).getD 0) := by
  induction h generalizing fuel prev with
  | nil =>
      obtain ⟨k, rfl⟩ : ∃ k, fuel = k + 1 := ⟨fuel - 1, by simp at hfuel; omega⟩
      rfl
  | @cons a l hne _ ih =>
      obtain ⟨k, rfl⟩ : ∃ k, fuel = k + 1 := ⟨fuel - 1, by simp at hfuel; omega⟩
      rw [search, if_neg hne]
      cases hp : p a with
      | true => simp [hp]
      | false =>
          have hlen : l.length < k := Nat.lt_of_succ_lt_succ hfuel
          rw [if_neg Bool.false_ne_true, ih hlen a]
          simp only [List.takeWhile_cons, hp, Bool.not_false, if_true, List.find?_cons_of_neg,
            Bool.false_eq_true, not_false_eq_true, List.getLast?_cons, Option.getD_some]

/-- Where a search by a property of records stops: at the end, or at the first record with
the property. -/
theorem Chain.search_cases (h : Chain next a l) (p : Nat → Bool) {fuel : Nat}
    (hfuel : l.length < fuel) :
    (∃ prev, search next p fuel 0 a = some (prev, 0) ∧ ∀ b ∈ l, p b = false) ∨
      ∃ front b back, l = front ++ b :: back ∧ b ≠ 0 ∧ p b = true ∧
        search next p fuel 0 a = some (front.getLast?.getD 0, b) := by
  rw [h.search_eq p hfuel 0]
  cases hfind : l.find? p with
  | none =>
      refine .inl ⟨_, rfl, fun b hb => ?_⟩
      exact Bool.eq_false_iff.mpr (List.find?_eq_none.mp hfind b hb)
  | some b =>
      obtain ⟨hp, front, back, hl, hfront⟩ := List.find?_eq_some_iff_append.mp hfind
      refine .inr ⟨front, b, back, hl, h.ne_zero b ?_, hp, ?_⟩
      · rw [hl]
        exact List.mem_append_right _ List.mem_cons_self
      · have htake : l.takeWhile (fun b => !p b) = front := by
          rw [hl, List.takeWhile_append_of_pos hfront, List.takeWhile_cons_of_neg, List.append_nil]
          rw [hp]
          exact Bool.false_ne_true
        rw [htake, Option.getD_some]

/-- The search for the record without a successor. -/
theorem Chain.search_last (h : Chain next a l) {fuel : Nat} (hfuel : l.length < fuel) (prev : Nat) :
    ∃ prev', search next (fun b => next b = 0) fuel prev a = some (prev', l.getLast?.getD 0) := by
  induction h generalizing fuel prev with
  | nil =>
      obtain ⟨k, rfl⟩ : ∃ k, fuel = k + 1 := ⟨fuel - 1, by simp at hfuel; omega⟩
      exact ⟨prev, rfl⟩
  | @cons a l hne hrest ih =>
      obtain ⟨k, rfl⟩ : ∃ k, fuel = k + 1 := ⟨fuel - 1, by simp at hfuel; omega⟩
      rw [search, if_neg hne]
      cases l with
      | nil =>
          rw [if_pos (decide_eq_true (chain_nil_iff.mp hrest))]
          exact ⟨prev, rfl⟩
      | cons b l =>
          obtain ⟨hb, hne', -⟩ := chain_cons_iff.mp hrest
          have hmore : ¬ decide (next a = 0) = true := by
            rw [decide_eq_true_eq, hb]
            exact hne'
          rw [if_neg hmore, List.getLast?_cons_cons]
          exact ih (Nat.lt_of_succ_lt_succ hfuel) a

/-- The records of a chain, one after the other. -/
def walk (next : Nat → Nat) : Nat → Nat → Option (List Nat)
  | 0, _ => none
  | fuel + 1, a => if a = 0 then some [] else (walk next fuel (next a)).map (a :: ·)

theorem Chain.walk_eq (h : Chain next a l) {fuel : Nat} (hfuel : l.length < fuel) :
    walk next fuel a = some l := by
  induction h generalizing fuel with
  | nil =>
      obtain ⟨k, rfl⟩ : ∃ k, fuel = k + 1 := ⟨fuel - 1, by simp at hfuel; omega⟩
      rfl
  | @cons a l hne _ ih =>
      obtain ⟨k, rfl⟩ : ∃ k, fuel = k + 1 := ⟨fuel - 1, by simp at hfuel; omega⟩
      rw [walk, if_neg hne, ih (Nat.lt_of_succ_lt_succ hfuel)]
      rfl

/-! ## Links -/

/-- The link behind the records `front` is made to point to `ptr`; if there are none, this is
the link outside of the chain. -/
def relinked (next : Nat → Nat) (front : List Nat) (ptr : Nat) : Nat → Nat :=
  match front.getLast? with
  | none => next
  | some b => Function.update next b ptr

theorem relinked_of_not_mem {front : List Nat} {ptr b : Nat} (hb : b ∉ front) :
    relinked next front ptr b = next b := by
  unfold relinked
  cases hlast : front.getLast? with
  | none => rfl
  | some c =>
      refine Function.update_of_ne ?_ _ _
      rintro rfl
      exact hb (List.mem_of_getLast? hlast)

/-- A write to a record behind them can be done before or after. -/
theorem update_relinked {front : List Nat} {ptr b x : Nat} (hb : b ∉ front) :
    Function.update (relinked next front ptr) b x = relinked (Function.update next b x) front ptr := by
  unfold relinked
  cases hlast : front.getLast? with
  | none => rfl
  | some c =>
      refine Function.update_comm ?_ _ _ _
      rintro rfl
      exact hb (List.mem_of_getLast? hlast)

/-- The records in front keep their places, and what `ptr` leads to comes behind them. -/
theorem Chain.relink {front back tail : List Nat} {ptr : Nat} (h : Chain next a (front ++ back))
    (hnodup : front.Nodup) (htail : Chain next ptr tail) (hapart : ∀ b ∈ front, b ∉ tail) :
    Chain (relinked next front ptr) (if front = [] then ptr else a) (front ++ tail) := by
  induction front generalizing a with
  | nil => exact htail
  | cons b front ih =>
      rw [List.cons_append] at h
      cases h with
      | cons hne hrest =>
          obtain ⟨hb, hfront⟩ := List.nodup_cons.mp hnodup
          have hbtail := hapart b List.mem_cons_self
          have hrec := ih hrest hfront fun c hc => hapart c (List.mem_cons_of_mem _ hc)
          rw [if_neg (List.cons_ne_nil _ _), List.cons_append]
          refine .cons hne ?_
          cases front with
          | nil =>
              -- the link that is written is that of `b`
              show Chain (Function.update next b ptr) (Function.update next b ptr b) tail
              rw [Function.update_self]
              exact htail.update hbtail ptr
          | cons c front =>
              have hsame : relinked next (b :: c :: front) ptr = relinked next (c :: front) ptr := by
                unfold relinked
                rw [List.getLast?_cons_cons]
              rw [hsame, relinked_of_not_mem hb]
              rw [if_neg (List.cons_ne_nil _ _)] at hrec
              exact hrec

/-- What the link behind the records in front leads to. -/
theorem Chain.behind {front back : List Nat} (h : Chain next a (front ++ back)) :
    Chain next (front.getLast?.elim a next) back := by
  induction front generalizing a with
  | nil => exact h
  | cons b front ih =>
      rw [List.cons_append] at h
      cases h with
      | cons _ hrest =>
          have hrec := ih hrest
          cases front with
          | nil => exact hrec
          | cons c front =>
              rw [List.getLast?_cons_cons]
              cases hlast : (c :: front).getLast? with
              | none => simp at hlast
              | some d =>
                  rw [hlast] at hrec
                  exact hrec

/-- A table of chains that share no record: a write to the link behind the records in front
of one of them changes this one alone. -/
theorem relink_table {n i : Nat} {chains : Nat → List Nat} {start : Nat → Nat}
    {front back tail : List Nat} {ptr : Nat} (hchain : ∀ j < n, Chain next (start j) (chains j))
    (hapart : ∀ j < n, j ≠ i → ∀ b ∈ chains j, b ∉ chains i) (hi : i < n)
    (hsplit : chains i = front ++ back) (hnodup : front.Nodup) (htail : Chain next ptr tail)
    (hfresh : ∀ b ∈ front, b ∉ tail) :
    ∀ j < n, Chain (relinked next front ptr)
      (Function.update start i (if front = [] then ptr else start i) j)
      (Function.update chains i (front ++ tail) j) := by
  intro j hj
  by_cases hji : j = i
  · subst hji
    rw [Function.update_self, Function.update_self]
    exact (hsplit ▸ hchain j hj).relink hnodup htail hfresh
  · rw [Function.update_of_ne hji, Function.update_of_ne hji]
    refine (hchain j hj).congr fun b hb => relinked_of_not_mem fun hfront => ?_
    refine hapart j hj hji b hb ?_
    rw [hsplit]
    exact List.mem_append_left _ hfront

end LinkedChain
