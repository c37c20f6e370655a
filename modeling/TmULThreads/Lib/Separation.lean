import Mathlib.Algebra.Group.Defs
import Mathlib.Logic.Function.Basic
import Mathlib.Tactic

/-!
# Separation logic for programs over a partial memory

A memory is a partial map from locations to values; a program reads and writes locations and
fails at one that is not there.  An assertion describes a part of the memory exactly, and the
separating conjunction of two assertions describes a memory made of two parts that have no
location in common.  It is written as a product: the assertions are a commutative monoid
whose unit is the empty memory, and `ac_rfl` rearranges a conjunction.

* `Triple P x a Q`: in a memory that has a part described by `P`, the program `x` succeeds with
  the answer `a` and turns that part into one that `Q` describes.  Whatever else the memory
  holds stays as it is.
* `Reads P x a`: the same for a program that leaves the whole memory as it is.

`Focus` finds the cell of a location in a conjunction, and `Part` finds one of its factors, so
that a program can be executed against an assertion, one access or call after the other.
-/

namespace Separation

/-! ## Memories -/

abbrev Heap (κ ν : Type) := κ → Option ν

namespace Heap

variable {κ ν : Type}

def empty : Heap κ ν := fun _ => none

def union (h₁ h₂ : Heap κ ν) : Heap κ ν := fun k => (h₁ k).or (h₂ k)

def Apart (h₁ h₂ : Heap κ ν) : Prop := ∀ k, h₁ k = none ∨ h₂ k = none

def single [DecidableEq κ] (k : κ) (v : ν) : Heap κ ν := Function.update empty k (some v)

theorem Apart.symm {h₁ h₂ : Heap κ ν} (h : Apart h₁ h₂) : Apart h₂ h₁ := fun k => (h k).symm

theorem empty_union (h : Heap κ ν) : union empty h = h := by
  funext k
  exact Option.none_or

theorem union_assoc (h₁ h₂ h₃ : Heap κ ν) :
    union (union h₁ h₂) h₃ = union h₁ (union h₂ h₃) := by
  funext k
  exact Option.or_assoc

theorem union_comm {h₁ h₂ : Heap κ ν} (h : Apart h₁ h₂) : union h₁ h₂ = union h₂ h₁ := by
  funext k
  rcases h k with hk | hk
  · simp [union, hk]
  · simp [union, hk]

theorem apart_union {h₁ h₂ h₃ : Heap κ ν} :
    Apart (union h₁ h₂) h₃ ↔ Apart h₁ h₃ ∧ Apart h₂ h₃ := by
  constructor
  · intro h
    refine ⟨fun k => ?_, fun k => ?_⟩
    · rcases h k with hk | hk
      · exact .inl (Option.or_eq_none_iff.mp hk).1
      · exact .inr hk
    · rcases h k with hk | hk
      · exact .inl (Option.or_eq_none_iff.mp hk).2
      · exact .inr hk
  · rintro ⟨h₁₃, h₂₃⟩ k
    rcases h₁₃ k with hk | hk
    · rcases h₂₃ k with hk' | hk'
      · exact .inl (Option.or_eq_none_iff.mpr ⟨hk, hk'⟩)
      · exact .inr hk'
    · exact .inr hk

theorem single_union_self [DecidableEq κ] (k : κ) (v : ν) (h : Heap κ ν) :
    union (single k v) h k = some v := by
  simp [union, single]

theorem apart_single [DecidableEq κ] {k : κ} {v : ν} {h : Heap κ ν} :
    Apart (single k v) h ↔ h k = none := by
  constructor
  · intro hapart
    simpa [single] using hapart k
  · intro hk k'
    by_cases heq : k' = k
    · subst heq
      exact .inr hk
    · exact .inl (Function.update_of_ne heq _ _)

theorem update_single_union [DecidableEq κ] (k : κ) (v w : ν) (h : Heap κ ν) :
    Function.update (union (single k v) h) k (some w) = union (single k w) h := by
  funext k'
  by_cases heq : k' = k
  · subst heq
    simp [union, single]
  · simp [union, single, Function.update_of_ne heq]

end Heap

/-! ## Assertions -/

@[ext] structure Assertion (κ ν : Type) where
  Holds : Heap κ ν → Prop

variable {κ ν : Type}

namespace Assertion

instance : One (Assertion κ ν) := ⟨⟨fun h => h = Heap.empty⟩⟩

instance : Mul (Assertion κ ν) :=
  ⟨fun P Q => ⟨fun h => ∃ h₁ h₂, h = Heap.union h₁ h₂ ∧ Heap.Apart h₁ h₂ ∧ P.Holds h₁ ∧
    Q.Holds h₂⟩⟩

theorem holds_comm {P Q : Assertion κ ν} {h : Heap κ ν} (hmul : (P * Q).Holds h) :
    (Q * P).Holds h := by
  obtain ⟨h₁, h₂, rfl, hapart, hP, hQ⟩ := hmul
  exact ⟨h₂, h₁, Heap.union_comm hapart, hapart.symm, hQ, hP⟩

theorem holds_assoc {P Q R : Assertion κ ν} {h : Heap κ ν} (hmul : (P * Q * R).Holds h) :
    (P * (Q * R)).Holds h := by
  obtain ⟨_, h₃, rfl, hapart, ⟨h₁, h₂, rfl, hapart', hP, hQ⟩, hR⟩ := hmul
  obtain ⟨h₁₃, h₂₃⟩ := Heap.apart_union.mp hapart
  refine ⟨h₁, Heap.union h₂ h₃, Heap.union_assoc .., ?_, hP, h₂, h₃, rfl, h₂₃, hQ, hR⟩
  exact (Heap.apart_union.mpr ⟨hapart'.symm, h₁₃.symm⟩).symm

instance : CommMonoid (Assertion κ ν) where
  mul_comm := fun P Q => Assertion.ext (funext fun _ => propext ⟨holds_comm, holds_comm⟩)
  mul_assoc := fun P Q R => by
    refine Assertion.ext (funext fun h => propext ⟨holds_assoc, fun hmul => ?_⟩)
    -- The other direction is the same with the factors the other way round.
    exact holds_comm (holds_assoc (holds_comm (holds_assoc (holds_comm hmul))))
  one_mul := fun P => by
    refine Assertion.ext (funext fun h => propext ⟨?_, fun hP => ?_⟩)
    · rintro ⟨h₁, h₂, rfl, -, rfl, hP⟩
      rwa [Heap.empty_union]
    · exact ⟨Heap.empty, h, (Heap.empty_union h).symm, fun _ => .inl rfl, rfl, hP⟩
  mul_one := fun P => by
    refine Assertion.ext (funext fun h => propext ⟨?_, fun hP => ?_⟩)
    · rintro hmul
      obtain ⟨h₁, h₂, rfl, -, rfl, hP⟩ := holds_comm hmul
      rwa [Heap.empty_union]
    · exact holds_comm ⟨Heap.empty, h, (Heap.empty_union h).symm, fun _ => .inl rfl, rfl, hP⟩

/-- One of a family of assertions. -/
def any {ι : Type} (P : ι → Assertion κ ν) : Assertion κ ν := ⟨fun h => ∃ i, (P i).Holds h⟩

theorem any_mul {ι : Type} (P : ι → Assertion κ ν) (Q : Assertion κ ν) :
    any P * Q = any fun i => P i * Q := by
  ext h
  constructor
  · rintro ⟨h₁, h₂, hh, hapart, ⟨i, hP⟩, hQ⟩
    exact ⟨i, h₁, h₂, hh, hapart, hP, hQ⟩
  · rintro ⟨i, h₁, h₂, hh, hapart, hP, hQ⟩
    exact ⟨h₁, h₂, hh, hapart, ⟨i, hP⟩, hQ⟩

theorem mul_any {ι : Type} (P : Assertion κ ν) (Q : ι → Assertion κ ν) :
    P * any Q = any fun i => P * Q i := by
  rw [mul_comm, any_mul]
  congr 1
  funext i
  exact mul_comm ..

end Assertion

/-- One location with its value. -/
def cell [DecidableEq κ] (k : κ) (v : ν) : Assertion κ ν := ⟨fun h => h = Heap.single k v⟩

theorem holds_cell_mul [DecidableEq κ] {k : κ} {v : ν} {F : Assertion κ ν} {h : Heap κ ν} :
    (cell k v * F).Holds h ↔ ∃ g, h = Heap.union (Heap.single k v) g ∧ g k = none ∧ F.Holds g := by
  constructor
  · rintro ⟨_, g, rfl, hapart, rfl, hF⟩
    exact ⟨g, rfl, Heap.apart_single.mp hapart, hF⟩
  · rintro ⟨g, rfl, hk, hF⟩
    exact ⟨_, g, rfl, Heap.apart_single.mpr hk, rfl, hF⟩

/-! ## Satisfiable assertions -/

/-- Some memory with locations from `S` only is described by `P`. -/
def Fits (P : Assertion κ ν) (S : Set κ) : Prop := ∃ h, P.Holds h ∧ ∀ k, h k ≠ none → k ∈ S

section Fits

variable {P Q : Assertion κ ν} {S T : Set κ}

theorem Fits.exists_holds (h : Fits P S) : ∃ h, P.Holds h := by
  obtain ⟨m, hP, -⟩ := h
  exact ⟨m, hP⟩

theorem Fits.mono (h : Fits P S) (hST : S ⊆ T) : Fits P T := by
  obtain ⟨m, hP, hm⟩ := h
  exact ⟨m, hP, fun k hk => hST (hm k hk)⟩

theorem fits_one : Fits (1 : Assertion κ ν) S := ⟨Heap.empty, rfl, fun _ hk => absurd rfl hk⟩

theorem fits_cell [DecidableEq κ] (k : κ) (v : ν) : Fits (cell k v) {k} := by
  refine ⟨Heap.single k v, rfl, fun k' hk' => ?_⟩
  by_contra hne
  exact hk' (Function.update_of_ne hne _ _)

theorem fits_any {ι : Type} {P : ι → Assertion κ ν} (i : ι) (h : Fits (P i) S) :
    Fits (Assertion.any P) S := by
  obtain ⟨m, hP, hm⟩ := h
  exact ⟨m, ⟨i, hP⟩, hm⟩

theorem Fits.mul (hP : Fits P S) (hQ : Fits Q T) (hST : ∀ k ∈ S, k ∉ T) :
    Fits (P * Q) (S ∪ T) := by
  obtain ⟨h₁, hP, hS⟩ := hP
  obtain ⟨h₂, hQ, hT⟩ := hQ
  refine ⟨_, ⟨h₁, h₂, rfl, fun k => ?_, hP, hQ⟩, fun k hk => ?_⟩
  · by_contra hboth
    rw [not_or] at hboth
    exact hST k (hS k hboth.1) (hT k hboth.2)
  · by_cases hk₁ : h₁ k = none
    · rw [Heap.union, hk₁, Option.none_or] at hk
      exact .inr (hT k hk)
    · exact .inl (hS k hk₁)

theorem fits_prod {ι : Type} (xs : List ι) {P : ι → Assertion κ ν} {S : ι → Set κ}
    (hP : ∀ i, Fits (P i) (S i)) (hS : xs.Pairwise fun i j => ∀ k ∈ S i, k ∉ S j) :
    Fits (xs.map P).prod {k | ∃ i ∈ xs, k ∈ S i} := by
  induction xs with
  | nil => exact fits_one
  | cons i xs ih =>
      rw [List.pairwise_cons] at hS
      rw [List.map_cons, List.prod_cons]
      refine ((hP i).mul (ih hS.2) ?_).mono ?_
      · rintro k hk ⟨j, hj, hk'⟩
        exact hS.1 j hj k hk hk'
      · rintro k (hk | ⟨j, hj, hk⟩)
        · exact ⟨i, List.mem_cons_self, hk⟩
        · exact ⟨j, List.mem_cons_of_mem i hj, hk⟩

end Fits

/-! ## Programs -/

abbrev Prog (κ ν : Type) := StateT (Heap κ ν) Option

def load (k : κ) : Prog κ ν ν := fun h => (h k).map fun v => (v, h)

def store [DecidableEq κ] (k : κ) (v : ν) : Prog κ ν Unit := fun h =>
  (h k).map fun _ => ((), Function.update h k (some v))

variable {α β : Type}

/-- The program succeeds, and what it does to the rest of the memory is nothing. -/
def Triple (P : Assertion κ ν) (x : Prog κ ν α) (a : α) (Q : Assertion κ ν) : Prop :=
  ∀ (F : Assertion κ ν) (h : Heap κ ν), (P * F).Holds h →
    ∃ h', x h = some (a, h') ∧ (Q * F).Holds h'

/-- The program succeeds and changes nothing. -/
def Reads (P : Assertion κ ν) (x : Prog κ ν α) (a : α) : Prop :=
  ∀ (F : Assertion κ ν) (h : Heap κ ν), (P * F).Holds h → x h = some (a, h)

/-- What follows from an assertion about a part of the memory. -/
def Entails (P : Assertion κ ν) (p : Prop) : Prop :=
  ∀ (F : Assertion κ ν) (h : Heap κ ν), (P * F).Holds h → p

section Rules

variable {P P' Q R F : Assertion κ ν} {x : Prog κ ν α} {f : α → Prog κ ν β} {a a' : α} {b : β}

theorem Triple.pure : Triple P (pure a) a P := fun _ h hP => ⟨h, rfl, hP⟩

theorem Triple.bind (hx : Triple P x a R) (hf : Triple R (f a) b Q) : Triple P (x >>= f) b Q := by
  intro F h hP
  obtain ⟨h', hrun, hR⟩ := hx F h hP
  obtain ⟨h'', hrun', hQ⟩ := hf F h' hR
  refine ⟨h'', ?_, hQ⟩
  show (x h).bind (fun r => f r.1 r.2) = some (b, h'')
  rw [hrun]
  exact hrun'

theorem Triple.post (hx : Triple P x a Q) (h : Q = R) : Triple P x a R := h ▸ hx

theorem Triple.frame (hx : Triple P x a Q) (F : Assertion κ ν) : Triple (P * F) x a (Q * F) := by
  intro G h hP
  rw [mul_assoc] at hP
  obtain ⟨h', hrun, hQ⟩ := hx (F * G) h hP
  exact ⟨h', hrun, by rwa [mul_assoc]⟩

theorem Triple.of_any {ι : Type} {P : ι → Assertion κ ν} (hx : ∀ i, Triple (P i) x a Q) :
    Triple (Assertion.any P) x a Q := by
  intro F h hP
  rw [Assertion.any_mul] at hP
  obtain ⟨i, hP⟩ := hP
  exact hx i F h hP

theorem Triple.to_any {ι : Type} {Q : ι → Assertion κ ν} (i : ι) (hx : Triple P x a (Q i)) :
    Triple P x a (Assertion.any Q) := by
  intro F h hP
  obtain ⟨h', hrun, hQ⟩ := hx F h hP
  refine ⟨h', hrun, ?_⟩
  rw [Assertion.any_mul]
  exact ⟨i, hQ⟩

theorem Reads.pure : Reads P (pure a) a := fun _ _ _ => rfl

theorem Reads.triple (hx : Reads P x a) : Triple P x a P := fun F h hP => ⟨h, hx F h hP, hP⟩

theorem Reads.then (hx : Reads P x a) (hf : Triple P (f a) b Q) : Triple P (x >>= f) b Q :=
  Triple.bind hx.triple hf

theorem Reads.bind (hx : Reads P x a) (hf : Reads P (f a) b) : Reads P (x >>= f) b := by
  intro F h hP
  show (x h).bind (fun r => f r.1 r.2) = some (b, h)
  rw [hx F h hP]
  exact hf F h hP

theorem Reads.frame (hx : Reads P x a) (F : Assertion κ ν) : Reads (P * F) x a := by
  intro G h hP
  rw [mul_assoc] at hP
  exact hx (F * G) h hP

theorem Reads.of_eq (hx : Reads P x a) (h : a = a') : Reads P x a' := h ▸ hx

theorem Entails.frame {p : Prop} (hp : Entails P p) (h : P' = P * F) : Entails P' p := by
  subst h
  intro G h hP
  rw [mul_assoc] at hP
  exact hp (F * G) h hP

theorem Triple.of_entails {p : Prop} (hp : Entails P p) (hx : p → Triple P x a Q) :
    Triple P x a Q :=
  fun F h hP => hx (hp F h hP) F h hP

theorem Reads.of_entails {p : Prop} (hp : Entails P p) (hx : p → Reads P x a) : Reads P x a :=
  fun F h hP => hx (hp F h hP) F h hP

end Rules

/-! ## Factors of a conjunction -/

/-- The assertion `R` is a factor of `P`; with another one in its place `P` would be `put`. -/
class Part (P R : Assertion κ ν) (put : outParam (Assertion κ ν → Assertion κ ν)) : Prop where
  exists_frame : ∃ F, P = R * F ∧ ∀ S, put S = S * F

instance Part.here (R : Assertion κ ν) : Part R R (fun S => S) where
  exists_frame := ⟨1, (mul_one _).symm, fun _ => (mul_one _).symm⟩

instance Part.left {P Q R : Assertion κ ν} {put : Assertion κ ν → Assertion κ ν}
    [hP : Part P R put] : Part (P * Q) R (fun S => put S * Q) where
  exists_frame := by
    obtain ⟨F, rfl, hput⟩ := hP.exists_frame
    exact ⟨F * Q, mul_assoc .., fun S => by rw [hput, mul_assoc]⟩

instance Part.right {P Q R : Assertion κ ν} {put : Assertion κ ν → Assertion κ ν}
    [hQ : Part Q R put] : Part (P * Q) R (fun S => P * put S) where
  exists_frame := by
    obtain ⟨F, rfl, hput⟩ := hQ.exists_frame
    exact ⟨P * F, mul_left_comm .., fun S => by rw [hput, mul_left_comm]⟩

/-- A program that works on a factor. -/
theorem Triple.at {P R S : Assertion κ ν} {put : Assertion κ ν → Assertion κ ν}
    {x : Prog κ ν α} {a : α} [hP : Part P R put] (hx : Triple R x a S) : Triple P x a (put S) := by
  obtain ⟨F, rfl, hput⟩ := hP.exists_frame
  rw [hput]
  exact hx.frame F

theorem Reads.at {P R : Assertion κ ν} {put : Assertion κ ν → Assertion κ ν}
    {x : Prog κ ν α} {a : α} [hP : Part P R put] (hx : Reads R x a) : Reads P x a := by
  obtain ⟨F, rfl, -⟩ := hP.exists_frame
  exact hx.frame F

/-! ## Cells in a conjunction -/

variable [DecidableEq κ]

/-- The assertion `P` has the cell of `k`, with the value `v`; with another value there it
would be `put`. -/
class Focus (P : Assertion κ ν) (k : κ) (v : outParam ν) (put : outParam (ν → Assertion κ ν)) :
    Prop where
  exists_frame : ∃ F, P = cell k v * F ∧ ∀ w, put w = cell k w * F

instance Focus.here (k : κ) (v : ν) : Focus (cell k v) k v (cell k) where
  exists_frame := ⟨1, (mul_one _).symm, fun _ => (mul_one _).symm⟩

instance Focus.left {P Q : Assertion κ ν} {k : κ} {v : ν} {put : ν → Assertion κ ν}
    [hP : Focus P k v put] : Focus (P * Q) k v (fun w => put w * Q) where
  exists_frame := by
    obtain ⟨F, rfl, hput⟩ := hP.exists_frame
    exact ⟨F * Q, mul_assoc .., fun w => by rw [hput, mul_assoc]⟩

instance Focus.right {P Q : Assertion κ ν} {k : κ} {v : ν} {put : ν → Assertion κ ν}
    [hQ : Focus Q k v put] : Focus (P * Q) k v (fun w => P * put w) where
  exists_frame := by
    obtain ⟨F, rfl, hput⟩ := hQ.exists_frame
    exact ⟨P * F, mul_left_comm .., fun w => by rw [hput, mul_left_comm]⟩

section Cells

variable {P : Assertion κ ν} {k : κ} {v : ν} {put : ν → Assertion κ ν}

theorem reads_load [hP : Focus P k v put] : Reads P (load k) v := by
  intro F h hh
  obtain ⟨G, rfl, -⟩ := hP.exists_frame
  rw [mul_assoc] at hh
  obtain ⟨g, rfl, -, -⟩ := holds_cell_mul.mp hh
  simp [load, Heap.single_union_self]

theorem triple_store [hP : Focus P k v put] (w : ν) : Triple P (store k w) () (put w) := by
  intro F h hh
  obtain ⟨G, rfl, hput⟩ := hP.exists_frame
  rw [mul_assoc] at hh
  obtain ⟨g, rfl, hk, hg⟩ := holds_cell_mul.mp hh
  refine ⟨Heap.union (Heap.single k w) g, ?_, ?_⟩
  · simp [store, Heap.single_union_self, Heap.update_single_union]
  · rw [hput, mul_assoc]
    exact holds_cell_mul.mpr ⟨g, rfl, hk, hg⟩

/-- Two parts of a memory have no location in common. -/
theorem entails_ne {Q : Assertion κ ν} {k' : κ} {v' : ν} {put' : ν → Assertion κ ν}
    [hP : Focus P k v put] [hQ : Focus Q k' v' put'] : Entails (P * Q) (k ≠ k') := by
  rintro F h hh rfl
  obtain ⟨G, rfl, -⟩ := hP.exists_frame
  obtain ⟨G', rfl, -⟩ := hQ.exists_frame
  have hswap : cell k v * G * (cell k v' * G') * F = cell k v * (cell k v' * (G * G' * F)) := by
    ac_rfl
  rw [hswap] at hh
  obtain ⟨g, -, hk, hg⟩ := holds_cell_mul.mp hh
  obtain ⟨g', rfl, -, -⟩ := holds_cell_mul.mp hg
  rw [Heap.single_union_self] at hk
  cases hk

end Cells

end Separation
