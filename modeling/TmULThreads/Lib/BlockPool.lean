import Mathlib.Data.Finset.Card
import Mathlib.Data.Finset.SDiff

/-!
# Pools of blocks

A pool hands out blocks from a fixed set and takes them back.  `Serves` is what a client
relies on, in terms of the set of blocks that are out: a block that is handed out was not
out before, none is handed out only when all of them are, and every block that is out can be
given back.
-/

namespace BlockPool

variable {σ : Type*}

/-- The operations.  `none` is a call without a defined outcome, and the block `0` means
that there was none. -/
structure Ops (σ : Type*) where
  alloc : σ → Option (σ × Nat)
  free : σ → Nat → Option (σ × Int)

structure Serves (pool : Ops σ) (blocks : Finset Nat) (holds : σ → Finset Nat → Prop) : Prop where
  null : 0 ∉ blocks
  sub : ∀ {s out}, holds s out → out ⊆ blocks
  alloc : ∀ {s out}, holds s out →
    (out = blocks ∧ ∃ s', pool.alloc s = some (s', 0) ∧ holds s' out) ∨
      ∃ s' a, a ∉ out ∧ pool.alloc s = some (s', a) ∧ holds s' (insert a out)
  free : ∀ {s out a}, holds s out → a ∈ out →
    ∃ s', pool.free s a = some (s', 0) ∧ holds s' (out.erase a)

namespace Serves

variable {pool : Ops σ} {blocks out : Finset Nat} {holds : σ → Finset Nat → Prop} {s : σ}

theorem ne_zero (h : Serves pool blocks holds) (hs : holds s out) {a : Nat} (ha : a ∈ out) :
    a ≠ 0 := by
  rintro rfl
  exact h.null (h.sub hs ha)

theorem card_le (h : Serves pool blocks holds) (hs : holds s out) : out.card ≤ blocks.card :=
  Finset.card_le_card (h.sub hs)

/-- A pool has a block to hand out exactly if fewer blocks are out than there are. -/
theorem alloc_cases (h : Serves pool blocks holds) (hs : holds s out) :
    (out.card = blocks.card ∧ ∃ s', pool.alloc s = some (s', 0) ∧ holds s' out) ∨
      ∃ s' a, out.card < blocks.card ∧ a ≠ 0 ∧ a ∉ out ∧ pool.alloc s = some (s', a) ∧
        holds s' (insert a out) := by
  rcases h.alloc hs with ⟨rfl, hfull⟩ | ⟨s', a, hnot, halloc, hs'⟩
  · exact .inl ⟨rfl, hfull⟩
  · have hcard := h.card_le hs'
    rw [Finset.card_insert_of_notMem hnot] at hcard
    exact .inr ⟨s', a, hcard, h.ne_zero hs' (Finset.mem_insert_self _ _), hnot, halloc, hs'⟩

end Serves
end BlockPool
