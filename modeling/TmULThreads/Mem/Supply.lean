import TmULThreads.Mem.Histories
import TmULThreads.Lib.BlockPool

/-!
# A memory pool as a supply of blocks

The functions of `mem_main.c` for one pool, seen by a module that takes its records from
it.  `serves_pool` states that a pool of less than 2 GiB is a pool of blocks.
-/

namespace TmULThreads
namespace Mem

/-- `alloc_block` and `free_blk` for one pool. -/
def poolOps (memid : Nat) : BlockPool.Ops MemState where
  alloc m := allocBlock m memid
  free m addr := freeBlk m memid addr

/-- The addresses of all blocks of a pool. -/
def MemInfo.blocks (p : MemInfo) : Finset Nat := (Finset.range p.nblks.toNat).image p.blockAddr

/-- The pool that was made as `p₀` has the blocks of `out` out. -/
def Supplies (memid n : Nat) (p₀ : MemInfo) (m : MemState) (out : Finset Nat) : Prop :=
  ∃ p used, SamePool p₀ p ∧ Keeps memid n ⟨m, ∅, out⟩ p used

theorem Sized.card_blocks {p : MemInfo} (h : Sized p) : p.blocks.card = p.nblks.toNat := by
  rw [MemInfo.blocks, Finset.card_image_of_injOn, Finset.card_range]
  intro i hi j hj heq
  exact h.blockAddr_inj (Finset.mem_range.mp hi) (Finset.mem_range.mp hj) heq

section

variable {memid n : Nat} {p₀ p : MemInfo} {m : MemState} {used out : Finset Nat}

theorem Keeps.supplies (hsame : SamePool p₀ p) (hk : Keeps memid n ⟨m, ∅, out⟩ p used)
    {p' : MemInfo} {used' : Finset Nat} (hsame' : SamePool p p') (htracks : Tracks p' used') :
    Supplies memid n p₀ (m.set p') (used'.image p.blockAddr) := by
  refine ⟨p', used', hsame.trans hsame', hk.of_samePool hsame' htracks rfl ?_⟩
  exact fun a ha => absurd ha (Finset.notMem_empty a)

theorem Supplies.alloc (h : Supplies memid n p₀ m out) :
    (out = p₀.blocks ∧ ∃ m', allocBlock m memid = some (m', 0) ∧ Supplies memid n p₀ m' out) ∨
      ∃ m' a, a ∉ out ∧ allocBlock m memid = some (m', a) ∧
        Supplies memid n p₀ m' (insert a out) := by
  obtain ⟨p, used, hsame, hk⟩ := h
  have hout : out = used.image p.blockAddr := hk.out
  rcases hk.tracks.allocBlock_cases with ⟨hfull, halloc⟩ | ⟨i, p', hi, hnot, -, halloc, htracks, hp'⟩
  · left
    refine ⟨?_, _, hk.allocBlock_eq halloc, ?_⟩
    · have hall : used = Finset.range p.nblks.toNat := by
        refine Finset.eq_of_subset_of_card_le hk.tracks.sub ?_
        rw [Finset.card_range, hfull]
      rw [hout, hall, MemInfo.blocks, hsame.blockAddr, hsame.nblks]
    · have hsupplies := hk.supplies hsame (SamePool.refl p) hk.tracks
      rwa [← hout] at hsupplies
  · right
    refine ⟨_, _, ?_, hk.allocBlock_eq halloc, ?_⟩
    · exact fun hmem => hnot ((hk.mem_out_iff hi).mp hmem)
    · have hsupplies := hk.supplies hsame hp' htracks
      rwa [Finset.image_insert, ← hout] at hsupplies

theorem Supplies.free (h : Supplies memid n p₀ m out) {a : Nat} (ha : a ∈ out) :
    ∃ m', freeBlk m memid a = some (m', 0) ∧ Supplies memid n p₀ m' (out.erase a) := by
  obtain ⟨p, used, hsame, hk⟩ := h
  have hout : out = used.image p.blockAddr := hk.out
  rw [hout] at ha
  obtain ⟨i, hused, rfl⟩ := Finset.mem_image.mp ha
  have hi := Finset.mem_range.mp (hk.tracks.sub hused)
  rcases hk.tracks.freeBlk_block hk.sized hi with ⟨hnot, -⟩ | ⟨p', -, hfree, htracks, hp'⟩
  · exact absurd hused hnot
  · refine ⟨_, hk.freeBlk_eq hfree, ?_⟩
    have hsupplies := hk.supplies hsame hp' htracks
    rwa [← hk.sized.erase_image hk.tracks.sub hi, ← hout] at hsupplies

end

/-- A pool of less than 2 GiB is a pool of its blocks. -/
theorem serves_pool {memid n : Nat} {p : MemInfo}
    (haddr : ∀ i < p.nblks.toNat, p.blockAddr i ≠ 0) :
    BlockPool.Serves (poolOps memid) p.blocks (Supplies memid n p) where
  null := by
    rw [MemInfo.blocks, Finset.mem_image]
    rintro ⟨i, hi, hzero⟩
    exact haddr i (Finset.mem_range.mp hi) hzero
  sub := by
    rintro m out ⟨q, used, hsame, hk⟩
    have hout : out = used.image q.blockAddr := hk.out
    rw [hout, MemInfo.blocks, hsame.blockAddr, ← hsame.nblks]
    exact Finset.image_subset_image hk.tracks.sub
  alloc h := h.alloc
  free h ha := h.free ha

end Mem
end TmULThreads
