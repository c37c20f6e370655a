import TmULThreads.Mem.Histories

/-!
# The area of a pool

`mem_pool_create` computes the length of the area in an `unsigned int` and makes up for
what is missing to the alignment, while the blocks are laid out with the full product.
Both steps go wrong.  The padding adds `MACHINE_ALIGNEMENT - align` to `align` before it
adds the sum to the length, so an unaligned length grows by one whole unit and stays
unaligned.  And a product of 2^32 or more is cut off, so the blocks run out of the area.

`areaLaw_iff` states that there is no other way in which the area is not what it should
be.
-/

namespace TmULThreads
namespace Mem

/-- The area has an aligned length, and the blocks lie in it. -/
structure AreaLaw (p : MemInfo) : Prop where
  aligned : machineAlignement ∣ p.eaddr - p.saddr
  contains : ∀ i : Nat, (i : Int) < p.nblks →
    p.saddr ≤ p.saddr + i * p.size ∧ p.saddr + (i + 1) * p.size ≤ p.eaddr

/-! ## The length -/

/-- The product of a `size_t` and an `int`, cut off to an `unsigned int`. -/
theorem toUInt_mul (size : Nat) (nBlks : Int) :
    (toUInt (size * toSizeT nBlks) : Int) = size * nBlks % 2 ^ 32 := by
  have hconv : (toSizeT nBlks : Int) = nBlks % 2 ^ 64 := by
    unfold toSizeT
    omega
  have hdvd : (2 ^ 32 : Int) ∣ 2 ^ 64 := by decide
  calc (toUInt (size * toSizeT nBlks) : Int)
      = size * (nBlks % 2 ^ 64) % 2 ^ 32 := by
        rw [toUInt, Int.natCast_emod, Int.natCast_mul, hconv]
        rfl
    _ = size * nBlks % 2 ^ 32 := by
        rw [Int.mul_emod, Int.emod_emod_of_dvd _ hdvd, ← Int.mul_emod]

/-- Padding or not, the length is as far from the alignment as the product is. -/
theorem poolBytes_aligned_iff (size : Nat) (nBlks : Int) :
    machineAlignement ∣ poolBytes size nBlks ↔ (8 : Int) ∣ size * nBlks := by
  have hbytes := toUInt_mul size nBlks
  simp only [poolBytes]
  generalize toUInt (size * toSizeT nBlks) = bytes at hbytes
  generalize (size : Int) * nBlks = product at hbytes
  unfold machineAlignement toUInt
  split
  · omega
  · omega

theorem poolBytes_of_aligned {size : Nat} {nBlks : Int} (h : (8 : Int) ∣ size * nBlks) :
    (poolBytes size nBlks : Int) = size * nBlks % 2 ^ 32 := by
  have hbytes := toUInt_mul size nBlks
  have hzero : toUInt (size * toSizeT nBlks) % machineAlignement = 0 := by
    unfold machineAlignement
    omega
  have hlen : poolBytes size nBlks = toUInt (size * toSizeT nBlks) := by
    simp only [poolBytes]
    rw [if_neg (not_not.mpr hzero)]
  rw [hlen, hbytes]

/-! ## The blocks -/

/-- The blocks lie in an area exactly if the last one does. -/
theorem blocks_le_iff (size bytes : Nat) (nBlks : Int) :
    (∀ i : Nat, (i : Int) < nBlks → (i + 1) * size ≤ bytes) ↔ nBlks * size ≤ bytes := by
  constructor
  · intro h
    rcases le_or_gt nBlks 0 with hneg | hpos
    · have hle : nBlks * size ≤ 0 := Int.mul_nonpos_of_nonpos_of_nonneg hneg (Int.natCast_nonneg _)
      omega
    · have hlast := h (nBlks - 1).toNat (by omega)
      have hcast : (((nBlks - 1).toNat + 1 : Nat) : Int) = nBlks := by omega
      rw [← hcast]
      exact_mod_cast hlast
  · intro h i hi
    have hle : ((i + 1 : Nat) : Int) * size ≤ nBlks * size :=
      Int.mul_le_mul_of_nonneg_right (by omega) (Int.natCast_nonneg _)
    have hint : (((i + 1) * size : Nat) : Int) ≤ bytes := by
      push_cast
      push_cast at hle
      omega
    exact_mod_cast hint

/-- A new pool, with an area in the address space. -/
theorem areaLaw_newPool {memid size area : Nat} {nBlks : Int} {tableOk : Bool}
    (hend : area + poolBytes size nBlks < 2 ^ 64) :
    AreaLaw (newPool memid size nBlks area tableOk) ↔
      machineAlignement ∣ poolBytes size nBlks ∧ nBlks * size ≤ poolBytes size nBlks := by
  have hfields : (newPool memid size nBlks area tableOk).saddr = area ∧
      (newPool memid size nBlks area tableOk).eaddr = area + poolBytes size nBlks ∧
      (newPool memid size nBlks area tableOk).nblks = nBlks ∧
      (newPool memid size nBlks area tableOk).size = size := by
    cases tableOk <;> exact ⟨rfl, Nat.mod_eq_of_lt hend, rfl, rfl⟩
  obtain ⟨hsaddr, headdr, hnblks, hsize⟩ := hfields
  rw [← blocks_le_iff]
  constructor
  · rintro ⟨haligned, hcontains⟩
    rw [headdr, hsaddr, Nat.add_sub_cancel_left] at haligned
    refine ⟨haligned, fun i hi => ?_⟩
    have hblock := (hcontains i (hnblks.symm ▸ hi)).2
    rw [hsaddr, headdr, hsize] at hblock
    exact Nat.le_of_add_le_add_left hblock
  · rintro ⟨haligned, hblocks⟩
    refine ⟨?_, fun i hi => ⟨Nat.le_add_right _ _, ?_⟩⟩
    · rw [headdr, hsaddr, Nat.add_sub_cancel_left]
      exact haligned
    · rw [hsaddr, headdr, hsize]
      rw [hnblks] at hi
      exact Nat.add_le_add_left (hblocks i hi) area

/-- The area of a new pool is aligned and holds all blocks if and only if the product of
its two sizes is a multiple of the alignment and less than 2^32. -/
theorem areaLaw_iff (m m' : MemState) (size : Nat) (nBlks : Int) (mcbOk : Bool) (area : Nat)
    (tableOk : Bool) (memid : Nat) (hnum : m.Numbered)
    (hcreate : memPoolCreate m size nBlks mcbOk area tableOk = (m', some memid))
    (hend : area + poolBytes size nBlks < 2 ^ 64) :
    (∃ p, getMemInfo m' memid = some p ∧ AreaLaw p) ↔
      (8 : Int) ∣ size * nBlks ∧ size * nBlks < 2 ^ 32 := by
  obtain ⟨-, hfound⟩ := found_of_create hnum hcreate
  have hlaw : (∃ p, getMemInfo m' memid = some p ∧ AreaLaw p) ↔
      AreaLaw (newPool memid size nBlks area tableOk) := by
    constructor
    · rintro ⟨p, hp, hlaw⟩
      rwa [Option.some.inj (hfound.symm.trans hp)]
    · exact fun hlaw => ⟨_, hfound, hlaw⟩
  rw [hlaw, areaLaw_newPool hend, poolBytes_aligned_iff]
  refine and_congr_right fun haligned => ?_
  -- an aligned length is the product, cut off
  rw [poolBytes_of_aligned haligned, mul_comm nBlks]
  generalize (size : Int) * nBlks = product
  omega

/-- Three blocks of eight bytes. -/
theorem areaLaw_three_blocks :
    ∃ m', memPoolCreate memInit 8 3 true 4096 true = (m', some 1) ∧
      ∃ p, getMemInfo m' 1 = some p ∧ AreaLaw p :=
  ⟨_, rfl, (areaLaw_iff memInit _ 8 3 true 4096 true 1 (fun _ hp => nomatch hp) rfl
    (by decide)).mpr ⟨by decide, by decide⟩⟩

/-- Three blocks of five bytes are padded from fifteen to twenty-three bytes; and of two
blocks of 2 GiB the area has no byte at all. -/
theorem not_areaLaw_unaligned :
    (∃ m' p, memPoolCreate memInit 5 3 true 4096 true = (m', some 1) ∧
      getMemInfo m' 1 = some p ∧ p.eaddr - p.saddr = 23 ∧ ¬ AreaLaw p) ∧
    ∃ m' p, memPoolCreate memInit (2 ^ 31) 2 true 4096 true = (m', some 1) ∧
      getMemInfo m' 1 = some p ∧ p.eaddr = p.saddr ∧ ¬ AreaLaw p := by
  refine ⟨⟨_, newPool 1 5 3 4096 true, rfl, rfl, by decide, fun hlaw => ?_⟩,
    ⟨_, newPool 1 (2 ^ 31) 2 4096 true, rfl, rfl, by decide, fun hlaw => ?_⟩⟩
  · exact absurd ((areaLaw_newPool (by decide)).mp hlaw).1 (by decide)
  · exact absurd ((areaLaw_newPool (by decide)).mp hlaw).2 (by decide)

end Mem
end TmULThreads
