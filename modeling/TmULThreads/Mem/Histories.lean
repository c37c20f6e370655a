import TmULThreads.Lib.PartialSteps
import TmULThreads.Mem.Pool

/-!
# Histories of a pool

What a program sees of a pool over any sequence of `alloc_block` and `free_blk` calls:
no block is handed out twice, `NULL` is returned exactly when all blocks are out, a block
is taken back exactly when it is out, and the counters agree with the table.

`mem_pool_create` does not look at what `build_free_mem_blk_list` returns.  If the table
could not be allocated, the program gets a pool that claims to have free blocks and has
no table; a negative number of blocks is accepted as well.  `blockLaw_iff` states that
these are the only pools that go wrong.
-/

namespace TmULThreads
namespace Mem

/-- A registry, the addresses that `alloc_block` has returned for one of its pools, and
those of them that are allocated. -/
structure History where
  mem : MemState
  seen : Finset Nat
  out : Finset Nat

/-- A call for the pool; only addresses that have been returned are given back, though
possibly more than once. -/
inductive BlkOp where
  | alloc
  | free (addr : Nat)
  deriving DecidableEq, Repr

def blkStep (memid : Nat) (h : History) : BlkOp → Option History
  | .alloc =>
      (allocBlock h.mem memid).map fun r =>
        if r.2 = 0 then { h with mem := r.1 } else ⟨r.1, insert r.2 h.seen, insert r.2 h.out⟩
  | .free addr =>
      if addr ∈ h.seen then
        (freeBlk h.mem memid addr).map fun r =>
          ⟨r.1, h.seen, if r.2 = 0 then h.out.erase addr else h.out⟩
      else none

/-- The entries of `addr_blks` other than `NULL`. -/
def MemInfo.freeEntries (p : MemInfo) : Nat := (p.addrBlks.getD []).countP (· ≠ 0)

/-- What holds of a pool of `nBlks` blocks between two calls, and what the next call
returns. -/
structure BlockLaw (memid : Nat) (nBlks : Int) (h : History) : Prop where
  counts : ∃ p, getMemInfo h.mem memid = some p ∧ p.nblks = nBlks ∧
    p.fblks + p.useblks = p.nblks ∧ p.fblks = p.freeEntries
  alloc : ∃ m a, allocBlock h.mem memid = some (m, a) ∧ (a = 0 ↔ (h.out.card : Int) = nBlks) ∧
    a ∉ h.out
  free : ∀ addr ∈ h.seen, ∃ m ret, freeBlk h.mem memid addr = some (m, ret) ∧
    (ret = 0 ↔ addr ∈ h.out) ∧ (addr ∉ h.out → getMemInfo m memid = getMemInfo h.mem memid)

/-! ## Pools with a table -/

theorem Sized.blockAddr_inj {p : MemInfo} (h : Sized p) {i j : Nat} (hi : i < p.nblks.toNat)
    (hj : j < p.nblks.toNat) (heq : p.blockAddr i = p.blockAddr j) : i = j := by
  rw [(h.blockAddr hi).1, (h.blockAddr hj).1] at heq
  exact Nat.eq_of_mul_eq_mul_right h.pos (Nat.add_left_cancel heq)

/-- No two blocks share an address. -/
theorem Sized.erase_image {p : MemInfo} (h : Sized p) {used : Finset Nat}
    (hsub : used ⊆ Finset.range p.nblks.toNat) {i : Nat} (hi : i < p.nblks.toNat) :
    (used.image p.blockAddr).erase (p.blockAddr i) = (used.erase i).image p.blockAddr := by
  ext a
  simp only [Finset.mem_erase, Finset.mem_image]
  constructor
  · rintro ⟨hne, j, hj, rfl⟩
    exact ⟨j, ⟨fun hji => hne (by rw [hji]), hj⟩, rfl⟩
  · rintro ⟨j, ⟨hji, hj⟩, rfl⟩
    have hlt := Finset.mem_range.mp (hsub hj)
    exact ⟨fun heq => hji (h.blockAddr_inj hlt hi heq), j, hj, rfl⟩

/-- The pool is found, and the addresses that are allocated are those of the blocks that
are out. -/
structure Keeps (memid n : Nat) (h : History) (p : MemInfo) (used : Finset Nat) : Prop where
  found : getMemInfo h.mem memid = some p
  tracks : Tracks p used
  sized : Sized p
  nblks : p.nblks = n
  out : h.out = used.image p.blockAddr
  seen : ∀ a ∈ h.seen, ∃ i < p.nblks.toNat, a = p.blockAddr i

section

variable {memid n : Nat} {h : History} {p : MemInfo} {used : Finset Nat}

theorem Keeps.mem_out_iff (hk : Keeps memid n h p used) {i : Nat} (hi : i < p.nblks.toNat) :
    p.blockAddr i ∈ h.out ↔ i ∈ used := by
  rw [hk.out, Finset.mem_image]
  constructor
  · rintro ⟨j, hj, heq⟩
    have hlt := Finset.mem_range.mp (hk.tracks.sub hj)
    rwa [← hk.sized.blockAddr_inj hlt hi heq]
  · exact fun hused => ⟨i, hused, rfl⟩

theorem Keeps.card_out (hk : Keeps memid n h p used) : h.out.card = used.card := by
  rw [hk.out]
  refine Finset.card_image_of_injOn fun i hi j hj heq => ?_
  exact hk.sized.blockAddr_inj (Finset.mem_range.mp (hk.tracks.sub hi))
    (Finset.mem_range.mp (hk.tracks.sub hj)) heq

theorem Keeps.zero_not_mem (hk : Keeps memid n h p used) : 0 ∉ h.out := by
  rw [hk.out, Finset.mem_image]
  rintro ⟨i, hi, hzero⟩
  exact hk.tracks.addr_ne i (Finset.mem_range.mp (hk.tracks.sub hi)) hzero

/-- The pool after a call that has written its control block. -/
theorem Keeps.found_set (hk : Keeps memid n h p used) {p' : MemInfo} (hsame : SamePool p p') :
    getMemInfo (h.mem.set p') memid = some p' := by
  have hid : p'.memid = memid := hsame.memid.trans (getMemInfo_mem hk.found).2
  rw [← hid]
  exact getMemInfo_set_self (hid ▸ hk.found)

theorem Keeps.allocBlock_eq (hk : Keeps memid n h p used) {p' : MemInfo} {a : Nat}
    (halloc : p.allocBlock = some (p', a)) :
    allocBlock h.mem memid = some (h.mem.set p', a) := by
  simp only [allocBlock, hk.found, halloc, Option.bind_eq_bind, Option.bind_some]

theorem Keeps.freeBlk_eq (hk : Keeps memid n h p used) {p' : MemInfo} {addr : Nat} {ret : Int}
    (hfree : p.freeBlk addr = some (p', ret)) :
    freeBlk h.mem memid addr = some (h.mem.set p', ret) := by
  simp only [freeBlk, hk.found, hfree, Option.bind_eq_bind, Option.bind_some]

theorem Keeps.blockLaw (hk : Keeps memid n h p used) : BlockLaw memid n h := by
  have hcard := hk.card_out
  have hnblks := hk.nblks
  refine ⟨⟨p, hk.found, hnblks, ?_, ?_⟩, ?_, ?_⟩
  · rw [hk.tracks.fblks, hk.tracks.useblks]
    omega
  · have hcount := SlotTable.countP_table hk.tracks.addr_ne hk.tracks.sub
    rw [hk.tracks.fblks, MemInfo.freeEntries, hk.tracks.slots, Option.getD_some]
    omega
  · rcases hk.tracks.allocBlock_cases with ⟨hfull, halloc⟩ | ⟨i, p', hi, hnot, hlt, halloc, -, -⟩
    · refine ⟨_, 0, hk.allocBlock_eq halloc, iff_of_true rfl ?_, hk.zero_not_mem⟩
      omega
    · refine ⟨_, _, hk.allocBlock_eq halloc, iff_of_false (hk.tracks.addr_ne i hi) ?_, ?_⟩
      · omega
      · rw [hk.mem_out_iff hi]
        exact hnot
  · intro addr haddr
    obtain ⟨i, hi, rfl⟩ := hk.seen addr haddr
    rcases hk.tracks.freeBlk_block hk.sized hi with ⟨hnot, hfree⟩ | ⟨p', hused, hfree, -, -⟩
    · refine ⟨_, -1, hk.freeBlk_eq hfree, iff_of_false (by decide) ?_, fun _ => ?_⟩
      · rw [hk.mem_out_iff hi]
        exact hnot
      · rw [hk.found_set (SamePool.refl p), hk.found]
    · have hout := (hk.mem_out_iff hi).mpr hused
      exact ⟨_, 0, hk.freeBlk_eq hfree, iff_of_true rfl hout, fun hnot => absurd hout hnot⟩

/-- The relation after a call, in terms of the new control block. -/
theorem Keeps.of_samePool (hk : Keeps memid n h p used) {p' : MemInfo} {used' out seen : Finset Nat}
    (hsame : SamePool p p') (htracks : Tracks p' used') (hout : out = used'.image p.blockAddr)
    (hseen : ∀ a ∈ seen, ∃ i < p.nblks.toNat, a = p.blockAddr i) :
    Keeps memid n ⟨h.mem.set p', seen, out⟩ p' used' where
  found := hk.found_set hsame
  tracks := htracks
  sized := hsame.sized hk.sized
  nblks := hsame.nblks.trans hk.nblks
  out := by rw [hsame.blockAddr]; exact hout
  seen := by rw [hsame.blockAddr, hsame.nblks]; exact hseen

theorem Keeps.of_alloc (hk : Keeps memid n h p used) {h' : History}
    (hstep : blkStep memid h .alloc = some h') : ∃ p' used', Keeps memid n h' p' used' := by
  obtain ⟨⟨m, a⟩, halloc', rfl⟩ := Option.map_eq_some_iff.mp hstep
  rcases hk.tracks.allocBlock_cases with ⟨-, halloc⟩ | ⟨i, p', hi, -, -, halloc, htracks, hsame⟩
  · rw [hk.allocBlock_eq halloc] at halloc'
    cases halloc'
    exact ⟨p, used, hk.of_samePool (SamePool.refl p) hk.tracks hk.out hk.seen⟩
  · rw [hk.allocBlock_eq halloc] at halloc'
    cases halloc'
    rw [if_neg (hk.tracks.addr_ne i hi)]
    refine ⟨p', insert i used, hk.of_samePool hsame htracks ?_ fun a ha => ?_⟩
    · rw [Finset.image_insert, hk.out]
    · rcases Finset.mem_insert.mp ha with rfl | hold
      · exact ⟨i, hi, rfl⟩
      · exact hk.seen a hold

theorem Keeps.of_free (hk : Keeps memid n h p used) {addr : Nat} {h' : History}
    (hstep : blkStep memid h (.free addr) = some h') : ∃ p' used', Keeps memid n h' p' used' := by
  simp only [blkStep] at hstep
  split at hstep
  · rename_i hseen
    obtain ⟨⟨m, ret⟩, hfree', rfl⟩ := Option.map_eq_some_iff.mp hstep
    obtain ⟨i, hi, rfl⟩ := hk.seen addr hseen
    rcases hk.tracks.freeBlk_block hk.sized hi with ⟨-, hfree⟩ | ⟨p', hused, hfree, htracks, hsame⟩
    · rw [hk.freeBlk_eq hfree] at hfree'
      cases hfree'
      exact ⟨p, used, hk.of_samePool (SamePool.refl p) hk.tracks hk.out hk.seen⟩
    · rw [hk.freeBlk_eq hfree] at hfree'
      cases hfree'
      refine ⟨p', used.erase i, hk.of_samePool hsame htracks ?_ hk.seen⟩
      rw [if_pos rfl, hk.out]
      exact hk.sized.erase_image hk.tracks.sub hi
  · cases hstep

theorem Keeps.of_run (hk : Keeps memid n h p used) {ops : List BlkOp} {h' : History}
    (hrun : PartialSteps.run (blkStep memid) h ops = some h') :
    ∃ p' used', Keeps memid n h' p' used' := by
  refine PartialSteps.run_invariant_always (blkStep memid)
    (I := fun h => ∃ p used, Keeps memid n h p used) ?_ ⟨p, used, hk⟩ hrun
  rintro mid op next ⟨q, u, hq⟩ hstep
  cases op with
  | alloc => exact hq.of_alloc hstep
  | free addr => exact hq.of_free hstep

end

/-! ## Pools without blocks -/

/-- The pool has no blocks, and none has been handed out. -/
structure Blank (memid : Nat) (h : History) (p : MemInfo) : Prop where
  found : getMemInfo h.mem memid = some p
  nblks : p.nblks = 0
  fblks : p.fblks = 0
  useblks : p.useblks = 0
  entries : p.freeEntries = 0
  seen : h.seen = ∅
  out : h.out = ∅

theorem Blank.allocBlock_eq {memid : Nat} {h : History} {p : MemInfo} (hb : Blank memid h p) :
    allocBlock h.mem memid = some (h.mem.set p, 0) := by
  simp only [allocBlock, hb.found, MemInfo.allocBlock, hb.fblks, if_true, Option.bind_eq_bind,
    Option.bind_some]

theorem Blank.blockLaw {memid : Nat} {h : History} {p : MemInfo} (hb : Blank memid h p) :
    BlockLaw memid 0 h := by
  refine ⟨⟨p, hb.found, hb.nblks, ?_, ?_⟩, ⟨_, 0, hb.allocBlock_eq, ?_, ?_⟩, ?_⟩
  · rw [hb.fblks, hb.useblks, hb.nblks, Int.add_zero]
  · rw [hb.fblks, hb.entries, Nat.cast_zero]
  · rw [hb.out]
    exact iff_of_true rfl rfl
  · rw [hb.out]
    exact Finset.notMem_empty 0
  · rw [hb.seen]
    exact fun addr haddr => absurd haddr (Finset.notMem_empty addr)

theorem Blank.of_run {memid : Nat} {h h' : History} {p : MemInfo} (hb : Blank memid h p)
    {ops : List BlkOp} (hrun : PartialSteps.run (blkStep memid) h ops = some h') :
    Blank memid h' p := by
  refine PartialSteps.run_invariant_always (blkStep memid) (I := fun h => Blank memid h p) ?_ hb
    hrun
  intro mid op next hm hstep
  cases op with
  | alloc =>
      simp only [blkStep, hm.allocBlock_eq, Option.map_some, if_true] at hstep
      cases hstep
      have hid : p.memid = memid := (getMemInfo_mem hm.found).2
      have hfound : getMemInfo (mid.mem.set p) memid = some p := by
        rw [← hid]
        exact getMemInfo_set_self (hid ▸ hm.found)
      exact { hm with found := hfound }
  | free addr =>
      simp only [blkStep, hm.seen, Finset.notMem_empty, if_false] at hstep
      cases hstep

/-! ## New pools -/

section

variable {m m' : MemState} {size area memid : Nat} {nBlks : Int} {mcbOk tableOk : Bool}

/-- The pool of an identifier that `mem_pool_create` has returned. -/
theorem found_of_create (hnum : m.Numbered)
    (hcreate : memPoolCreate m size nBlks mcbOk area tableOk = (m', some memid)) :
    area ≠ 0 ∧ getMemInfo m' memid = some (newPool memid size nBlks area tableOk) := by
  rcases memPoolCreate_cases m size nBlks mcbOk area tableOk with ⟨k, -, hfail⟩ | ⟨harea, hdone⟩
  · rw [hfail] at hcreate
    cases hcreate
  · rw [hdone] at hcreate
    cases hcreate
    refine ⟨harea, ?_⟩
    rw [getMemInfo_append hnum (memid_newPool ..), if_pos rfl]

theorem keeps_newPool {n : Nat} (hfound : getMemInfo m' memid = some (newPool memid size n area true))
    (harea : area ≠ 0) (hsize : 1 ≤ size) (hsmall : n * size < 2 ^ 31)
    (hend : area + poolBytes size n < 2 ^ 64) :
    Keeps memid n ⟨m', ∅, ∅⟩ (newPool memid size n area true) ∅ := by
  have hsized := sized_newPool memid size n area hsize hsmall hend
  refine ⟨hfound, tracks_newPool memid size n area fun i hi => ?_, hsized, rfl, rfl, ?_⟩
  · have haddr : computeAddrBlock area i size = area + i * size := (hsized.blockAddr hi).1
    omega
  · exact fun a ha => absurd ha (Finset.notMem_empty a)

theorem blank_newPool (hfound : getMemInfo m' memid = some (newPool memid size 0 area tableOk)) :
    Blank memid ⟨m', ∅, ∅⟩ (newPool memid size 0 area tableOk) := by
  cases tableOk with
  | false => exact ⟨hfound, rfl, rfl, rfl, rfl, rfl, rfl⟩
  | true => exact ⟨hfound, rfl, rfl, rfl, rfl, rfl, rfl⟩

/-- With a negative number of blocks, or without a table, the first `alloc_block` goes
wrong. -/
theorem not_blockLaw_newPool
    (hfound : getMemInfo m' memid = some (newPool memid size nBlks area tableOk))
    (hbad : nBlks < 0 ∨ (tableOk = false ∧ 0 < nBlks)) : ¬ BlockLaw memid nBlks ⟨m', ∅, ∅⟩ := by
  rintro ⟨-, ⟨m'', a, halloc, hnull, -⟩, -⟩
  have hfields : (newPool memid size nBlks area tableOk).fblks = nBlks ∧
      (newPool memid size nBlks area tableOk).nblks = nBlks := by
    cases tableOk <;> exact ⟨rfl, rfl⟩
  rcases hbad with hneg | ⟨rfl, hpos⟩
  · simp only [allocBlock, hfound, MemInfo.allocBlock, hfields, hneg.ne, hneg.le, if_false, if_true,
      Option.bind_eq_bind, Option.bind_some, Option.some.injEq, Prod.mk.injEq] at halloc
    have hzero := hnull.mp halloc.2.symm
    rw [Finset.card_empty, Nat.cast_zero] at hzero
    omega
  · have hle : ¬ nBlks ≤ 0 := by omega
    simp only [allocBlock, hfound, MemInfo.allocBlock, hfields, hpos.ne', hle, if_false,
      Option.bind_eq_bind, Option.bind_some] at halloc
    cases halloc

end

/-- A new pool keeps the law over all histories if and only if it has a table, or needs
none. -/
theorem blockLaw_iff (m m' : MemState) (size : Nat) (nBlks : Int) (mcbOk : Bool) (area : Nat)
    (tableOk : Bool) (memid : Nat) (hnum : m.Numbered)
    (hcreate : memPoolCreate m size nBlks mcbOk area tableOk = (m', some memid))
    (hsize : 1 ≤ size) (hsmall : nBlks * size < 2 ^ 31)
    (hend : area + poolBytes size nBlks < 2 ^ 64) :
    (∀ ops h, PartialSteps.run (blkStep memid) ⟨m', ∅, ∅⟩ ops = some h →
        BlockLaw memid nBlks h) ↔ 0 ≤ nBlks ∧ (tableOk = true ∨ nBlks = 0) := by
  obtain ⟨harea, hfound⟩ := found_of_create hnum hcreate
  constructor
  · intro hlaw
    have hfirst := hlaw [] _ rfl
    by_contra hcond
    refine not_blockLaw_newPool hfound ?_ hfirst
    cases tableOk with
    | false =>
        simp only [Bool.false_eq_true, false_or] at hcond
        rcases lt_trichotomy nBlks 0 with hneg | hzero | hpos
        · exact .inl hneg
        · exact absurd ⟨hzero.ge, hzero⟩ hcond
        · exact .inr ⟨rfl, hpos⟩
    | true =>
        simp only [true_or, and_true, not_le] at hcond
        exact .inl hcond
  · rintro ⟨hnonneg, htable⟩ ops h hrun
    obtain ⟨n, rfl⟩ := Int.eq_ofNat_of_zero_le hnonneg
    by_cases hn : n = 0
    · subst hn
      exact ((blank_newPool hfound).of_run hrun).blockLaw
    · obtain rfl : tableOk = true := htable.resolve_right (by omega)
      have hsmall' : n * size < 2 ^ 31 := by exact_mod_cast hsmall
      obtain ⟨p, used, hk⟩ := (keeps_newPool hfound harea hsize hsmall' hend).of_run hrun
      exact hk.blockLaw

/-- Two blocks of eight bytes. -/
theorem blockLaw_two_blocks :
    ∃ m', memPoolCreate memInit 8 2 true 4096 true = (m', some 1) ∧
      ∀ ops h, PartialSteps.run (blkStep 1) ⟨m', ∅, ∅⟩ ops = some h → BlockLaw 1 2 h :=
  ⟨_, rfl, (blockLaw_iff memInit _ 8 2 true 4096 true 1 (fun _ hp => nomatch hp) rfl (by decide)
    (by decide) (by decide)).mpr ⟨by decide, .inl rfl⟩⟩

/-- The pool is registered although its table could not be allocated: it counts two free
blocks, and the first `alloc_block` reads the table. -/
theorem not_blockLaw_no_table :
    ∃ m' p, memPoolCreate memInit 8 2 true 4096 false = (m', some 1) ∧
      getMemInfo m' 1 = some p ∧ p.fblks = 2 ∧ p.freeEntries = 0 ∧ allocBlock m' 1 = none ∧
      ¬ BlockLaw 1 2 ⟨m', ∅, ∅⟩ := by
  let m' := (memPoolCreate memInit 8 2 true 4096 false).1
  have hfound : getMemInfo m' 1 = some (newPool 1 8 2 4096 false) := rfl
  exact ⟨m', _, rfl, hfound, rfl, rfl, rfl, not_blockLaw_newPool hfound (.inr ⟨rfl, by decide⟩)⟩

end Mem
end TmULThreads
