import Mathlib.Algebra.Group.Int.Defs
import Mathlib.Algebra.Group.Nat.Defs
import TmULThreads.Lib.SlotTable

/-!
# Memory pools

The pools of `mem/mem_main.c`.  A pool is an area of `n_blks` blocks of `size`
bytes and an array `addr_blks` that holds the address of every free block and
`NULL` for a block that is out.

Addresses and `size_t` values are natural numbers, `NULL` is zero, and the
conversions between `int`, `unsigned int` and `size_t` are written out, as they
decide what a large pool does.  A function returns `none` where the source has
no defined outcome: an access through `NULL`, a division by zero, or an index
outside `addr_blks`.

What a pool is for is a set of blocks that are out.  `Tracks` relates a control
block to that set; `alloc_block` adds to it the first block that is not out
(`Tracks.allocBlock_cases`), and `free_blk` takes out of it the block that an
address belongs to (`Tracks.freeBlk_block`).
-/

namespace TmULThreads
namespace Mem

/-- An `int` as a `size_t`. -/
def toSizeT (i : Int) : Nat := (i % 2 ^ 64).toNat

/-- A `size_t` as an `unsigned int`. -/
def toUInt (n : Nat) : Nat := n % 2 ^ 32

/-- A `size_t` as an `int`. -/
def toInt (n : Nat) : Int := Int.bmod n (2 ^ 32)

/-- `MACHINE_ALIGNEMENT`, the size of an `unsigned long`. -/
def machineAlignement : Nat := 8

/-- `struct mem_info`; `pool_name` is never written. -/
structure MemInfo where
  saddr : Nat
  eaddr : Nat
  /-- `none` is the `NULL` of a table that could not be allocated. -/
  addrBlks : Option (List Nat)
  memid : Nat
  nblks : Int
  useblks : Int
  fblks : Int
  size : Nat
  deriving DecidableEq, Repr

/-- The registered pools, and the static counter of `get_next_free_mcb`. -/
structure MemState where
  hdMcb : List MemInfo
  lastId : Nat
  deriving DecidableEq, Repr

def memInit : MemState := ⟨[], 0⟩

/-! ## Creating a pool -/

/-- `COMPUTE_ADDR_BLOCK`. -/
def computeAddrBlock (saddr cnt size : Nat) : Nat := (saddr + cnt * size) % 2 ^ 64

/-- The bytes that `mem_pool_create` asks for.  An unaligned request grows by a
whole unit, so it stays unaligned. -/
def poolBytes (size : Nat) (nBlks : Int) : Nat :=
  let bytes := toUInt (size * toSizeT nBlks)
  let align := bytes % machineAlignement
  if align ≠ 0 then toUInt (bytes + (align + (machineAlignement - align))) else bytes

def buildFreeMemBlkList (m : MemInfo) (tableOk : Bool) : MemInfo :=
  if tableOk then
    { m with addrBlks := some ((List.range m.nblks.toNat).map fun i =>
        computeAddrBlock m.saddr i m.size) }
  else m

/-- The control block that `mem_pool_create` fills in. -/
def newPool (memid size : Nat) (nBlks : Int) (area : Nat) (tableOk : Bool) : MemInfo :=
  buildFreeMemBlkList
    { saddr := area, eaddr := (area + poolBytes size nBlks) % 2 ^ 64, addrBlks := none,
      memid := memid, nblks := nBlks, useblks := 0, fblks := nBlks, size := size } tableOk

/-- `mem_pool_create`; `none` is its `-1`.  `mcbOk` and `tableOk` say whether
the allocations of the control block and of `addr_blks` succeed, and `area` is
what the allocation of the blocks returns.  The result of
`build_free_mem_blk_list` is not looked at. -/
def memPoolCreate (m : MemState) (size : Nat) (nBlks : Int) (mcbOk : Bool) (area : Nat)
    (tableOk : Bool) : MemState × Option Nat :=
  if ¬ mcbOk then (m, none)
  else
    let memid := m.lastId + 1
    if area = 0 then ({ m with lastId := memid }, none)
    else
      ({ hdMcb := m.hdMcb ++ [newPool memid size nBlks area tableOk], lastId := memid },
        some memid)

/-! ## Blocks -/

def getMemInfo (m : MemState) (memid : Nat) : Option MemInfo :=
  m.hdMcb.find? fun p => p.memid == memid

/-- The registry after a control block has been written to. -/
def MemState.set (m : MemState) (p : MemInfo) : MemState :=
  { m with hdMcb := m.hdMcb.map fun q => if q.memid = p.memid then p else q }

/-- `alloc_block` on the control block. -/
def MemInfo.allocBlock (p : MemInfo) : Option (MemInfo × Nat) :=
  if p.fblks = 0 then some (p, 0)
  else if p.nblks ≤ 0 then some (p, 0)
  else do
    let blks ← p.addrBlks
    match SlotTable.firstFree blks with
    | none => some (p, 0)
    | some i =>
        some ({ p with addrBlks := some (blks.set i 0), fblks := p.fblks - 1,
                       useblks := p.useblks + 1 }, blks.getD i 0)

/-- `in_range`. -/
def inRange (start stop size value : Nat) : Bool :=
  start ≤ value && (value + size) % 2 ^ 64 ≤ stop

/-- `free_blk` on the control block, with the value it returns. -/
def MemInfo.freeBlk (p : MemInfo) (addr : Nat) : Option (MemInfo × Int) :=
  if ¬ inRange p.saddr p.eaddr p.size addr then some (p, -1)
  else
    let offset := toInt (addr - p.saddr)
    if p.size = 0 then none
    else if toSizeT offset % p.size ≠ 0 then some (p, -1)
    else
      let idx := toInt (toSizeT offset / p.size)
      if idx < 0 then none
      else do
        let blks ← p.addrBlks
        let slot ← blks[idx.toNat]?
        if slot = 0 then
          some ({ p with addrBlks := some (blks.set idx.toNat addr), fblks := p.fblks + 1,
                         useblks := p.useblks - 1 }, 0)
        else some (p, -1)

def allocBlock (m : MemState) (memid : Nat) : Option (MemState × Nat) := do
  let p ← getMemInfo m memid
  let (p, addr) ← p.allocBlock
  some (m.set p, addr)

def freeBlk (m : MemState) (memid : Nat) (addr : Nat) : Option (MemState × Int) :=
  match getMemInfo m memid with
  | none => some (m, -1)
  | some p => do
      let (p, ret) ← p.freeBlk addr
      some (m.set p, ret)

/-! ## A pool as a set of blocks -/

def MemInfo.blockAddr (p : MemInfo) (i : Nat) : Nat := computeAddrBlock p.saddr i p.size

/-- What the operations on blocks leave alone. -/
structure SamePool (p q : MemInfo) : Prop where
  saddr : q.saddr = p.saddr
  eaddr : q.eaddr = p.eaddr
  memid : q.memid = p.memid
  nblks : q.nblks = p.nblks
  size : q.size = p.size

theorem SamePool.refl (p : MemInfo) : SamePool p p := ⟨rfl, rfl, rfl, rfl, rfl⟩

theorem SamePool.trans {p q r : MemInfo} (h : SamePool p q) (h' : SamePool q r) : SamePool p r where
  saddr := h'.saddr.trans h.saddr
  eaddr := h'.eaddr.trans h.eaddr
  memid := h'.memid.trans h.memid
  nblks := h'.nblks.trans h.nblks
  size := h'.size.trans h.size

theorem SamePool.blockAddr {p q : MemInfo} (h : SamePool p q) : q.blockAddr = p.blockAddr := by
  funext i
  rw [MemInfo.blockAddr, MemInfo.blockAddr, h.saddr, h.size]

/-- The control block says that exactly the blocks of `used` are out. -/
structure Tracks (p : MemInfo) (used : Finset Nat) : Prop where
  sub : used ⊆ Finset.range p.nblks.toNat
  slots : p.addrBlks = some (SlotTable.table p.blockAddr p.nblks.toNat used)
  fblks : p.fblks = (p.nblks.toNat : Int) - used.card
  useblks : p.useblks = used.card
  addr_ne : ∀ i < p.nblks.toNat, p.blockAddr i ≠ 0

/-- `alloc_block` returns `NULL` when all blocks are out, and otherwise a block
that is not. -/
theorem Tracks.allocBlock_cases {p : MemInfo} {used : Finset Nat} (h : Tracks p used) :
    (used.card = p.nblks.toNat ∧ p.allocBlock = some (p, 0)) ∨
      ∃ i p', i < p.nblks.toNat ∧ i ∉ used ∧ used.card < p.nblks.toNat ∧
        p.allocBlock = some (p', p.blockAddr i) ∧ Tracks p' (insert i used) ∧ SamePool p p' := by
  have hle : used.card ≤ p.nblks.toNat := by
    have := Finset.card_le_card h.sub
    rwa [Finset.card_range] at this
  by_cases hfull : used.card = p.nblks.toNat
  · left
    refine ⟨hfull, ?_⟩
    have hzero : p.fblks = 0 := by
      rw [h.fblks, hfull, Int.sub_self]
    rw [MemInfo.allocBlock, if_pos hzero]
  · right
    have hlt : used.card < p.nblks.toNat := lt_of_le_of_ne hle hfull
    have hfree : p.fblks ≠ 0 := by
      rw [h.fblks]
      omega
    have hpos : ¬ p.nblks ≤ 0 := by omega
    cases hfound : SlotTable.firstFree (SlotTable.table p.blockAddr p.nblks.toNat used) with
    | none =>
        have hall := (SlotTable.firstFree_table_eq_none h.addr_ne).mp hfound
        exact absurd ((SlotTable.all_taken_iff h.sub).mp hall) hfull
    | some i =>
        obtain ⟨hi, hnot, -⟩ := (SlotTable.firstFree_table_eq_some h.addr_ne).mp hfound
        refine ⟨i, { p with addrBlks := some ((SlotTable.table p.blockAddr p.nblks.toNat used).set i 0)
                            fblks := p.fblks - 1, useblks := p.useblks + 1 },
          hi, hnot, hlt, ?_, ?_, ⟨rfl, rfl, rfl, rfl, rfl⟩⟩
        · have hslot : (SlotTable.table p.blockAddr p.nblks.toNat used).getD i 0 =
              p.blockAddr i := by
            rw [List.getD_eq_getElem?_getD, SlotTable.getElem?_table _ _ _ hi, if_neg hnot]
            rfl
          rw [MemInfo.allocBlock, if_neg hfree, if_neg hpos, h.slots]
          simp only [Option.bind_eq_bind, Option.bind_some, hfound, hslot]
        · refine ⟨?_, congrArg some (SlotTable.set_table_zero _ _), ?_, ?_, h.addr_ne⟩
          · exact Finset.insert_subset (Finset.mem_range.mpr hi) h.sub
          · show p.fblks - 1 = (p.nblks.toNat : Int) - (insert i used).card
            rw [h.fblks, Finset.card_insert_of_notMem hnot]
            omega
          · show p.useblks + 1 = (insert i used).card
            rw [h.useblks, Finset.card_insert_of_notMem hnot]
            omega

/-- The area holds all blocks, and offsets in it are values of an `int`. -/
structure Sized (p : MemInfo) : Prop where
  pos : 0 < p.size
  small : p.nblks.toNat * p.size < 2 ^ 31
  fits : p.saddr + p.nblks.toNat * p.size ≤ p.eaddr
  bound : p.eaddr < 2 ^ 64

theorem SamePool.sized {p q : MemInfo} (h : SamePool p q) (hp : Sized p) : Sized q where
  pos := h.size ▸ hp.pos
  small := by rw [h.size, h.nblks]; exact hp.small
  fits := by rw [h.size, h.nblks, h.saddr, h.eaddr]; exact hp.fits
  bound := h.eaddr ▸ hp.bound

theorem toInt_of_lt {n : Nat} (h : n < 2 ^ 31) : toInt n = n := by
  unfold toInt
  rw [Int.bmod_eq_of_le] <;> omega

theorem toSizeT_of_nonneg {n : Nat} (h : n < 2 ^ 64) : toSizeT n = n := by
  unfold toSizeT
  omega

/-- The blocks of a sized pool lie one after the other in its area. -/
theorem Sized.blockAddr {p : MemInfo} (h : Sized p) {i : Nat} (hi : i < p.nblks.toNat) :
    p.blockAddr i = p.saddr + i * p.size ∧ p.saddr + i * p.size + p.size ≤ p.eaddr := by
  have hend : i * p.size + p.size ≤ p.nblks.toNat * p.size := by
    rw [← Nat.succ_mul]
    exact Nat.mul_le_mul_right _ hi
  have hfits := h.fits
  have hbound := h.bound
  have hpos := h.pos
  refine ⟨Nat.mod_eq_of_lt (by omega), by omega⟩

/-- `free_blk` on the address of a block gives the block back if it is out, and
refuses it otherwise. -/
theorem Tracks.freeBlk_block {p : MemInfo} {used : Finset Nat} (h : Tracks p used)
    (hsized : Sized p) {i : Nat} (hi : i < p.nblks.toNat) :
    (i ∉ used ∧ p.freeBlk (p.blockAddr i) = some (p, -1)) ∨
      ∃ p', i ∈ used ∧ p.freeBlk (p.blockAddr i) = some (p', 0) ∧ Tracks p' (used.erase i) ∧
        SamePool p p' := by
  obtain ⟨haddr, hend⟩ := hsized.blockAddr hi
  have hpos := hsized.pos
  have hsmall : i * p.size < 2 ^ 31 := by
    refine lt_of_le_of_lt ?_ hsized.small
    exact Nat.mul_le_mul_right _ hi.le
  have hbound := hsized.bound
  have hrange : inRange p.saddr p.eaddr p.size (p.blockAddr i) = true := by
    rw [haddr, inRange, Nat.mod_eq_of_lt (by omega), Bool.and_eq_true, decide_eq_true_eq,
      decide_eq_true_eq]
    exact ⟨by omega, hend⟩
  have hoffset : toSizeT (toInt (p.blockAddr i - p.saddr)) = i * p.size := by
    rw [haddr, Nat.add_sub_cancel_left, toInt_of_lt hsmall, toSizeT_of_nonneg (by omega)]
  have hle : i ≤ i * p.size := Nat.le_mul_of_pos_right _ hpos
  have hidx : toInt (i * p.size / p.size) = i := by
    rw [Nat.mul_div_cancel _ hpos, toInt_of_lt (by omega)]
  have hnonneg : ¬ (i : Int) < 0 := by omega
  -- every test is passed, and what is left is the slot of block `i`
  have hfree : p.freeBlk (p.blockAddr i) =
      if (if i ∈ used then 0 else p.blockAddr i) = 0 then
        some ({ p with addrBlks := some ((SlotTable.table p.blockAddr p.nblks.toNat used).set i
                  (p.blockAddr i)), fblks := p.fblks + 1, useblks := p.useblks - 1 }, 0)
      else some (p, -1) := by
    simp only [MemInfo.freeBlk, hrange, not_true_eq_false, if_false, hoffset, hpos.ne',
      Nat.mul_mod_left, ne_eq, hidx, hnonneg, Int.toNat_natCast, h.slots, Option.bind_eq_bind,
      Option.bind_some, SlotTable.getElem?_table _ _ _ hi]
  rw [hfree]
  by_cases hused : i ∈ used
  · right
    rw [if_pos hused, if_pos rfl]
    refine ⟨_, hused, rfl, ⟨?_, congrArg some (SlotTable.set_table_addr _ _), ?_, ?_, h.addr_ne⟩,
      ⟨rfl, rfl, rfl, rfl, rfl⟩⟩
    · exact (Finset.erase_subset _ _).trans h.sub
    · show p.fblks + 1 = (p.nblks.toNat : Int) - (used.erase i).card
      have hcard := Finset.card_erase_add_one hused
      rw [h.fblks]
      omega
    · show p.useblks - 1 = (used.erase i).card
      have hcard := Finset.card_erase_add_one hused
      rw [h.useblks]
      omega
  · left
    rw [if_neg hused, if_neg (h.addr_ne i hi)]
    exact ⟨hused, rfl⟩

/-! ## The registry -/

/-- Identifiers are handed out in increasing order. -/
def MemState.Numbered (m : MemState) : Prop := ∀ p ∈ m.hdMcb, p.memid ≤ m.lastId

theorem getMemInfo_mem {m : MemState} {id : Nat} {p : MemInfo} (h : getMemInfo m id = some p) :
    p ∈ m.hdMcb ∧ p.memid = id := by
  refine ⟨List.mem_of_find?_eq_some h, ?_⟩
  have hid := List.find?_some h
  simpa using hid

/-- `alloc_block` writes to the control block that it was given. -/
theorem memid_allocBlock {p p' : MemInfo} {a : Nat} (h : p.allocBlock = some (p', a)) :
    p'.memid = p.memid := by
  unfold MemInfo.allocBlock at h
  split at h
  · cases h
    rfl
  · split at h
    · cases h
      rfl
    · obtain ⟨blks, -, h⟩ := Option.bind_eq_some_iff.mp h
      split at h <;> cases h <;> rfl

theorem memid_freeBlk {p p' : MemInfo} {a : Nat} {ret : Int} (h : p.freeBlk a = some (p', ret)) :
    p'.memid = p.memid := by
  simp only [MemInfo.freeBlk] at h
  split at h
  · cases h
    rfl
  · split at h
    · cases h
    · split at h
      · cases h
        rfl
      · split at h
        · cases h
        · simp only [Option.bind_eq_bind, Option.bind_eq_some_iff] at h
          obtain ⟨blks, -, slot, -, h⟩ := h
          split at h <;> cases h <;> rfl

theorem Numbered.of_set {m : MemState} (h : m.Numbered) {p : MemInfo} (hp : p.memid ≤ m.lastId) :
    (m.set p).Numbered := by
  intro q hq
  obtain ⟨q', hq', rfl⟩ := List.mem_map.mp hq
  split
  · exact hp
  · exact h q' hq'

theorem getMemInfo_set_self {m : MemState} {p q : MemInfo} (h : getMemInfo m p.memid = some q) :
    getMemInfo (m.set p) p.memid = some p := by
  obtain ⟨hmem, hid⟩ := getMemInfo_mem h
  unfold getMemInfo MemState.set at *
  generalize m.hdMcb = pools at h hmem
  induction pools with
  | nil => cases h
  | cons head rest ih =>
      by_cases hhead : head.memid = p.memid
      · simp [hhead]
      · have hb : (head.memid == p.memid) = false := beq_eq_false_iff_ne.mpr hhead
        simp only [List.map_cons, hhead, if_false, List.find?_cons, hb] at h ⊢
        exact ih h (List.mem_of_find?_eq_some h)

theorem getMemInfo_set_of_ne {m : MemState} {p : MemInfo} {id : Nat} (h : id ≠ p.memid) :
    getMemInfo (m.set p) id = getMemInfo m id := by
  unfold getMemInfo MemState.set
  induction m.hdMcb with
  | nil => rfl
  | cons head rest ih =>
      by_cases hhead : head.memid = p.memid
      · have hb : (p.memid == id) = false := beq_eq_false_iff_ne.mpr h.symm
        simp only [List.map_cons, hhead, if_true, List.find?_cons, hb]
        exact ih
      · simp only [List.map_cons, hhead, if_false, List.find?_cons]
        cases head.memid == id with
        | true => rfl
        | false => exact ih

/-- A new pool is found under its identifier, and hides no other. -/
theorem getMemInfo_append {m : MemState} (h : m.Numbered) {p : MemInfo} {k : Nat}
    (hp : p.memid = m.lastId + 1) (id : Nat) :
    getMemInfo ⟨m.hdMcb ++ [p], k⟩ id =
      if id = m.lastId + 1 then some p else getMemInfo m id := by
  unfold getMemInfo
  rw [List.find?_append]
  by_cases hid : id = m.lastId + 1
  · have hnone : m.hdMcb.find? (fun p => p.memid == id) = none := by
      rw [List.find?_eq_none]
      intro q hq
      have hle := h q hq
      simp only [beq_iff_eq]
      omega
    rw [hnone, if_pos hid]
    simp [hp, hid]
  · have hb : (p.memid == id) = false := by
      rw [beq_eq_false_iff_ne, hp]
      exact fun heq => hid heq.symm
    simp [hb, hid]

/-! ## A new pool -/

@[simp] theorem memid_newPool (memid size : Nat) (nBlks : Int) (area : Nat) (tableOk : Bool) :
    (newPool memid size nBlks area tableOk).memid = memid := by
  unfold newPool buildFreeMemBlkList
  split <;> rfl

/-- `mem_pool_create` fails, possibly after an identifier has been drawn, or appends a new
control block to the list. -/
theorem memPoolCreate_cases (m : MemState) (size : Nat) (nBlks : Int) (mcbOk : Bool) (area : Nat)
    (tableOk : Bool) :
    (∃ k, m.lastId ≤ k ∧
        memPoolCreate m size nBlks mcbOk area tableOk = ({ m with lastId := k }, none)) ∨
      (area ≠ 0 ∧ memPoolCreate m size nBlks mcbOk area tableOk =
        (⟨m.hdMcb ++ [newPool (m.lastId + 1) size nBlks area tableOk], m.lastId + 1⟩,
          some (m.lastId + 1))) := by
  unfold memPoolCreate
  by_cases hmcb : mcbOk = true
  · rw [if_neg (not_not.mpr hmcb)]
    by_cases harea : area = 0
    · exact .inl ⟨m.lastId + 1, Nat.le_succ _, if_pos harea⟩
    · exact .inr ⟨harea, if_neg harea⟩
  · exact .inl ⟨m.lastId, le_rfl, if_pos hmcb⟩

theorem poolBytes_lt (size : Nat) (nBlks : Int) : poolBytes size nBlks < 2 ^ 32 := by
  unfold poolBytes
  dsimp only
  split
  · exact Nat.mod_lt _ (by decide)
  · exact Nat.mod_lt _ (by decide)

theorem tracks_newPool (memid size : Nat) (n area : Nat)
    (haddr : ∀ i < n, computeAddrBlock area i size ≠ 0) :
    Tracks (newPool memid size n area true) ∅ where
  sub := Finset.empty_subset _
  slots := by
    simp only [newPool, buildFreeMemBlkList, if_true, SlotTable.table, Finset.notMem_empty,
      if_false]
    rfl
  fblks := by simp [newPool, buildFreeMemBlkList]
  useblks := rfl
  addr_ne := haddr

/-- A pool of less than 2 GiB whose area lies in the address space is sized. -/
theorem sized_newPool (memid size n area : Nat) (hsize : 0 < size) (hsmall : n * size < 2 ^ 31)
    (harea : area + poolBytes size n < 2 ^ 64) : Sized (newPool memid size n area true) where
  pos := hsize
  small := hsmall
  fits := by
    show area + n * size ≤ (area + poolBytes size n) % 2 ^ 64
    rw [Nat.mod_eq_of_lt harea]
    have hle : n ≤ n * size := Nat.le_mul_of_pos_right _ hsize
    have hbytes : toUInt (size * toSizeT n) = n * size := by
      rw [toSizeT_of_nonneg (by omega), toUInt, Nat.mul_comm, Nat.mod_eq_of_lt (by omega)]
    have hgrow : n * size ≤ poolBytes size n := by
      simp only [poolBytes, hbytes]
      split
      · rw [toUInt, Nat.mod_eq_of_lt]
        · omega
        · unfold machineAlignement
          omega
      · exact le_rfl
    omega
  bound := Nat.mod_lt _ (by decide)

end Mem
end TmULThreads
