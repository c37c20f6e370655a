import TmULThreads.Mem.Histories

/-!
# Stray addresses

`free_blk` decides from the address alone whether it is that of a block: by a range test
against the padded end of the area, whose sum can wrap, and by the remainder of an offset
that is cut off to an `int`.  An address that passes both is taken for a block, and its
quotient for an index of `addr_blks`.

So an address in the padding that is a multiple of the block size away from the start is
an access behind the table, an address at the very end of the address space wraps into the
range, and blocks of size zero are a division by zero.  And where the length of the area has
been cut off, the blocks behind its end cannot be given back.  `freeLaw_of_run` states what
`free_blk` does with every other address, over all histories of a pool.
-/

namespace TmULThreads
namespace Mem

/-- A call for the pool; any address may be given back. -/
def callStep (memid : Nat) (h : History) : BlkOp → Option History
  | .alloc => blkStep memid h .alloc
  | .free addr =>
      (freeBlk h.mem memid addr).map fun r =>
        ⟨r.1, h.seen, if r.2 = 0 then h.out.erase addr else h.out⟩

/-- What `free_blk` should do with an address. -/
def FreeLaw (memid : Nat) (h : History) (addr : Nat) : Prop :=
  ∃ p m ret, getMemInfo h.mem memid = some p ∧ freeBlk h.mem memid addr = some (m, ret) ∧
    (ret = 0 ↔ ∃ i : Nat, (i : Int) < p.nblks ∧ addr = p.saddr + i * p.size ∧ addr ∈ h.out) ∧
    (ret ≠ 0 → ret = -1 ∧ getMemInfo m memid = some p)

/-- The address can be judged.  If it does not pass the range test, then it is not that of a
block that is out.  If it does, then the block size is not zero, neither the sum nor the
offset is cut off, and if the offset is a multiple of the block size, then the block is one
of the pool. -/
def Judged (h : History) (p : MemInfo) (addr : Nat) : Prop :=
  if inRange p.saddr p.eaddr p.size addr then
    0 < p.size ∧ addr + p.size < 2 ^ 64 ∧ addr - p.saddr < 2 ^ 31 ∧
      (p.size ∣ addr - p.saddr →
        (((addr - p.saddr) / p.size : Nat) : Int) < p.nblks ∧ p.addrBlks.isSome)
  else addr ∉ h.out

instance (h : History) (p : MemInfo) (addr : Nat) : Decidable (Judged h p addr) :=
  inferInstanceAs (Decidable (ite _ _ _))

def JudgedCall (memid : Nat) (h : History) : BlkOp → Prop
  | .alloc => True
  | .free addr => ∀ p ∈ getMemInfo h.mem memid, Judged h p addr

instance (memid : Nat) (h : History) : ∀ op, Decidable (JudgedCall memid h op)
  | .alloc => isTrue trivial
  | .free addr => inferInstanceAs (Decidable (∀ p ∈ getMemInfo h.mem memid, Judged h p addr))

/-! ## One call -/

/-- `alloc_block` returns `NULL`, or the word of a slot, which it clears. -/
theorem allocBlock_slot {p p' : MemInfo} {a : Nat} (h : p.allocBlock = some (p', a)) :
    (a = 0 ∧ p' = p) ∨
      ∃ blks i, p.addrBlks = some blks ∧ blks[i]? = some a ∧ a ≠ 0 ∧
        p' = { p with addrBlks := some (blks.set i 0), fblks := p.fblks - 1,
                      useblks := p.useblks + 1 } := by
  unfold MemInfo.allocBlock at h
  split at h
  · cases h
    exact .inl ⟨rfl, rfl⟩
  · split at h
    · cases h
      exact .inl ⟨rfl, rfl⟩
    · obtain ⟨blks, hblks, h⟩ := Option.bind_eq_some_iff.mp h
      split at h
      · cases h
        exact .inl ⟨rfl, rfl⟩
      · rename_i i hfree
        cases h
        obtain ⟨hlt, hne, -⟩ := List.findIdx?_eq_some_iff_getElem.mp hfree
        have hslot : blks[i]? = some (blks.getD i 0) := by
          rw [List.getD_eq_getElem?_getD, List.getElem?_eq_getElem hlt]
          rfl
        refine .inr ⟨blks, i, hblks, hslot, ?_, rfl⟩
        rw [List.getElem?_eq_getElem hlt, Option.some.injEq] at hslot
        rw [← hslot]
        exact of_decide_eq_true hne

theorem freeBlk_of_not_inRange {p : MemInfo} {addr : Nat}
    (h : inRange p.saddr p.eaddr p.size addr = false) : p.freeBlk addr = some (p, -1) := by
  unfold MemInfo.freeBlk
  rw [if_pos (by rw [h]; exact Bool.false_ne_true)]

/-- What the function computes when nothing is cut off. -/
theorem freeBlk_of_inRange {p : MemInfo} {addr : Nat}
    (h : inRange p.saddr p.eaddr p.size addr = true) (hpos : 0 < p.size)
    (hoff : addr - p.saddr < 2 ^ 31) :
    p.freeBlk addr =
      if p.size ∣ addr - p.saddr then do
        let blks ← p.addrBlks
        let slot ← blks[(addr - p.saddr) / p.size]?
        if slot = 0 then
          some ({ p with addrBlks := some (blks.set ((addr - p.saddr) / p.size) addr)
                         fblks := p.fblks + 1, useblks := p.useblks - 1 }, 0)
        else some (p, -1)
      else some (p, -1) := by
  have hconv : toSizeT (toInt (addr - p.saddr)) = addr - p.saddr := by
    rw [toInt_of_lt hoff, toSizeT_of_nonneg (by omega)]
  have hidx : toInt ((addr - p.saddr) / p.size) = ((addr - p.saddr) / p.size : Nat) := by
    apply toInt_of_lt
    exact (Nat.div_le_self _ _).trans_lt hoff
  have hnonneg : ¬ (((addr - p.saddr) / p.size : Nat) : Int) < 0 :=
    not_lt.mpr (Int.natCast_nonneg _)
  simp only [MemInfo.freeBlk, h, not_true_eq_false, if_false, hconv, hpos.ne', hidx, hnonneg,
    Int.toNat_natCast, Nat.dvd_iff_mod_eq_zero, ne_eq, ite_not]

/-! ## The invariant -/

/-- The pool has been made as `p₀`, every slot of its table is empty or holds the address of
its block, and the slots of a pool with real blocks are empty exactly if the block is out. -/
structure Answers (memid : Nat) (p₀ : MemInfo) (h : History) (p : MemInfo) : Prop where
  found : getMemInfo h.mem memid = some p
  same : SamePool p₀ p
  out : ∀ a ∈ h.out, ∃ i < p.nblks.toNat, a = p.blockAddr i
  length : ∀ blks, p.addrBlks = some blks → blks.length = p.nblks.toNat
  words : ∀ blks, p.addrBlks = some blks → ∀ (i w : Nat), blks[i]? = some w →
    w = 0 ∨ w = p.blockAddr i
  slots : 0 < p.size → ∀ blks, p.addrBlks = some blks → ∀ i < p.nblks.toNat,
    (blks[i]? = some 0 ↔ p.blockAddr i ∈ h.out)

/-- What is known of a pool that `mem_pool_create` has made. -/
structure Laid (p : MemInfo) : Prop where
  saddr_ne : p.saddr ≠ 0
  saddr_lt : p.saddr < 2 ^ 64
  ends : p.saddr + p.nblks.toNat * p.size ≤ 2 ^ 64

theorem SamePool.laid {p q : MemInfo} (h : SamePool p q) (hp : Laid p) : Laid q where
  saddr_ne := h.saddr ▸ hp.saddr_ne
  saddr_lt := h.saddr ▸ hp.saddr_lt
  ends := by rw [h.saddr, h.nblks, h.size]; exact hp.ends

theorem laid_newPool {memid size area : Nat} {nBlks : Int} {tableOk : Bool} (harea : area ≠ 0)
    (hlt : area < 2 ^ 64) (hends : area + nBlks.toNat * size ≤ 2 ^ 64) :
    Laid (newPool memid size nBlks area tableOk) := by
  have hsame : SamePool (newPool memid size nBlks area true)
      (newPool memid size nBlks area tableOk) := by
    cases tableOk <;> exact ⟨rfl, rfl, rfl, rfl, rfl⟩
  exact hsame.laid ⟨harea, hlt, hends⟩

/-- The blocks lie one after the other. -/
theorem Laid.blockAddr {p : MemInfo} (h : Laid p) {i : Nat} (hi : i < p.nblks.toNat) :
    p.blockAddr i = p.saddr + i * p.size := by
  have hlt := h.saddr_lt
  have hends := h.ends
  have hend : i * p.size + p.size ≤ p.nblks.toNat * p.size := by
    rw [← Nat.succ_mul]
    exact Nat.mul_le_mul_right _ hi
  refine Nat.mod_eq_of_lt ?_
  rcases Nat.eq_zero_or_pos p.size with hzero | hpos
  · rw [hzero, Nat.mul_zero]
    exact hlt
  · omega

theorem Laid.blockAddr_ne {p : MemInfo} (h : Laid p) {i : Nat} (hi : i < p.nblks.toNat) :
    p.blockAddr i ≠ 0 := by
  have hne := h.saddr_ne
  rw [h.blockAddr hi]
  omega

theorem Laid.blockAddr_inj {p : MemInfo} (h : Laid p) (hpos : 0 < p.size) {i j : Nat}
    (hi : i < p.nblks.toNat) (hj : j < p.nblks.toNat) (heq : p.blockAddr i = p.blockAddr j) :
    i = j := by
  rw [h.blockAddr hi, h.blockAddr hj] at heq
  exact Nat.eq_of_mul_eq_mul_right hpos (Nat.add_left_cancel heq)

section

variable {memid : Nat} {p₀ : MemInfo} {h : History} {p : MemInfo}

/-- The state after a call that has written the control block. -/
theorem Answers.found_set (ha : Answers memid p₀ h p) {p' : MemInfo} (hsame : SamePool p p') :
    getMemInfo (h.mem.set p') memid = some p' := by
  have hid : p'.memid = memid := hsame.memid.trans (getMemInfo_mem ha.found).2
  rw [← hid]
  exact getMemInfo_set_self (hid ▸ ha.found)

theorem Answers.freeBlk_eq (ha : Answers memid p₀ h p) {p' : MemInfo} {addr : Nat} {ret : Int}
    (hfree : p.freeBlk addr = some (p', ret)) :
    freeBlk h.mem memid addr = some (h.mem.set p', ret) := by
  simp only [freeBlk, ha.found, hfree, Option.bind_eq_bind, Option.bind_some]

/-- What `free_blk` does with an address that can be judged. -/
theorem Answers.freeBlk_cases (ha : Answers memid p₀ h p) (hp : Laid p) {addr : Nat}
    (hjudged : Judged h p addr) :
    (addr ∉ h.out ∧ p.freeBlk addr = some (p, -1)) ∨
      ∃ blks i, i < p.nblks.toNat ∧ addr = p.blockAddr i ∧ addr ∈ h.out ∧ 0 < p.size ∧
        p.addrBlks = some blks ∧
        p.freeBlk addr = some ({ p with addrBlks := some (blks.set i addr)
                                        fblks := p.fblks + 1, useblks := p.useblks - 1 }, 0) := by
  cases hrange : inRange p.saddr p.eaddr p.size addr with
  | false =>
      rw [Judged, hrange, if_neg Bool.false_ne_true] at hjudged
      exact .inl ⟨hjudged, freeBlk_of_not_inRange hrange⟩
  | true =>
      rw [Judged, if_pos hrange] at hjudged
      obtain ⟨hpos, hwrap, hoff, hblock⟩ := hjudged
      have hle : p.saddr ≤ addr := by
        simp only [inRange, Bool.and_eq_true, decide_eq_true_eq] at hrange
        exact hrange.1
      by_cases hdvd : p.size ∣ addr - p.saddr
      · obtain ⟨hlt, htable⟩ := hblock hdvd
        obtain ⟨blks, hblks⟩ := Option.isSome_iff_exists.mp htable
        obtain ⟨i, hi⟩ : ∃ i, i = (addr - p.saddr) / p.size := ⟨_, rfl⟩
        have hi' : i < p.nblks.toNat := by omega
        have haddr : addr = p.blockAddr i := by
          have hmul : i * p.size = addr - p.saddr := by
            rw [hi]
            exact Nat.div_mul_cancel hdvd
          rw [hp.blockAddr hi', hmul]
          omega
        have hslots := ha.slots hpos blks hblks i hi'
        have hlen := ha.length blks hblks
        obtain ⟨w, hw⟩ : ∃ w, blks[i]? = some w :=
          ⟨_, List.getElem?_eq_getElem (hlen ▸ hi')⟩
        have hfree := freeBlk_of_inRange hrange hpos hoff
        rw [if_pos hdvd, hblks, ← hi] at hfree
        simp only [Option.bind_eq_bind, Option.bind_some, hw] at hfree
        by_cases hzero : w = 0
        · rw [if_pos hzero] at hfree
          rw [hzero] at hw
          exact .inr ⟨blks, i, hi', haddr, haddr ▸ hslots.mp hw, hpos, hblks, hfree⟩
        · rw [if_neg hzero] at hfree
          refine .inl ⟨fun hout => hzero ?_, hfree⟩
          have hempty := hslots.mpr (haddr ▸ hout)
          exact Option.some.inj (hw.symm.trans hempty)
      · have hfree := freeBlk_of_inRange hrange hpos hoff
        rw [if_neg hdvd] at hfree
        refine .inl ⟨fun hout => hdvd ?_, hfree⟩
        obtain ⟨i, hi, rfl⟩ := ha.out addr hout
        rw [hp.blockAddr hi, Nat.add_sub_cancel_left]
        exact Nat.dvd_mul_left _ _

theorem Answers.freeLaw (ha : Answers memid p₀ h p) (hp : Laid p) {addr : Nat}
    (hjudged : Judged h p addr) : FreeLaw memid h addr := by
  rcases ha.freeBlk_cases hp hjudged with
    ⟨hout, hfree⟩ | ⟨blks, i, hi, haddr, hout, hpos, -, hfree⟩
  · refine ⟨p, _, -1, ha.found, ha.freeBlk_eq hfree, ?_, fun _ => ⟨rfl, ?_⟩⟩
    · exact iff_of_false (by decide) fun ⟨_, _, _, hmem⟩ => hout hmem
    · exact ha.found_set (SamePool.refl p)
  · refine ⟨p, _, 0, ha.found, ha.freeBlk_eq hfree, iff_of_true rfl ⟨i, ?_, ?_, hout⟩, ?_⟩
    · omega
    · rw [haddr, hp.blockAddr hi]
    · exact fun hne => absurd rfl hne

/-- An address for which nothing is cut off, and which cannot be judged, makes the function
go wrong. -/
theorem Answers.judged_of_freeLaw (ha : Answers memid p₀ h p) (hp : Laid p) {addr : Nat}
    (hwrap : addr + p.size < 2 ^ 64) (hoff : addr - p.saddr < 2 ^ 31)
    (hlaw : FreeLaw memid h addr) : Judged h p addr := by
  obtain ⟨q, m, ret, hq, hfree, hret, -⟩ := hlaw
  obtain rfl : p = q := Option.some.inj (ha.found.symm.trans hq)
  simp only [freeBlk, ha.found, Option.bind_eq_bind, Option.bind_eq_some_iff] at hfree
  obtain ⟨r, hblk, hr⟩ := hfree
  cases hrange : inRange p.saddr p.eaddr p.size addr with
  | false =>
      rw [Judged, hrange, if_neg Bool.false_ne_true]
      intro hout
      obtain ⟨i, hi, haddr⟩ := ha.out addr hout
      -- the block is out, but the function returns `-1`
      have hzero : ret = 0 := hret.mpr ⟨i, by omega, haddr.trans (hp.blockAddr hi), hout⟩
      rw [freeBlk_of_not_inRange hrange] at hblk
      cases hblk
      cases hr
      cases hzero
  | true =>
      rw [Judged, if_pos hrange]
      have hpos : 0 < p.size := by
        rw [Nat.pos_iff_ne_zero]
        intro hzero
        have hnone : p.freeBlk addr = none := by
          unfold MemInfo.freeBlk
          rw [if_neg (not_not.mpr hrange)]
          exact if_pos hzero
        cases hnone.symm.trans hblk
      refine ⟨hpos, hwrap, hoff, fun hdvd => ?_⟩
      rw [freeBlk_of_inRange hrange hpos hoff, if_pos hdvd] at hblk
      simp only [Option.bind_eq_bind, Option.bind_eq_some_iff] at hblk
      obtain ⟨blks, hblks, w, hw, -⟩ := hblk
      obtain ⟨hlt, -⟩ := List.getElem?_eq_some_iff.mp hw
      rw [ha.length blks hblks] at hlt
      refine ⟨?_, ?_⟩
      · generalize (addr - p.saddr) / p.size = i at hlt
        omega
      · rw [hblks]
        rfl

/-! ## Calls of a history -/

theorem Answers.of_alloc (ha : Answers memid p₀ h p) (hp : Laid p) {h' : History}
    (hstep : callStep memid h .alloc = some h') : ∃ p', Answers memid p₀ h' p' := by
  obtain ⟨r, halloc, rfl⟩ := Option.map_eq_some_iff.mp hstep
  simp only [allocBlock, ha.found, Option.bind_eq_bind, Option.bind_some,
    Option.bind_eq_some_iff] at halloc
  obtain ⟨⟨p', a⟩, hblk, heq⟩ := halloc
  cases heq
  rcases allocBlock_slot hblk with ⟨rfl, hp'⟩ | ⟨blks, i, hblks, hword, hne, rfl⟩
  · rw [if_pos rfl, hp']
    exact ⟨p, { ha with found := ha.found_set (SamePool.refl p) }⟩
  · rw [if_neg hne]
    have hsame : SamePool p { p with addrBlks := some (blks.set i 0), fblks := p.fblks - 1,
                                     useblks := p.useblks + 1 } := ⟨rfl, rfl, rfl, rfl, rfl⟩
    have haddr : a = p.blockAddr i := (ha.words blks hblks i a hword).resolve_left hne
    have hi : i < p.nblks.toNat := by
      rw [← ha.length blks hblks]
      exact (List.getElem?_eq_some_iff.mp hword).1
    refine ⟨_, ha.found_set hsame, ha.same.trans hsame, fun b hb => ?_, ?_, ?_, ?_⟩
    · rcases Finset.mem_insert.mp hb with rfl | hold
      · exact ⟨i, hi, haddr⟩
      · exact ha.out b hold
    · intro blks' hblks'
      cases hblks'
      rw [List.length_set]
      exact ha.length blks hblks
    · intro blks' hblks' j w hw
      cases hblks'
      rw [List.getElem?_set] at hw
      split at hw
      · split at hw
        · exact .inl (Option.some.inj hw).symm
        · cases hw
      · exact ha.words blks hblks j w hw
    · intro hpos blks' hblks' j hj
      cases hblks'
      rw [List.getElem?_set]
      by_cases hij : i = j
      · subst hij
        have hlt : i < blks.length := by
          rw [ha.length blks hblks]
          exact hi
        rw [if_pos rfl, if_pos hlt]
        refine iff_of_true rfl ?_
        rw [haddr]
        exact Finset.mem_insert_self _ _
      · rw [if_neg hij, ha.slots hpos blks hblks j hj]
        -- the blocks have different addresses
        have hother : p.blockAddr j ≠ a := by
          rw [haddr]
          exact fun heq => hij (hp.blockAddr_inj hpos hj hi heq).symm
        exact ⟨Finset.mem_insert_of_mem, fun hmem => Finset.mem_of_mem_insert_of_ne hmem hother⟩

theorem Answers.of_free (ha : Answers memid p₀ h p) (hp : Laid p) {addr : Nat} {h' : History}
    (hjudged : Judged h p addr) (hstep : callStep memid h (.free addr) = some h') :
    ∃ p', Answers memid p₀ h' p' := by
  obtain ⟨⟨m, ret⟩, hfree', rfl⟩ := Option.map_eq_some_iff.mp hstep
  rcases ha.freeBlk_cases hp hjudged with
    ⟨-, hfree⟩ | ⟨blks, i, hi, haddr, -, hpos, hblks, hfree⟩
  · rw [ha.freeBlk_eq hfree] at hfree'
    cases hfree'
    exact ⟨p, { ha with found := ha.found_set (SamePool.refl p) }⟩
  · rw [ha.freeBlk_eq hfree] at hfree'
    cases hfree'
    have hsame : SamePool p { p with addrBlks := some (blks.set i addr), fblks := p.fblks + 1,
                                     useblks := p.useblks - 1 } := ⟨rfl, rfl, rfl, rfl, rfl⟩
    have hlen := ha.length blks hblks
    refine ⟨_, ha.found_set hsame, ha.same.trans hsame, ?_, ?_, ?_, ?_⟩
    · intro b hb
      exact ha.out b (Finset.mem_of_mem_erase hb)
    · intro blks' hblks'
      cases hblks'
      rw [List.length_set]
      exact hlen
    · intro blks' hblks' j w hw
      cases hblks'
      rw [List.getElem?_set] at hw
      split at hw
      · rename_i hij
        subst hij
        split at hw
        · rw [← Option.some.inj hw]
          exact .inr haddr
        · cases hw
      · exact ha.words blks hblks j w hw
    · intro _ blks' hblks' j hj
      cases hblks'
      rw [List.getElem?_set]
      by_cases hij : i = j
      · subst hij
        rw [if_pos rfl, if_pos (hlen ▸ hi), Option.some.injEq]
        refine iff_of_false ?_ ?_
        · rw [haddr]
          exact hp.blockAddr_ne hi
        · rw [haddr]
          exact Finset.notMem_erase _ _
      · rw [if_neg hij, ha.slots hpos blks hblks j hj]
        have hother : p.blockAddr j ≠ addr := by
          rw [haddr]
          exact fun heq => hij (hp.blockAddr_inj hpos hj hi heq).symm
        exact ⟨fun hmem => Finset.mem_erase.mpr ⟨hother, hmem⟩, Finset.mem_of_mem_erase⟩

end

theorem answers_newPool {m' : MemState} {memid size area : Nat} {nBlks : Int} {tableOk : Bool}
    (hfound : getMemInfo m' memid = some (newPool memid size nBlks area tableOk))
    (hlaid : Laid (newPool memid size nBlks area tableOk)) :
    Answers memid (newPool memid size nBlks area tableOk) ⟨m', ∅, ∅⟩
      (newPool memid size nBlks area tableOk) := by
  have htable (blks : List Nat) (hblks : (newPool memid size nBlks area tableOk).addrBlks = some blks) :
      blks = (List.range nBlks.toNat).map fun i => computeAddrBlock area i size := by
    cases tableOk with
    | false => cases hblks
    | true => exact (Option.some.inj hblks).symm
  have hnblks : (newPool memid size nBlks area tableOk).nblks = nBlks := by
    cases tableOk <;> rfl
  have haddr : (newPool memid size nBlks area tableOk).blockAddr =
      fun i => computeAddrBlock area i size := by
    cases tableOk <;> rfl
  refine ⟨hfound, SamePool.refl _, fun a ha => absurd ha (Finset.notMem_empty a), ?_, ?_, ?_⟩
  · intro blks hblks
    rw [htable blks hblks, List.length_map, List.length_range, hnblks]
  · intro blks hblks i w hw
    rw [htable blks hblks, List.getElem?_map, Option.map_eq_some_iff] at hw
    obtain ⟨j, hj, rfl⟩ := hw
    obtain ⟨-, rfl⟩ := List.getElem?_eq_some_iff.mp hj
    rw [haddr, List.getElem_range]
    exact .inr rfl
  · intro _ blks hblks i hi
    have hslot : blks[i]? = some ((newPool memid size nBlks area tableOk).blockAddr i) := by
      rw [hnblks] at hi
      rw [htable blks hblks, haddr, List.getElem?_map, List.getElem?_range hi]
      rfl
    rw [hslot, Option.some.injEq]
    exact iff_of_false (hlaid.blockAddr_ne hi) (Finset.notMem_empty _)

/-- In every history of a pool whose blocks lie in the address space and in which the
addresses given back can be judged, `free_blk` does the right thing with every address that
can be judged; and with no other address, as long as neither the sum nor the offset is cut
off. -/
theorem freeLaw_of_run (m m' : MemState) (size : Nat) (nBlks : Int) (mcbOk : Bool) (area : Nat)
    (tableOk : Bool) (memid : Nat) (hnum : m.Numbered)
    (hcreate : memPoolCreate m size nBlks mcbOk area tableOk = (m', some memid))
    (hlt : area < 2 ^ 64) (hends : area + nBlks.toNat * size ≤ 2 ^ 64)
    (ops : List BlkOp) (h : History)
    (hok : PartialSteps.Meets (callStep memid) (JudgedCall memid) ⟨m', ∅, ∅⟩ ops)
    (hrun : PartialSteps.run (callStep memid) ⟨m', ∅, ∅⟩ ops = some h) :
    ∃ p, getMemInfo h.mem memid = some p ∧ p.saddr = area ∧ p.size = size ∧ ∀ addr,
      (Judged h p addr → FreeLaw memid h addr) ∧
        (addr + size < 2 ^ 64 → addr - area < 2 ^ 31 → FreeLaw memid h addr → Judged h p addr) := by
  obtain ⟨harea, hfound⟩ := found_of_create hnum hcreate
  have hlaid : Laid (newPool memid size nBlks area tableOk) := laid_newPool harea hlt hends
  obtain ⟨p, ha⟩ := PartialSteps.run_invariant (callStep memid)
    (I := fun h => ∃ p, Answers memid (newPool memid size nBlks area tableOk) h p)
    (by
      rintro mid op next ⟨p, ha⟩ hjudged hstep
      have hp := ha.same.laid hlaid
      cases op with
      | alloc => exact ha.of_alloc hp hstep
      | free addr => exact ha.of_free hp (hjudged p ha.found) hstep)
    ⟨_, answers_newPool hfound hlaid⟩ hok hrun
  have hsaddr : p.saddr = area := by
    rw [ha.same.saddr]
    cases tableOk <;> rfl
  have hsize : p.size = size := by
    rw [ha.same.size]
    cases tableOk <;> rfl
  refine ⟨p, ha.found, hsaddr, hsize, fun addr => ⟨ha.freeLaw (ha.same.laid hlaid), ?_⟩⟩
  intro hwrap hoff
  rw [← hsize] at hwrap
  rw [← hsaddr] at hoff
  exact ha.judged_of_freeLaw (ha.same.laid hlaid) hwrap hoff

/-- Two blocks of eight bytes, one of them given back, with some stray addresses. -/
def strayCalls : List BlkOp := [.alloc, .alloc, .free 4100, .free 4112, .free 4096, .free 4096]

theorem freeLaw_strayCalls :
    ∃ m' h, memPoolCreate memInit 8 2 true 4096 true = (m', some 1) ∧
      PartialSteps.run (callStep 1) ⟨m', ∅, ∅⟩ strayCalls = some h ∧ FreeLaw 1 h 4104 := by
  let m' := (memPoolCreate memInit 8 2 true 4096 true).1
  have hok : PartialSteps.Meets (callStep 1) (JudgedCall 1) ⟨m', ∅, ∅⟩ strayCalls := by
    decide +kernel
  obtain ⟨h, hrun⟩ : ∃ h, PartialSteps.run (callStep 1) ⟨m', ∅, ∅⟩ strayCalls = some h :=
    Option.isSome_iff_exists.mp (by decide +kernel)
  obtain ⟨p, hp, -, -, hlaw⟩ := freeLaw_of_run memInit m' 8 2 true 4096 true 1
    (fun _ hp => nomatch hp) rfl (by decide) (by decide) strayCalls h hok hrun
  have hjudged : (PartialSteps.run (callStep 1) ⟨m', ∅, ∅⟩ strayCalls).all fun h =>
      (getMemInfo h.mem 1).all fun p => decide (Judged h p 4104) := by decide +kernel
  rw [hrun] at hjudged
  simp only [Option.all_some, hp, decide_eq_true_eq] at hjudged
  exact ⟨m', h, rfl, hrun, (hlaw 4104).1 hjudged⟩

/-- Of three blocks of one byte, the address behind the last one is in the padded area and
leads behind the table; so does an address at the end of the address space; and with blocks
of size zero the start of the area makes the function divide by zero. -/
theorem not_freeLaw_stray :
    (∃ m', memPoolCreate memInit 1 3 true 4096 true = (m', some 1) ∧
      freeBlk m' 1 4099 = none ∧ ¬ FreeLaw 1 ⟨m', ∅, ∅⟩ 4099) ∧
    (∃ m', memPoolCreate memInit 8 2 true 4096 true = (m', some 1) ∧
      freeBlk m' 1 (2 ^ 64 - 8) = none ∧ ¬ FreeLaw 1 ⟨m', ∅, ∅⟩ (2 ^ 64 - 8)) ∧
    ∃ m', memPoolCreate memInit 0 1 true 4096 true = (m', some 1) ∧
      freeBlk m' 1 4096 = none ∧ ¬ FreeLaw 1 ⟨m', ∅, ∅⟩ 4096 := by
  have hundefined {m' : MemState} {addr : Nat} (hnone : freeBlk m' 1 addr = none) :
      ¬ FreeLaw 1 ⟨m', ∅, ∅⟩ addr := by
    rintro ⟨p, m, ret, -, hfree, -⟩
    cases hnone.symm.trans hfree
  have hpadding : freeBlk (memPoolCreate memInit 1 3 true 4096 true).1 1 4099 = none := by
    decide +kernel
  have hwrapped : freeBlk (memPoolCreate memInit 8 2 true 4096 true).1 1 (2 ^ 64 - 8) = none := by
    decide +kernel
  have hzero : freeBlk (memPoolCreate memInit 0 1 true 4096 true).1 1 4096 = none := by
    decide +kernel
  exact ⟨⟨_, rfl, hpadding, hundefined hpadding⟩, ⟨_, rfl, hwrapped, hundefined hwrapped⟩,
    ⟨_, rfl, hzero, hundefined hzero⟩⟩

end Mem
end TmULThreads
