import TmULThreads.ThreadLib.Allocations
import Mathlib.Data.Nat.ModEq

/-!
# Creating a pool

`mem_pool_create` makes three requests for memory.  A caller expects a pool from which as many
blocks can be taken as were asked for, or a failure that leaves nothing behind.

* `takeBlocks` takes blocks out of a new pool one after the other; `takeBlocks_eq` gives the
  addresses: the words of the table other than `NULL`, and then `NULL`.
* `createLaw_iff` states when the expectation is met.  A failed request for the area leaks the
  control block, and a failed request for the table is not noticed at all: the pool is
  registered, and `alloc_block` reads its table through `NULL`.
-/

namespace TmULThreads
namespace Mem

open ThreadLib (Layout Block poolTraffic)

/-- Successive calls of `alloc_block`, with the addresses that they return. -/
def takeBlocks (s : Registry) (memid : Nat) : Nat → Option (Registry × List Nat)
  | 0 => some (s, [])
  | n + 1 => do
      let (s, addr) ← s.alloc memid
      let (s, addrs) ← takeBlocks s memid n
      some (s, addr :: addrs)

/-- The blocks that a call has obtained and not given back. -/
def keptBlocks (events : List (Meter.Event Block)) : List Block :=
  ((events.foldl (Meter.Heap.apply (2 ^ 64)) ⟨0, []⟩).blocks).map Prod.fst

/-- What a caller of `mem_pool_create` expects: a registered pool from which `n_blks` blocks can
be taken, or a failure without a trace. -/
def CreateLaw (L : Layout) (s : Registry) (size : Nat) (nBlks : Int) (mcbOk : Bool) (area : Nat)
    (tableOk : Bool) : Prop :=
  ∃ s' res, s.create size nBlks mcbOk area tableOk = some (s', res) ∧
    match res with
    | some memid =>
        (∃ p, s'.getMemInfo memid = some (some p)) ∧
          ∃ s'' addrs, takeBlocks s' memid nBlks.toNat = some (s'', addrs) ∧ 0 ∉ addrs ∧ addrs.Nodup
    | none =>
        s'.mem.hdMcb = s.mem.hdMcb ∧
          keptBlocks (poolTraffic L s (.create size nBlks mcbOk area tableOk)) = []

/-- The addresses `area + i * size` for `i < n` do not meet `NULL` or each other when they are
cut off at the end of the address space. -/
structure Spread (area size n : Nat) : Prop where
  null : ∀ i < n, computeAddrBlock area i size ≠ 0
  apart : n * Nat.gcd size (2 ^ 64) ≤ 2 ^ 64

/-- The first request fails, or all of them succeed (the last one may fail for a pool without
blocks), nothing has been deleted and the identifiers are not used up. -/
def Creatable (s : Registry) (size : Nat) (nBlks : Int) (mcbOk : Bool) (area : Nat)
    (tableOk : Bool) : Prop :=
  mcbOk = false ∨
    (s.mem.lastId + 1 ≠ 2 ^ 31 ∧ area ≠ 0 ∧ s.freed = [] ∧
      (nBlks ≤ 0 ∨ (tableOk = true ∧ Spread area size nBlks.toNat)))

/-! ## The addresses of the blocks -/

/-- Two blocks have the same address if their numbers agree modulo the number of addresses that
there are in steps of `size`. -/
theorem computeAddrBlock_eq_iff {area size i j : Nat} :
    computeAddrBlock area i size = computeAddrBlock area j size ↔
      i ≡ j [MOD 2 ^ 64 / Nat.gcd size (2 ^ 64)] := by
  show area + i * size ≡ area + j * size [MOD 2 ^ 64] ↔ _
  rw [Nat.mul_comm i, Nat.mul_comm j]
  constructor
  · intro heq
    have hdiv := Nat.ModEq.cancel_left_div_gcd (by decide) (Nat.ModEq.add_left_cancel' area heq)
    rwa [Nat.gcd_comm] at hdiv
  · intro heq
    have hdvd : 2 ^ 64 ∣ size * (2 ^ 64 / Nat.gcd size (2 ^ 64)) := by
      obtain ⟨k, hk⟩ := Nat.gcd_dvd_left size (2 ^ 64)
      refine ⟨k, ?_⟩
      calc size * (2 ^ 64 / Nat.gcd size (2 ^ 64))
          = Nat.gcd size (2 ^ 64) * k * (2 ^ 64 / Nat.gcd size (2 ^ 64)) := by rw [← hk]
        _ = Nat.gcd size (2 ^ 64) * (2 ^ 64 / Nat.gcd size (2 ^ 64)) * k := Nat.mul_right_comm ..
        _ = 2 ^ 64 * k := by rw [Nat.mul_div_cancel' (Nat.gcd_dvd_right size (2 ^ 64))]
    exact ((heq.mul_left' size).of_dvd hdvd).add_left area

theorem nodup_addresses_iff {area size n : Nat} :
    ((List.range n).map fun i => computeAddrBlock area i size).Nodup ↔
      n * Nat.gcd size (2 ^ 64) ≤ 2 ^ 64 := by
  have hgcd : 0 < Nat.gcd size (2 ^ 64) := Nat.gcd_pos_of_pos_right _ (by decide)
  have hpos : 0 < 2 ^ 64 / Nat.gcd size (2 ^ 64) :=
    Nat.div_pos (Nat.gcd_le_right _ (by decide)) hgcd
  rw [List.nodup_map_iff_inj_on List.nodup_range, ← Nat.le_div_iff_mul_le hgcd]
  constructor
  · intro hinj
    by_contra hlt
    rw [not_le] at hlt
    -- the block after a full round has the address of the first one
    have hround := hinj 0 (List.mem_range.mpr (hpos.trans hlt)) _ (List.mem_range.mpr hlt)
      (computeAddrBlock_eq_iff.mpr ((Nat.modEq_zero_iff_dvd.mpr dvd_rfl).symm))
    omega
  · intro hle i hi j hj heq
    exact Nat.ModEq.eq_of_lt_of_lt (computeAddrBlock_eq_iff.mp heq)
      ((List.mem_range.mp hi).trans_le hle) ((List.mem_range.mp hj).trans_le hle)

/-! ## Taking blocks -/

/-- The words of the table other than `NULL` are those of `free`. -/
structure Stocked (p : MemInfo) (free : List Nat) : Prop where
  nblks : 0 < p.nblks
  table : ∃ blks, p.addrBlks = some blks ∧ blks.filter (· ≠ 0) = free
  fblks : free.length ≤ p.fblks

theorem Stocked.allocBlock {p : MemInfo} {free : List Nat} (h : Stocked p free) :
    ∃ p', p.allocBlock = some (p', free.headD 0) ∧ p'.memid = p.memid ∧ Stocked p' free.tail := by
  obtain ⟨blks, hblks, hfilter⟩ := h.table
  cases free with
  | nil =>
      refine ⟨p, ?_, rfl, h⟩
      have hnone := SlotTable.firstFree_eq_none.mpr hfilter
      unfold MemInfo.allocBlock
      split
      · rfl
      · rw [if_neg (not_le.mpr h.nblks), hblks]
        simp only [Option.bind_eq_bind, Option.bind_some, hnone]
        rfl
  | cons a rest =>
      have hlen := h.fblks
      rw [List.length_cons] at hlen
      have hfree : p.fblks ≠ 0 := by omega
      cases hfirst : SlotTable.firstFree blks with
      | none =>
          rw [SlotTable.firstFree_eq_none.mp hfirst] at hfilter
          cases hfilter
      | some i =>
          rw [SlotTable.filter_of_firstFree hfirst] at hfilter
          obtain ⟨rfl, hrest⟩ := List.cons.inj hfilter
          refine ⟨{ p with addrBlks := some (blks.set i 0), fblks := p.fblks - 1,
                           useblks := p.useblks + 1 }, ?_, rfl, h.nblks, ⟨_, rfl, hrest⟩, ?_⟩
          · rw [MemInfo.allocBlock, if_neg hfree, if_neg (not_le.mpr h.nblks), hblks]
            simp only [Option.bind_eq_bind, Option.bind_some, hfirst]
            rfl
          · show (rest.length : Int) ≤ p.fblks - 1
            omega

theorem Intact.alloc_eq {s : Registry} (h : Intact s) {memid : Nat} {p : MemInfo}
    (hfound : s.pools memid = some p) :
    s.alloc memid = p.allocBlock.map fun r => (s.write memid r.1, r.2) := by
  unfold Registry.alloc
  rw [h.getMemInfo_eq, hfound]
  cases hblock : p.allocBlock with
  | none => simp [hblock]
  | some r => simp [hblock]

/-- As many blocks can be taken as there are words other than `NULL`; after that `alloc_block`
returns `NULL`. -/
theorem takeBlocks_eq {s : Registry} (h : Intact s) {memid : Nat} {p : MemInfo}
    (hfound : s.pools memid = some p) {free : List Nat} (hstocked : Stocked p free) (n : Nat) :
    ∃ s', takeBlocks s memid n =
      some (s', free.take n ++ List.replicate (n - free.length) 0) := by
  induction n generalizing s p free with
  | zero => exact ⟨s, by simp [takeBlocks]⟩
  | succ n ih =>
      obtain ⟨p', halloc, hid, hstocked'⟩ := hstocked.allocBlock
      have hcall : s.alloc memid = some (s.write memid p', free.headD 0) := by
        rw [h.alloc_eq hfound, halloc]
        rfl
      obtain ⟨s', hrest⟩ := ih (h.of_write hfound hid) (Function.update_self ..) hstocked'
      refine ⟨s', ?_⟩
      simp only [takeBlocks, hcall, Option.bind_eq_bind, Option.bind_some, hrest]
      cases free with
      | nil => simp [List.replicate_succ]
      | cons a rest => simp

/-! ## Reachable registries -/

theorem mem_of_walkMcb {freed : List Nat} {memid : Nat} {pools : List MemInfo} {p : MemInfo}
    (h : walkMcb freed memid pools = some (some p)) : p ∈ pools := by
  induction pools with
  | nil => cases h
  | cons q rest ih =>
      rw [walkMcb] at h
      split at h
      · cases h
      · split at h
        · cases h
          exact List.mem_cons_self
        · exact List.mem_cons_of_mem q (ih h)

/-- A walk for a record behind a freed one does not get there. -/
theorem walkMcb_append_eq_none {freed : List Nat} {memid : Nat} {pools rest : List MemInfo}
    {q : MemInfo} (hq : q ∈ pools) (hfreed : q.memid ∈ freed)
    (hother : ∀ p ∈ pools, p.memid ≠ memid) : walkMcb freed memid (pools ++ rest) = none := by
  induction pools with
  | nil => cases hq
  | cons p pools ih =>
      rw [List.cons_append, walkMcb]
      by_cases hp : p.memid ∈ freed
      · rw [if_pos hp]
      · rw [if_neg hp, if_neg (hother p List.mem_cons_self)]
        rcases List.mem_cons.mp hq with rfl | hmem
        · exact absurd hfreed hp
        · exact ih hmem fun p hp => hother p (List.mem_cons_of_mem _ hp)

/-- What holds of a registry whatever has been deleted. -/
structure Recorded (s : Registry) : Prop where
  numbered : s.mem.Numbered
  freed : ∀ id ∈ s.freed, ∃ p ∈ s.mem.hdMcb, p.memid = id
  intact : s.freed = [] → Intact s

theorem recorded_init : Recorded initRegistry :=
  ⟨intact_init.numbered, fun _ hid => (List.not_mem_nil hid).elim, fun _ => intact_init⟩

theorem Recorded.of_create {s s' : Registry} (h : Recorded s) {size : Nat} {nBlks : Int}
    {mcbOk : Bool} {area : Nat} {tableOk : Bool} {res : Option Nat}
    (hcreate : s.create size nBlks mcbOk area tableOk = some (s', res)) : Recorded s' := by
  have hintact (hnil : s.freed = []) : Intact s' := (h.intact hnil).of_create hcreate
  unfold Registry.create at hcreate
  split at hcreate
  · cases hcreate
  · rcases memPoolCreate_cases s.mem size nBlks mcbOk area tableOk with ⟨k, hk, hfail⟩ | ⟨-, hdone⟩
    · rw [hfail] at hcreate
      cases hcreate
      exact ⟨fun p hp => (h.numbered p hp).trans hk, h.freed, hintact⟩
    · rw [hdone] at hcreate
      dsimp only at hcreate
      split at hcreate
      · cases hcreate
      · cases hcreate
        refine ⟨fun q hq => ?_, fun id hid => ?_, hintact⟩
        · rcases List.mem_append.mp hq with hold | hnew
          · exact (h.numbered q hold).trans (Nat.le_succ _)
          · rw [List.mem_singleton.mp hnew, memid_newPool]
        · obtain ⟨p, hp, hpid⟩ := h.freed id hid
          exact ⟨p, List.mem_append_left _ hp, hpid⟩

theorem Recorded.of_write {s : Registry} (h : Recorded s) {memid : Nat} {p p' : MemInfo}
    (hfound : s.getMemInfo memid = some (some p)) (hid : p'.memid = p.memid) :
    Recorded (s.write memid p') where
  numbered := Numbered.of_set h.numbered (hid ▸ h.numbered p (mem_of_walkMcb hfound))
  freed id hmem := by
    obtain ⟨q, hq, hqid⟩ := h.freed id hmem
    refine ⟨_, List.mem_map_of_mem hq, ?_⟩
    split
    · rename_i heq
      rw [← heq, hqid]
    · exact hqid
  intact hnil := by
    have hintact := h.intact hnil
    rw [hintact.getMemInfo_eq, Option.some.injEq] at hfound
    exact hintact.of_write hfound hid

theorem Recorded.of_step {s s' : Registry} {op : RegOp} (h : Recorded s)
    (hstep : regStep s op = some s') : Recorded s' := by
  cases op with
  | create size nBlks mcbOk area tableOk =>
      obtain ⟨⟨r, res⟩, hcreate, rfl⟩ := Option.map_eq_some_iff.mp hstep
      exact h.of_create hcreate
  | delete memid =>
      obtain ⟨⟨r, ret⟩, hdelete, rfl⟩ := Option.map_eq_some_iff.mp hstep
      obtain ⟨found, hfound, hdelete⟩ := Option.bind_eq_some_iff.mp hdelete
      cases found with
      | none =>
          cases hdelete
          exact h
      | some p =>
          cases hdelete
          refine ⟨h.numbered, fun id hid => ?_, nofun⟩
          rcases List.mem_cons.mp hid with rfl | hold
          · exact ⟨p, mem_of_walkMcb hfound, rfl⟩
          · exact h.freed id hold
  | alloc memid =>
      obtain ⟨⟨r, a⟩, halloc, rfl⟩ := Option.map_eq_some_iff.mp hstep
      simp only [Registry.alloc, Option.bind_eq_bind, Option.bind_eq_some_iff,
        Option.some.injEq, Prod.mk.injEq] at halloc
      obtain ⟨_, hfound, p, rfl, ⟨p', a'⟩, hblock, rfl, -⟩ := halloc
      exact h.of_write hfound (memid_allocBlock hblock)
  | free memid addr =>
      obtain ⟨⟨r, ret⟩, hfree, rfl⟩ := Option.map_eq_some_iff.mp hstep
      obtain ⟨found, hfound, hfree⟩ := Option.bind_eq_some_iff.mp hfree
      cases found with
      | none =>
          cases hfree
          exact h
      | some p =>
          simp only [Option.bind_eq_bind, Option.bind_eq_some_iff, Option.some.injEq,
            Prod.mk.injEq] at hfree
          obtain ⟨⟨p', ret'⟩, hblock, rfl, -⟩ := hfree
          exact h.of_write hfound (memid_freeBlk hblock)

theorem recorded_of_run {ops : List RegOp} {s : Registry}
    (hrun : PartialSteps.run regStep initRegistry ops = some s) : Recorded s :=
  PartialSteps.run_invariant_always regStep (fun _ _ _ hs hstep => hs.of_step hstep) recorded_init
    hrun

/-! ## Taking all blocks of a new pool -/

/-- The table of a new pool. -/
def newTable (area size n : Nat) : List Nat :=
  (List.range n).map fun i => computeAddrBlock area i size

theorem zero_notMem_newTable {area size n : Nat} :
    0 ∉ newTable area size n ↔ ∀ i < n, computeAddrBlock area i size ≠ 0 := by
  simp [newTable]

section

variable {memid size area : Nat} {nBlks : Int}

theorem stocked_newPool (hpos : 0 < nBlks) :
    Stocked (newPool memid size nBlks area true)
      ((newTable area size nBlks.toNat).filter (· ≠ 0)) where
  nblks := hpos
  table := ⟨_, rfl, rfl⟩
  fblks := by
    have hle := List.length_filter_le (fun a => decide (a ≠ 0)) (newTable area size nBlks.toNat)
    rw [newTable, List.length_map, List.length_range] at hle
    show (((newTable area size nBlks.toNat).filter _).length : Int) ≤ nBlks
    rw [newTable]
    omega

/-- Without a table the first `alloc_block` has no outcome. -/
theorem takeBlocks_of_no_table {s : Registry} (h : Intact s)
    (hfound : s.pools memid = some (newPool memid size nBlks area false)) (hpos : 0 < nBlks)
    (n : Nat) : takeBlocks s memid (n + 1) = none := by
  have hblock : (newPool memid size nBlks area false).allocBlock = none := by
    unfold MemInfo.allocBlock
    rw [if_neg (show (newPool memid size nBlks area false).fblks ≠ 0 from hpos.ne'),
      if_neg (show ¬ (newPool memid size nBlks area false).nblks ≤ 0 from not_le.mpr hpos)]
    rfl
  have hcall : s.alloc memid = none := by
    rw [h.alloc_eq hfound, hblock]
    rfl
  rw [takeBlocks, hcall]
  rfl

theorem drained_iff {s : Registry} (h : Intact s) {tableOk : Bool}
    (hfound : s.pools memid = some (newPool memid size nBlks area tableOk)) :
    (∃ s' addrs, takeBlocks s memid nBlks.toNat = some (s', addrs) ∧ 0 ∉ addrs ∧ addrs.Nodup) ↔
      nBlks ≤ 0 ∨ (tableOk = true ∧ Spread area size nBlks.toNat) := by
  by_cases hle : nBlks ≤ 0
  · rw [Int.toNat_of_nonpos hle]
    exact iff_of_true ⟨s, [], rfl, List.not_mem_nil, List.nodup_nil⟩ (.inl hle)
  have hpos : 0 < nBlks := not_le.mp hle
  cases tableOk with
  | false =>
      refine iff_of_false ?_ (by simp [hpos])
      rintro ⟨s', addrs, htake, -⟩
      have hne : nBlks.toNat ≠ 0 := by omega
      obtain ⟨n, hn⟩ := Nat.exists_eq_succ_of_ne_zero hne
      rw [hn, takeBlocks_of_no_table h hfound hpos] at htake
      cases htake
  | true =>
      obtain ⟨s', htake⟩ := takeBlocks_eq h hfound (stocked_newPool hpos) nBlks.toNat
      have hlen : (newTable area size nBlks.toNat).length = nBlks.toNat := by
        rw [newTable, List.length_map, List.length_range]
      have hsub := List.filter_sublist (p := fun a => decide (a ≠ 0))
        (l := newTable area size nBlks.toNat)
      have hfilter := hsub.length_le
      rw [hlen] at hfilter
      rw [List.take_of_length_le hfilter] at htake
      constructor
      · rintro ⟨s'', addrs, htake', hnull, hnodup⟩
        rw [htake] at htake'
        cases htake'
        -- no call has returned `NULL`, so no word of the table is `NULL`
        obtain ⟨-, hnull⟩ := not_or.mp (fun hor => hnull (List.mem_append.mpr hor))
        have hall : nBlks.toNat - ((newTable area size nBlks.toNat).filter (· ≠ 0)).length = 0 := by
          by_contra hne
          exact hnull (List.mem_replicate.mpr ⟨hne, rfl⟩)
        have hsame := hsub.eq_of_length_le (by rw [hlen]; omega)
        rw [hall, List.replicate_zero, List.append_nil, hsame] at hnodup
        refine .inr ⟨rfl, zero_notMem_newTable.mp ?_, nodup_addresses_iff.mp hnodup⟩
        intro hmem
        rw [← hsame] at hmem
        exact absurd rfl (of_decide_eq_true (List.mem_filter.mp hmem).2)
      · rintro (hneg | ⟨-, hspread⟩)
        · exact absurd hneg hle
        · have hnull := zero_notMem_newTable.mpr hspread.null
          have hsame : (newTable area size nBlks.toNat).filter (· ≠ 0) =
              newTable area size nBlks.toNat :=
            List.filter_eq_self.mpr fun a ha => decide_eq_true fun heq => hnull (heq ▸ ha)
          rw [hsame, hlen, Nat.sub_self, List.replicate_zero, List.append_nil] at htake
          exact ⟨s', _, htake, hnull, nodup_addresses_iff.mpr hspread.apart⟩

end

/-! ## The three requests -/

/-- A new pool has been registered. -/
def Registry.withPool (s : Registry) (size : Nat) (nBlks : Int) (area : Nat) (tableOk : Bool) :
    Registry :=
  let p := newPool (s.mem.lastId + 1) size nBlks area tableOk
  { s with mem := ⟨s.mem.hdMcb ++ [p], s.mem.lastId + 1⟩
           pools := Function.update s.pools (s.mem.lastId + 1) (some p) }

section

variable {L : Layout} {s : Registry} {size : Nat} {nBlks : Int} {area : Nat} {tableOk : Bool}

theorem create_of_area (hid : s.mem.lastId + 1 ≠ 2 ^ 31) (harea : area ≠ 0) :
    s.create size nBlks true area tableOk =
      if s.lastFreed then none
      else some (s.withPool size nBlks area tableOk, some (s.mem.lastId + 1)) := by
  unfold Registry.create memPoolCreate
  rw [if_neg fun hand => hid hand.2, if_neg (by simp), if_neg harea]
  rfl

theorem createLaw_of_no_mcb : CreateLaw L s size nBlks false area tableOk :=
  ⟨s, none, by simp [Registry.create, memPoolCreate], rfl, rfl⟩

/-- The control block is kept when there is no area. -/
theorem not_createLaw_of_no_area : ¬ CreateLaw L s size nBlks true 0 tableOk := by
  rintro ⟨s', res, hcreate, hres⟩
  unfold Registry.create memPoolCreate at hcreate
  split at hcreate
  · cases hcreate
  · simp only [not_true_eq_false, if_false, if_true] at hcreate
    cases hcreate
    cases hres.2

/-- A pool behind a freed record is not found. -/
theorem not_createLaw_of_freed (h : Recorded s) (hid : s.mem.lastId + 1 ≠ 2 ^ 31)
    (harea : area ≠ 0) (hfreed : s.freed ≠ []) :
    ¬ CreateLaw L s size nBlks true area tableOk := by
  rintro ⟨s', res, hcreate, hres⟩
  rw [create_of_area hid harea] at hcreate
  obtain ⟨-, hcreate⟩ := Option.ite_none_left_eq_some.mp hcreate
  cases hcreate
  obtain ⟨id, rest, hcons⟩ := List.exists_cons_of_ne_nil hfreed
  obtain ⟨q, hq, hqid⟩ := h.freed id (hcons ▸ List.mem_cons_self)
  obtain ⟨⟨p, hfound⟩, -⟩ := hres
  have hlost : walkMcb s.freed (s.mem.lastId + 1)
      (s.mem.hdMcb ++ [newPool (s.mem.lastId + 1) size nBlks area tableOk]) = none := by
    refine walkMcb_append_eq_none hq (hqid ▸ hcons ▸ List.mem_cons_self) fun p hp => ?_
    have hle := h.numbered p hp
    omega
  cases hlost.symm.trans hfound

theorem createLaw_of_area_iff (h : Intact s) (hid : s.mem.lastId + 1 ≠ 2 ^ 31)
    (harea : area ≠ 0) :
    CreateLaw L s size nBlks true area tableOk ↔
      nBlks ≤ 0 ∨ (tableOk = true ∧ Spread area size nBlks.toNat) := by
  have hlast : s.lastFreed = false := by
    unfold Registry.lastFreed
    rw [h.freed]
    cases s.mem.hdMcb.getLast? <;> rfl
  have hcreate : s.create size nBlks true area tableOk =
      some (s.withPool size nBlks area tableOk, some (s.mem.lastId + 1)) := by
    rw [create_of_area hid harea, hlast, if_neg Bool.false_ne_true]
  have hintact := h.of_create hcreate
  have hfound : (s.withPool size nBlks area tableOk).pools (s.mem.lastId + 1) =
      some (newPool (s.mem.lastId + 1) size nBlks area tableOk) := Function.update_self ..
  rw [← drained_iff hintact hfound]
  constructor
  · rintro ⟨s', res, hcreate', hres⟩
    rw [hcreate] at hcreate'
    cases hcreate'
    exact hres.2
  · intro hdrained
    exact ⟨_, _, hcreate, ⟨_, (hintact.getMemInfo_eq _).trans (congrArg some hfound)⟩, hdrained⟩

end

/-- In every registry that is reached, for every size and number of blocks and every outcome of
the three requests, `mem_pool_create` does what is expected if and only if `Creatable` holds. -/
theorem createLaw_iff (L : Layout) (ops : List RegOp) (s : Registry) (size : Nat) (nBlks : Int)
    (mcbOk : Bool) (area : Nat) (tableOk : Bool)
    (hrun : PartialSteps.run regStep initRegistry ops = some s) :
    CreateLaw L s size nBlks mcbOk area tableOk ↔ Creatable s size nBlks mcbOk area tableOk := by
  have h := recorded_of_run hrun
  unfold Creatable
  cases mcbOk with
  | false => exact iff_of_true createLaw_of_no_mcb (.inl rfl)
  | true =>
      rw [or_iff_right (by simp)]
      by_cases hid : s.mem.lastId + 1 = 2 ^ 31
      · refine iff_of_false ?_ fun hand => hand.1 hid
        rintro ⟨s', res, hcreate, -⟩
        rw [Registry.create, if_pos ⟨rfl, hid⟩] at hcreate
        cases hcreate
      by_cases harea : area = 0
      · subst harea
        exact iff_of_false not_createLaw_of_no_area fun hand => hand.2.1 rfl
      by_cases hfreed : s.freed = []
      · rw [createLaw_of_area_iff (h.intact hfreed) hid harea]
        exact ⟨fun hblks => ⟨hid, harea, hfreed, hblks⟩, fun hand => hand.2.2.2⟩
      · exact iff_of_false (not_createLaw_of_freed h hid harea hfreed) fun hand => hfreed hand.2.2.1

/-- A second pool, of three blocks of 16 bytes. -/
theorem createLaw_second :
    ∃ s, PartialSteps.run regStep initRegistry [.create 8 2 true 4096 true] = some s ∧
      ∀ L, CreateLaw L s 16 3 true 8192 true := by
  refine ⟨_, rfl, fun L => ?_⟩
  refine (createLaw_iff L [.create 8 2 true 4096 true] _ 16 3 true 8192 true rfl).mpr ?_
  exact .inr ⟨by decide, by decide, rfl, .inr ⟨rfl, by decide, by decide⟩⟩

/-- Without memory for the area the control block is lost; without memory for the table the pool
is registered, and the first `alloc_block` reads its table through `NULL`. -/
theorem not_createLaw_out_of_memory :
    (∀ L, keptBlocks (poolTraffic L initRegistry (.create 8 2 true 0 true)) = [.memInfo 1] ∧
      ¬ CreateLaw L initRegistry 8 2 true 0 true) ∧
    (∃ s, initRegistry.create 8 2 true 4096 false = some (s, some 1) ∧ s.alloc 1 = none) ∧
    ∀ L, ¬ CreateLaw L initRegistry 8 2 true 4096 false := by
  refine ⟨fun L => ⟨rfl, not_createLaw_of_no_area⟩, ⟨_, rfl, rfl⟩, fun L hlaw => ?_⟩
  rcases (createLaw_of_area_iff intact_init (by decide) (by decide)).mp hlaw with hneg | ⟨htable, -⟩
  · exact absurd hneg (by decide)
  · cases htable

end Mem
end TmULThreads
