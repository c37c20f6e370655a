import TmULThreads.Hash.Chains
import Mathlib.Data.Finmap

/-!
# A hash table as a finite map

What a table is for is a finite map with room for as many keys as it has buckets: `mapCalls`
states what a sequence of calls does to such a map.  `hashCalls_refines` states that the calls
on a table return the same, and leave the bindings of the map in it.

There are three conditions.  The blocks of the pool must be as large as an entry:
`create_hash_table` makes blocks of eight bytes for each bucket, so with one or two buckets an
entry reaches into the next block (`fresh_created_iff`).  The memory for the copy of a key is
used without a test, so the allocation must not fail.  And `free_blk` keeps the offset of a block
in an `int`, so the blocks of a pool of 2 GiB and more do not all come back when entries are
deleted or the table is flushed.
-/

namespace TmULThreads
namespace Hash

/-- The bindings of a table. -/
abbrev TableMap := Finmap fun _ : List UInt8 => Nat

section

variable (htbl : HashTable)

/-- What a call should do. -/
def mapCall (m : TableMap) : HashOp → TableMap × HashRet
  | .add key data _ =>
      if keyBytes htbl key ∈ m then (m, .status 0)
      else if m.keys.card = htbl.nbuckets then (m, .status (-1))
      else (m.insert (keyBytes htbl key) data, .status 0)
  | .delete key =>
      if keyBytes htbl key ∈ m then (m.erase (keyBytes htbl key), .status 0)
      else (m, .status (-1))
  | .lookup key => (m, .data ((m.lookup (keyBytes htbl key)).getD 0))
  | .flush => (∅, .done)

def mapCalls : TableMap → List HashOp → TableMap × List HashRet
  | m, [] => (m, [])
  | m, op :: ops =>
      let (m, ret) := mapCall htbl m op
      let (m, rets) := mapCalls m ops
      (m, ret :: rets)

/-- The entries that `hash_walk` visits are the bindings of the map. -/
def Represents (fuel : Nat) (s : Store) (m : TableMap) : Prop :=
  ∃ l, hashWalk htbl fuel s = some l ∧ l.Nodup ∧ l.length = m.keys.card ∧
    ∀ k v, m.lookup k = some v ↔ ∃ a ∈ l, keyBytes htbl (s.key a) = k ∧ s.data a = v

/-- The copy of the key of a new entry can be allocated. -/
def KeyAllocated : HashOp → Prop
  | .add _ _ keyOk => keyOk = true ∨ htbl.keyLen = 0
  | _ => True

instance : ∀ op, Decidable (KeyAllocated htbl op)
  | .add _ _ keyOk => inferInstanceAs (Decidable (keyOk = true ∨ htbl.keyLen = 0))
  | .delete _ | .lookup _ | .flush => isTrue trivial

end

/-! ## Bindings -/

variable {htbl : HashTable} {fuel : Nat} {blocks : Finset Nat}
  {holds : Mem.MemState → Finset Nat → Prop} {s s' : Store} {chains : Nat → List Nat}
  {out : Finset Nat} {m : TableMap}

/-- The bindings of the map are those of the given entries. -/
def Binds (htbl : HashTable) (s : Store) (out : Finset Nat) (m : TableMap) : Prop :=
  ∀ k v, m.lookup k = some v ↔
    ∃ a ∈ out, keyBytes htbl (s.key a) = k ∧ s.data a = v

theorem Binds.mem_iff (h : Binds htbl s out m) (key : Key) :
    keyBytes htbl key ∈ m ↔ ∃ a ∈ out, keyBytes htbl (s.key a) = keyBytes htbl key := by
  rw [Finmap.mem_iff]
  constructor
  · rintro ⟨v, hv⟩
    obtain ⟨a, ha, hkey, -⟩ := (h _ v).mp hv
    exact ⟨a, ha, hkey⟩
  · rintro ⟨a, ha, hkey⟩
    exact ⟨_, (h _ _).mpr ⟨a, ha, hkey, rfl⟩⟩

theorem Binds.not_mem (h : Binds htbl s out m) {key : Key} (habsent : Absent htbl s out key) :
    keyBytes htbl key ∉ m := by
  rw [h.mem_iff]
  rintro ⟨a, ha, hkey⟩
  exact habsent a ha hkey

/-- There are as many keys as entries, since no two entries have the same key. -/
theorem Binds.card (h : Binds htbl s out m) (hs : Stored htbl holds s chains out) :
    m.keys.card = out.card := by
  have hkeys : m.keys = out.image fun a => keyBytes htbl (s.key a) := by
    ext k
    rw [Finmap.mem_keys, Finmap.mem_iff, Finset.mem_image]
    constructor
    · rintro ⟨v, hv⟩
      obtain ⟨a, ha, hkey, -⟩ := (h k v).mp hv
      exact ⟨a, ha, hkey⟩
    · rintro ⟨a, ha, hkey⟩
      exact ⟨_, (h k _).mpr ⟨a, ha, hkey, rfl⟩⟩
  rw [hkeys]
  exact Finset.card_image_of_injOn fun a ha b hb heq => hs.inj a ha b hb heq

theorem Binds.congr (h : Binds htbl s out m)
    (hsame : ∀ b ∈ out, SameEntry s s' b) : Binds htbl s' out m := by
  intro k v
  rw [h k v]
  refine exists_congr fun a => and_congr_right fun ha => ?_
  rw [(hsame a ha).key, (hsame a ha).data]

theorem Binds.insert (h : Binds htbl s out m) {key : Key} (habsent : Absent htbl s out key)
    {a : Nat} (hkey : keyBytes htbl (s.key a) = keyBytes htbl key) :
    Binds htbl s (insert a out) (m.insert (keyBytes htbl key) (s.data a)) := by
  intro k v
  by_cases hk : k = keyBytes htbl key
  · subst hk
    rw [Finmap.lookup_insert, Option.some.injEq]
    constructor
    · rintro rfl
      exact ⟨a, Finset.mem_insert_self _ _, hkey, rfl⟩
    · rintro ⟨b, hb, hsame, rfl⟩
      rcases Finset.mem_insert.mp hb with rfl | hb
      · rfl
      · exact absurd hsame (habsent b hb)
  · rw [Finmap.lookup_insert_of_ne _ hk, h k v]
    refine exists_congr fun b => and_congr_left fun hb => ?_
    have hba : b ≠ a := by
      rintro rfl
      exact hk (hb.1.symm.trans hkey)
    rw [Finset.mem_insert, or_iff_right hba]

theorem Binds.erase (h : Binds htbl s out m) (hs : Stored htbl holds s chains out) {key : Key}
    {a : Nat} (ha : a ∈ out) (hkey : keyBytes htbl (s.key a) = keyBytes htbl key) :
    Binds htbl s (out.erase a) (m.erase (keyBytes htbl key)) := by
  intro k v
  by_cases hk : k = keyBytes htbl key
  · subst hk
    rw [Finmap.lookup_erase]
    refine iff_of_false (by simp) ?_
    rintro ⟨b, hb, hsame, -⟩
    have hba := hs.inj b (Finset.mem_of_mem_erase hb) a ha (hsame.trans hkey.symm)
    exact Finset.ne_of_mem_erase hb hba
  · rw [Finmap.lookup_erase_ne hk, h k v]
    refine exists_congr fun b => and_congr_left fun hb => ?_
    have hba : b ≠ a := by
      rintro rfl
      exact hk (hb.1.symm.trans hkey)
    rw [Finset.mem_erase, and_iff_right hba]

/-! ## Calls -/

/-- One call does to the table what it should do to the map. -/
theorem hashCall_refines (hsound : htbl.Sound)
    (hpool : Backed htbl blocks holds) (hfuel : blocks.card < fuel)
    (hroom : blocks.card = htbl.nbuckets)
    (hs : Stored htbl holds s chains out) (hm : Binds htbl s out m) {op : HashOp}
    (hop : KeyAllocated htbl op) :
    ∃ s' chains' out', hashCall htbl fuel s op = some (s', (mapCall htbl m op).2) ∧
      Stored htbl holds s' chains' out' ∧ Binds htbl s' out' (mapCall htbl m op).1 := by
  have hcard := hm.card hs
  cases op with
  | add key data keyOk =>
      simp only [hashCall, hashTblAdd, mapCall]
      rcases hs.hashAddEntry_cases hsound hpool hfuel key data keyOk with
        ⟨hfound, hadd⟩ | ⟨habsent, hfull, mem, hadd, hs'⟩ | ⟨habsent, hfree, hrest⟩
      · rw [hadd, if_pos ((hm.mem_iff key).mpr hfound)]
        exact ⟨s, chains, out, rfl, hs, hm⟩
      · rw [hadd, if_neg (hm.not_mem habsent), if_pos (by omega)]
        exact ⟨_, chains, out, rfl, hs', hm⟩
      · rw [if_neg (hm.not_mem habsent), if_neg (by omega)]
        rcases hrest with ⟨hfail, hlen, -⟩ | ⟨s', chains', a, -, hadd, hs', -, hkey, hdata, hsame⟩
        · exact absurd hop (by simp [KeyAllocated, hfail, hlen])
        · rw [hadd]
          refine ⟨s', chains', _, rfl, hs', ?_⟩
          have habsent' : Absent htbl s' out key := by
            intro b hb
            rw [(hsame b hb).key]
            exact habsent b hb
          have hbinds := (hm.congr hsame).insert habsent' hkey
          rwa [hdata] at hbinds
  | delete key =>
      simp only [hashCall, hashTblDelete, mapCall]
      rcases hs.hashDeleteEntry_cases hsound hpool hfuel key with
        ⟨habsent, hdelete⟩ | ⟨a, ha, hkey, s', chains', hdelete, hs', -, hsame⟩
      · rw [hdelete, if_neg (hm.not_mem habsent)]
        exact ⟨s, chains, out, rfl, hs, hm⟩
      · rw [hdelete, if_pos ((hm.mem_iff key).mpr ⟨a, ha, hkey⟩)]
        exact ⟨s', chains', _, rfl, hs', (hm.erase hs ha hkey).congr fun b hb =>
          hsame b (Finset.mem_of_mem_erase hb)⟩
  | lookup key =>
      refine ⟨s, chains, out, ?_, hs, hm⟩
      simp only [hashCall, hashTblLookup, mapCall]
      rcases hs.findHashEntry_cases hsound hpool hfuel key with
        ⟨hfind, habsent⟩ | ⟨a, ha, hne, hkey, hfind⟩
      · rw [hfind, Finmap.lookup_eq_none.mpr (hm.not_mem habsent)]
        rfl
      · have hlookup := (hm _ _).mpr ⟨a, ha, hkey, rfl⟩
        rw [hfind, hlookup, Option.bind_eq_bind, Option.bind_some, if_neg hne]
        rfl
  | flush =>
      obtain ⟨s', hflush, -, hs'⟩ := hs.flushHashTable_eq hpool hfuel
      refine ⟨s', _, ∅, ?_, hs', fun k v => ?_⟩
      · simp only [hashCall, hflush, mapCall]
        rfl
      · rw [mapCall, Finmap.lookup_empty]
        refine iff_of_false (by simp) ?_
        rintro ⟨a, ha, -⟩
        exact Finset.notMem_empty a ha

/-- So does every sequence of calls. -/
theorem hashCalls_of_stored (hsound : htbl.Sound)
    (hpool : Backed htbl blocks holds) (hfuel : blocks.card < fuel)
    (hroom : blocks.card = htbl.nbuckets)
    (hs : Stored htbl holds s chains out) (hm : Binds htbl s out m) {ops : List HashOp}
    (hops : ∀ op ∈ ops, KeyAllocated htbl op) :
    ∃ s' chains' out', hashCalls htbl fuel s ops = some (s', (mapCalls htbl m ops).2) ∧
      Stored htbl holds s' chains' out' ∧ Binds htbl s' out' (mapCalls htbl m ops).1 := by
  induction ops generalizing s chains out m with
  | nil => exact ⟨s, chains, out, rfl, hs, hm⟩
  | cons op ops ih =>
      obtain ⟨mid, chains₁, out₁, hcall, hmid, hbinds⟩ :=
        hashCall_refines hsound hpool hfuel hroom hs hm (hops op List.mem_cons_self)
      obtain ⟨s', chains', out', hcalls, hs', hm'⟩ :=
        ih hmid hbinds fun op' hop' => hops op' (List.mem_cons_of_mem _ hop')
      refine ⟨s', chains', out', ?_, hs', hm'⟩
      rw [hashCalls, hcall, Option.bind_eq_bind, Option.bind_some]
      simp only [hcalls, Option.bind_eq_bind, Option.bind_some, mapCalls]

/-! ## New tables -/

/-- The table has no entries, and its pool has as many blocks as it has buckets, all of them
free and large enough for an entry. -/
structure Fresh (htbl : HashTable) (s : Store) (p : Mem.MemInfo) : Prop where
  empty : ∀ i < htbl.nbuckets, s.bucketArray i = 0
  pool : Mem.getMemInfo s.mem htbl.hmemPoolId = some p
  tracks : Mem.Tracks p ∅
  nblks : p.nblks = htbl.nbuckets
  roomy : sizeofHashBucket ≤ p.size

theorem Fresh.stored {p : Mem.MemInfo} (h : Fresh htbl s p) (hsized : Mem.Sized p) :
    Stored htbl (Mem.Supplies htbl.hmemPoolId htbl.nbuckets p) s (fun _ => []) ∅ where
  chain i hi := LinkedChain.chain_nil_iff.mpr (h.empty i hi)
  nodup _ _ := List.nodup_nil
  mem_out a := by simp
  home _ _ a ha := absurd ha List.not_mem_nil
  inj a ha := absurd ha (Finset.notMem_empty a)
  copied a ha := absurd ha (Finset.notMem_empty a)
  holds := ⟨p, ∅, Mem.SamePool.refl p, h.pool, h.tracks, hsized, h.nblks, rfl,
    fun a ha => absurd ha (Finset.notMem_empty a)⟩

theorem Fresh.backed {p : Mem.MemInfo} (h : Fresh htbl s p) (hsized : Mem.Sized p) :
    Backed htbl p.blocks (Mem.Supplies htbl.hmemPoolId htbl.nbuckets p) where
  toServes := Mem.serves_pool h.tracks.addr_ne
  roomy a ha b hb hab := by
    rw [Mem.MemInfo.blocks, Finset.mem_image] at ha hb
    obtain ⟨i, hi, rfl⟩ := ha
    obtain ⟨j, hj, rfl⟩ := hb
    have hroomy := h.roomy
    rw [(hsized.blockAddr (Finset.mem_range.mp hi)).1,
      (hsized.blockAddr (Finset.mem_range.mp hj)).1]
    -- the blocks lie one after the other
    have hij : i ≠ j := by
      rintro rfl
      exact hab rfl
    rcases Nat.lt_or_gt_of_ne hij with hlt | hgt
    · have hle : (i + 1) * p.size ≤ j * p.size := Nat.mul_le_mul_right _ hlt
      rw [Nat.succ_mul] at hle
      omega
    · have hle : (j + 1) * p.size ≤ i * p.size := Nat.mul_le_mul_right _ hgt
      rw [Nat.succ_mul] at hle
      omega

theorem Fresh.card_blocks {p : Mem.MemInfo} (h : Fresh htbl s p) (hsized : Mem.Sized p) :
    p.blocks.card = htbl.nbuckets := by
  rw [hsized.card_blocks, h.nblks, Int.toNat_natCast]

/-- Every sequence of calls on a new table returns what it returns on an empty map, and leaves
the bindings of the map in the table, if the blocks of the pool have room for an entry each and
lie in less than 2 GiB, and the copies of the keys can be allocated. -/
theorem hashCalls_refines (htbl : HashTable) (hsound : htbl.Sound) (s : Store) (p : Mem.MemInfo)
    (hfresh : Fresh htbl s p) (hsized : Mem.Sized p) (fuel : Nat) (hfuel : htbl.nbuckets < fuel)
    (ops : List HashOp) (hops : ∀ op ∈ ops, KeyAllocated htbl op) :
    ∃ s', hashCalls htbl fuel s ops = some (s', (mapCalls htbl ∅ ops).2) ∧
      Represents htbl fuel s' (mapCalls htbl ∅ ops).1 := by
  have hpool := hfresh.backed hsized
  have hroom := hfresh.card_blocks hsized
  have hfuel' : p.blocks.card < fuel := hroom ▸ hfuel
  have hempty : Binds htbl s ∅ ∅ := by
    intro k v
    simp
  obtain ⟨s', chains', out', hcalls, hs', hm'⟩ :=
    hashCalls_of_stored hsound hpool hfuel' hroom (hfresh.stored hsized) hempty hops
  obtain ⟨l, hwalk, hnodup, hmem, hlen⟩ := hs'.hashWalk_eq hpool hfuel'
  refine ⟨s', hcalls, l, hwalk, hnodup, hlen.trans (hm'.card hs').symm, fun k v => ?_⟩
  rw [hm' k v]
  simp only [hmem]

/-- A table for keys of one byte. -/
def byteTable (n : Nat) : HashTable where
  hmemPoolId := 1
  keyLen := 1
  nbuckets := n
  cmpFunc key key' := if key 0 = key' 0 then 0 else 1
  hashIndexGen key := (key 0).toNat % n

theorem sound_byteTable {n : Nat} (hn : 0 < n) : (byteTable n).Sound where
  index key := by
    have hlt := Nat.mod_lt (key 0).toNat hn
    show (0 : Int) ≤ ((key 0).toNat : Int) % n ∧ ((key 0).toNat : Int) % n < n
    omega
  cmp key key' := by
    have hbytes : keyBytes (byteTable n) key = keyBytes (byteTable n) key' ↔ key 0 = key' 0 := by
      simp [keyBytes, byteTable]
    rw [hbytes]
    by_cases h : key 0 = key' 0
    · exact iff_of_true (if_pos h) h
    · exact iff_of_false (by simp [byteTable, h]) h
  same key key' h := by
    have hbyte : key 0 = key' 0 := by simpa [keyBytes, byteTable] using h
    simp only [byteTable, hbyte]

/-- Its creation, with the memory of the pool at the address 4096. -/
def createByteTable (n : Nat) : Option (Mem.MemState × Option HashTable) :=
  createHashTable Mem.memInit n (byteTable n).cmpFunc (byteTable n).hashIndexGen
    (byteTable n).keyLen true true 4096 true true

/-- An empty table with a pool of `n` blocks at the address 4096. -/
def byteStore (size n : Nat) : Store where
  bucketArray _ := 0
  nentries := 0
  word _ := 0
  keyCopy _ _ := 0
  nextCopy := 1
  mem := (Mem.memPoolCreate Mem.memInit size n true 4096 true).1

theorem fresh_byteStore {size n : Nat} (hsize : sizeofHashBucket ≤ size)
    (hend : 4096 + n * size < 2 ^ 64) :
    Fresh (byteTable n) (byteStore size n) (Mem.newPool 1 size n 4096 true) where
  empty _ _ := rfl
  pool := rfl
  tracks := by
    refine Mem.tracks_newPool 1 size n 4096 fun i hi => ?_
    have hle : i * size ≤ n * size := Nat.mul_le_mul_right _ hi.le
    rw [Mem.computeAddrBlock, Nat.mod_eq_of_lt (by omega)]
    omega
  nblks := rfl
  roomy := hsize

def addByte (b : UInt8) (keyOk : Bool) : HashOp := .add (fun _ => b) (100 + b.toNat) keyOk

/-! ## What `create_hash_table` makes -/

/-- The pool of a table that `create_hash_table` has made. -/
theorem createHashTable_pool {m mem : Mem.MemState} (hm : m.Numbered) {n keyLen area : Nat}
    {cmp : Key → Key → Int} {indexGen : Key → Int} {tblOk mcbOk arrayOk : Bool} (hn : 0 < n)
    (hsize : sizeofPtr * n < 2 ^ 31)
    (hcreate : createHashTable m n cmp indexGen keyLen tblOk mcbOk area true arrayOk =
      some (mem, some htbl)) :
    area ≠ 0 ∧ htbl.nbuckets = n ∧ Mem.getMemInfo mem htbl.hmemPoolId =
      some (Mem.newPool (m.lastId + 1) (sizeofPtr * n) n area true) := by
  have hsizeT : Mem.toSizeT (Mem.toInt (sizeofPtr * n)) = sizeofPtr * n := by
    rw [Mem.toInt_of_lt hsize, Mem.toSizeT_of_nonneg (by omega)]
  simp only [createHashTable, if_neg hn.ne', hsizeT] at hcreate
  split at hcreate
  · cases hcreate
  · rcases Mem.memPoolCreate_cases m (sizeofPtr * n) n mcbOk area true with
      ⟨k, -, hfail⟩ | ⟨harea, hpool⟩
    · rw [hfail] at hcreate
      cases hcreate
    · simp only [hpool] at hcreate
      split at hcreate
      · cases hcreate
        refine ⟨harea, rfl, ?_⟩
        rw [Mem.getMemInfo_append hm (Mem.memid_newPool ..), if_pos rfl]
      · cases hcreate

/-- A table that `create_hash_table` has made, and whose buckets have been cleared, is `Fresh`
exactly if it has at least three buckets: the blocks of its pool have eight bytes for each
bucket, and an entry has 24. -/
theorem fresh_created_iff {m : Mem.MemState} (hm : m.Numbered) {n keyLen area : Nat}
    {cmp : Key → Key → Int} {indexGen : Key → Int} {tblOk mcbOk arrayOk : Bool} (hn : 0 < n)
    (hsmall : n * (sizeofPtr * n) < 2 ^ 31) (hend : area + Mem.poolBytes (sizeofPtr * n) n < 2 ^ 64)
    (hcreate : createHashTable m n cmp indexGen keyLen tblOk mcbOk area true arrayOk =
      some (s.mem, some htbl)) (hempty : ∀ i < n, s.bucketArray i = 0) :
    ∃ p, Mem.Sized p ∧ Mem.getMemInfo s.mem htbl.hmemPoolId = some p ∧
      (Fresh htbl s p ↔ 3 ≤ n) := by
  have hle : sizeofPtr * n ≤ n * (sizeofPtr * n) := Nat.le_mul_of_pos_left _ hn
  obtain ⟨harea, hbuckets, hpool⟩ := createHashTable_pool hm hn (by omega) hcreate
  have hsized := Mem.sized_newPool (m.lastId + 1) (sizeofPtr * n) n area
    (Nat.mul_pos (by decide) hn) hsmall hend
  refine ⟨_, hsized, hpool, fun hfresh => ?_, fun hthree => ⟨?_, hpool, ?_, ?_, ?_⟩⟩
  · have hroomy : 3 * sizeofPtr ≤ sizeofPtr * n := hfresh.roomy
    simp only [sizeofPtr] at hroomy
    omega
  · rwa [hbuckets]
  · refine Mem.tracks_newPool _ _ n area fun i hi => ?_
    have haddr := (hsized.blockAddr hi).1
    rw [Mem.MemInfo.blockAddr] at haddr
    intro hzero
    exact harea (Nat.eq_zero_of_add_eq_zero_right (haddr.symm.trans hzero))
  · rw [hbuckets]
    rfl
  · show 3 * sizeofPtr ≤ sizeofPtr * n
    rw [Nat.mul_comm]
    exact Nat.mul_le_mul_left _ hthree

/-- A table with three buckets, as `create_hash_table` makes it, and four keys of the same
bucket. -/
theorem hashCalls_three_buckets :
    createByteTable 3 = some ((byteStore 24 3).mem, some (byteTable 3)) ∧
      let ops := [addByte 1 true, addByte 4 true, addByte 7 true, addByte 10 true,
        .lookup fun _ => 4, .delete fun _ => 1, addByte 10 true, .flush, .lookup fun _ => 10]
      (mapCalls (byteTable 3) ∅ ops).2 = [.status 0, .status 0, .status 0, .status (-1), .data 104,
          .status 0, .status 0, .done, .data 0] ∧
        ∃ s', hashCalls (byteTable 3) 4 (byteStore 24 3) ops =
            some (s', (mapCalls (byteTable 3) ∅ ops).2) ∧
          Represents (byteTable 3) 4 s' (mapCalls (byteTable 3) ∅ ops).1 := by
  refine ⟨rfl, ?_⟩
  intro ops
  have hsized : Mem.Sized (Mem.newPool 1 24 3 4096 true) :=
    Mem.sized_newPool 1 24 3 4096 (by decide) (by decide) (by decide)
  refine ⟨by decide +kernel, ?_⟩
  exact hashCalls_refines (byteTable 3) (sound_byteTable (by decide)) (byteStore 24 3) _
    (fresh_byteStore (by decide) (by decide)) hsized 4 (by decide) ops (by decide)

/-- With two buckets the blocks have 16 bytes, and the link of the second entry lies where the
first one has its data.  With three buckets, the copy of the first key cannot be allocated.  And
of a pool of three blocks in 3.6 gigabytes, the last block does not come back when the table is
flushed, so there is no room for a third key. -/
theorem not_hashCalls_refines :
    (createByteTable 2 = some ((byteStore 16 2).mem, some (byteTable 2)) ∧
      let ops := [addByte 1 true, addByte 3 true, .lookup fun _ => 1]
      (hashCalls (byteTable 2) 3 (byteStore 16 2) ops).map Prod.snd =
          some [.status 0, .status 0, .data 0] ∧
        (mapCalls (byteTable 2) ∅ ops).2 = [.status 0, .status 0, .data 101]) ∧
    (∃ p, Fresh (byteTable 3) (byteStore 24 3) p ∧ Mem.Sized p ∧
      hashCalls (byteTable 3) 4 (byteStore 24 3) [addByte 1 false] = none) ∧
    ∃ p, Fresh (byteTable 3) (byteStore 1200000000 3) p ∧
      let ops := [addByte 1 true, addByte 2 true, addByte 3 true, .flush, addByte 1 true,
        addByte 2 true, addByte 3 true]
      (hashCalls (byteTable 3) 4 (byteStore 1200000000 3) ops).map Prod.snd =
          some [.status 0, .status 0, .status 0, .done, .status 0, .status 0, .status (-1)] ∧
        (mapCalls (byteTable 3) ∅ ops).2 =
          [.status 0, .status 0, .status 0, .done, .status 0, .status 0, .status 0] := by
  refine ⟨⟨rfl, ?_, ?_⟩, ⟨_, fresh_byteStore (by decide) (by decide), ?_, ?_⟩, _,
    fresh_byteStore (by decide) (by decide), ?_, ?_⟩
  · decide +kernel
  · decide +kernel
  · exact Mem.sized_newPool 1 24 3 4096 (by decide) (by decide) (by decide)
  · rw [← Option.map_eq_none_iff (f := Prod.snd)]
    decide +kernel
  · decide +kernel
  · decide +kernel

end Hash
end TmULThreads
