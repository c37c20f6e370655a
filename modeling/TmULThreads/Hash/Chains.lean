import TmULThreads.Hash.Model
import TmULThreads.Mem.Supply

/-!
# The chains of a table

`Stored` says what the chains of a table are: no entry is on two of them or twice on one, every
entry is in the bucket of its key, no two entries have the same key, and the entries are the
blocks that the pool has handed out.  For each function there is one lemma that says what it
does to a table of this kind.

All of it rests on blocks that are as large as an entry (`Backed`).  Then the words of two
entries are different ones, and a write to one entry leaves the others alone.
-/

namespace TmULThreads
namespace Hash

open LinkedChain

/-- The part of a key that counts. -/
def keyBytes (htbl : HashTable) (key : Key) : List UInt8 := (List.range htbl.keyLen).map key

/-- The functions that a table is made with fit together. -/
structure HashTable.Sound (htbl : HashTable) : Prop where
  index : ∀ key, 0 ≤ htbl.hashIndexGen key ∧ htbl.hashIndexGen key < htbl.nbuckets
  cmp : ∀ key key', htbl.cmpFunc key key' = 0 ↔ keyBytes htbl key = keyBytes htbl key'
  same : ∀ key key', keyBytes htbl key = keyBytes htbl key' →
    htbl.hashIndexGen key = htbl.hashIndexGen key'

theorem keyBytes_copyKey (htbl : HashTable) (key : Key) :
    keyBytes htbl (copyKey htbl key) = keyBytes htbl key := by
  refine List.map_congr_left fun i hi => ?_
  exact if_pos (List.mem_range.mp hi)

theorem HashTable.Sound.bucket {htbl : HashTable} (h : htbl.Sound) (key : Key) :
    ¬ htbl.hashIndexGen key > htbl.nbuckets ∧
      ∃ i < htbl.nbuckets, htbl.hashIndexGen key = i ∧
        htbl.bucket (htbl.hashIndexGen key) = some i := by
  obtain ⟨hnonneg, hlt⟩ := h.index key
  refine ⟨not_lt.mpr hlt.le, (htbl.hashIndexGen key).toNat, ?_, ?_, if_pos ⟨hnonneg, hlt⟩⟩
  · omega
  · omega

/-! ## Blocks -/

/-- The pool of a table serves its blocks, and each of them has room for an entry. -/
structure Backed (htbl : HashTable) (blocks : Finset Nat)
    (holds : Mem.MemState → Finset Nat → Prop) : Prop
    extends BlockPool.Serves (Mem.poolOps htbl.hmemPoolId) blocks holds where
  roomy : ∀ a ∈ blocks, ∀ b ∈ blocks, a ≠ b → a + sizeofHashBucket ≤ b ∨ b + sizeofHashBucket ≤ a

section

variable {htbl : HashTable} {blocks : Finset Nat} {holds : Mem.MemState → Finset Nat → Prop}
  {a b off off' : Nat}

/-- Words of different entries are different, and so are different words of one entry. -/
theorem Backed.word_ne (h : Backed htbl blocks holds) (ha : a ∈ blocks) (hb : b ∈ blocks)
    (hoff : off < sizeofHashBucket) (hoff' : off' < sizeofHashBucket) (hne : a ≠ b ∨ off ≠ off') :
    a + off ≠ b + off' := by
  by_cases hab : a = b
  · have hoffs : off ≠ off' := hne.resolve_left fun hne => hne hab
    omega
  · have hapart := h.roomy a ha b hb hab
    omega

theorem keyOff_lt : keyOff < sizeofHashBucket := by decide

theorem dataOff_lt : dataOff < sizeofHashBucket := by decide

end

/-! ## Links -/

section

variable (s : Store) (b prev ptr : Nat)

@[simp] theorem Store.link_mem : (s.link b prev ptr).mem = s.mem := by
  unfold Store.link
  split <;> rfl

@[simp] theorem Store.link_nentries : (s.link b prev ptr).nentries = s.nentries := by
  unfold Store.link
  split <;> rfl

@[simp] theorem Store.link_keyCopy : (s.link b prev ptr).keyCopy = s.keyCopy := by
  unfold Store.link
  split <;> rfl

@[simp] theorem Store.link_nextCopy : (s.link b prev ptr).nextCopy = s.nextCopy := by
  unfold Store.link
  split <;> rfl

theorem Store.link_word {k : Nat} (hk : prev ≠ 0 → k ≠ prev) :
    (s.link b prev ptr).word k = s.word k := by
  unfold Store.link
  split
  · exact Function.update_of_ne (hk (by assumption)) _ _
  · rfl

end

/-- The entry `a` has the same key and data in both stores. -/
structure SameEntry (s s' : Store) (a : Nat) : Prop where
  keyWord : s'.word (a + keyOff) = s.word (a + keyOff)
  key : s'.key a = s.key a
  data : s'.data a = s.data a

/-- A link is not part of what an entry is about. -/
theorem Backed.link_entry {htbl : HashTable} {blocks : Finset Nat}
    {holds : Mem.MemState → Finset Nat → Prop} (h : Backed htbl blocks holds) (s : Store)
    (b ptr : Nat) {prev a : Nat} (hprev : prev ≠ 0 → prev ∈ blocks) (ha : a ∈ blocks) :
    SameEntry s (s.link b prev ptr) a := by
  have hword {off : Nat} (hoff : off < sizeofHashBucket) (hpos : off ≠ 0) :
      (s.link b prev ptr).word (a + off) = s.word (a + off) := by
    refine s.link_word b prev ptr fun hne => ?_
    have hbase : a + off ≠ prev + 0 := h.word_ne ha (hprev hne) hoff (by decide) (.inr hpos)
    exact hbase
  have hkey := hword keyOff_lt (by decide)
  refine ⟨hkey, ?_, hword dataOff_lt (by decide)⟩
  rw [Store.key, Store.key, hkey, Store.link_keyCopy]

/-- The link behind the entries in front. -/
theorem Store.link_front (s : Store) (b ptr : Nat) {front : List Nat} (hne : ∀ a ∈ front, a ≠ 0) :
    (s.link b (front.getLast?.getD 0) ptr).next = relinked s.next front ptr ∧
      (s.link b (front.getLast?.getD 0) ptr).bucketArray =
        Function.update s.bucketArray b (if front = [] then ptr else s.bucketArray b) := by
  cases hlast : front.getLast? with
  | none =>
      have hnil : front = [] := List.getLast?_eq_none_iff.mp hlast
      subst hnil
      exact ⟨rfl, rfl⟩
  | some prev =>
      have hprev : prev ≠ 0 := hne prev (List.mem_of_getLast? hlast)
      have hcons : front ≠ [] := by
        rintro rfl
        cases hlast
      rw [Option.getD_some, Store.link, if_pos hprev, if_neg hcons, Function.update_eq_self]
      refine ⟨?_, rfl⟩
      rw [relinked, hlast]
      rfl

/-- The store with a new entry behind `prev`. -/
def Store.withEntry (s : Store) (htbl : HashTable) (b prev a : Nat) (key : Key) (data : Nat)
    (mem : Mem.MemState) : Store :=
  let s := { s.link b prev a with mem := mem }.fill htbl a key data
  { s with nentries := s.nentries + 1 }

section

variable (s : Store) (htbl : HashTable) (b prev a : Nat) (key : Key) (data : Nat)
  (mem : Mem.MemState)

theorem Store.withEntry_word (k : Nat) :
    (s.withEntry htbl b prev a key data mem).word k =
      if k = a + keyOff then s.nextCopy
      else if k = a then 0
      else if k = a + dataOff then data
      else (s.link b prev a).word k := by
  simp only [Store.withEntry, Store.fill, Store.write, Store.link_nextCopy, Function.update_apply]

theorem Store.withEntry_key_self :
    (s.withEntry htbl b prev a key data mem).key a = copyKey htbl key := by
  rw [Store.key, Store.withEntry_word, if_pos rfl]
  simp [Store.withEntry, Store.fill, Store.write]

theorem Store.withEntry_data_self : (s.withEntry htbl b prev a key data mem).data a = data := by
  rw [Store.data, Store.withEntry_word, if_neg (by simp [keyOff, dataOff, sizeofPtr]),
    if_neg (by simp [dataOff, sizeofPtr]), if_pos rfl]

end

/-! ## The invariant -/

variable {htbl : HashTable} {fuel : Nat} {blocks : Finset Nat}
  {holds : Mem.MemState → Finset Nat → Prop}

/-- The entries of `out` are in the table, on the given chains. -/
structure Stored (htbl : HashTable) (holds : Mem.MemState → Finset Nat → Prop) (s : Store)
    (chains : Nat → List Nat) (out : Finset Nat) : Prop where
  chain : ∀ i < htbl.nbuckets, Chain s.next (s.bucketArray i) (chains i)
  nodup : ∀ i < htbl.nbuckets, (chains i).Nodup
  mem_out : ∀ a, a ∈ out ↔ ∃ i < htbl.nbuckets, a ∈ chains i
  home : ∀ i < htbl.nbuckets, ∀ a ∈ chains i, htbl.hashIndexGen (s.key a) = i
  inj : ∀ a ∈ out, ∀ b ∈ out, keyBytes htbl (s.key a) = keyBytes htbl (s.key b) → a = b
  copied : ∀ a ∈ out, s.word (a + keyOff) < s.nextCopy
  holds : holds s.mem out

/-- The table has no entry with the key. -/
def Absent (htbl : HashTable) (s : Store) (out : Finset Nat) (key : Key) : Prop :=
  ∀ a ∈ out, keyBytes htbl (s.key a) ≠ keyBytes htbl key

section

variable {s : Store} {chains : Nat → List Nat} {out : Finset Nat}

theorem Stored.apart (h : Stored htbl holds s chains out) {i j : Nat} (hi : i < htbl.nbuckets)
    (hj : j < htbl.nbuckets) (hji : j ≠ i) : ∀ a ∈ chains j, a ∉ chains i := by
  intro a haj hai
  have heq := (h.home j hj a haj).symm.trans (h.home i hi a hai)
  exact hji (Int.ofNat.inj heq)

theorem Stored.length_lt (h : Stored htbl holds s chains out)
    (hpool : Backed htbl blocks holds) (hfuel : blocks.card < fuel)
    {i : Nat} (hi : i < htbl.nbuckets) :
    (chains i).length < fuel := by
  have hsub : (chains i).toFinset ⊆ out := by
    intro a ha
    exact (h.mem_out a).mpr ⟨i, hi, List.mem_toFinset.mp ha⟩
  calc (chains i).length = (chains i).toFinset.card :=
        (List.toFinset_card_of_nodup (h.nodup i hi)).symm
    _ ≤ out.card := Finset.card_le_card hsub
    _ ≤ blocks.card := hpool.card_le h.holds
    _ < fuel := hfuel

/-- The last record of a list of blocks, if there is one. -/
theorem getLast_mem {l : List Nat} (hl : ∀ b ∈ l, b ∈ blocks) :
    l.getLast?.getD 0 ≠ 0 → l.getLast?.getD 0 ∈ blocks := by
  cases hlast : l.getLast? with
  | none => exact fun hne => absurd rfl hne
  | some b => exact fun _ => hl b (List.mem_of_getLast? hlast)

theorem Stored.last_mem (h : Stored htbl holds s chains out) (hpool : Backed htbl blocks holds)
    {i : Nat} (hi : i < htbl.nbuckets) :
    (chains i).getLast?.getD 0 ≠ 0 → (chains i).getLast?.getD 0 ∈ blocks :=
  getLast_mem fun b hb => hpool.sub h.holds ((h.mem_out b).mpr ⟨i, hi, hb⟩)

/-- The loop that looks for a key, in the bucket of the key. -/
theorem Stored.search_key (h : Stored htbl holds s chains out) (hsound : htbl.Sound)
    (hpool : Backed htbl blocks holds) (hfuel : blocks.card < fuel)
    {key : Key} {i : Nat} (hi : i < htbl.nbuckets)
    (hindex : htbl.hashIndexGen key = i) :
    (∃ prev, search s.next (s.hasKey htbl key) fuel 0 (s.bucketArray i) = some (prev, 0) ∧
        Absent htbl s out key) ∨
      ∃ front a back, chains i = front ++ a :: back ∧ a ≠ 0 ∧ a ∈ out ∧
        keyBytes htbl (s.key a) = keyBytes htbl key ∧
        search s.next (s.hasKey htbl key) fuel 0 (s.bucketArray i) =
          some (front.getLast?.getD 0, a) := by
  have hlen := h.length_lt hpool hfuel hi
  rcases (h.chain i hi).search_cases (s.hasKey htbl key) hlen with
    ⟨prev, hsearch, hnone⟩ | ⟨front, a, back, hsplit, hne, hkey, hsearch⟩
  · refine .inl ⟨prev, hsearch, fun a ha hsame => ?_⟩
    -- an entry with the key would be in this bucket
    obtain ⟨j, hj, haj⟩ := (h.mem_out a).mp ha
    have hij : j = i := by
      have hhome := h.home j hj a haj
      rw [hsound.same _ _ hsame, hindex] at hhome
      exact (Int.ofNat.inj hhome).symm
    have hfalse := hnone a (hij ▸ haj)
    rw [Store.hasKey, decide_eq_false_iff_not] at hfalse
    exact hfalse ((hsound.cmp _ _).mpr hsame)
  · refine .inr ⟨front, a, back, hsplit, hne, ?_, ?_, hsearch⟩
    · refine (h.mem_out a).mpr ⟨i, hi, ?_⟩
      rw [hsplit]
      exact List.mem_append_right _ List.mem_cons_self
    · rw [Store.hasKey, decide_eq_true_eq] at hkey
      exact (hsound.cmp _ _).mp hkey

/-- `find_hash_entry` returns the entry with the key, or `NULL`. -/
theorem Stored.findHashEntry_cases (h : Stored htbl holds s chains out) (hsound : htbl.Sound)
    (hpool : Backed htbl blocks holds) (hfuel : blocks.card < fuel) (key : Key) :
    (findHashEntry htbl fuel s key = some 0 ∧ Absent htbl s out key) ∨
      ∃ a ∈ out, a ≠ 0 ∧ keyBytes htbl (s.key a) = keyBytes htbl key ∧
        findHashEntry htbl fuel s key = some a := by
  obtain ⟨hgt, i, hi, hindex, hbucket⟩ := hsound.bucket key
  simp only [findHashEntry, if_neg hgt, hbucket, Option.bind_eq_bind, Option.bind_some]
  rcases h.search_key hsound hpool hfuel hi hindex with
    ⟨prev, hsearch, habsent⟩ | ⟨front, a, back, -, hne, hout, hkey, hsearch⟩
  · rw [hsearch]
    exact .inl ⟨rfl, habsent⟩
  · rw [hsearch]
    exact .inr ⟨a, hout, hne, hkey, rfl⟩

end

/-! ## Single entries -/

section

variable {s : Store} {chains : Nat → List Nat} {out : Finset Nat}

/-- An element of the chains after one of them has been replaced. -/
theorem mem_update_cases {i j b : Nat} {l : List Nat} (hb : b ∈ Function.update chains i l j) :
    (j = i ∧ b ∈ l) ∨ (j ≠ i ∧ b ∈ chains j) := by
  by_cases hji : j = i
  · subst hji
    rw [Function.update_self] at hb
    exact .inl ⟨rfl, hb⟩
  · rw [Function.update_of_ne hji] at hb
    exact .inr ⟨hji, hb⟩

theorem Stored.nodup_update (h : Stored htbl holds s chains out) (i : Nat) {l : List Nat}
    (hl : l.Nodup) : ∀ j < htbl.nbuckets, (Function.update chains i l j).Nodup := by
  intro j hj
  by_cases hji : j = i
  · subst hji
    rw [Function.update_self]
    exact hl
  · rw [Function.update_of_ne hji]
    exact h.nodup j hj

/-- What is left when an entry is taken out of its chain. -/
theorem mem_out_remove (h : Stored htbl holds s chains out) {i a : Nat} {front back : List Nat}
    (hi : i < htbl.nbuckets) (hsplit : chains i = front ++ a :: back) (b : Nat) :
    b ∈ out.erase a ↔
      ∃ j < htbl.nbuckets, b ∈ Function.update chains i (front ++ back) j := by
  have hnodup := h.nodup i hi
  rw [hsplit, List.nodup_middle, List.nodup_cons] at hnodup
  rw [Finset.mem_erase, h.mem_out]
  constructor
  · rintro ⟨hne, j, hj, hb⟩
    refine ⟨j, hj, ?_⟩
    by_cases hji : j = i
    · subst hji
      rw [hsplit] at hb
      rw [Function.update_self]
      simp only [List.mem_append, List.mem_cons] at hb ⊢
      tauto
    · rwa [Function.update_of_ne hji]
  · rintro ⟨j, hj, hb⟩
    rcases mem_update_cases hb with ⟨rfl, hmem⟩ | ⟨hji, hmem⟩
    · refine ⟨?_, j, hj, ?_⟩
      · rintro rfl
        exact hnodup.1 hmem
      · rw [hsplit]
        simp only [List.mem_append, List.mem_cons] at hmem ⊢
        tauto
    · refine ⟨?_, j, hj, hmem⟩
      rintro rfl
      refine h.apart hi hj hji b hmem ?_
      rw [hsplit]
      exact List.mem_append_right _ List.mem_cons_self

/-- A new link in front of an entry leaves all entries what they are. -/
theorem Stored.unlink_entry (h : Stored htbl holds s chains out)
    (hpool : Backed htbl blocks holds) {i a : Nat} {front back : List Nat}
    (hi : i < htbl.nbuckets) (hsplit : chains i = front ++ a :: back) (ptr : Nat) {b : Nat}
    (hb : b ∈ out) : SameEntry s (s.link i (front.getLast?.getD 0) ptr) b := by
  have hlast : front.getLast?.getD 0 ≠ 0 → front.getLast?.getD 0 ∈ blocks := by
    refine getLast_mem fun c hc => hpool.sub h.holds ((h.mem_out c).mpr ⟨i, hi, ?_⟩)
    rw [hsplit]
    exact List.mem_append_left _ hc
  exact hpool.link_entry s i ptr hlast (hpool.sub h.holds hb)

/-- An entry is taken out of its chain. -/
theorem Stored.remove (h : Stored htbl holds s chains out) (hpool : Backed htbl blocks holds)
    {i a : Nat} {front back : List Nat} {nentries : Int} {mem : Mem.MemState}
    (hi : i < htbl.nbuckets) (hsplit : chains i = front ++ a :: back)
    (hholds : holds mem (out.erase a)) :
    Stored htbl holds
      { s.link i (front.getLast?.getD 0) (s.next a) with nentries := nentries, mem := mem }
      (Function.update chains i (front ++ back)) (out.erase a) := by
  have hfront : ∀ b ∈ front, b ≠ 0 := by
    intro b hb
    refine (h.chain i hi).ne_zero b ?_
    rw [hsplit]
    exact List.mem_append_left _ hb
  obtain ⟨hnext, harray⟩ := s.link_front i (s.next a) hfront
  have hentry (b : Nat) (hb : b ∈ out) := h.unlink_entry hpool hi hsplit (s.next a) hb
  have hnodup := h.nodup i hi
  rw [hsplit, List.nodup_middle, List.nodup_cons] at hnodup
  have hbehind : Chain s.next (s.next a) back := by
    have hchain := h.chain i hi
    rw [hsplit] at hchain
    exact (chain_cons_iff.mp hchain.behind).2.2
  have herase {b : Nat} (hb : b ∈ out.erase a) : b ∈ out := Finset.mem_of_mem_erase hb
  refine ⟨?_, h.nodup_update i hnodup.2, mem_out_remove h hi hsplit, ?_, ?_, ?_, hholds⟩
  · have hchains := relink_table h.chain (fun j hj hji => h.apart hi hj hji) hi hsplit
      hnodup.2.of_append_left hbehind
      (fun b hb hback => List.disjoint_of_nodup_append hnodup.2 hb hback)
    intro j hj
    have hj' := hchains j hj
    rw [← hnext, ← harray] at hj'
    exact hj'
  · intro j hj b hb
    have hbj : b ∈ chains j := by
      rcases mem_update_cases hb with ⟨rfl, hmem⟩ | ⟨-, hmem⟩
      · rw [hsplit]
        simp only [List.mem_append, List.mem_cons] at hmem ⊢
        tauto
      · exact hmem
    have hkeep := (hentry b ((h.mem_out b).mpr ⟨j, hj, hbj⟩)).key
    exact (congrArg htbl.hashIndexGen hkeep).trans (h.home j hj b hbj)
  · intro b hb c hc heq
    refine h.inj b (herase hb) c (herase hc) ?_
    rw [← (hentry b (herase hb)).key, ← (hentry c (herase hc)).key]
    exact heq
  · -- the pointers to the copies of the keys are those of before
    intro b hb
    have hkeep := h.copied b (herase hb)
    rw [← (hentry b (herase hb)).keyWord, ← s.link_nextCopy i (front.getLast?.getD 0)] at hkeep
    exact hkeep

/-- `hash_delete_entry` takes the entry with the key out of its chain, and gives it back to
the pool. -/
theorem Stored.hashDeleteEntry_cases (h : Stored htbl holds s chains out) (hsound : htbl.Sound)
    (hpool : Backed htbl blocks holds) (hfuel : blocks.card < fuel) (key : Key) :
    (Absent htbl s out key ∧ hashDeleteEntry htbl fuel s key = some (s, -1)) ∨
      ∃ a ∈ out, keyBytes htbl (s.key a) = keyBytes htbl key ∧
        ∃ s' chains', hashDeleteEntry htbl fuel s key = some (s', 0) ∧
          Stored htbl holds s' chains' (out.erase a) ∧ s'.nentries = s.nentries - 1 ∧
          ∀ b ∈ out, SameEntry s s' b := by
  obtain ⟨hgt, i, hi, hindex, hbucket⟩ := hsound.bucket key
  simp only [hashDeleteEntry, if_neg hgt, hbucket, Option.bind_eq_bind, Option.bind_some]
  rcases h.search_key hsound hpool hfuel hi hindex with
    ⟨prev, hsearch, habsent⟩ | ⟨front, a, back, hsplit, hne, hout, hkey, hsearch⟩
  · rw [hsearch]
    exact .inl ⟨habsent, rfl⟩
  · right
    refine ⟨a, hout, hkey, ?_⟩
    obtain ⟨mem, hfree, hholds⟩ := hpool.free h.holds hout
    have hfree' : Mem.freeBlk s.mem htbl.hmemPoolId a = some (mem, 0) := hfree
    simp only [hsearch, Option.bind_some, if_neg hne, Store.link_mem, hfree']
    refine ⟨_, _, rfl, h.remove hpool hi hsplit hholds, ?_, fun b hb => ?_⟩
    · show (s.link i _ _).nentries - 1 = s.nentries - 1
      rw [Store.link_nentries]
    · have hentry := h.unlink_entry hpool hi hsplit (s.next a) hb
      exact ⟨hentry.keyWord, hentry.key, hentry.data⟩

/-- What there is when an entry is put at the end of a chain. -/
theorem mem_out_append (h : Stored htbl holds s chains out) {i : Nat} (hi : i < htbl.nbuckets)
    (a b : Nat) :
    b ∈ insert a out ↔
      ∃ j < htbl.nbuckets, b ∈ Function.update chains i (chains i ++ [a]) j := by
  rw [Finset.mem_insert, h.mem_out]
  constructor
  · rintro (rfl | ⟨j, hj, hb⟩)
    · refine ⟨i, hi, ?_⟩
      rw [Function.update_self]
      exact List.mem_append_right _ List.mem_cons_self
    · refine ⟨j, hj, ?_⟩
      by_cases hji : j = i
      · subst hji
        rw [Function.update_self]
        exact List.mem_append_left _ hb
      · rwa [Function.update_of_ne hji]
  · rintro ⟨j, hj, hb⟩
    rcases mem_update_cases hb with ⟨rfl, hmem⟩ | ⟨-, hmem⟩
    · rw [List.mem_append, List.mem_singleton] at hmem
      exact hmem.symm.imp_right fun hold => ⟨j, hj, hold⟩
    · exact .inr ⟨j, hj, hmem⟩

/-- Keys stay different if a new one is different from all. -/
theorem inj_insert {β : Type} {f f' : Nat → β} {a : Nat}
    (hinj : ∀ b ∈ out, ∀ c ∈ out, f b = f c → b = c) (hold : ∀ b ∈ out, f' b = f b)
    (hnew : ∀ b ∈ out, f b ≠ f' a) :
    ∀ b ∈ insert a out, ∀ c ∈ insert a out, f' b = f' c → b = c := by
  intro b hb c hc heq
  rcases Finset.mem_insert.mp hb with hba | hbout
  · rcases Finset.mem_insert.mp hc with hca | hcout
    · rw [hba, hca]
    · rw [hba, hold c hcout] at heq
      exact absurd heq.symm (hnew c hcout)
  · rcases Finset.mem_insert.mp hc with hca | hcout
    · rw [hca, hold b hbout] at heq
      exact absurd heq (hnew b hbout)
    · rw [hold b hbout, hold c hcout] at heq
      exact hinj b hbout c hcout heq

/-- What a new entry leaves of the others. -/
theorem Stored.withEntry_old (h : Stored htbl holds s chains out)
    (hpool : Backed htbl blocks holds) (key : Key) (data : Nat) (mem : Mem.MemState) {i a b : Nat}
    (hi : i < htbl.nbuckets) (ha : a ∈ blocks) (hb : b ∈ out) (hba : b ≠ a) :
    SameEntry s (s.withEntry htbl i ((chains i).getLast?.getD 0) a key data mem) b ∧
      (s.withEntry htbl i ((chains i).getLast?.getD 0) a key data mem).next b =
        (s.link i ((chains i).getLast?.getD 0) a).next b := by
  have hbb := hpool.sub h.holds hb
  have hword {off : Nat} (hoff : off < sizeofHashBucket) :
      (s.withEntry htbl i ((chains i).getLast?.getD 0) a key data mem).word (b + off) =
        (s.link i ((chains i).getLast?.getD 0) a).word (b + off) := by
    have hne {off' : Nat} (hoff' : off' < sizeofHashBucket) : b + off ≠ a + off' :=
      hpool.word_ne hbb ha hoff hoff' (.inl hba)
    have hbase : b + off ≠ a + 0 := hne (by decide)
    rw [Nat.add_zero] at hbase
    rw [Store.withEntry_word, if_neg (hne keyOff_lt), if_neg hbase, if_neg (hne dataOff_lt)]
  have hlink := hpool.link_entry s i a (h.last_mem hpool hi) hbb
  have hcopy : s.word (b + keyOff) ≠ s.nextCopy := (h.copied b hb).ne
  have hkeyWord := (hword keyOff_lt).trans hlink.keyWord
  have hfirst : (s.withEntry htbl i ((chains i).getLast?.getD 0) a key data mem).word (b + 0) =
      (s.link i ((chains i).getLast?.getD 0) a).word (b + 0) := hword (by decide)
  refine ⟨⟨hkeyWord, ?_, (hword dataOff_lt).trans hlink.data⟩, hfirst⟩
  rw [Store.key, hkeyWord]
  simp [Store.withEntry, Store.fill, Store.write, Store.key, hcopy]

/-- A new entry at the end of the chain of its key. -/
theorem Stored.append (h : Stored htbl holds s chains out) (hsound : htbl.Sound)
    (hpool : Backed htbl blocks holds) {key : Key} {i a data : Nat} {mem : Mem.MemState}
    (hi : i < htbl.nbuckets) (hindex : htbl.hashIndexGen key = i)
    (habsent : Absent htbl s out key) (hne : a ≠ 0) (hnot : a ∉ out)
    (hholds : holds mem (insert a out)) :
    Stored htbl holds
      (s.withEntry htbl i ((chains i).getLast?.getD 0) a key data mem)
      (Function.update chains i (chains i ++ [a])) (insert a out) := by
  have ha : a ∈ blocks := hpool.sub hholds (Finset.mem_insert_self _ _)
  have hfresh : ∀ j < htbl.nbuckets, a ∉ chains j := by
    intro j hj hmem
    exact hnot ((h.mem_out a).mpr ⟨j, hj, hmem⟩)
  obtain ⟨hnext, harray⟩ := s.link_front i a (h.chain i hi).ne_zero
  -- the key of an entry, old or new
  have hold (b : Nat) (hb : b ∈ out) := h.withEntry_old hpool key data mem hi ha hb
    (ne_of_mem_of_not_mem hb hnot)
  have hnew : keyBytes htbl
      ((s.withEntry htbl i ((chains i).getLast?.getD 0) a key data mem).key a) =
        keyBytes htbl key := by
    rw [Store.withEntry_key_self]
    exact keyBytes_copyKey htbl key
  refine ⟨?_, ?_, mem_out_append h hi a, ?_, ?_, ?_, hholds⟩
  · have hchains := relink_table (fun j hj => (h.chain j hj).update (hfresh j hj) 0)
      (fun j hj hji => h.apart hi hj hji) hi (List.append_nil _).symm (h.nodup i hi)
      (chain_cons_iff.mpr ⟨rfl, hne, chain_nil_iff.mpr (Function.update_self a 0 s.next)⟩)
      (fun b hb hmem => hfresh i hi (List.mem_singleton.mp hmem ▸ hb))
    intro j hj
    have hj' := hchains j hj
    rw [← update_relinked (hfresh i hi), ← hnext, ← harray] at hj'
    refine hj'.congr fun b hb => ?_
    -- only the links of the entries matter, and the new words are not among them
    rcases Finset.mem_insert.mp ((mem_out_append h hi a b).mpr ⟨j, hj, hb⟩) with rfl | hbout
    · rw [Function.update_self, Store.next, Store.withEntry_word,
        if_neg (by simp [keyOff, sizeofPtr]), if_pos rfl]
    · rw [Function.update_of_ne (ne_of_mem_of_not_mem hbout hnot)]
      exact (hold b hbout).2
  · refine h.nodup_update i ?_
    rw [← List.concat_eq_append]
    exact (h.nodup i hi).concat (hfresh i hi)
  · intro j hj b hb
    have hcases : (j = i ∧ b = a) ∨ b ∈ chains j := by
      rcases mem_update_cases hb with ⟨rfl, hmem⟩ | ⟨-, hmem⟩
      · rw [List.mem_append, List.mem_singleton] at hmem
        exact hmem.symm.imp_left fun hba => ⟨rfl, hba⟩
      · exact .inr hmem
    rcases hcases with ⟨rfl, rfl⟩ | hbj
    · -- the new entry is in the bucket of its key
      rw [hsound.same _ _ hnew, hindex]
    · rw [(hold b ((h.mem_out b).mpr ⟨j, hj, hbj⟩)).1.key]
      exact h.home j hj b hbj
  · refine inj_insert h.inj (fun b hb => congrArg (keyBytes htbl) (hold b hb).1.key) fun b hb => ?_
    rw [hnew]
    exact habsent b hb
  · intro b hb
    have hcount : (s.withEntry htbl i ((chains i).getLast?.getD 0) a key data mem).nextCopy =
        s.nextCopy + 1 := by
      simp [Store.withEntry, Store.fill, Store.write]
    rw [hcount]
    rcases Finset.mem_insert.mp hb with rfl | hbout
    · rw [Store.withEntry_word, if_pos rfl]
      exact Nat.lt_succ_self _
    · rw [(hold b hbout).1.keyWord]
      exact (h.copied b hbout).trans (Nat.lt_succ_self _)

/-- `NULL` written to the link at the end of a chain changes nothing. -/
theorem Stored.link_null (h : Stored htbl holds s chains out) {i : Nat} (hi : i < htbl.nbuckets) :
    s.link i ((chains i).getLast?.getD 0) 0 = s := by
  have hchain := h.chain i hi
  have hne := hchain.ne_zero
  rw [← List.append_nil (chains i)] at hchain
  have hend := chain_nil_iff.mp hchain.behind
  cases hlast : (chains i).getLast? with
  | none =>
      rw [hlast, Option.elim_none] at hend
      rw [Option.getD_none, Store.link, if_neg (not_not.mpr rfl)]
      exact congrArg (fun arr => { s with bucketArray := arr })
        (Function.update_eq_self_iff.mpr hend.symm)
  | some prev =>
      rw [hlast, Option.elim_some] at hend
      rw [Option.getD_some, Store.link, if_pos (hne prev (List.mem_of_getLast? hlast)), ← hend]
      exact congrArg (fun word => { s with word := word }) (Function.update_eq_self prev s.word)

/-- `hash_add_entry` finds the key, or finds no room, or puts a new entry at the end of the
chain. -/
theorem Stored.hashAddEntry_cases (h : Stored htbl holds s chains out) (hsound : htbl.Sound)
    (hpool : Backed htbl blocks holds) (hfuel : blocks.card < fuel)
    (key : Key) (data : Nat) (keyOk : Bool) :
    ((∃ a ∈ out, keyBytes htbl (s.key a) = keyBytes htbl key) ∧
        hashAddEntry htbl fuel s key data keyOk = some (s, 0)) ∨
      (Absent htbl s out key ∧ out.card = blocks.card ∧
        ∃ mem, hashAddEntry htbl fuel s key data keyOk = some ({ s with mem := mem }, -1) ∧
          Stored htbl holds { s with mem := mem } chains out) ∨
      (Absent htbl s out key ∧ out.card < blocks.card ∧
        ((keyOk = false ∧ htbl.keyLen ≠ 0 ∧ hashAddEntry htbl fuel s key data keyOk = none) ∨
          ∃ s' chains' a, a ∉ out ∧ hashAddEntry htbl fuel s key data keyOk = some (s', 0) ∧
            Stored htbl holds s' chains' (insert a out) ∧ s'.nentries = s.nentries + 1 ∧
            keyBytes htbl (s'.key a) = keyBytes htbl key ∧ s'.data a = data ∧
            ∀ b ∈ out, SameEntry s s' b)) := by
  rcases h.findHashEntry_cases hsound hpool hfuel key with
    ⟨hfind, habsent⟩ | ⟨a, ha, hne, hkey, hfind⟩
  swap
  · refine .inl ⟨⟨a, ha, hkey⟩, ?_⟩
    simp only [hashAddEntry, hfind, Option.bind_eq_bind, Option.bind_some, if_pos hne]
  obtain ⟨hgt, i, hi, hindex, hbucket⟩ := hsound.bucket key
  obtain ⟨prev, hlast⟩ := (h.chain i hi).search_last (h.length_lt hpool hfuel hi) 0
  have hadd : hashAddEntry htbl fuel s key data keyOk =
      (Mem.allocBlock s.mem htbl.hmemPoolId).bind fun r =>
        if r.2 = 0 then
          some ({ s.link i ((chains i).getLast?.getD 0) r.2 with mem := r.1 }, -1)
        else if keyOk ∨ htbl.keyLen = 0 then
          some (s.withEntry htbl i ((chains i).getLast?.getD 0) r.2 key data r.1, 0)
        else none := by
    simp only [hashAddEntry, hfind, Option.bind_eq_bind, Option.bind_some, ne_eq,
      not_true_eq_false, if_false, if_neg hgt, hbucket, hlast]
    rfl
  rw [hadd]
  rcases hpool.alloc_cases h.holds with
    ⟨hfull, mem, halloc, hholds⟩ | ⟨mem, a, hroom, hne, hnot, halloc, hholds⟩
  · right; left
    refine ⟨habsent, hfull, mem, ?_, { h with holds := hholds }⟩
    have halloc' : Mem.allocBlock s.mem htbl.hmemPoolId = some (mem, 0) := halloc
    rw [halloc', Option.bind_some, if_pos rfl, h.link_null hi]
  · right; right
    refine ⟨habsent, hroom, ?_⟩
    have halloc' : Mem.allocBlock s.mem htbl.hmemPoolId = some (mem, a) := halloc
    rw [halloc', Option.bind_some, if_neg hne]
    by_cases hok : keyOk = true ∨ htbl.keyLen = 0
    · right
      rw [if_pos hok]
      refine ⟨_, _, a, hnot, rfl, h.append hsound hpool hi hindex habsent hne hnot hholds,
        ?_, ?_, ?_, ?_⟩
      · exact congrArg (· + 1) (s.link_nentries _ _ _)
      · rw [Store.withEntry_key_self]
        exact keyBytes_copyKey htbl key
      · exact Store.withEntry_data_self ..
      · intro b hb
        have ha : a ∈ blocks := hpool.sub hholds (Finset.mem_insert_self _ _)
        exact (h.withEntry_old hpool key data mem hi ha hb (ne_of_mem_of_not_mem hb hnot)).1
    · left
      rw [if_neg hok]
      rw [not_or, Bool.not_eq_true] at hok
      exact ⟨hok.1, hok.2, rfl⟩

end

/-! ## Whole tables -/

section

variable {s : Store} {chains : Nat → List Nat} {out : Finset Nat}

/-- The inner loop of `flush_hash_table` gives back the entries of a chain. -/
theorem flushChain_eq (hpool : Backed htbl blocks holds)
    {a : Nat} {l : List Nat} (hchain : Chain s.next a l) (hnodup : l.Nodup)
    (hsub : ∀ b ∈ l, b ∈ out)
    (hholds : holds s.mem out) {k : Nat} (hk : l.length < k) :
    ∃ mem, flushChain htbl k s a = some { s with mem := mem } ∧
      holds mem (out \ l.toFinset) := by
  induction l generalizing s a out k with
  | nil =>
      obtain ⟨k, rfl⟩ : ∃ k', k = k' + 1 := ⟨k - 1, by simp at hk; omega⟩
      rw [flushChain, if_pos (chain_nil_iff.mp hchain)]
      refine ⟨s.mem, rfl, ?_⟩
      rwa [List.toFinset_nil, Finset.sdiff_empty]
  | cons b l ih =>
      obtain ⟨k, rfl⟩ : ∃ k', k = k' + 1 := ⟨k - 1, by simp at hk; omega⟩
      obtain ⟨rfl, hne, hrest⟩ := chain_cons_iff.mp hchain
      obtain ⟨hnot, hnodup'⟩ := List.nodup_cons.mp hnodup
      obtain ⟨mem, hfree, hmem⟩ := hpool.free hholds (hsub a List.mem_cons_self)
      have hfree' : Mem.freeBlk s.mem htbl.hmemPoolId a = some (mem, 0) := hfree
      have hsub' : ∀ c ∈ l, c ∈ out.erase a := by
        intro c hc
        refine Finset.mem_erase.mpr ⟨?_, hsub c (List.mem_cons_of_mem _ hc)⟩
        rintro rfl
        exact hnot hc
      obtain ⟨mem', hflush, hmem'⟩ := ih (s := { s with mem := mem }) hrest hnodup' hsub' hmem
        (Nat.lt_of_succ_lt_succ hk)
      refine ⟨mem', ?_, ?_⟩
      · rw [flushChain, if_neg hne, hfree']
        exact hflush
      · rwa [List.toFinset_cons, Finset.sdiff_insert, ← Finset.erase_sdiff_comm]

theorem Stored.flushBucket_eq (h : Stored htbl holds s chains out)
    (hpool : Backed htbl blocks holds) (hfuel : blocks.card < fuel)
    {i : Nat} (hi : i < htbl.nbuckets) :
    ∃ s', flushBucket htbl fuel s i = some s' ∧ s'.nentries = s.nentries ∧
      Stored htbl holds s' (Function.update chains i []) (out \ (chains i).toFinset) := by
  obtain ⟨mem, hflush, hmem⟩ := flushChain_eq hpool (h.chain i hi) (h.nodup i hi)
    (fun b hb => (h.mem_out b).mpr ⟨i, hi, hb⟩) h.holds (h.length_lt hpool hfuel hi)
  have hsub {j b : Nat} (hb : b ∈ Function.update chains i [] j) : j ≠ i ∧ b ∈ chains j :=
    (mem_update_cases hb).resolve_left fun hnil => List.not_mem_nil hnil.2
  refine ⟨{ s with mem := mem, bucketArray := Function.update s.bucketArray i 0 }, ?_, rfl,
    ⟨?_, ?_, ?_, ?_, ?_, ?_, hmem⟩⟩
  · simp only [flushBucket, hflush, Option.bind_eq_bind, Option.bind_some]
  · exact relink_table h.chain (fun j hj hji => h.apart hi hj hji) hi (List.nil_append _).symm
      List.nodup_nil .nil (fun b hb => absurd hb List.not_mem_nil)
  · exact h.nodup_update i List.nodup_nil
  · intro b
    rw [Finset.mem_sdiff, h.mem_out, List.mem_toFinset]
    constructor
    · rintro ⟨⟨j, hj, hb⟩, hnot⟩
      have hji : j ≠ i := by
        rintro rfl
        exact hnot hb
      exact ⟨j, hj, by rwa [Function.update_of_ne hji]⟩
    · rintro ⟨j, hj, hb⟩
      obtain ⟨hji, hb⟩ := hsub hb
      exact ⟨⟨j, hj, hb⟩, h.apart hi hj hji b hb⟩
  · exact fun j hj b hb => h.home j hj b (hsub hb).2
  · intro b hb c hc
    exact h.inj b (Finset.mem_sdiff.mp hb).1 c (Finset.mem_sdiff.mp hc).1
  · exact fun b hb => h.copied b (Finset.mem_sdiff.mp hb).1

/-- The outer loop empties the buckets that it has been to. -/
theorem Stored.flush_buckets (hpool : Backed htbl blocks holds)
    (hfuel : blocks.card < fuel) {is : List Nat} (his : ∀ i ∈ is, i < htbl.nbuckets)
    (h : Stored htbl holds s chains out) :
    ∃ s' chains' out', is.foldlM (flushBucket htbl fuel) s = some s' ∧
      s'.nentries = s.nentries ∧ Stored htbl holds s' chains' out' ∧
      (∀ j, chains j = [] → chains' j = []) ∧ ∀ j ∈ is, chains' j = [] := by
  induction is generalizing s chains out with
  | nil =>
      exact ⟨s, chains, out, rfl, rfl, h, fun _ hj => hj, fun _ hj => absurd hj List.not_mem_nil⟩
  | cons i is ih =>
      obtain ⟨mid, hflush, hcount, hmid⟩ := h.flushBucket_eq hpool hfuel (his i List.mem_cons_self)
      obtain ⟨s', chains', out', hloop, hcount', hs', hempty, hdone⟩ :=
        ih (fun j hj => his j (List.mem_cons_of_mem _ hj)) hmid
      refine ⟨s', chains', out', ?_, hcount'.trans hcount, hs', fun j hj => ?_, fun j hj => ?_⟩
      · rw [List.foldlM_cons, hflush]
        exact hloop
      · refine hempty j ?_
        by_cases hji : j = i
        · rw [hji, Function.update_self]
        · rwa [Function.update_of_ne hji]
      · rcases List.mem_cons.mp hj with rfl | hrest
        · exact hempty j (Function.update_self j [] chains)
        · exact hdone j hrest

/-- `flush_hash_table` empties the table, but not the counter. -/
theorem Stored.flushHashTable_eq (h : Stored htbl holds s chains out)
    (hpool : Backed htbl blocks holds) (hfuel : blocks.card < fuel) :
    ∃ s', flushHashTable htbl fuel s = some s' ∧ s'.nentries = s.nentries ∧
      Stored htbl holds s' (fun _ => []) ∅ := by
  obtain ⟨s', chains', out', hflush, hcount, hs', -, hdone⟩ :=
    h.flush_buckets hpool hfuel fun i (hi : i ∈ List.range htbl.nbuckets) => List.mem_range.mp hi
  have hempty (j : Nat) (hj : j < htbl.nbuckets) : chains' j = [] :=
    hdone j (List.mem_range.mpr hj)
  have hout : out' = ∅ := by
    rw [Finset.eq_empty_iff_forall_notMem]
    intro a ha
    obtain ⟨j, hj, haj⟩ := (hs'.mem_out a).mp ha
    rw [hempty j hj] at haj
    exact List.not_mem_nil haj
  subst hout
  refine ⟨s', hflush, hcount, ⟨fun j hj => ?_, fun _ _ => List.nodup_nil, fun a => ?_, ?_, ?_, ?_,
    hs'.holds⟩⟩
  · rw [← hempty j hj]
    exact hs'.chain j hj
  · refine iff_of_false (Finset.notMem_empty a) ?_
    rintro ⟨j, -, haj⟩
    exact List.not_mem_nil haj
  · exact fun _ _ a ha => absurd ha List.not_mem_nil
  · exact fun a ha => absurd ha (Finset.notMem_empty a)
  · exact fun a ha => absurd ha (Finset.notMem_empty a)

/-- `hash_walk` visits the entries of the table, each of them once. -/
theorem Stored.hashWalk_eq (h : Stored htbl holds s chains out)
    (hpool : Backed htbl blocks holds) (hfuel : blocks.card < fuel) :
    ∃ l, hashWalk htbl fuel s = some l ∧ l.Nodup ∧ (∀ a, a ∈ l ↔ a ∈ out) ∧
      l.length = out.card := by
  have hwalk : ∀ is : List Nat, (∀ i ∈ is, i < htbl.nbuckets) →
      is.mapM (fun slot => walk s.next fuel (s.bucketArray slot)) = some (is.map chains) := by
    intro is his
    induction is with
    | nil => rfl
    | cons i is ih =>
        have hi := his i List.mem_cons_self
        rw [List.mapM_cons, (h.chain i hi).walk_eq (h.length_lt hpool hfuel hi),
          ih fun j hj => his j (List.mem_cons_of_mem _ hj)]
        rfl
  have hmem (a : Nat) : a ∈ ((List.range htbl.nbuckets).map chains).flatten ↔ a ∈ out := by
    rw [h.mem_out, List.mem_flatten]
    constructor
    · rintro ⟨l, hl, ha⟩
      obtain ⟨i, hi, rfl⟩ := List.mem_map.mp hl
      exact ⟨i, List.mem_range.mp hi, ha⟩
    · rintro ⟨i, hi, ha⟩
      exact ⟨chains i, List.mem_map.mpr ⟨i, List.mem_range.mpr hi, rfl⟩, ha⟩
  have hnodup : ((List.range htbl.nbuckets).map chains).flatten.Nodup := by
    rw [List.nodup_flatten]
    constructor
    · intro l hl
      obtain ⟨i, hi, rfl⟩ := List.mem_map.mp hl
      exact h.nodup i (List.mem_range.mp hi)
    · rw [List.pairwise_map]
      refine List.Pairwise.imp_of_mem ?_ List.nodup_range
      intro i j hi hj hij a hai haj
      exact h.apart (List.mem_range.mp hj) (List.mem_range.mp hi) hij a hai haj
  refine ⟨_, ?_, hnodup, hmem, ?_⟩
  · rw [hashWalk, hwalk _ fun i hi => List.mem_range.mp hi]
    rfl
  · rw [← List.toFinset_card_of_nodup hnodup]
    congr 1
    ext a
    rw [List.mem_toFinset, hmem]

end

end Hash
end TmULThreads
