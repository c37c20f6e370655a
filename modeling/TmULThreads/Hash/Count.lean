import TmULThreads.Hash.Refinement
import TmULThreads.Lib.PartialSteps

/-!
# The number of entries

`hash_add_entry` and `hash_delete_entry` keep `nentries` by hand, and `flush_hash_table`
does not.  After a table with entries has been flushed the counter is too large, and nothing
ever corrects it.  `countLaw_iff` states that this is the only way in which it goes wrong as long
as the entries fit into their blocks.
-/

namespace TmULThreads
namespace Hash

section

variable (htbl : HashTable) (fuel : Nat)

/-- `hash_walk` visits every entry that can be found, each of them once, and `nentries` is
the number of its visits. -/
def CountLaw (s : Store) : Prop :=
  ∃ l, hashWalk htbl fuel s = some l ∧ l.Nodup ∧
    (∀ a, a ∈ l ↔ a ≠ 0 ∧ ∃ key, findHashEntry htbl fuel s key = some a) ∧
    s.nentries = l.length

/-- One call; what it returns is left out. -/
def countStep (s : Store) (op : HashOp) : Option Store := (hashCall htbl fuel s op).map Prod.fst

/-- A table is flushed when it has no entries. -/
def FlushedEmpty (s : Store) : HashOp → Prop
  | .flush => ∀ i < htbl.nbuckets, s.bucketArray i = 0
  | _ => True

instance (s : Store) : ∀ op, Decidable (FlushedEmpty htbl s op)
  | .flush => inferInstanceAs (Decidable (∀ i < htbl.nbuckets, s.bucketArray i = 0))
  | .add _ _ _ | .delete _ | .lookup _ => isTrue trivial

end

variable {htbl : HashTable} {fuel : Nat} {blocks : Finset Nat}
  {holds : Mem.MemState → Finset Nat → Prop} {s s' : Store} {chains : Nat → List Nat}
  {out : Finset Nat}

/-- The entries that can be found are those of the chains. -/
theorem Stored.findable_iff (h : Stored htbl holds s chains out) (hsound : htbl.Sound)
    (hpool : Backed htbl blocks holds) (hfuel : blocks.card < fuel) (a : Nat) :
    a ∈ out ↔ a ≠ 0 ∧ ∃ key, findHashEntry htbl fuel s key = some a := by
  constructor
  · intro ha
    refine ⟨hpool.ne_zero h.holds ha, (s.key a), ?_⟩
    rcases h.findHashEntry_cases hsound hpool hfuel (s.key a) with
      ⟨-, habsent⟩ | ⟨b, hb, -, hkey, hfind⟩
    · exact absurd rfl (habsent a ha)
    · rwa [h.inj b hb a ha hkey] at hfind
  · rintro ⟨hne, key, hfind⟩
    rcases h.findHashEntry_cases hsound hpool hfuel key with ⟨hnull, -⟩ | ⟨b, hb, -, -, hfind'⟩
    · exact absurd (Option.some.inj (hfind.symm.trans hnull)) hne
    · rwa [Option.some.inj (hfind.symm.trans hfind')]

theorem Stored.countLaw_iff_card (h : Stored htbl holds s chains out) (hsound : htbl.Sound)
    (hpool : Backed htbl blocks holds) (hfuel : blocks.card < fuel)
    : CountLaw htbl fuel s ↔ s.nentries = out.card := by
  obtain ⟨l, hwalk, hnodup, hmem, hlen⟩ := h.hashWalk_eq hpool hfuel
  constructor
  · rintro ⟨l', hwalk', -, -, hcount⟩
    obtain rfl : l = l' := Option.some.inj (hwalk.symm.trans hwalk')
    rw [hcount, hlen]
  · intro hcount
    refine ⟨l, hwalk, hnodup, fun a => ?_, ?_⟩
    · rw [hmem, h.findable_iff hsound hpool hfuel]
    · rw [hcount, hlen]

/-- The buckets are empty exactly if there are no entries. -/
theorem Stored.empty_iff (h : Stored htbl holds s chains out) :
    (∀ i < htbl.nbuckets, s.bucketArray i = 0) ↔ out.card = 0 := by
  rw [Finset.card_eq_zero, Finset.eq_empty_iff_forall_notMem]
  constructor
  · intro hempty a ha
    obtain ⟨i, hi, hai⟩ := (h.mem_out a).mp ha
    have hchain := h.chain i hi
    cases hl : chains i with
    | nil =>
        rw [hl] at hai
        exact List.not_mem_nil hai
    | cons b l =>
        rw [hl] at hchain
        obtain ⟨hb, hne, -⟩ := LinkedChain.chain_cons_iff.mp hchain
        exact hne (hb.symm.trans (hempty i hi))
  · intro hnone i hi
    have hnil : chains i = [] := by
      rw [List.eq_nil_iff_forall_not_mem]
      intro a ha
      exact hnone a ((h.mem_out a).mpr ⟨i, hi, ha⟩)
    have hchain := h.chain i hi
    rw [hnil] at hchain
    exact LinkedChain.chain_nil_iff.mp hchain

/-- A call keeps the counter right exactly if it is not a flush of entries; and the counter is
never too small. -/
theorem countStep_keeps (hsound : htbl.Sound)
    (hpool : Backed htbl blocks holds) (hfuel : blocks.card < fuel)
    (h : Stored htbl holds s chains out)
    (hle : (out.card : Int) ≤ s.nentries) {op : HashOp}
    (hstep : countStep htbl fuel s op = some s') :
    ∃ chains' out', Stored htbl holds s' chains' out' ∧ (out'.card : Int) ≤ s'.nentries ∧
      (s'.nentries = out'.card ↔ s.nentries = out.card ∧ FlushedEmpty htbl s op) := by
  cases op with
  | add key data keyOk =>
      simp only [countStep, hashCall, hashTblAdd, Option.map_map] at hstep
      have htrue : FlushedEmpty htbl s (.add key data keyOk) := trivial
      rcases h.hashAddEntry_cases hsound hpool hfuel key data keyOk with
        ⟨-, hadd⟩ | ⟨-, -, mem, hadd, hs'⟩ |
          ⟨-, -, ⟨-, -, hadd⟩ | ⟨s₁, chains', a, hnot, hadd, hs', hcount, -⟩⟩
      · rw [hadd] at hstep
        cases hstep
        exact ⟨chains, out, h, hle, (and_iff_left htrue).symm⟩
      · rw [hadd] at hstep
        cases hstep
        exact ⟨chains, out, hs', hle, (and_iff_left htrue).symm⟩
      · rw [hadd] at hstep
        cases hstep
      · rw [hadd] at hstep
        cases hstep
        have hcard := Finset.card_insert_of_notMem hnot
        refine ⟨chains', insert a out, hs', ?_, ?_⟩
        · show _ ≤ s₁.nentries
          omega
        · rw [and_iff_left htrue]
          show s₁.nentries = _ ↔ _
          omega
  | delete key =>
      simp only [countStep, hashCall, hashTblDelete, Option.map_map] at hstep
      have htrue : FlushedEmpty htbl s (.delete key) := trivial
      rcases h.hashDeleteEntry_cases hsound hpool hfuel key with
        ⟨-, hdelete⟩ | ⟨a, ha, -, s₁, chains', hdelete, hs', hcount, -⟩
      · rw [hdelete] at hstep
        cases hstep
        exact ⟨chains, out, h, hle, (and_iff_left htrue).symm⟩
      · rw [hdelete] at hstep
        cases hstep
        have hcard := Finset.card_erase_add_one ha
        refine ⟨chains', out.erase a, hs', ?_, ?_⟩
        · show _ ≤ s₁.nentries
          omega
        · rw [and_iff_left htrue]
          show s₁.nentries = _ ↔ _
          omega
  | lookup key =>
      simp only [countStep, hashCall, Option.map_map, Option.map_eq_some_iff] at hstep
      obtain ⟨ptr, -, rfl⟩ := hstep
      exact ⟨chains, out, h, hle, (and_iff_left trivial).symm⟩
  | flush =>
      obtain ⟨s₁, hflush, hcount, hs'⟩ := h.flushHashTable_eq hpool hfuel
      simp only [countStep, hashCall, hflush, Option.map_some, Option.some.injEq] at hstep
      subst hstep
      refine ⟨_, ∅, hs', ?_, ?_⟩
      · rw [Finset.card_empty, hcount]
        omega
      · show _ ↔ _ ∧ ∀ i < htbl.nbuckets, s.bucketArray i = 0
        rw [h.empty_iff, Finset.card_empty, hcount]
        omega

/-- In every sequence of calls on a new table, the counter is right at the end exactly if the
table was only flushed when it had no entries. -/
theorem countLaw_iff (htbl : HashTable) (hsound : htbl.Sound) (s : Store) (p : Mem.MemInfo)
    (hfresh : Fresh htbl s p) (hzero : s.nentries = 0) (hsized : Mem.Sized p) (fuel : Nat)
    (hfuel : htbl.nbuckets < fuel) (ops : List HashOp) (s' : Store)
    (hrun : PartialSteps.run (countStep htbl fuel) s ops = some s') :
    CountLaw htbl fuel s' ↔ PartialSteps.Meets (countStep htbl fuel) (FlushedEmpty htbl) s ops := by
  have hpool := hfresh.backed hsized
  have hfuel' : p.blocks.card < fuel := (hfresh.card_blocks hsized) ▸ hfuel
  have hstart := hfresh.stored hsized
  have hlaw : CountLaw htbl fuel s := by
    rw [hstart.countLaw_iff_card hsound hpool hfuel', hzero]
    rfl
  let I (t : Store) : Prop := ∃ chains out,
    Stored htbl (Mem.Supplies htbl.hmemPoolId htbl.nbuckets p) t chains out ∧
      (out.card : Int) ≤ t.nentries
  have hkeep (t : Store) (op : HashOp) (t' : Store) (ht : I t) (_ : True)
      (hstep : countStep htbl fuel t op = some t') :
      I t' ∧ (CountLaw htbl fuel t' ↔ CountLaw htbl fuel t ∧ FlushedEmpty htbl t op) := by
    obtain ⟨chains, out, ht, hle⟩ := ht
    obtain ⟨chains', out', ht', hle', hcount⟩ := countStep_keeps hsound hpool hfuel' ht hle hstep
    refine ⟨⟨chains', out', ht', hle'⟩, ?_⟩
    rw [ht'.countLaw_iff_card hsound hpool hfuel', ht.countLaw_iff_card hsound hpool hfuel']
    exact hcount
  have hI : I s := ⟨_, ∅, hstart, by rw [hzero]; exact le_rfl⟩
  have hiff := PartialSteps.run_iff_meets (countStep htbl fuel) hkeep hI
    (PartialSteps.meets_trivial _ s ops) hrun
  rw [hiff, and_iff_right hlaw]

/-- Entries that are deleted before the table is flushed. -/
theorem countLaw_deleted_first :
    createByteTable 3 = some ((byteStore 24 3).mem, some (byteTable 3)) ∧
      let ops := [addByte 1 true, addByte 4 true, .delete fun _ => 1, .delete fun _ => 4, .flush,
        addByte 7 true]
      ∃ s', PartialSteps.run (countStep (byteTable 3) 4) (byteStore 24 3) ops = some s' ∧
        CountLaw (byteTable 3) 4 s' := by
  refine ⟨rfl, ?_⟩
  intro ops
  have hsized : Mem.Sized (Mem.newPool 1 24 3 4096 true) :=
    Mem.sized_newPool 1 24 3 4096 (by decide) (by decide) (by decide)
  obtain ⟨s', hrun⟩ : ∃ s',
      PartialSteps.run (countStep (byteTable 3) 4) (byteStore 24 3) ops = some s' :=
    Option.isSome_iff_exists.mp (by decide +kernel)
  refine ⟨s', hrun, ?_⟩
  exact (countLaw_iff (byteTable 3) (sound_byteTable (by decide)) (byteStore 24 3) _
    (fresh_byteStore (by decide) (by decide)) rfl hsized 4 (by decide) ops s' hrun).mpr
      (by decide +kernel)

/-- A run that ends with a counter that is not the number of visits. -/
theorem miscounted_of_run {ops : List HashOp} {l : List Nat} {n : Int}
    (hrun : (PartialSteps.run (countStep htbl fuel) s ops).map
      (fun s => (hashWalk htbl fuel s, s.nentries)) = some (some l, n)) (hne : n ≠ l.length) :
    ∃ s', PartialSteps.run (countStep htbl fuel) s ops = some s' ∧
      hashWalk htbl fuel s' = some l ∧ s'.nentries = n ∧ ¬ CountLaw htbl fuel s' := by
  obtain ⟨s', hs', hfacts⟩ := Option.map_eq_some_iff.mp hrun
  obtain ⟨hwalk, rfl⟩ := Prod.mk.inj hfacts
  refine ⟨s', hs', hwalk, rfl, ?_⟩
  rintro ⟨l', hwalk', -, -, hcount⟩
  rw [hwalk] at hwalk'
  cases hwalk'
  exact hne hcount

/-- One entry, and a flush: the walk visits nothing, and the counter is still one.  In a table
with two buckets, as `create_hash_table` makes it, the data of the third entry lies where the
link to it is, so it is lost when the data is `NULL`. -/
theorem not_countLaw_flushed :
    (∃ s', PartialSteps.run (countStep (byteTable 3) 4) (byteStore 24 3) [addByte 1 true, .flush] =
        some s' ∧ hashWalk (byteTable 3) 4 s' = some [] ∧ s'.nentries = 1 ∧
      ¬ CountLaw (byteTable 3) 4 s') ∧
    createByteTable 2 = some ((byteStore 16 2).mem, some (byteTable 2)) ∧
    ∃ s', PartialSteps.run (countStep (byteTable 2) 3) (byteStore 16 2)
        [addByte 1 true, addByte 3 true, .delete fun _ => 1, .add (fun _ => 5) 0 true] = some s' ∧
      hashWalk (byteTable 2) 3 s' = some [4112] ∧ s'.nentries = 2 ∧
      ¬ CountLaw (byteTable 2) 3 s' := by
  refine ⟨?_, rfl, ?_⟩
  · exact miscounted_of_run (by decide +kernel) (by decide)
  · exact miscounted_of_run (by decide +kernel) (by decide)

end Hash
end TmULThreads
