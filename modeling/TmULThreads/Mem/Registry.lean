import TmULThreads.Lib.PartialSteps
import TmULThreads.Mem.Pool

/-!
# The registry of pools

Every operation on a pool walks the list `hd_mcb` for its control block.
`mem_pool_delete` gives the control block back without taking it off the list, so from
then on the walks run into memory that has been freed, and `list_add_tail` writes to it
when that block was the last one.

What the registry is for is a finite map from identifiers to pools, and the state here
carries that map beside the list.  A record that has been freed stays in the list, with
its identifier noted in `freed`, and an operation that touches it has no defined outcome.
`registryLaw_iff` states that the list stands for the map all along a run exactly when
the run deletes no pool.
-/

namespace TmULThreads
namespace Mem

structure Registry where
  mem : MemState
  /-- The identifiers of the records that have been given back. -/
  freed : List Nat
  /-- The pools that have been created and not deleted since, with what the operations on
  each of them have made of it. -/
  pools : Nat → Option MemInfo

def initRegistry : Registry := ⟨memInit, [], fun _ => none⟩

/-- The walk of `get_mem_info`.  The outer `none` is a read of a freed record, the inner
one the `NULL` at the end of the list. -/
def walkMcb (freed : List Nat) (memid : Nat) : List MemInfo → Option (Option MemInfo)
  | [] => some none
  | p :: rest =>
      if p.memid ∈ freed then none
      else if p.memid = memid then some (some p)
      else walkMcb freed memid rest

def Registry.getMemInfo (s : Registry) (memid : Nat) : Option (Option MemInfo) :=
  walkMcb s.freed memid s.mem.hdMcb

/-- The last record of the list, which `list_add_tail` writes to, has been freed. -/
def Registry.lastFreed (s : Registry) : Bool :=
  s.mem.hdMcb.getLast?.any fun p => p.memid ∈ s.freed

/-- `mem_pool_create`.  The counter of `get_next_free_mcb` is an `int`, whose overflow has
no defined outcome. -/
def Registry.create (s : Registry) (size : Nat) (nBlks : Int) (mcbOk : Bool) (area : Nat)
    (tableOk : Bool) : Option (Registry × Option Nat) :=
  if mcbOk ∧ s.mem.lastId + 1 = 2 ^ 31 then none
  else
    match memPoolCreate s.mem size nBlks mcbOk area tableOk with
    | (m, none) => some ({ s with mem := m }, none)
    | (m, some memid) =>
        if s.lastFreed then none
        else
          let p := newPool memid size nBlks area tableOk
          some ({ s with mem := m, pools := Function.update s.pools memid (some p) }, some memid)

/-- `mem_pool_delete`, with the value it returns. -/
def Registry.delete (s : Registry) (memid : Nat) : Option (Registry × Int) := do
  match ← s.getMemInfo memid with
  | none => some (s, -1)
  | some p =>
      some ({ s with freed := p.memid :: s.freed
                     pools := Function.update s.pools memid none }, 0)

/-- The control block `p` of the pool has been written to. -/
def Registry.write (s : Registry) (memid : Nat) (p : MemInfo) : Registry :=
  { s with mem := s.mem.set p, pools := Function.update s.pools memid (some p) }

/-- `alloc_block` does not test for `NULL` what `get_mem_info` returns. -/
def Registry.alloc (s : Registry) (memid : Nat) : Option (Registry × Nat) := do
  let p ← (← s.getMemInfo memid)
  let (p, addr) ← p.allocBlock
  some (s.write memid p, addr)

def Registry.free (s : Registry) (memid addr : Nat) : Option (Registry × Int) := do
  match ← s.getMemInfo memid with
  | none => some (s, -1)
  | some p => do
      let (p, ret) ← p.freeBlk addr
      some (s.write memid p, ret)

inductive RegOp where
  | create (size : Nat) (nBlks : Int) (mcbOk : Bool) (area : Nat) (tableOk : Bool)
  | delete (memid : Nat)
  | alloc (memid : Nat)
  | free (memid addr : Nat)
  deriving DecidableEq, Repr

def regStep (s : Registry) : RegOp → Option Registry
  | .create size nBlks mcbOk area tableOk =>
      (s.create size nBlks mcbOk area tableOk).map Prod.fst
  | .delete memid => (s.delete memid).map Prod.fst
  | .alloc memid => (s.alloc memid).map Prod.fst
  | .free memid addr => (s.free memid addr).map Prod.fst

/-! ## The property and the condition -/

structure RegistryLaw (s : Registry) : Prop where
  /-- The lookup finds exactly the pools that there are, as they were left. -/
  lookup : ∀ memid, s.getMemInfo memid = some (s.pools memid)
  /-- Operations on a deleted pool fail and change nothing. -/
  deleted : ∀ memid ∈ s.freed, s.delete memid = some (s, -1) ∧ s.alloc memid = some (s, 0) ∧
    ∀ addr, s.free memid addr = some (s, -1)

/-- No pool is deleted; a `mem_pool_delete` that finds none is harmless. -/
def KeepsPools (s : Registry) : RegOp → Prop
  | .delete memid => s.pools memid = none
  | .create .. | .alloc _ | .free .. => True

instance (s : Registry) : ∀ op, Decidable (KeepsPools s op)
  | .delete memid => inferInstanceAs (Decidable (s.pools memid = none))
  | .create .. | .alloc _ | .free .. => isTrue trivial

/-! ## Walks -/

theorem walkMcb_of_nil (memid : Nat) (pools : List MemInfo) :
    walkMcb [] memid pools = some (pools.find? fun p => p.memid == memid) := by
  induction pools with
  | nil => rfl
  | cons p rest ih =>
      rw [walkMcb, if_neg List.not_mem_nil, List.find?_cons]
      by_cases hp : p.memid = memid
      · rw [if_pos hp, beq_iff_eq.mpr hp]
      · rw [if_neg hp, beq_eq_false_iff_ne.mpr hp]
        exact ih

/-- A walk for an identifier whose record has been freed never gets past that record. -/
theorem walkMcb_eq_none {freed : List Nat} {memid : Nat} {pools : List MemInfo} {p : MemInfo}
    (hp : p ∈ pools) (hid : p.memid = memid) (hfreed : memid ∈ freed) :
    walkMcb freed memid pools = none := by
  induction pools with
  | nil => cases hp
  | cons q rest ih =>
      rw [walkMcb]
      by_cases hq : q.memid ∈ freed
      · rw [if_pos hq]
      · have hne : q.memid ≠ memid := by
          rintro rfl
          exact hq hfreed
        rw [if_neg hq, if_neg hne]
        rcases List.mem_cons.mp hp with rfl | hrest
        · exact absurd hid hne
        · exact ih hrest

/-! ## Registries from which nothing has been deleted -/

structure Intact (s : Registry) : Prop where
  freed : s.freed = []
  numbered : s.mem.Numbered
  pools : ∀ memid, getMemInfo s.mem memid = s.pools memid

theorem intact_init : Intact initRegistry where
  freed := rfl
  numbered _ hp := nomatch hp
  pools _ := rfl

theorem Intact.getMemInfo_eq {s : Registry} (h : Intact s) (memid : Nat) :
    s.getMemInfo memid = some (s.pools memid) := by
  rw [← h.pools, Registry.getMemInfo, h.freed, walkMcb_of_nil]
  rfl

theorem Intact.registryLaw {s : Registry} (h : Intact s) : RegistryLaw s where
  lookup := h.getMemInfo_eq
  deleted memid hfreed := by
    rw [h.freed] at hfreed
    cases hfreed

theorem Intact.of_create {s s' : Registry} (h : Intact s) {size : Nat} {nBlks : Int}
    {mcbOk : Bool} {area : Nat} {tableOk : Bool} {res : Option Nat}
    (hcreate : s.create size nBlks mcbOk area tableOk = some (s', res)) : Intact s' := by
  unfold Registry.create at hcreate
  split at hcreate
  · cases hcreate
  · rcases memPoolCreate_cases s.mem size nBlks mcbOk area tableOk with ⟨k, hk, hfail⟩ | ⟨-, hdone⟩
    · rw [hfail] at hcreate
      cases hcreate
      exact ⟨h.freed, fun p hp => (h.numbered p hp).trans hk, h.pools⟩
    · rw [hdone] at hcreate
      dsimp only at hcreate
      split at hcreate
      · cases hcreate
      · cases hcreate
        refine ⟨h.freed, fun q hq => ?_, fun memid => ?_⟩
        · rcases List.mem_append.mp hq with hold | hnew
          · exact (h.numbered q hold).trans (Nat.le_succ _)
          · rw [List.mem_singleton.mp hnew, memid_newPool]
        · show getMemInfo ⟨_, _⟩ memid = Function.update s.pools (s.mem.lastId + 1) _ memid
          rw [getMemInfo_append h.numbered (memid_newPool ..), Function.update_apply, h.pools]

/-- Writing the control block of one pool leaves the others alone. -/
theorem Intact.of_write {s : Registry} (h : Intact s) {memid : Nat} {p p' : MemInfo}
    (hfound : s.pools memid = some p) (hid : p'.memid = p.memid) : Intact (s.write memid p') := by
  rw [← h.pools] at hfound
  obtain ⟨hmem, rfl⟩ := getMemInfo_mem hfound
  refine ⟨h.freed, Numbered.of_set h.numbered (hid ▸ h.numbered p hmem), fun id => ?_⟩
  show getMemInfo (s.mem.set p') id = Function.update s.pools p.memid (some p') id
  rw [← hid] at hfound ⊢
  by_cases hp : id = p'.memid
  · rw [hp, Function.update_self]
    exact getMemInfo_set_self hfound
  · rw [Function.update_of_ne hp, getMemInfo_set_of_ne hp, h.pools]

theorem Intact.alloc_cases {s s' : Registry} (h : Intact s) {memid addr : Nat}
    (halloc : s.alloc memid = some (s', addr)) :
    ∃ p p', s.pools memid = some p ∧ p'.memid = p.memid ∧ s' = s.write memid p' := by
  simp only [Registry.alloc, h.getMemInfo_eq, Option.bind_eq_bind, Option.bind_some,
    Option.bind_eq_some_iff, Option.some.injEq, Prod.mk.injEq] at halloc
  obtain ⟨p, hfound, ⟨p', a⟩, hblock, rfl, -⟩ := halloc
  exact ⟨p, p', hfound, memid_allocBlock hblock, rfl⟩

theorem Intact.free_cases {s s' : Registry} (h : Intact s) {memid addr : Nat} {ret : Int}
    (hfree : s.free memid addr = some (s', ret)) :
    s' = s ∨ ∃ p p', s.pools memid = some p ∧ p'.memid = p.memid ∧ s' = s.write memid p' := by
  simp only [Registry.free, h.getMemInfo_eq, Option.bind_eq_bind, Option.bind_some] at hfree
  cases hfound : s.pools memid with
  | none =>
      rw [hfound] at hfree
      cases hfree
      exact .inl rfl
  | some p =>
      simp only [hfound, Option.bind_eq_some_iff, Option.some.injEq, Prod.mk.injEq] at hfree
      obtain ⟨⟨p', ret'⟩, hblock, rfl, -⟩ := hfree
      exact .inr ⟨p, p', rfl, memid_freeBlk hblock, rfl⟩

/-- What an operation can do while no pool has been deleted: it leaves the registry
intact, or it deletes a pool, which can then not be looked up. -/
theorem Intact.step_cases {s s' : Registry} {op : RegOp} (h : Intact s)
    (hstep : regStep s op = some s') :
    (KeepsPools s op ∧ Intact s') ∨
      ∃ memid p, op = .delete memid ∧ s.pools memid = some p ∧ s'.getMemInfo memid = none := by
  cases op with
  | create size nBlks mcbOk area tableOk =>
      obtain ⟨⟨r, res⟩, hcreate, rfl⟩ := Option.map_eq_some_iff.mp hstep
      exact .inl ⟨trivial, h.of_create hcreate⟩
  | delete memid =>
      obtain ⟨⟨r, ret⟩, hdelete, rfl⟩ := Option.map_eq_some_iff.mp hstep
      simp only [Registry.delete, h.getMemInfo_eq, Option.bind_eq_bind, Option.bind_some] at hdelete
      cases hfound : s.pools memid with
      | none =>
          rw [hfound] at hdelete
          cases hdelete
          exact .inl ⟨hfound, h⟩
      | some p =>
          rw [hfound] at hdelete
          cases hdelete
          obtain ⟨hp, hid⟩ := getMemInfo_mem ((h.pools memid).trans hfound)
          refine .inr ⟨memid, p, rfl, hfound, walkMcb_eq_none hp hid ?_⟩
          rw [hid]
          exact List.mem_cons_self
  | alloc memid =>
      obtain ⟨⟨r, a⟩, halloc, rfl⟩ := Option.map_eq_some_iff.mp hstep
      obtain ⟨p, p', hfound, hid, rfl⟩ := h.alloc_cases halloc
      exact .inl ⟨trivial, h.of_write hfound hid⟩
  | free memid addr =>
      obtain ⟨⟨r, ret⟩, hfree, rfl⟩ := Option.map_eq_some_iff.mp hstep
      rcases h.free_cases hfree with rfl | ⟨p, p', hfound, hid, rfl⟩
      · exact .inl ⟨trivial, h⟩
      · exact .inl ⟨trivial, h.of_write hfound hid⟩

/-- The registry is what it should be all along a run if and only if no step of the run
deletes a pool. -/
theorem registryLaw_iff (ops : List RegOp) (s : Registry)
    (hrun : PartialSteps.run regStep initRegistry ops = some s) :
    PartialSteps.Always regStep RegistryLaw initRegistry ops ↔
      PartialSteps.Meets regStep KeepsPools initRegistry ops := by
  refine PartialSteps.always_iff_meets regStep (fun _ h => Intact.registryLaw h) ?_ intact_init hrun
  intro m op m' h hstep
  rcases h.step_cases hstep with ⟨hkeeps, hintact⟩ | ⟨memid, p, rfl, hfound, hnone⟩
  · exact ⟨fun _ => hintact, fun _ => hkeeps⟩
  · refine ⟨fun hkeeps => ?_, fun hlaw => ?_⟩
    · cases hfound.symm.trans hkeeps
    · cases hnone.symm.trans (hlaw.lookup memid)

/-- Two pools, from which blocks are taken and given back; the deletion names no pool. -/
def twoPools : List RegOp :=
  [.create 8 2 true 4096 true, .create 16 1 true 8192 true, .alloc 1, .alloc 2, .free 1 4096,
    .delete 3]

theorem registryLaw_twoPools :
    ∃ s, PartialSteps.run regStep initRegistry twoPools = some s ∧
      PartialSteps.Always regStep RegistryLaw initRegistry twoPools := by
  have hok : PartialSteps.Meets regStep KeepsPools initRegistry twoPools := by decide +kernel
  have hdone : (PartialSteps.run regStep initRegistry twoPools).isSome := by decide +kernel
  obtain ⟨s, hrun⟩ := Option.isSome_iff_exists.mp hdone
  exact ⟨s, hrun, (registryLaw_iff twoPools s hrun).mpr hok⟩

/-- After the first of two pools has been deleted, neither it nor the other one can be
looked up without reading the freed record. -/
theorem not_registryLaw_deleted :
    ∃ s, PartialSteps.run regStep initRegistry
        [.create 8 2 true 4096 true, .create 16 1 true 8192 true, .delete 1] = some s ∧
      s.delete 1 = none ∧ s.alloc 1 = none ∧ s.free 1 4096 = none ∧ (s.pools 2).isSome ∧
      s.getMemInfo 2 = none ∧ ¬ RegistryLaw s := by
  refine ⟨_, rfl, rfl, rfl, rfl, rfl, rfl, fun hlaw => ?_⟩
  cases hlaw.lookup 2

end Mem
end TmULThreads
