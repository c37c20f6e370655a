import TmULThreads.Lib.PartialSteps
import Mathlib.Data.Nat.ModEq

/-!
# A metered heap

A heap of named blocks with a counter beside it.  The counter is charged with the size of
every request, whether it succeeds or not, and is credited only by a `release`; a block
that is dropped leaves the counter as it is.  Arithmetic of the counter is modulo `m`, and
a request succeeds only if all blocks together stay below `m` bytes.

The counter is exact if it is the total of the blocks.  An event moves the two apart by
its `own` cost, a sequence of events by its `cost`, so a sequence from an exact heap ends
in an exact one if and only if its cost is zero modulo `m` (`run_exact_iff`).
-/

namespace Meter

inductive Event (β : Type*) where
  | alloc (b : β) (size : Nat) (ok : Bool)
  | release (b : β) (size : Nat)
  | drop (b : β)
  deriving DecidableEq, Repr

structure Heap (β : Type*) where
  meter : Nat
  blocks : List (β × Nat)
  deriving DecidableEq, Repr

variable {β : Type*}

def Heap.total (h : Heap β) : Nat := (h.blocks.map Prod.snd).sum

def Heap.Exact (h : Heap β) : Prop := h.meter = h.total

instance (h : Heap β) : Decidable h.Exact := inferInstanceAs (Decidable (_ = _))

structure Heap.Bounded (m : Nat) (h : Heap β) : Prop where
  meter : h.meter < m
  total : h.total < m

/-- The counter is `d` above the total. -/
def Heap.Over (m : Nat) (h : Heap β) (d : Nat) : Prop := h.meter ≡ h.total + d [MOD m]

/-- The counter grows by `n`, as an unsigned number below `m`. -/
def Heap.charge (m : Nat) (h : Heap β) (n : Nat) : Heap β := { h with meter := (h.meter + n) % m }

def Heap.push (h : Heap β) (b : β) (size : Nat) : Heap β :=
  { h with blocks := (b, size) :: h.blocks }

def Event.block : Event β → β
  | .alloc b _ _ | .release b _ | .drop b => b

variable [DecidableEq β]

/-- The bytes that are held under a name. -/
def Heap.held (h : Heap β) (b : β) : Nat :=
  ((h.blocks.filter fun x => x.1 = b).map Prod.snd).sum

def Heap.remove (h : Heap β) (b : β) : Heap β :=
  { h with blocks := h.blocks.filter fun x => x.1 ≠ b }

variable (m : Nat)

def Heap.apply (h : Heap β) : Event β → Heap β
  | .alloc b size true => (h.charge m size).push b size
  | .alloc _ size false => h.charge m size
  | .release b size => (h.charge m (m - size % m)).remove b
  | .drop b => h.remove b

def Fits (h : Heap β) : Event β → Prop
  | .alloc _ size true => h.total + size < m
  | _ => True

instance (h : Heap β) : ∀ e, Decidable (Fits m h e)
  | .alloc _ size true => inferInstanceAs (Decidable (h.total + size < m))
  | .alloc _ _ false | .release .. | .drop _ => isTrue trivial

def exec (h : Heap β) (e : Event β) : Option (Heap β) :=
  if Fits m h e then some (h.apply m e) else none

/-- How far an event moves the counter above the total, modulo `m`. -/
def own (h : Heap β) : Event β → Nat
  | .alloc _ _ true => 0
  | .alloc _ size false => size
  | .release b size => h.held b + (m - size % m)
  | .drop b => h.held b

def cost (h : Heap β) : List (Event β) → Nat
  | [] => 0
  | e :: es => own m h e + cost (h.apply m e) es

/-! ## Totals -/

section Totals

variable (h : Heap β) (b b' : β) (n : Nat)

@[simp] theorem held_charge : (h.charge m n).held b = h.held b := by
  simp only [Heap.held, Heap.charge]

omit [DecidableEq β] in
@[simp] theorem total_charge : (h.charge m n).total = h.total := by
  simp only [Heap.total, Heap.charge]

omit [DecidableEq β] in
@[simp] theorem total_push : (h.push b n).total = h.total + n := by
  simp [Heap.total, Heap.push, Nat.add_comm]

@[simp] theorem held_push : (h.push b n).held b' = h.held b' + if b = b' then n else 0 := by
  by_cases hb : b = b'
  · simp [Heap.held, Heap.push, hb, Nat.add_comm]
  · simp [Heap.held, Heap.push, hb]

@[simp] theorem held_remove : (h.remove b).held b' = if b = b' then 0 else h.held b' := by
  unfold Heap.held Heap.remove
  rw [List.filter_filter]
  by_cases hb : b = b'
  · subst hb
    simp
  · rw [if_neg hb]
    -- an entry under `b'` is not one of those that have gone
    have hkept (x : β × Nat) : (decide (x.1 = b') && decide (x.1 ≠ b)) = decide (x.1 = b') := by
      by_cases hx : x.1 = b'
      · simp [hx, Ne.symm hb]
      · simp [hx]
    simp only [hkept]

/-- A removal takes away what is held under the name. -/
theorem total_remove : (h.remove b).total + h.held b = h.total := by
  unfold Heap.total Heap.held Heap.remove
  induction h.blocks with
  | nil => rfl
  | cons x xs ih =>
      by_cases hx : x.1 = b
      · simp only [List.filter_cons, hx, ne_eq, not_true_eq_false, decide_false,
          Bool.false_eq_true, if_false, decide_true, if_true, List.map_cons, List.sum_cons] at ih ⊢
        omega
      · simp only [List.filter_cons, hx, ne_eq, not_false_eq_true, decide_true, if_true,
          decide_false, Bool.false_eq_true, if_false, List.map_cons, List.sum_cons] at ih ⊢
        omega

end Totals

/-! ## Events -/

variable {m}

theorem Heap.Bounded.apply {h : Heap β} (hb : h.Bounded m) {e : Event β} (hfits : Fits m h e) :
    (h.apply m e).Bounded m := by
  have hpos : 0 < m := Nat.zero_lt_of_lt hb.total
  cases e with
  | alloc b size ok =>
      cases ok with
      | true =>
          refine ⟨Nat.mod_lt _ hpos, ?_⟩
          rw [Heap.apply, total_push, total_charge]
          exact hfits
      | false => exact ⟨Nat.mod_lt _ hpos, hb.total⟩
  | release b size =>
      refine ⟨Nat.mod_lt _ hpos, ?_⟩
      have hsplit := total_remove (h.charge m (m - size % m)) b
      have htotal := hb.total
      rw [total_charge] at hsplit
      rw [Heap.apply]
      omega
  | drop b =>
      refine ⟨hb.meter, ?_⟩
      have hsplit := total_remove h b
      have htotal := hb.total
      rw [Heap.apply]
      omega

theorem Heap.Over.apply {h : Heap β} {d : Nat} (hd : h.Over m d) (e : Event β) :
    (h.apply m e).Over m (d + own m h e) := by
  unfold Heap.Over at hd ⊢
  have hcharge (n : Nat) : (h.meter + n) % m ≡ h.total + d + n [MOD m] :=
    (Nat.mod_modEq _ _).trans (hd.add_right n)
  cases e with
  | alloc b size ok =>
      cases ok with
      | true =>
          rw [Heap.apply, own, total_push, total_charge, Nat.add_right_comm]
          exact hcharge size
      | false =>
          rw [Heap.apply, own, total_charge, ← Nat.add_assoc]
          exact hcharge size
  | release b size =>
      have hsplit := total_remove (h.charge m (m - size % m)) b
      rw [total_charge, held_charge] at hsplit
      have hsum : (h.charge m (m - size % m) |>.remove b).total + (d + (h.held b + (m - size % m))) =
          h.total + d + (m - size % m) := by omega
      rw [Heap.apply, own, hsum]
      exact hcharge _
  | drop b =>
      have hsplit := total_remove h b
      have hsum : (h.remove b).total + (d + h.held b) = h.total + d := by omega
      rw [Heap.apply, own, hsum]
      exact hd

omit [DecidableEq β] in
theorem exact_iff {h : Heap β} {d : Nat} (hb : h.Bounded m) (hd : h.Over m d) :
    h.Exact ↔ d ≡ 0 [MOD m] := by
  unfold Heap.Over at hd
  constructor
  · intro hexact
    have hzero : h.total + d ≡ h.total + 0 [MOD m] := by
      rw [Nat.add_zero]
      refine hd.symm.trans ?_
      rw [hexact]
    exact Nat.ModEq.add_left_cancel' h.total hzero
  · intro hzero
    have hsame : h.meter ≡ h.total [MOD m] := hd.trans (hzero.add_left h.total)
    exact hsame.eq_of_lt_of_lt hb.meter hb.total

theorem modEq_zero_iff {n : Nat} (h : n < m) : n ≡ 0 [MOD m] ↔ n = 0 := by
  rw [Nat.modEq_zero_iff_dvd]
  exact ⟨fun hdvd => Nat.eq_zero_of_dvd_of_lt hdvd h, fun hzero => hzero ▸ dvd_zero m⟩

/-! ## Sequences of events -/

theorem exec_eq_some {h h' : Heap β} {e : Event β} (hexec : exec m h e = some h') :
    Fits m h e ∧ h' = h.apply m e := by
  unfold exec at hexec
  split at hexec
  · rename_i hfits
    exact ⟨hfits, (Option.some.inj hexec).symm⟩
  · cases hexec

theorem run_over {h h' : Heap β} {es : List (Event β)} {d : Nat} (hb : h.Bounded m)
    (hd : h.Over m d) (hrun : PartialSteps.run (exec m) h es = some h') :
    h'.Bounded m ∧ h'.Over m (d + cost m h es) := by
  induction es generalizing h d with
  | nil =>
      cases hrun
      exact ⟨hb, hd⟩
  | cons e es ih =>
      obtain ⟨mid, hexec, hrest⟩ := (PartialSteps.run_cons (exec m)).mp hrun
      obtain ⟨hfits, rfl⟩ := exec_eq_some hexec
      rw [cost, ← Nat.add_assoc]
      exact ih (hb.apply hfits) (hd.apply e) hrest

/-- From an exact heap a sequence of events leads to an exact one if and only if its cost
is zero. -/
theorem run_exact_iff {h h' : Heap β} {es : List (Event β)} (hb : h.Bounded m) (hexact : h.Exact)
    (hrun : PartialSteps.run (exec m) h es = some h') :
    h'.Bounded m ∧ (h'.Exact ↔ cost m h es ≡ 0 [MOD m]) := by
  have hover : h.Over m 0 := by
    unfold Heap.Over
    rw [hexact]
    rfl
  obtain ⟨hb', hd⟩ := run_over hb hover hrun
  rw [Nat.zero_add] at hd
  exact ⟨hb', exact_iff hb' hd⟩

/-- The heap after a sequence of events that are all possible. -/
theorem run_eq_foldl {h h' : Heap β} {es : List (Event β)}
    (hrun : PartialSteps.run (exec m) h es = some h') : h' = es.foldl (Heap.apply m) h := by
  induction es generalizing h with
  | nil => exact (Option.some.inj hrun).symm
  | cons e es ih =>
      obtain ⟨mid, hexec, hrest⟩ := (PartialSteps.run_cons (exec m)).mp hrun
      obtain ⟨-, rfl⟩ := exec_eq_some hexec
      exact ih hrest

theorem held_apply_of_ne {b : β} (h : Heap β) {e : Event β} (hne : e.block ≠ b) :
    (h.apply m e).held b = h.held b := by
  cases e with
  | alloc b₀ size ok =>
      replace hne : b₀ ≠ b := hne
      cases ok with
      | true => simp only [Heap.apply, held_push, held_charge, if_neg hne, Nat.add_zero]
      | false => rfl
  | release b₀ size =>
      replace hne : b₀ ≠ b := hne
      simp only [Heap.apply, held_remove, held_charge, if_neg hne]
  | drop b₀ =>
      replace hne : b₀ ≠ b := hne
      simp only [Heap.apply, held_remove, if_neg hne]

theorem cost_append (h : Heap β) (es fs : List (Event β)) :
    cost m h (es ++ fs) = cost m h es + cost m (es.foldl (Heap.apply m) h) fs := by
  induction es generalizing h with
  | nil => rw [List.nil_append, cost, Nat.zero_add, List.foldl_nil]
  | cons e es ih => rw [List.cons_append, cost, cost, ih, List.foldl_cons, Nat.add_assoc]

/-- Events under other names leave what is held under `b` as it is. -/
theorem held_foldl_of_ne {b : β} (h : Heap β) {es : List (Event β)} (hne : ∀ e ∈ es, e.block ≠ b) :
    (es.foldl (Heap.apply m) h).held b = h.held b := by
  induction es generalizing h with
  | nil => rfl
  | cons e es ih =>
      have hrest := ih (h.apply m e) fun e he => hne e (List.mem_cons_of_mem _ he)
      rw [List.foldl_cons, hrest]
      exact held_apply_of_ne h (hne e List.mem_cons_self)

/-- A release of the size that is held costs a full turn of the counter. -/
theorem own_release {h : Heap β} {b : β} {size : Nat} (hsize : size < m) (hheld : h.held b = size) :
    own m h (.release b size) = m := by
  rw [own, hheld, Nat.mod_eq_of_lt hsize]
  omega

/-- Dropping blocks costs at most what there is. -/
theorem cost_drops_le (h : Heap β) (bs : List β) : cost m h (bs.map .drop) ≤ h.total := by
  induction bs generalizing h with
  | nil => exact Nat.zero_le _
  | cons b bs ih =>
      have hrest := ih (h.remove b)
      have hsplit := total_remove h b
      simp only [List.map_cons, cost, own, Heap.apply]
      omega

end Meter
