import Mathlib.Data.List.Basic
import Mathlib.Tactic

/-!
# Runs of a partial step function

A program is given by a state type, a type of steps and a function
`step : σ → ι → Option σ`; `none` means that the step has no defined outcome
in that state.  A run is a list of steps.  A condition on steps is a relation
between a step and the state it is taken in, and `Meets` says that every step
of a run satisfies it.

`run_invariant` is the induction rule used for every invariant: it is enough
to look at one step, in a state where the invariant holds and the condition is
met.
-/

namespace PartialSteps

variable {σ ι : Type*} (step : σ → ι → Option σ)

def run : σ → List ι → Option σ
  | s, [] => some s
  | s, i :: is =>
      match step s i with
      | none => none
      | some s' => run s' is

@[simp] theorem run_nil (s : σ) : run step s [] = some s := rfl

theorem run_cons {s : σ} {i : ι} {is : List ι} {s' : σ} :
    run step s (i :: is) = some s' ↔
      ∃ mid, step s i = some mid ∧ run step mid is = some s' := by
  cases hstep : step s i with
  | none => simp [run, hstep]
  | some mid => simp [run, hstep]

theorem run_map {κ : Type*} (f : κ → ι) (s : σ) (ks : List κ) :
    run step s (ks.map f) = run (fun s k => step s (f k)) s ks := by
  induction ks generalizing s with
  | nil => rfl
  | cons k ks ih =>
      simp only [List.map_cons, run]
      exact congrArg _ (funext ih)

theorem run_append {s : σ} {is js : List ι} {s' : σ} :
    run step s (is ++ js) = some s' ↔
      ∃ mid, run step s is = some mid ∧ run step mid js = some s' := by
  induction is generalizing s with
  | nil => simp
  | cons i is ih =>
      rw [List.cons_append, run_cons]
      constructor
      · rintro ⟨mid, hstep, hrun⟩
        obtain ⟨last, hfirst, hrest⟩ := ih.mp hrun
        exact ⟨last, (run_cons step).mpr ⟨mid, hstep, hfirst⟩, hrest⟩
      · rintro ⟨last, hfirst, hrest⟩
        obtain ⟨mid, hstep, hrun⟩ := (run_cons step).mp hfirst
        exact ⟨mid, hstep, ih.mpr ⟨last, hrun, hrest⟩⟩

/-- Every step of the run satisfies `ok` in the state it is taken in. -/
def Meets (ok : σ → ι → Prop) : σ → List ι → Prop
  | _, [] => True
  | s, i :: is => ok s i ∧ ∀ s', step s i = some s' → Meets ok s' is

theorem meets_trivial (s : σ) (is : List ι) : Meets step (fun _ _ => True) s is := by
  induction is generalizing s with
  | nil => trivial
  | cons i is ih => exact ⟨trivial, fun s' _ => ih s'⟩

variable {step} in
theorem Meets.cons {ok : σ → ι → Prop} {s s' : σ} {i : ι} {is : List ι}
    (hstep : step s i = some s') (hok : ok s i) (hrest : Meets step ok s' is) :
    Meets step ok s (i :: is) := by
  refine ⟨hok, fun s'' hs'' => ?_⟩
  obtain rfl : s' = s'' := Option.some.inj (hstep.symm.trans hs'')
  exact hrest

theorem meets_append {ok : σ → ι → Prop} {s : σ} {is js : List ι} {mid : σ}
    (hrun : run step s is = some mid) (h : Meets step ok s (is ++ js)) :
    Meets step ok s is ∧ Meets step ok mid js := by
  induction is generalizing s with
  | nil =>
      cases hrun
      exact ⟨trivial, h⟩
  | cons i is ih =>
      obtain ⟨next, hstep, hrest⟩ := (run_cons step).mp hrun
      obtain ⟨hok, hmeets⟩ := h
      refine ⟨⟨hok, fun s' hs' => ?_⟩, (ih hrest (hmeets next hstep)).2⟩
      obtain rfl : next = s' := Option.some.inj (hstep.symm.trans hs')
      exact (ih hrest (hmeets next hstep)).1

/-- A condition on the steps alone. -/
theorem meets_const_iff {ok : ι → Prop} {s : σ} {is : List ι} {s' : σ}
    (hrun : run step s is = some s') : Meets step (fun _ i => ok i) s is ↔ ∀ i ∈ is, ok i := by
  induction is generalizing s with
  | nil => simp [Meets]
  | cons i is ih =>
      obtain ⟨mid, hstep, hrest⟩ := (run_cons step).mp hrun
      rw [List.forall_mem_cons, ← ih hrest]
      exact ⟨fun h => ⟨h.1, h.2 mid hstep⟩, fun h => .cons hstep h.1 h.2⟩

/-- A condition that can be decided for each step can be decided for a run. -/
instance decidableMeets {ok : σ → ι → Prop} [∀ s i, Decidable (ok s i)] :
    ∀ (s : σ) (is : List ι), Decidable (Meets step ok s is)
  | _, [] => isTrue trivial
  | s, i :: is =>
      match h : step s i with
      | none => decidable_of_iff (ok s i) (by simp [Meets, h])
      | some s' =>
          have : Decidable (Meets step ok s' is) := decidableMeets s' is
          decidable_of_iff (ok s i ∧ Meets step ok s' is) (by simp [Meets, h])

/-- An invariant that every admitted step keeps holds after every admitted
run. -/
theorem run_invariant {ok : σ → ι → Prop} {I : σ → Prop}
    (hkeep : ∀ s i s', I s → ok s i → step s i = some s' → I s')
    {s : σ} {is : List ι} {s' : σ} (hinv : I s) (hok : Meets step ok s is)
    (hrun : run step s is = some s') : I s' := by
  induction is generalizing s with
  | nil =>
      cases hrun
      exact hinv
  | cons i is ih =>
      obtain ⟨mid, hstep, hrest⟩ := (run_cons step).mp hrun
      exact ih (hkeep s i mid hinv hok.1 hstep) (hok.2 mid hstep) hrest

/-- An invariant that every step keeps holds after every run. -/
theorem run_invariant_always {I : σ → Prop} (hkeep : ∀ s i s', I s → step s i = some s' → I s')
    {s : σ} {is : List ι} {s' : σ} (hinv : I s) (hrun : run step s is = some s') : I s' :=
  run_invariant step (fun s i s' h _ => hkeep s i s' h) hinv (meets_trivial step s is) hrun

/-- If a step makes a measure smaller as long as `P` does not hold, then repeating it
leads to `P`. -/
theorem run_reaches {I P : σ → Prop} (μ : σ → Nat) {i : ι}
    (hstep : ∀ s, I s → ¬ P s → ∃ s', step s i = some s' ∧ I s' ∧ μ s' < μ s) {s : σ} (hs : I s) :
    ∃ k s', run step s (List.replicate k i) = some s' ∧ I s' ∧ P s' := by
  induction hm : μ s using Nat.strong_induction_on generalizing s with
  | h m ih =>
      by_cases hp : P s
      · exact ⟨0, s, rfl, hs, hp⟩
      · obtain ⟨mid, hmid, hinv, hlt⟩ := hstep s hs hp
        obtain ⟨k, s', hrun, hlast⟩ := ih (μ mid) (hm ▸ hlt) hinv rfl
        exact ⟨k + 1, s', (run_cons step).mpr ⟨mid, hmid, hrun⟩, hlast⟩

/-- A property that a step keeps exactly when the step is acceptable, and that
no step restores, holds at the end of a run exactly when all steps were
acceptable. -/
theorem run_iff_meets {pre ok : σ → ι → Prop} {I P : σ → Prop}
    (hkeep : ∀ s i s', I s → pre s i → step s i = some s' → I s' ∧ (P s' ↔ P s ∧ ok s i))
    {s : σ} {is : List ι} {s' : σ} (hinv : I s) (hpre : Meets step pre s is)
    (hrun : run step s is = some s') : P s' ↔ P s ∧ Meets step ok s is := by
  induction is generalizing s with
  | nil =>
      cases hrun
      exact (and_iff_left trivial).symm
  | cons i is ih =>
      obtain ⟨mid, hstep, hrest⟩ := (run_cons step).mp hrun
      obtain ⟨hmid, hiff⟩ := hkeep s i mid hinv hpre.1 hstep
      rw [ih hmid (hpre.2 mid hstep) hrest, hiff, and_assoc]
      refine and_congr_right fun _ => and_congr_right fun _ => ?_
      constructor
      · intro hmeets s'' hs''
        obtain rfl : mid = s'' := Option.some.inj (hstep.symm.trans hs'')
        exact hmeets
      · exact fun hmeets => hmeets mid hstep

/-- The property holds in every state that the run goes through. -/
def Always (P : σ → Prop) : σ → List ι → Prop
  | s, [] => P s
  | s, i :: is => P s ∧ ∀ s', step s i = some s' → Always P s' is

theorem Always.head {P : σ → Prop} {s : σ} {is : List ι} (h : Always step P s is) : P s := by
  cases is with
  | nil => exact h
  | cons i is => exact h.1

/-- If the steps that are acceptable are those that keep a property, and they keep
the invariant behind it, then a run has the property all along exactly when all
its steps were acceptable. -/
theorem always_iff_meets {ok : σ → ι → Prop} {I P : σ → Prop} (hinv : ∀ s, I s → P s)
    (hkeep : ∀ s i s', I s → step s i = some s' → (ok s i → I s') ∧ (P s' → ok s i))
    {s : σ} {is : List ι} {s' : σ} (hs : I s) (hrun : run step s is = some s') :
    Always step P s is ↔ Meets step ok s is := by
  induction is generalizing s with
  | nil => exact iff_of_true (hinv s hs) trivial
  | cons i is ih =>
      obtain ⟨mid, hstep, hrest⟩ := (run_cons step).mp hrun
      obtain ⟨hnext, hback⟩ := hkeep s i mid hs hstep
      constructor
      · rintro ⟨-, halways⟩
        have hmid := halways mid hstep
        have hok := hback hmid.head
        exact .cons hstep hok ((ih (hnext hok) hrest).mp hmid)
      · rintro ⟨hok, hmeets⟩
        refine ⟨hinv s hs, fun s'' hs'' => ?_⟩
        obtain rfl : mid = s'' := Option.some.inj (hstep.symm.trans hs'')
        exact (ih (hnext hok) hrest).mpr (hmeets mid hstep)

end PartialSteps
