import Mathlib.Data.List.Basic

/-!
# Requests and answers

A ledger is a list of entries in the order they were made.  Some entries are
requests and some are answers; a request is outstanding as long as no answer has
been entered after it.  `outstanding_concat` says how one more entry changes that,
and it is all that a proof about a growing ledger needs.

`Throughout` relates every entry to those before it, and `throughout_concat` is the
corresponding rule.  A ledger is silent about a kind of entry if none was made while a
request was outstanding.
-/

namespace Ledger

variable {ν : Type*} {req ans : ν → Prop}

/-- Some request has no answer after it. -/
def Outstanding (req ans : ν → Prop) (log : List ν) : Prop :=
  ∃ before n after, log = before ++ n :: after ∧ req n ∧ ∀ m ∈ after, ¬ ans m

theorem not_outstanding_nil : ¬ Outstanding req ans [] := by
  rintro ⟨before, n, after, hlog, -⟩
  simp at hlog

theorem outstanding_concat {log : List ν} {m : ν} :
    Outstanding req ans (log ++ [m]) ↔ req m ∨ (Outstanding req ans log ∧ ¬ ans m) := by
  constructor
  · rintro ⟨before, n, after, hlog, hreq, hans⟩
    -- the new entry is the request itself or comes after it
    rcases List.eq_nil_or_concat after with rfl | ⟨rest, last, rfl⟩
    · obtain ⟨-, hlast⟩ := List.append_inj' hlog rfl
      cases hlast
      exact .inl hreq
    · rw [List.concat_eq_append] at hlog hans
      have hsplit : log ++ [m] = (before ++ n :: rest) ++ [last] := by
        rw [hlog, List.append_assoc]
        rfl
      obtain ⟨hlog', hlast⟩ := List.append_inj' hsplit rfl
      cases hlast
      refine .inr ⟨⟨before, n, rest, hlog', hreq, fun k hk => ?_⟩, ?_⟩
      · exact hans k (List.mem_append_left _ hk)
      · exact hans m (List.mem_append_right _ List.mem_cons_self)
  · rintro (hreq | ⟨⟨before, n, after, rfl, hreq, hans⟩, hm⟩)
    · exact ⟨log, m, [], rfl, hreq, fun _ hk => absurd hk List.not_mem_nil⟩
    · refine ⟨before, n, after ++ [m], by simp, hreq, fun k hk => ?_⟩
      rcases List.mem_append.mp hk with hk | hk
      · exact hans k hk
      · rw [List.mem_singleton.mp hk]
        exact hm

/-- Every entry is related to the entries before it. -/
def Throughout (P : List ν → ν → Prop) (log : List ν) : Prop :=
  ∀ before n after, log = before ++ n :: after → P before n

theorem throughout_nil {P : List ν → ν → Prop} : Throughout P [] := by
  intro before n after hlog
  simp at hlog

theorem throughout_concat {P : List ν → ν → Prop} {log : List ν} {m : ν} :
    Throughout P (log ++ [m]) ↔ Throughout P log ∧ P log m := by
  constructor
  · intro h
    refine ⟨fun before n after hlog => ?_, h log m [] rfl⟩
    exact h before n (after ++ [m]) (by rw [hlog]; simp)
  · rintro ⟨hold, hnew⟩ before n after hlog
    -- the entry is the new one or an old one
    rcases List.eq_nil_or_concat after with rfl | ⟨rest, last, rfl⟩
    · obtain ⟨rfl, hlast⟩ := List.append_inj' hlog rfl
      cases hlast
      exact hnew
    · have hsplit : log ++ [m] = (before ++ n :: rest) ++ [last] := by
        rw [hlog, List.concat_eq_append, List.append_assoc]
        rfl
      exact hold before n rest (List.append_inj' hsplit rfl).1

/-- No entry of the kind `bad` was made while a request was outstanding. -/
def Silent (req ans bad : ν → Prop) : List ν → Prop :=
  Throughout fun before n => bad n → ¬ Outstanding req ans before

end Ledger
