import Mathlib.Data.List.Chain
import Mathlib.Data.List.Nodup
import Mathlib.Logic.Function.Basic
import Mathlib.Tactic.Tauto

/-!
# Circular doubly linked lists

A list is threaded through its elements: each of them has a link to the next one and a link
to the one before, and the head, which is no element, closes the circle.  `Links` are these
links of all nodes at once; `none` is a pointer to no node.

The only write that the operations on such lists are made of is `join`, which makes one node
follow another.  `Ring m h l` says that the links form a circle through the head `h` and the
elements `l`; `Ring.remove` and `Ring.insert` say what joins do to a ring that they are made
in, and `Ring.congr` that a ring is not disturbed by writes elsewhere.  That different rings
have no element in common needs no assumption (`Ring.head_eq`): the links lead from an
element to one head only.
-/

namespace CircularList

structure Links (α : Type*) where
  next : α → Option α
  prev : α → Option α

variable {α : Type*} {m m' : Links α} {a b c d h x : α} {l front back : List α}

namespace Links

/-- `b` follows `a`. -/
def Adj (m : Links α) (a b : α) : Prop := m.next a = some b ∧ m.prev b = some a

/-- The links of `c` have not changed. -/
def SameAt (m m' : Links α) (c : α) : Prop := m'.next c = m.next c ∧ m'.prev c = m.prev c

theorem SameAt.refl (m : Links α) (c : α) : SameAt m m c := ⟨rfl, rfl⟩

theorem SameAt.trans {m'' : Links α} (h : SameAt m m' c) (h' : SameAt m' m'' c) :
    SameAt m m'' c :=
  ⟨h'.1.trans h.1, h'.2.trans h.2⟩

section Join

variable [DecidableEq α]

/-- Makes `b` follow `a`. -/
def join (m : Links α) (a b : α) : Links α where
  next := Function.update m.next a (some b)
  prev := Function.update m.prev b (some a)

theorem join_next_of_ne (hne : c ≠ a) : (m.join a b).next c = m.next c :=
  Function.update_of_ne hne ..

theorem join_prev_of_ne (hne : c ≠ b) : (m.join a b).prev c = m.prev c :=
  Function.update_of_ne hne ..

theorem sameAt_join (ha : c ≠ a) (hb : c ≠ b) : SameAt m (m.join a b) c :=
  ⟨join_next_of_ne ha, join_prev_of_ne hb⟩

theorem join_join (m : Links α) (a b : α) : (m.join a b).join a b = m.join a b := by
  simp only [join, Function.update_idem]

theorem adj_join (m : Links α) (a b : α) : (m.join a b).Adj a b :=
  ⟨Function.update_self .., Function.update_self ..⟩

theorem Adj.join (hadj : m.Adj c d) (hc : c ≠ a) (hd : d ≠ b) : (m.join a b).Adj c d :=
  ⟨(join_next_of_ne hc).trans hadj.1, (join_prev_of_ne hd).trans hadj.2⟩

/-- A join disturbs a path only at a link that leaves `a` or enters `b`. -/
theorem isChain_join (hl : l.IsChain m.Adj) (ha : a ∉ l.dropLast) (hb : b ∉ l.tail) :
    l.IsChain (m.join a b).Adj := by
  induction hl with
  | nil => exact .nil
  | singleton c => exact .singleton c
  | @cons_cons c d rest hadj _ ih =>
      rw [List.dropLast_cons_cons, List.mem_cons, not_or] at ha
      rw [List.tail_cons, List.mem_cons, not_or] at hb
      have hrest : b ∉ (d :: rest).tail := hb.2
      exact .cons_cons (hadj.join (Ne.symm ha.1) (Ne.symm hb.1)) (ih ha.2 hrest)

end Join

/-- Paths that start at one node and go to a head without passing the other head go to the
same head. -/
theorem end_eq {h' : α} {l' : List α} (hl : (a :: (l ++ [h])).IsChain m.Adj)
    (hl' : (a :: (l' ++ [h'])).IsChain m.Adj) (hout : h ∉ l') (hout' : h' ∉ l) : h = h' := by
  induction l generalizing a l' with
  | nil =>
      have hadj : m.Adj a h := List.isChain_pair.mp hl
      cases l' with
      | nil =>
          have hadj' : m.Adj a h' := List.isChain_pair.mp hl'
          exact Option.some.inj (hadj.1.symm.trans hadj'.1)
      | cons y rest' =>
          have hadj' : m.Adj a y := (List.isChain_cons_cons.mp hl').1
          obtain rfl : h = y := Option.some.inj (hadj.1.symm.trans hadj'.1)
          exact absurd List.mem_cons_self hout
  | cons y rest ih =>
      obtain ⟨hadj, hrest⟩ := List.isChain_cons_cons.mp hl
      cases l' with
      | nil =>
          have hadj' : m.Adj a h' := List.isChain_pair.mp hl'
          obtain rfl : h' = y := Option.some.inj (hadj'.1.symm.trans hadj.1)
          exact absurd List.mem_cons_self hout'
      | cons y' rest' =>
          obtain ⟨hadj', hrest'⟩ := List.isChain_cons_cons.mp hl'
          obtain rfl : y = y' := Option.some.inj (hadj.1.symm.trans hadj'.1)
          exact ih hrest hrest' (fun hmem => hout (List.mem_cons_of_mem y hmem))
            fun hmem => hout' (List.mem_cons_of_mem y hmem)

end Links

open Links

/-- A circle through the head `h` and the elements `l`, in this order. -/
structure Ring (m : Links α) (h : α) (l : List α) : Prop where
  chain : (h :: (l ++ [h])).IsChain m.Adj
  nodup : (h :: l).Nodup

namespace Ring

/-- Only the links of the head and of the elements matter. -/
theorem congr (hr : Ring m h l) (hsame : ∀ c ∈ h :: l, SameAt m m' c) : Ring m' h l where
  chain := by
    have hmem (c : α) (hc : c ∈ h :: (l ++ [h])) : c ∈ h :: l := by
      simp only [List.mem_cons, List.mem_append, List.not_mem_nil, or_false] at hc ⊢
      tauto
    refine hr.chain.imp_of_mem_imp fun c d hc hd hadj => ?_
    exact ⟨(hsame c (hmem c hc)).1.trans hadj.1, (hsame d (hmem d hd)).2.trans hadj.2⟩
  nodup := hr.nodup

/-- The node behind the head is the first element, or the head again. -/
theorem next_head (hr : Ring m h l) : m.next h = some (l.head?.getD h) := by
  have hchain := hr.chain
  cases l with
  | nil => exact (List.isChain_pair.mp hchain).1
  | cons a rest => exact (List.isChain_cons_cons.mp hchain).1.1

/-- The two sides of an element, and how it is linked to them. -/
theorem sides (hr : Ring m h (front ++ a :: back)) :
    (h :: front).IsChain m.Adj ∧ (back ++ [h]).IsChain m.Adj ∧
      (∀ p ∈ (h :: front).getLast?, m.Adj p a) ∧ ∀ n ∈ (back ++ [h]).head?, m.Adj a n := by
  have hchain : ((h :: front) ++ ([a] ++ (back ++ [h]))).IsChain m.Adj := by
    simpa using hr.chain
  obtain ⟨hfront, hrest, hleft⟩ := List.isChain_append.mp hchain
  obtain ⟨-, hback, hright⟩ := List.isChain_append.mp hrest
  exact ⟨hfront, hback, fun p hp => hleft p hp a rfl, hright a rfl⟩

theorem exists_next (hr : Ring m h l) (hx : x ∈ h :: l) : ∃ n, m.next x = some n := by
  rcases List.mem_cons.mp hx with rfl | hmem
  · exact ⟨_, hr.next_head⟩
  · obtain ⟨front, back, rfl⟩ := List.append_of_mem hmem
    obtain ⟨-, -, -, hright⟩ := hr.sides
    obtain ⟨n, hn⟩ : ∃ n, (back ++ [h]).head? = some n := by
      cases back with
      | nil => exact ⟨h, rfl⟩
      | cons b back => exact ⟨b, rfl⟩
    exact ⟨n, (hright n hn).1⟩

/-- An element is in one ring only. -/
theorem head_eq {h' : α} {l' : List α} (hr : Ring m h l) (hr' : Ring m h' l') (ha : a ∈ l)
    (ha' : a ∈ l') (hout : h ∉ l') (hout' : h' ∉ l) : h = h' := by
  obtain ⟨front, back, rfl⟩ := List.append_of_mem ha
  obtain ⟨front', back', rfl⟩ := List.append_of_mem ha'
  have hpath : (a :: (back ++ [h])).IsChain m.Adj := by
    have hchain : ((h :: front) ++ a :: (back ++ [h])).IsChain m.Adj := by simpa using hr.chain
    exact (List.isChain_split.mp hchain).2
  have hpath' : (a :: (back' ++ [h'])).IsChain m.Adj := by
    have hchain : ((h' :: front') ++ a :: (back' ++ [h'])).IsChain m.Adj := by
      simpa using hr'.chain
    exact (List.isChain_split.mp hchain).2
  refine end_eq hpath hpath' (fun hmem => hout ?_) fun hmem => hout' ?_
  · exact List.mem_append_right _ (List.mem_cons_of_mem a hmem)
  · exact List.mem_append_right _ (List.mem_cons_of_mem a hmem)

section Operations

variable [DecidableEq α]

/-- Joining the neighbours of an element takes it out. -/
theorem remove {p n : α} (hr : Ring m h (front ++ a :: back))
    (hp : (h :: front).getLast? = some p) (hn : (back ++ [h]).head? = some n) :
    Ring (m.join p n) h (front ++ back) := by
  obtain ⟨hfront, hback, -, -⟩ := hr.sides
  have hnodup : ((h :: front) ++ a :: back).Nodup := hr.nodup
  obtain ⟨hnodupFront, -, hdisjoint⟩ := List.nodup_append'.mp hnodup
  have hpmem : p ∈ h :: front := List.mem_of_mem_getLast? hp
  have hpback : p ∉ back := fun hmem => hdisjoint hpmem (List.mem_cons_of_mem a hmem)
  -- the head stands at the start of the one side and at the end of the other
  have hnodupBack : (back ++ [h]).Nodup := by
    have hsub : back.Sublist (front ++ a :: back) :=
      (List.sublist_cons_self a back).trans (List.sublist_append_right ..)
    exact List.nodup_append_comm.mp (hnodup.sublist (hsub.cons_cons h))
  have hpfirst : p ∉ (h :: front).dropLast := by
    intro hmem
    have hsplit := List.dropLast_append_getLast? p hp
    rw [← hsplit] at hnodupFront
    exact (List.nodup_append'.mp hnodupFront).2.2 hmem (List.mem_singleton_self p)
  have hnfront : n ∉ front := by
    intro hmem
    rcases List.mem_append.mp (List.mem_of_mem_head? hn) with hback' | hhead
    · exact hdisjoint (List.mem_cons_of_mem h hmem) (List.mem_cons_of_mem a hback')
    · rw [List.mem_singleton.mp hhead] at hmem
      exact (List.nodup_cons.mp hnodupFront).1 hmem
  have hnback : n ∉ (back ++ [h]).tail := by
    obtain ⟨rest, hrest⟩ := List.head?_eq_some_iff.mp hn
    rw [hrest] at hnodupBack ⊢
    exact (List.nodup_cons.mp hnodupBack).1
  constructor
  · have hchain : ((h :: front) ++ (back ++ [h])).IsChain (m.join p n).Adj := by
      refine List.isChain_append.mpr ⟨isChain_join hfront hpfirst hnfront,
        isChain_join hback ?_ hnback, fun c hc d hd => ?_⟩
      · rwa [List.dropLast_concat]
      · obtain rfl := Option.some.inj (hp.symm.trans hc)
        obtain rfl := Option.some.inj (hn.symm.trans hd)
        exact adj_join ..
    simpa using hchain
  · have hsub : ((h :: front) ++ back).Sublist ((h :: front) ++ a :: back) :=
      (List.sublist_cons_self a back).append_left _
    exact hnodup.sublist hsub

/-- A new node is linked behind the head. -/
theorem insert {n : α} (hr : Ring m h l) (hx : x ∉ h :: l) (hn : m.next h = some n) :
    Ring ((m.join x n).join h x) h (x :: l) := by
  obtain ⟨hhead, hlnodup⟩ := List.nodup_cons.mp hr.nodup
  obtain ⟨hxh, hxl⟩ := not_or.mp (mt List.mem_cons.mpr hx)
  -- the old path from the first node on
  obtain ⟨rest, hrest⟩ : ∃ rest, l ++ [h] = n :: rest := by
    have hfirst : n = l.head?.getD h := Option.some.inj (hn.symm.trans hr.next_head)
    cases l with
    | nil => exact ⟨[], by rw [hfirst]; rfl⟩
    | cons a l => exact ⟨l ++ [h], by rw [hfirst]; rfl⟩
  have hnodup : (n :: rest).Nodup := by
    rw [← hrest]
    exact List.nodup_append_comm.mp hr.nodup
  have hdrop : (n :: rest).dropLast = l := by rw [← hrest, List.dropLast_concat]
  have hxmem : x ∉ n :: rest := by
    rw [← hrest, List.mem_append, List.mem_singleton, not_or]
    exact ⟨hxl, hxh⟩
  have hpath : (n :: rest).IsChain m.Adj := by
    have hchain := hr.chain
    rw [hrest] at hchain
    exact (List.isChain_cons_cons.mp hchain).2
  have hpath' : (n :: rest).IsChain ((m.join x n).join h x).Adj := by
    refine isChain_join (isChain_join hpath ?_ (List.nodup_cons.mp hnodup).1) ?_ ?_
    · rw [hdrop]
      exact hxl
    · rw [hdrop]
      exact hhead
    · exact fun hmem => hxmem (List.mem_cons_of_mem n hmem)
  have hfirst : ((m.join x n).join h x).Adj x n :=
    (adj_join m x n).join hxh fun heq => hxmem (heq ▸ List.mem_cons_self)
  constructor
  · rw [List.cons_append, hrest]
    exact .cons_cons (adj_join ..) (.cons_cons hfirst hpath')
  · exact List.nodup_cons.mpr ⟨fun hmem => (List.mem_cons.mp hmem).elim (Ne.symm hxh) hhead,
      List.nodup_cons.mpr ⟨hxl, hlnodup⟩⟩

end Operations

end Ring
end CircularList
