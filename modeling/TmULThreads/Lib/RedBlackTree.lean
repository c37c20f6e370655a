import Mathlib.Data.List.Perm.Basic
import Mathlib.Order.Basic
import Mathlib.Tactic

/-!
# Red-black trees edited through a path to the root

A pointer implementation of red-black trees walks from a node to the root
through parent pointers.  Here the same walk is a list of frames: the nearest
frame is the parent, the last one is the root.  Insertion links a red leaf at
the end of a descent and recolours or rotates upwards; removal unlinks a node
(or its in-order successor) and repairs the missing black node upwards.

Nothing below depends on the balance invariant.  What a client of the tree
needs is the in-order sequence, and every operation is described by its effect
on that sequence:

* `insert_toList` puts the new element behind all elements that do not exceed
  it, when the sequence is weakly ordered by its keys;
* `erase_toList` drops exactly one element, the one that was looked for;
* `search_eq_some` and `search_eq_none` say that a descent by key comparison
  is a complete search of a weakly ordered sequence, equal keys included.
-/

namespace RedBlackTree

inductive Color where
  | red
  | black
  deriving DecidableEq, Repr

inductive RBTree (α : Type*) where
  | nil
  | node (color : Color) (left : RBTree α) (value : α) (right : RBTree α)
  deriving DecidableEq, Repr

/-- One parent on the way to the root, seen from the subtree below it. -/
inductive Frame (α : Type*) where
  | inLeft (color : Color) (value : α) (right : RBTree α)
  | inRight (color : Color) (left : RBTree α) (value : α)

variable {α : Type*}

namespace RBTree

/-- The in-order sequence. -/
def toList : RBTree α → List α
  | nil => []
  | node _ l v r => l.toList ++ v :: r.toList

@[simp] theorem toList_nil : (nil : RBTree α).toList = [] := rfl

@[simp] theorem toList_node (c : Color) (l : RBTree α) (v : α) (r : RBTree α) :
    (node c l v r).toList = l.toList ++ v :: r.toList := rfl

def isEmpty : RBTree α → Bool
  | nil => true
  | node _ _ _ _ => false

theorem isEmpty_iff (t : RBTree α) : t.isEmpty = true ↔ t.toList = [] := by
  cases t <;> simp [isEmpty]

def size : RBTree α → Nat
  | nil => 0
  | node _ l _ r => l.size + r.size + 1

theorem size_eq_length (t : RBTree α) : t.size = t.toList.length := by
  induction t with
  | nil => rfl
  | node c l v r ihl ihr =>
      simp only [size, toList_node, List.length_append, List.length_cons, ihl, ihr]
      omega

/-- A missing child counts as black. -/
def isRed : RBTree α → Bool
  | node .red _ _ _ => true
  | _ => false

def blacken : RBTree α → RBTree α
  | nil => nil
  | node _ l v r => node .black l v r

@[simp] theorem toList_blacken (t : RBTree α) : t.blacken.toList = t.toList := by
  cases t <;> rfl

end RBTree

open RedBlackTree.RBTree

/-- Rebuild the whole tree around a subtree. -/
def plug : List (Frame α) → RBTree α → RBTree α
  | [], t => t
  | .inLeft c v r :: ctx, t => plug ctx (node c t v r)
  | .inRight c l v :: ctx, t => plug ctx (node c l v t)

/-- The part of the in-order sequence before the hole of a context. -/
def before : List (Frame α) → List α
  | [] => []
  | .inLeft _ _ _ :: ctx => before ctx
  | .inRight _ l v :: ctx => before ctx ++ l.toList ++ [v]

/-- The part of the in-order sequence behind the hole of a context. -/
def after : List (Frame α) → List α
  | [] => []
  | .inLeft _ v r :: ctx => v :: r.toList ++ after ctx
  | .inRight _ _ _ :: ctx => after ctx

@[simp] theorem toList_plug (ctx : List (Frame α)) (t : RBTree α) :
    (plug ctx t).toList = before ctx ++ t.toList ++ after ctx := by
  induction ctx generalizing t with
  | nil => simp [plug, before, after]
  | cons f ctx ih =>
      cases f with
      | inLeft c v r => simp [plug, before, after, ih]
      | inRight c l v => simp [plug, before, after, ih]

theorem before_append (ctx rest : List (Frame α)) :
    before (ctx ++ rest) = before rest ++ before ctx := by
  induction ctx with
  | nil => simp [before]
  | cons f ctx ih => cases f <;> simp [before, ih]

theorem after_append (ctx rest : List (Frame α)) :
    after (ctx ++ rest) = after ctx ++ after rest := by
  induction ctx with
  | nil => simp [after]
  | cons f ctx ih => cases f <;> simp [after, ih]

/-! ## Insertion -/

/-- Repair after a red node was linked: the focus is red, and the loop runs
while its parent is red as well.  A red parent without a grandparent would be
a red root, where only the final blackening remains. -/
def insertColor : RBTree α → List (Frame α) → RBTree α
  | t, [] => t.blacken
  | t, [f] => (plug [f] t).blacken
  | t, .inLeft .black v r :: g :: ctx => (plug (.inLeft .black v r :: g :: ctx) t).blacken
  | t, .inRight .black l v :: g :: ctx => (plug (.inRight .black l v :: g :: ctx) t).blacken
  | t, .inLeft .red pv pr :: .inLeft _ gv uncle :: ctx =>
      if uncle.isRed then
        insertColor (node .red (node .black t pv pr) gv uncle.blacken) ctx
      else
        (plug ctx (node .black t pv (node .red pr gv uncle))).blacken
  | t, .inRight .red pl pv :: .inLeft gc gv uncle :: ctx =>
      if uncle.isRed then
        insertColor (node .red (node .black pl pv t) gv uncle.blacken) ctx
      else
        match t with
        | nil => (plug (.inRight .red pl pv :: .inLeft gc gv uncle :: ctx) nil).blacken
        | node _ nl nv nr =>
            (plug ctx (node .black (node .red pl pv nl) nv (node .red nr gv uncle))).blacken
  | t, .inRight .red pl pv :: .inRight _ uncle gv :: ctx =>
      if uncle.isRed then
        insertColor (node .red uncle.blacken gv (node .black pl pv t)) ctx
      else
        (plug ctx (node .black (node .red uncle gv pl) pv t)).blacken
  | t, .inLeft .red pv pr :: .inRight gc uncle gv :: ctx =>
      if uncle.isRed then
        insertColor (node .red uncle.blacken gv (node .black t pv pr)) ctx
      else
        match t with
        | nil => (plug (.inLeft .red pv pr :: .inRight gc uncle gv :: ctx) nil).blacken
        | node _ nl nv nr =>
            (plug ctx (node .black (node .red uncle gv nl) nv (node .red nr pv pr))).blacken

@[simp] theorem toList_insertColor (t : RBTree α) (ctx : List (Frame α)) :
    (insertColor t ctx).toList = before ctx ++ t.toList ++ after ctx := by
  fun_induction insertColor t ctx with
  | case1 t => simp [before, after]
  | case2 t f => simp
  | case3 t v r g ctx => simp
  | case4 t l v g ctx => simp
  | case5 t pv pr _ gv uncle ctx hred ih => simp [ih, before, after]
  | case6 t pv pr _ gv uncle ctx hred => simp [before, after]
  | case7 t pl pv gc gv uncle ctx hred ih => simp [ih, before, after]
  | case8 pl pv gc gv uncle ctx hred => simp
  | case9 pl pv gc gv uncle ctx hred _ nl nv nr => simp [before, after]
  | case10 t pl pv _ uncle gv ctx hred ih => simp [ih, before, after]
  | case11 t pl pv _ uncle gv ctx hred => simp [before, after]
  | case12 t pv pr gc uncle gv ctx hred ih => simp [ih, before, after]
  | case13 pv pr gc uncle gv ctx hred => simp
  | case14 pv pr gc uncle gv ctx hred _ nl nv nr => simp [before, after]

/-- Descend to a free position, link the new element there as a red leaf and
repair.  `goLeft v` decides the direction at a node that holds `v`. -/
def insertAt (goLeft : α → Bool) (x : α) : RBTree α → List (Frame α) → RBTree α
  | nil, ctx => insertColor (node .red nil x nil) ctx
  | node c l v r, ctx =>
      if goLeft v then insertAt goLeft x l (.inLeft c v r :: ctx)
      else insertAt goLeft x r (.inRight c l v :: ctx)

/-- Insert by key; an equal key goes to the right. -/
def insert (key : α → Nat) (x : α) (t : RBTree α) : RBTree α :=
  insertAt (fun v => decide (key x < key v)) x t []

/-- Weakly ordered by a key: equal keys may be repeated. -/
def Ordered (key : α → Nat) (xs : List α) : Prop :=
  xs.Pairwise fun x y => key x ≤ key y

/-- A descent splits the sequence of the subtree at the place of the new
element, and in an ordered sequence that place is the end of the elements that
do not exceed it. -/
theorem insertAt_toList (key : α → Nat) (x : α) (t : RBTree α) (ctx : List (Frame α)) :
    ∃ ls rs, t.toList = ls ++ rs ∧
      (insertAt (fun v => decide (key x < key v)) x t ctx).toList =
        before ctx ++ ls ++ x :: rs ++ after ctx ∧
      (Ordered key t.toList → (∀ y ∈ ls, key y ≤ key x) ∧ ∀ y ∈ rs, key x < key y) := by
  induction t generalizing ctx with
  | nil => exact ⟨[], [], rfl, by simp [insertAt], by simp⟩
  | node c l v r ihl ihr =>
      by_cases hlt : key x < key v
      · obtain ⟨ls, rs, hsplit, hlist, hord⟩ := ihl (.inLeft c v r :: ctx)
        refine ⟨ls, rs ++ v :: r.toList, by simp [hsplit], ?_, ?_⟩
        · simp [insertAt, hlt, hlist, before, after]
        · intro hsorted
          obtain ⟨hleft, hright, hcross⟩ := List.pairwise_append.mp hsorted
          obtain ⟨hls, hrs⟩ := hord hleft
          refine ⟨hls, fun y hy => ?_⟩
          rcases List.mem_append.mp hy with hy | hy
          · exact hrs y hy
          · rcases List.mem_cons.mp hy with rfl | hy
            · exact hlt
            · exact lt_of_lt_of_le hlt (List.rel_of_pairwise_cons hright hy)
      · obtain ⟨ls, rs, hsplit, hlist, hord⟩ := ihr (.inRight c l v :: ctx)
        refine ⟨l.toList ++ v :: ls, rs, by simp [hsplit], ?_, ?_⟩
        · simp [insertAt, hlt, hlist, before, after]
        · intro hsorted
          obtain ⟨hleft, hright, hcross⟩ := List.pairwise_append.mp hsorted
          obtain ⟨hls, hrs⟩ := hord (List.pairwise_cons.mp hright).2
          have hv : key v ≤ key x := Nat.le_of_not_lt hlt
          refine ⟨fun y hy => ?_, hrs⟩
          rcases List.mem_append.mp hy with hy | hy
          · exact (hcross y hy v (by simp)).trans hv
          · rcases List.mem_cons.mp hy with rfl | hy
            · exact hv
            · exact hls y hy

theorem insert_toList (key : α → Nat) (x : α) (t : RBTree α) :
    ∃ ls rs, t.toList = ls ++ rs ∧ (insert key x t).toList = ls ++ x :: rs ∧
      (Ordered key t.toList → (∀ y ∈ ls, key y ≤ key x) ∧ ∀ y ∈ rs, key x < key y) := by
  obtain ⟨ls, rs, hsplit, hlist, hord⟩ := insertAt_toList key x t []
  exact ⟨ls, rs, hsplit, by simpa [insert, before, after] using hlist, hord⟩

theorem insert_perm (key : α → Nat) (x : α) (t : RBTree α) :
    (insert key x t).toList.Perm (x :: t.toList) := by
  obtain ⟨ls, rs, hsplit, hlist, -⟩ := insert_toList key x t
  rw [hlist, hsplit]
  exact List.perm_middle

theorem insert_ordered (key : α → Nat) (x : α) (t : RBTree α)
    (hsorted : Ordered key t.toList) : Ordered key (insert key x t).toList := by
  obtain ⟨ls, rs, hsplit, hlist, hord⟩ := insert_toList key x t
  obtain ⟨hls, hrs⟩ := hord hsorted
  unfold Ordered at hsorted ⊢
  rw [hsplit] at hsorted
  obtain ⟨hleft, hright, hcross⟩ := List.pairwise_append.mp hsorted
  rw [hlist]
  refine List.pairwise_append.mpr ⟨hleft, List.pairwise_cons.mpr ⟨?_, hright⟩, ?_⟩
  · intro y hy
    exact (hrs y hy).le
  · intro a ha y hy
    rcases List.mem_cons.mp hy with rfl | hy
    · exact hls a ha
    · exact hcross a ha y hy

/-! ## Removal -/

/-- The black-sibling step at a parent whose left subtree is one black node
short: the new subtree at the parent's place, and whether the shortage is
still there. -/
def borrowRight (t : RBTree α) (pc : Color) (pv : α) : RBTree α → RBTree α × Bool
  | nil => (node pc t pv nil, true)
  | node oc ol ov or =>
      if !ol.isRed && !or.isRed then
        (node pc t pv (node .red ol ov or), true)
      else if !or.isRed then
        match ol with
        | nil => (node pc t pv (node oc nil ov or), true)
        | node _ oll olv olr =>
            (node pc (node .black t pv oll) olv (node .black olr ov or), false)
      else
        (node pc (node .black t pv ol) ov or.blacken, false)

/-- Mirror image of `borrowRight`. -/
def borrowLeft (t : RBTree α) (pc : Color) (pv : α) : RBTree α → RBTree α × Bool
  | nil => (node pc nil pv t, true)
  | node oc ol ov or =>
      if !ol.isRed && !or.isRed then
        (node pc (node .red ol ov or) pv t, true)
      else if !ol.isRed then
        match or with
        | nil => (node pc (node oc ol ov nil) pv t, true)
        | node _ orl orv orr =>
            (node pc (node .black ol ov orl) orv (node .black orr pv t), false)
      else
        (node pc ol.blacken ov (node .black or pv t), false)

@[simp] theorem toList_borrowRight (t : RBTree α) (pc : Color) (pv : α) (o : RBTree α) :
    (borrowRight t pc pv o).1.toList = t.toList ++ pv :: o.toList := by
  cases o with
  | nil => rfl
  | node oc ol ov or =>
      simp only [borrowRight]
      split
      · rfl
      · split
        · cases ol <;> simp
        · simp

@[simp] theorem toList_borrowLeft (t : RBTree α) (pc : Color) (pv : α) (o : RBTree α) :
    (borrowLeft t pc pv o).1.toList = o.toList ++ pv :: t.toList := by
  cases o with
  | nil => rfl
  | node oc ol ov or =>
      simp only [borrowLeft]
      split
      · rfl
      · split
        · cases or <;> simp
        · simp

/-- Repair upwards from a subtree that is one black node short.  A red sibling
is first rotated above the parent, which then is red, so that in this case the
shortage never climbs past the parent. -/
def eraseColor : RBTree α → List (Frame α) → RBTree α
  | t, [] => t.blacken
  | t, .inLeft pc pv other :: ctx =>
      if t.isRed then plug (.inLeft pc pv other :: ctx) t.blacken
      else
        match other with
        | node .red ol ov or =>
            let res := borrowRight t .red pv ol
            if res.2 then plug ctx (node .black res.1.blacken ov or)
            else (plug ctx (node .black res.1 ov or)).blacken
        | other =>
            let res := borrowRight t pc pv other
            if res.2 then eraseColor res.1 ctx else (plug ctx res.1).blacken
  | t, .inRight pc other pv :: ctx =>
      if t.isRed then plug (.inRight pc other pv :: ctx) t.blacken
      else
        match other with
        | node .red ol ov or =>
            let res := borrowLeft t .red pv or
            if res.2 then plug ctx (node .black ol ov res.1.blacken)
            else (plug ctx (node .black ol ov res.1)).blacken
        | other =>
            let res := borrowLeft t pc pv other
            if res.2 then eraseColor res.1 ctx else (plug ctx res.1).blacken

@[simp] theorem toList_eraseColor (t : RBTree α) (ctx : List (Frame α)) :
    (eraseColor t ctx).toList = before ctx ++ t.toList ++ after ctx := by
  induction ctx generalizing t with
  | nil => simp [eraseColor, before, after]
  | cons f ctx ih =>
      cases f with
      | inLeft pc pv other =>
          simp only [eraseColor]
          split
          · simp
          · split
            · split <;> simp [before, after]
            · split <;> simp [ih, before, after]
      | inRight pc other pv =>
          simp only [eraseColor]
          split
          · simp
          · split
            · split <;> simp [before, after]
            · split <;> simp [ih, before, after]

/-- The leftmost node of a non-empty tree: its value, colour and right child,
and the path from it to the top. -/
def leftmost : Color → RBTree α → α → RBTree α → List (Frame α) →
    α × Color × RBTree α × List (Frame α)
  | c, nil, v, r, ctx => (v, c, r, ctx)
  | c, node lc ll lv lr, v, r, ctx => leftmost lc ll lv lr (.inLeft c v r :: ctx)

theorem leftmost_spec (c : Color) (l : RBTree α) (v : α) (r : RBTree α) (ctx : List (Frame α))
    (hctx : before ctx = []) :
    before (leftmost c l v r ctx).2.2.2 = [] ∧
      (leftmost c l v r ctx).1 :: (leftmost c l v r ctx).2.2.1.toList ++
          after (leftmost c l v r ctx).2.2.2 =
        l.toList ++ v :: r.toList ++ after ctx := by
  induction l generalizing c v r ctx with
  | nil => exact ⟨hctx, by simp [leftmost]⟩
  | node lc ll lv lr ihl _ =>
      obtain ⟨hbefore, hlist⟩ := ihl lc lv lr (.inLeft c v r :: ctx) (by simpa [before] using hctx)
      refine ⟨hbefore, ?_⟩
      simp only [leftmost]
      rw [hlist]
      simp [after]

/-- Unlink the node at the focus: with at most one child the child takes its
place, otherwise the in-order successor does. -/
def unlink (c : Color) (l r : RBTree α) (ctx : List (Frame α)) : RBTree α :=
  match l, r with
  | nil, child => if c = .black then eraseColor child ctx else plug ctx child
  | child, nil => if c = .black then eraseColor child ctx else plug ctx child
  | l, node rc rl rv rr =>
      let succ := leftmost rc rl rv rr []
      let path := succ.2.2.2 ++ .inRight c l succ.1 :: ctx
      if succ.2.1 = .black then eraseColor succ.2.2.1 path else plug path succ.2.2.1

theorem toList_unlink (c : Color) (l r : RBTree α) (ctx : List (Frame α)) :
    (unlink c l r ctx).toList = before ctx ++ (l.toList ++ r.toList) ++ after ctx := by
  unfold unlink
  split
  · split <;> simp
  · split <;> simp
  · rename_i rc rl rv rr _
    obtain ⟨hbefore, hlist⟩ := leftmost_spec rc rl rv rr ([] : List (Frame α)) rfl
    have hright : (node rc rl rv rr).toList =
        (leftmost rc rl rv rr []).1 :: (leftmost rc rl rv rr []).2.2.1.toList ++
          after (leftmost rc rl rv rr []).2.2.2 := by
      rw [hlist]
      simp [after]
    simp only [hright]
    split <;> simp [before_append, after_append, before, after, hbefore]

/-- Find the node whose value satisfies `p`, with the path to it. -/
def locate (p : α → Bool) : RBTree α → List (Frame α) →
    Option (Color × RBTree α × α × RBTree α × List (Frame α))
  | nil, _ => none
  | node c l v r, ctx =>
      if p v then some (c, l, v, r, ctx)
      else
        match locate p l (.inLeft c v r :: ctx) with
        | some found => some found
        | none => locate p r (.inRight c l v :: ctx)

theorem locate_some (p : α → Bool) (t : RBTree α) (ctx : List (Frame α))
    {c : Color} {l : RBTree α} {v : α} {r : RBTree α} {ctx' : List (Frame α)}
    (h : locate p t ctx = some (c, l, v, r, ctx')) :
    p v = true ∧ plug ctx' (node c l v r) = plug ctx t := by
  induction t generalizing ctx with
  | nil => simp [locate] at h
  | node tc tl tv tr ihl ihr =>
      simp only [locate] at h
      split at h
      · cases h
        exact ⟨by assumption, rfl⟩
      · split at h
        · cases h
          exact ihl (.inLeft tc tv tr :: ctx) (by assumption)
        · exact ihr (.inRight tc tl tv :: ctx) h

theorem locate_none (p : α → Bool) (t : RBTree α) (ctx : List (Frame α))
    (h : locate p t ctx = none) : ∀ x ∈ t.toList, p x = false := by
  induction t generalizing ctx with
  | nil => simp
  | node tc tl tv tr ihl ihr =>
      simp only [locate] at h
      split at h
      · cases h
      · rename_i hv
        split at h
        · cases h
        · rename_i hl
          intro x hx
          rcases List.mem_append.mp hx with hx | hx
          · exact ihl _ hl x hx
          · rcases List.mem_cons.mp hx with rfl | hx
            · simpa using hv
            · exact ihr _ h x hx

/-- Remove the node whose value satisfies `p`; `none` when there is none. -/
def erase (p : α → Bool) (t : RBTree α) : Option (RBTree α) :=
  match locate p t [] with
  | none => none
  | some (c, l, _, r, ctx) => some (unlink c l r ctx)

theorem erase_toList (p : α → Bool) (t t' : RBTree α) (h : erase p t = some t') :
    ∃ ls x rs, t.toList = ls ++ x :: rs ∧ t'.toList = ls ++ rs ∧ p x = true := by
  unfold erase at h
  split at h
  · cases h
  · rename_i c l v r ctx hloc
    cases h
    obtain ⟨hv, hplug⟩ := locate_some p t [] hloc
    have hlist : t.toList = (plug ctx (node c l v r)).toList := by rw [hplug]; rfl
    refine ⟨before ctx ++ l.toList, v, r.toList ++ after ctx, ?_, ?_, hv⟩
    · rw [hlist]
      simp
    · simp [toList_unlink]

theorem erase_eq_none (p : α → Bool) (t : RBTree α) (h : erase p t = none) :
    ∀ x ∈ t.toList, p x = false := by
  unfold erase at h
  split at h
  · exact locate_none p t [] (by assumption)
  · cases h

theorem erase_perm (p : α → Bool) (t t' : RBTree α) (h : erase p t = some t') :
    ∃ x, p x = true ∧ t.toList.Perm (x :: t'.toList) := by
  obtain ⟨ls, x, rs, hlist, hlist', hx⟩ := erase_toList p t t' h
  refine ⟨x, hx, ?_⟩
  rw [hlist, hlist']
  exact List.perm_middle

theorem erase_ordered (key : α → Nat) (p : α → Bool) (t t' : RBTree α)
    (h : erase p t = some t') (hsorted : Ordered key t.toList) : Ordered key t'.toList := by
  obtain ⟨ls, x, rs, hlist, hlist', -⟩ := erase_toList p t t' h
  unfold Ordered at hsorted ⊢
  rw [hlist] at hsorted
  rw [hlist']
  exact hsorted.sublist (List.Sublist.append_left (List.sublist_cons_self x rs) ls)

/-! ## Search -/

/-- Descend by key comparison until the key is met. -/
def search (key : α → Nat) (k : Nat) : RBTree α → Option α
  | nil => none
  | node _ l v r =>
      if k < key v then search key k l
      else if key v < k then search key k r
      else some v

theorem search_eq_some (key : α → Nat) (k : Nat) (t : RBTree α) {x : α}
    (h : search key k t = some x) : x ∈ t.toList ∧ key x = k := by
  induction t with
  | nil => simp [search] at h
  | node c l v r ihl ihr =>
      simp only [search] at h
      split at h
      · obtain ⟨hmem, hkey⟩ := ihl h
        exact ⟨by simp [hmem], hkey⟩
      · split at h
        · obtain ⟨hmem, hkey⟩ := ihr h
          exact ⟨by simp [hmem], hkey⟩
        · cases h
          exact ⟨by simp, by omega⟩

/-- In a weakly ordered tree the search misses no element with the key, on
whichever side of an equal key rebalancing has put it. -/
theorem search_eq_none (key : α → Nat) (k : Nat) (t : RBTree α)
    (hsorted : Ordered key t.toList) (h : search key k t = none) :
    ∀ x ∈ t.toList, key x ≠ k := by
  induction t with
  | nil => simp
  | node c l v r ihl ihr =>
      obtain ⟨hleft, hright, hcross⟩ := List.pairwise_append.mp hsorted
      obtain ⟨hhead, htail⟩ := List.pairwise_cons.mp hright
      simp only [search] at h
      intro x hx
      rcases List.mem_append.mp hx with hx | hx
      · have hxv : key x ≤ key v := hcross x hx v (by simp)
        split at h
        · exact ihl hleft h x hx
        · split at h
          · omega
          · cases h
      · split at h
        · rcases List.mem_cons.mp hx with rfl | hx
          · omega
          · have := hhead x hx
            omega
        · split at h
          · rcases List.mem_cons.mp hx with rfl | hx
            · omega
            · exact ihr htail h x hx
          · cases h

end RedBlackTree
