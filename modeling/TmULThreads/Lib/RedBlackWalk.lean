import TmULThreads.Lib.RedBlackBalance

/-!
# Walks in the order of a red-black tree

`listFrom d t` is the in-order sequence of a tree, read from the side `d`.  The outermost node
on the side `d` is its first element (`head_listFrom`), and the element that follows a node is
the first one of its far subtree or, if that is empty, of what lies behind it on the path to
the root (`listFrom_plug_side`).  With the direction as a parameter, forward and backward
walks are one.
-/

namespace RedBlackTree

open RedBlackTree.RBTree

variable {α : Type*}

def listFrom (d : Dir) (t : RBTree α) : List α :=
  match d with
  | .left => t.toList
  | .right => t.toList.reverse

/-- What a walk from the side `d` meets before it comes to the hole. -/
def beforeFrom (d : Dir) (ctx : List (Frame α)) : List α :=
  match d with
  | .left => before ctx
  | .right => (after ctx).reverse

/-- What it meets behind the hole. -/
def afterFrom (d : Dir) (ctx : List (Frame α)) : List α :=
  match d with
  | .left => after ctx
  | .right => (before ctx).reverse

section Sides

variable (d : Dir) (c : Color) (near far t : RBTree α) (v : α) (ctx : List (Frame α))

@[simp] theorem listFrom_nil : listFrom d (nil : RBTree α) = [] := by
  cases d <;> rfl

@[simp] theorem listFrom_side :
    listFrom d (side d c near v far) = listFrom d near ++ v :: listFrom d far := by
  cases d <;> simp [listFrom, side]

@[simp] theorem listFrom_plug :
    listFrom d (plug ctx t) = beforeFrom d ctx ++ listFrom d t ++ afterFrom d ctx := by
  cases d <;> simp [listFrom, beforeFrom, afterFrom]

@[simp] theorem afterFrom_side :
    afterFrom d (.side d c v far :: ctx) = v :: listFrom d far ++ afterFrom d ctx := by
  cases d <;> simp [afterFrom, Frame.side, before, after, listFrom]

@[simp] theorem afterFrom_side_flip :
    afterFrom d (.side d.flip c v far :: ctx) = afterFrom d ctx := by
  cases d <;> rfl

end Sides

/-- The outermost node on the side `d` of a tree, with its colour and its other child, and
the path to it. -/
def outer (d : Dir) : Color → RBTree α → α → RBTree α → List (Frame α) →
    α × Color × RBTree α × List (Frame α)
  | c, nil, v, far, ctx => (v, c, far, ctx)
  | c, node nc nl nv nr, v, far, ctx =>
      match d with
      | .left => outer .left nc nl nv nr (.inLeft c v far :: ctx)
      | .right => outer .right nc nr nv nl (.inRight c far v :: ctx)

theorem plug_append (ctx rest : List (Frame α)) (t : RBTree α) :
    plug (ctx ++ rest) t = plug rest (plug ctx t) := by
  induction ctx generalizing t with
  | nil => rfl
  | cons f ctx ih =>
      obtain ⟨d, c, v, far, rfl⟩ := f.exists_side
      rw [List.cons_append, plug_side, plug_side, ih]

/-- Every place of the in-order sequence is that of a node. -/
theorem exists_plug_of_toList {t : RBTree α} {xs ys : List α} {v : α}
    (h : t.toList = xs ++ v :: ys) :
    ∃ ctx c l r, t = plug ctx (node c l v r) ∧ before ctx ++ l.toList = xs ∧
      r.toList ++ after ctx = ys := by
  induction t generalizing xs ys with
  | nil => simp at h
  | node c l u r ihl ihr =>
      rw [toList_node] at h
      rcases List.append_eq_append_iff.mp h with ⟨zs, hxs, hrest⟩ | ⟨zs, hl, hrest⟩
      · cases zs with
        | nil =>
            simp only [List.nil_append, List.cons.injEq] at hrest
            obtain ⟨rfl, rfl⟩ := hrest
            exact ⟨[], c, l, r, rfl, by simpa [before] using hxs.symm, by simp [after]⟩
        | cons z zs =>
            simp only [List.cons_append, List.cons.injEq] at hrest
            obtain ⟨rfl, hr⟩ := hrest
            obtain ⟨ctx, c', l', r', rfl, hbefore, hafter⟩ := ihr hr
            refine ⟨ctx ++ [.inRight c l u], c', l', r', ?_, ?_, ?_⟩
            · rw [plug_append]
              rfl
            · rw [before_append, hxs, ← hbefore]
              simp [before]
            · rw [after_append, ← hafter]
              simp [after]
      · cases zs with
        | nil =>
            simp only [List.nil_append, List.cons.injEq] at hrest
            obtain ⟨rfl, rfl⟩ := hrest
            exact ⟨[], c, l, r, rfl, by simpa [before] using hl, by simp [after]⟩
        | cons z zs =>
            simp only [List.cons_append, List.cons.injEq] at hrest
            obtain ⟨rfl, hys⟩ := hrest
            obtain ⟨ctx, c', l', r', rfl, hbefore, hafter⟩ := ihl hl
            refine ⟨ctx ++ [.inLeft c u r], c', l', r', ?_, ?_, ?_⟩
            · rw [plug_append]
              rfl
            · rw [before_append, ← hbefore]
              simp [before]
            · rw [after_append, hys, ← hafter]
              simp [after]

section Outer

variable (d : Dir) (c nc : Color) (near far nn nf : RBTree α) (v nv : α) (ctx : List (Frame α))

theorem outer_side :
    outer d c (side d nc nn nv nf) v far ctx = outer d nc nn nv nf (.side d c v far :: ctx) := by
  cases d <;> rfl

theorem leftmost_eq_outer (l r : RBTree α) : leftmost c l v r ctx = outer .left c l v r ctx := by
  induction l generalizing c v r ctx with
  | nil => rfl
  | node lc ll lv lr ihl _ => exact ihl ..

/-- Going outwards on the side `d`, a tree is a node whose near subtree is empty or a smaller
one of the same kind. -/
theorem outer_induction {motive : RBTree α → Prop} (hnil : motive nil)
    (hside : ∀ c near v far, motive near → motive (side d c near v far)) (t : RBTree α) :
    motive t := by
  induction t with
  | nil => exact hnil
  | node c l v r ihl ihr =>
      cases d with
      | left => exact hside c l v r ihl
      | right => exact hside c r v l ihr

theorem plug_outer :
    plug (outer d c near v far ctx).2.2.2 (side d (outer d c near v far ctx).2.1 nil
      (outer d c near v far ctx).1 (outer d c near v far ctx).2.2.1) =
        plug ctx (side d c near v far) := by
  induction near using outer_induction d generalizing c v far ctx with
  | hnil => rfl
  | hside nc nn nv nf ih => rw [outer_side, ih, plug_side]

theorem head_listFrom :
    (listFrom d (side d c near v far)).head? = some (outer d c near v far ctx).1 := by
  induction near using outer_induction d generalizing c v far ctx with
  | hnil => simp [outer]
  | hside nc nn nv nf ih =>
      rw [outer_side, ← ih, listFrom_side, List.head?_append_of_ne_nil]
      rw [listFrom_side]
      simp

/-- The path goes along the side `d` only. -/
theorem exists_outer_path :
    ∃ path, (outer d c near v far ctx).2.2.2 = path ++ ctx ∧
      (∀ f ∈ path, ∃ c v far, f = .side d c v far) ∧ path.length ≤ near.height := by
  induction near using outer_induction d generalizing c v far ctx with
  | hnil => exact ⟨[], rfl, by simp, Nat.le_refl 0⟩
  | hside nc nn nv nf ih =>
      obtain ⟨path, hpath, hside, hlen⟩ := ih nc nf nv (.side d c v far :: ctx)
      refine ⟨path ++ [.side d c v far], ?_, ?_, ?_⟩
      · rw [outer_side, hpath, List.append_assoc]
        rfl
      · intro f hf
        rcases List.mem_append.mp hf with hf | hf
        · exact hside f hf
        · exact ⟨c, v, far, List.mem_singleton.mp hf⟩
      · rw [List.length_append, List.length_singleton, height_side]
        omega

end Outer

end RedBlackTree
