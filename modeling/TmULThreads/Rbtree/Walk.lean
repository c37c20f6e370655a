import TmULThreads.Rbtree.Unlink

/-!
# The walks of `rbtree.c`

`rb_first`, `rb_last`, `rb_next` and `rb_prev` only read.  They find in memory the ends of the
in-order sequence and the neighbours of a node in it, whatever the shape of the tree is.
`rb_replace_node` puts a node in the place of another one without a walk.
-/

namespace TmULThreads
namespace Rbtree

open RedBlackTree RBTree Separation

variable {α : Type} {A : Placement α} {root : Word} {ctx : List (Frame α)} {d : Dir}
  {c : Color} {t near far l r : RBTree α} {x y : α}

/-- A pointer to the node of a value, or `NULL`. -/
def addrOf (A : Placement α) : Option α → Word
  | none => 0
  | some v => A v

theorem reads_rbEnd (fuel : Nat) (hfuel : t.height ≤ fuel) :
    Reads (treeAt A root t) (rbEnd d fuel root) (addrOf A (listFrom d t).head?) := by
  refine Reads.bind reads_rbNode ?_
  by_cases ht : t = nil
  · subst ht
    rw [ptr_nil, if_pos rfl, listFrom_nil]
    exact Reads.pure
  · obtain ⟨c, near, v, far, rfl⟩ := exists_side_of_ne_nil d ht
    rw [height_side] at hfuel
    rw [ptr_side, if_neg (A.ne_null v), head_listFrom d c near far v []]
    have hwalk : Reads (treeAt A root (plug [] (side d c near v far))) (outermost d fuel (A v)) _ :=
      reads_outermost fuel (by omega)
    exact hwalk

/-- Going up, the first parent on the other side comes next. -/
theorem reads_climb (fuel : Nat) (ht : t ≠ nil) (hfuel : ctx.length < fuel) :
    Reads (treeAt A root (plug ctx t)) (climb d.flip fuel (ptr A t))
      (addrOf A (afterFrom d ctx).head?) := by
  induction ctx generalizing t fuel with
  | nil =>
      obtain ⟨k, rfl⟩ : ∃ k, fuel = k + 1 := ⟨fuel - 1, by omega⟩
      obtain ⟨c, near, v, far, rfl⟩ := exists_side_of_ne_nil d ht
      rw [climb, ptr_side]
      refine Reads.bind reads_parent ?_
      rw [parent_nil, if_pos rfl]
      cases d <;> exact Reads.pure
  | cons f ctx ih =>
      obtain ⟨k, rfl⟩ : ∃ k, fuel = k + 1 := ⟨fuel - 1, by omega⟩
      rw [List.length_cons] at hfuel
      obtain ⟨e, fc, v, other, rfl⟩ := f.exists_side
      have hparent : Reads (treeAt A root (plug (.side e fc v other :: ctx) t))
          (rbParent (ptr A t)) (A v) := by
        obtain ⟨c, near, u, far, rfl⟩ := exists_side_of_ne_nil d ht
        rw [ptr_side, ← parent_side A e fc other v ctx]
        exact reads_parent
      rw [climb]
      refine Reads.bind hparent ?_
      rw [if_neg (A.ne_null v), plug_side]
      by_cases he : e = d
      · subst he
        -- the node is on the near side, so its parent lies behind it
        refine Reads.bind reads_far ?_
        refine Reads.of_entails entails_children fun hne => ?_
        rw [if_neg fun heq => ht (hne heq).1, afterFrom_side]
        exact Reads.pure
      · have hflip : e = d.flip := by
          revert he
          cases e <;> cases d <;> decide
        subst hflip
        refine Reads.bind reads_near ?_
        rw [if_pos rfl, afterFrom_side_flip, ← ptr_side A d.flip fc t other v]
        exact ih k (side_ne_nil _ _ _ _ _) (by omega)

theorem entails_parent_ne :
    Entails (treeAt A root (plug ctx (side d c near x far))) (parent A ctx ≠ A x) := by
  cases ctx with
  | nil => exact fun _ _ _ => (A.ne_null x).symm
  | cons f ctx =>
      obtain ⟨e, fc, v, other, rfl⟩ := f.exists_side
      rw [treeAt_plug, tree_side, spine_side, parent_side]
      have hne : Entails (nodeAt e (A v) (pack (parent A ctx) fc) (ptr A (side d c near x far))
          (ptr A other) * tree A (A v) other * spine A root ctx (A v) *
          (nodeAt d (A x) (pack (A v) c) (ptr A near) (ptr A far) *
            (tree A (A x) near * tree A (A x) far)))
          (Loc.rbParentColor (A v) ≠ Loc.rbParentColor (A x)) := entails_ne
      exact fun F h hh heq => hne F h hh (congrArg Loc.rbParentColor heq)

theorem reads_rbNeighbour (fuel : Nat)
    (hfuel : (plug ctx (side d c near x far)).height ≤ fuel) :
    Reads (treeAt A root (plug ctx (side d c near x far))) (rbNeighbour d.flip fuel (A x))
      (addrOf A (listFrom d far ++ afterFrom d ctx).head?) := by
  have hlen := length_add_height_le ctx (side d c near x far)
  rw [height_side] at hlen
  refine Reads.bind reads_parent ?_
  refine Reads.of_entails entails_parent_ne fun hne => ?_
  rw [if_neg hne]
  refine Reads.bind reads_far ?_
  by_cases hfar : far = nil
  · subst hfar
    rw [ptr_nil, if_pos rfl, listFrom_nil, List.nil_append, ← ptr_side A d c near nil x]
    exact reads_climb fuel (side_ne_nil _ _ _ _ _) (by omega)
  · obtain ⟨fc, fn, v, ff, rfl⟩ := exists_side_of_ne_nil d hfar
    rw [height_side] at hlen
    rw [ptr_side, if_neg (A.ne_null v), Dir.flip_flip, List.head?_append, plug_far,
      head_listFrom d fc fn ff v (.side d.flip c x near :: ctx)]
    exact reads_outermost fuel (by omega)

/-- The walks follow the in-order sequence of the tree, forwards and backwards, and answer
`NULL` at its ends. -/
theorem reads_walks (A : Placement α) (root : Word) (t : RBTree α) (fuel : Nat)
    (hfuel : t.height ≤ fuel) :
    Reads (treeAt A root t) (rbFirst fuel root) (addrOf A t.toList.head?) ∧
      Reads (treeAt A root t) (rbLast fuel root) (addrOf A t.toList.getLast?) ∧
      ∀ xs v ys, t.toList = xs ++ v :: ys →
        Reads (treeAt A root t) (rbNext fuel (A v)) (addrOf A ys.head?) ∧
          Reads (treeAt A root t) (rbPrev fuel (A v)) (addrOf A xs.getLast?) := by
  have hlast : Reads (treeAt A root t) (rbLast fuel root) (addrOf A (listFrom .right t).head?) :=
    reads_rbEnd fuel hfuel
  rw [listFrom, List.head?_reverse] at hlast
  refine ⟨reads_rbEnd fuel hfuel, hlast, fun xs v ys hsplit => ?_⟩
  obtain ⟨ctx, c, l, r, rfl, rfl, rfl⟩ := exists_plug_of_toList hsplit
  have hprev : Reads (treeAt A root (plug ctx (side .right c r v l))) (rbPrev fuel (A v))
      (addrOf A (listFrom .right l ++ afterFrom .right ctx).head?) := reads_rbNeighbour fuel hfuel
  rw [listFrom, afterFrom, ← List.reverse_append, List.head?_reverse] at hprev
  exact ⟨reads_rbNeighbour (d := .left) fuel hfuel, hprev⟩

/-- A chain to the right, which no balance is needed for. -/
theorem reads_walks_chain :
    (∃ h, (treeAt slots 8 (node .red nil 1 (node .red nil 2 (node .red nil 3 nil)))).Holds h) ∧
    Reads (treeAt slots 8 (node .red nil 1 (node .red nil 2 (node .red nil 3 nil))))
      (rbFirst 3 8) (slots 1) ∧
    Reads (treeAt slots 8 (node .red nil 1 (node .red nil 2 (node .red nil 3 nil))))
      (rbNext 3 (slots 2)) (slots 3) ∧
    Reads (treeAt slots 8 (node .red nil 1 (node .red nil 2 (node .red nil 3 nil))))
      (rbPrev 3 (slots 2)) (slots 1) := by
  have hfits := @fits_treeAt Nat slots 8
    (node .red nil 1 (node .red nil 2 (node .red nil 3 nil))) (by decide)
  obtain ⟨hfirst, -, hwalk⟩ := reads_walks slots 8
    (node .red nil 1 (node .red nil 2 (node .red nil 3 nil))) 3 (by decide)
  exact ⟨hfits.exists_holds, hfirst, hwalk [1] 2 [3] rfl⟩

/-! ## Replacing a node -/

/-- The new node takes over everything, and the old one keeps its fields. -/
theorem triple_rbReplaceNode (w a b : Word) :
    Triple (treeAt A root (plug ctx (node c l x r)) * nodeAt .left (A y) w a b)
      (rbReplaceNode (A x) (A y) root) ()
      (treeAt A root (plug ctx (node c l y r)) *
        nodeAt .left (A x) (pack (parent A ctx) c) (ptr A l) (ptr A r)) := by
  simp only [treeAt_plug, tree, ptr_node, nodeAt, Dir.flip]
  rw [mul_assoc (spine A root ctx (A x))]
  refine Reads.then reads_rbParent ?_
  rw [(aligned_parent A ctx).parentOf_pack]
  refine Triple.bind (triple_changeChild _) ?_
  refine Reads.then reads_load ?_
  refine Triple.bind (Triple.at (triple_reparent (A.aligned x) (A y))) ?_
  refine Reads.then reads_load ?_
  refine Triple.bind (Triple.at (triple_reparent (A.aligned x) (A y))) ?_
  refine Reads.then reads_load ?_
  refine Triple.bind (triple_store _) ?_
  refine Reads.then reads_load ?_
  refine Triple.bind (triple_store _) ?_
  refine Reads.then reads_load ?_
  refine (triple_store _).post ?_
  ac_rfl

end Rbtree
end TmULThreads
