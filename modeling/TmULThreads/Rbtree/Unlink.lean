import TmULThreads.Lib.RedBlackWalk
import TmULThreads.Rbtree.Erase

/-!
# Unlinking a node in memory

A node with two children is replaced by its successor, the leftmost node of its right subtree.
The path between the two is a `segment`: a tree with a hole that hangs below a node and not
below the root.
-/

namespace TmULThreads
namespace Rbtree

open RedBlackTree RBTree Separation

variable {α : Type} {A : Placement α} {root : Word} {ctx : List (Frame α)} {d : Dir}
  {c sc : Color} {t child l r sr : RBTree α} {x s : α} {n : Nat}

/-! ## Segments -/

section Segments

variable (A)

/-- The parent of a hole in a tree whose own parent is at `p`. -/
def parentFrom (p : Word) : List (Frame α) → Word
  | [] => p
  | f :: ctx => parent A (f :: ctx)

/-- A tree with a hole below a node at `p`; the pointer into the hole is `q`. -/
def segment (p : Word) : List (Frame α) → Word → Assertion Loc Word
  | [], _ => 1
  | .inLeft c v r :: ctx, q =>
      nodeAt .left (A v) (pack (parentFrom A p ctx) c) q (ptr A r) * tree A (A v) r *
        segment p ctx (A v)
  | .inRight c l v :: ctx, q =>
      nodeAt .right (A v) (pack (parentFrom A p ctx) c) q (ptr A l) * tree A (A v) l *
        segment p ctx (A v)

theorem parentFrom_inLeft (p : Word) (v : α) : parentFrom A p (.inLeft c v r :: ctx) = A v := rfl

theorem segment_side (p q : Word) (far : RBTree α) (v : α) :
    segment A p (.side d c v far :: ctx) q =
      nodeAt d (A v) (pack (parentFrom A p ctx) c) q (ptr A far) * tree A (A v) far *
        segment A p ctx (A v) := by
  cases d <;> rfl

theorem tree_plug (p : Word) :
    tree A p (plug ctx t) = segment A p ctx (ptr A t) * tree A (parentFrom A p ctx) t := by
  induction ctx generalizing t with
  | nil => exact (one_mul _).symm
  | cons f ctx ih =>
      obtain ⟨d, c, v, far, rfl⟩ := f.exists_side
      rw [plug_side, ih, tree_side, segment_side, ptr_side, parentFrom, parent_side]
      ac_rfl

theorem ptr_plug_congr (hctx : ctx ≠ []) (t t' : RBTree α) :
    ptr A (plug ctx t) = ptr A (plug ctx t') := by
  induction ctx generalizing t t' with
  | nil => exact absurd rfl hctx
  | cons f ctx ih =>
      obtain ⟨d, c, v, far, rfl⟩ := f.exists_side
      rw [plug_side, plug_side]
      cases ctx with
      | nil => rw [plug, plug, ptr_side, ptr_side]
      | cons g ctx => exact ih (List.cons_ne_nil _ _) _ _

end Segments

theorem triple_setParent {p : Word} (ht : t ≠ nil) (hp : Aligned p) (q : Word) :
    Triple (tree A p t) (rbSetParent (ptr A t) q) () (tree A q t) := by
  have hset := triple_reparent (A := A) (t := t) hp q
  obtain ⟨c, near, v, far, rfl⟩ := exists_side_of_ne_nil .left ht
  rwa [unlessNull, ptr_side, if_neg (A.ne_null v)] at hset

/-- The node at the top of a segment gets another parent. -/
theorem triple_setParent_segment {p : Word} (hctx : ctx ≠ []) (hp : Aligned p) (p' q : Word) :
    Triple (segment A p ctx q) (rbSetParent (ptr A (plug ctx t)) p') () (segment A p' ctx q) := by
  induction ctx generalizing t q with
  | nil => exact absurd rfl hctx
  | cons f ctx ih =>
      obtain ⟨d, c, v, far, rfl⟩ := f.exists_side
      rw [plug_side, segment_side, segment_side]
      cases ctx with
      | nil =>
          rw [plug, ptr_side, parentFrom, parentFrom, ← hp.pack_setParent p' c]
          exact (triple_rbUpdate _).post rfl
      | cons g ctx =>
          have hup := ih (t := side d c t v far) (List.cons_ne_nil _ _) (A v)
          exact hup.at.post rfl

theorem triple_storeHole (p q q' : Word) {v : α} :
    Triple (segment A p (.inLeft c v r :: ctx) q) (store (.child .left (A v)) q') ()
      (segment A p (.inLeft c v r :: ctx) q') := by
  simp only [segment]
  exact (triple_store _).post rfl

theorem entails_segment_ne (p q w : Word) (a b : Word) {v : α} :
    Entails (nodeAt .left (A x) w a b * segment A p (.inLeft c v r :: ctx) q) (A v ≠ A x) := by
  simp only [segment]
  have hne : Entails (nodeAt .left (A x) w a b * (nodeAt .left (A v) (pack (parentFrom A p ctx) c)
      q (ptr A r) * tree A (A v) r * segment A p ctx (A v)))
      (Loc.rbParentColor (A x) ≠ Loc.rbParentColor (A v)) := entails_ne
  exact fun F h hh heq => hne F h hh (congrArg Loc.rbParentColor heq.symm)

/-! ## A node with one child at most -/

theorem triple_unlinkNode :
    Triple (treeAt A root (plug ctx (side d c child x nil))) (unlinkNode (A x) (ptr A child) root)
      ⟨ptr A child, parent A ctx, colorBit c⟩
      (treeAt A root (plug ctx child) *
        nodeAt d (A x) (pack (parent A ctx) c) (ptr A child) 0) := by
  simp only [treeAt_plug, tree_side, ptr_side, tree, ptr_nil, mul_one]
  refine Reads.then reads_rbParent ?_
  refine Reads.then reads_rbColor ?_
  rw [(aligned_parent A ctx).parentOf_pack, (aligned_parent A ctx).colorOf_pack]
  refine Triple.bind (Triple.at (triple_reparent (A.aligned x) _)) ?_
  refine Triple.bind (triple_changeChild _) ?_
  refine Triple.pure.post ?_
  ac_rfl

/-! ## A node with two children -/

theorem reads_outermost (fuel : Nat) {near far : RBTree α} {v : α} (hfuel : near.height < fuel) :
    Reads (treeAt A root (plug ctx (side d c near v far))) (outermost d fuel (A v))
      (A (outer d c near v far ctx).1) := by
  induction near using outer_induction d generalizing c v far ctx fuel with
  | hnil =>
      obtain ⟨k, rfl⟩ : ∃ k, fuel = k + 1 := ⟨fuel - 1, by omega⟩
      refine Reads.bind reads_near ?_
      exact Reads.pure
  | hside nc nn nv nf ih =>
      rw [height_side] at hfuel
      obtain ⟨k, rfl⟩ : ∃ k, fuel = k + 1 := ⟨fuel - 1, by omega⟩
      refine Reads.bind reads_near ?_
      rw [ptr_side, if_neg (A.ne_null nv), outer_side, ← plug_side]
      exact ih k (by omega)

/-- The successor is the right child. -/
theorem triple_unlinkInner_child (fuel : Nat) (hl : l ≠ nil) :
    Triple (treeAt A root (plug ctx (node c l x (node sc nil s sr))))
      (unlinkInner (fuel + 1) (A x) (A s) root) ⟨ptr A sr, A s, colorBit sc⟩
      (treeAt A root (plug ctx (node c l s sr)) *
        nodeAt .left (A x) (pack (parent A ctx) c) (ptr A l) (A s)) := by
  have hwalk : Reads (treeAt A root (plug ctx (node c l x (node sc nil s sr))))
      (outermost .left (fuel + 1) (A s)) (A s) := by
    have hread := @reads_outermost α A root (.inRight c l x :: ctx) .left sc (fuel + 1) nil sr s
      (by simp [height])
    exact hread
  refine Reads.then hwalk ?_
  simp only [treeAt_plug, tree, ptr_node, ptr_nil, one_mul, nodeAt, Dir.flip]
  refine Reads.then reads_rbParent ?_
  rw [(aligned_parent A ctx).parentOf_pack]
  refine Triple.bind (triple_changeChild _) ?_
  refine Reads.then reads_load ?_
  refine Reads.then reads_rbParent ?_
  refine Reads.then reads_rbColor ?_
  rw [(A.aligned x).parentOf_pack, (A.aligned x).colorOf_pack, detachSuccessor, if_pos rfl]
  refine Triple.bind Triple.pure ?_
  refine Reads.then reads_load ?_
  refine Triple.bind (triple_store _) ?_
  refine Reads.then reads_load ?_
  refine Triple.bind (triple_store _) ?_
  refine Reads.then reads_load ?_
  refine Triple.bind (Triple.at (triple_setParent hl (A.aligned x) (A s))) ?_
  refine Triple.pure.post ?_
  ac_rfl

/-- The successor is further down. -/
theorem triple_unlinkInner_deep {fuel : Nat} {fc : Color} {fv : α} {fr : RBTree α}
    {path : List (Frame α)} (hl : l ≠ nil)
    (hwalk : Reads (treeAt A root (plug ctx (node c l x
      (plug (.inLeft fc fv fr :: path) (node sc nil s sr)))))
      (outermost .left fuel (ptr A (plug (.inLeft fc fv fr :: path) (node sc nil s sr)))) (A s)) :
    Triple (treeAt A root (plug ctx (node c l x
        (plug (.inLeft fc fv fr :: path) (node sc nil s sr)))))
      (unlinkInner fuel (A x) (ptr A (plug (.inLeft fc fv fr :: path) (node sc nil s sr))) root)
      ⟨ptr A sr, A fv, colorBit sc⟩
      (treeAt A root (plug ctx (node c l s (plug (.inLeft fc fv fr :: path) sr))) *
        nodeAt .left (A x) (pack (parent A ctx) c) (ptr A l)
          (ptr A (plug (.inLeft fc fv fr :: path) (node sc nil s sr)))) := by
  refine Reads.then hwalk ?_
  have hne : .inLeft fc fv fr :: path ≠ [] := List.cons_ne_nil _ _
  have htop := ptr_plug_congr A hne (node sc nil s sr) sr
  simp only [treeAt_plug, tree, ptr_node, tree_plug A (A x), tree_plug A (A s), ptr_nil, one_mul,
    htop, parentFrom_inLeft]
  -- The parent of the successor is not the node whose place it takes.
  have hparent : Entails (spine A root ctx (A x) *
      (nodeAt .left (A x) (pack (parent A ctx) c) (ptr A l)
        (ptr A (plug (.inLeft fc fv fr :: path) sr)) *
        (tree A (A x) l * (segment A (A x) (.inLeft fc fv fr :: path) (A s) *
          (nodeAt .left (A s) (pack (A fv) sc) 0 (ptr A sr) * tree A (A s) sr)))))
      (A fv ≠ A x) :=
    (entails_segment_ne _ _ _ _ _).frame (F := spine A root ctx (A x) * (tree A (A x) l *
      (nodeAt .left (A s) (pack (A fv) sc) 0 (ptr A sr) * tree A (A s) sr))) (by ac_rfl)
  refine Triple.of_entails hparent fun hparent => ?_
  simp only [nodeAt, Dir.flip]
  refine Reads.then reads_rbParent ?_
  rw [(aligned_parent A ctx).parentOf_pack]
  refine Triple.bind (triple_changeChild _) ?_
  refine Reads.then reads_load ?_
  refine Reads.then reads_rbParent ?_
  refine Reads.then reads_rbColor ?_
  rw [(A.aligned fv).parentOf_pack, (A.aligned fv).colorOf_pack, detachSuccessor,
    if_neg hparent]
  simp only [bind_assoc, pure_bind]
  refine Triple.bind (Triple.at (triple_reparent (A.aligned s) (A fv))) ?_
  have hhole : Triple (segment A (A x) (.inLeft fc fv fr :: path) (A s))
      (store (.child .left (A fv)) (ptr A sr)) ()
      (segment A (A x) (.inLeft fc fv fr :: path) (ptr A sr)) := triple_storeHole _ _ _
  refine Triple.bind hhole.at ?_
  refine Reads.then reads_load ?_
  refine Triple.bind (triple_store _) ?_
  refine Reads.then reads_load ?_
  refine Triple.bind (Triple.at (triple_setParent_segment hne (A.aligned x) (A s)
    (ptr A sr))) ?_
  refine Reads.then reads_load ?_
  refine Triple.bind (triple_store _) ?_
  refine Reads.then reads_load ?_
  refine Triple.bind (triple_store _) ?_
  refine Reads.then reads_load ?_
  refine Triple.bind (Triple.at (triple_setParent hl (A.aligned x) (A s))) ?_
  refine Triple.pure.post ?_
  ac_rfl

/-- A node with two children, whatever the way to its successor is. -/
theorem triple_unlinkInner (fuel : Nat) {rc : Color} {rl rr : RBTree α} {rv : α} (hl : l ≠ nil)
    (hfuel : rl.height < fuel) {succ : α × Color × RBTree α × List (Frame α)}
    (hsucc : succ = leftmost rc rl rv rr []) :
    Triple (treeAt A root (plug ctx (node c l x (node rc rl rv rr))))
      (unlinkInner fuel (A x) (A rv) root)
      ⟨ptr A succ.2.2.1, parent A (succ.2.2.2 ++ .inRight c l succ.1 :: ctx), colorBit succ.2.1⟩
      (treeAt A root (plug (succ.2.2.2 ++ .inRight c l succ.1 :: ctx) succ.2.2.1) *
        nodeAt .left (A x) (pack (parent A ctx) c) (ptr A l) (A rv)) := by
  have hread := @reads_outermost α A root (.inRight c l x :: ctx) .left rc fuel rl rr rv hfuel
  obtain ⟨steps, hsteps, hleft, -⟩ := exists_outer_path .left rc rl rr rv []
  have hplug := plug_outer .left rc rl rr rv []
  have happ := leftmost_append rc rl rv rr [] (.inRight c l x :: ctx)
  rw [List.nil_append] at happ
  rw [← leftmost_eq_outer, ← hsucc] at hsteps hplug
  rw [← leftmost_eq_outer, happ, ← hsucc] at hread
  obtain ⟨s, sc, sr, path⟩ := succ
  simp only [List.append_nil] at hsteps
  subst hsteps
  cases path with
  | nil =>
      cases hplug
      obtain ⟨k, rfl⟩ : ∃ k, fuel = k + 1 := ⟨fuel - 1, by omega⟩
      exact triple_unlinkInner_child k hl
  | cons f path =>
      obtain ⟨fc, fv, fr, rfl⟩ := hleft f List.mem_cons_self
      have htree : plug (.inLeft fc fv fr :: path) (node sc nil s sr) = node rc rl rv rr := hplug
      have hdeep := @triple_unlinkInner_deep α A root ctx c sc l sr x s fuel fc fv fr path hl
      rw [htree] at hdeep
      have hresult : plug ((.inLeft fc fv fr :: path) ++ .inRight c l s :: ctx) sr =
          plug ctx (node c l s (plug (.inLeft fc fv fr :: path) sr)) := plug_append _ _ _
      simp only [Frame.side]
      rw [hresult]
      exact hdeep hread

/-! ## `rb_erase` -/

/-- What remains to be done when a node has left its place. -/
theorem triple_restore (fuel : Nat) {v : α} (hat : AtHole ctx (side d sc child v nil) n)
    (hfuel : ctx.length < fuel) :
    Triple (treeAt A root (plug ctx child))
      (if colorBit sc = rbBlack then _rbEraseColor fuel (ptr A child) (parent A ctx) root
        else return ()) ()
      (treeAt A root (if sc = .black then eraseColor child ctx else plug ctx child)) := by
  cases sc with
  | red =>
      rw [if_neg (by decide), if_neg (by decide)]
      exact Triple.pure
  | black =>
      rw [if_pos (by rfl), if_pos rfl]
      obtain ⟨m, hshort, hhole⟩ := hat.short
      exact triple_rbEraseColor fuel hshort hhole hfuel

/-- `rb_erase` never follows a null pointer and ends, and it leaves in memory what unlinking
the node from the tree gives, and the fields of the node as they were. -/
theorem triple_rbErase (fuel : Nat) (ht : RedBlack (plug ctx (node c l x r)))
    (hfuel : (plug ctx (node c l x r)).height ≤ fuel) :
    Triple (treeAt A root (plug ctx (node c l x r))) (rbErase fuel (A x) root) ()
      (treeAt A root (unlink c l r ctx) *
        nodeAt .left (A x) (pack (parent A ctx) c) (ptr A l) (ptr A r)) := by
  obtain ⟨n, hat⟩ := ht.atHole_plug
  have hlen := length_add_height_le ctx (node c l x r)
  simp only [height] at hlen
  have hleft : Reads (treeAt A root (plug ctx (node c l x r))) (load (.child .left (A x)))
      (ptr A l) := reads_near (d := .left)
  have hright : Reads (treeAt A root (plug ctx (node c l x r))) (load (.child .right (A x)))
      (ptr A r) := reads_far (d := .left)
  unfold rbErase unlinkAny
  simp only [bind_assoc]
  refine Reads.then hleft (Reads.then hright ?_)
  cases l with
  | nil =>
      rw [ptr_nil, if_pos rfl]
      refine Triple.bind (triple_unlinkNode (d := .right)) ?_
      refine (Triple.at (triple_restore fuel (d := .right) hat (by omega))).post ?_
      simp only [unlink, nodeAt, Dir.flip]
      ac_rfl
  | node lc ll lv lr =>
      rw [ptr_node, if_neg (A.ne_null lv)]
      cases r with
      | nil =>
          rw [ptr_nil, if_pos rfl]
          refine Triple.bind (triple_unlinkNode (d := .left)) ?_
          exact (Triple.at (triple_restore fuel (d := .left) hat (by omega))).post rfl
      | node rc rl rv rr =>
          simp only [height] at hlen
          rw [ptr_node, if_neg (A.ne_null rv)]
          have hl : node lc ll lv lr ≠ nil := side_ne_nil .left lc ll lv lr
          refine Triple.bind (triple_unlinkInner fuel hl (by omega) rfl) ?_
          obtain ⟨m, hsucc⟩ := hat.successor
          refine (Triple.at (triple_restore fuel (d := .right) hsucc ?_)).post rfl
          obtain ⟨path, hpath, -, hle⟩ := exists_outer_path .left rc rl rr rv []
          rw [leftmost_eq_outer, hpath, List.append_nil, List.length_append, List.length_cons]
          omega

/-- Any node can be taken out of a red-black tree in memory: the other nodes keep their order
and form a red-black tree, no other node was touched, and the loops took at most
`2 log₂ (n + 1)` turns. -/
theorem triple_takeOut (A : Placement α) (root : Word) (ctx : List (Frame α)) (c : Color)
    (l r : RBTree α) (x : α) (fuel : Nat) (ht : RedBlack (plug ctx (node c l x r)))
    (hfuel : 2 * Nat.log 2 ((plug ctx (node c l x r)).size + 1) ≤ fuel) :
    ∃ t', RedBlack t' ∧ t'.toList = before ctx ++ (l.toList ++ r.toList) ++ after ctx ∧
      Triple (treeAt A root (plug ctx (node c l x r))) (rbErase fuel (A x) root) ()
        (treeAt A root t' *
          nodeAt .left (A x) (pack (parent A ctx) c) (ptr A l) (ptr A r)) := by
  obtain ⟨n, hat⟩ := ht.atHole_plug
  exact ⟨unlink c l r ctx, hat.unlink, toList_unlink c l r ctx,
    triple_rbErase fuel ht (ht.height_le.trans hfuel)⟩

/-- The root is taken out, and its successor is deeper than its child. -/
theorem triple_takeOut_root :
    (∃ h, (treeAt slots 8 (node .black (node .black nil 1 nil) 2
      (node .black (node .red nil 3 nil) 4 nil))).Holds h) ∧
    ∃ t', RedBlack t' ∧ t'.toList = [1, 3, 4] ∧
      Triple (treeAt slots 8 (node .black (node .black nil 1 nil) 2
          (node .black (node .red nil 3 nil) 4 nil)))
        (rbErase 6 (slots 2) 8) ()
        (treeAt slots 8 t' * nodeAt .left (slots 2) (pack 0 .black) (slots 1) (slots 4)) := by
  have hfits := @fits_treeAt Nat slots 8 (node .black (node .black nil 1 nil) 2
    (node .black (node .red nil 3 nil) 4 nil)) (by decide)
  refine ⟨hfits.exists_holds, ?_⟩
  have hsize : Nat.log 2 (4 + 1) ≤ 3 := (Nat.log_lt_of_lt_pow (by decide) (by decide)).le
  exact triple_takeOut slots 8 [] .black (node .black nil 1 nil)
    (node .black (node .red nil 3 nil) 4 nil) 2 6
    ⟨rfl, 2, .black (.black .nil .nil) (.black (.red .nil .nil rfl rfl) .nil)⟩
    (Nat.mul_le_mul_left 2 hsize)

end Rbtree
end TmULThreads
