import TmULThreads.Rbtree.Shape

/-!
# `rb_insert_color` in memory

The loop of `rb_insert_color` does to the nodes in memory what `insertColor` does to the tree
that they form.  It looks at the parent of a red parent without a test for `NULL`, which is
safe because the root is black.  Nothing else is asked of the tree: it need not be balanced
or in order.
-/

namespace TmULThreads
namespace Rbtree

open RedBlackTree RBTree Separation

variable {α : Type} {A : Placement α} {root : Word} {ctx : List (Frame α)} {d e : Dir}
  {c gc : Color} {t sib uncle a b : RBTree α} {x p g : α}

/-! ## One turn of the loop -/

/-- Parent and uncle are red: the colours move up by one level. -/
theorem triple_insertCase_red (huncle : uncle.isRed = true) (n : Word) :
    Triple (treeAt A root (plug ctx (side d gc (side e .red t p sib) g uncle)))
      (insertCase d n (A p) (A g) root) (A g)
      (treeAt A root
        (plug ctx (side d .red (side e .black t p sib) g uncle.blacken))) := by
  obtain ⟨l, v, r, rfl⟩ := exists_side_of_isRed .left huncle
  refine Reads.then reads_far ?_
  refine Reads.then reads_isRedNode_far ?_
  rw [if_pos huncle, ptr_side, blacken_side]
  refine Triple.bind (triple_recolor_far (recolors_black .red)) ?_
  refine Triple.bind (triple_recolor_near (recolors_black .red)) ?_
  exact Triple.bind (triple_recolor (recolors_red gc)) Triple.pure

theorem triple_straighten_outer (ht : t ≠ nil) :
    Triple (treeAt A root (plug ctx (side d .red t p sib)))
      (straighten d (ptr A t) (A p) root) (ptr A t, A p)
      (treeAt A root (plug ctx (side d .red t p sib))) := by
  have hne : Entails (treeAt A root (plug ctx (side d .red t p sib))) (ptr A sib ≠ ptr A t) :=
    fun F h hh heq => ht (entails_children F h hh heq.symm).1
  refine Triple.of_entails hne fun hne => ?_
  refine Reads.then reads_far ?_
  rw [if_neg hne]
  exact Triple.pure

theorem triple_straighten_inner :
    Triple (treeAt A root (plug ctx (side d .red sib p (side d c a x b))))
      (straighten d (A x) (A p) root) (A p, A x)
      (treeAt A root (plug ctx (side d c (side d .red sib p a) x b))) := by
  refine Reads.then reads_far ?_
  rw [ptr_side, if_pos rfl]
  exact Triple.bind triple_rotate Triple.pure

/-- The uncle is black: once the red nodes lie on one side, the grandparent is rotated below
them. -/
theorem triple_insertCase_black {n n' : Word} (huncle : uncle.isRed = false)
    (hstraight : Triple (treeAt A root (plug (.side d gc g uncle :: ctx) t))
      (straighten d n (A p) root) (n', A x)
      (treeAt A root (plug (.side d gc g uncle :: ctx) (side d c a x b)))) :
    Triple (treeAt A root (plug (.side d gc g uncle :: ctx) t))
      (insertCase d n (A p) (A g) root) n'
      (treeAt A root (plug ctx (side d .black a x (side d .red b g uncle)))) := by
  rw [plug_side] at hstraight ⊢
  refine Reads.then reads_far ?_
  refine Reads.then reads_isRedNode_far ?_
  rw [huncle, if_neg Bool.false_ne_true]
  refine Triple.bind hstraight ?_
  rw [plug_side]
  refine Triple.bind (triple_recolor_near (recolors_black c)) ?_
  refine Triple.bind (triple_recolor (recolors_red gc)) ?_
  exact Triple.bind triple_rotate_flip Triple.pure

/-! ## The loop -/

/-- A root stays what it is when only something below it changes. -/
theorem isRed_plug_congr (hctx : ctx ≠ []) (s t : RBTree α) :
    (plug ctx s).isRed = (plug ctx t).isRed := by
  induction ctx generalizing s t with
  | nil => exact absurd rfl hctx
  | cons f ctx ih =>
      obtain ⟨d, c, v, far, rfl⟩ := f.exists_side
      rw [plug_side, plug_side]
      cases ctx with
      | nil => simp only [plug, isRed_side]
      | cons g ctx => exact ih (List.cons_ne_nil _ _) _ _

/-- The root above the hole is black. -/
def BlackAbove (ctx : List (Frame α)) : Prop := ctx ≠ [] → (plug ctx nil).isRed = false

/-- The loop goes on only below a red parent, and a red parent is not the root. -/
theorem BlackAbove.cases (hctx : BlackAbove ctx) :
    topRed ctx = false ∨ ∃ e p sib d gc g uncle rest,
      ctx = .side e .red p sib :: .side d gc g uncle :: rest ∧ BlackAbove rest := by
  match ctx with
  | [] => exact .inl rfl
  | [f] =>
      obtain ⟨d, c, v, far, rfl⟩ := f.exists_side
      have hred := hctx (List.cons_ne_nil _ _)
      rw [plug_side] at hred
      simp only [plug, isRed_side] at hred
      exact .inl (topRed_side.trans hred)
  | f :: f' :: rest =>
      obtain ⟨e, c, p, sib, rfl⟩ := f.exists_side
      obtain ⟨d, gc, g, uncle, rfl⟩ := f'.exists_side
      cases c with
      | black => exact .inl topRed_side
      | red =>
          refine .inr ⟨e, p, sib, d, gc, g, uncle, rest, rfl, fun hne => ?_⟩
          have hred := hctx (List.cons_ne_nil _ _)
          rw [plug_side, plug_side] at hred
          rw [isRed_plug_congr hne nil, hred]

theorem insertColor_of_topRed (h : topRed ctx = false) :
    insertColor t ctx = (plug ctx t).blacken := by
  cases ctx with
  | nil => rfl
  | cons f ctx =>
      obtain ⟨d, c, v, far, rfl⟩ := f.exists_side
      cases c with
      | red => exact absurd h (by simp)
      | black => exact insertColor_black ..

theorem reads_isRedNode_parent :
    Reads (treeAt A root (plug ctx t)) (isRedNode (parent A ctx)) (topRed ctx) := by
  cases ctx with
  | nil => exact Reads.pure
  | cons f ctx =>
      obtain ⟨d, c, v, far, rfl⟩ := f.exists_side
      have hread : Reads (treeAt A root (plug ctx (side d c t v far))) _ _ := reads_isRedNode
      rwa [ptr_side, isRed_side, ← plug_side, ← parent_side, ← topRed_side] at hread

theorem triple_insertLoop_stop (fuel : Nat) (ht : t ≠ nil) (hctx : topRed ctx = false) :
    Triple (treeAt A root (plug ctx t)) (insertLoop root (fuel + 1) (ptr A t)) ()
      (treeAt A root (plug ctx t)) := by
  obtain ⟨c, l, x, r, rfl⟩ := exists_side_of_ne_nil .left ht
  rw [insertLoop, ptr_side]
  refine Reads.then reads_parent ?_
  refine Reads.then reads_isRedNode_parent ?_
  rw [hctx, if_neg Bool.false_ne_true]
  exact Triple.pure

/-- One turn below a red parent. -/
theorem triple_insertLoop_turn {fuel : Nat} {n : Word} {s s' : RBTree α} (ht : t ≠ nil)
    (hs : s = plug (.side e .red p sib :: .side d gc g uncle :: ctx) t)
    (hcase : Triple (treeAt A root s) (insertCase d (ptr A t) (A p) (A g) root) n
      (treeAt A root s'))
    {t' : RBTree α} (hloop : Triple (treeAt A root s') (insertLoop root fuel n) ()
      (treeAt A root t')) :
    Triple (treeAt A root s) (insertLoop root (fuel + 1) (ptr A t)) () (treeAt A root t') := by
  obtain ⟨c, l, x, r, rfl⟩ := exists_side_of_ne_nil .left ht
  subst hs
  rw [insertLoop, ptr_side]
  refine Reads.then reads_parent ?_
  refine Reads.then reads_isRedNode_parent ?_
  rw [topRed_side, if_pos (by simp), parent_side]
  rw [plug_side] at hcase ⊢
  refine Reads.then reads_parent ?_
  rw [parent_side]
  rw [plug_side] at hcase ⊢
  refine Reads.then reads_left ?_
  refine Triple.of_entails (entails_left_iff (.inl (side_ne_nil _ _ _ _ _))) fun hleft => ?_
  rw [ptr_side] at hleft ⊢
  rw [(side_of_test hleft).2]
  exact Triple.bind hcase hloop

/-- The turn with a black uncle is the last but one: it leaves a black parent behind. -/
theorem triple_insertLoop_black (fuel : Nat) (ht : t ≠ nil) (huncle : uncle.isRed = false)
    (ha : a ≠ nil)
    (hstraight : Triple
      (treeAt A root (plug (.side e .red p sib :: .side d gc g uncle :: ctx) t))
      (straighten d (ptr A t) (A p) root) (ptr A a, A x)
      (treeAt A root (plug (.side d gc g uncle :: ctx) (side d c a x b)))) :
    Triple (treeAt A root (plug (.side e .red p sib :: .side d gc g uncle :: ctx) t))
      (insertLoop root (fuel + 2) (ptr A t)) ()
      (treeAt A root (plug ctx (side d .black a x (side d .red b g uncle)))) := by
  have hcase : Triple (treeAt A root (plug (.side e .red p sib :: .side d gc g uncle :: ctx) t))
      (insertCase d (ptr A t) (A p) (A g) root) (ptr A a)
      (treeAt A root (plug ctx (side d .black a x (side d .red b g uncle)))) := by
    rw [plug_side] at hstraight ⊢
    exact triple_insertCase_black huncle hstraight
  have hstop : Triple (treeAt A root (plug ctx (side d .black a x (side d .red b g uncle))))
      (insertLoop root (fuel + 1) (ptr A a)) ()
      (treeAt A root (plug ctx (side d .black a x (side d .red b g uncle)))) := by
    rw [← plug_side]
    exact triple_insertLoop_stop fuel ha topRed_side
  exact triple_insertLoop_turn ht rfl hcase hstop

/-- The repair in memory is the repair of the tree, up to the colour of the root. -/
theorem triple_insertLoop (fuel : Nat) (ht : t ≠ nil) (hctx : BlackAbove ctx)
    (hfuel : ctx.length < 2 * fuel) :
    ∃ t', Triple (treeAt A root (plug ctx t)) (insertLoop root fuel (ptr A t)) ()
      (treeAt A root t') ∧ t'.blacken = insertColor t ctx := by
  induction fuel generalizing t ctx with
  | zero => omega
  | succ fuel ih =>
      rcases hctx.cases with hblack | ⟨e, p, sib, d, gc, g, uncle, rest, rfl, hrest⟩
      · exact ⟨_, triple_insertLoop_stop fuel ht hblack, (insertColor_of_topRed hblack).symm⟩
      · simp only [List.length_cons] at hfuel
        cases huncle : uncle.isRed with
        | true =>
            obtain ⟨t', hloop, ht'⟩ := ih (side_ne_nil d .red (side e .black t p sib) g
              uncle.blacken) hrest (by omega)
            rw [ptr_side] at hloop
            refine ⟨t', triple_insertLoop_turn ht rfl ?_ hloop, ?_⟩
            · rw [plug_side, plug_side]
              exact triple_insertCase_red huncle _
            · rw [ht', insertColor_red_uncle t sib p g e d gc rest huncle]
        | false =>
            obtain ⟨k, rfl⟩ : ∃ k, fuel = k + 1 := ⟨fuel - 1, by omega⟩
            by_cases he : e = d
            · subst he
              refine ⟨_, triple_insertLoop_black (c := .red) k ht huncle ht ?_,
                (insertColor_outer t sib p g e gc rest huncle).symm⟩
              rw [plug_side]
              exact triple_straighten_outer ht
            · have hflip : e = d.flip := by
                revert he
                cases e <;> cases d <;> decide
              subst hflip
              obtain ⟨c, a, x, b, rfl⟩ := exists_side_of_ne_nil d ht
              refine ⟨_, triple_insertLoop_black (c := c) k ht huncle
                (side_ne_nil d .red sib p a) ?_,
                (insertColor_inner sib p g d gc rest huncle c a b x).symm⟩
              rw [plug_side, side_flip, ptr_side, ptr_side]
              exact triple_straighten_inner

theorem triple_blacken (ht : t ≠ nil) :
    Triple (treeAt A root t) (load (.rbNode root) >>= rbSetBlack) () (treeAt A root t.blacken) := by
  obtain ⟨c, l, x, r, rfl⟩ := exists_side_of_ne_nil .left ht
  refine Reads.then reads_rbNode ?_
  rw [ptr_side, blacken_side]
  have hset : Triple (treeAt A root (plug [] (side .left c l x r))) (rbSetBlack (A x)) ()
      (treeAt A root (plug [] (side .left .black l x r))) := triple_recolor (recolors_black c)
  exact hset

/-- `rb_insert_color` never follows a null pointer, ends, and leaves in memory what the
repair of the tree gives. -/
theorem triple_rbInsertColor (fuel : Nat) (ht : t ≠ nil) (hctx : BlackAbove ctx)
    (hfuel : ctx.length < 2 * fuel) :
    Triple (treeAt A root (plug ctx t)) (rbInsertColor fuel (ptr A t) root) ()
      (treeAt A root (insertColor t ctx)) := by
  obtain ⟨t', hloop, ht'⟩ := triple_insertLoop fuel ht hctx hfuel
  rw [← ht']
  refine Triple.bind hloop (triple_blacken ?_)
  rintro rfl
  have hempty := congrArg toList ht'
  cases t with
  | nil => exact ht rfl
  | node c l v r => simp at hempty

/-! ## Linking -/

/-- The place of the pointer into the hole. -/
def linkLoc (A : Placement α) (root : Word) : List (Frame α) → Loc
  | [] => .rbNode root
  | .inLeft _ v _ :: _ => .child .left (A v)
  | .inRight _ _ v :: _ => .child .right (A v)

@[simp] theorem linkLoc_side {far : RBTree α} {v : α} :
    linkLoc A root (.side d c v far :: ctx) = .child d (A v) := by
  cases d <;> rfl

theorem reads_link : Reads (treeAt A root (plug ctx t)) (load (linkLoc A root ctx)) (ptr A t) := by
  cases ctx with
  | nil => exact reads_rbNode
  | cons f ctx =>
      obtain ⟨d, c, v, far, rfl⟩ := f.exists_side
      rw [plug_side, linkLoc_side]
      exact reads_near

theorem triple_storeLink (P : Assertion Loc Word) (q q' : Word) :
    Triple (spine A root ctx q * P) (store (linkLoc A root ctx) q') ()
      (spine A root ctx q' * P) := by
  cases ctx with
  | nil =>
      unfold spine linkLoc
      exact (triple_store _).post rfl
  | cons f ctx =>
      obtain ⟨d, c, v, far, rfl⟩ := f.exists_side
      rw [spine_side, spine_side, linkLoc_side]
      exact (triple_store _).post rfl

/-- The new node is a red leaf. -/
theorem triple_rbLinkNode (w l r : Word) :
    Triple (treeAt A root (plug ctx nil) * nodeAt .left (A x) w l r)
      (rbLinkNode (A x) (parent A ctx) (linkLoc A root ctx)) ()
      (treeAt A root (plug ctx (node .red nil x nil))) := by
  simp only [treeAt_plug, tree, mul_one, ptr_node, ptr_nil, pack_red, nodeAt, Dir.flip]
  refine Triple.bind (triple_store _) ?_
  refine Triple.bind (triple_store _) ?_
  refine Triple.bind (triple_store _) ?_
  exact (triple_storeLink _ 0 (A x)).post rfl

/-- A new node can be linked wherever the tree has room for it: the tree in memory is then a
red-black tree with the node in that place, after at most `log₂ (n + 1) + 1` turns of the
loop. -/
theorem triple_linkAndColor (A : Placement α) (root w l r : Word) (ctx : List (Frame α)) (x : α)
    (fuel : Nat) (ht : RedBlack (plug ctx nil))
    (hfuel : Nat.log 2 ((plug ctx nil).size + 1) < fuel) :
    ∃ t', RedBlack t' ∧ t'.toList = before ctx ++ x :: after ctx ∧
      Triple (treeAt A root (plug ctx nil) * nodeAt .left (A x) w l r)
        (do
          rbLinkNode (A x) (parent A ctx) (linkLoc A root ctx)
          rbInsertColor fuel (A x) root) ()
        (treeAt A root t') := by
  obtain ⟨n, hhole, hbal, -⟩ := ht.atHole_plug
  have hlen : ctx.length ≤ (plug ctx nil).height := length_add_height_le ctx nil
  have hheight := ht.height_le
  cases hbal
  refine ⟨insertColor (node .red nil x nil) ctx,
    insertColor_redBlack (.red .nil .nil rfl rfl) rfl hhole, by simp, ?_⟩
  refine Triple.bind (triple_rbLinkNode w l r) ?_
  exact triple_rbInsertColor fuel (side_ne_nil .left .red nil x nil) (fun _ => ht.1) (by omega)

/-- The fourth node of an ascending sequence meets a red uncle. -/
theorem triple_linkAndColor_redUncle :
    (∃ h, (treeAt slots 8 (node .black (node .red nil 1 nil) 2 (node .red nil 3 nil)) *
      nodeAt .left (slots 4) 0 0 0).Holds h) ∧
    ∃ t', RedBlack t' ∧ t'.toList = [1, 2, 3, 4] ∧
      Triple (treeAt slots 8 (node .black (node .red nil 1 nil) 2 (node .red nil 3 nil)) *
          nodeAt .left (slots 4) 0 0 0)
        (do
          rbLinkNode (slots 4) (slots 3) (.child .right (slots 3))
          rbInsertColor 3 (slots 4) 8) ()
        (treeAt slots 8 t') := by
  refine ⟨fits_treeAt_node 8 0 0 0 _ 4 (by decide), ?_⟩
  have hsize : Nat.log 2 (3 + 1) < 3 := Nat.log_lt_of_lt_pow (by decide) (by decide)
  exact triple_linkAndColor slots 8 0 0 0
    [.inRight .red nil 3, .inRight .black (node .red nil 1 nil) 2] 4 3
    ⟨rfl, 1, .black (.red .nil .nil rfl rfl) (.red .nil .nil rfl rfl)⟩ hsize

end Rbtree
end TmULThreads
