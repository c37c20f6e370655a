import TmULThreads.Rbtree.Insert

/-!
# `rb_erase` in memory

`__rb_erase_color` looks at the sibling of a node, at the children of the sibling and at the
node that a rotation has put there, all without a test for `NULL`.  That is safe in a tree that
was red-black before the removal: the place that is one black node short has a sibling, and
a red sibling has two black children.  `rb_erase` then does in memory what `unlink` does to
the tree, and the fields of the node that was removed are left as they were.
-/

namespace TmULThreads
namespace Rbtree

open RedBlackTree RBTree Separation

variable {α : Type} {A : Placement α} {root : Word} {ctx : List (Frame α)} {d : Dir}
  {pc oc : Color} {t near far other : RBTree α} {pv ov nv : α} {n : Nat}

/-! ## One turn of the loop -/

theorem reads_bothBlack :
    Reads (treeAt A root (plug ctx (side d pc t pv (side d oc near ov far)))) (bothBlack (A ov))
      (!near.isRed && !far.isRed) := by
  rw [plug_far]
  generalize Frame.side d.flip pc pv t :: ctx = ctx
  cases d with
  | left =>
      refine Reads.bind reads_near (Reads.bind reads_isRedNode_near ?_)
      cases hnear : near.isRed with
      | true => exact Reads.pure
      | false => exact Reads.bind (reads_far (d := .left)) (Reads.bind reads_isRedNode_far Reads.pure)
  | right =>
      refine Reads.bind (reads_far (d := .right)) (Reads.bind reads_isRedNode_far ?_)
      cases hfar : far.isRed with
      | true =>
          rw [Bool.not_true, Bool.and_false]
          exact Reads.pure
      | false =>
          rw [Bool.not_false, Bool.and_true]
          exact Reads.bind reads_near (Reads.bind reads_isRedNode_near Reads.pure)

theorem reads_blackSibling :
    Reads (treeAt A root (plug ctx (side d pc t pv (side d .black near ov far))))
      (blackSibling d (A pv) root) (A ov) := by
  refine Reads.bind reads_far ?_
  rw [ptr_side]
  have hred : Reads (treeAt A root (plug ctx (side d pc t pv (side d .black near ov far))))
      (rbIsRed (A ov)) (decide (Color.black = .red)) := by
    rw [plug_far]
    exact reads_isRed
  exact Reads.bind hred Reads.pure

theorem triple_blackSibling_red :
    Triple (treeAt A root (plug ctx (side d pc t pv (side d .red near ov far))))
      (blackSibling d (A pv) root) (ptr A near)
      (treeAt A root (plug (.side d .black ov far :: ctx) (side d .red t pv near))) := by
  refine Reads.then reads_far ?_
  rw [ptr_side]
  have hred : Reads (treeAt A root (plug ctx (side d pc t pv (side d .red near ov far))))
      (rbIsRed (A ov)) (decide (Color.red = .red)) := by
    rw [plug_far]
    exact reads_isRed
  refine Reads.then hred ?_
  rw [if_pos (by decide)]
  refine Triple.bind (triple_recolor_far (recolors_black .red)) ?_
  refine Triple.bind (triple_recolor (recolors_red pc)) ?_
  refine Triple.bind triple_rotate ?_
  rw [← plug_side]
  exact reads_far.triple

/-- The red node on the far side of the sibling takes over the missing black. -/
theorem triple_turnSibling {c : Color} {a b : RBTree α} {v : α} (hb : b.isRed = true) :
    Triple (treeAt A root (plug ctx (side d pc t pv (side d c a v b))))
      (turnSibling d (A pv) (A v) root) ()
      (treeAt A root (plug ctx (side d pc (side d .black t pv a) v b.blacken))) := by
  obtain ⟨bl, bv, br, rfl⟩ := exists_side_of_isRed d hb
  refine Reads.then reads_color ?_
  refine Triple.bind (triple_recolor_far (recolors_color c pc)) ?_
  refine Triple.bind (triple_recolor (recolors_black pc)) ?_
  have hfar : Reads (treeAt A root (plug ctx (side d .black t pv (side d pc a v
      (side d .red bl bv br))))) (load (.child d.flip (A v))) (A bv) := by
    rw [plug_far, ← ptr_side A d .red bl br bv]
    exact reads_far
  refine Reads.then hfar ?_
  have hset : Triple (treeAt A root (plug ctx (side d .black t pv (side d pc a v
      (side d .red bl bv br))))) (rbSetBlack (A bv)) ()
      (treeAt A root (plug ctx (side d .black t pv (side d pc a v
        (side d .black bl bv br))))) := by
    rw [plug_far d .black t, plug_far d .black t]
    exact triple_recolor_far (recolors_black .red)
  refine Triple.bind hset ?_
  rw [blacken_side]
  exact triple_rotate

theorem triple_redFar (hfar : far.isRed = false) {nn nf : RBTree α} :
    Triple (treeAt A root (plug ctx (side d pc t pv (side d oc (side d .red nn nv nf) ov far))))
      (redFar d (A pv) (A ov) root) (A nv)
      (treeAt A root (plug ctx (side d pc t pv (side d .black nn nv (side d .red nf ov far))))) := by
  -- All of it happens below the parent.
  rw [plug_far d pc t, plug_far d pc t]
  refine Reads.then reads_far ?_
  refine Reads.then reads_isRedNode_far ?_
  rw [hfar, if_neg Bool.false_ne_true]
  refine Reads.then reads_near ?_
  rw [ptr_side]
  refine Triple.bind (triple_recolor_near (recolors_black .red)) ?_
  refine Triple.bind (triple_recolor (recolors_red oc)) ?_
  refine Triple.bind triple_rotate_flip ?_
  rw [← plug_far, ← ptr_side A d .black nn (side d .red nf ov far) nv]
  exact reads_far.triple

/-- What the rest of the body makes of a parent with a black sibling. -/
theorem triple_borrowFrom :
    Triple (treeAt A root (plug ctx (side d pc t pv (side d oc near ov far))))
      (borrowFrom d (A pv) (A ov) root)
      (if (borrow d t pc pv (side d oc near ov far)).2 then some (A pv, parent A ctx) else none)
      (treeAt A root (plug ctx (borrow d t pc pv (side d oc near ov far)).1)) := by
  refine Reads.then reads_bothBlack ?_
  cases hfar : far.isRed with
  | true =>
      rw [borrow_far d pc oc pv ov hfar, if_neg (by simp), if_neg (by simp)]
      have hstay : Reads (treeAt A root (plug ctx (side d pc t pv (side d oc near ov far))))
          (redFar d (A pv) (A ov) root) (A ov) := by
        rw [plug_far]
        refine Reads.bind reads_far (Reads.bind reads_isRedNode_far ?_)
        rw [hfar]
        exact Reads.pure
      exact Reads.then hstay (Triple.bind (triple_turnSibling hfar) Triple.pure)
  | false =>
      cases hnear : near.isRed with
      | true =>
          obtain ⟨nn, nv, nf, rfl⟩ := exists_side_of_isRed d hnear
          rw [borrow_near d pc oc pv ov nv nn nf hfar, if_neg (by simp), if_neg (by simp)]
          refine Triple.bind (triple_redFar hfar) ?_
          have hred : (side d .red nf ov far).isRed = true := by simp
          rw [← blacken_side d .red nf far ov]
          exact Triple.bind (triple_turnSibling hred) Triple.pure
      | false =>
          rw [borrow_black d pc oc pv ov hnear hfar, if_pos (by simp), if_pos rfl]
          refine Triple.bind (triple_recolor_far (recolors_red oc)) ?_
          exact Reads.then reads_parent Triple.pure

theorem triple_eraseCase_black :
    Triple (treeAt A root (plug ctx (side d pc t pv (side d .black near ov far))))
      (eraseCase d (A pv) root)
      (if (borrow d t pc pv (side d .black near ov far)).2 then some (A pv, parent A ctx) else none)
      (treeAt A root (plug ctx (borrow d t pc pv (side d .black near ov far)).1)) :=
  Reads.then reads_blackSibling triple_borrowFrom

/-- A red sibling goes up, and the parent, red now, borrows from its near child. -/
theorem triple_eraseCase_red {nn nf : RBTree α} :
    Triple (treeAt A root (plug ctx (side d pc t pv
        (side d .red (side d .black nn nv nf) ov far))))
      (eraseCase d (A pv) root)
      (if (borrow d t .red pv (side d .black nn nv nf)).2 then some (A pv, A ov) else none)
      (treeAt A root (plug (.side d .black ov far :: ctx)
        (borrow d t .red pv (side d .black nn nv nf)).1)) := by
  refine Triple.bind triple_blackSibling_red ?_
  rw [ptr_side, ← parent_side A d .black far ov ctx]
  exact triple_borrowFrom

/-! ## The loop -/

/-- What the loop finds beside a place that is one black node short. -/
theorem sibling_cases {f : Frame α} (hblack : t.isRed = false) (ht : Short t n)
    (hctx : Hole (f :: ctx) (n + 1)) :
    ∃ d pc pv other, f = .side d pc pv other ∧
      ((∃ near ov far, other = side d .black near ov far ∧
          ((borrow d t pc pv other).2 = true →
            ∃ m, Short (borrow d t pc pv other).1 m ∧ Hole ctx (m + 1))) ∨
        ∃ near ov far nn nv nf, other = side d .red near ov far ∧
          near = side d .black nn nv nf) := by
  rw [Short, if_neg (by simp [hblack])] at ht
  cases hctx with
  | @red d pv other _ _ hother hob hne htop hup =>
      refine ⟨d, .red, pv, other, rfl, .inl ?_⟩
      have hcases := (borrow_cases d .red pv ht hother hob).2
      obtain ⟨near, ov, far, rfl, -, -⟩ := hother.exists_black d hob
      refine ⟨near, ov, far, rfl, fun hgo => ?_⟩
      rcases hcases with ⟨-, hshort⟩ | ⟨hstop, -⟩
      · exact ⟨n, hshort, hup⟩
      · exact absurd (hgo.symm.trans hstop) (by decide)
  | @black d pv other _ _ hother hup =>
      refine ⟨d, .black, pv, other, rfl, ?_⟩
      cases hob : other.isRed with
      | false =>
          have hcases := (borrow_cases d .black pv ht hother hob).2
          obtain ⟨near, ov, far, rfl, -, -⟩ := hother.exists_black d hob
          refine .inl ⟨near, ov, far, rfl, fun hgo => ?_⟩
          rcases hcases with ⟨-, hshort⟩ | ⟨hstop, -⟩
          · exact ⟨n + 1, hshort, hup⟩
          · exact absurd (hgo.symm.trans hstop) (by decide)
      | true =>
          obtain ⟨near, ov, far, rfl⟩ := exists_side_of_isRed d hob
          obtain ⟨hnear, -, hnearb, -⟩ := balanced_side_red.mp hother
          obtain ⟨nn, nv, nf, rfl, -, -⟩ := hnear.exists_black d hnearb
          exact .inr ⟨_, ov, far, nn, nv, nf, rfl, rfl⟩

theorem reads_eraseLoop_red (fuel : Nat) (hred : t.isRed = true) (p : Word) :
    Reads (treeAt A root (plug ctx t)) (eraseLoop root (fuel + 1) (ptr A t) p) (ptr A t) := by
  refine Reads.bind reads_isRedNode ?_
  rw [hred]
  exact Reads.pure

theorem reads_eraseLoop_top (fuel : Nat) (p : Word) :
    Reads (treeAt A root (plug [] t)) (eraseLoop root (fuel + 1) (ptr A t) p) (ptr A t) := by
  refine Reads.bind reads_isRedNode ?_
  cases t.isRed with
  | true => exact Reads.pure
  | false =>
      refine Reads.bind reads_rbNode ?_
      rw [plug, if_pos rfl]
      exact Reads.pure

theorem triple_eraseLoop_turn (fuel : Nat) (hblack : t.isRed = false) (hother : other ≠ nil)
    {s s' : RBTree α} {next : Option (Word × Word)} {a : Word}
    (hcase : Triple (treeAt A root (plug ctx (side d pc t pv other))) (eraseCase d (A pv) root)
      next (treeAt A root s))
    (hrest : Triple (treeAt A root s) (match next with
      | some (n, p) => eraseLoop root fuel n p
      | none => load (.rbNode root)) a (treeAt A root s')) :
    Triple (treeAt A root (plug (.side d pc pv other :: ctx) t))
      (eraseLoop root (fuel + 1) (ptr A t) (parent A (.side d pc pv other :: ctx))) a
      (treeAt A root s') := by
  rw [eraseLoop]
  refine Reads.then reads_isRedNode ?_
  rw [hblack, if_neg Bool.false_ne_true]
  refine Reads.then reads_rbNode ?_
  refine Triple.of_entails (entails_top_ne (List.cons_ne_nil _ _)) fun htop => ?_
  rw [if_neg htop, plug_side, parent_side]
  refine Reads.then reads_left ?_
  refine Triple.of_entails (entails_left_iff (.inr hother)) fun hleft => ?_
  rw [(side_of_test hleft).1]
  exact Triple.bind hcase hrest

/-- After a turn that ends the loop, the node is the root. -/
theorem triple_eraseLoop_break {fuel : Nat} {s : RBTree α} (hblack : t.isRed = false)
    (hother : other ≠ nil)
    (hcase : Triple (treeAt A root (plug ctx (side d pc t pv other))) (eraseCase d (A pv) root)
      none (treeAt A root s)) :
    Triple (treeAt A root (plug (.side d pc pv other :: ctx) t))
      (eraseLoop root (fuel + 1) (ptr A t) (parent A (.side d pc pv other :: ctx))) (ptr A s)
      (treeAt A root s) :=
  triple_eraseLoop_turn fuel hblack hother hcase reads_rbNode.triple

/-- The repair in memory is the repair of the tree; the node at the end of the loop has still
to be blackened. -/
theorem triple_eraseLoop (fuel : Nat) (ht : Short t n) (hctx : Hole ctx (n + 1))
    (hfuel : ctx.length < fuel) :
    ∃ ctx' t', Triple (treeAt A root (plug ctx t))
        (eraseLoop root fuel (ptr A t) (parent A ctx)) (ptr A t') (treeAt A root (plug ctx' t')) ∧
      plug ctx' t'.blacken = eraseColor t ctx := by
  induction fuel generalizing t ctx n with
  | zero => omega
  | succ fuel ih =>
      cases ctx with
      | nil => exact ⟨[], t, (reads_eraseLoop_top fuel _).triple, rfl⟩
      | cons f ctx =>
          cases hred : t.isRed with
          | true =>
              exact ⟨f :: ctx, t, (reads_eraseLoop_red fuel hred _).triple,
                (eraseColor_red ctx hred f).symm⟩
          | false =>
              rw [List.length_cons] at hfuel
              obtain ⟨d, pc, pv, other, rfl, ⟨near, ov, far, rfl, hgo⟩ |
                ⟨near, ov, far, nn, nv, nf, rfl, hnear⟩⟩ := sibling_cases hred ht hctx
              · -- a black sibling
                have hcase := @triple_eraseCase_black α A root ctx d pc t near far pv ov
                rw [eraseColor_black_sibling d pc pv ctx hred (by simp)]
                cases hstep : (borrow d t pc pv (side d .black near ov far)).2 with
                | true =>
                    obtain ⟨m, hshort, hhole⟩ := hgo hstep
                    obtain ⟨ctx', t', hloop, ht'⟩ := ih hshort hhole (by omega)
                    rw [borrow_of_short d pc .black pv ov hstep] at hcase hloop ht' ⊢
                    rw [ptr_side] at hloop
                    exact ⟨ctx', t', triple_eraseLoop_turn fuel hred (side_ne_nil _ _ _ _ _)
                      hcase hloop, ht'⟩
                | false =>
                    rw [hstep] at hcase
                    exact ⟨[], _, triple_eraseLoop_break hred (side_ne_nil _ _ _ _ _) hcase, rfl⟩
              · -- a red sibling: the parent is red after the turn, and the loop ends there
                obtain ⟨k, rfl⟩ : ∃ k, fuel = k + 1 := ⟨fuel - 1, by omega⟩
                subst hnear
                have hcase := @triple_eraseCase_red α A root ctx d pc t far pv ov nv nn nf
                rw [eraseColor_red_sibling d pc pv ov ctx hred]
                cases hstep : (borrow d t .red pv (side d .black nn nv nf)).2 with
                | true =>
                    rw [borrow_of_short d .red .black pv nv hstep] at hcase ⊢
                    have hstop := @reads_eraseLoop_red α A root (.side d .black ov far :: ctx)
                      (side d .red t pv (side d .red nn nv nf)) k (by simp) (A ov)
                    rw [ptr_side] at hstop
                    refine ⟨.side d .black ov far :: ctx, side d .red t pv (side d .red nn nv nf),
                      ?_, plug_side ..⟩
                    rw [ptr_side]
                    exact triple_eraseLoop_turn _ hred (side_ne_nil _ _ _ _ _) hcase hstop.triple
                | false =>
                    rw [hstep] at hcase
                    refine ⟨[], _, triple_eraseLoop_break hred (side_ne_nil _ _ _ _ _) hcase, ?_⟩
                    rw [plug_side]
                    rfl

theorem triple_rbEraseColor (fuel : Nat) (ht : Short t n) (hctx : Hole ctx (n + 1))
    (hfuel : ctx.length < fuel) :
    Triple (treeAt A root (plug ctx t)) (_rbEraseColor fuel (ptr A t) (parent A ctx) root) ()
      (treeAt A root (eraseColor t ctx)) := by
  obtain ⟨ctx', t', hloop, ht'⟩ := triple_eraseLoop fuel ht hctx hfuel
  rw [← ht']
  refine Triple.bind hloop ?_
  cases t' with
  | nil => exact Triple.pure
  | node c l v r =>
      rw [unlessNull, ptr_node, if_neg (A.ne_null v)]
      exact triple_recolor (d := .left) (recolors_black c)

end Rbtree
end TmULThreads
