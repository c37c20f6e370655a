import TmULThreads.Rbtree.Model

/-!
# Trees in memory

`treeAt A root t` describes a memory that holds the tree `t` below the root structure `root`;
the placement `A` says at which address the node of a value is.  A tree with a hole is
described by `spine`, and `treeAt_plug` puts the two together, so that a function that works
at one node is proved at that node and holds in every tree.

The last part says what the statements that the functions share do to a tree: a test reads
a colour, a setter changes the colour of one node, a rotation turns one edge.
-/

namespace TmULThreads
namespace Rbtree

open RedBlackTree RBTree Separation

/-! ## The packed word -/

def colorBit : Color → Word
  | .red => rbRed
  | .black => rbBlack

/-- The word of a node whose parent is at `p`. -/
def pack (p : Word) (c : Color) : Word := p ||| colorBit c

theorem colorBit_and (c : Color) :
    colorBit c &&& ~~~3 = 0 ∧ colorBit c &&& ~~~1 = 0 ∧ colorBit c &&& 3 = colorBit c ∧
      colorBit c &&& 1 = colorBit c ∧ colorBit c ||| 1 = 1 := by
  cases c <;> decide

/-- The two low bits of a pointer to a node are free. -/
structure Aligned (p : Word) : Prop where
  low : p &&& 3 = 0

theorem Aligned.zero : Aligned 0 := ⟨rfl⟩

section Words

variable {p q : Word}

theorem and_not_of_and {m : Word} (h : p &&& m = 0) : p &&& ~~~m = p := by
  have hsplit : p &&& (m ||| ~~~m) = p := by
    rw [BitVec.or_not_self, BitVec.and_allOnes]
  rw [BitVec.and_or_distrib_left, h] at hsplit
  exact BitVec.zero_or.symm.trans hsplit

theorem Aligned.and_one (hp : Aligned p) : p &&& 1 = 0 := by
  have hmask : (1 : Word) = 3 &&& 1 := by decide
  rw [hmask, ← BitVec.and_assoc, hp.low]
  exact BitVec.zero_and

theorem Aligned.parentOf_pack (hp : Aligned p) (c : Color) : parentOf (pack p c) = p := by
  unfold parentOf pack
  rw [BitVec.and_or_distrib_right, and_not_of_and hp.low, (colorBit_and c).1]
  exact BitVec.or_zero

theorem Aligned.colorOf_pack (hp : Aligned p) (c : Color) : colorOf (pack p c) = colorBit c := by
  unfold colorOf pack
  rw [BitVec.and_or_distrib_right, hp.and_one, (colorBit_and c).2.2.2.1]
  exact BitVec.zero_or

theorem Aligned.pack_setRed (hp : Aligned p) (c : Color) : pack p c &&& ~~~1 = pack p .red := by
  unfold pack
  rw [BitVec.and_or_distrib_right, and_not_of_and hp.and_one, (colorBit_and c).2.1]
  rfl

theorem pack_setBlack (p : Word) (c : Color) : pack p c ||| 1 = pack p .black := by
  unfold pack
  rw [BitVec.or_assoc, (colorBit_and c).2.2.2.2]
  rfl

theorem Aligned.pack_setColor (hp : Aligned p) (c c' : Color) :
    (pack p c &&& ~~~1) ||| colorBit c' = pack p c' := by
  rw [hp.pack_setRed]
  show (p ||| 0) ||| colorBit c' = p ||| colorBit c'
  rw [show p ||| 0 = p from BitVec.or_zero]

theorem Aligned.pack_setParent (hp : Aligned p) (q : Word) (c : Color) :
    (pack p c &&& 3) ||| q = pack q c := by
  unfold pack
  rw [BitVec.and_or_distrib_right, hp.low, (colorBit_and c).2.2.1,
    show 0 ||| colorBit c = colorBit c from BitVec.zero_or]
  exact BitVec.or_comm ..

theorem pack_red (p : Word) : pack p .red = p := BitVec.or_zero

end Words

/-! ## Assertions -/

/-- Where the node of each value is. -/
structure Placement (α : Type) where
  addr : α → Word
  ne_null : ∀ v, addr v ≠ 0
  aligned : ∀ v, Aligned (addr v)

instance {α : Type} : CoeFun (Placement α) fun _ => α → Word := ⟨Placement.addr⟩

/-- The three fields of the node at `a`. -/
abbrev nodeAt (d : Dir) (a w near far : Word) : Assertion Loc Word :=
  cell (.rbParentColor a) w * (cell (.child d a) near * cell (.child d.flip a) far)

section Trees

variable {α : Type} (A : Placement α)

def ptr : RBTree α → Word
  | .nil => 0
  | .node _ _ v _ => A v

/-- The address of the parent of the hole. -/
def parent : List (Frame α) → Word
  | [] => 0
  | .inLeft _ v _ :: _ => A v
  | .inRight _ _ v :: _ => A v

/-- A tree whose root has its parent at `p`. -/
def tree : Word → RBTree α → Assertion Loc Word
  | _, .nil => 1
  | p, .node c l v r =>
      nodeAt .left (A v) (pack p c) (ptr A l) (ptr A r) * (tree (A v) l * tree (A v) r)

/-- A tree with a hole, where the pointer into the hole is `p`. -/
def spine (root : Word) : List (Frame α) → Word → Assertion Loc Word
  | [], p => cell (.rbNode root) p
  | .inLeft c v r :: ctx, p =>
      nodeAt .left (A v) (pack (parent A ctx) c) p (ptr A r) * tree A (A v) r *
        spine root ctx (A v)
  | .inRight c l v :: ctx, p =>
      nodeAt .right (A v) (pack (parent A ctx) c) p (ptr A l) * tree A (A v) l *
        spine root ctx (A v)

def treeAt (root : Word) (t : RBTree α) : Assertion Loc Word :=
  spine A root [] (ptr A t) * tree A 0 t

variable (d : Dir) (c : Color) (near far : RBTree α) (v : α) (ctx : List (Frame α))

@[simp] theorem ptr_nil : ptr A nil = 0 := rfl

@[simp] theorem ptr_node (l r : RBTree α) : ptr A (node c l v r) = A v := rfl

@[simp] theorem ptr_side : ptr A (side d c near v far) = A v := by
  cases d <;> rfl

@[simp] theorem parent_nil : parent A [] = 0 := rfl

@[simp] theorem parent_side : parent A (.side d c v far :: ctx) = A v := by
  cases d <;> rfl

theorem aligned_parent : Aligned (parent A ctx) := by
  cases ctx with
  | nil => exact .zero
  | cons f ctx =>
      obtain ⟨d, c, v, far, rfl⟩ := f.exists_side
      rw [parent_side]
      exact A.aligned v

theorem tree_side (p : Word) :
    tree A p (side d c near v far) =
      nodeAt d (A v) (pack p c) (ptr A near) (ptr A far) *
        (tree A (A v) near * tree A (A v) far) := by
  cases d with
  | left => rfl
  | right =>
      simp only [side, tree, nodeAt, Dir.flip]
      ac_rfl

theorem spine_side (root p : Word) :
    spine A root (.side d c v far :: ctx) p =
      nodeAt d (A v) (pack (parent A ctx) c) p (ptr A far) * tree A (A v) far *
        spine A root ctx (A v) := by
  cases d <;> rfl

/-- A tree with a hole, and what is in the hole. -/
theorem treeAt_plug (root : Word) (t : RBTree α) :
    treeAt A root (plug ctx t) = spine A root ctx (ptr A t) * tree A (parent A ctx) t := by
  induction ctx generalizing t with
  | nil => rfl
  | cons f ctx ih =>
      obtain ⟨d, c, v, far, rfl⟩ := f.exists_side
      rw [plug_side, ih, tree_side, spine_side, ptr_side, parent_side]
      ac_rfl

end Trees

/-! ## Every tree has a memory -/

section Existence

variable {α : Type} {A : Placement α}

/-- The locations of the node at `a`. -/
def nodeLocs (a : Word) : Set Loc := {.rbParentColor a, .child .left a, .child .right a}

theorem not_mem_nodeLocs {a b : Word} {k : Loc} (h : a ≠ b) (hk : k ∈ nodeLocs a) :
    k ∉ nodeLocs b := by
  rcases hk with rfl | rfl | rfl <;> simp [nodeLocs, h]

theorem fits_nodeAt (a w l r : Word) : Fits (nodeAt .left a w l r) (nodeLocs a) := by
  refine ((fits_cell _ w).mul ((fits_cell _ l).mul (fits_cell _ r) ?_) ?_).mono ?_
  · simp [Dir.flip]
  · simp
  · simp [nodeLocs, Dir.flip, Set.insert_subset_iff]

/-- The locations of the nodes of `xs`. -/
def nodesLocs (A : Placement α) (xs : List α) : Set Loc := {k | ∃ v ∈ xs, k ∈ nodeLocs (A v)}

theorem fits_tree (p : Word) (t : RBTree α) (hnodup : (t.toList.map A).Nodup) :
    Fits (tree A p t) (nodesLocs A t.toList) := by
  induction t generalizing p with
  | nil => exact fits_one
  | node c l v r ihl ihr =>
      simp only [toList_node, List.map_append, List.map_cons] at hnodup
      obtain ⟨hl, hvr, hlvr⟩ := List.nodup_append.mp hnodup
      obtain ⟨hv, hr⟩ := List.nodup_cons.mp hvr
      have hnode := fits_nodeAt (A v) (pack p c) (ptr A l) (ptr A r)
      refine (hnode.mul ((ihl (A v) hl).mul (ihr (A v) hr) ?_) ?_).mono ?_
      · rintro k ⟨x, hx, hkx⟩ ⟨y, hy, hky⟩
        exact not_mem_nodeLocs (hlvr (A x) (List.mem_map_of_mem hx) (A y)
          (List.mem_cons_of_mem _ (List.mem_map_of_mem hy))) hkx hky
      · rintro k hkv (⟨x, hx, hkx⟩ | ⟨x, hx, hkx⟩)
        · exact not_mem_nodeLocs (hlvr (A x) (List.mem_map_of_mem hx) (A v) List.mem_cons_self)
            hkx hkv
        · refine not_mem_nodeLocs (fun heq => hv ?_) hkx hkv
          rw [← heq]
          exact List.mem_map_of_mem hx
      · rw [toList_node]
        rintro k (hk | ⟨x, hx, hk⟩ | ⟨x, hx, hk⟩)
        · exact ⟨v, by simp, hk⟩
        · exact ⟨x, by simp [hx], hk⟩
        · exact ⟨x, by simp [hx], hk⟩

/-- Whatever the tree, there is a memory that holds it if its nodes are at different
addresses. -/
theorem fits_treeAt (root : Word) (t : RBTree α) (hnodup : (t.toList.map A).Nodup) :
    Fits (treeAt A root t) ({.rbNode root} ∪ nodesLocs A t.toList) := by
  refine (fits_cell _ _).mul (fits_tree 0 t hnodup) ?_
  simp [nodesLocs, nodeLocs]

theorem fits_treeAt_node (root w l r : Word) (t : RBTree α) (x : α)
    (hnodup : ((x :: t.toList).map A).Nodup) :
    ∃ h, (treeAt A root t * nodeAt .left (A x) w l r).Holds h := by
  rw [List.map_cons, List.nodup_cons] at hnodup
  refine ((fits_treeAt root t hnodup.2).mul (fits_nodeAt (A x) w l r) ?_).exists_holds
  rintro k (rfl | ⟨v, hv, hk⟩)
  · simp [nodeLocs]
  · refine not_mem_nodeLocs (fun heq => hnodup.1 ?_) hk
    rw [← heq]
    exact List.mem_map_of_mem hv

end Existence

/-- Nodes of 16 bytes in an array. -/
def slotAddr (n : Nat) : Word := BitVec.ofNat 64 (16 * (n % 2 ^ 32) + 16)

theorem toNat_slotAddr (n : Nat) : (slotAddr n).toNat = 16 * (n % 2 ^ 32) + 16 := by
  rw [slotAddr, BitVec.toNat_ofNat]
  omega

theorem slotAddr_ne_null (n : Nat) : slotAddr n ≠ 0 := by
  intro h
  have hnat := congrArg BitVec.toNat h
  rw [toNat_slotAddr] at hnat
  simp at hnat

theorem slotAddr_aligned (n : Nat) : Aligned (slotAddr n) := by
  constructor
  apply BitVec.eq_of_toNat_eq
  have hmask := Nat.and_two_pow_sub_one_eq_mod (16 * (n % 2 ^ 32) + 16) 2
  rw [BitVec.toNat_and, toNat_slotAddr]
  show (16 * (n % 2 ^ 32) + 16) &&& (2 ^ 2 - 1) = 0
  omega

def slots : Placement Nat where
  addr := slotAddr
  ne_null := slotAddr_ne_null
  aligned := slotAddr_aligned

/-! ## Reading -/

section Fields

variable {P : Assertion Loc Word} {r w : Word} {put : Word → Assertion Loc Word}

theorem reads_rbParent [Focus P (.rbParentColor r) w put] : Reads P (rbParent r) (parentOf w) :=
  Reads.bind reads_load Reads.pure

theorem reads_rbColor [Focus P (.rbParentColor r) w put] : Reads P (rbColor r) (colorOf w) :=
  Reads.bind reads_load Reads.pure

theorem triple_rbUpdate [Focus P (.rbParentColor r) w put] (f : Word → Word) :
    Triple P (rbUpdate f r) () (put (f w)) :=
  Reads.then reads_load (triple_store _)

end Fields

section Reading

variable {α : Type} {A : Placement α} {root : Word} {ctx : List (Frame α)} {d : Dir} {c : Color}
  {near far t : RBTree α} {v : α}

theorem reads_rbNode : Reads (treeAt A root t) (load (.rbNode root)) (ptr A t) := by
  unfold treeAt spine
  exact reads_load

theorem reads_near :
    Reads (treeAt A root (plug ctx (side d c near v far))) (load (.child d (A v)))
      (ptr A near) := by
  rw [treeAt_plug, tree_side]
  exact reads_load

theorem reads_far :
    Reads (treeAt A root (plug ctx (side d c near v far))) (load (.child d.flip (A v)))
      (ptr A far) := by
  rw [treeAt_plug, tree_side]
  exact reads_load

theorem reads_parent :
    Reads (treeAt A root (plug ctx (side d c near v far))) (rbParent (A v)) (parent A ctx) := by
  rw [treeAt_plug, tree_side]
  exact Reads.of_eq reads_rbParent ((aligned_parent A ctx).parentOf_pack c)

theorem reads_color :
    Reads (treeAt A root (plug ctx (side d c near v far))) (rbColor (A v)) (colorBit c) := by
  rw [treeAt_plug, tree_side]
  exact Reads.of_eq reads_rbColor ((aligned_parent A ctx).colorOf_pack c)

theorem reads_isRed :
    Reads (treeAt A root (plug ctx (side d c near v far))) (rbIsRed (A v))
      (decide (c = .red)) := by
  have hred : decide (c = .red) = (colorBit c == 0) := by
    cases c <;> rfl
  rw [hred]
  exact Reads.bind reads_color Reads.pure

theorem reads_isRedNode :
    Reads (treeAt A root (plug ctx t)) (isRedNode (ptr A t)) t.isRed := by
  cases t with
  | nil => exact Reads.pure
  | node c l v r =>
      rw [isRedNode, ptr_node, if_neg (A.ne_null v)]
      exact Reads.of_eq (reads_isRed (d := .left)) (by cases c <;> rfl)

theorem reads_isRedNode_near :
    Reads (treeAt A root (plug ctx (side d c near v far))) (isRedNode (ptr A near))
      near.isRed := by
  rw [← plug_side]
  exact reads_isRedNode

theorem reads_isRedNode_far :
    Reads (treeAt A root (plug ctx (side d c near v far))) (isRedNode (ptr A far)) far.isRed := by
  rw [plug_far]
  exact reads_isRedNode

end Reading

/-! ## Colours -/

/-- The setter `f` makes a node of colour `c` one of colour `c'`. -/
def Recolors (f : Word → Word) (c c' : Color) : Prop :=
  ∀ p, Aligned p → f (pack p c) = pack p c'

theorem recolors_red (c : Color) : Recolors (fun w => w &&& ~~~1) c .red :=
  fun _ hp => hp.pack_setRed c

theorem recolors_black (c : Color) : Recolors (fun w => w ||| 1) c .black :=
  fun p _ => pack_setBlack p c

theorem recolors_color (c c' : Color) : Recolors (fun w => (w &&& ~~~1) ||| colorBit c') c c' :=
  fun _ hp => hp.pack_setColor c c'

section Writing

variable {α : Type} {A : Placement α} {root : Word} {ctx : List (Frame α)} {d e : Dir}
  {c c' pc : Color} {near far other t : RBTree α} {v p : α} {f : Word → Word}

theorem triple_recolor (hf : Recolors f c c') :
    Triple (treeAt A root (plug ctx (side d c near v far))) (rbUpdate f (A v)) ()
      (treeAt A root (plug ctx (side d c' near v far))) := by
  simp only [treeAt_plug, tree_side, ptr_side]
  rw [← hf _ (aligned_parent A ctx)]
  exact (triple_rbUpdate f).post rfl

theorem triple_recolor_near (hf : Recolors f c c') :
    Triple (treeAt A root (plug ctx (side d pc (side e c near v far) p other)))
      (rbUpdate f (A v)) ()
      (treeAt A root (plug ctx (side d pc (side e c' near v far) p other))) := by
  simp only [← plug_side d pc]
  exact triple_recolor hf

theorem triple_recolor_far (hf : Recolors f c c') :
    Triple (treeAt A root (plug ctx (side d pc other p (side e c near v far))))
      (rbUpdate f (A v)) ()
      (treeAt A root (plug ctx (side d pc other p (side e c' near v far)))) := by
  rw [plug_far d pc other, plug_far d pc other]
  exact triple_recolor hf

/-! ## Pointers -/

/-- The root of a tree gets another parent. -/
theorem triple_reparent {p : Word} (hp : Aligned p) (q : Word) :
    Triple (tree A p t) (unlessNull (ptr A t) (rbSetParent (ptr A t) q)) () (tree A q t) := by
  cases t with
  | nil => exact Triple.pure
  | node c l v r =>
      rw [unlessNull, ptr_node, if_neg (A.ne_null v), tree, tree, ← hp.pack_setParent q c]
      exact (triple_rbUpdate _).post rfl

/-- A node that is not in a tree is not at the address of its root. -/
theorem entails_ptr_ne (P : Assertion Loc Word) (p : Word) {w : Word} {x : α}
    {put : Word → Assertion Loc Word} [Focus P (.rbParentColor (A x)) w put] :
    Entails (tree A p t * P) (ptr A t ≠ A x) := by
  cases t with
  | nil => exact fun _ _ _ => (A.ne_null x).symm
  | node c l v r =>
      have hne : Entails (tree A p (node c l v r) * P)
          (Loc.rbParentColor (A v) ≠ Loc.rbParentColor (A x)) := by
        rw [tree]
        exact entails_ne
      exact fun F h hh heq => hne F h hh (congrArg Loc.rbParentColor heq)

/-- Two trees have their roots at different addresses, unless both are empty. -/
theorem entails_ptr_inj {s : RBTree α} (p q : Word) :
    Entails (tree A p s * tree A q t) (ptr A s = ptr A t → s = nil ∧ t = nil) := by
  cases t with
  | nil =>
      intro F h hh heq
      cases s with
      | nil => exact ⟨rfl, rfl⟩
      | node c l v r => exact absurd heq (A.ne_null v)
  | node c l v r =>
      have hne : Entails (tree A p s * tree A q (node c l v r)) (ptr A s ≠ A v) := by
        rw [tree.eq_2]
        exact entails_ptr_ne _ _
      exact fun F h hh heq => absurd heq (hne F h hh)

theorem entails_children :
    Entails (treeAt A root (plug ctx (side d c near v far)))
      (ptr A near = ptr A far → near = nil ∧ far = nil) := by
  rw [treeAt_plug, tree_side]
  exact (entails_ptr_inj (A v) (A v)).frame (F := spine A root ctx _ *
    nodeAt d (A v) (pack (parent A ctx) c) (ptr A near) (ptr A far)) (by ac_rfl)

/-- The test on which side of its parent a node is. -/
theorem entails_left_iff (hne : near ≠ nil ∨ far ≠ nil) :
    Entails (treeAt A root (plug ctx (side d c near v far)))
      ((if d = .left then ptr A near else ptr A far) = ptr A near ↔ d = .left) := by
  intro F h hh
  have hinj := entails_children F h hh
  cases d with
  | left => simp
  | right =>
      simp only [reduceCtorEq, if_false, iff_false]
      intro heq
      obtain ⟨rfl, rfl⟩ := hinj heq.symm
      simp at hne

/-- Both ways to write the test give the side. -/
theorem side_of_test {p q : Word} (h : p = q ↔ d = .left) :
    (if p = q then Dir.left else .right) = d ∧ (if q = p then Dir.left else .right) = d := by
  by_cases hpq : p = q
  · simp [hpq, h.mp hpq]
  · have hright : d = .right := by
      cases d with
      | left => exact absurd (h.mpr rfl) hpq
      | right => rfl
    simp [hpq, Ne.symm hpq, hright]

theorem reads_left :
    Reads (treeAt A root (plug ctx (side d c near v far))) (load (.child .left (A v)))
      (if d = .left then ptr A near else ptr A far) := by
  cases d with
  | left => exact reads_near
  | right => exact reads_far (d := .right)

/-- The root of a tree is not at the address of a node below it. -/
theorem entails_top_ne_addr (P : Assertion Loc Word) (q : Word) {w : Word} {x : α}
    {put : Word → Assertion Loc Word} [Focus P (.rbParentColor (A x)) w put] (hctx : ctx ≠ []) :
    Entails (spine A root ctx q * P) (ptr A (plug ctx t) ≠ A x) := by
  induction ctx generalizing q t with
  | nil => exact absurd rfl hctx
  | cons f ctx ih =>
      obtain ⟨d, c, v, far, rfl⟩ := f.exists_side
      rw [plug_side, spine_side]
      cases ctx with
      | nil =>
          have hne : Entails (nodeAt d (A v) (pack (parent A []) c) q (ptr A far) *
              tree A (A v) far * spine A root [] (A v) * P)
              (Loc.rbParentColor (A v) ≠ Loc.rbParentColor (A x)) := entails_ne
          rw [plug, ptr_side]
          exact fun F h hh heq => hne F h hh (congrArg Loc.rbParentColor heq)
      | cons g ctx =>
          refine (ih (t := side d c t v far) (A v) (List.cons_ne_nil _ _)).frame
            (F := nodeAt d (A v) (pack (parent A (g :: ctx)) c) q (ptr A far) *
              tree A (A v) far) ?_
          ac_rfl

theorem ptr_plug_ne_null (hctx : ctx ≠ []) : ptr A (plug ctx t) ≠ 0 := by
  induction ctx generalizing t with
  | nil => exact absurd rfl hctx
  | cons f ctx ih =>
      obtain ⟨d, c, v, far, rfl⟩ := f.exists_side
      rw [plug_side]
      cases ctx with
      | nil =>
          rw [plug, ptr_side]
          exact A.ne_null v
      | cons g ctx => exact ih (List.cons_ne_nil _ _)

/-- The test whether a node is the root. -/
theorem entails_top_ne (hctx : ctx ≠ []) :
    Entails (treeAt A root (plug ctx t)) (ptr A t ≠ ptr A (plug ctx t)) := by
  cases t with
  | nil => exact fun _ _ _ => (ptr_plug_ne_null hctx).symm
  | node c l v r =>
      have hne : Entails (treeAt A root (plug ctx (node c l v r)))
          (ptr A (plug ctx (node c l v r)) ≠ A v) := by
        rw [treeAt_plug, tree]
        exact entails_top_ne_addr _ _ hctx
      exact fun F h hh heq => hne F h hh heq.symm

/-- The pointer to the node of `x` points to `new`, on whatever side it is. -/
theorem triple_changeChild {P : Assertion Loc Word} {x : α} {w : Word}
    {put : Word → Assertion Loc Word} [Focus P (.rbParentColor (A x)) w put] (new : Word) :
    Triple (spine A root ctx (A x) * P) (changeChild d (parent A ctx) (A x) new root) ()
      (spine A root ctx new * P) := by
  cases ctx with
  | nil =>
      unfold spine
      exact (triple_store _).post rfl
  | cons f ctx =>
      obtain ⟨e, c, v, far, rfl⟩ := f.exists_side
      simp only [changeChild, parent_side, if_neg (A.ne_null v), spine_side]
      by_cases hd : e = d
      · subst hd
        refine Reads.then reads_load ?_
        rw [if_pos rfl]
        exact (triple_store _).post rfl
      · have hflip : e = d.flip := by
          revert hd
          cases e <;> cases d <;> decide
        subst hflip
        -- The pointer that is compared belongs to the other subtree, which does not hold `x`.
        have hne : Entails (nodeAt d.flip (A v) (pack (parent A ctx) c) (A x) (ptr A far) *
            tree A (A v) far * spine A root ctx (A v) * P) (ptr A far ≠ A x) :=
          (entails_ptr_ne P (A v)).frame (F := nodeAt d.flip (A v) (pack (parent A ctx) c) (A x)
            (ptr A far) * spine A root ctx (A v)) (by ac_rfl)
        refine Triple.of_entails hne fun hne => ?_
        simp only [nodeAt, Dir.flip_flip]
        refine Reads.then reads_load ?_
        rw [if_neg hne]
        exact (triple_store _).post rfl

/-- One edge of the tree is turned. -/
theorem triple_rotate {cx cy : Color} {a b e : RBTree α} {x y : α} :
    Triple (treeAt A root (plug ctx (side d cx a x (side d cy b y e)))) (rotate d (A x) root) ()
      (treeAt A root (plug ctx (side d cy (side d cx a x b) y e))) := by
  simp only [treeAt_plug, tree_side, ptr_side]
  refine Reads.then reads_load ?_
  refine Reads.then reads_rbParent ?_
  rw [(aligned_parent A ctx).parentOf_pack]
  refine Reads.then reads_load ?_
  refine Triple.bind (triple_store _) ?_
  -- The subtree between the two nodes changes its parent.
  have hinner : Triple
      (spine A root ctx (A x) *
        (nodeAt d (A x) (pack (parent A ctx) cx) (ptr A a) (ptr A b) *
          (tree A (A x) a * (nodeAt d (A y) (pack (A x) cy) (ptr A b) (ptr A e) *
            (tree A (A y) b * tree A (A y) e)))))
      (unlessNull (ptr A b) do
        let inner ← load (.child d (A y))
        rbSetParent inner (A x)) ()
      (spine A root ctx (A x) *
        (nodeAt d (A x) (pack (parent A ctx) cx) (ptr A a) (ptr A b) *
          (tree A (A x) a * (nodeAt d (A y) (pack (A x) cy) (ptr A b) (ptr A e) *
            (tree A (A x) b * tree A (A y) e))))) := by
    cases b with
    | nil => exact Triple.pure
    | node c l v r =>
        rw [unlessNull, ptr_node, if_neg (A.ne_null v), tree, tree,
          ← (A.aligned y).pack_setParent (A x) c]
        refine Reads.then reads_load ?_
        exact (triple_rbUpdate _).post rfl
  refine Triple.bind hinner ?_
  refine Triple.bind (triple_store _) ?_
  refine Triple.bind (triple_rbUpdate _) ?_
  rw [(A.aligned x).pack_setParent]
  refine Triple.bind (triple_changeChild _) ?_
  refine (triple_rbUpdate _).post ?_
  rw [(aligned_parent A ctx).pack_setParent]
  simp only [nodeAt]
  ac_rfl

/-- The rotation that `triple_rotate` undoes. -/
theorem triple_rotate_flip {cx cy : Color} {a b e : RBTree α} {x y : α} :
    Triple (treeAt A root (plug ctx (side d cy (side d cx a x b) y e))) (rotate d.flip (A y) root)
      () (treeAt A root (plug ctx (side d cx a x (side d cy b y e)))) := by
  simp only [← side_flip d]
  exact triple_rotate

end Writing

end Rbtree
end TmULThreads
