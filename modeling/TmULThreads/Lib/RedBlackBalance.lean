import TmULThreads.Lib.RedBlackTree
import Mathlib.Data.Nat.Log

/-!
# The balance of red-black trees

`Balanced t n` says that no red node of `t` has a red child and that every way down meets `n`
black nodes; `Hole ctx n` says the same of a path to a black root with a subtree of black
height `n` missing at its end.  A tree is `RedBlack` if it is balanced and has a black root.

During an insertion the subtree at the focus is balanced, but may be a red node below a red
one.  During a removal it is `Short`: one black node is missing, or it is a red node that
only has to be blackened.  Both repairs end in a tree that is red-black again
(`insert_redBlack`, `erase_redBlack`), so the height stays logarithmic (`RedBlack.height_le`).

Every repair has a mirror image.  `side d c near v far` is a node whose child on the side `d`
is `near`, so that a repair and its mirror image are one equation.
-/

namespace RedBlackTree

open RedBlackTree.RBTree

variable {α : Type*}

/-! ## Sides -/

inductive Dir where
  | left
  | right
  deriving DecidableEq, Repr

def Dir.flip : Dir → Dir
  | .left => .right
  | .right => .left

@[simp] theorem Dir.flip_flip (d : Dir) : d.flip.flip = d := by
  cases d <;> rfl

/-- A node, seen from the side `d`. -/
def side (d : Dir) (c : Color) (near : RBTree α) (v : α) (far : RBTree α) : RBTree α :=
  match d with
  | .left => node c near v far
  | .right => node c far v near

/-- The parent of a subtree on its side `d`. -/
def Frame.side (d : Dir) (c : Color) (v : α) (far : RBTree α) : Frame α :=
  match d with
  | .left => .inLeft c v far
  | .right => .inRight c far v

section Sides

variable (d : Dir) (c : Color) (near far t : RBTree α) (v : α) (ctx : List (Frame α))

@[simp] theorem side_flip : side d.flip c near v far = side d c far v near := by
  cases d <;> rfl

@[simp] theorem isRed_side : (side d c near v far).isRed = decide (c = .red) := by
  cases d <;> cases c <;> rfl

theorem isRed_node_red : (node .red near v far).isRed = true := rfl

@[simp] theorem blacken_side : (side d c near v far).blacken = side d .black near v far := by
  cases d <;> rfl

@[simp] theorem plug_side : plug (.side d c v far :: ctx) t = plug ctx (side d c t v far) := by
  cases d <;> rfl

/-- The far subtree as the end of a path. -/
theorem plug_far : plug ctx (side d c near v far) = plug (.side d.flip c v near :: ctx) far := by
  rw [plug_side, side_flip]

@[simp] theorem size_side : (side d c near v far).size = near.size + far.size + 1 := by
  cases d
  · rfl
  · simp only [side, size]
    omega

end Sides

theorem Frame.exists_side (f : Frame α) : ∃ d c v far, f = .side d c v far := by
  cases f with
  | inLeft c v r => exact ⟨.left, c, v, r, rfl⟩
  | inRight c l v => exact ⟨.right, c, v, l, rfl⟩

theorem exists_side (d : Dir) (c : Color) (l : RBTree α) (v : α) (r : RBTree α) :
    ∃ near far, node c l v r = side d c near v far := by
  cases d with
  | left => exact ⟨l, r, rfl⟩
  | right => exact ⟨r, l, rfl⟩

theorem side_ne_nil (d : Dir) (c : Color) (near : RBTree α) (v : α) (far : RBTree α) :
    side d c near v far ≠ nil := by
  cases d <;> nofun

theorem exists_side_of_ne_nil {t : RBTree α} (d : Dir) (h : t ≠ nil) :
    ∃ c near v far, t = side d c near v far := by
  cases t with
  | nil => exact absurd rfl h
  | node c l v r =>
      obtain ⟨near, far, hside⟩ := exists_side d c l v r
      exact ⟨c, near, v, far, hside⟩

theorem exists_side_of_isRed {t : RBTree α} (d : Dir) (h : t.isRed = true) :
    ∃ near v far, t = side d .red near v far := by
  match t, h with
  | node .red l v r, _ =>
      obtain ⟨near, far, hside⟩ := exists_side d .red l v r
      exact ⟨near, v, far, hside⟩

/-! ## The repairs, from either side -/

section Insertion

variable (t sib uncle : RBTree α) (pv gv : α) (d e : Dir) (gc : Color) (ctx : List (Frame α))

theorem insertColor_black :
    insertColor t (.side d .black pv sib :: ctx) =
      (plug (.side d .black pv sib :: ctx) t).blacken := by
  cases d <;> cases ctx <;> rfl

variable {uncle}

theorem insertColor_red_uncle (huncle : uncle.isRed = true) :
    insertColor t (.side d .red pv sib :: .side e gc gv uncle :: ctx) =
      insertColor (side e .red (side d .black t pv sib) gv uncle.blacken) ctx := by
  cases d <;> cases e <;> simp [Frame.side, side, insertColor, huncle]

theorem insertColor_outer (huncle : uncle.isRed = false) :
    insertColor t (.side d .red pv sib :: .side d gc gv uncle :: ctx) =
      (plug ctx (side d .black t pv (side d .red sib gv uncle))).blacken := by
  cases d <;> simp [Frame.side, side, insertColor, huncle]

theorem insertColor_inner (huncle : uncle.isRed = false) (tc : Color) (near far : RBTree α)
    (tv : α) :
    insertColor (side d tc near tv far) (.side d.flip .red pv sib :: .side d gc gv uncle :: ctx) =
      (plug ctx (side d .black (side d .red sib pv near) tv
        (side d .red far gv uncle))).blacken := by
  cases d <;> simp [Frame.side, side, Dir.flip, insertColor, huncle]

end Insertion

/-- The black-sibling step for a short subtree on the side `d`. -/
def borrow (d : Dir) (t : RBTree α) (pc : Color) (pv : α) (o : RBTree α) : RBTree α × Bool :=
  match d with
  | .left => borrowRight t pc pv o
  | .right => borrowLeft t pc pv o

section Removal

variable {near far t other : RBTree α} (d : Dir) (pc oc : Color) (pv ov nv : α)
  (nn nf : RBTree α) (ctx : List (Frame α))

theorem borrow_black (hnear : near.isRed = false) (hfar : far.isRed = false) :
    borrow d t pc pv (side d oc near ov far) =
      (side d pc t pv (side d .red near ov far), true) := by
  cases d <;> simp [borrow, side, borrowRight, borrowLeft, hnear, hfar]

theorem borrow_far (hfar : far.isRed = true) :
    borrow d t pc pv (side d oc near ov far) =
      (side d pc (side d .black t pv near) ov far.blacken, false) := by
  cases d <;> simp [borrow, side, borrowRight, borrowLeft, hfar]

theorem borrow_near (hfar : far.isRed = false) :
    borrow d t pc pv (side d oc (side d .red nn nv nf) ov far) =
      (side d pc (side d .black t pv nn) nv (side d .black nf ov far), false) := by
  cases d <;> simp [borrow, side, borrowRight, borrowLeft, hfar, isRed_node_red]

/-- The parent is short afterwards only if the sibling has no red child. -/
theorem borrow_of_short (h : (borrow d t pc pv (side d oc near ov far)).2 = true) :
    borrow d t pc pv (side d oc near ov far) =
      (side d pc t pv (side d .red near ov far), true) := by
  cases hfar : far.isRed with
  | true =>
      rw [borrow_far d pc oc pv ov hfar] at h
      cases h
  | false =>
      cases hnear : near.isRed with
      | true =>
          obtain ⟨nn, nv, nf, rfl⟩ := exists_side_of_isRed d hnear
          rw [borrow_near d pc oc pv ov nv nn nf hfar] at h
          cases h
      | false => exact borrow_black d pc oc pv ov hnear hfar

theorem eraseColor_red (hred : t.isRed = true) (f : Frame α) :
    eraseColor t (f :: ctx) = plug (f :: ctx) t.blacken := by
  cases f <;> simp [eraseColor, hred]

theorem eraseColor_red_sibling (hred : t.isRed = false) :
    eraseColor t (.side d pc pv (side d .red near ov far) :: ctx) =
      if (borrow d t .red pv near).2 then
        plug ctx (side d .black (borrow d t .red pv near).1.blacken ov far)
      else (plug ctx (side d .black (borrow d t .red pv near).1 ov far)).blacken := by
  cases d <;> simp only [Frame.side, side, borrow, eraseColor, hred, Bool.false_eq_true, if_false]
    <;> rfl

theorem eraseColor_black_sibling (hred : t.isRed = false) (hother : other.isRed = false) :
    eraseColor t (.side d pc pv other :: ctx) =
      if (borrow d t pc pv other).2 then eraseColor (borrow d t pc pv other).1 ctx
      else (plug ctx (borrow d t pc pv other).1).blacken := by
  match other, hother with
  | .nil, _ =>
      cases d <;> simp only [Frame.side, borrow, eraseColor, hred, Bool.false_eq_true, if_false]
        <;> rfl
  | .node .black ol ov or, _ =>
      cases d <;> simp only [Frame.side, borrow, eraseColor, hred, Bool.false_eq_true, if_false]
        <;> rfl

end Removal

/-! ## Balance -/

inductive Balanced : RBTree α → Nat → Prop
  | nil : Balanced nil 0
  | red {l r : RBTree α} {v : α} {n : Nat} (hl : Balanced l n) (hr : Balanced r n)
      (hlb : l.isRed = false) (hrb : r.isRed = false) : Balanced (node .red l v r) n
  | black {l r : RBTree α} {v : α} {n : Nat} (hl : Balanced l n) (hr : Balanced r n) :
      Balanced (node .black l v r) (n + 1)

def RedBlack (t : RBTree α) : Prop := t.isRed = false ∧ ∃ n, Balanced t n

/-- The parent at the end of a path is red. -/
def topRed : List (Frame α) → Bool
  | [] => false
  | .inLeft c _ _ :: _ | .inRight c _ _ :: _ => c = .red

/-- A path to a black root with a subtree of black height `n` missing. -/
inductive Hole : List (Frame α) → Nat → Prop
  | root (n : Nat) : Hole [] n
  | red {d : Dir} {v : α} {far : RBTree α} {ctx : List (Frame α)} {n : Nat}
      (hfar : Balanced far n) (hblack : far.isRed = false) (hne : ctx ≠ [])
      (hup : topRed ctx = false) (hctx : Hole ctx n) : Hole (.side d .red v far :: ctx) n
  | black {d : Dir} {v : α} {far : RBTree α} {ctx : List (Frame α)} {n : Nat}
      (hfar : Balanced far n) (hctx : Hole ctx (n + 1)) : Hole (.side d .black v far :: ctx) n

section Balance

variable {d : Dir} {c : Color} {near far t : RBTree α} {v : α} {ctx : List (Frame α)} {n : Nat}

@[simp] theorem topRed_side : topRed (.side d c v far :: ctx) = decide (c = .red) := by
  cases d <;> rfl

theorem balanced_side_red : Balanced (side d .red near v far) n ↔
    Balanced near n ∧ Balanced far n ∧ near.isRed = false ∧ far.isRed = false := by
  cases d with
  | left =>
      constructor
      · rintro ⟨⟩
        exact ⟨‹_›, ‹_›, ‹_›, ‹_›⟩
      · rintro ⟨hnear, hfar, hnb, hfb⟩
        exact .red hnear hfar hnb hfb
  | right =>
      constructor
      · rintro ⟨⟩
        exact ⟨‹_›, ‹_›, ‹_›, ‹_›⟩
      · rintro ⟨hnear, hfar, hnb, hfb⟩
        exact .red hfar hnear hfb hnb

theorem balanced_side_black :
    Balanced (side d .black near v far) (n + 1) ↔ Balanced near n ∧ Balanced far n := by
  cases d with
  | left =>
      constructor
      · rintro ⟨⟩
        exact ⟨‹_›, ‹_›⟩
      · exact fun h => .black h.1 h.2
  | right =>
      constructor
      · rintro ⟨⟩
        exact ⟨‹_›, ‹_›⟩
      · exact fun h => .black h.2 h.1

/-- A balanced tree of positive black height with a black root. -/
theorem Balanced.exists_black (d : Dir) (h : Balanced t (n + 1)) (hblack : t.isRed = false) :
    ∃ near v far, t = side d .black near v far ∧ Balanced near n ∧ Balanced far n := by
  cases h with
  | red => cases hblack
  | @black l r v _ hl hr =>
      obtain ⟨near, far, hside⟩ := exists_side d .black l v r
      have hbal : Balanced (side d .black near v far) (n + 1) := hside ▸ .black hl hr
      exact ⟨near, v, far, hside, balanced_side_black.mp hbal⟩

theorem Balanced.blacken_of_red (h : Balanced t n) (hred : t.isRed = true) :
    Balanced t.blacken (n + 1) := by
  obtain ⟨near, v, far, rfl⟩ := exists_side_of_isRed .left hred
  obtain ⟨hnear, hfar, -, -⟩ := balanced_side_red.mp h
  rw [blacken_side]
  exact balanced_side_black.mpr ⟨hnear, hfar⟩

theorem isRed_blacken (t : RBTree α) : t.blacken.isRed = false := by
  cases t <;> rfl

theorem blacken_of_not_red (h : t.isRed = false) : t.blacken = t := by
  match t, h with
  | .nil, _ => rfl
  | .node .black _ _ _, _ => rfl

theorem Balanced.redBlack_blacken (h : Balanced t n) : RedBlack t.blacken := by
  refine ⟨isRed_blacken t, ?_⟩
  cases hred : t.isRed with
  | true => exact ⟨n + 1, h.blacken_of_red hred⟩
  | false =>
      rw [blacken_of_not_red hred]
      exact ⟨n, h⟩

/-- What fits into the hole of a path completes it. -/
theorem Hole.plug (hctx : Hole ctx n) (ht : Balanced t n)
    (hok : t.isRed = true → topRed ctx = false) : ∃ m, Balanced (plug ctx t) m := by
  induction hctx generalizing t with
  | root n => exact ⟨n, ht⟩
  | red hfar hblack hne hup hctx ih =>
      rw [plug_side]
      have htb : t.isRed = false := by
        by_contra hred
        simpa using hok (Bool.eq_true_of_not_eq_false hred)
      exact ih (balanced_side_red.mpr ⟨ht, hfar, htb, hblack⟩) fun _ => hup
  | black hfar hctx ih =>
      rw [plug_side]
      exact ih (balanced_side_black.mpr ⟨ht, hfar⟩) fun hred => by simp at hred

theorem Hole.isRed_plug (hctx : Hole ctx n) (hne : ctx ≠ []) :
    (RedBlackTree.plug ctx t).isRed = false := by
  induction hctx generalizing t with
  | root n => exact absurd rfl hne
  | red hfar hblack hne' hup hctx ih =>
      rw [plug_side]
      exact ih hne'
  | @black d v far ctx n hfar hctx ih =>
      rw [plug_side]
      by_cases hnil : ctx = []
      · subst hnil
        simp [RedBlackTree.plug]
      · exact ih hnil

theorem Hole.redBlack_plug (hctx : Hole ctx n) (ht : Balanced t n) (hblack : t.isRed = false) :
    RedBlack (RedBlackTree.plug ctx t) := by
  refine ⟨?_, hctx.plug ht fun hred => absurd hred (by simp [hblack])⟩
  by_cases hnil : ctx = []
  · subst hnil
    exact hblack
  · exact hctx.isRed_plug hnil

end Balance

/-! ## Insertion -/

theorem insertColor_redBlack {t : RBTree α} {ctx : List (Frame α)} {n : Nat} (ht : Balanced t n)
    (hred : t.isRed = true) (hctx : Hole ctx n) : RedBlack (insertColor t ctx) := by
  -- the repair climbs two levels at a time
  induction hlen : ctx.length using Nat.strong_induction_on generalizing t ctx n with
  | _ k ih =>
      cases hctx with
      | root =>
          rw [insertColor]
          exact ht.redBlack_blacken
      | @black d pv sib ctx _ hsib hup =>
          rw [insertColor_black]
          obtain ⟨m, hm⟩ := (Hole.black (d := d) (v := pv) hsib hup).plug ht fun _ => by simp
          exact hm.redBlack_blacken
      | @red d pv sib ctx _ hsib hsibb hne htop hup =>
          cases hup with
          | root => exact absurd rfl hne
          | red => simp at htop
          | @black e gv uncle ctx _ huncle hup =>
              cases hu : uncle.isRed with
              | true =>
                  rw [insertColor_red_uncle t sib pv gv d e .black ctx hu]
                  have hleft : Balanced (side d .black t pv sib) (n + 1) :=
                    balanced_side_black.mpr ⟨ht, hsib⟩
                  refine ih ctx.length ?_ (balanced_side_red.mpr ⟨hleft,
                    huncle.blacken_of_red hu, by simp, isRed_blacken _⟩) (by simp) hup rfl
                  rw [← hlen]
                  simp
              | false =>
                  by_cases hde : d = e
                  · subst hde
                    rw [insertColor_outer t sib pv gv d .black ctx hu]
                    have hfar : Balanced (side d .red sib gv uncle) n :=
                      balanced_side_red.mpr ⟨hsib, huncle, hsibb, hu⟩
                    have hnew : Balanced (side d .black t pv (side d .red sib gv uncle)) (n + 1) :=
                      balanced_side_black.mpr ⟨ht, hfar⟩
                    obtain ⟨m, hm⟩ := hup.plug hnew (by simp)
                    exact hm.redBlack_blacken
                  · obtain rfl : d = e.flip := by
                      cases d <;> cases e <;> simp_all [Dir.flip]
                    obtain ⟨near, tv, far, rfl⟩ := exists_side_of_isRed e hred
                    obtain ⟨hnear, hfar, hnearb, hfarb⟩ := balanced_side_red.mp ht
                    rw [insertColor_inner sib pv gv e .black ctx hu .red near far tv]
                    have hleft : Balanced (side e .red sib pv near) n :=
                      balanced_side_red.mpr ⟨hsib, hnear, hsibb, hnearb⟩
                    have hright : Balanced (side e .red far gv uncle) n :=
                      balanced_side_red.mpr ⟨hfar, huncle, hfarb, hu⟩
                    have hnew : Balanced (side e .black (side e .red sib pv near) tv
                        (side e .red far gv uncle)) (n + 1) :=
                      balanced_side_black.mpr ⟨hleft, hright⟩
                    obtain ⟨m, hm⟩ := hup.plug hnew (by simp)
                    exact hm.redBlack_blacken

/-- The subtree `t` is what is missing at the end of the path `ctx` of a red-black tree. -/
structure AtHole (ctx : List (Frame α)) (t : RBTree α) (n : Nat) : Prop where
  hole : Hole ctx n
  balanced : Balanced t n
  color : t.isRed = true → ctx ≠ [] ∧ topRed ctx = false

section AtHole

variable {d : Dir} {c : Color} {near far t : RBTree α} {v : α} {ctx : List (Frame α)} {n : Nat}

theorem RedBlack.atHole (h : RedBlack t) : ∃ n, AtHole [] t n := by
  obtain ⟨hblack, n, hbal⟩ := h
  exact ⟨n, .root n, hbal, fun hred => absurd hred (by simp [hblack])⟩

/-- A step down to the side `d`. -/
theorem AtHole.down (h : AtHole ctx (side d c near v far) n) :
    ∃ m, AtHole (.side d c v far :: ctx) near m := by
  obtain ⟨hhole, hbal, hcolor⟩ := h
  cases c with
  | red =>
      obtain ⟨hne, htop⟩ := hcolor (by simp)
      obtain ⟨hnear, hfar, hnearb, hfarb⟩ := balanced_side_red.mp hbal
      exact ⟨n, .red hfar hfarb hne htop hhole, hnear,
        fun hred => absurd hred (by simp [hnearb])⟩
  | black =>
      obtain ⟨m, rfl⟩ : ∃ m, n = m + 1 := by
        cases d <;> cases hbal <;> exact ⟨_, rfl⟩
      obtain ⟨hnear, hfar⟩ := balanced_side_black.mp hbal
      exact ⟨m, .black hfar hhole, hnear, fun _ => by simp⟩

theorem RedBlack.atHole_plug (h : RedBlack (plug ctx t)) : ∃ n, AtHole ctx t n := by
  induction ctx generalizing t with
  | nil => exact h.atHole
  | cons f ctx ih =>
      obtain ⟨d, c, v, far, rfl⟩ := f.exists_side
      rw [plug_side] at h
      obtain ⟨n, hat⟩ := ih h
      exact hat.down

theorem insertAt_redBlack (goLeft : α → Bool) (x : α) {t : RBTree α} {ctx : List (Frame α)}
    {n : Nat} (h : AtHole ctx t n) : RedBlack (insertAt goLeft x t ctx) := by
  induction t generalizing ctx n with
  | nil =>
      obtain ⟨hhole, hbal, -⟩ := h
      cases hbal
      rw [insertAt]
      exact insertColor_redBlack (.red .nil .nil rfl rfl) rfl hhole
  | node c l v r ihl ihr =>
      rw [insertAt]
      split
      · obtain ⟨m, hdown⟩ := AtHole.down (d := .left) h
        exact ihl hdown
      · obtain ⟨m, hdown⟩ := AtHole.down (d := .right) h
        exact ihr hdown

theorem insert_redBlack (key : α → Nat) (x : α) (h : RedBlack t) : RedBlack (insert key x t) := by
  obtain ⟨n, hat⟩ := h.atHole
  exact insertAt_redBlack _ x hat

end AtHole

/-! ## Removal -/

/-- A subtree that has one black node less than its place wants, unless it is red and can be
blackened. -/
def Short (t : RBTree α) (n : Nat) : Prop :=
  if t.isRed then Balanced t.blacken (n + 1) else Balanced t n

section Removal

variable {t near far : RBTree α} {pv ov : α} {d : Dir} {pc : Color} {n : Nat}
  {ctx : List (Frame α)}

theorem Short.of_red (h : t.isRed = true) (hbal : Balanced t.blacken (n + 1)) : Short t n := by
  rw [Short, if_pos h]
  exact hbal

theorem Short.of_black (h : t.isRed = false) (hbal : Balanced t n) : Short t n := by
  rw [Short, if_neg (by simp [h])]
  exact hbal

/-- The black height of a node above subtrees of black height `n`. -/
def Color.above (c : Color) (n : Nat) : Nat :=
  match c with
  | .red => n
  | .black => n + 1

theorem balanced_side (hnear : Balanced near n) (hfar : Balanced far n)
    (hnearb : near.isRed = false) (hfarb : far.isRed = false) :
    Balanced (side d pc near pv far) (pc.above n) := by
  cases pc with
  | red => exact balanced_side_red.mpr ⟨hnear, hfar, hnearb, hfarb⟩
  | black => exact balanced_side_black.mpr ⟨hnear, hfar⟩

/-- The step at a black sibling: the parent is short instead, or nothing is short any more. -/
theorem borrow_cases (d : Dir) (pc : Color) (pv : α) {other : RBTree α} (ht : Balanced t n)
    (hother : Balanced other (n + 1)) (hob : other.isRed = false) :
    (borrow d t pc pv other).1.isRed = decide (pc = .red) ∧
      (((borrow d t pc pv other).2 = true ∧ Short (borrow d t pc pv other).1 (pc.above n)) ∨
        ((borrow d t pc pv other).2 = false ∧
          Balanced (borrow d t pc pv other).1 (pc.above (n + 1)))) := by
  obtain ⟨near, ov, far, rfl, hnear, hfar⟩ := hother.exists_black d hob
  cases hfarc : far.isRed with
  | true =>
      rw [borrow_far d pc .black pv ov hfarc]
      have hleft : Balanced (side d .black t pv near) (n + 1) :=
        balanced_side_black.mpr ⟨ht, hnear⟩
      exact ⟨isRed_side .., .inr ⟨rfl, balanced_side hleft (hfar.blacken_of_red hfarc) (by simp)
        (isRed_blacken far)⟩⟩
  | false =>
      cases hnearc : near.isRed with
      | true =>
          obtain ⟨nn, nv, nf, rfl⟩ := exists_side_of_isRed d hnearc
          obtain ⟨hnn, hnf, -, -⟩ := balanced_side_red.mp hnear
          rw [borrow_near d pc .black pv ov nv nn nf hfarc]
          have hleft : Balanced (side d .black t pv nn) (n + 1) :=
            balanced_side_black.mpr ⟨ht, hnn⟩
          have hright : Balanced (side d .black nf ov far) (n + 1) :=
            balanced_side_black.mpr ⟨hnf, hfar⟩
          exact ⟨isRed_side .., .inr ⟨rfl, balanced_side hleft hright (by simp) (by simp)⟩⟩
      | false =>
          rw [borrow_black d pc .black pv ov hnearc hfarc]
          have hsib : Balanced (side d .red near ov far) n :=
            balanced_side_red.mpr ⟨hnear, hfar, hnearc, hfarc⟩
          have hall : Balanced (side d .black t pv (side d .red near ov far)) (n + 1) :=
            balanced_side_black.mpr ⟨ht, hsib⟩
          refine ⟨isRed_side .., .inl ⟨rfl, ?_⟩⟩
          cases pc with
          | red => exact .of_red (by simp) (by rwa [blacken_side])
          | black => exact .of_black (by simp) hall

theorem eraseColor_redBlack (ht : Short t n) (hctx : Hole ctx (n + 1)) :
    RedBlack (eraseColor t ctx) := by
  induction ctx generalizing t n with
  | nil =>
      rw [eraseColor]
      unfold Short at ht
      split at ht
      · exact ⟨isRed_blacken t, _, ht⟩
      · exact ht.redBlack_blacken
  | cons f ctx ih =>
      cases hred : t.isRed with
      | true =>
          rw [eraseColor_red ctx hred]
          rw [Short, if_pos hred] at ht
          exact hctx.redBlack_plug ht (isRed_blacken t)
      | false =>
          rw [Short, if_neg (by simp [hred])] at ht
          cases hctx with
          | @red d pv other _ _ hother hob hne htop hup =>
              rw [eraseColor_black_sibling d .red pv ctx hred hob]
              obtain ⟨hcolor, ⟨hstep, hshort⟩ | ⟨hstep, hbal⟩⟩ :=
                borrow_cases d .red pv ht hother hob
              · rw [if_pos hstep]
                exact ih hshort hup
              · rw [if_neg (by simp [hstep])]
                obtain ⟨m, hm⟩ := hup.plug hbal fun _ => htop
                exact hm.redBlack_blacken
          | @black d pv other _ _ hother hup =>
              cases hob : other.isRed with
              | false =>
                  rw [eraseColor_black_sibling d .black pv ctx hred hob]
                  obtain ⟨hcolor, ⟨hstep, hshort⟩ | ⟨hstep, hbal⟩⟩ :=
                    borrow_cases d .black pv ht hother hob
                  · rw [if_pos hstep]
                    exact ih hshort hup
                  · rw [if_neg (by simp [hstep])]
                    obtain ⟨m, hm⟩ := hup.plug hbal fun h => by simp [hcolor] at h
                    exact hm.redBlack_blacken
              | true =>
                  -- the sibling goes up and the parent, now red, gets a black sibling
                  obtain ⟨near, ov, far, rfl⟩ := exists_side_of_isRed d hob
                  obtain ⟨hnear, hfar, hnearb, -⟩ := balanced_side_red.mp hother
                  rw [eraseColor_red_sibling d .black pv ov ctx hred]
                  obtain ⟨hcolor, ⟨hstep, hshort⟩ | ⟨hstep, hbal⟩⟩ :=
                    borrow_cases d .red pv ht hnear hnearb
                  · rw [if_pos hstep]
                    rw [Short, if_pos (by simp [hcolor])] at hshort
                    exact hup.redBlack_plug (balanced_side_black.mpr ⟨hshort, hfar⟩) (by simp)
                  · rw [if_neg (by simp [hstep])]
                    have hnew : Balanced (side d .black (borrow d t .red pv near).1 ov far)
                        (n + 2) := balanced_side_black.mpr ⟨hbal, hfar⟩
                    obtain ⟨m, hm⟩ := hup.plug hnew (by simp)
                    exact hm.redBlack_blacken

end Removal

/-! ## Unlinking -/

section Unlinking

variable {d : Dir} {c : Color} {t child l r : RBTree α} {v : α} {n : Nat} {ctx : List (Frame α)}

theorem AtHole.of_value (h : AtHole ctx (node c l v r) n) (w : α) :
    AtHole ctx (node c l w r) n := by
  obtain ⟨hhole, hbal, hcolor⟩ := h
  cases hbal with
  | red hl hr hlb hrb => exact ⟨hhole, .red hl hr hlb hrb, hcolor⟩
  | black hl hr => exact ⟨hhole, .black hl hr, nofun⟩

/-- In the place of a black node with one child at most, that child is short. -/
theorem AtHole.short (h : AtHole ctx (side d .black child v nil) n) :
    ∃ m, Short child m ∧ Hole ctx (m + 1) := by
  obtain ⟨hhole, hbal, -⟩ := h
  obtain ⟨m, rfl⟩ : ∃ m, n = m + 1 := by
    cases d <;> cases hbal <;> exact ⟨_, rfl⟩
  obtain ⟨hchild, -⟩ := balanced_side_black.mp hbal
  refine ⟨m, ?_, hhole⟩
  cases hred : child.isRed with
  | true => exact .of_red hred (hchild.blacken_of_red hred)
  | false => exact .of_black hred hchild

/-- A node with one child at most is replaced by it. -/
theorem AtHole.unlink_child (h : AtHole ctx (side d c child v nil) n) :
    RedBlack (if c = .black then eraseColor child ctx else plug ctx child) := by
  cases c with
  | red =>
      obtain ⟨hchild, -, hblack, -⟩ := balanced_side_red.mp h.balanced
      exact h.hole.redBlack_plug hchild hblack
  | black =>
      obtain ⟨m, hshort, hhole⟩ := h.short
      exact eraseColor_redBlack hshort hhole

theorem leftmost_append (c : Color) (l : RBTree α) (v : α) (r : RBTree α)
    (ctx rest : List (Frame α)) :
    leftmost c l v r (ctx ++ rest) =
      ((leftmost c l v r ctx).1, (leftmost c l v r ctx).2.1, (leftmost c l v r ctx).2.2.1,
        (leftmost c l v r ctx).2.2.2 ++ rest) := by
  induction l generalizing c v r ctx with
  | nil => rfl
  | node lc ll lv lr ihl _ => exact ihl lc lv lr (.inLeft c v r :: ctx)

theorem AtHole.leftmost (h : AtHole ctx (node c l v r) n) :
    ∃ m, AtHole (leftmost c l v r ctx).2.2.2 (node (RedBlackTree.leftmost c l v r ctx).2.1 nil
      (RedBlackTree.leftmost c l v r ctx).1 (RedBlackTree.leftmost c l v r ctx).2.2.1) m := by
  induction l generalizing c v r ctx n with
  | nil => exact ⟨n, h⟩
  | node lc ll lv lr ihl _ =>
      obtain ⟨m, hdown⟩ := AtHole.down (d := .left) h
      exact ihl hdown

/-- The successor takes the place of the node, so the path to it leads to the node's place. -/
theorem AtHole.successor {rc : Color} {rl rr : RBTree α} {rv : α}
    (h : AtHole ctx (node c l v (node rc rl rv rr)) n) :
    ∃ m, AtHole ((RedBlackTree.leftmost rc rl rv rr []).2.2.2 ++
        .inRight c l (RedBlackTree.leftmost rc rl rv rr []).1 :: ctx)
      (node (RedBlackTree.leftmost rc rl rv rr []).2.1 nil
        (RedBlackTree.leftmost rc rl rv rr []).1 (RedBlackTree.leftmost rc rl rv rr []).2.2.1)
      m := by
  obtain ⟨m, hdown⟩ := AtHole.down (d := .right)
    (h.of_value (RedBlackTree.leftmost rc rl rv rr []).1)
  obtain ⟨k, hsucc⟩ := hdown.leftmost
  have happ := leftmost_append rc rl rv rr []
    (.inRight c l (RedBlackTree.leftmost rc rl rv rr []).1 :: ctx)
  rw [List.nil_append] at happ
  replace hsucc := happ ▸ hsucc
  exact ⟨k, hsucc⟩

theorem AtHole.unlink (h : AtHole ctx (node c l v r) n) : RedBlack (unlink c l r ctx) := by
  unfold RedBlackTree.unlink
  split
  · exact AtHole.unlink_child (d := .right) h
  · exact AtHole.unlink_child (d := .left) h
  · obtain ⟨m, hsucc⟩ := h.successor
    exact AtHole.unlink_child (d := .right) hsucc

theorem locate_atHole {p : α → Bool} {t : RBTree α} {ctx ctx' : List (Frame α)} {n : Nat}
    {c : Color} {l r : RBTree α} {v : α} (h : AtHole ctx t n)
    (hloc : locate p t ctx = some (c, l, v, r, ctx')) : ∃ m, AtHole ctx' (node c l v r) m := by
  induction t generalizing ctx n with
  | nil => cases hloc
  | node tc tl tv tr ihl ihr =>
      simp only [locate] at hloc
      split at hloc
      · cases hloc
        exact ⟨n, h⟩
      · split at hloc
        · rename_i hfound
          cases hloc
          obtain ⟨m, hdown⟩ := AtHole.down (d := .left) h
          exact ihl hdown hfound
        · obtain ⟨m, hdown⟩ := AtHole.down (d := .right) h
          exact ihr hdown hloc

theorem erase_redBlack {p : α → Bool} {t' : RBTree α} (h : RedBlack t)
    (herase : erase p t = some t') : RedBlack t' := by
  obtain ⟨n, hat⟩ := h.atHole
  unfold erase at herase
  split at herase
  · cases herase
  · rename_i hloc
    cases herase
    obtain ⟨m, hfound⟩ := locate_atHole hat hloc
    exact hfound.unlink

end Unlinking

/-! ## Height -/

namespace RBTree

def height : RBTree α → Nat
  | nil => 0
  | node _ l _ r => max l.height r.height + 1

end RBTree

theorem height_side (d : Dir) (c : Color) (near : RBTree α) (v : α) (far : RBTree α) :
    (side d c near v far).height = max near.height far.height + 1 := by
  cases d with
  | left => rfl
  | right => simp only [side, height, max_comm]

/-- A path is as long as the height that it adds to what is at its end. -/
theorem length_add_height_le (ctx : List (Frame α)) (t : RBTree α) :
    ctx.length + t.height ≤ (plug ctx t).height := by
  induction ctx generalizing t with
  | nil => simp [plug]
  | cons f ctx ih =>
      obtain ⟨d, c, v, far, rfl⟩ := f.exists_side
      rw [plug_side, List.length_cons]
      have hup := ih (side d c t v far)
      rw [height_side] at hup
      omega

theorem Balanced.height_le {t : RBTree α} {n : Nat} (h : Balanced t n) :
    t.height ≤ 2 * n + (if t.isRed then 1 else 0) := by
  induction h with
  | nil => exact Nat.zero_le _
  | @red l r v n hl hr hlb hrb ihl ihr =>
      simp only [hlb, hrb, Bool.false_eq_true, if_false, Nat.add_zero] at ihl ihr
      simp only [height, isRed_node_red, if_true]
      omega
  | @black l r v n hl hr ihl ihr =>
      have hbound (x : RBTree α) : (if x.isRed then 1 else 0) ≤ 1 := by
        split <;> omega
      have hlb := hbound l
      have hrb := hbound r
      simp only [height]
      omega

theorem Balanced.pow_le_size {t : RBTree α} {n : Nat} (h : Balanced t n) :
    2 ^ n ≤ t.size + 1 := by
  induction h with
  | nil => simp [size]
  | red hl hr hlb hrb ihl ihr =>
      simp only [size]
      omega
  | black hl hr ihl ihr =>
      simp only [size, Nat.pow_succ]
      omega

/-- A red-black tree is at most twice as high as a perfect tree of its size. -/
theorem RedBlack.height_le {t : RBTree α} (h : RedBlack t) :
    t.height ≤ 2 * Nat.log 2 (t.size + 1) := by
  obtain ⟨hblack, n, hbal⟩ := h
  have hheight := hbal.height_le
  rw [if_neg (by simp [hblack])] at hheight
  have hlog : n ≤ Nat.log 2 (t.size + 1) :=
    Nat.le_log_of_pow_le (by omega) hbal.pow_le_size
  omega

/-- The nodes on a way down from the root; at each of them `dir` says where to go, or to
stop. -/
def descend (dir : α → Option Dir) : RBTree α → List α
  | .nil => []
  | .node _ l v r =>
      match dir v with
      | none => [v]
      | some .left => v :: descend dir l
      | some .right => v :: descend dir r

theorem length_descend_le (dir : α → Option Dir) (t : RBTree α) :
    (descend dir t).length ≤ t.height := by
  induction t with
  | nil => exact Nat.le_refl 0
  | node c l v r ihl ihr =>
      simp only [descend, height]
      split
      · simp only [List.length_singleton]
        omega
      · simp only [List.length_cons]
        omega
      · simp only [List.length_cons]
        omega

def searchDir (key : α → Nat) (k : Nat) (v : α) : Option Dir :=
  if k < key v then some .left else if key v < k then some .right else none

/-- A search ends at the last node of its way, with that node or with nothing. -/
theorem search_eq_descend (key : α → Nat) (k : Nat) (t : RBTree α) :
    search key k t = (descend (searchDir key k) t).getLast?.filter (key · = k) := by
  induction t with
  | nil => rfl
  | node c l v r ihl ihr =>
      have hlast (xs : List α) (hne : key v ≠ k) :
          (v :: xs).getLast?.filter (key · = k) = xs.getLast?.filter (key · = k) := by
        cases xs with
        | nil => simp [hne]
        | cons y ys => rw [List.getLast?_cons_cons]
      simp only [search, descend, searchDir]
      by_cases hlt : k < key v
      · simp only [hlt, if_true]
        rw [ihl, hlast _ (by omega)]
      · by_cases hgt : key v < k
        · simp only [hlt, hgt, if_true, if_false]
          rw [ihr, hlast _ (by omega)]
        · have heq : key v = k := by omega
          simp [heq, Option.filter]

end RedBlackTree
