import TmULThreads.Rbtree.Walk
import TmULThreads.Timers.Balance

/-!
# The wheels in memory

`timer_add`, `timer_del` and `timer_tree_walk` as they work on the nodes in memory.  The rest of
the timer model knows a wheel as a tree of timers, and here that is justified: whatever nodes
are linked and unlinked, one after the other, the memory holds the tree that the model has,
the walks find what the model finds, and every loop ends within twice the logarithm of the
number of nodes.
-/

namespace TmULThreads
namespace Timers

open RedBlackTree RBTree Separation Rbtree

namespace InMemory

/-! ## The functions -/

/-- `rb_entry(node, APP_TIMER_T, rlist)->rt` -/
def rtOf (node : Word) : Code U32 := do
  let w ← load (.rt node)
  return w.setWidth 32

/-- The descent to a free place; the answer is `link` and `parent`. -/
def addLoop (cmp : U32) : Nat → Loc → Word → Code (Loc × Word)
  | 0, _, _ => failure
  | fuel + 1, link, parent => do
      let p ← load link
      if p = 0 then return (link, parent)
      else do
        let dest ← rtOf p
        addLoop cmp fuel (.child (if cmp < dest then .left else .right) p) p

def timerAdd (fuel : Nat) (n root : Word) : Code Unit := do
  let cmp ← rtOf n
  let (link, parent) ← addLoop cmp fuel (.rbNode root) 0
  rbLinkNode n parent link
  rbInsertColor fuel n root

def timerDel (fuel : Nat) (n root : Word) : Code Unit := do
  rbErase fuel n root
  rbClearNode n

def walkLoop (key : U32) : Nat → Loc → Code Word
  | 0, _ => failure
  | fuel + 1, p => do
      let q ← load p
      if q = 0 then return 0
      else do
        let cmp ← rtOf q
        if key < cmp then walkLoop key fuel (.child .left q)
        else if cmp < key then walkLoop key fuel (.child .right q)
        else return q

def timerTreeWalk (fuel : Nat) (root : Word) (key : U32) : Code Word :=
  walkLoop key fuel (.rbNode root)

end InMemory

/-! ## The tree of a wheel in memory -/

section Wheel

variable (L : Placement AppId)

/-- A timer is where its address says. -/
def timerPlacement : Placement AppTimer where
  addr x := L x.addr
  ne_null x := L.ne_null x.addr
  aligned x := L.aligned x.addr

theorem timerPlacement_apply (x : AppTimer) : timerPlacement L x = L x.addr := rfl

def keyCell (x : AppTimer) : Assertion Loc Word := cell (.rt (L x.addr)) (x.rt.setWidth 64)

def keys (xs : List AppTimer) : Assertion Loc Word := (xs.map (keyCell L)).prod

def wheelAt (root : Word) (t : RBTree AppTimer) : Assertion Loc Word :=
  treeAt (timerPlacement L) root t * keys L t.toList

/-- A node that is in no tree; its pointers can be anything. -/
def unlinkedAt (x : AppTimer) : Assertion Loc Word :=
  (Assertion.any fun w : Word × Word × Word => nodeAt .left (L x.addr) w.1 w.2.1 w.2.2) *
    keyCell L x

theorem keys_cons (x : AppTimer) (xs : List AppTimer) :
    keys L (x :: xs) = keyCell L x * keys L xs :=
  List.prod_cons

theorem keys_perm {xs ys : List AppTimer} (h : xs.Perm ys) : keys L xs = keys L ys :=
  (h.map _).prod_eq

variable {L} {root : Word} {t : RBTree AppTimer} {ctx : List (Frame AppTimer)} {x : AppTimer}

theorem reads_rtOf_cell : Reads (keyCell L x) (InMemory.rtOf (L x.addr)) x.rt := by
  have hword : (x.rt.setWidth 64).setWidth 32 = x.rt := by simp
  have hread : Reads (cell (Loc.rt (L x.addr)) (x.rt.setWidth 64)) (InMemory.rtOf (L x.addr))
      ((x.rt.setWidth 64).setWidth 32) := Reads.bind reads_load Reads.pure
  exact hread.of_eq hword

theorem reads_rtOf {xs : List AppTimer} (hx : x ∈ xs) :
    Reads (keys L xs) (InMemory.rtOf (L x.addr)) x.rt := by
  rw [keys_perm L (List.perm_cons_erase hx), keys_cons]
  exact reads_rtOf_cell.at

theorem reads_rtOf_wheel (hx : x ∈ t.toList) :
    Reads (wheelAt L root t) (InMemory.rtOf (L x.addr)) x.rt := by
  rw [wheelAt]
  exact (reads_rtOf hx).at

theorem reads_link_wheel :
    Reads (wheelAt L root (plug ctx t)) (load (linkLoc (timerPlacement L) root ctx))
      (ptr (timerPlacement L) t) := by
  rw [wheelAt]
  exact reads_link.at

/-! ## One operation -/

/-- The descent in memory is the descent in the tree. -/
theorem reads_addLoop (n : AppTimer) (fuel : Nat) (hfuel : t.height < fuel) :
    ∃ ctx', plug ctx' nil = plug ctx t ∧
      insertAt (fun v => decide (n.rt.toNat < v.rt.toNat)) n t ctx =
        insertColor (node .red nil n nil) ctx' ∧
      Reads (wheelAt L root (plug ctx t))
        (InMemory.addLoop n.rt fuel (linkLoc (timerPlacement L) root ctx)
          (Rbtree.parent (timerPlacement L) ctx))
        (linkLoc (timerPlacement L) root ctx', Rbtree.parent (timerPlacement L) ctx') := by
  induction t generalizing ctx fuel with
  | nil =>
      obtain ⟨k, rfl⟩ : ∃ k, fuel = k + 1 := ⟨fuel - 1, by omega⟩
      refine ⟨ctx, rfl, rfl, Reads.bind reads_link_wheel ?_⟩
      exact Reads.pure
  | node c l v r ihl ihr =>
      obtain ⟨k, rfl⟩ : ∃ k, fuel = k + 1 := ⟨fuel - 1, by omega⟩
      simp only [height] at hfuel
      have hv : v ∈ (plug ctx (node c l v r)).toList := by simp
      have hne : ptr (timerPlacement L) (node c l v r) ≠ 0 := L.ne_null v.addr
      by_cases hlt : n.rt < v.rt
      · obtain ⟨ctx', hplug, hins, hread⟩ := @ihl (.inLeft c v r :: ctx) k (by omega)
        refine ⟨ctx', hplug, ?_, Reads.bind reads_link_wheel ?_⟩
        · rw [insertAt, if_pos (by simpa [BitVec.lt_def] using hlt), hins]
        · rw [if_neg hne]
          refine Reads.bind (reads_rtOf_wheel hv) ?_
          rw [if_pos hlt]
          exact hread
      · obtain ⟨ctx', hplug, hins, hread⟩ := @ihr (.inRight c l v :: ctx) k (by omega)
        refine ⟨ctx', hplug, ?_, Reads.bind reads_link_wheel ?_⟩
        · rw [insertAt, if_neg (by simpa [BitVec.lt_def] using hlt), hins]
        · rw [if_neg hne]
          refine Reads.bind (reads_rtOf_wheel hv) ?_
          rw [if_neg hlt]
          exact hread

theorem triple_timerAdd (n : AppTimer) (fuel : Nat) (ht : RedBlack t) (hfuel : t.height < fuel) :
    Triple (wheelAt L root t * unlinkedAt L n) (InMemory.timerAdd fuel (L n.addr) root) ()
      (wheelAt L root (timerAdd n t)) := by
  obtain ⟨ctx, hplug, hins, hread⟩ := @reads_addLoop L root t [] n fuel hfuel
  have hlen := length_add_height_le ctx (nil : RBTree AppTimer)
  rw [hplug] at hlen
  have hblack : BlackAbove ctx := fun _ => by
    rw [hplug]
    exact ht.1
  have hkeys : keys L (timerAdd n t).toList = keys L t.toList * keyCell L n := by
    have hperm : (timerAdd n t).toList.Perm (n :: t.toList) := insert_perm _ n t
    rw [keys_perm L hperm, keys_cons, mul_comm]
  have hrt : Reads (wheelAt L root t * unlinkedAt L n) (InMemory.rtOf (L n.addr)) n.rt := by
    rw [unlinkedAt]
    exact reads_rtOf_cell.at
  refine Reads.then hrt ?_
  refine Reads.then (hread.frame _) ?_
  rw [unlinkedAt, Assertion.any_mul, Assertion.mul_any]
  refine Triple.of_any fun w => ?_
  have hsplit : wheelAt L root t * (nodeAt .left (L n.addr) w.1 w.2.1 w.2.2 * keyCell L n) =
      treeAt (timerPlacement L) root (plug ctx nil) *
        nodeAt .left (timerPlacement L n) w.1 w.2.1 w.2.2 * keys L (timerAdd n t).toList := by
    rw [wheelAt, hkeys, hplug]
    show _ = treeAt (timerPlacement L) root t * nodeAt .left (L n.addr) w.1 w.2.1 w.2.2 *
      (keys L t.toList * keyCell L n)
    ac_rfl
  have htree : timerAdd n t = insertColor (node .red nil n nil) ctx := hins
  rw [hsplit]
  refine Triple.bind (Triple.frame (triple_rbLinkNode w.1 w.2.1 w.2.2) _) ?_
  rw [wheelAt, htree]
  refine Triple.frame (triple_rbInsertColor fuel ?_ hblack ?_) _
  · exact side_ne_nil .left .red nil n nil
  · have hle : ctx.length ≤ t.height := hlen
    omega

theorem triple_timerDel {a : AppId} {t' : RBTree AppTimer} (fuel : Nat) (ht : RedBlack t)
    (hdel : timerDel a t = some t') (hfuel : t.height ≤ fuel) :
    ∃ x, x.addr = a ∧ t.toList.Perm (x :: t'.toList) ∧
      Triple (wheelAt L root t) (InMemory.timerDel fuel (L a) root) ()
        (wheelAt L root t' * unlinkedAt L x) := by
  unfold timerDel erase at hdel
  split at hdel
  · cases hdel
  · rename_i c l v r ctx hloc
    obtain ⟨hv, hplug⟩ := locate_some _ t [] hloc
    have haddr : v.addr = a := by simpa using hv
    have htree : t = plug ctx (node c l v r) := hplug.symm
    cases hdel
    have hperm : t.toList.Perm (v :: (unlink c l r ctx).toList) := by
      rw [htree, toList_plug, toList_unlink]
      simp only [toList_node, List.append_assoc, List.cons_append]
      exact (List.perm_middle.append_left _).trans List.perm_middle
    refine ⟨v, haddr, hperm, ?_⟩
    rw [← haddr, wheelAt, wheelAt, keys_perm L hperm, keys_cons, unlinkedAt]
    rw [htree] at ht hfuel
    have herase := @triple_rbErase AppTimer (timerPlacement L) root ctx c l r v fuel ht hfuel
    rw [← htree] at herase
    refine Triple.bind (herase.frame _) ?_
    rw [Assertion.any_mul, Assertion.mul_any]
    refine Triple.to_any ((pack (parent (timerPlacement L) ctx) c &&& 3) ||| L v.addr,
      ptr (timerPlacement L) l, ptr (timerPlacement L) r) ?_
    rw [timerPlacement_apply]
    refine (triple_rbUpdate _).post ?_
    ac_rfl

/-- The walk in memory is the walk in the tree. -/
theorem reads_walkLoop (key : U32) (fuel : Nat) (hfuel : t.height < fuel) :
    Reads (wheelAt L root (plug ctx t))
      (InMemory.walkLoop key fuel (linkLoc (timerPlacement L) root ctx))
      (addrOf (timerPlacement L) (timerTreeWalk t key)) := by
  induction t generalizing ctx fuel with
  | nil =>
      obtain ⟨k, rfl⟩ : ∃ k, fuel = k + 1 := ⟨fuel - 1, by omega⟩
      exact Reads.bind reads_link_wheel Reads.pure
  | node c l v r ihl ihr =>
      obtain ⟨k, rfl⟩ : ∃ k, fuel = k + 1 := ⟨fuel - 1, by omega⟩
      simp only [height] at hfuel
      have hv : v ∈ (plug ctx (node c l v r)).toList := by simp
      have hne : ptr (timerPlacement L) (node c l v r) ≠ 0 := L.ne_null v.addr
      have hl := @ihl (.inLeft c v r :: ctx) k (by omega)
      have hr := @ihr (.inRight c l v :: ctx) k (by omega)
      refine Reads.bind reads_link_wheel ?_
      rw [if_neg hne]
      refine Reads.bind (reads_rtOf_wheel hv) ?_
      simp only [timerTreeWalk, search, ← BitVec.lt_def] at hl hr ⊢
      by_cases hlt : key < v.rt
      · rw [if_pos hlt, if_pos hlt]
        exact hl
      · by_cases hgt : v.rt < key
        · rw [if_neg hlt, if_pos hgt, if_neg hlt, if_pos hgt]
          exact hr
        · rw [if_neg hlt, if_neg hgt, if_neg hlt, if_neg hgt]
          exact Reads.pure

end Wheel

/-! ## Runs -/

/-- What is done to a wheel: a node is linked, a node is unlinked, or a time is looked up. -/
inductive NodeOp where
  | add (n : AppTimer)
  | del (a : AppId)
  | walk (key : U32)

/-- A wheel and the nodes that are in no wheel. -/
structure Nodes where
  tree : RBTree AppTimer
  rest : List AppTimer

/-- An operation on the tree of the model; the answer is that of `timer_tree_walk`. -/
def Nodes.step (s : Nodes) : NodeOp → Option (Nodes × Option AppTimer)
  | .add n => if n ∈ s.rest then some (⟨timerAdd n s.tree, s.rest.erase n⟩, none) else none
  | .del a => do
      let t ← timerDel a s.tree
      let x ← s.tree.toList.find? (·.addr == a)
      return (⟨t, x :: s.rest⟩, none)
  | .walk key => some (s, timerTreeWalk s.tree key)

def Nodes.run (s : Nodes) : List NodeOp → Option (Nodes × List (Option AppTimer))
  | [] => some (s, [])
  | op :: ops => do
      let (s, a) ← s.step op
      let (s, as) ← s.run ops
      return (s, a :: as)

/-- The same operation on the nodes in memory. -/
def InMemory.step (L : Placement AppId) (fuel : Nat) (root : Word) : NodeOp → Code Word
  | .add n => do
      timerAdd fuel (L n.addr) root
      return 0
  | .del a => do
      timerDel fuel (L a) root
      return 0
  | .walk key => timerTreeWalk fuel root key

def InMemory.run (L : Placement AppId) (fuel : Nat) (root : Word) : List NodeOp → Code (List Word)
  | [] => return []
  | op :: ops => do
      let a ← step L fuel root op
      let as ← run L fuel root ops
      return a :: as

/-- The memory holds the wheel and the other nodes. -/
def Nodes.at (L : Placement AppId) (root : Word) (s : Nodes) : Assertion Loc Word :=
  wheelAt L root s.tree * (s.rest.map (unlinkedAt L)).prod

/-- All nodes are different, and the tree is in order and balanced. -/
structure Nodes.Ok (s : Nodes) (n : Nat) : Prop where
  nodup : ((s.tree.toList ++ s.rest).map AppTimer.addr).Nodup
  card : (s.tree.toList ++ s.rest).length = n
  ordered : Ordered (fun x => x.rt.toNat) s.tree.toList
  redBlack : RedBlack s.tree

section Runs

variable {L : Placement AppId} {root : Word} {s s' : Nodes} {op : NodeOp} {n fuel : Nat}
  {a : Option AppTimer}

/-- What an operation can do. -/
theorem Nodes.step_cases (hstep : s.step op = some (s', a)) :
    (∃ x, op = .add x ∧ x ∈ s.rest ∧ s' = ⟨timerAdd x s.tree, s.rest.erase x⟩ ∧ a = none) ∨
      (∃ b t x, op = .del b ∧ timerDel b s.tree = some t ∧
        s.tree.toList.find? (·.addr == b) = some x ∧ s' = ⟨t, x :: s.rest⟩ ∧ a = none) ∨
      ∃ key, op = .walk key ∧ s' = s ∧ a = timerTreeWalk s.tree key := by
  cases op with
  | add x =>
      simp only [Nodes.step] at hstep
      split at hstep
      · cases hstep
        exact .inl ⟨x, rfl, by assumption, rfl, rfl⟩
      · cases hstep
  | del b =>
      simp only [Nodes.step] at hstep
      obtain ⟨t, hdel, hstep⟩ := Option.bind_eq_some_iff.mp hstep
      obtain ⟨x, hfind, hstep⟩ := Option.bind_eq_some_iff.mp hstep
      cases hstep
      exact .inr (.inl ⟨b, t, x, rfl, hdel, hfind, rfl, rfl⟩)
  | walk key =>
      cases hstep
      exact .inr (.inr ⟨key, rfl, rfl, rfl⟩)

/-- The node that is found under an address is the one that is unlinked. -/
theorem Nodes.Ok.found (hs : s.Ok n) {x y : AppTimer} {ys : List AppTimer}
    (hperm : s.tree.toList.Perm (y :: ys))
    (hfind : s.tree.toList.find? (·.addr == y.addr) = some x) : x = y := by
  have hnodup : (s.tree.toList.map AppTimer.addr).Nodup := by
    have hall := hs.nodup
    rw [List.map_append] at hall
    exact hall.of_append_left
  have hy : y ∈ s.tree.toList := hperm.mem_iff.mpr List.mem_cons_self
  have haddr : x.addr = y.addr := by simpa using List.find?_some hfind
  exact List.inj_on_of_nodup_map hnodup (List.mem_of_find?_eq_some hfind) hy haddr

theorem Nodes.Ok.step (hs : s.Ok n) (hstep : s.step op = some (s', a)) : s'.Ok n := by
  suffices hperm : (s'.tree.toList ++ s'.rest).Perm (s.tree.toList ++ s.rest) ∧
      Ordered (fun x => x.rt.toNat) s'.tree.toList ∧ RedBlack s'.tree from
    ⟨(hperm.1.map _).nodup_iff.mpr hs.nodup, hperm.1.length_eq.trans hs.card, hperm.2.1,
      hperm.2.2⟩
  rcases Nodes.step_cases hstep with ⟨x, -, hx, rfl, -⟩ | ⟨b, t, x, -, hdel, hfind, rfl, -⟩ |
    ⟨key, -, rfl, -⟩
  · refine ⟨?_, insert_ordered _ x s.tree hs.ordered,
      insert_redBlack (fun x : AppTimer => x.rt.toNat) x hs.redBlack⟩
    calc (timerAdd x s.tree).toList ++ s.rest.erase x
        _ |>.Perm (x :: s.tree.toList ++ s.rest.erase x) := (insert_perm _ x s.tree).append_right _
        _ |>.Perm (s.tree.toList ++ x :: s.rest.erase x) := List.perm_middle.symm
        _ |>.Perm (s.tree.toList ++ s.rest) := (List.perm_cons_erase hx).symm.append_left _
  · refine ⟨?_, erase_ordered _ _ s.tree t hdel hs.ordered, erase_redBlack hs.redBlack hdel⟩
    obtain ⟨y, hy, hperm⟩ := erase_perm _ s.tree t hdel
    have haddr : y.addr = b := by simpa using hy
    subst haddr
    rw [hs.found hperm hfind]
    exact List.perm_middle.trans (hperm.symm.append_right _)
  · exact ⟨.refl _, hs.ordered, hs.redBlack⟩

theorem triple_step (hs : s.Ok n) (hfuel : 2 * Nat.log 2 (n + 1) < fuel)
    (hstep : s.step op = some (s', a)) :
    Triple (s.at L root) (InMemory.step L fuel root op) (addrOf (timerPlacement L) a)
      (s'.at L root) := by
  have hheight : s.tree.height < fuel := by
    have hle := hs.redBlack.height_le
    have hsize : s.tree.size ≤ n := by
      rw [size_eq_length, ← hs.card, List.length_append]
      omega
    have hlog : Nat.log 2 (s.tree.size + 1) ≤ Nat.log 2 (n + 1) := Nat.log_mono_right (by omega)
    omega
  rcases Nodes.step_cases hstep with ⟨x, rfl, hx, rfl, rfl⟩ | ⟨b, t, x, rfl, hdel, hfind, rfl, rfl⟩ |
    ⟨key, rfl, rfl, rfl⟩
  · have hrest : (s.rest.map (unlinkedAt L)).prod =
        unlinkedAt L x * ((s.rest.erase x).map (unlinkedAt L)).prod := by
      rw [((List.perm_cons_erase hx).map _).prod_eq, List.map_cons, List.prod_cons]
    rw [Nodes.at, hrest, ← mul_assoc]
    exact Triple.bind ((triple_timerAdd x fuel hs.redBlack hheight).frame _) Triple.pure
  · obtain ⟨y, rfl, hperm, htriple⟩ :=
      @triple_timerDel L root s.tree b t fuel hs.redBlack hdel hheight.le
    rw [hs.found hperm hfind, Nodes.at, Nodes.at, List.map_cons, List.prod_cons, ← mul_assoc]
    exact Triple.bind (htriple.frame _) Triple.pure
  · have hwalk : Reads (wheelAt L root (plug [] s'.tree))
        (InMemory.walkLoop key fuel (linkLoc (timerPlacement L) root [])) _ :=
      reads_walkLoop key fuel hheight
    exact (hwalk.frame _).triple

/-- Over any run, the nodes in memory are the tree of the model, and the walks answer what the
model answers. -/
theorem triple_run {ops : List NodeOp} {as : List (Option AppTimer)} (hs : s.Ok n)
    (hfuel : 2 * Nat.log 2 (n + 1) < fuel) (hrun : s.run ops = some (s', as)) :
    Triple (s.at L root) (InMemory.run L fuel root ops) (as.map (addrOf (timerPlacement L)))
      (s'.at L root) ∧ s'.Ok n := by
  induction ops generalizing s as with
  | nil =>
      cases hrun
      exact ⟨Triple.pure, hs⟩
  | cons op ops ih =>
      simp only [Nodes.run] at hrun
      obtain ⟨⟨s₁, a⟩, hstep, hrun⟩ := Option.bind_eq_some_iff.mp hrun
      obtain ⟨⟨s₂, bs⟩, hrest, hrun⟩ := Option.bind_eq_some_iff.mp hrun
      cases hrun
      obtain ⟨htriple, hok⟩ := ih (hs.step hstep) hrest
      exact ⟨Triple.bind (triple_step hs hfuel hstep) (Triple.bind htriple Triple.pure), hok⟩

/-- From an empty wheel on: no operation follows a null pointer or leaves the nodes, every loop
ends, and the memory holds a red-black tree in order. -/
theorem triple_run_of_empty (L : Placement AppId) (root : Word) (fuel : Nat)
    (rest : List AppTimer) (hnodup : (rest.map AppTimer.addr).Nodup)
    (hfuel : 2 * Nat.log 2 (rest.length + 1) < fuel) (ops : List NodeOp) (s : Nodes)
    (as : List (Option AppTimer)) (hrun : Nodes.run ⟨nil, rest⟩ ops = some (s, as)) :
    Triple (Nodes.at L root ⟨nil, rest⟩) (InMemory.run L fuel root ops)
      (as.map (addrOf (timerPlacement L))) (s.at L root) ∧ s.Ok rest.length := by
  have hok : Nodes.Ok ⟨nil, rest⟩ rest.length :=
    ⟨by simpa using hnodup, by simp, .nil, rfl, 0, .nil⟩
  exact triple_run hok hfuel hrun

/-- The locations of a timer. -/
def timerLocs (a : Word) : Set Loc := {.rt a} ∪ nodeLocs a

theorem not_mem_timerLocs {a b : Word} {k : Loc} (h : a ≠ b) (hk : k ∈ timerLocs a) :
    k ∉ timerLocs b := by
  rcases hk with rfl | hk
  · simp [timerLocs, nodeLocs, h]
  · rintro (rfl | hk')
    · simp [nodeLocs] at hk
    · exact not_mem_nodeLocs h hk hk'

theorem fits_unlinkedAt (x : AppTimer) : Fits (unlinkedAt L x) (timerLocs (L x.addr)) := by
  have hnode := fits_any (0, 0, 0) (fits_nodeAt (L x.addr) 0 0 0)
    (P := fun w : Word × Word × Word => nodeAt .left (L x.addr) w.1 w.2.1 w.2.2)
  refine (hnode.mul (fits_cell _ _) ?_).mono (Set.union_comm _ _).subset
  simp [nodeLocs]

/-- There is a memory to start from. -/
theorem exists_holds_empty (root : Word) (rest : List AppTimer)
    (hnodup : (rest.map fun x => L x.addr).Nodup) :
    ∃ h, (Nodes.at L root ⟨nil, rest⟩).Holds h := by
  have hrest : rest.Pairwise fun x y => ∀ k ∈ timerLocs (L x.addr), k ∉ timerLocs (L y.addr) :=
    (List.pairwise_map.mp hnodup).imp fun hne k hk => not_mem_timerLocs hne hk
  have htree := @fits_treeAt AppTimer (timerPlacement L) root nil .nil
  refine ((htree.mul fits_one fun k _ => Set.notMem_empty k).mul
    (fits_prod rest fits_unlinkedAt hrest) ?_).exists_holds
  simp [nodesLocs, timerLocs, nodeLocs]

/-- Three timers for two times are linked, and the first is unlinked. -/
theorem triple_run_three :
    (∃ h, (Nodes.at slots 8 ⟨nil, [⟨1, none, 0, 7⟩, ⟨2, none, 0, 9⟩, ⟨3, none, 0, 7⟩]⟩).Holds h) ∧
    ∃ s as, Nodes.run ⟨nil, [⟨1, none, 0, 7⟩, ⟨2, none, 0, 9⟩, ⟨3, none, 0, 7⟩]⟩
        [.add ⟨1, none, 0, 7⟩, .add ⟨2, none, 0, 9⟩, .add ⟨3, none, 0, 7⟩, .walk 7, .del 1,
          .walk 7] = some (s, as) ∧
      Triple (Nodes.at slots 8 ⟨nil, [⟨1, none, 0, 7⟩, ⟨2, none, 0, 9⟩, ⟨3, none, 0, 7⟩]⟩)
        (InMemory.run slots 5 8
          [.add ⟨1, none, 0, 7⟩, .add ⟨2, none, 0, 9⟩, .add ⟨3, none, 0, 7⟩, .walk 7, .del 1,
            .walk 7]) [0, 0, 0, slots 3, 0, slots 3] (s.at slots 8) ∧ s.Ok 3 := by
  have hsize : Nat.log 2 (3 + 1) < 3 := Nat.log_lt_of_lt_pow (by decide) (by decide)
  have hrun := triple_run_of_empty slots 8 5
    [⟨1, none, 0, 7⟩, ⟨2, none, 0, 9⟩, ⟨3, none, 0, 7⟩] (by decide)
    (show 2 * Nat.log 2 (3 + 1) < 5 by omega)
    [.add ⟨1, none, 0, 7⟩, .add ⟨2, none, 0, 9⟩, .add ⟨3, none, 0, 7⟩, .walk 7, .del 1, .walk 7]
    _ _ rfl
  exact ⟨exists_holds_empty 8 _ (by decide), _, _, rfl, hrun⟩

end Runs

end Timers
end TmULThreads
