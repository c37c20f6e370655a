import TmULThreads.Timers.Sweep

/-!
# Looking up a tree and emptying it

`timer_tree_walk` finds a timer by its `rt` in any tree that `timer_add` and `timer_del` have
built: equal keys go to the right when they are added, and whatever the rebalancing does with
them, the tree stays ordered.

`process_timers` calls it until nothing is found.  Each turn takes a node out, and links it again
only with a value of a counter that is still to come, so the loop meets every node that waits for
the present value once and no other (`serves_of_ready`).  `walk_and_serve` puts the two together.
-/

namespace TmULThreads
namespace Timers

open RedBlackTree

/-! ## The walk -/

inductive TreeOp where
  | timerAdd (n : AppTimer)
  | timerDel (n : AppId)
  deriving DecidableEq, Repr

def treeStep (root : RBTree AppTimer) : TreeOp → Option (RBTree AppTimer)
  | .timerAdd n => some (timerAdd n root)
  | .timerDel n => timerDel n root

/-- The walk returns a timer with the key, or there is none. -/
def WalkLaw (root : RBTree AppTimer) (key : U32) : Prop :=
  match timerTreeWalk root key with
  | some x => x ∈ root.toList ∧ x.rt = key
  | none => ∀ x ∈ root.toList, x.rt ≠ key

/-- The order of a tree by `rt`, with equal keys anywhere next to each other. -/
abbrev ByRt (root : RBTree AppTimer) : Prop := Ordered (fun x : AppTimer => x.rt.toNat) root.toList

theorem byRt_of_run {ops : List TreeOp} {root : RBTree AppTimer}
    (hrun : PartialSteps.run treeStep .nil ops = some root) : ByRt root := by
  have hnil : ByRt .nil := List.Pairwise.nil
  refine PartialSteps.run_invariant_always treeStep (I := ByRt) ?_ hnil hrun
  intro root op root' hord hstep
  cases op with
  | timerAdd n =>
      cases hstep
      exact insert_ordered _ n root hord
  | timerDel n => exact erase_ordered _ _ root root' hstep hord

theorem walkLaw_of_byRt {root : RBTree AppTimer} (h : ByRt root) (key : U32) :
    WalkLaw root key := by
  unfold WalkLaw
  cases hwalk : timerTreeWalk root key with
  | some x =>
      obtain ⟨hx, hkey⟩ := search_eq_some _ _ _ hwalk
      exact ⟨hx, BitVec.eq_of_toNat_eq hkey⟩
  | none =>
      intro x hx hrt
      exact search_eq_none _ _ _ h hwalk x hx (congrArg BitVec.toNat hrt)

/-! ## The loop -/

/-- The wheel in the `TIMER_T` of a node, by which `clear_wheel_timer` goes. -/
def Node.wheelOf (s : TmrState) (n : Node) : Option Wheel :=
  (n.timer.bind s.timers).bind Timer.wheel

/-- The time word of a node after `clear_wheel_timer`. -/
def Node.cleared (s : TmrState) (n : Node) : U32 :=
  ((n.wheelOf s).map fun v => clearWheel v n.pending.ctime).getD n.pending.ctime

/-- The node that `find_tmr_slot_and_place` makes of it. -/
def Node.replaced (s : TmrState) (n : Node) : Option Node :=
  (place s.clk (n.cleared s)).map fun q => ⟨n.addr, n.timer, q⟩

/-- The entry of an expired timer. -/
def Node.entry (n : Node) : AppTimer := ⟨n.addr, n.timer, 0, n.pending.rt⟩

/-- The nodes that the loop is to meet. -/
def TmrState.hits (s : TmrState) (w : Wheel) : Multiset Node := s.nodes.filter (Node.hit s.clk w)

/-- What `process_timers` makes of the state: it has met the nodes that wait for the present
value of the counter, `k` of them, and each of them has been expired or placed anew, but not for
this value in this tree. -/
structure ServesWheel (s : TmrState) (w : Wheel) (s' : TmrState) (k : Nat) : Prop where
  ended : timerTreeWalk (s'.root w) (s.clk.get w) = none
  count : k = (s.root w).toList.countP fun x => x.rt = s.clk.get w
  nodes : s'.nodes = s.nodes.filter (fun n => ¬ n.hit s.clk w) +
    (s.hits w).filterMap (Node.replaced s)
  expired : ∃ es : List AppTimer, s'.expdTmrs = s.expdTmrs ++ es ∧
    (es : Multiset AppTimer) = ((s.hits w).filter fun n => n.cleared s = 0).map Node.entry
  once : ∀ n ∈ s.hits w, (n.replaced s).isSome ↔ n.cleared s ≠ 0
  fresh : ∀ n ∈ (s.hits w).filterMap (Node.replaced s), ¬ n.hit s.clk w
  lower : ∀ n ∈ s.hits w, n.wheelOf s = some w → ∀ n', n.replaced s = some n' →
    n'.pending.wheel.rank < w.rank

/-! ## One turn -/

/-- The nodes that the loop is to meet belong to different timers, which are live. -/
structure Ready (s : TmrState) (w : Wheel) : Prop extends Linked s where
  live : ∀ n ∈ s.hits w, (n.wheelOf s).isSome
  distinct : ((s.hits w).map Node.timer).Nodup

theorem Node.wheelOf_eq_some_iff {s : TmrState} {n : Node} {v : Wheel} :
    n.wheelOf s = some v ↔
      ∃ p tmr, n.timer = some p ∧ s.timers p = some tmr ∧ tmr.wheel = some v := by
  simp only [Node.wheelOf, Option.bind_eq_some_iff]
  constructor
  · rintro ⟨tmr, ⟨p, hp, htmr⟩, hv⟩
    exact ⟨p, tmr, hp, htmr, hv⟩
  · rintro ⟨p, tmr, hp, htmr, hv⟩
    exact ⟨tmr, ⟨p, hp, htmr⟩, hv⟩

theorem Node.cleared_eq {s : TmrState} {n : Node} {v : Wheel} (h : n.wheelOf s = some v) :
    n.cleared s = clearWheel v n.pending.ctime := by
  rw [Node.cleared, h]
  rfl

/-- A turn writes to the timer of its own node only. -/
theorem Node.wheelOf_setTimer {s s' : TmrState} {p : TimerId} {t : Timer} {n : Node}
    (htimers : s'.timers = (s.setTimer p t).timers) (hne : n.timer ≠ some p) :
    n.wheelOf s' = n.wheelOf s := by
  unfold Node.wheelOf
  cases hq : n.timer with
  | none => rfl
  | some q =>
      have hqp : q ≠ p := fun heq => hne (hq.trans (congrArg some heq))
      rw [Option.bind_some, Option.bind_some, htimers, setTimer_timers_of_ne _ _ _ hqp]

/-- What a turn for the node `n` has done, when the other nodes are those of `rest`. -/
def Turned (s : TmrState) (w : Wheel) (n : Node) (rest : Multiset Node) (s' : TmrState) : Prop :=
  (n.cleared s = 0 ∧ s'.nodes = rest ∧ s'.expdTmrs = s.expdTmrs ++ [n.entry]) ∨
    ∃ n', n.replaced s = some n' ∧ ¬ n'.hit s.clk w ∧ s'.nodes = n' ::ₘ rest ∧
      s'.expdTmrs = s.expdTmrs

theorem Turned.hits {s s' : TmrState} {w : Wheel} {n : Node} {rest : Multiset Node}
    (h : Turned s w n rest s') (hclk : s'.clk = s.clk) :
    s'.hits w = rest.filter (Node.hit s.clk w) := by
  unfold TmrState.hits
  rw [hclk]
  rcases h with ⟨-, hnodes, -⟩ | ⟨n', -, hnot, hnodes, -⟩
  · rw [hnodes]
  · rw [hnodes, Multiset.filter_cons_of_neg _ hnot]

theorem Ready.turn {s : TmrState} {w : Wheel} {x : AppTimer} (h : Ready s w)
    (hx : x ∈ (s.root w).toList) (hrt : x.rt = s.clk.get w) :
    ∃ s' rest, processOne s w x = some s' ∧ s.nodes = x.node w ::ₘ rest ∧ s'.clk = s.clk ∧
      Ready s' w ∧ Turned s w (x.node w) rest s' ∧
      ∀ n ∈ rest.filter (Node.hit s.clk w), n.wheelOf s' = n.wheelOf s := by
  have hhit : (x.node w).hit s.clk w := ⟨rfl, hrt⟩
  have hmem : x.node w ∈ s.hits w := Multiset.mem_filter.mpr ⟨node_mem_nodes hx, hhit⟩
  obtain ⟨v, hv⟩ := Option.isSome_iff_exists.mp (h.live _ hmem)
  obtain ⟨p, tmr, hp, htmr, hwheel⟩ := Node.wheelOf_eq_some_iff.mp hv
  obtain ⟨s', hone⟩ := exists_processOne hx hp htmr hwheel
  obtain ⟨hclk, hlinked, -⟩ := processOne_nodes h.toLinked hx hone
  obtain ⟨p', tmr', v', r, hp', htmr', hwheel', hr, hcase⟩ := processOne_cases hone
  obtain rfl : p = p' := Option.some.inj (hp.symm.trans hp')
  obtain rfl : tmr = tmr' := Option.some.inj (htmr.symm.trans htmr')
  obtain rfl : v = v' := Option.some.inj (hwheel.symm.trans hwheel')
  have hnodes := h.timerDel_eq hx hr
  have hcleared := Node.cleared_eq hv
  have hturned : Turned s w (x.node w) (s.setRoot w r).nodes s' := by
    rcases hcase with ⟨hempty, rfl⟩ | ⟨q, hq, rfl⟩
    · refine .inl ⟨hcleared.trans hempty, rfl, ?_⟩
      rw [TmrState.lapse, hempty]
      rfl
    · refine .inr ⟨⟨x.addr, x.timer, q⟩, ?_, not_hit_of_place hq _ _ _, nodes_attach hq, rfl⟩
      rw [Node.replaced, hcleared]
      exact congrArg (Option.map _) hq
  -- the other nodes that the loop is to meet have other timers
  have hdistinct := h.distinct
  rw [TmrState.hits, hnodes, Multiset.filter_cons_of_pos _ hhit, Multiset.map_cons,
    Multiset.nodup_cons] at hdistinct
  have hsame : ∀ n ∈ (s.setRoot w r).nodes.filter (Node.hit s.clk w),
      n.wheelOf s' = n.wheelOf s := by
    intro n hn
    have hne : n.timer ≠ some p := by
      rw [← hp]
      exact fun heq => hdistinct.1 (heq ▸ Multiset.mem_map_of_mem _ hn)
    rcases hcase with ⟨-, rfl⟩ | ⟨q, -, rfl⟩
    · exact Node.wheelOf_setTimer (t := { tmr with isRunning := false }) rfl hne
    · exact Node.wheelOf_setTimer (t := { tmr with wheel := some q.wheel, isRunning := true }) rfl
        hne
  have hhits := hturned.hits hclk
  refine ⟨s', _, hone, hnodes, hclk, ⟨hlinked, fun n hn => ?_, ?_⟩, hturned, hsame⟩
  · rw [hhits] at hn
    rw [hsame n hn]
    refine h.live n ?_
    rw [TmrState.hits, hnodes, Multiset.filter_cons_of_pos _ hhit]
    exact Multiset.mem_cons_of_mem hn
  · rw [hhits]
    exact hdistinct.2

/-! ## All turns -/

/-- What the turns of the loop have done together. -/
structure Emptied (s : TmrState) (w : Wheel) (s' : TmrState) (k : Nat) : Prop where
  count : k = s.nodes.countP (Node.hit s.clk w)
  nodes : s'.nodes = s.nodes.filter (fun n => ¬ n.hit s.clk w) +
    (s.hits w).filterMap (Node.replaced s)
  expired : ∃ es : List AppTimer, s'.expdTmrs = s.expdTmrs ++ es ∧
    (es : Multiset AppTimer) = ((s.hits w).filter fun n => n.cleared s = 0).map Node.entry

theorem Emptied.of_no_hits {s : TmrState} {w : Wheel} (h : ∀ n ∈ s.nodes, ¬ n.hit s.clk w) :
    Emptied s w s 0 := by
  have hhits : s.hits w = 0 := Multiset.filter_eq_nil.mpr h
  refine ⟨(Multiset.countP_eq_zero.mpr h).symm, ?_, [], (List.append_nil _).symm, ?_⟩
  · rw [hhits, Multiset.filterMap_zero, Multiset.add_zero, Multiset.filter_eq_self.mpr h]
  · rw [hhits]
    rfl

/-- A turn, and then the others. -/
theorem Emptied.of_turn {s mid s' : TmrState} {w : Wheel} {n : Node} {rest : Multiset Node}
    {k : Nat} (hnodes : s.nodes = n ::ₘ rest) (hhit : n.hit s.clk w) (hclk : mid.clk = s.clk)
    (hturned : Turned s w n rest mid)
    (hsame : ∀ m ∈ rest.filter (Node.hit s.clk w), m.wheelOf mid = m.wheelOf s)
    (h : Emptied mid w s' k) : Emptied s w s' (k + 1) := by
  have hhits : s.hits w = n ::ₘ rest.filter (Node.hit s.clk w) := by
    rw [TmrState.hits, hnodes, Multiset.filter_cons_of_pos _ hhit]
  have hmid := hturned.hits hclk
  have hcleared : ∀ m ∈ rest.filter (Node.hit s.clk w), m.cleared mid = m.cleared s := by
    intro m hm
    rw [Node.cleared, Node.cleared, hsame m hm]
  have hreplaced : (mid.hits w).filterMap (Node.replaced mid) =
      (rest.filter (Node.hit s.clk w)).filterMap (Node.replaced s) := by
    rw [hmid]
    refine filterMap_congr fun m hm => ?_
    rw [Node.replaced, Node.replaced, hcleared m hm, hclk]
  have hentries : ((mid.hits w).filter fun m => m.cleared mid = 0) =
      (rest.filter (Node.hit s.clk w)).filter fun m => m.cleared s = 0 := by
    rw [hmid]
    exact Multiset.filter_congr fun m hm => by rw [hcleared m hm]
  have hcount := h.count
  have hnodes' := h.nodes
  obtain ⟨es, hexpd, hes⟩ := h.expired
  rw [hclk] at hcount hnodes'
  rw [hreplaced] at hnodes'
  rw [hentries] at hes
  rcases hturned with ⟨hzero, hrest, hlist⟩ | ⟨n', hn', hnot, hrest, hlist⟩
  · have hnone : n.replaced s = none := by
      rw [Node.replaced, hzero, (place_eq_none_iff s.clk 0).mpr rfl]
      rfl
    refine ⟨?_, ?_, n.entry :: es, ?_, ?_⟩
    · rw [hcount, hrest, hnodes, Multiset.countP_cons_of_pos _ hhit]
    · rw [hnodes', hrest, hhits, Multiset.filterMap_cons_none _ _ hnone, hnodes,
        Multiset.filter_cons_of_neg (p := fun m : Node => ¬ m.hit s.clk w) _ (not_not.mpr hhit)]
    · rw [hexpd, hlist, List.append_assoc]
      rfl
    · rw [hhits, Multiset.filter_cons_of_pos (p := fun m : Node => m.cleared s = 0) _ hzero,
        Multiset.map_cons, ← hes]
      rfl
  · have hne : n.cleared s ≠ 0 := by
      intro hzero
      rw [Node.replaced, hzero, (place_eq_none_iff s.clk 0).mpr rfl] at hn'
      cases hn'
    refine ⟨?_, ?_, es, ?_, ?_⟩
    · rw [hcount, hrest, hnodes, Multiset.countP_cons_of_pos _ hhit,
        Multiset.countP_cons_of_neg _ hnot]
    · rw [hnodes', hrest, hhits, Multiset.filterMap_cons_some _ _ _ hn', hnodes,
        Multiset.filter_cons_of_neg (p := fun m : Node => ¬ m.hit s.clk w) _ (not_not.mpr hhit),
        Multiset.filter_cons_of_pos (p := fun m : Node => ¬ m.hit s.clk w) _ hnot,
        Multiset.cons_add, Multiset.add_cons]
    · rw [hexpd, hlist]
    · rw [hes, hhits, Multiset.filter_cons_of_neg (p := fun m : Node => m.cleared s = 0) _ hne]

/-- As many turns as there are nodes to meet are enough. -/
theorem Ready.loop {fuel : Nat} {s : TmrState} {w : Wheel} (h : Ready s w)
    (hfuel : s.nodes.countP (Node.hit s.clk w) ≤ fuel) :
    ∃ s' k, processTimersLoop fuel s w (s.clk.get w) = some (s', k) ∧ Emptied s w s' k := by
  induction fuel generalizing s with
  | zero =>
      refine ⟨s, 0, rfl, .of_no_hits ?_⟩
      exact Multiset.countP_eq_zero.mp (Nat.le_zero.mp hfuel)
  | succ fuel ih =>
      rw [processTimersLoop]
      have hlaw := walkLaw_of_byRt (h.ordered w) (s.clk.get w)
      unfold WalkLaw at hlaw
      cases hwalk : timerTreeWalk (s.root w) (s.clk.get w) with
      | none =>
          rw [hwalk] at hlaw
          refine ⟨s, 0, rfl, .of_no_hits ?_⟩
          rintro n hn ⟨hw, hrt⟩
          obtain ⟨x, hx, hnode⟩ := mem_nodes.mp hn
          rw [hw] at hx
          rw [← hnode] at hrt
          exact hlaw x hx hrt
      | some x =>
          rw [hwalk] at hlaw
          obtain ⟨hx, hrt⟩ := hlaw
          obtain ⟨mid, rest, hone, hnodes, hclk, hready, hturned, hsame⟩ := h.turn hx hrt
          have hhit : (x.node w).hit s.clk w := ⟨rfl, hrt⟩
          have hcount : mid.nodes.countP (Node.hit mid.clk w) ≤ fuel := by
            have hcard := congrArg Multiset.card (hturned.hits hclk)
            rw [TmrState.hits, ← Multiset.countP_eq_card_filter,
              ← Multiset.countP_eq_card_filter] at hcard
            rw [hnodes, Multiset.countP_cons_of_pos _ hhit] at hfuel
            omega
          obtain ⟨s', k, hloop, hemptied⟩ := ih hready hcount
          rw [hclk] at hloop
          refine ⟨s', k + 1, ?_, hemptied.of_turn hnodes hhit hclk hturned hsame⟩
          simp only [hone, hloop, Option.bind_eq_bind, Option.bind_some]

/-- The nodes that the loop is to meet are all in its tree. -/
theorem hits_eq (s : TmrState) (w : Wheel) :
    s.hits w = (treeNodes w (s.root w)).filter fun n => n.pending.rt = s.clk.get w := by
  have hother {v : Wheel} (hv : v ≠ w) :
      (treeNodes v (s.root v)).filter (Node.hit s.clk w) = 0 := by
    refine Multiset.filter_eq_nil.mpr fun n hn hhit => hv ?_
    obtain ⟨x, -, rfl⟩ := mem_treeNodes.mp hn
    exact hhit.1
  have hself : (treeNodes w (s.root w)).filter (Node.hit s.clk w) =
      (treeNodes w (s.root w)).filter fun n => n.pending.rt = s.clk.get w := by
    refine Multiset.filter_congr fun n hn => ?_
    obtain ⟨x, -, rfl⟩ := mem_treeNodes.mp hn
    exact and_iff_right rfl
  rw [← hself]
  simp only [TmrState.hits, TmrState.nodes, Multiset.filter_add]
  cases w <;> simp [hother]

theorem countP_hit_eq (s : TmrState) (w : Wheel) :
    s.nodes.countP (Node.hit s.clk w) =
      (s.root w).toList.countP fun x => x.rt = s.clk.get w := by
  have hcard : s.nodes.countP (Node.hit s.clk w) = Multiset.card (s.hits w) :=
    Multiset.countP_eq_card_filter ..
  rw [hcard, hits_eq, ← Multiset.countP_eq_card_filter, treeNodes, Multiset.coe_countP,
    List.countP_map]
  rfl

/-- The loop of `process_timers` does what it is for. -/
theorem Ready.serves {s : TmrState} {w : Wheel} (h : Ready s w)
    (habove : ∀ n ∈ s.nodes, ∀ v, n.pending.wheel.rank < v.rank → field v n.pending.ctime = 0) :
    ∃ s' k, processTimers s w (s.clk.get w) = some (s', k) ∧ ServesWheel s w s' k := by
  obtain ⟨s', k, hloop, hemptied⟩ := h.loop (countP_hit_le s s.clk w)
  refine ⟨s', k, hloop, ?_, ?_, hemptied.nodes, hemptied.expired, fun n _ => ?_, fun n hn => ?_,
    fun n hn hv n' hn' => ?_⟩
  · have hnone := processTimers_exhausts h.toLinked hloop
    cases hwalk : timerTreeWalk (s'.root w) (s.clk.get w) with
    | none => rfl
    | some x =>
        obtain ⟨hx, hkey⟩ := search_eq_some _ _ _ hwalk
        exact absurd ⟨rfl, BitVec.eq_of_toNat_eq hkey⟩ (hnone _ (node_mem_nodes hx))
  · rw [hemptied.count, countP_hit_eq]
  · rw [Node.replaced, Option.isSome_map, Option.isSome_iff_ne_none, ne_eq, place_eq_none_iff]
  · obtain ⟨m, -, hm⟩ := (Multiset.mem_filterMap _ _).mp hn
    obtain ⟨q, hq, rfl⟩ := Option.map_eq_some_iff.mp hm
    exact not_hit_of_place hq _ _ _
  · obtain ⟨hmem, hw, -⟩ := Multiset.mem_filter.mp hn
    obtain ⟨q, hq, rfl⟩ := Option.map_eq_some_iff.mp hn'
    rw [Node.cleared_eq hv, ← hw] at hq
    rw [← hw]
    exact Pending.rank_lt_of_drop (habove n hmem) hq

/-! ## Trees that `find_tmr_slot_and_place` has filled -/

inductive WheelOp where
  | findTmrSlotAndPlace (ptmr : AppTimer)
  | timerDel (w : Wheel) (n : AppId)
  | setClk (c : Clk)
  deriving DecidableEq, Repr

/-- An entry that has been allocated is placed while it is in no tree; the clock moves as it
likes. -/
def wheelStep (s : TmrState) : WheelOp → Option TmrState
  | .findTmrSlotAndPlace ptmr =>
      if ptmr.addr < s.nextApp ∧ ∀ n ∈ s.nodes, n.addr ≠ ptmr.addr then findTmrSlotAndPlace s ptmr
      else none
  | .timerDel w n => (timerDel n (s.root w)).map (s.setRoot w)
  | .setClk c => some { s with clk := c }

/-- The timer of every node is live and has a wheel. -/
structure Filled (s : TmrState) : Prop extends Linked s where
  live : ∀ n ∈ s.nodes, (n.wheelOf s).isSome
  above : ∀ n ∈ s.nodes, ∀ v, n.pending.wheel.rank < v.rank → field v n.pending.ctime = 0

theorem filled_of_empty {s : TmrState} (h : ∀ w, s.root w = .nil) : Filled s := by
  have hnodes : s.nodes = 0 := by
    simp [TmrState.nodes, h, treeNodes]
  refine ⟨⟨fun w => ?_, ?_, ?_⟩, ?_, ?_⟩
  · rw [h w]
    exact List.Pairwise.nil
  · rw [hnodes]
    exact Multiset.nodup_zero
  all_goals
    rw [hnodes]
    exact fun n hn => absurd hn (Multiset.notMem_zero n)

theorem Filled.of_place {s s' : TmrState} {ptmr : AppTimer} (h : Filled s)
    (hlt : ptmr.addr < s.nextApp) (hfresh : ∀ n ∈ s.nodes, n.addr ≠ ptmr.addr)
    (hplace : findTmrSlotAndPlace s ptmr = some s') : Filled s' := by
  rcases findTmrSlotAndPlace_cases hplace with ⟨-, rfl⟩ | ⟨q, p, tmr, hq, hp, htmr, rfl⟩
  · exact h
  · have hnodes : (s.attach p tmr ptmr q).nodes = ⟨ptmr.addr, ptmr.timer, q⟩ ::ₘ s.nodes :=
      nodes_attach hq
    have hself {n : Node} (hn : n.timer = some p) :
        n.wheelOf (s.attach p tmr ptmr q) = some q.wheel :=
      Node.wheelOf_eq_some_iff.mpr ⟨p, _, hn, attach_timers_self .., rfl⟩
    refine ⟨linked_attach h.toLinked hlt hfresh, fun n hn => ?_, fun n hn => ?_⟩
    · by_cases hnp : n.timer = some p
      · rw [hself hnp]
        rfl
      · have hsame : n.wheelOf (s.attach p tmr ptmr q) = n.wheelOf s :=
          Node.wheelOf_setTimer (t := { tmr with wheel := some q.wheel, isRunning := true }) rfl hnp
        rw [hsame]
        rw [hnodes] at hn
        rcases Multiset.mem_cons.mp hn with rfl | hold
        · exact absurd hp hnp
        · exact h.live n hold
    · rw [hnodes] at hn
      rcases Multiset.mem_cons.mp hn with rfl | hold
      · exact (place_valid hq).above
      · exact h.above n hold

theorem Filled.of_step {s s' : TmrState} {op : WheelOp} (h : Filled s)
    (hstep : wheelStep s op = some s') : Filled s' := by
  cases op with
  | findTmrSlotAndPlace ptmr =>
      simp only [wheelStep] at hstep
      split at hstep
      · rename_i hguard
        exact h.of_place hguard.1 hguard.2 hstep
      · cases hstep
  | timerDel w a =>
      obtain ⟨r, hr, rfl⟩ := Option.map_eq_some_iff.mp hstep
      obtain ⟨x, -, -, hcons⟩ := exists_of_timerDel (w := w) hr
      have hsub {n : Node} (hn : n ∈ (s.setRoot w r).nodes) : n ∈ s.nodes := by
        rw [nodes_eq_cons_setRoot hcons]
        exact Multiset.mem_cons_of_mem hn
      exact ⟨h.setRoot_timerDel hr, fun n hn => h.live n (hsub hn), fun n hn => h.above n (hsub hn)⟩
  | setClk c =>
      cases hstep
      exact ⟨h.toLinked.of_eq rfl le_rfl, h.live, h.above⟩

theorem Filled.ready {s : TmrState} (h : Filled s) {w : Wheel}
    (hdistinct : ((s.root w).toList.map AppTimer.timer).Nodup) : Ready s w where
  toLinked := h.toLinked
  live n hn := h.live n (Multiset.mem_filter.mp hn).1
  distinct := by
    have htree : ((treeNodes w (s.root w)).map Node.timer).Nodup := by
      rw [treeNodes, Multiset.map_coe, List.map_map]
      exact hdistinct
    rw [hits_eq]
    exact Multiset.nodup_of_le (Multiset.map_le_map (Multiset.filter_le ..)) htree

/-- In every tree that has been built by `timer_add` and `timer_del` the walk finds a timer with
the key if there is one.  And in every state in which the trees have been filled by
`find_tmr_slot_and_place`, `process_timers` for the present value of a counter ends, returns the
number of nodes that wait for that value, and has expired or placed anew each of them once, if
the nodes of the tree belong to different timers. -/
theorem walk_and_serve :
    (∀ (ops : List TreeOp) (root : RBTree AppTimer),
      PartialSteps.run treeStep .nil ops = some root → ∀ key, WalkLaw root key) ∧
    ∀ (s₀ s : TmrState) (ops : List WheelOp) (w : Wheel), (∀ v, s₀.root v = .nil) →
      PartialSteps.run wheelStep s₀ ops = some s →
      ((s.root w).toList.map AppTimer.timer).Nodup →
      ∃ s' k, processTimers s w (s.clk.get w) = some (s', k) ∧ ServesWheel s w s' k := by
  refine ⟨fun ops root hrun => walkLaw_of_byRt (byRt_of_run hrun), ?_⟩
  intro s₀ s ops w hempty hrun hdistinct
  have hfilled : Filled s := PartialSteps.run_invariant_always wheelStep
    (fun _ _ _ hs hstep => hs.of_step hstep) (filled_of_empty hempty) hrun
  exact (hfilled.ready hdistinct).serves hfilled.above

/-- Two live timers, and nothing in the trees. -/
def twoTimers : TmrState := { initTimerMgr with timers := fun _ => some {}, nextApp := 2 }

/-- One of the timers waits for five ticks and the other one for nine, and five have passed. -/
def fiveTicks : List WheelOp :=
  [.findTmrSlotAndPlace { addr := 0, timer := some 0, ctime := 5 },
    .findTmrSlotAndPlace { addr := 1, timer := some 1, ctime := 9 },
    .setClk { Clk.zero with tick := 5 }]

theorem walk_and_serve_fiveTicks :
    (∃ root, PartialSteps.run treeStep .nil
        [.timerAdd { addr := 0, rt := 7 }, .timerAdd { addr := 1, rt := 7 }, .timerDel 0] =
          some root ∧ WalkLaw root 7 ∧ WalkLaw root 8) ∧
    ∃ s, PartialSteps.run wheelStep twoTimers fiveTicks = some s ∧
      ∃ s' k, processTimers s .tick (s.clk.get .tick) = some (s', k) ∧
        ServesWheel s .tick s' k := by
  constructor
  · have hdone : (PartialSteps.run treeStep .nil
        [.timerAdd { addr := 0, rt := 7 }, .timerAdd { addr := 1, rt := 7 },
          .timerDel 0]).isSome := by decide +kernel
    obtain ⟨root, hrun⟩ := Option.isSome_iff_exists.mp hdone
    exact ⟨root, hrun, walk_and_serve.1 _ root hrun 7, walk_and_serve.1 _ root hrun 8⟩
  · have hfacts : (PartialSteps.run wheelStep twoTimers fiveTicks).any
        (fun s => ((s.root .tick).toList.map AppTimer.timer).Nodup) = true := by decide +kernel
    obtain ⟨s, hrun, hdistinct⟩ := (Option.any_eq_true _ _).mp hfacts
    have hserves := walk_and_serve.2 twoTimers s fiveTicks .tick (fun _ => rfl) hrun
      (of_decide_eq_true hdistinct)
    exact ⟨s, hrun, hserves⟩

end Timers
end TmULThreads
