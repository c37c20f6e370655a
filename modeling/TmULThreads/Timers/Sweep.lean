import TmULThreads.Timers.Coherent

/-!
# A tick, seen from one node

The abstract timer service is a collection of nodes that do not know of each
other: on every tick each node takes its own step of the cascade.  A serviced
tick of the model is exactly that (`tmProcess_nodes`): the loops over the
trees, in whatever order they meet the nodes, replace every node by its step,
and the nodes that have no step are appended to the list of expired timers.

The counter `tmrrq.count` is only an upper bound on the number of nodes, since
`start_timer` and `mod_timer` count also a timer of zero ticks; `Counted` is
what the test of `timers_pending_for_service` needs.
-/

namespace TmULThreads
namespace Timers

open RedBlackTree

/-- The step of the cascade on a node, after a tick to the clock `c`. -/
def Node.step (b : Build) (c : Clk) (n : Node) : Option Node :=
  (n.pending.step b c).map fun q => { n with pending := q }

/-- What the scan of the wheel `w` does to a node. -/
def Node.pass (b : Build) (c : Clk) (w : Wheel) (n : Node) : Option Node :=
  if n.pending.wheel = w then n.step b c else some n

/-- The trees never hold more nodes than have been counted. -/
def Counted (s : TmrState) : Prop := Multiset.card s.nodes ≤ s.count.toNat

/-- What a scan leaves as it is: the clock, the entries already on the list,
and the owner of every node. -/
structure Scanned (s s' : TmrState) : Prop where
  clk : s'.clk = s.clk
  nextTimer : s'.nextTimer = s.nextTimer
  expdTmrs : s.expdTmrs <+: s'.expdTmrs
  owners : s'.owners = s.owners
  exp : ∀ p t', s'.timers p = some t' → ∃ t, s.timers p = some t ∧ t'.exp = t.exp

theorem Scanned.refl (s : TmrState) : Scanned s s :=
  ⟨rfl, rfl, List.prefix_rfl, rfl, fun _ t ht => ⟨t, ht, rfl⟩⟩

theorem Scanned.trans {s₁ s₂ s₃ : TmrState} (h : Scanned s₁ s₂) (h' : Scanned s₂ s₃) :
    Scanned s₁ s₃ where
  clk := h'.clk.trans h.clk
  nextTimer := h'.nextTimer.trans h.nextTimer
  expdTmrs := h.expdTmrs.trans h'.expdTmrs
  owners := h'.owners.trans h.owners
  exp := by
    intro p t₃ ht₃
    obtain ⟨t₂, ht₂, heq₂⟩ := h'.exp p t₃ ht₃
    obtain ⟨t₁, ht₁, heq₁⟩ := h.exp p t₂ ht₂
    exact ⟨t₁, ht₁, heq₂.trans heq₁⟩

/-! ## One turn -/

/-- In a coherent state a turn has a defined outcome. -/
theorem Coherent.exists_processOne {s : TmrState} {w : Wheel} {x : AppTimer} (h : Coherent s)
    (hx : x ∈ (s.root w).toList) : ∃ s', processOne s w x = some s' := by
  obtain ⟨p, tmr, hp, htmr, -, hwheel, -⟩ := h.armed _ (node_mem_nodes hx)
  exact Timers.exists_processOne hx hp htmr hwheel

theorem exp_setTimer {s : TmrState} {p q : TimerId} {tmr t t' : Timer}
    (htmr : s.timers p = some tmr) (hexp : t.exp = tmr.exp)
    (ht' : (s.setTimer p t).timers q = some t') : ∃ u, s.timers q = some u ∧ t'.exp = u.exp := by
  by_cases hq : q = p
  · subst hq
    rw [setTimer_timers_self] at ht'
    cases ht'
    exact ⟨tmr, htmr, hexp⟩
  · rw [setTimer_timers_of_ne _ _ _ hq] at ht'
    exact ⟨t', ht', rfl⟩

theorem Coherent.processOne_scanned {s s' : TmrState} {w : Wheel} {x : AppTimer}
    (h : Coherent s) (hx : x ∈ (s.root w).toList) (hone : processOne s w x = some s') :
    Scanned s s' ∧ (Counted s → Counted s') := by
  obtain ⟨-, rest, hnodes, hcase⟩ := h.of_processOne hx hone
  have hframe : s'.clk = s.clk ∧ s'.nextTimer = s.nextTimer ∧
      ∀ p t', s'.timers p = some t' → ∃ t, s.timers p = some t ∧ t'.exp = t.exp := by
    obtain ⟨p, tmr, v, r, -, htmr, -, -, ⟨-, hs'⟩ | ⟨q, -, hs'⟩⟩ := processOne_cases hone
    · rw [hs']
      exact ⟨rfl, rfl, fun u t' ht' => exp_setTimer (s := s.setRoot w r)
        (t := { tmr with isRunning := false }) htmr rfl ht'⟩
    · rw [hs']
      exact ⟨rfl, rfl, fun u t' ht' => exp_setTimer (s := s.setRoot w r)
        (t := { tmr with wheel := some q.wheel, isRunning := true }) htmr rfl ht'⟩
  obtain ⟨hclk, hnext, hexp⟩ := hframe
  have howners : s.owners = x.timer ::ₘ (rest.map Node.timer +
      (s.expdTmrs.map AppTimer.timer : Multiset (Option TimerId))) := by
    rw [TmrState.owners, hnodes, Multiset.map_cons, Multiset.cons_add]
    rfl
  rcases hcase with ⟨-, hnodes', hexpd, hcount⟩ | ⟨q, -, hnodes', hexpd, hcount⟩
  · refine ⟨⟨hclk, hnext, ⟨_, hexpd.symm⟩, ?_, hexp⟩, fun hc => ?_⟩
    · rw [howners, TmrState.owners, hnodes', hexpd]
      simp only [List.map_append, List.map_cons, List.map_nil]
      rw [← Multiset.coe_add, ← Multiset.add_assoc, Multiset.coe_singleton, Multiset.add_comm _ {x.timer},
        Multiset.singleton_add]
    · unfold Counted at hc ⊢
      rw [hnodes, Multiset.card_cons] at hc
      have hge : (1 : U32) ≤ s.count := by
        rw [BitVec.le_def]
        show 1 ≤ s.count.toNat
        omega
      rw [hnodes', hcount, BitVec.toNat_sub_of_le hge]
      show _ ≤ s.count.toNat - 1
      omega
  · refine ⟨⟨hclk, hnext, ⟨[], by rw [hexpd, List.append_nil]⟩, ?_, hexp⟩, fun hc => ?_⟩
    · rw [howners, TmrState.owners, hnodes', hexpd, Multiset.map_cons, Multiset.cons_add]
    · unfold Counted at hc ⊢
      rw [hnodes, Multiset.card_cons] at hc
      rw [hnodes', hcount, Multiset.card_cons]
      exact hc

/-! ## One wheel -/

theorem Coherent.processTimersLoop_scanned {fuel : Nat} {s s' : TmrState} {w : Wheel}
    {expires : U32} {k : Nat} (h : Coherent s)
    (hloop : processTimersLoop fuel s w expires = some (s', k)) :
    Coherent s' ∧ Scanned s s' ∧ (Counted s → Counted s') := by
  refine processTimersLoop_invariant
    (I := fun m => Coherent m ∧ Scanned s m ∧ (Counted s → Counted m)) ?_
    ⟨h, Scanned.refl s, id⟩ hloop
  rintro mid x next ⟨hm, hscan, hcount⟩ hx - hone
  obtain ⟨hscan', hcount'⟩ := hm.processOne_scanned hx hone
  exact ⟨(hm.of_processOne hx hone).1, hscan.trans hscan', hcount' ∘ hcount⟩

theorem Coherent.exists_processTimersLoop (fuel : Nat) {s : TmrState} (w : Wheel) (expires : U32)
    (h : Coherent s) : ∃ r, processTimersLoop fuel s w expires = some r := by
  induction fuel generalizing s with
  | zero => exact ⟨_, rfl⟩
  | succ fuel ih =>
      unfold processTimersLoop
      split
      · exact ⟨_, rfl⟩
      · rename_i x hwalk
        have hx := (search_eq_some _ _ _ hwalk).1
        obtain ⟨mid, hone⟩ := h.exists_processOne hx
        obtain ⟨⟨last, j⟩, hr⟩ := ih (h.of_processOne hx hone).1
        refine ⟨(last, j + 1), ?_⟩
        simp only [hone, hr, Option.bind_eq_bind, Option.bind_some]

theorem filterMap_congr {α β : Type*} {f g : α → Option β} {m : Multiset α}
    (h : ∀ a ∈ m, f a = g a) : m.filterMap f = m.filterMap g := by
  induction m using Multiset.induction_on with
  | empty => rfl
  | cons a m ih =>
      have htail := ih fun x hx => h x (Multiset.mem_cons_of_mem hx)
      rw [Multiset.filterMap_cons, Multiset.filterMap_cons, htail,
        h a (Multiset.mem_cons_self a m)]

theorem filterMap_eq_self {α : Type*} {f : α → Option α} {m : Multiset α}
    (h : ∀ a ∈ m, f a = some a) : m.filterMap f = m :=
  (filterMap_congr h).trans (Multiset.filterMap_some m)

theorem Node.step_of_not_due {b : Build} {c : Clk} {n : Node} (h : n.pending.isDue b c = false) :
    n.step b c = some n := by
  simp [Node.step, Pending.step, h]

theorem Node.pass_of_not_hit {b : Build} {c : Clk} {w : Wheel} {n : Node} (h : ¬ n.hit c w) :
    n.pass b c w = some n := by
  unfold Node.pass
  split
  · rename_i hw
    apply Node.step_of_not_due
    have hrt : n.pending.rt ≠ c.get n.pending.wheel := fun hrt => h ⟨hw, hw ▸ hrt⟩
    simp [Pending.isDue, hrt]
  · rfl

theorem Node.pass_of_not_serviced {b : Build} {c : Clk} {w : Wheel} (h : ¬ serviced b c w)
    (n : Node) : n.pass b c w = some n := by
  unfold Node.pass
  split
  · rename_i hw
    apply Node.step_of_not_due
    simp [Pending.isDue, hw, h]
  · rfl

theorem Node.pass_of_hit {b : Build} {c : Clk} {w : Wheel} {n : Node} (hserv : serviced b c w)
    (h : n.hit c w) :
    n.pass b c w =
      (place c (clearWheel w n.pending.ctime)).map fun q => { n with pending := q } := by
  obtain ⟨rfl, hrt⟩ := h
  simp [Node.pass, Node.step, Pending.step, Pending.isDue, hserv, hrt]

/-- The loop over a serviced wheel replaces every node by its pass. -/
theorem Coherent.processTimersLoop_nodes {b : Build} {fuel : Nat} {s s' : TmrState} {w : Wheel}
    {k : Nat} (h : Coherent s) (hserv : serviced b s.clk w)
    (hfuel : s.nodes.countP (Node.hit s.clk w) ≤ fuel)
    (hloop : processTimersLoop fuel s w (s.clk.get w) = some (s', k)) :
    s'.nodes = s.nodes.filterMap (Node.pass b s.clk w) := by
  induction fuel generalizing s k with
  | zero =>
      cases hloop
      refine (filterMap_eq_self fun n hn => Node.pass_of_not_hit ?_).symm
      exact Multiset.countP_eq_zero.mp (Nat.le_zero.mp hfuel) n hn
  | succ fuel ih =>
      have hnone := processTimersLoop_exhausts h.toLinked hfuel hloop
      simp only [processTimersLoop] at hloop
      split at hloop
      · cases hloop
        exact (filterMap_eq_self fun n hn => Node.pass_of_not_hit (hnone n hn)).symm
      · rename_i x hwalk
        obtain ⟨hx, hkey⟩ := search_eq_some _ _ _ hwalk
        have hhit : (x.node w).hit s.clk w := ⟨rfl, BitVec.eq_of_toNat_eq hkey⟩
        simp only [Option.bind_eq_bind, Option.bind_eq_some_iff] at hloop
        obtain ⟨mid, hone, ⟨last, j⟩, hrest, hs'⟩ := hloop
        cases hs'
        obtain ⟨hmid, rest, hnodes, hcase⟩ := h.of_processOne hx hone
        have hclk : mid.clk = s.clk := (h.processOne_scanned hx hone).1.clk
        rw [← hclk] at hrest hserv
        have hpass := Node.pass_of_hit (hclk ▸ hserv) hhit
        rw [hnodes, Multiset.countP_cons_of_pos _ hhit] at hfuel
        -- the node of this turn does not match any more wherever it has gone
        rcases hcase with ⟨hempty, hmidNodes, -⟩ | ⟨q, hq, hmidNodes, -⟩
        · have hgone : (x.node w).pass b s.clk w = none := by
            rw [hpass]
            exact congrArg (Option.map _) ((place_eq_none_iff s.clk _).mpr hempty)
          rw [ih hmid hserv (by rw [hclk, hmidNodes]; omega) hrest, hmidNodes, hnodes, hclk,
            Multiset.filterMap_cons_none _ _ hgone]
        · have hnot := not_hit_of_place hq x.addr x.timer w
          have hmoved : (x.node w).pass b s.clk w = some ⟨x.addr, x.timer, q⟩ := by
            rw [hpass]
            exact congrArg (Option.map _) hq
          have hcount : mid.nodes.countP (Node.hit mid.clk w) ≤ fuel := by
            rw [hclk, hmidNodes, Multiset.countP_cons_of_neg _ hnot]
            omega
          rw [ih hmid hserv hcount hrest, hmidNodes, hnodes, hclk,
            Multiset.filterMap_cons_some _ _ _ hmoved,
            Multiset.filterMap_cons_some _ _ _ (Node.pass_of_not_hit hnot)]

theorem Coherent.passWheel_nodes {b : Build} {s s' : TmrState} {w : Wheel} (h : Coherent s)
    (hpass : passWheel b s w = some s') :
    s'.nodes = s.nodes.filterMap (Node.pass b s.clk w) ∧ Coherent s' ∧ Scanned s s' ∧
      (Counted s → Counted s') := by
  unfold passWheel at hpass
  split at hpass
  · rename_i hserv
    obtain ⟨⟨mid, k⟩, hproc, rfl⟩ := Option.map_eq_some_iff.mp hpass
    exact ⟨h.processTimersLoop_nodes hserv (countP_hit_le s s.clk w) hproc,
      h.processTimersLoop_scanned hproc⟩
  · rename_i hserv
    cases hpass
    exact ⟨(filterMap_eq_self fun n _ => Node.pass_of_not_serviced hserv n).symm, h,
      Scanned.refl s, id⟩

theorem Coherent.exists_passWheel {s : TmrState} (b : Build) (w : Wheel) (h : Coherent s) :
    ∃ s', passWheel b s w = some s' := by
  unfold passWheel
  split
  · obtain ⟨r, hr⟩ := h.exists_processTimersLoop (s.root w).size w (s.clk.get w)
    exact ⟨r.1, by rw [processTimers, hr]; rfl⟩
  · exact ⟨s, rfl⟩

/-! ## The whole pass -/

theorem Node.pass_of_ne {b : Build} {c : Clk} {w : Wheel} {n : Node} (h : n.pending.wheel ≠ w) :
    n.pass b c w = some n :=
  if_neg h

/-- A node that has taken its step is not met again by the scans of coarser
wheels. -/
theorem Node.step_bind_pass {b : Build} {c : Clk} {v : Wheel} {n : Node}
    (habove : ∀ v, n.pending.wheel.rank < v.rank → field v n.pending.ctime = 0)
    (hv : n.pending.wheel.rank < v.rank) :
    (n.step b c).bind (Node.pass b c v) = n.step b c := by
  cases hstep : n.step b c with
  | none => rfl
  | some n' =>
      apply Node.pass_of_ne
      rintro rfl
      unfold Node.step Pending.step at hstep
      split at hstep
      · obtain ⟨q, hq, rfl⟩ := Option.map_eq_some_iff.mp hstep
        have hlt := Pending.rank_lt_of_drop habove hq
        exact absurd hv (not_lt.mpr hlt.le)
      · cases hstep
        exact lt_irrefl _ hv

theorem Node.step_eq_pass {b : Build} {c : Clk} {n : Node}
    (habove : ∀ v, n.pending.wheel.rank < v.rank → field v n.pending.ctime = 0) :
    (((n.pass b c .tick).bind (Node.pass b c .sec)).bind (Node.pass b c .min)).bind
      (Node.pass b c .hrs) = n.step b c := by
  have hself : n.pass b c n.pending.wheel = n.step b c := if_pos rfl
  have hother {w : Wheel} (h : n.pending.wheel ≠ w) : n.pass b c w = some n := Node.pass_of_ne h
  cases hw : n.pending.wheel with
  | tick =>
      rw [hw] at hself
      rw [hself, Node.step_bind_pass habove (by rw [hw]; decide),
        Node.step_bind_pass habove (by rw [hw]; decide),
        Node.step_bind_pass habove (by rw [hw]; decide)]
  | sec =>
      rw [hw] at hself
      rw [hother (by rw [hw]; decide), Option.bind_some, hself,
        Node.step_bind_pass habove (by rw [hw]; decide),
        Node.step_bind_pass habove (by rw [hw]; decide)]
  | min =>
      rw [hw] at hself
      rw [hother (by rw [hw]; decide), Option.bind_some, hother (by rw [hw]; decide),
        Option.bind_some, hself, Node.step_bind_pass habove (by rw [hw]; decide)]
  | hrs =>
      rw [hw] at hself
      rw [hother (by rw [hw]; decide), Option.bind_some, hother (by rw [hw]; decide),
        Option.bind_some, hother (by rw [hw]; decide), Option.bind_some, hself]

/-- `tm_process_tick_and_update_timers` lets every node take its step. -/
theorem Coherent.tmProcess_nodes {b : Build} {s : TmrState} {r : TmrState × Nat}
    (h : Coherent s) (hproc : tmProcessTickAndUpdateTimers b s = some r) :
    r.1.nodes = s.nodes.filterMap (Node.step b s.clk) ∧ Coherent r.1 ∧ Scanned s r.1 ∧
      (Counted s → Counted r.1) := by
  have hrun := tmProcess_eq_run (b := b) h.toLinked
  rw [hproc, eq_comm, wheels] at hrun
  simp only [PartialSteps.run_cons, PartialSteps.run_nil, Option.map_some,
    Option.some.injEq] at hrun
  obtain ⟨s₁, htick, s₂, hsec, s₃, hmin, s₄, hhrs, rfl⟩ := hrun
  obtain ⟨hn₁, hc₁, hs₁, hk₁⟩ := h.passWheel_nodes htick
  obtain ⟨hn₂, hc₂, hs₂, hk₂⟩ := hc₁.passWheel_nodes hsec
  obtain ⟨hn₃, hc₃, hs₃, hk₃⟩ := hc₂.passWheel_nodes hmin
  obtain ⟨hn₄, hc₄, hs₄, hk₄⟩ := hc₃.passWheel_nodes hhrs
  refine ⟨?_, hc₄, ((hs₁.trans hs₂).trans hs₃).trans hs₄, hk₄ ∘ hk₃ ∘ hk₂ ∘ hk₁⟩
  have hclk₂ := (hs₁.trans hs₂).clk
  have hclk₃ := ((hs₁.trans hs₂).trans hs₃).clk
  rw [hn₄, hn₃, hn₂, hn₁, hs₁.clk, hclk₂, hclk₃, Multiset.filterMap_filterMap,
    Multiset.filterMap_filterMap, Multiset.filterMap_filterMap]
  refine filterMap_congr fun n hn => ?_
  simp only [← Option.bind_assoc]
  exact Node.step_eq_pass (h.above n hn)

theorem Coherent.exists_tmProcess {s : TmrState} (b : Build) (h : Coherent s) :
    ∃ r, tmProcessTickAndUpdateTimers b s = some r := by
  have hrun := tmProcess_eq_run (b := b) h.toLinked
  obtain ⟨s₁, htick⟩ := h.exists_passWheel b .tick
  have hc₁ := (h.passWheel_nodes htick).2.1
  obtain ⟨s₂, hsec⟩ := hc₁.exists_passWheel b .sec
  have hc₂ := (hc₁.passWheel_nodes hsec).2.1
  obtain ⟨s₃, hmin⟩ := hc₂.exists_passWheel b .min
  have hc₃ := (hc₂.passWheel_nodes hmin).2.1
  obtain ⟨s₄, hhrs⟩ := hc₃.exists_passWheel b .hrs
  have hdone : PartialSteps.run (passWheel b) s wheels = some s₄ := by
    simp only [wheels, PartialSteps.run_cons, PartialSteps.run_nil]
    exact ⟨s₁, htick, s₂, hsec, s₃, hmin, s₄, hhrs, rfl⟩
  rw [hdone] at hrun
  obtain ⟨r, hr, -⟩ := Option.map_eq_some_iff.mp hrun
  exact ⟨r, hr⟩

end Timers
end TmULThreads
