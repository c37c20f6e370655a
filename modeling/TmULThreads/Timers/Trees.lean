import TmULThreads.Timers.Model

/-!
# What the four trees hold

The trees are seen as one multiset of nodes, each with the wheel it is linked
in.  `Linked` is the part of the invariant that no program can break: the trees
are ordered by `rt`, and addresses are fresh.  Over it, every function of the
model is described by what it adds to the multiset and takes from it, so that
no later proof looks into a tree.
-/

namespace TmULThreads
namespace Timers

open RedBlackTree

structure Node where
  addr : AppId
  timer : Option TimerId
  pending : Pending
  deriving DecidableEq

def AppTimer.node (w : Wheel) (x : AppTimer) : Node :=
  ⟨x.addr, x.timer, ⟨w, x.rt, x.ctime⟩⟩

def treeNodes (w : Wheel) (r : RBTree AppTimer) : Multiset Node :=
  (r.toList.map (AppTimer.node w) : Multiset Node)

def TmrState.nodes (s : TmrState) : Multiset Node :=
  treeNodes .tick (s.root .tick) + treeNodes .sec (s.root .sec) +
    treeNodes .min (s.root .min) + treeNodes .hrs (s.root .hrs)

/-- The trees can be searched, and every node has its own address. -/
structure Linked (s : TmrState) : Prop where
  ordered : ∀ w, Ordered (fun x : AppTimer => x.rt.toNat) (s.root w).toList
  addr_nodup : (s.nodes.map Node.addr).Nodup
  addr_lt : ∀ n ∈ s.nodes, n.addr < s.nextApp

section Fields

variable (s : TmrState) (p : TimerId) (t : Timer) (w : Wheel) (r : RBTree AppTimer)

@[simp] theorem setTimer_nodes : (s.setTimer p t).nodes = s.nodes := rfl
@[simp] theorem setRoot_timers : (s.setRoot w r).timers = s.timers := rfl

@[simp] theorem setTimer_timers_self : (s.setTimer p t).timers p = some t :=
  Function.update_self ..

theorem setTimer_timers_of_ne {q : TimerId} (h : q ≠ p) :
    (s.setTimer p t).timers q = s.timers q :=
  Function.update_of_ne h ..

end Fields

/-! ## Nodes and trees -/

theorem mem_treeNodes {w : Wheel} {r : RBTree AppTimer} {n : Node} :
    n ∈ treeNodes w r ↔ ∃ x ∈ r.toList, x.node w = n := by
  simp [treeNodes]

theorem mem_nodes {s : TmrState} {n : Node} :
    n ∈ s.nodes ↔ ∃ x ∈ (s.root n.pending.wheel).toList, x.node n.pending.wheel = n := by
  have hwheel (w : Wheel) : n ∈ treeNodes w (s.root w) → n.pending.wheel = w := by
    intro h
    obtain ⟨x, -, rfl⟩ := mem_treeNodes.mp h
    rfl
  rw [← mem_treeNodes]
  simp only [TmrState.nodes, Multiset.mem_add]
  constructor
  · rintro (((h | h) | h) | h) <;> rw [hwheel _ h] <;> exact h
  · intro h
    cases hw : n.pending.wheel <;> rw [hw] at h <;> simp [h]

theorem node_mem_nodes {s : TmrState} {w : Wheel} {x : AppTimer} (h : x ∈ (s.root w).toList) :
    x.node w ∈ s.nodes :=
  mem_nodes.mpr ⟨x, h, rfl⟩

theorem nodes_setRoot_of_cons {s : TmrState} {w : Wheel} {r : RBTree AppTimer} {n : Node}
    (h : treeNodes w r = n ::ₘ treeNodes w (s.root w)) :
    (s.setRoot w r).nodes = n ::ₘ s.nodes := by
  cases w <;> simp only [TmrState.nodes, TmrState.setRoot, Function.update] <;>
    simp [h]

theorem nodes_eq_cons_setRoot {s : TmrState} {w : Wheel} {r : RBTree AppTimer} {n : Node}
    (h : treeNodes w (s.root w) = n ::ₘ treeNodes w r) :
    s.nodes = n ::ₘ (s.setRoot w r).nodes := by
  cases w <;> simp only [TmrState.nodes, TmrState.setRoot, Function.update] <;>
    simp [h]

theorem treeNodes_timerAdd (w : Wheel) (x : AppTimer) (r : RBTree AppTimer) :
    treeNodes w (timerAdd x r) = x.node w ::ₘ treeNodes w r := by
  have hperm := (insert_perm (fun y : AppTimer => y.rt.toNat) x r).map (AppTimer.node w)
  exact Multiset.coe_eq_coe.mpr hperm

theorem exists_of_timerDel {a : AppId} {w : Wheel} {r r' : RBTree AppTimer}
    (h : timerDel a r = some r') :
    ∃ x ∈ r.toList, x.addr = a ∧ treeNodes w r = x.node w ::ₘ treeNodes w r' := by
  obtain ⟨x, hx, hperm⟩ := erase_perm _ _ _ h
  refine ⟨x, hperm.mem_iff.mpr (by simp), by simpa using hx, ?_⟩
  exact Multiset.coe_eq_coe.mpr (hperm.map (AppTimer.node w))

theorem timerDel_isSome {a : AppId} {r : RBTree AppTimer} {x : AppTimer} (hx : x ∈ r.toList)
    (ha : x.addr = a) : ∃ r', timerDel a r = some r' := by
  cases h : timerDel a r with
  | some r' => exact ⟨r', rfl⟩
  | none =>
      have := erase_eq_none _ _ h x hx
      simp [ha] at this

namespace Linked

variable {s : TmrState}

/-- Two nodes with one address are the same node. -/
theorem node_eq (h : Linked s) {n m : Node} (hn : n ∈ s.nodes) (hm : m ∈ s.nodes)
    (haddr : n.addr = m.addr) : n = m :=
  Multiset.inj_on_of_nodup_map h.addr_nodup n hn m hm haddr

/-- An `rb_erase` by address takes out the node it was meant for. -/
theorem timerDel_eq (h : Linked s) {w : Wheel} {x : AppTimer} {r : RBTree AppTimer}
    (hx : x ∈ (s.root w).toList) (hdel : timerDel x.addr (s.root w) = some r) :
    s.nodes = x.node w ::ₘ (s.setRoot w r).nodes := by
  obtain ⟨y, hy, haddr, hcons⟩ := exists_of_timerDel (w := w) hdel
  have hsame : y.node w = x.node w :=
    h.node_eq (node_mem_nodes hy) (node_mem_nodes hx) haddr
  rw [hsame] at hcons
  exact nodes_eq_cons_setRoot hcons

theorem of_eq {r : TmrState} (h : Linked s) (hroot : r.root = s.root)
    (happ : s.nextApp ≤ r.nextApp) : Linked r := by
  have hnodes : r.nodes = s.nodes := by simp only [TmrState.nodes, hroot]
  refine ⟨?_, ?_, ?_⟩
  · rw [hroot]
    exact h.ordered
  · rw [hnodes]
    exact h.addr_nodup
  · intro n hn
    rw [hnodes] at hn
    exact (h.addr_lt n hn).trans_le happ

theorem setRoot_timerAdd (h : Linked s) (w : Wheel) {x : AppTimer}
    (hlt : x.addr < s.nextApp) (hfresh : ∀ n ∈ s.nodes, n.addr ≠ x.addr) :
    Linked (s.setRoot w (timerAdd x (s.root w))) := by
  have hnodes := nodes_setRoot_of_cons (treeNodes_timerAdd w x (s.root w))
  refine ⟨fun v => ?_, ?_, ?_⟩
  · by_cases hv : v = w
    · subst hv
      simp only [TmrState.setRoot, Function.update_self]
      exact insert_ordered _ x _ (h.ordered v)
    · simp only [TmrState.setRoot, Function.update_of_ne hv]
      exact h.ordered v
  · rw [hnodes, Multiset.map_cons, Multiset.nodup_cons]
    refine ⟨fun hmem => ?_, h.addr_nodup⟩
    obtain ⟨n, hn, haddr⟩ := Multiset.mem_map.mp hmem
    exact hfresh n hn haddr
  · intro n hn
    rw [hnodes] at hn
    rcases Multiset.mem_cons.mp hn with rfl | hn
    · exact hlt
    · exact h.addr_lt n hn

theorem setRoot_timerDel (h : Linked s) {w : Wheel} {a : AppId} {r : RBTree AppTimer}
    (hdel : timerDel a (s.root w) = some r) :
    Linked (s.setRoot w r) := by
  obtain ⟨x, -, -, hcons⟩ := exists_of_timerDel (w := w) hdel
  have hnodes := nodes_eq_cons_setRoot hcons
  refine ⟨fun v => ?_, ?_, fun n hn => ?_⟩
  · by_cases hv : v = w
    · subst hv
      simp only [TmrState.setRoot, Function.update_self]
      exact erase_ordered _ _ _ _ hdel (h.ordered v)
    · simp only [TmrState.setRoot, Function.update_of_ne hv]
      exact h.ordered v
  · have hnodup := h.addr_nodup
    rw [hnodes, Multiset.map_cons, Multiset.nodup_cons] at hnodup
    exact hnodup.2
  · refine h.addr_lt n ?_
    rw [hnodes]
    exact Multiset.mem_cons_of_mem hn

end Linked

/-! ## What each function does to the trees -/

/-- The timer `p` linked into the tree of the wheel that `q` names. -/
def TmrState.attach (s : TmrState) (p : TimerId) (tmr : Timer) (x : AppTimer) (q : Pending) :
    TmrState :=
  (s.setTimer p { tmr with wheel := some q.wheel, isRunning := true }).setRoot q.wheel
    (timerAdd { x with rt := q.rt } (s.root q.wheel))

/-- The timer `p` moved to the list of expired timers. -/
def TmrState.lapse (s : TmrState) (p : TimerId) (tmr : Timer) (x : AppTimer) : TmrState :=
  { s.setTimer p { tmr with isRunning := false } with
    count := s.count - 1
    expdTmrs := s.expdTmrs ++ [x] }

theorem nodes_attach {s : TmrState} {p : TimerId} {t : Timer} {x : AppTimer} {q : Pending}
    (h : place s.clk x.ctime = some q) :
    (s.attach p t x q).nodes = ⟨x.addr, x.timer, q⟩ ::ₘ s.nodes := by
  have hnode : AppTimer.node q.wheel { x with rt := q.rt } = ⟨x.addr, x.timer, q⟩ := by
    rw [AppTimer.node, ← (place_eq_some h).1]
  rw [← hnode]
  exact nodes_setRoot_of_cons (treeNodes_timerAdd q.wheel _ _)

theorem attach_timers_self (s : TmrState) (p : TimerId) (tmr : Timer) (x : AppTimer)
    (q : Pending) : (s.attach p tmr x q).timers p =
      some { tmr with wheel := some q.wheel, isRunning := true } :=
  setTimer_timers_self ..

theorem linked_attach {s : TmrState} {p : TimerId} {t : Timer} {x : AppTimer} {q : Pending}
    (h : Linked s) (hlt : x.addr < s.nextApp) (hfresh : ∀ n ∈ s.nodes, n.addr ≠ x.addr) :
    Linked (s.attach p t x q) :=
  Linked.setRoot_timerAdd (h.of_eq (r := s.setTimer p _) rfl le_rfl) q.wheel hlt hfresh

theorem findTmrSlotAndPlace_cases {s s' : TmrState} {x : AppTimer}
    (h : findTmrSlotAndPlace s x = some s') :
    (place s.clk x.ctime = none ∧ s' = s) ∨
      ∃ q p tmr, place s.clk x.ctime = some q ∧ x.timer = some p ∧ s.timers p = some tmr ∧
        s' = s.attach p tmr x q := by
  unfold findTmrSlotAndPlace at h
  unfold place
  cases hslot : findSlot x.ctime with
  | none =>
      rw [hslot] at h
      exact .inl ⟨rfl, (Option.some.inj h).symm⟩
  | some slot =>
      obtain ⟨w, t⟩ := slot
      simp only [hslot, Option.bind_eq_bind, Option.bind_eq_some_iff] at h
      obtain ⟨p, hp, tmr, htmr, hs'⟩ := h
      exact .inr ⟨⟨w, s.clk.get w + t, x.ctime⟩, p, tmr, rfl, hp, htmr,
        (Option.some.inj hs').symm⟩

/-- An armed timer gets its expiry time and, unless the duration is zero, a
node in the tree of its wheel. -/
theorem calcAndPlace_cases {b : Build} {s s' : TmrState} {x : AppTimer} (hzero : x.ctime = 0)
    (h : calcAndPlace b s x = some s') :
    ∃ p tmr mid, x.timer = some p ∧ s.timers p = some tmr ∧
      findTmrSlotAndPlace (s.setTimer p { tmr with exp := tmr.rmt + s.clk.tick })
        { x with ctime := packCtime b tmr.rmt } = some mid ∧
      s' = { mid with count := mid.count + 1 } := by
  unfold calcAndPlace calcTime at h
  simp only [Option.bind_eq_bind, Option.bind_eq_some_iff, Option.some.injEq] at h
  obtain ⟨_, ⟨p, hp, tmr, htmr, rfl⟩, mid, hmid, rfl⟩ := h
  rw [hzero] at hmid
  exact ⟨p, tmr, mid, hp, htmr, hmid, rfl⟩

theorem processOne_cases {s s' : TmrState} {w : Wheel} {x : AppTimer}
    (h : processOne s w x = some s') :
    ∃ p tmr v r, x.timer = some p ∧ s.timers p = some tmr ∧ tmr.wheel = some v ∧
      timerDel x.addr (s.root w) = some r ∧
      ((clearWheel v x.ctime = 0 ∧
          s' = (s.setRoot w r).lapse p tmr { x with ctime := clearWheel v x.ctime }) ∨
        ∃ q, place s.clk (clearWheel v x.ctime) = some q ∧
          s' = (s.setRoot w r).attach p tmr { x with ctime := clearWheel v x.ctime } q) := by
  unfold processOne clearWheelTimer at h
  simp only [Option.bind_eq_bind, Option.bind_eq_some_iff, Option.some.injEq] at h
  obtain ⟨_, ⟨p, hp, tmr, htmr, v, hv, rfl⟩, r, hr, hact⟩ := h
  refine ⟨p, tmr, v, r, hp, htmr, hv, hr, ?_⟩
  unfold timerExpiryAction at hact
  split at hact
  · rename_i hempty
    simp only [Option.bind_eq_bind, Option.bind_eq_some_iff] at hact
    obtain ⟨p', hp', tmr', htmr', hs'⟩ := hact
    obtain rfl : p = p' := Option.some.inj (hp.symm.trans hp')
    obtain rfl : tmr = tmr' := Option.some.inj (htmr.symm.trans htmr')
    exact .inl ⟨hempty, (Option.some.inj hs').symm⟩
  · rename_i hne
    rcases findTmrSlotAndPlace_cases hact with ⟨hnone, -⟩ | ⟨q, p', tmr', hq, hp', htmr', hs'⟩
    · exact absurd ((place_eq_none_iff _ _).mp hnone) hne
    · obtain rfl : p = p' := Option.some.inj (hp.symm.trans hp')
      obtain rfl : tmr = tmr' := Option.some.inj (htmr.symm.trans htmr')
      exact .inr ⟨q, hq, hs'⟩

/-- A turn has a defined outcome if the timer of the node is live and has a wheel. -/
theorem exists_processOne {s : TmrState} {w v : Wheel} {x : AppTimer} {p : TimerId} {tmr : Timer}
    (hx : x ∈ (s.root w).toList) (hp : x.timer = some p) (htmr : s.timers p = some tmr)
    (hwheel : tmr.wheel = some v) : ∃ s', processOne s w x = some s' := by
  obtain ⟨r, hr⟩ := timerDel_isSome hx rfl
  unfold processOne clearWheelTimer
  simp only [hp, htmr, hwheel, hr, Option.bind_eq_bind, Option.bind_some]
  unfold timerExpiryAction findTmrSlotAndPlace
  split
  · simp [htmr]
  · split
    · exact ⟨_, rfl⟩
    · simp [htmr]

/-- One turn of the loop takes its node out, and puts it back at most once,
with a counter value that is still to come. -/
theorem processOne_nodes {s s' : TmrState} {w : Wheel} {x : AppTimer} (hl : Linked s)
    (hx : x ∈ (s.root w).toList) (h : processOne s w x = some s') :
    s'.clk = s.clk ∧ Linked s' ∧ ∃ rest v, s.nodes = x.node w ::ₘ rest ∧
      ((clearWheel v x.ctime = 0 ∧ s'.nodes = rest ∧
          s'.expdTmrs = s.expdTmrs ++ [{ x with ctime := 0 }] ∧ s'.count = s.count - 1) ∨
        ∃ q, place s.clk (clearWheel v x.ctime) = some q ∧
          s'.nodes = ⟨x.addr, x.timer, q⟩ ::ₘ rest ∧ s'.expdTmrs = s.expdTmrs ∧
          s'.count = s.count) := by
  obtain ⟨p, tmr, v, r, hp, htmr, hv, hr, hcase⟩ := processOne_cases h
  have hnodes := hl.timerDel_eq hx hr
  have hldel := hl.setRoot_timerDel hr
  rcases hcase with ⟨hempty, rfl⟩ | ⟨q, hq, rfl⟩
  · refine ⟨rfl, hldel.of_eq rfl le_rfl, _, v, hnodes, .inl ⟨hempty, rfl, ?_, rfl⟩⟩
    rw [TmrState.lapse, hempty]
    rfl
  · refine ⟨rfl, linked_attach hldel (hl.addr_lt _ (node_mem_nodes hx)) ?_, _, v, hnodes,
      .inr ⟨q, hq, nodes_attach hq, rfl, rfl⟩⟩
    -- the address of the node does not occur among the others
    intro n hn haddr
    have hnodup := hl.addr_nodup
    rw [hnodes, Multiset.map_cons, Multiset.nodup_cons] at hnodup
    exact hnodup.1 (Multiset.mem_map.mpr ⟨n, hn, haddr⟩)

/-! ## The loop of `process_timers` -/

/-- What every turn keeps, the loop keeps. -/
theorem processTimersLoop_invariant {I : TmrState → Prop} {w : Wheel} {expires : U32}
    (hturn : ∀ s x s', I s → x ∈ (s.root w).toList → x.rt = expires →
      processOne s w x = some s' → I s')
    {fuel : Nat} {s s' : TmrState} {k : Nat} (hinv : I s)
    (h : processTimersLoop fuel s w expires = some (s', k)) : I s' := by
  induction fuel generalizing s k with
  | zero =>
      cases h
      exact hinv
  | succ fuel ih =>
      simp only [processTimersLoop] at h
      split at h
      · cases h
        exact hinv
      · rename_i x hwalk
        obtain ⟨hx, hrt⟩ := search_eq_some _ _ _ hwalk
        simp only [Option.bind_eq_bind, Option.bind_eq_some_iff] at h
        obtain ⟨mid, hone, ⟨last, j⟩, hloop, hs'⟩ := h
        cases hs'
        exact ih (hturn s x mid hinv hx (BitVec.eq_of_toNat_eq hrt) hone) hloop

theorem processTimers_linked {s s' : TmrState} {w : Wheel} {expires : U32} {k : Nat}
    (hl : Linked s) (h : processTimers s w expires = some (s', k)) :
    s'.clk = s.clk ∧ Linked s' := by
  refine processTimersLoop_invariant (I := fun m => m.clk = s.clk ∧ Linked m) ?_ ⟨rfl, hl⟩ h
  rintro mid x next ⟨hclk, hlm⟩ hx - hone
  obtain ⟨hclk', hln, -⟩ := processOne_nodes hlm hx hone
  exact ⟨hclk'.trans hclk, hln⟩

/-- What every turn of the loop preserves is preserved by the whole pass over the wheels. -/
theorem tmProcess_invariant {I : TmrState → Prop} {b : Build}
    (hturn : ∀ w s x s', I s → x ∈ (s.root w).toList → processOne s w x = some s' → I s')
    {s : TmrState} {r : TmrState × Nat} (hinv : I s)
    (h : tmProcessTickAndUpdateTimers b s = some r) : I r.1 := by
  have hwheel {m m' : TmrState} {w : Wheel} {expires : U32} {k : Nat} (hm : I m)
      (hproc : processTimers m w expires = some (m', k)) : I m' :=
    processTimersLoop_invariant (fun u x u' hu hx _ hone => hturn w u x u' hu hx hone) hm hproc
  simp only [tmProcessTickAndUpdateTimers, Option.bind_eq_bind, Option.bind_eq_some_iff] at h
  obtain ⟨⟨s₁, k₁⟩, htick, h⟩ := h
  have hinv₁ := hwheel hinv htick
  split at h
  · obtain ⟨⟨s₂, k₂⟩, hsec, h⟩ := Option.bind_eq_some_iff.mp h
    have hinv₂ := hwheel hinv₁ hsec
    split at h
    · obtain ⟨⟨s₃, k₃⟩, hmin, h⟩ := Option.bind_eq_some_iff.mp h
      have hinv₃ := hwheel hinv₂ hmin
      split at h
      · obtain ⟨⟨s₄, k₄⟩, hhrs, h⟩ := Option.bind_eq_some_iff.mp h
        cases h
        exact hwheel hinv₃ hhrs
      · cases h
        exact hinv₃
    · cases h
      exact hinv₂
  · cases h
    exact hinv₁

/-- The node is linked in the wheel `w` and waits for its present value. -/
def Node.hit (c : Clk) (w : Wheel) (n : Node) : Prop :=
  n.pending.wheel = w ∧ n.pending.rt = c.get w

instance (c : Clk) (w : Wheel) : DecidablePred (Node.hit c w) :=
  fun _ => inferInstanceAs (Decidable (_ ∧ _))

/-- A placed node waits for a value that its counter does not have yet. -/
theorem not_hit_of_place {c : Clk} {ct : U32} {q : Pending} (h : place c ct = some q)
    (a : AppId) (t : Option TimerId) (w : Wheel) : ¬ Node.hit c w ⟨a, t, q⟩ := by
  rintro ⟨rfl, hrt⟩
  have hpos := (place_valid h).gap_pos
  rw [(Pending.rt_eq_iff c q).mp hrt] at hpos
  omega

theorem countP_hit_le (s : TmrState) (c : Clk) (w : Wheel) :
    s.nodes.countP (Node.hit c w) ≤ (s.root w).size := by
  have hzero (v : Wheel) (hv : v ≠ w) : (treeNodes v (s.root v)).countP (Node.hit c w) = 0 := by
    refine Multiset.countP_eq_zero.mpr fun n hn hhit => hv ?_
    obtain ⟨x, -, rfl⟩ := mem_treeNodes.mp hn
    exact hhit.1
  have hself : (treeNodes w (s.root w)).countP (Node.hit c w) ≤ (s.root w).size := by
    have hcard := Multiset.countP_le_card (Node.hit c w) (treeNodes w (s.root w))
    simpa [treeNodes, RBTree.size_eq_length] using hcard
  simp only [TmrState.nodes, Multiset.countP_add]
  cases w <;> simp [hzero] <;> exact hself

/-- As many turns as there are nodes to meet leave none of them. -/
theorem processTimersLoop_exhausts {fuel : Nat} {s s' : TmrState} {w : Wheel} {k : Nat}
    (hl : Linked s) (hfuel : s.nodes.countP (Node.hit s.clk w) ≤ fuel)
    (h : processTimersLoop fuel s w (s.clk.get w) = some (s', k)) :
    ∀ n ∈ s'.nodes, ¬ n.hit s.clk w := by
  induction fuel generalizing s k with
  | zero =>
      cases h
      exact Multiset.countP_eq_zero.mp (Nat.le_zero.mp hfuel)
  | succ fuel ih =>
      simp only [processTimersLoop] at h
      split at h
      · rename_i hwalk
        cases h
        rintro n hn ⟨hw, hrt⟩
        obtain ⟨x, hx, hnode⟩ := mem_nodes.mp hn
        rw [hw] at hx
        rw [← hnode] at hrt
        exact search_eq_none _ _ _ (hl.ordered w) hwalk x hx (congrArg BitVec.toNat hrt)
      · rename_i x hwalk
        obtain ⟨hx, hkey⟩ := search_eq_some _ _ _ hwalk
        have hrt : x.rt = s.clk.get w := BitVec.eq_of_toNat_eq hkey
        simp only [Option.bind_eq_bind, Option.bind_eq_some_iff] at h
        obtain ⟨mid, hone, ⟨last, j⟩, hloop, hs'⟩ := h
        cases hs'
        obtain ⟨hclk, hlm, rest, v, hnodes, hcase⟩ := processOne_nodes hl hx hone
        rw [← hclk] at hloop ⊢
        refine ih hlm ?_ hloop
        rw [hnodes, Multiset.countP_cons_of_pos _ ⟨rfl, hrt⟩] at hfuel
        rw [hclk]
        rcases hcase with ⟨-, hmid, -⟩ | ⟨q, hq, hmid, -⟩
        · rw [hmid]
          omega
        · rw [hmid, Multiset.countP_cons_of_neg _ (not_hit_of_place hq x.addr x.timer w)]
          omega

theorem processTimers_exhausts {s s' : TmrState} {w : Wheel} {k : Nat} (hl : Linked s)
    (h : processTimers s w (s.clk.get w) = some (s', k)) : ∀ n ∈ s'.nodes, ¬ n.hit s.clk w :=
  processTimersLoop_exhausts hl (countP_hit_le s s.clk w) h

/-! ## The pass over the wheels -/

/-- The part of `tm_process_tick_and_update_timers` that is about one wheel. -/
def passWheel (b : Build) (s : TmrState) (w : Wheel) : Option TmrState :=
  if serviced b s.clk w then (processTimers s w (s.clk.get w)).map Prod.fst else some s

def wheels : List Wheel := [.tick, .sec, .min, .hrs]

/-- The nested tests scan the wheels in order, each one when it is
serviced. -/
theorem tmProcess_eq_run {b : Build} {s : TmrState} (hl : Linked s) :
    (tmProcessTickAndUpdateTimers b s).map Prod.fst = PartialSteps.run (passWheel b) s wheels := by
  unfold tmProcessTickAndUpdateTimers
  simp only [wheels, PartialSteps.run, passWheel, serviced, Clk.get, if_true]
  cases htick : processTimers s .tick s.clk.tick with
  | none => rfl
  | some r1 =>
      obtain ⟨s1, k1⟩ := r1
      obtain ⟨hclk1, hl1⟩ := processTimers_linked hl htick
      simp only [Option.bind_eq_bind, Option.bind_some, Option.map_some]
      by_cases hsec : isNxtSecHappend b s1.clk
      · simp only [hsec, if_true]
        cases hproc2 : processTimers s1 .sec s1.clk.sec with
        | none => rfl
        | some r2 =>
            obtain ⟨s2, k2⟩ := r2
            obtain ⟨hclk2, hl2⟩ := processTimers_linked hl1 hproc2
            simp only [Option.bind_some, Option.map_some]
            rw [← hclk2] at hsec
            by_cases hmin : isNxtMinHappend s2.clk
            · simp only [hsec, hmin, if_true, Bool.true_and]
              cases hproc3 : processTimers s2 .min s2.clk.min with
              | none => rfl
              | some r3 =>
                  obtain ⟨s3, k3⟩ := r3
                  obtain ⟨hclk3, -⟩ := processTimers_linked hl2 hproc3
                  simp only [Option.bind_some, Option.map_some]
                  rw [← hclk3] at hsec hmin
                  by_cases hhr : isNxtHrHappend s3.clk
                  · simp only [hsec, hmin, hhr, if_true, Bool.true_and]
                    cases hproc4 : processTimers s3 .hrs s3.clk.hrs with
                    | none => rfl
                    | some r4 => rfl
                  · simp [hsec, hmin, hhr]
            · simp [hsec, hmin]
      · simp [hsec]

theorem tmProcess_linked {b : Build} {s : TmrState} {r : TmrState × Nat} (hl : Linked s)
    (h : tmProcessTickAndUpdateTimers b s = some r) : r.1.clk = s.clk ∧ Linked r.1 := by
  refine tmProcess_invariant (I := fun m => m.clk = s.clk ∧ Linked m) ?_ ⟨rfl, hl⟩ h
  rintro w mid x next ⟨hclk, hlm⟩ hx hone
  obtain ⟨hclk', hln, -⟩ := processOne_nodes hlm hx hone
  exact ⟨hclk'.trans hclk, hln⟩

end Timers
end TmULThreads
