import TmULThreads.Timers.Steps

/-!
# Handles and nodes agree

`Coherent` ties every `TIMER_T` to its nodes: a timer has at most one node,
either in a tree or on the list of expired timers; it is running exactly while
that node is in a tree, and then `apptimer` and `wheel` lead to it; and no node
refers to a timer that has been freed.

Two elementary moves carry all the proofs.  Taking a node out of its tree and
clearing `is_running` keeps the invariant (`detach`), and so does linking a
node for a timer that has none (`attach`).  A turn of `process_timers` is the
first move followed by the second or by an append to `expd_tmrs`.

The invariant is kept by every step as long as `mod_timer` is only called on
timers that have no node (`ModIdle`).
-/

namespace TmULThreads
namespace Timers

open RedBlackTree

/-- The timers that have a node in a tree or on the list, with repetition. -/
def TmrState.owners (s : TmrState) : Multiset (Option TimerId) :=
  s.nodes.map Node.timer + (s.expdTmrs.map AppTimer.timer : Multiset (Option TimerId))

/-- An `apptimer` pointer, also a stale one, is held by one timer only. -/
structure AppsDistinct (s : TmrState) : Prop where
  app_lt : ∀ p t a, s.timers p = some t → t.apptimer = some a → a < s.nextApp
  app_inj : ∀ p q t u a, s.timers p = some t → s.timers q = some u → t.apptimer = some a →
    u.apptimer = some a → p = q

structure Coherent (s : TmrState) : Prop extends Linked s, AppsDistinct s where
  armed : ∀ n ∈ s.nodes, ∃ p t, n.timer = some p ∧ s.timers p = some t ∧ t.isRunning = true ∧
    t.wheel = some n.pending.wheel ∧ t.apptimer = some n.addr
  above : ∀ n ∈ s.nodes, ∀ v, n.pending.wheel.rank < v.rank → field v n.pending.ctime = 0
  expired : ∀ x ∈ s.expdTmrs, ∃ p t, x.timer = some p ∧ s.timers p = some t ∧
    t.isRunning = false
  running : ∀ p t, s.timers p = some t → t.isRunning = true → ∃ n ∈ s.nodes, n.timer = some p
  owners_nodup : s.owners.Nodup
  fresh : ∀ p, s.nextTimer ≤ p → s.timers p = none

/-- No node, in a tree or on the list, belongs to the timer. -/
def Unowned (s : TmrState) (p : TimerId) : Prop :=
  (∀ n ∈ s.nodes, n.timer ≠ some p) ∧ ∀ x ∈ s.expdTmrs, x.timer ≠ some p

theorem unowned_iff (s : TmrState) (p : TimerId) : Unowned s p ↔ some p ∉ s.owners := by
  simp [Unowned, TmrState.owners, Multiset.mem_add, not_or]

namespace AppsDistinct

variable {s : TmrState}

theorem of_eq {r : TmrState} (h : AppsDistinct s) (htimers : r.timers = s.timers)
    (happ : s.nextApp ≤ r.nextApp) : AppsDistinct r where
  app_lt := fun p t a ht ha => (h.app_lt p t a (htimers ▸ ht) ha).trans_le happ
  app_inj := by simpa only [htimers] using h.app_inj

/-- Writing a timer whose `apptimer` no other timer holds. -/
theorem update (h : AppsDistinct s) {p : TimerId} {u : Option Timer}
    (hnew : ∀ t a, u = some t → t.apptimer = some a →
      a < s.nextApp ∧ ∀ q v, s.timers q = some v → v.apptimer = some a → q = p) :
    AppsDistinct { s with timers := Function.update s.timers p u } := by
  have hread {q : TimerId} {v : Timer} (hv : Function.update s.timers p u q = some v) :
      (q = p ∧ u = some v) ∨ (q ≠ p ∧ s.timers q = some v) := by
    by_cases hq : q = p
    · subst hq
      exact .inl ⟨rfl, (Function.update_self q u s.timers).symm.trans hv⟩
    · exact .inr ⟨hq, (Function.update_of_ne hq ..).symm.trans hv⟩
  constructor
  · intro q v a hv ha
    rcases hread hv with ⟨-, hu⟩ | ⟨-, hold⟩
    · exact (hnew v a hu ha).1
    · exact h.app_lt q v a hold ha
  · intro q q' v v' a hv hv' ha ha'
    rcases hread hv with ⟨rfl, hu⟩ | ⟨-, hold⟩ <;> rcases hread hv' with ⟨rfl, hu'⟩ | ⟨-, hold'⟩
    · rfl
    · exact ((hnew v a hu ha).2 q' v' hold' ha').symm
    · exact (hnew v' a hu' ha').2 q v hold ha
    · exact h.app_inj q q' v v' a hold hold' ha ha'

/-- Writing a timer without touching its `apptimer`. -/
theorem update_same (h : AppsDistinct s) {p : TimerId} {tmr t : Timer}
    (htmr : s.timers p = some tmr) (happ : t.apptimer = tmr.apptimer) :
    AppsDistinct (s.setTimer p t) := by
  refine h.update fun v a hv ha => ?_
  cases hv
  rw [happ] at ha
  exact ⟨h.app_lt p tmr a htmr ha, fun q v hv hav => h.app_inj q p v tmr a hv htmr hav ha⟩

end AppsDistinct

theorem coherent_init : Coherent initTimerMgr where
  toLinked := linked_init
  app_lt := fun _ _ _ ht => nomatch ht
  app_inj := fun _ _ _ _ _ ht => nomatch ht
  armed := fun n hn => absurd hn (Multiset.notMem_zero n)
  above := fun n hn => absurd hn (Multiset.notMem_zero n)
  expired := fun _ hx => absurd hx List.not_mem_nil
  running := fun _ _ ht => nomatch ht
  owners_nodup := Multiset.nodup_zero
  fresh := fun _ _ => rfl

namespace Coherent

variable {s : TmrState}

/-- Only the trees, the list and the timers matter. -/
theorem of_eq {r : TmrState} (h : Coherent s) (hroot : r.root = s.root)
    (hexpd : r.expdTmrs = s.expdTmrs) (htimers : r.timers = s.timers)
    (hnext : r.nextTimer = s.nextTimer) (happ : s.nextApp ≤ r.nextApp) : Coherent r := by
  have hnodes : r.nodes = s.nodes := by simp only [TmrState.nodes, hroot]
  have howners : r.owners = s.owners := by simp only [TmrState.owners, hnodes, hexpd]
  exact
    { toLinked := h.toLinked.of_eq hroot happ
      toAppsDistinct := h.toAppsDistinct.of_eq htimers happ
      armed := by simpa only [hnodes, htimers] using h.armed
      above := by simpa only [hnodes] using h.above
      expired := by simpa only [hexpd, htimers] using h.expired
      running := by simpa only [hnodes, htimers] using h.running
      owners_nodup := by simpa only [howners] using h.owners_nodup
      fresh := by simpa only [hnext, htimers] using h.fresh }

theorem lt_nextTimer (h : Coherent s) {p : TimerId} {t : Timer} (ht : s.timers p = some t) :
    p < s.nextTimer := by
  by_contra hge
  rw [h.fresh p (not_lt.mp hge)] at ht
  cases ht

/-- A timer that is not running and has no entry on the list has no node. -/
theorem unowned (h : Coherent s) {p : TimerId} {t : Timer} (ht : s.timers p = some t)
    (hidle : t.isRunning = false) (hexpd : ∀ x ∈ s.expdTmrs, x.timer ≠ some p) :
    Unowned s p := by
  refine ⟨fun n hn htimer => ?_, hexpd⟩
  obtain ⟨p', t', hp', ht', hrun, -⟩ := h.armed n hn
  obtain rfl : p = p' := Option.some.inj (htimer.symm.trans hp')
  rw [ht] at ht'
  cases ht'
  rw [hidle] at hrun
  cases hrun

/-- The object of a timer without a node may be written, but not made running,
or freed. -/
theorem update (h : Coherent s) {p : TimerId} {u : Option Timer} (hp : Unowned s p)
    (hidle : ∀ t, u = some t → t.isRunning = false ∧ p < s.nextTimer)
    (happs : AppsDistinct { s with timers := Function.update s.timers p u }) :
    Coherent { s with timers := Function.update s.timers p u } := by
  have hother {n : Option TimerId} {q : TimerId} (hn : n ≠ some p) (hq : n = some q) :
      Function.update s.timers p u q = s.timers q := by
    apply Function.update_of_ne
    rintro rfl
    exact hn hq
  refine
    { toLinked := h.toLinked.of_eq rfl le_rfl
      toAppsDistinct := happs
      armed := fun n hn => ?_
      above := h.above
      expired := fun x hx => ?_
      running := fun q t ht hrun => ?_
      owners_nodup := h.owners_nodup
      fresh := fun q hq => ?_ }
  · obtain ⟨q, t, hq, ht, hrest⟩ := h.armed n hn
    exact ⟨q, t, hq, (hother (hp.1 n hn) hq).trans ht, hrest⟩
  · obtain ⟨q, t, hq, ht, hrest⟩ := h.expired x hx
    exact ⟨q, t, hq, (hother (hp.2 x hx) hq).trans ht, hrest⟩
  · by_cases hq : q = p
    · subst hq
      have hu : u = some t := (Function.update_self q u s.timers).symm.trans ht
      rw [(hidle t hu).1] at hrun
      cases hrun
    · exact h.running q t ((Function.update_of_ne hq ..).symm.trans ht) hrun
  · by_cases hqp : q = p
    · subst hqp
      cases hu : u with
      | none => exact Function.update_self ..
      | some t => exact absurd (hidle t hu).2 (not_lt.mpr hq)
    · exact (Function.update_of_ne hqp ..).trans (h.fresh q hq)

theorem setTimer (h : Coherent s) {p : TimerId} {t : Timer} (hp : Unowned s p)
    (hidle : t.isRunning = false) (hlt : p < s.nextTimer)
    (happs : AppsDistinct (s.setTimer p t)) : Coherent (s.setTimer p t) :=
  h.update hp (fun _ ht => ⟨Option.some.inj ht ▸ hidle, hlt⟩) happs

theorem of_freeTimer (h : Coherent s) {p : TimerId} (hp : Unowned s p) :
    Coherent (freeTimer s p) :=
  h.update hp nofun (h.toAppsDistinct.update nofun)

/-- The node of a timer is linked only once. -/
theorem unowned_of_cons (h : Coherent s) {n : Node} {rest : Multiset Node} {p : TimerId}
    (hnodes : s.nodes = n ::ₘ rest) (hp : n.timer = some p) :
    (∀ m ∈ rest, m.timer ≠ some p) ∧ ∀ x ∈ s.expdTmrs, x.timer ≠ some p := by
  have hnodup := h.owners_nodup
  rw [TmrState.owners, hnodes, Multiset.map_cons, Multiset.cons_add, Multiset.nodup_cons,
    Multiset.mem_add, not_or] at hnodup
  obtain ⟨⟨hrest, hexpd⟩, -⟩ := hnodup
  rw [hp] at hrest hexpd
  constructor
  · intro m hm htimer
    exact hrest (Multiset.mem_map.mpr ⟨m, hm, htimer⟩)
  · intro x hx htimer
    exact hexpd (List.mem_map.mpr ⟨x, hx, htimer⟩)

/-- Taking a node out of its tree, with its timer marked as not running. -/
theorem detach (h : Coherent s) {w : Wheel} {x : AppTimer} {r : RBTree AppTimer} {p : TimerId}
    {tmr t : Timer} (hx : x ∈ (s.root w).toList) (hp : x.timer = some p)
    (htmr : s.timers p = some tmr) (hdel : timerDel x.addr (s.root w) = some r)
    (hidle : t.isRunning = false) (happ : t.apptimer = tmr.apptimer) :
    Coherent ((s.setRoot w r).setTimer p t) ∧ Unowned ((s.setRoot w r).setTimer p t) p ∧
      ∀ n ∈ ((s.setRoot w r).setTimer p t).nodes, n.addr ≠ x.addr := by
  have hnodes := h.timerDel_eq hx hdel
  obtain ⟨hrest, hexpd⟩ := h.unowned_of_cons hnodes hp
  have hmem {n : Node} (hn : n ∈ (s.setRoot w r).nodes) : n ∈ s.nodes := by
    rw [hnodes]
    exact Multiset.mem_cons_of_mem hn
  have hother {n : Option TimerId} {q : TimerId} (hn : n ≠ some p) (hq : n = some q) :
      ((s.setRoot w r).setTimer p t).timers q = s.timers q := by
    apply setTimer_timers_of_ne
    rintro rfl
    exact hn hq
  refine ⟨?_, ⟨hrest, hexpd⟩, ?_⟩
  · refine
      { toLinked := (h.toLinked.setRoot_timerDel hdel).of_eq rfl le_rfl
        toAppsDistinct := (h.toAppsDistinct.update_same htmr happ).of_eq rfl le_rfl
        armed := fun n hn => ?_
        above := fun n hn => h.above n (hmem hn)
        expired := fun y hy => ?_
        running := fun q u hu hrun => ?_
        owners_nodup := ?_
        fresh := fun q hq => ?_ }
    · obtain ⟨q, u, hq, hu, hrest'⟩ := h.armed n (hmem hn)
      exact ⟨q, u, hq, (hother (hrest n hn) hq).trans hu, hrest'⟩
    · obtain ⟨q, u, hq, hu, hrest'⟩ := h.expired y hy
      exact ⟨q, u, hq, (hother (hexpd y hy) hq).trans hu, hrest'⟩
    · by_cases hq : q = p
      · subst hq
        rw [setTimer_timers_self] at hu
        cases hu
        rw [hidle] at hrun
        cases hrun
      · rw [setTimer_timers_of_ne _ _ _ hq] at hu
        obtain ⟨n, hn, htimer⟩ := h.running q u hu hrun
        rw [hnodes] at hn
        rcases Multiset.mem_cons.mp hn with rfl | hn
        · exact absurd (Option.some.inj (htimer.symm.trans hp)) hq
        · exact ⟨n, hn, htimer⟩
    · have hnodup := h.owners_nodup
      rw [TmrState.owners, hnodes, Multiset.map_cons, Multiset.cons_add,
        Multiset.nodup_cons] at hnodup
      exact hnodup.2
    · rw [setTimer_timers_of_ne _ _ _ ((h.lt_nextTimer htmr).trans_le hq).ne']
      exact h.fresh q hq
  · intro n hn haddr
    have hnodup := h.addr_nodup
    rw [hnodes, Multiset.map_cons, Multiset.nodup_cons] at hnodup
    exact hnodup.1 (Multiset.mem_map.mpr ⟨n, hn, haddr⟩)

/-- Linking a node for a timer that has none. -/
theorem attach (h : Coherent s) {p : TimerId} {tmr : Timer} {x : AppTimer} {q : Pending}
    (hplace : place s.clk x.ctime = some q) (hp : x.timer = some p)
    (htmr : s.timers p = some tmr) (hfree : Unowned s p) (happ : tmr.apptimer = some x.addr)
    (hlt : x.addr < s.nextApp) (hfresh : ∀ n ∈ s.nodes, n.addr ≠ x.addr) :
    Coherent (s.attach p tmr x q) := by
  have hnodes : (s.attach p tmr x q).nodes = ⟨x.addr, x.timer, q⟩ ::ₘ s.nodes :=
    nodes_attach hplace
  have hother {n : Option TimerId} {v : TimerId} (hn : n ≠ some p) (hv : n = some v) :
      (s.attach p tmr x q).timers v = s.timers v := by
    apply setTimer_timers_of_ne
    rintro rfl
    exact hn hv
  refine
    { toLinked := linked_attach h.toLinked hlt hfresh
      toAppsDistinct := (h.toAppsDistinct.update_same htmr
        (t := { tmr with wheel := some q.wheel, isRunning := true }) rfl).of_eq rfl le_rfl
      armed := fun n hn => ?_
      above := fun n hn => ?_
      expired := fun y hy => ?_
      running := fun v u hu hrun => ?_
      owners_nodup := ?_
      fresh := fun v hv => ?_ }
  · rw [hnodes] at hn
    rcases Multiset.mem_cons.mp hn with rfl | hn
    · exact ⟨p, _, hp, attach_timers_self .., rfl, rfl, happ⟩
    · obtain ⟨v, u, hv, hu, hrest⟩ := h.armed n hn
      exact ⟨v, u, hv, (hother (hfree.1 n hn) hv).trans hu, hrest⟩
  · rw [hnodes] at hn
    rcases Multiset.mem_cons.mp hn with rfl | hn
    · exact (place_valid hplace).above
    · exact h.above n hn
  · obtain ⟨v, u, hv, hu, hrest⟩ := h.expired y hy
    exact ⟨v, u, hv, (hother (hfree.2 y hy) hv).trans hu, hrest⟩
  · rw [hnodes]
    by_cases hv : v = p
    · exact ⟨_, Multiset.mem_cons_self _ _, by rw [hv]; exact hp⟩
    · have hu' : s.timers v = some u := (setTimer_timers_of_ne _ _ _ hv).symm.trans hu
      obtain ⟨n, hn, htimer⟩ := h.running v u hu' hrun
      exact ⟨n, Multiset.mem_cons_of_mem hn, htimer⟩
  · have howners : (s.attach p tmr x q).owners = some p ::ₘ s.owners := by
      rw [TmrState.owners, hnodes, Multiset.map_cons, Multiset.cons_add, ← hp]
      rfl
    rw [howners, Multiset.nodup_cons]
    exact ⟨(unowned_iff s p).mp hfree, h.owners_nodup⟩
  · have hlt' := h.lt_nextTimer htmr
    exact (setTimer_timers_of_ne _ _ _ (hlt'.trans_le hv).ne').trans (h.fresh v hv)

/-- Appending an entry for a timer that has no node. -/
theorem expire (h : Coherent s) {p : TimerId} {tmr : Timer} {x : AppTimer} (c : U32)
    (hp : x.timer = some p) (htmr : s.timers p = some tmr) (hidle : tmr.isRunning = false)
    (hfree : Unowned s p) :
    Coherent { s with count := c, expdTmrs := s.expdTmrs ++ [x] } := by
  refine
    { toLinked := h.toLinked.of_eq rfl le_rfl
      toAppsDistinct := h.toAppsDistinct.of_eq rfl le_rfl
      armed := h.armed
      above := h.above
      expired := fun y hy => ?_
      running := h.running
      owners_nodup := ?_
      fresh := h.fresh }
  · rcases List.mem_append.mp hy with hy | hy
    · exact h.expired y hy
    · obtain rfl : y = x := List.mem_singleton.mp hy
      exact ⟨p, tmr, hp, htmr, hidle⟩
  · have howners : TmrState.owners { s with count := c, expdTmrs := s.expdTmrs ++ [x] } =
        some p ::ₘ s.owners := by
      simp only [TmrState.owners, List.map_append, List.map_cons, List.map_nil, hp]
      rw [← Multiset.coe_add, ← add_assoc, Multiset.coe_singleton, Multiset.add_comm _ {some p},
        Multiset.singleton_add]
      rfl
    rw [howners, Multiset.nodup_cons]
    exact ⟨(unowned_iff s p).mp hfree, h.owners_nodup⟩

end Coherent

/-! ## Ticks -/

/-- In a coherent state the field that a turn clears is the one of the wheel it
scans. -/
theorem Coherent.of_processOne {s s' : TmrState} {w : Wheel} {x : AppTimer} (h : Coherent s)
    (hx : x ∈ (s.root w).toList) (hone : processOne s w x = some s') :
    Coherent s' ∧ ∃ rest, s.nodes = x.node w ::ₘ rest ∧
      ((clearWheel w x.ctime = 0 ∧ s'.nodes = rest ∧
          s'.expdTmrs = s.expdTmrs ++ [{ x with ctime := 0 }] ∧ s'.count = s.count - 1) ∨
        ∃ q, place s.clk (clearWheel w x.ctime) = some q ∧
          s'.nodes = ⟨x.addr, x.timer, q⟩ ::ₘ rest ∧ s'.expdTmrs = s.expdTmrs ∧
          s'.count = s.count) := by
  obtain ⟨p, tmr, v, r, hp, htmr, hv, hr, hcase⟩ := processOne_cases hone
  obtain ⟨p', tmr', hp', htmr', -, hwheel, happ⟩ := h.armed _ (node_mem_nodes hx)
  obtain rfl : p = p' := Option.some.inj (hp.symm.trans hp')
  obtain rfl : tmr = tmr' := Option.some.inj (htmr.symm.trans htmr')
  obtain rfl : v = w := Option.some.inj (hv.symm.trans hwheel)
  have hnodes := h.timerDel_eq hx hr
  obtain ⟨hdet, hfree, haddr⟩ :=
    h.detach (t := { tmr with isRunning := false }) hx hp htmr hr rfl rfl
  rcases hcase with ⟨hempty, rfl⟩ | ⟨q, hq, rfl⟩
  · refine ⟨hdet.expire (s.count - 1) hp (setTimer_timers_self ..) rfl hfree, _, hnodes,
      .inl ⟨hempty, rfl, ?_, rfl⟩⟩
    rw [TmrState.lapse, hempty]
    rfl
  · refine ⟨?_, _, hnodes, .inr ⟨q, hq, nodes_attach hq, rfl, rfl⟩⟩
    have hatt := hdet.attach (x := { x with ctime := clearWheel v x.ctime }) hq hp
      (setTimer_timers_self ..) hfree happ (h.addr_lt _ (node_mem_nodes hx)) haddr
    rw [attach_setTimer] at hatt
    exact hatt

theorem Coherent.of_tmProcess {b : Build} {s : TmrState} {r : TmrState × Nat} (h : Coherent s)
    (hproc : tmProcessTickAndUpdateTimers b s = some r) : Coherent r.1 := by
  refine tmProcess_invariant (I := Coherent) ?_ h hproc
  intro w mid x next hmid hx hone
  exact (hmid.of_processOne hx hone).1

theorem Coherent.of_updateTimes {b : Build} {s s' : TmrState} (h : Coherent s)
    (htick : updateTimes b s = some s') : Coherent s' := by
  have hclk : Coherent { s with clk := s.clk.advance b } := h.of_eq rfl rfl rfl rfl le_rfl
  rcases updateTimes_cases htick with ⟨-, rfl⟩ | ⟨-, rfl⟩ | ⟨r, -, hproc, rfl⟩
  · exact hclk
  · exact hclk.of_eq rfl rfl rfl rfl le_rfl
  · exact (hclk.of_tmProcess hproc).of_eq rfl rfl rfl rfl le_rfl

/-! ## Calls -/

theorem Coherent.of_calcAndPlace {b : Build} {s s' : TmrState} {x : AppTimer} {p : TimerId}
    {tmr : Timer} (h : Coherent s) (hzero : x.ctime = 0) (hp : x.timer = some p)
    (htmr : s.timers p = some tmr) (hidle : tmr.isRunning = false) (hfree : Unowned s p)
    (happ : tmr.apptimer = some x.addr) (hlt : x.addr < s.nextApp)
    (hfresh : ∀ n ∈ s.nodes, n.addr ≠ x.addr) (harm : calcAndPlace b s x = some s') :
    Coherent s' := by
  obtain ⟨p', tmr', mid, hp', htmr', hfind, rfl⟩ := calcAndPlace_cases hzero harm
  obtain rfl : p = p' := Option.some.inj (hp.symm.trans hp')
  obtain rfl : tmr = tmr' := Option.some.inj (htmr.symm.trans htmr')
  have hset : Coherent (s.setTimer p { tmr with exp := tmr.rmt + s.clk.tick }) :=
    h.setTimer hfree hidle (h.lt_nextTimer htmr) (h.toAppsDistinct.update_same htmr rfl)
  have hmid : Coherent mid := by
    rcases findTmrSlotAndPlace_cases hfind with ⟨-, rfl⟩ | ⟨q, p', tmr', hq, hp', htmr', rfl⟩
    · exact hset
    · obtain rfl : p = p' := Option.some.inj (hp.symm.trans hp')
      rw [setTimer_timers_self] at htmr'
      cases htmr'
      exact hset.attach hq hp (setTimer_timers_self ..) hfree happ hlt hfresh
  exact hmid.of_eq rfl rfl rfl rfl le_rfl

theorem Coherent.unowned_fresh {s : TmrState} (h : Coherent s) : Unowned s s.nextTimer := by
  constructor
  · intro n hn htimer
    obtain ⟨p, t, hp, ht, -⟩ := h.armed n hn
    obtain rfl : s.nextTimer = p := Option.some.inj (htimer.symm.trans hp)
    exact lt_irrefl _ (h.lt_nextTimer ht)
  · intro x hx htimer
    obtain ⟨p, t, hp, ht, -⟩ := h.expired x hx
    obtain rfl : s.nextTimer = p := Option.some.inj (htimer.symm.trans hp)
    exact lt_irrefl _ (h.lt_nextTimer ht)

theorem Coherent.grow {s : TmrState} (h : Coherent s) (i : U32) {u : Option Timer} (apps : Nat)
    (hidle : ∀ t, u = some t → t.isRunning = false)
    (hnew : ∀ t a, u = some t → t.apptimer = some a → a = s.nextApp ∧ apps ≠ 0) :
    Coherent (s.grow i u apps) := by
  have hbase : Coherent { s with nextTimer := s.nextTimer + 1, nextApp := s.nextApp + apps } :=
    { h.of_eq (r := { s with nextApp := s.nextApp + apps }) rfl rfl rfl rfl
        (Nat.le_add_right _ _) with
      fresh := fun p hp => h.fresh p ((Nat.le_succ _).trans hp) }
  have happs := hbase.toAppsDistinct.update (p := s.nextTimer) (u := u) fun t a ht ha => by
    obtain ⟨rfl, hpos⟩ := hnew t a ht ha
    refine ⟨Nat.lt_add_of_pos_right (Nat.pos_of_ne_zero hpos), fun q v hv hav => ?_⟩
    exact absurd (h.app_lt q v _ hv hav) (lt_irrefl _)
  have hupd := hbase.update (p := s.nextTimer) (u := u) h.unowned_fresh
    (fun t ht => ⟨hidle t ht, Nat.lt_succ_self _⟩) happs
  exact hupd.of_eq rfl rfl rfl rfl le_rfl

theorem Coherent.of_startTimer {b : Build} {s : TmrState} {ticks : U32} {data : Nat}
    {handler : Option Nat} {flags : U32} {timerOk appOk : Bool} {r : TmrState × Option TimerId}
    (h : Coherent s) (hstart : startTimer b s ticks data handler flags timerOk appOk = some r) :
    Coherent r.1 := by
  rcases startTimer_cases hstart with ⟨-, -, i, hs' | hs'⟩ | ⟨-, -, harm⟩
  · rw [hs']
    exact h.of_eq rfl rfl rfl rfl le_rfl
  · rw [hs']
    exact h.grow i 0 nofun nofun
  · have hgrow : Coherent (s.grow (s.indx + 1) (some (s.newTimer ticks data handler flags)) 1) := by
      refine h.grow _ 1 (fun u hu => Option.some.inj hu ▸ rfl) fun u a hu ha => ?_
      cases hu
      exact ⟨(Option.some.inj ha).symm, one_ne_zero⟩
    exact hgrow.of_calcAndPlace (x := { addr := s.nextApp, timer := some s.nextTimer }) rfl rfl
      (Function.update_self ..) rfl h.unowned_fresh rfl (Nat.lt_succ_self _)
      (addr_ne_nextApp h.toLinked) harm

theorem Coherent.of_setupTimer {s : TmrState} (h : Coherent s) (handler : Option Nat) (data : Nat)
    (timerOk : Bool) : Coherent (setupTimer s handler data timerOk).1 := by
  obtain ⟨i, hs' | ⟨t, hidle, happ, -, hs'⟩⟩ := setupTimer_cases s handler data timerOk
  · rw [hs']
    exact h.of_eq rfl rfl rfl rfl le_rfl
  · rw [hs']
    refine h.grow i 0 (fun u hu => Option.some.inj hu ▸ hidle) fun u a hu ha => ?_
    cases hu
    cases happ.symm.trans ha

/-- `mod_timer` on a timer without a node. -/
theorem Coherent.of_modTimer {b : Build} {s s' : TmrState} {p : Option TimerId} {secs : U32}
    {appOk : Bool} (h : Coherent s)
    (hidle : ∀ q t, p = some q → s.timers q = some t →
      t.isRunning = false ∧ ∀ x ∈ s.expdTmrs, x.timer ≠ some q)
    (hmod : modTimer b s p secs appOk = some s') : Coherent s' := by
  rcases modTimer_cases hmod with rfl | ⟨q, t, hp, ht, harm⟩
  · exact h
  · obtain ⟨hrun, hexpd⟩ := hidle q t hp ht
    have hfree := h.unowned ht hrun hexpd
    have halloc : Coherent { s with nextApp := s.nextApp + 1 } :=
      h.of_eq rfl rfl rfl rfl (Nat.le_succ _)
    have hset := halloc.setTimer (p := q)
      (t := { t with rmt := secs * tmGetTicksPerSecond b, apptimer := some s.nextApp })
      hfree hrun (h.lt_nextTimer ht) (halloc.toAppsDistinct.update fun u a hu ha => by
        cases hu
        cases ha
        refine ⟨Nat.lt_succ_self _, fun r v hv hav => ?_⟩
        exact absurd (h.app_lt r v _ hv hav) (lt_irrefl _))
    exact hset.of_calcAndPlace (x := { addr := s.nextApp, timer := some q }) rfl rfl
      (setTimer_timers_self ..) hrun hfree rfl (Nat.lt_succ_self _)
      (addr_ne_nextApp h.toLinked) harm

/-- A defined `stop_timer` takes the node of the timer out of its tree. -/
theorem Coherent.of_stopTimer {s s' : TmrState} {p : TimerId} (h : Coherent s)
    (hstop : stopTimer s p = some s') :
    Coherent s' ∧ ∃ n, n.timer = some p ∧ s.nodes = n ::ₘ s'.nodes := by
  obtain ⟨tmr, w, a, r, htmr, hw, ha, hr, rfl⟩ := stopTimer_cases hstop
  obtain ⟨x, hx, rfl, -⟩ := exists_of_timerDel (w := w) hr
  obtain ⟨q, t, hq, ht, -, -, happ⟩ := h.armed _ (node_mem_nodes hx)
  obtain rfl : q = p := h.app_inj q p t tmr x.addr ht htmr happ ha
  obtain ⟨hdet, -, -⟩ := h.detach (t := { tmr with isRunning := false }) hx hq htmr hr rfl rfl
  exact ⟨hdet.of_eq rfl rfl rfl rfl le_rfl, x.node w, hq, h.timerDel_eq hx hr⟩

theorem Coherent.of_delTimer {s s' : TmrState} {p : TimerId} (h : Coherent s)
    (hdel : delTimer s p = some s') : Coherent s' := by
  rcases delTimer_cases hdel with rfl | hstop
  · exact h
  · exact (h.of_stopTimer hstop).1

/-- `mod_timer` is only called on a timer that is not running and whose last
expiry has been dealt with. -/
def Call.ModIdle (s : TmrState) : Call → Prop
  | .modTimer (some p) _ _ => ∀ t, s.timers p = some t →
      t.isRunning = false ∧ ∀ x ∈ s.expdTmrs, x.timer ≠ some p
  | _ => True

theorem Coherent.of_exec {b : Build} {s s' : TmrState} {c : Call} (h : Coherent s)
    (hidle : c.ModIdle s) (hexec : c.exec b s = some s') : Coherent s' := by
  cases c with
  | startTimer ticks data handler flags timerOk appOk =>
      obtain ⟨r, hstart, rfl⟩ := Option.map_eq_some_iff.mp hexec
      exact h.of_startTimer hstart
  | setupTimer handler data timerOk =>
      cases hexec
      exact h.of_setupTimer handler data timerOk
  | modTimer p secs appOk =>
      refine h.of_modTimer (fun q t hq ht => ?_) hexec
      subst hq
      exact hidle t ht
  | timerRestart p appOk => rwa [timerRestart_cases hexec]
  | stopTimer p => exact (h.of_stopTimer hexec).1
  | delTimer p => exact h.of_delTimer hexec

/-! ## The bottom half -/

theorem owners_of_head {s : TmrState} {x : AppTimer} {rest : List AppTimer} {p : TimerId}
    (hlist : s.expdTmrs = x :: rest) (hp : x.timer = some p) :
    s.owners = some p ::ₘ TmrState.owners { s with expdTmrs := rest } := by
  simp only [TmrState.owners, hlist, List.map_cons, hp]
  rw [← Multiset.cons_coe, Multiset.add_cons]
  rfl

theorem Coherent.of_finishExpd {b : Build} {s s' : TmrState} {appOk : Bool} (h : Coherent s)
    (hfin : finishExpd b s appOk = some s') : Coherent s' := by
  obtain ⟨x, rest, p, tmr, hlist, hp, htmr, hs'⟩ := finishExpd_cases hfin
  have hidle : tmr.isRunning = false := by
    obtain ⟨q, t, hq, ht, hidle⟩ := h.expired x (by simp [hlist])
    obtain rfl : p = q := Option.some.inj (hp.symm.trans hq)
    obtain rfl : tmr = t := Option.some.inj (htmr.symm.trans ht)
    exact hidle
  have hnodup := h.owners_nodup
  rw [owners_of_head hlist hp, Multiset.nodup_cons] at hnodup
  have hrest : Coherent { s with expdTmrs := rest } :=
    { h with
      ordered := h.ordered
      addr_nodup := h.addr_nodup
      addr_lt := h.addr_lt
      expired := fun y hy => h.expired y (by simp [hlist, hy])
      owners_nodup := hnodup.2 }
  have hfree := (unowned_iff _ p).mpr hnodup.1
  rcases hs' with rfl | rfl
  · exact hrest.of_freeTimer hfree
  · exact hrest.setTimer hfree hidle (h.lt_nextTimer htmr)
      (hrest.toAppsDistinct.update fun t a ht ha => by
        cases ht
        cases ha)

/-! ## Runs -/

def ModIdle (s : TmrState) : Op → Prop
  | .call c => c.ModIdle s
  | _ => True

theorem Coherent.of_step {b : Build} {s s' : TmrState} {op : Op} (h : Coherent s)
    (hidle : ModIdle s op) (hstep : step b s op = some s') : Coherent s' := by
  cases op with
  | call c => exact h.of_exec hidle hstep
  | tick => exact h.of_updateTimes hstep
  | bottomHalf =>
      rcases step_bottomHalf_cases hstep with ⟨-, r, hproc, rfl⟩ | ⟨-, rfl⟩
      · exact (h.of_tmProcess hproc).of_eq rfl rfl rfl rfl le_rfl
      · exact h.of_eq rfl rfl rfl rfl le_rfl
  | finishExpd appOk => exact h.of_finishExpd hstep

theorem coherent_of_run {b : Build} {ops : List Op} {s : TmrState}
    (hidle : PartialSteps.Meets (step b) ModIdle initTimerMgr ops)
    (hrun : PartialSteps.run (step b) initTimerMgr ops = some s) : Coherent s :=
  PartialSteps.run_invariant (step b) (fun _ _ _ h hok hstep => h.of_step hok hstep) coherent_init
    hidle hrun

end Timers
end TmULThreads
