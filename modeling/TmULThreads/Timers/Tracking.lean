import TmULThreads.Timers.Sweep
import TmULThreads.Timers.Handles

/-!
# Following one timer through a run

In the build that services every tick synchronously, the node of a timer that
no call is aimed at is, after any run, what its own automaton has become after
as many ticks (`Tracked.run`).  What happens to the other timers in between,
and how the handlers of expired timers interleave with the ticks, does not
matter.
-/

namespace TmULThreads
namespace Timers

open RedBlackTree

/-! ## A synchronous tick -/

/-- When the test of `update_times` says that there is nothing to do, the trees that would be
scanned are empty.  The scan looks at a tree under more conditions than the test does. -/
theorem isEmpty_of_not_pending {b : Build} {s : TmrState} (hc : Counted s)
    (h : timersPendingForService b s = false) {w : Wheel} (hw : serviced b s.clk w = true) :
    (s.root w).isEmpty = true := by
  by_cases hcount : s.count = 0
  · have hcard : Multiset.card s.nodes = 0 := by
      unfold Counted at hc
      rw [hcount] at hc
      exact Nat.le_zero.mp hc
    rw [RBTree.isEmpty_iff, List.eq_nil_iff_forall_not_mem]
    intro x hx
    have hmem : x.node w ∈ s.nodes := mem_nodes.mpr ⟨x, hx, rfl⟩
    rw [Multiset.card_eq_zero.mp hcard] at hmem
    exact Multiset.notMem_zero _ hmem
  · unfold timersPendingForService at h
    simp only [hcount, ne_eq, not_false_eq_true, decide_true, Bool.true_and,
      Bool.or_eq_false_iff] at h
    obtain ⟨⟨⟨htick, hsec⟩, hmin⟩, hhrs⟩ := h
    cases w <;> simp_all [serviced]

theorem not_due_of_not_pending {b : Build} {s : TmrState} (hc : Counted s)
    (h : timersPendingForService b s = false) {n : Node} (hn : n ∈ s.nodes) :
    n.pending.isDue b s.clk = false := by
  obtain ⟨x, hx, -⟩ := mem_nodes.mp hn
  cases hserviced : serviced b s.clk n.pending.wheel with
  | false => simp [Pending.isDue, hserviced]
  | true =>
      have hempty := isEmpty_of_not_pending hc h hserviced
      rw [RBTree.isEmpty_iff] at hempty
      rw [hempty] at hx
      cases hx

theorem step_of_not_pending {b : Build} {s : TmrState} (hc : Counted s)
    (h : timersPendingForService b s = false) :
    ∀ n ∈ s.nodes, n.step b s.clk = some n := fun _ hn =>
  Node.step_of_not_due (not_due_of_not_pending hc h hn)

theorem updateTimes_normal {s s' : TmrState} (h : Coherent s) (hc : Counted s)
    (htick : updateTimes .normal s = some s') :
    Coherent s' ∧ Counted s' ∧ s'.nodes = s.nodes.filterMap (Node.step .normal s'.clk) ∧
      Scanned { s with clk := s.clk.advance .normal } s' := by
  have hclk : Coherent { s with clk := s.clk.advance .normal } := h.of_eq rfl rfl rfl rfl le_rfl
  have hc' : Counted { s with clk := s.clk.advance .normal } := hc
  rcases updateTimes_cases htick with ⟨hpend, rfl⟩ | ⟨hb, -⟩ | ⟨r, -, hproc, rfl⟩
  · refine ⟨hclk, hc', ?_, Scanned.refl _⟩
    exact (filterMap_eq_self (step_of_not_pending hc' hpend)).symm
  · cases hb
  · obtain ⟨hnodes, hcoh, hscan, hcount⟩ := hclk.tmProcess_nodes hproc
    refine ⟨hcoh.of_eq rfl rfl rfl rfl le_rfl, hcount hc', ?_, ?_⟩
    · rw [show r.1.clk = s.clk.advance .normal from hscan.clk]
      exact hnodes
    · exact ⟨hscan.clk, hscan.nextTimer, hscan.expdTmrs, hscan.owners, hscan.exp⟩

/-- A tick always has a defined outcome. -/
theorem exists_updateTimes_normal {s : TmrState} (h : Coherent s) :
    ∃ s', updateTimes .normal s = some s' := by
  have hclk : Coherent { s with clk := s.clk.advance .normal } := h.of_eq rfl rfl rfl rfl le_rfl
  simp only [updateTimes]
  split
  · obtain ⟨r, hr⟩ := hclk.exists_tmProcess .normal
    simp only [serviceTimers, hr, Option.bind_eq_bind, Option.bind_some]
    exact ⟨_, rfl⟩
  · exact ⟨_, rfl⟩

/-! ## What calls leave alone -/

/-- The nodes that belong to a timer. -/
def TmrState.nodesOf (s : TmrState) (p : TimerId) : Multiset Node :=
  s.nodes.filter fun n => n.timer = some p

/-- The step has not touched the timer `p`, though it may have freed it. -/
structure Untouched (p : TimerId) (s s' : TmrState) : Prop where
  nodesOf : s'.nodesOf p = s.nodesOf p
  nextTimer : s.nextTimer ≤ s'.nextTimer
  exp : ∀ t', s'.timers p = some t' → ∃ t, s.timers p = some t ∧ t'.exp = t.exp

theorem Untouched.refl (p : TimerId) (s : TmrState) : Untouched p s s :=
  ⟨rfl, le_rfl, fun t ht => ⟨t, ht, rfl⟩⟩

theorem nodesOf_cons_of_ne {s s' : TmrState} {n : Node} {p : TimerId}
    (hnodes : s'.nodes = n ::ₘ s.nodes) (hne : n.timer ≠ some p) :
    s'.nodesOf p = s.nodesOf p := by
  rw [TmrState.nodesOf, hnodes,
    Multiset.filter_cons_of_neg (p := fun m : Node => m.timer = some p) _ hne]
  rfl

/-- The effect of arming one timer on the others, and on the count. -/
theorem calcAndPlace_effect {b : Build} {s s' : TmrState} {x : AppTimer} {q : TimerId}
    (hzero : x.ctime = 0) (hq : x.timer = some q) (harm : calcAndPlace b s x = some s') :
    s'.clk = s.clk ∧ (∀ p, p ≠ q → Untouched p s s') ∧
      (s.count.toNat + 1 < 2 ^ 32 → Counted s → Counted s') := by
  obtain ⟨q', tmr, mid, hq', htmr, hfind, rfl⟩ := calcAndPlace_cases hzero harm
  obtain rfl : q = q' := Option.some.inj (hq.symm.trans hq')
  have hcountSucc (hfit : s.count.toNat + 1 < 2 ^ 32) : (s.count + 1).toNat = s.count.toNat + 1 := by
    rw [BitVec.toNat_add]
    exact Nat.mod_eq_of_lt hfit
  rcases findTmrSlotAndPlace_cases hfind with ⟨-, rfl⟩ | ⟨r, q', tmr', hr, hq', -, rfl⟩
  · refine ⟨rfl, fun p hp => ⟨rfl, le_rfl, fun t' ht' => ⟨t', ?_, rfl⟩⟩, fun hfit hc => ?_⟩
    · rw [← ht']
      exact (setTimer_timers_of_ne _ _ _ hp).symm
    · unfold Counted at hc ⊢
      have := hcountSucc hfit
      show Multiset.card s.nodes ≤ (s.count + 1).toNat
      omega
  · obtain rfl : q = q' := Option.some.inj (hq.symm.trans hq')
    have hnodes := nodes_attach (p := q) (t := tmr') hr
    refine ⟨rfl, fun p hp => ⟨?_, le_rfl, fun t' ht' => ⟨t', ?_, rfl⟩⟩, fun hfit hc => ?_⟩
    · refine nodesOf_cons_of_ne hnodes ?_
      rw [show x.timer = some q from hq]
      exact fun heq => hp (Option.some.inj heq).symm
    · rw [← ht', attach_setTimer]
      exact (setTimer_timers_of_ne s q _ hp).symm
    · unfold Counted at hc ⊢
      have := hcountSucc hfit
      show Multiset.card (TmrState.nodes (TmrState.attach _ q tmr' _ r)) ≤ (s.count + 1).toNat
      rw [hnodes, Multiset.card_cons]
      show Multiset.card s.nodes + 1 ≤ _
      omega

theorem maxTimers_lt {s : TmrState} (h : s.count ≤ maxTimers) : s.count.toNat + 1 < 2 ^ 32 := by
  have hle : s.count.toNat ≤ 2000 := h
  omega

theorem stopTimer_effect {s s' : TmrState} {q : TimerId} (h : Coherent s)
    (hstop : stopTimer s q = some s') :
    s'.clk = s.clk ∧ (∀ p, p ≠ q → Untouched p s s') ∧ (Counted s → Counted s') := by
  obtain ⟨-, n, hn, hnodes⟩ := h.of_stopTimer hstop
  obtain ⟨tmr, w, a, r, htmr, -, -, -, rfl⟩ := stopTimer_cases hstop
  refine ⟨rfl, fun p hp => ⟨?_, le_rfl, fun t' ht' => ⟨t', ?_, rfl⟩⟩, fun hc => ?_⟩
  · refine (nodesOf_cons_of_ne hnodes ?_).symm
    rw [hn]
    exact fun heq => hp (Option.some.inj heq).symm
  · rw [← ht']
    exact (setTimer_timers_of_ne (s.setRoot w r) q _ hp).symm
  · unfold Counted at hc ⊢
    rw [hnodes, Multiset.card_cons] at hc
    have hge : (1 : U32) ≤ s.count := by
      rw [BitVec.le_def]
      show 1 ≤ s.count.toNat
      omega
    show _ ≤ (s.count - 1).toNat
    rw [BitVec.toNat_sub_of_le hge]
    show _ ≤ s.count.toNat - 1
    omega

/-- `mod_timer` does not check the number of timers, so the count could wrap. -/
def CountFits (s : TmrState) : Op → Prop
  | .call (.modTimer _ _ _) => s.count.toNat + 1 < 2 ^ 32
  | _ => True

/-- The runs in which the trees, the handles and the count stay in step. -/
def Orderly (s : TmrState) (op : Op) : Prop := ModIdle s op ∧ CountFits s op

def Op.target : Op → Option TimerId
  | .call c => c.target
  | _ => none

theorem untouched_grow {s : TmrState} (i : U32) (u : Option Timer) (apps : Nat) {p : TimerId}
    (hp : p < s.nextTimer) : Untouched p s (s.grow i u apps) :=
  ⟨rfl, Nat.le_succ _, fun t' ht' =>
    ⟨t', (Function.update_of_ne hp.ne ..).symm.trans ht', rfl⟩⟩

theorem startTimer_effect {b : Build} {s : TmrState} {ticks : U32} {data : Nat}
    {handler : Option Nat} {flags : U32} {timerOk appOk : Bool} {r : TmrState × Option TimerId}
    (hstart : startTimer b s ticks data handler flags timerOk appOk = some r) :
    r.1.clk = s.clk ∧ (∀ p, p < s.nextTimer → Untouched p s r.1) ∧ (Counted s → Counted r.1) := by
  rcases startTimer_cases hstart with ⟨-, -, i, hs' | hs'⟩ | ⟨-, hstarts, harm⟩
  · rw [hs']
    exact ⟨rfl, fun p _ => ⟨rfl, le_rfl, fun t ht => ⟨t, ht, rfl⟩⟩, id⟩
  · rw [hs']
    exact ⟨rfl, fun p hp => untouched_grow i none 0 hp, id⟩
  · obtain ⟨hclk, hother, hcount⟩ := calcAndPlace_effect rfl rfl harm
    refine ⟨hclk, fun p hp => ?_, fun hc => hcount (maxTimers_lt hstarts.1) hc⟩
    have hplaced := hother p hp.ne
    have hfirst := untouched_grow (s.indx + 1) (some (s.newTimer ticks data handler flags)) 1 hp
    refine ⟨hplaced.nodesOf.trans hfirst.nodesOf, hfirst.nextTimer.trans hplaced.nextTimer, fun t' ht' => ?_⟩
    obtain ⟨u, hu, hexp⟩ := hplaced.exp t' ht'
    obtain ⟨v, hv, hexp'⟩ := hfirst.exp u hu
    exact ⟨v, hv, hexp.trans hexp'⟩

theorem setupTimer_effect (s : TmrState) (handler : Option Nat) (data : Nat) (timerOk : Bool) :
    (setupTimer s handler data timerOk).1.clk = s.clk ∧
      (∀ p, p < s.nextTimer → Untouched p s (setupTimer s handler data timerOk).1) ∧
      (Counted s → Counted (setupTimer s handler data timerOk).1) := by
  obtain ⟨i, hs' | ⟨t, -, -, -, hs'⟩⟩ := setupTimer_cases s handler data timerOk
  · rw [hs']
    exact ⟨rfl, fun p _ => ⟨rfl, le_rfl, fun t ht => ⟨t, ht, rfl⟩⟩, id⟩
  · rw [hs']
    exact ⟨rfl, fun p hp => untouched_grow i (some t) 0 hp, id⟩

theorem modTimer_effect {b : Build} {s s' : TmrState} {q : Option TimerId} {secs : U32}
    {appOk : Bool} (hmod : modTimer b s q secs appOk = some s') :
    s'.clk = s.clk ∧ (∀ p, q ≠ some p → Untouched p s s') ∧
      (s.count.toNat + 1 < 2 ^ 32 → Counted s → Counted s') := by
  rcases modTimer_cases hmod with rfl | ⟨r, t, rfl, ht, harm⟩
  · exact ⟨rfl, fun p _ => Untouched.refl p s', fun _ => id⟩
  · obtain ⟨hclk, hother, hcount⟩ := calcAndPlace_effect rfl rfl harm
    refine ⟨hclk, fun p hp => ?_, hcount⟩
    have hne : p ≠ r := fun heq => hp (congrArg some heq.symm)
    have hplaced := hother p hne
    refine ⟨hplaced.nodesOf, hplaced.nextTimer, fun t' ht' => ?_⟩
    obtain ⟨u, hu, hexp⟩ := hplaced.exp t' ht'
    rw [setTimer_timers_of_ne _ _ _ hne] at hu
    exact ⟨u, hu, hexp⟩

/-- A call that is not about `p` does not touch it. -/
theorem exec_effect {b : Build} {s s' : TmrState} {c : Call} (h : Coherent s)
    (hfit : CountFits s (.call c)) (hexec : c.exec b s = some s') :
    s'.clk = s.clk ∧ (∀ p, p < s.nextTimer → c.target ≠ some p → Untouched p s s') ∧
      (Counted s → Counted s') := by
  cases c with
  | startTimer ticks data handler flags timerOk appOk =>
      obtain ⟨r, hstart, rfl⟩ := Option.map_eq_some_iff.mp hexec
      obtain ⟨hclk, hother, hcount⟩ := startTimer_effect hstart
      exact ⟨hclk, fun p hp _ => hother p hp, hcount⟩
  | setupTimer handler data timerOk =>
      cases hexec
      obtain ⟨hclk, hother, hcount⟩ := setupTimer_effect s handler data timerOk
      exact ⟨hclk, fun p hp _ => hother p hp, hcount⟩
  | modTimer q secs appOk =>
      obtain ⟨hclk, hother, hcount⟩ := modTimer_effect hexec
      exact ⟨hclk, fun p _ hp => hother p hp, hcount hfit⟩
  | timerRestart q appOk =>
      rw [timerRestart_cases hexec]
      exact ⟨rfl, fun p _ _ => Untouched.refl p s, id⟩
  | stopTimer q =>
      obtain ⟨hclk, hother, hcount⟩ := stopTimer_effect h hexec
      exact ⟨hclk, fun p _ hp => hother p fun heq => hp (congrArg some heq.symm), hcount⟩
  | delTimer q =>
      rcases delTimer_cases hexec with rfl | hstop
      · exact ⟨rfl, fun p _ _ => Untouched.refl p s', id⟩
      · obtain ⟨hclk, hother, hcount⟩ := stopTimer_effect h hstop
        exact ⟨hclk, fun p _ hp => hother p fun heq => hp (congrArg some heq.symm), hcount⟩

theorem finishExpd_effect {b : Build} {s s' : TmrState} {appOk : Bool}
    (hfin : finishExpd b s appOk = some s') :
    s'.clk = s.clk ∧ (∀ p, Untouched p s s') ∧ (Counted s → Counted s') := by
  obtain ⟨x, rest, q, tmr, -, -, htmr, rfl | rfl⟩ := finishExpd_cases hfin
  · refine ⟨rfl, fun p => ⟨rfl, le_rfl, fun t' ht' => ?_⟩, id⟩
    by_cases hp : p = q
    · subst hp
      rw [show (freeTimer { s with expdTmrs := rest } p).timers p = none from
        Function.update_self ..] at ht'
      cases ht'
    · exact ⟨t', (Function.update_of_ne hp ..).symm.trans ht', rfl⟩
  · exact ⟨rfl, fun p => ⟨rfl, le_rfl, fun t' ht' =>
      exp_setTimer (s := { s with expdTmrs := rest }) (t := { tmr with apptimer := none })
        htmr rfl ht'⟩, id⟩

/-! ## Runs of the synchronous build -/

/-- After steps with `k` ticks among them, from a state with the clock `c`. -/
structure Steady (c : Clk) (k : Nat) (s : TmrState) : Prop where
  coherent : Coherent s
  counted : Counted s
  clk : s.clk = c.after .normal k

theorem steady_init : Steady Clk.zero 0 initTimerMgr :=
  ⟨coherent_init, le_rfl, rfl⟩

theorem count_tick_cons (op : Op) (ops : List Op) :
    (op :: ops).count .tick = (if op = .tick then 1 else 0) + ops.count .tick := by
  rw [List.count_cons, Nat.add_comm]
  simp

/-- What one step other than a tick does. -/
theorem step_effect {s s' : TmrState} {op : Op} (h : Coherent s) (hfit : CountFits s op)
    (hop : op ≠ .tick) (hstep : step .normal s op = some s') :
    s'.clk = s.clk ∧ (∀ p, p < s.nextTimer → op.target ≠ some p → Untouched p s s') ∧
      (Counted s → Counted s') := by
  cases op with
  | call call => exact exec_effect h hfit hstep
  | tick => exact absurd rfl hop
  | bottomHalf =>
      rcases step_bottomHalf_cases hstep with ⟨hb, -⟩ | ⟨-, rfl⟩
      · cases hb
      · exact ⟨rfl, fun p _ _ => ⟨rfl, le_rfl, fun t ht => ⟨t, ht, rfl⟩⟩, id⟩
  | finishExpd appOk =>
      obtain ⟨hclk, hother, hcount⟩ := finishExpd_effect hstep
      exact ⟨hclk, fun p _ _ => hother p, hcount⟩

theorem Steady.of_step {c : Clk} {k : Nat} {s s' : TmrState} {op : Op} (h : Steady c k s)
    (hok : Orderly s op) (hstep : step .normal s op = some s') :
    Steady c (k + if op = .tick then 1 else 0) s' := by
  have hcoh := h.coherent.of_step hok.1 hstep
  by_cases hop : op = .tick
  · subst hop
    obtain ⟨-, hcount, -, hscan⟩ := updateTimes_normal h.coherent h.counted hstep
    refine ⟨hcoh, hcount, ?_⟩
    rw [hscan.clk]
    exact congrArg (Clk.advance .normal) h.clk
  · obtain ⟨hclk, -, hcount⟩ := step_effect h.coherent hok.2 hop hstep
    rw [if_neg hop]
    exact ⟨hcoh, hcount h.counted, hclk.trans h.clk⟩

theorem Steady.of_run {c : Clk} {k : Nat} {s s' : TmrState} {ops : List Op} (h : Steady c k s)
    (hok : PartialSteps.Meets (step .normal) Orderly s ops)
    (hrun : PartialSteps.run (step .normal) s ops = some s') :
    Steady c (k + ops.count .tick) s' := by
  induction ops generalizing s k with
  | nil =>
      cases hrun
      exact h
  | cons op ops ih =>
      obtain ⟨mid, hstep, hrest⟩ := (PartialSteps.run_cons _).mp hrun
      rw [count_tick_cons, ← Nat.add_assoc]
      exact ih (h.of_step hok.1 hstep) (hok.2 mid hstep) hrest

/-! ## The node of one timer -/

theorem nodesOf_filterMap_step (b : Build) (c : Clk) (p : TimerId) (m : Multiset Node) :
    (m.filterMap (Node.step b c)).filter (fun n => n.timer = some p) =
      (m.filter fun n => n.timer = some p).filterMap (Node.step b c) := by
  rw [Multiset.filter_filterMap, Multiset.filterMap_filter]
  refine filterMap_congr fun n _ => ?_
  unfold Node.step
  cases n.pending.step b c with
  | none => simp
  | some q =>
      by_cases hp : n.timer = some p <;> simp [hp, Option.filter]

/-- The step of a single node, if there is one. -/
theorem filterMap_step_map_getD (b : Build) (c : Clk) (a : AppId) (p : TimerId)
    (o : Option Pending) :
    Multiset.filterMap (Node.step b c) ((o.map fun r => {⟨a, some p, r⟩}).getD 0) =
      ((o.bind (Pending.step b c)).map fun r => {⟨a, some p, r⟩}).getD 0 := by
  cases o with
  | none => rfl
  | some r =>
      simp only [Option.map_some, Option.getD_some, Option.bind_some]
      rw [← Multiset.cons_zero, Multiset.filterMap_cons, Multiset.filterMap_zero, add_zero]
      simp only [Node.step, Option.map_map]
      rfl

/-- The timer `p`, which had the node `q` under the address `a` when the clock
was `c`, has been left alone since then. -/
structure Tracked (c : Clk) (p : TimerId) (a : AppId) (q : Pending) (e : U32) (k : Nat)
    (s : TmrState) : Prop extends Steady c k s where
  lt : p < s.nextTimer
  nodesOf : s.nodesOf p = ((q.after .normal c k).map fun r => {⟨a, some p, r⟩}).getD 0
  exp : ∀ t, s.timers p = some t → t.exp = e

section

variable {c : Clk} {p : TimerId} {a : AppId} {q : Pending} {e : U32} {k : Nat} {s s' : TmrState}

theorem Tracked.of_tick (h : Tracked c p a q e k s) (htick : updateTimes .normal s = some s') :
    Tracked c p a q e (k + 1) s' := by
  obtain ⟨hcoh, hcount, hnodes, hscan⟩ := updateTimes_normal h.coherent h.counted htick
  have hclk : s'.clk = c.after .normal (k + 1) := by
    rw [hscan.clk]
    exact congrArg (Clk.advance .normal) h.clk
  refine ⟨⟨hcoh, hcount, hclk⟩, ?_, ?_, fun t' ht' => ?_⟩
  · rw [hscan.nextTimer]
    exact h.lt
  · have hof : s'.nodesOf p = (s.nodesOf p).filterMap (Node.step .normal s'.clk) := by
      rw [TmrState.nodesOf, hnodes, nodesOf_filterMap_step]
      rfl
    rw [hof, h.nodesOf, hclk, Pending.after]
    exact filterMap_step_map_getD .normal _ a p _
  · obtain ⟨t, ht, hexp⟩ := hscan.exp p t' ht'
    exact hexp.trans (h.exp t ht)

theorem Tracked.of_step {op : Op} (h : Tracked c p a q e k s) (hok : Orderly s op)
    (hp : op.target ≠ some p) (hstep : step .normal s op = some s') :
    Tracked c p a q e (k + if op = .tick then 1 else 0) s' := by
  by_cases hop : op = .tick
  · subst hop
    exact h.of_tick hstep
  · obtain ⟨-, hother, -⟩ := step_effect h.coherent hok.2 hop hstep
    have hun := hother p h.lt hp
    refine ⟨h.toSteady.of_step hok hstep, h.lt.trans_le hun.nextTimer, ?_, fun t' ht' => ?_⟩
    · rw [if_neg hop]
      exact hun.nodesOf.trans h.nodesOf
    · obtain ⟨t, ht, hexp⟩ := hun.exp t' ht'
      exact hexp.trans (h.exp t ht)

theorem Tracked.of_run {ops : List Op} (h : Tracked c p a q e k s)
    (hok : PartialSteps.Meets (step .normal) Orderly s ops)
    (hp : ∀ op ∈ ops, op.target ≠ some p)
    (hrun : PartialSteps.run (step .normal) s ops = some s') :
    Tracked c p a q e (k + ops.count .tick) s' := by
  induction ops generalizing s k with
  | nil =>
      cases hrun
      exact h
  | cons op ops ih =>
      obtain ⟨mid, hstep, hrest⟩ := (PartialSteps.run_cons _).mp hrun
      have hmid := h.of_step hok.1 (hp op List.mem_cons_self) hstep
      rw [count_tick_cons, ← Nat.add_assoc]
      exact ih hmid (hok.2 mid hstep) (fun o ho => hp o (List.mem_cons_of_mem _ ho)) hrest

end

end Timers
end TmULThreads
