import TmULThreads.Timers.Trees

/-!
# What each step can do

One inversion lemma for every function that a program can call and for every
step of the system: the guards it has passed and the state it leaves.  The
invariants are proved from these lemmas alone.

The last part draws the first conclusion: every step keeps the trees linked,
and a node that a call has added was placed at the present clock.
-/

namespace TmULThreads
namespace Timers

open RedBlackTree

theorem attach_setTimer (s : TmrState) (p : TimerId) (t tmr : Timer) (x : AppTimer)
    (q : Pending) : (s.setTimer p t).attach p tmr x q = s.attach p tmr x q := by
  simp [TmrState.attach, TmrState.setTimer, TmrState.setRoot]

theorem addr_ne_nextApp {s : TmrState} (h : Linked s) : ∀ n ∈ s.nodes, n.addr ≠ s.nextApp :=
  fun n hn => (h.addr_lt n hn).ne

/-! ## Calls -/

/-- The state in which a newly allocated timer, and a node for it, exist. -/
def TmrState.grow (s : TmrState) (i : U32) (u : Option Timer) (apps : Nat) : TmrState :=
  { s with
    indx := i
    timers := Function.update s.timers s.nextTimer u
    nextTimer := s.nextTimer + 1
    nextApp := s.nextApp + apps }

/-- What is set when a timer is allocated and never changes afterwards. -/
structure Label where
  handler : Option Nat
  data : Nat
  flags : U32
  deriving DecidableEq, Repr

def Timer.label (t : Timer) : Label := ⟨t.timeOutHandler, t.data, t.flags⟩

/-- `start_timer` passes its checks. -/
def TmrState.Starts (s : TmrState) (timerOk appOk : Bool) : Prop :=
  s.count ≤ maxTimers ∧ s.indx + 1 ≠ 0 ∧ timerOk = true ∧ appOk = true

instance (s : TmrState) (timerOk appOk : Bool) : Decidable (s.Starts timerOk appOk) :=
  inferInstanceAs (Decidable (_ ∧ _))

/-- The timer that `start_timer` sets up. -/
def TmrState.newTimer (s : TmrState) (ticks : U32) (data : Nat) (handler : Option Nat)
    (flags : U32) : Timer :=
  { rmt := ticks, idx := s.indx + 1, data := data, timeOutHandler := handler,
    flags := if flags ≠ 0 then flags else timerOnce, apptimer := some s.nextApp }

/-- What `start_timer` has done when it reaches `calc_time`, or has failed. -/
theorem startTimer_cases {b : Build} {s s' : TmrState} {ticks : U32} {data : Nat}
    {handler : Option Nat} {flags : U32} {timerOk appOk : Bool} {res : Option TimerId}
    (h : startTimer b s ticks data handler flags timerOk appOk = some (s', res)) :
    (res = none ∧ ¬ s.Starts timerOk appOk ∧
        ∃ i, s' = { s with indx := i } ∨ s' = s.grow i none 0) ∨
      (res = some s.nextTimer ∧ s.Starts timerOk appOk ∧
        calcAndPlace b (s.grow (s.indx + 1) (some (s.newTimer ticks data handler flags)) 1)
          { addr := s.nextApp, timer := some s.nextTimer } = some s') := by
  unfold startTimer allocTimerId at h
  by_cases hfull : maxTimers < s.count
  · simp only [hfull, if_true, true_or, Option.some.injEq, Prod.mk.injEq] at h
    exact .inl ⟨h.2.symm, fun hok => BitVec.not_lt.mpr hok.1 hfull, s.indx, .inl h.1.symm⟩
  · simp only [hfull, if_false] at h
    split at h
    · rename_i hfail
      simp only [Option.some.injEq, Prod.mk.injEq] at h
      refine .inl ⟨h.2.symm, fun hok => ?_, s.indx + 1, .inl h.1.symm⟩
      exact hfail.elim hok.2.1 fun hnot => hnot hok.2.2.1
    · rename_i hid
      obtain ⟨hidx, htimer⟩ := not_or.mp hid
      split at h
      · rename_i hfail
        simp only [Option.some.injEq, Prod.mk.injEq] at h
        refine .inl ⟨h.2.symm, fun hok => hfail hok.2.2.2, s.indx + 1, .inr ?_⟩
        rw [← h.1]
        simp [freeTimer, allocTimer, TmrState.grow]
      · rename_i happ
        simp only [Option.bind_eq_bind, Option.bind_eq_some_iff, Option.some.injEq,
          Prod.mk.injEq] at h
        obtain ⟨mid, harm, rfl, hres⟩ := h
        refine .inr ⟨hres.symm, ⟨BitVec.not_lt.mp hfull, hidx, not_not.mp htimer,
          not_not.mp happ⟩, ?_⟩
        rw [← harm]
        simp [allocTimer, allocAppTimer, TmrState.setTimer, TmrState.grow, TmrState.newTimer]

theorem setupTimer_cases (s : TmrState) (handler : Option Nat) (data : Nat) (timerOk : Bool) :
    ∃ i, (setupTimer s handler data timerOk).1 = { s with indx := i } ∨
      ∃ t, t.isRunning = false ∧ t.apptimer = none ∧ t.label = ⟨handler, data, timerForever⟩ ∧
        (setupTimer s handler data timerOk).1 = s.grow i (some t) 0 := by
  unfold setupTimer allocTimerId
  by_cases hfull : maxTimers < s.count
  · simp only [hfull, if_true, true_or]
    exact ⟨s.indx, .inl rfl⟩
  · simp only [hfull, if_false]
    refine ⟨s.indx + 1, ?_⟩
    split
    · exact .inl rfl
    · exact .inr ⟨_, rfl, rfl, rfl, rfl⟩

theorem modTimer_cases {b : Build} {s s' : TmrState} {p : Option TimerId} {secs : U32}
    {appOk : Bool} (h : modTimer b s p secs appOk = some s') :
    s' = s ∨ ∃ q t, p = some q ∧ s.timers q = some t ∧
      calcAndPlace b
        (TmrState.setTimer { s with nextApp := s.nextApp + 1 } q
          { t with rmt := secs * tmGetTicksPerSecond b, apptimer := some s.nextApp })
        { addr := s.nextApp, timer := some q } = some s' := by
  unfold modTimer at h
  split at h
  · exact .inl (Option.some.inj h).symm
  · rename_i q
    split at h
    · exact .inl (Option.some.inj h).symm
    · simp only [allocAppTimer, Option.bind_eq_bind, Option.bind_eq_some_iff] at h
      obtain ⟨t, ht, harm⟩ := h
      exact .inr ⟨q, t, rfl, ht, harm⟩

/-- `timer_restart` either does nothing or has no defined outcome. -/
theorem timerRestart_cases {b : Build} {s s' : TmrState} {p : Option TimerId} {appOk : Bool}
    (h : timerRestart b s p appOk = some s') : s' = s := by
  unfold timerRestart at h
  split at h
  · cases h
    rfl
  · split at h
    · cases h
      rfl
    · obtain ⟨q, t, mid, hq, -⟩ := calcAndPlace_cases rfl h
      cases hq

theorem stopTimer_cases {s s' : TmrState} {p : TimerId} (h : stopTimer s p = some s') :
    ∃ tmr w a r, s.timers p = some tmr ∧ tmr.wheel = some w ∧ tmr.apptimer = some a ∧
      timerDel a (s.root w) = some r ∧
      s' = { (s.setRoot w r).setTimer p { tmr with isRunning := false } with
             count := s.count - 1 } := by
  simp only [stopTimer, Option.bind_eq_bind, Option.bind_eq_some_iff, Option.some.injEq] at h
  obtain ⟨tmr, htmr, w, hw, a, ha, r, hr, hs'⟩ := h
  exact ⟨tmr, w, a, r, htmr, hw, ha, hr, hs'.symm⟩

theorem delTimer_cases {s s' : TmrState} {p : TimerId} (h : delTimer s p = some s') :
    s' = s ∨ stopTimer s p = some s' := by
  simp only [delTimer, Option.bind_eq_bind, Option.bind_eq_some_iff] at h
  obtain ⟨tmr, -, h⟩ := h
  split at h
  · exact .inr h
  · exact .inl (Option.some.inj h).symm

/-! ## Ticks and the bottom half -/

theorem updateTimes_cases {b : Build} {s s' : TmrState} (h : updateTimes b s = some s') :
    (timersPendingForService b { s with clk := s.clk.advance b } = false ∧
        s' = { s with clk := s.clk.advance b }) ∨
      (b = .sfs ∧ s' = { s with clk := s.clk.advance b, raised := true }) ∨
      ∃ r, b = .normal ∧
        tmProcessTickAndUpdateTimers b { s with clk := s.clk.advance b } = some r ∧
        s' = { r.1 with raised := r.1.raised || r.2 ≠ 0 } := by
  simp only [updateTimes] at h
  split at h
  · cases b with
    | sfs => exact .inr (.inl ⟨rfl, (Option.some.inj h).symm⟩)
    | normal =>
        simp only [serviceTimers, Option.bind_eq_bind, Option.bind_eq_some_iff] at h
        obtain ⟨r, hproc, hs'⟩ := h
        exact .inr (.inr ⟨r, rfl, hproc, (Option.some.inj hs').symm⟩)
  · rename_i hpend
    exact .inl ⟨Bool.eq_false_iff.mpr hpend, (Option.some.inj h).symm⟩

theorem step_bottomHalf_cases {b : Build} {s s' : TmrState} (h : step b s .bottomHalf = some s') :
    (b = .sfs ∧ ∃ r, tmProcessTickAndUpdateTimers b s = some r ∧
        s' = { r.1 with raised := false }) ∨
      (b = .normal ∧ s' = { s with raised := false }) := by
  simp only [step] at h
  split at h
  · cases b with
    | sfs =>
        obtain ⟨r, hproc, rfl⟩ := Option.map_eq_some_iff.mp h
        exact .inl ⟨rfl, r, hproc, rfl⟩
    | normal => exact .inr ⟨rfl, (Option.some.inj h).symm⟩
  · cases h

/-- The entry that is cleaned up goes, and its timer keeps no node. -/
theorem finishExpd_cases {b : Build} {s s' : TmrState} {appOk : Bool}
    (h : finishExpd b s appOk = some s') :
    ∃ x rest p tmr, s.expdTmrs = x :: rest ∧ x.timer = some p ∧ s.timers p = some tmr ∧
      (s' = freeTimer { s with expdTmrs := rest } p ∨
        s' = TmrState.setTimer { s with expdTmrs := rest } p { tmr with apptimer := none }) := by
  unfold finishExpd at h
  split at h
  · cases h
  · rename_i x rest hlist
    simp only [Option.bind_eq_bind, Option.bind_eq_some_iff] at h
    obtain ⟨p, hp, tmr, htmr, h⟩ := h
    refine ⟨x, rest, p, tmr, hlist, hp, htmr, ?_⟩
    split at h
    · left
      rw [← Option.some.inj h]
      simp [freeTimer, TmrState.setTimer]
    · right
      split at h
      · exact timerRestart_cases h
      · exact (Option.some.inj h).symm

/-! ## The trees along a step -/

/-- The number of ticks that a call arms a timer for. -/
def Call.armTicks (b : Build) : Call → Option U32
  | .startTimer ticks .. => some ticks
  | .modTimer _ secs _ => some (secs * tmGetTicksPerSecond b)
  | _ => none

/-- The nodes of `s'` are nodes of `s`, or have just been placed for `ticks`. -/
def PlacedFrom (b : Build) (s : TmrState) (ticks : Option U32) (s' : TmrState) : Prop :=
  ∀ n ∈ s'.nodes, n ∈ s.nodes ∨
    ∃ d, ticks = some d ∧ place s.clk (packCtime b d) = some n.pending

theorem PlacedFrom.of_nodes {b : Build} {s s' : TmrState} {ticks : Option U32}
    (h : s'.nodes ≤ s.nodes) : PlacedFrom b s ticks s' :=
  fun _ hn => .inl (Multiset.mem_of_le h hn)

theorem calcAndPlace_linked {b : Build} {s s' : TmrState} {x : AppTimer} {p : TimerId}
    {tmr : Timer} (hl : Linked s) (hzero : x.ctime = 0) (hp : x.timer = some p)
    (htmr : s.timers p = some tmr) (hlt : x.addr < s.nextApp)
    (hfresh : ∀ n ∈ s.nodes, n.addr ≠ x.addr) (harm : calcAndPlace b s x = some s') :
    s'.clk = s.clk ∧ Linked s' ∧ PlacedFrom b s (some tmr.rmt) s' := by
  obtain ⟨p', tmr', mid, hp', htmr', hfind, rfl⟩ := calcAndPlace_cases hzero harm
  obtain rfl : p = p' := Option.some.inj (hp.symm.trans hp')
  obtain rfl : tmr = tmr' := Option.some.inj (htmr.symm.trans htmr')
  rcases findTmrSlotAndPlace_cases hfind with ⟨-, rfl⟩ | ⟨q, p', tmr', hq, hp', htmr', rfl⟩
  · exact ⟨rfl, hl.of_eq rfl le_rfl, fun n hn => .inl hn⟩
  · have hset : Linked (s.setTimer p { tmr with exp := tmr.rmt + s.clk.tick }) :=
      hl.of_eq rfl le_rfl
    have hatt := linked_attach (x := { x with ctime := packCtime b tmr.rmt }) (p := p')
      (t := tmr') (q := q) hset hlt hfresh
    refine ⟨rfl, hatt.of_eq rfl le_rfl, fun n hn => ?_⟩
    replace hn : n ∈ (⟨x.addr, x.timer, q⟩ : Node) ::ₘ s.nodes := by
      rw [← setTimer_nodes, ← nodes_attach hq]
      exact hn
    rcases Multiset.mem_cons.mp hn with rfl | hn
    · exact .inr ⟨tmr.rmt, rfl, hq⟩
    · exact .inl hn

theorem Linked.of_exec {b : Build} {s s' : TmrState} {c : Call} (hl : Linked s)
    (hexec : c.exec b s = some s') :
    s'.clk = s.clk ∧ Linked s' ∧ PlacedFrom b s (c.armTicks b) s' := by
  have hstop {p : TimerId} (h : stopTimer s p = some s') :
      s'.clk = s.clk ∧ Linked s' ∧ PlacedFrom b s none s' := by
    obtain ⟨tmr, w, a, r, -, -, -, hr, rfl⟩ := stopTimer_cases h
    obtain ⟨x, hx, rfl, -⟩ := exists_of_timerDel (w := w) hr
    refine ⟨rfl, (hl.setRoot_timerDel hr).of_eq rfl le_rfl, PlacedFrom.of_nodes ?_⟩
    rw [hl.timerDel_eq hx hr]
    exact Multiset.le_cons_self _ _
  cases c with
  | startTimer ticks data handler flags timerOk appOk =>
      obtain ⟨⟨r, res⟩, hstart, rfl⟩ := Option.map_eq_some_iff.mp hexec
      rcases startTimer_cases hstart with ⟨-, -, i, rfl | rfl⟩ | ⟨-, -, harm⟩
      · exact ⟨rfl, hl.of_eq rfl le_rfl, PlacedFrom.of_nodes le_rfl⟩
      · exact ⟨rfl, hl.of_eq rfl le_rfl, PlacedFrom.of_nodes le_rfl⟩
      · have hgrow : Linked (s.grow (s.indx + 1) (some (s.newTimer ticks data handler flags)) 1) :=
          hl.of_eq rfl (Nat.le_add_right _ _)
        have harmed := calcAndPlace_linked (x := { addr := s.nextApp, timer := some s.nextTimer })
          hgrow rfl rfl (Function.update_self ..) (Nat.lt_succ_self _) (addr_ne_nextApp hl) harm
        exact harmed
  | setupTimer handler data timerOk =>
      cases hexec
      obtain ⟨i, hs' | ⟨t, -, -, -, hs'⟩⟩ := setupTimer_cases s handler data timerOk
      · rw [hs']
        exact ⟨rfl, hl.of_eq rfl le_rfl, PlacedFrom.of_nodes le_rfl⟩
      · rw [hs']
        exact ⟨rfl, hl.of_eq rfl (Nat.le_add_right _ _), PlacedFrom.of_nodes le_rfl⟩
  | modTimer p secs appOk =>
      rcases modTimer_cases hexec with rfl | ⟨q, t, -, -, harm⟩
      · exact ⟨rfl, hl, PlacedFrom.of_nodes le_rfl⟩
      · have hset : Linked (TmrState.setTimer { s with nextApp := s.nextApp + 1 } q
            { t with rmt := secs * tmGetTicksPerSecond b, apptimer := some s.nextApp }) :=
          hl.of_eq rfl (Nat.le_succ _)
        have harmed := calcAndPlace_linked (x := { addr := s.nextApp, timer := some q }) hset rfl
          rfl (setTimer_timers_self ..) (Nat.lt_succ_self _) (addr_ne_nextApp hl) harm
        exact harmed
  | timerRestart p appOk =>
      rw [timerRestart_cases hexec]
      exact ⟨rfl, hl, PlacedFrom.of_nodes le_rfl⟩
  | stopTimer p => exact hstop hexec
  | delTimer p =>
      rcases delTimer_cases hexec with rfl | h
      · exact ⟨rfl, hl, PlacedFrom.of_nodes le_rfl⟩
      · exact hstop h

/-- The clock that a step leaves behind. -/
def Op.clkNext (b : Build) (c : Clk) : Op → Clk
  | .tick => c.advance b
  | _ => c

theorem Linked.of_updateTimes {b : Build} {s s' : TmrState} (hl : Linked s)
    (h : updateTimes b s = some s') : s'.clk = s.clk.advance b ∧ Linked s' := by
  have hclk : Linked { s with clk := s.clk.advance b } := hl.of_eq rfl le_rfl
  rcases updateTimes_cases h with ⟨-, rfl⟩ | ⟨-, rfl⟩ | ⟨r, -, hproc, rfl⟩
  · exact ⟨rfl, hclk⟩
  · exact ⟨rfl, hl.of_eq rfl le_rfl⟩
  · obtain ⟨hclk', hl'⟩ := tmProcess_linked hclk hproc
    exact ⟨hclk', hl'.of_eq rfl le_rfl⟩

/-- Only a tick moves the clock, and every step keeps the trees in order. -/
theorem Linked.of_step {b : Build} {s s' : TmrState} {op : Op} (hl : Linked s)
    (h : step b s op = some s') : s'.clk = op.clkNext b s.clk ∧ Linked s' := by
  cases op with
  | call c =>
      obtain ⟨hclk, hl', -⟩ := hl.of_exec h
      exact ⟨hclk, hl'⟩
  | tick => exact hl.of_updateTimes h
  | bottomHalf =>
      rcases step_bottomHalf_cases h with ⟨-, r, hproc, rfl⟩ | ⟨-, rfl⟩
      · obtain ⟨hclk, hl'⟩ := tmProcess_linked hl hproc
        exact ⟨hclk, hl'.of_eq rfl le_rfl⟩
      · exact ⟨rfl, hl.of_eq rfl le_rfl⟩
  | finishExpd appOk =>
      obtain ⟨x, rest, p, tmr, -, -, -, rfl | rfl⟩ := finishExpd_cases h
      · exact ⟨rfl, hl.of_eq rfl le_rfl⟩
      · exact ⟨rfl, hl.of_eq rfl le_rfl⟩

theorem linked_init : Linked initTimerMgr :=
  ⟨fun _ => List.Pairwise.nil, Multiset.nodup_zero, fun n hn => absurd hn (Multiset.notMem_zero n)⟩

/-- Without timers a tick only moves the clock. -/
theorem run_ticks_idle (b : Build) (c : Clk) (n : Nat) :
    PartialSteps.run (step b) { initTimerMgr with clk := c } (List.replicate n .tick) =
      some { initTimerMgr with clk := c.after b n } := by
  induction n generalizing c with
  | zero => rfl
  | succ n ih =>
      rw [List.replicate_succ, PartialSteps.run_cons]
      refine ⟨{ initTimerMgr with clk := c.advance b }, rfl, ?_⟩
      rw [Clk.after_succ]
      exact ih (c.advance b)

end Timers
end TmULThreads
