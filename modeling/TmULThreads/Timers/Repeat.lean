import TmULThreads.Timers.Expiry
import TmULThreads.Timers.References

/-!
# Repeating timers

`process_expd_timers` arms a timer with `TIMER_REPEAT` again by calling
`timer_restart`, which hands a new node to `calc_time` without having set its field
`timer`.  Once the node has been allocated, the re-arming has no defined outcome, and if
it cannot be allocated the timer stays unarmed.

`repeats_iff` states what is left: for every period, in both builds, a repeating timer is
armed again after each of its first `k` expiries only if `k` is zero.  That a timer of
any period does expire is shown on a run in which every tick is served at once
(`exists_rounds`).
-/

namespace TmULThreads
namespace Timers

/-! ## The property -/

/-- The timer is armed for `d` ticks from now on, and its handle leads to its node. -/
def ArmedFor (b : Build) (s : TmrState) (p : TimerId) (d : U32) : Prop :=
  ∃ t n, s.timers p = some t ∧ n ∈ s.nodes ∧ n.timer = some p ∧
    place s.clk (packCtime b d) = some n.pending ∧ t.isRunning = true ∧
    t.wheel = some n.pending.wheel ∧ t.apptimer = some n.addr

/-- If the handler of `p` is the one that has just been called, the clean-up that follows
arms the timer again. -/
def Rearms (b : Build) (s : TmrState) (p : TimerId) (d : U32) : Prop :=
  ∀ x rest, s.expdTmrs = x :: rest → x.timer = some p →
    ∃ s', finishExpd b s true = some s' ∧ ArmedFor b s' p d

/-- The step is the clean-up of an entry of the timer `p`. -/
def Op.serves (s : TmrState) (p : TimerId) : Op → Bool
  | .finishExpd _ => s.expdTmrs.head?.bind AppTimer.timer = some p
  | .call _ | .tick | .bottomHalf => false

/-- How many expiries of the timer `p` a run has dealt with. -/
def served (b : Build) (p : TimerId) : TmrState → List Op → Nat
  | _, [] => 0
  | s, op :: ops =>
      (if op.serves s p then 1 else 0) +
        match step b s op with
        | none => 0
        | some s' => served b p s' ops

/-- Whatever the program does besides, a timer started with `TIMER_REPEAT` that no call is
aimed at is armed again after each of its first `k` expiries. -/
def Repeats (b : Build) (d : U32) (k : Nat) : Prop :=
  ∀ before s data handler s₁ p ops s₂,
    PartialSteps.run (step b) initTimerMgr before = some s →
    startTimer b s d data handler timerRepeat true true = some (s₁, some p) →
    PartialSteps.run (step b) s₁ ops = some s₂ → (∀ op ∈ ops, op.target ≠ some p) →
    served b p s₁ ops < k → Rearms b s₂ p d

/-! ## The re-arming -/

/-- `calc_time` dereferences the `timer` field that `timer_restart` has left `NULL`. -/
theorem timerRestart_eq_none (b : Build) (s : TmrState) (p : TimerId) :
    timerRestart b s (some p) true = none := by
  simp only [timerRestart, allocAppTimer, not_true_eq_false, if_false, calcAndPlace, calcTime,
    Option.bind_eq_bind, Option.bind_none]

theorem finishExpd_repeat {b : Build} {s : TmrState} {x : AppTimer} {rest : List AppTimer}
    {p : TimerId} {l : Label} (hlist : s.expdTmrs = x :: rest) (hp : x.timer = some p)
    (hl : s.label p = some l) (hflags : l.flags = timerRepeat) :
    finishExpd b s true = none := by
  obtain ⟨tmr, htmr, rfl⟩ := Option.map_eq_some_iff.mp hl
  replace hflags : tmr.flags = timerRepeat := hflags
  simp only [finishExpd, hlist, hp, htmr, hflags, Option.bind_eq_bind, Option.bind_some]
  rw [if_neg (by decide), if_pos (by decide)]
  exact timerRestart_eq_none b _ p

/-! ## Ticks that are served at once -/

/-- A step that is taken by no program. -/
def Op.Timing (op : Op) : Prop := op = .tick ∨ op = .bottomHalf

theorem Op.Timing.target {op : Op} (h : op.Timing) : op.target = none := by
  rcases h with rfl | rfl
  · rfl
  · rfl

theorem served_of_timing {b : Build} {p : TimerId} {s : TmrState} {ops : List Op}
    (h : ∀ op ∈ ops, op.Timing) : served b p s ops = 0 := by
  induction ops generalizing s with
  | nil => rfl
  | cons op ops ih =>
      have hrest {s' : TmrState} : served b p s' ops = 0 :=
        ih fun op' hop' => h op' (List.mem_cons_of_mem op hop')
      have hnone : op.serves s p = false := by
        rcases h op List.mem_cons_self with rfl | rfl
        · rfl
        · rfl
      unfold served
      rw [hnone]
      cases step b s op with
      | none => rfl
      | some s' =>
          show 0 + served b p s' ops = 0
          rw [hrest]

/-- In either build there is a way to let every node take its step for the next tick. -/
theorem exists_round (b : Build) {s : TmrState} (h : Coherent s) (hc : Counted s) :
    ∃ ops s', PartialSteps.run (step b) s ops = some s' ∧ (∀ op ∈ ops, op.Timing) ∧
      Keeps s s' ∧ Coherent s' ∧ Counted s' ∧
      s'.nodes = s.nodes.filterMap (Node.step b s'.clk) ∧
      Scanned { s with clk := s.clk.advance b } s' := by
  cases b with
  | normal =>
      obtain ⟨s', htick⟩ := exists_updateTimes_normal h
      refine ⟨[Op.tick], s', (PartialSteps.run_cons _).mpr ⟨s', htick, rfl⟩, ?_,
        keeps_updateTimes htick, updateTimes_normal h hc htick⟩
      exact fun op hop => .inl (List.mem_singleton.mp hop)
  | sfs =>
      let moved : TmrState := { s with clk := s.clk.advance .sfs }
      have hclk : Coherent moved := h.of_eq rfl rfl rfl rfl le_rfl
      have hmoved : Keeps s moved := keeps_of_eq rfl rfl rfl rfl
      by_cases hpend : timersPendingForService .sfs moved = true
      · -- the tick asks for the soft irq, which does the work
        have htick : step .sfs s .tick = some { moved with raised := true } := if_pos hpend
        have hraised : Coherent { moved with raised := true } := hclk.of_eq rfl rfl rfl rfl le_rfl
        obtain ⟨r, hproc⟩ := hraised.exists_tmProcess .sfs
        have hbh : step .sfs { moved with raised := true } .bottomHalf =
            some { r.1 with raised := false } := by
          simp only [step, if_true, hproc, Option.map_some]
        obtain ⟨hnodes, hcoh, hscan, hcount⟩ := hraised.tmProcess_nodes hproc
        refine ⟨[Op.tick, Op.bottomHalf], { r.1 with raised := false }, ?_, ?_, ?_,
          hcoh.of_eq rfl rfl rfl rfl le_rfl, hcount hc, ?_, ?_⟩
        · exact (PartialSteps.run_cons _).mpr
            ⟨_, htick, (PartialSteps.run_cons _).mpr ⟨_, hbh, rfl⟩⟩
        · intro op hop
          simpa [Op.Timing] using hop
        · exact (keeps_updateTimes htick).trans (keeps_bottomHalf hbh)
        · rw [show r.1.clk = s.clk.advance .sfs from hscan.clk]
          exact hnodes
        · exact ⟨hscan.clk, hscan.nextTimer, hscan.expdTmrs, hscan.owners, hscan.exp⟩
      · have htick : step .sfs s .tick = some moved := if_neg hpend
        refine ⟨[Op.tick], moved, (PartialSteps.run_cons _).mpr ⟨moved, htick, rfl⟩, ?_, hmoved,
          hclk, hc, ?_, Scanned.refl _⟩
        · exact fun op hop => .inl (List.mem_singleton.mp hop)
        · exact (filterMap_eq_self
            (step_of_not_pending (s := moved) hc (Bool.eq_false_iff.mpr hpend))).symm

/-- The timer `p` is the only one there is, and its node is where its automaton is after
`k` ticks. -/
structure Alone (b : Build) (c : Clk) (p : TimerId) (a : AppId) (q : Pending) (k : Nat)
    (s : TmrState) : Prop where
  coherent : Coherent s
  counted : Counted s
  clk : s.clk = c.after b k
  nodes : s.nodes = ((q.after b c k).map fun r => {⟨a, some p, r⟩}).getD 0
  owners : s.owners = {some p}

theorem exists_rounds {b : Build} {c : Clk} {p : TimerId} {a : AppId} {q : Pending}
    {s : TmrState} (h : Alone b c p a q 0 s) (k : Nat) :
    ∃ ops s', PartialSteps.run (step b) s ops = some s' ∧ (∀ op ∈ ops, op.Timing) ∧
      Keeps s s' ∧ Alone b c p a q k s' := by
  induction k with
  | zero => exact ⟨[], s, rfl, nofun, Keeps.refl s, h⟩
  | succ k ih =>
      obtain ⟨ops, mid, hrun, hops, hkeeps, halone⟩ := ih
      obtain ⟨more, s', hrun', hmore, hkeeps', hcoh, hcount, hnodes, hscan⟩ :=
        exists_round b halone.coherent halone.counted
      have hclk : s'.clk = c.after b (k + 1) := by
        rw [hscan.clk]
        exact congrArg (Clk.advance b) halone.clk
      refine ⟨ops ++ more, s', (PartialSteps.run_append _).mpr ⟨mid, hrun, hrun'⟩, ?_,
        hkeeps.trans hkeeps', hcoh, hcount, hclk, ?_, hscan.owners.trans halone.owners⟩
      · intro op hop
        exact (List.mem_append.mp hop).elim (hops op) (hmore op)
      · rw [hnodes, halone.nodes, hclk, Pending.after]
        exact filterMap_step_map_getD b _ a p _

/-- When the automaton has ended, the timer is the one entry of the list. -/
theorem Alone.expdTmrs {b : Build} {c : Clk} {p : TimerId} {a : AppId} {q : Pending} {k : Nat}
    {s : TmrState} (h : Alone b c p a q k s) (hnone : q.after b c k = none) :
    ∃ x, s.expdTmrs = [x] ∧ x.timer = some p := by
  have howners := h.owners
  have hzero : s.nodes = 0 := by
    rw [h.nodes, hnone]
    rfl
  rw [TmrState.owners, hzero, Multiset.map_zero, zero_add, Multiset.coe_eq_singleton,
    List.map_eq_singleton_iff] at howners
  exact howners

/-! ## The first expiry -/

/-- The first timer of a program is alone. -/
theorem alone_of_start (b : Build) {d : U32} (handler : Option Nat) {q : Pending}
    (hq : place Clk.zero (packCtime b d) = some q) :
    ∃ s₁, startTimer b initTimerMgr d 0 handler timerRepeat true true = some (s₁, some 0) ∧
      Alone b Clk.zero 0 0 q 0 s₁ ∧ s₁.label 0 = some ⟨handler, 0, timerRepeat⟩ := by
  obtain ⟨⟨s₁, res⟩, hstart⟩ := Option.isSome_iff_exists.mp
    (startTimer_isSome b initTimerMgr d 0 handler timerRepeat true true)
  have hstarts : initTimerMgr.Starts true true := by decide
  have hres : res = some 0 := by
    rcases startTimer_cases hstart with ⟨-, hfail, -⟩ | ⟨hres, -⟩
    · exact absurd hstarts hfail
    · exact hres
  subst hres
  obtain ⟨hnodes, hexpd, hclk, -, t, ht, -, hlabel⟩ := startTimer_armed hstart hq
  refine ⟨s₁, hstart, ⟨coherent_init.of_startTimer hstart, ?_, hclk, hnodes, ?_⟩, ?_⟩
  · exact (startTimer_effect hstart).2.2 (Nat.le_refl 0)
  · rw [TmrState.owners, hnodes, hexpd]
    rfl
  · unfold TmrState.label
    rw [ht, Option.map_some, hlabel]
    rfl

/-- A timer of any period does expire, and then cannot be armed again. -/
theorem exists_first_expiry (b : Build) {d : U32} (handler : Option Nat) (hpos : 0 < d.toNat)
    (hd : d.toNat < maxTicks b) :
    ∃ s₁ ops s₂ x, startTimer b initTimerMgr d 0 handler timerRepeat true true =
        some (s₁, some 0) ∧
      PartialSteps.run (step b) s₁ ops = some s₂ ∧ (∀ op ∈ ops, op.Timing) ∧
      s₂.expdTmrs = [x] ∧ x.timer = some 0 ∧ finishExpd b s₂ true = none := by
  obtain ⟨q, hq⟩ := exists_arm b Clk.zero hpos hd
  obtain ⟨s₁, hstart, halone, hlabel⟩ := alone_of_start b handler hq
  have hexp := expiresAt_firstLap (n := 0) hq hd (by rw [Nat.zero_add]; exact d.isLt)
  rw [Nat.zero_mod, Nat.sub_zero] at hexp
  obtain ⟨k, hk⟩ : ∃ k, d.toNat = k + 1 := ⟨d.toNat - 1, by omega⟩
  rw [hk, Pending.expiresAt_succ_iff] at hexp
  obtain ⟨ops, s₂, hrun, hops, hkeeps, halone₂⟩ := exists_rounds halone (k + 1)
  obtain ⟨x, hlist, hx⟩ := halone₂.expdTmrs hexp.2
  refine ⟨s₁, ops, s₂, x, hstart, hrun, hops, hlist, hx, ?_⟩
  -- the label is the one that `start_timer` has set
  obtain ⟨p, t, hp, ht, -⟩ := halone₂.coherent.expired x (by simp [hlist])
  obtain rfl : 0 = p := Option.some.inj (hx.symm.trans hp)
  have hlabel₂ : s₂.label 0 = some t.label := by
    unfold TmrState.label
    rw [ht, Option.map_some]
  have hsame := hkeeps.label 0 t.label hlabel₂
  rw [hlabel, Option.some.injEq] at hsame
  exact finishExpd_repeat hlist hx hlabel₂ (by rw [← hsame])

/-- For no period is a repeating timer armed again after its first expiry. -/
theorem repeats_iff (b : Build) (d : U32) (k : Nat) (hpos : 0 < d.toNat)
    (hd : d.toNat < maxTicks b) : Repeats b d k ↔ k = 0 := by
  constructor
  · intro hrep
    by_contra hk
    obtain ⟨s₁, ops, s₂, x, hstart, hrun, hops, hlist, hx, hnone⟩ :=
      exists_first_expiry b none hpos hd
    have htarget : ∀ op ∈ ops, op.target ≠ some 0 := by
      intro op hop
      rw [(hops op hop).target]
      exact nofun
    have hserved : served b 0 s₁ ops < k := by
      rw [served_of_timing hops]
      omega
    obtain ⟨s', hfin, -⟩ := hrep [] initTimerMgr 0 none s₁ 0 ops s₂ rfl hstart hrun htarget
      hserved x [] hlist hx
    cases hnone.symm.trans hfin
  · rintro rfl before s data handler s₁ p ops s₂ - - - - hlt
    omega

theorem repeats_no_expiry : Repeats .normal 1 0 :=
  (repeats_iff .normal 1 0 (by decide) (by decide)).mpr rfl

/-- The shortest period: the clean-up after the first call of the handler has no defined
outcome, and without a node the timer stays unarmed. -/
theorem not_repeats_one_tick :
    ∃ s₁ s₂, startTimer .normal initTimerMgr 1 0 (some 5) timerRepeat true true =
        some (s₁, some 0) ∧
      PartialSteps.run (step .normal) s₁ [Op.tick, Op.bottomHalf] = some s₂ ∧
      s₂.expdTmrs.map AppTimer.timer = [some 0] ∧ finishExpd .normal s₂ true = none ∧
      (∀ s', finishExpd .normal s₂ false = some s' → ¬ ArmedFor .normal s' 0 1) ∧
      ¬ Repeats .normal 1 1 := by
  refine ⟨_, _, rfl, rfl, rfl, rfl, ?_, ?_⟩
  · intro s' hfin harmed
    cases hfin
    obtain ⟨t, n, ht, -, -, -, hrun, -⟩ := harmed
    cases ht
    cases hrun
  · intro hrep
    obtain ⟨s', hfin, -⟩ := hrep [] initTimerMgr 0 (some 5) _ 0 [Op.tick, Op.bottomHalf] _ rfl rfl
      rfl (by decide) (by decide) _ _ rfl rfl
    cases hfin

end Timers
end TmULThreads
