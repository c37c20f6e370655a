import TmULThreads.Timers.Steps

/-!
# Deferred service

In the SFS build a tick only raises the soft irq, and the wheels are scanned
later, when the bottom half gets to run.  The scan looks for nodes whose `rt`
equals the clock at that moment, so a node whose value went by in the meantime
is not found any more.

Before the tick counter wraps, no node is left behind as long as every tick
finds the trees serviced: it is not taken while some node waits for the present
value of its counter (`ahead_after_pass`).  Two ticks before one pass are enough
to lose a timer (`overdue_after_delayed_pass`).
-/

namespace TmULThreads
namespace Timers

open RedBlackTree

/-- The counter has not reached the value that the node waits for. -/
def Node.Ahead (c : Clk) (n : Node) : Prop :=
  (c.get n.pending.wheel).toNat < n.pending.rt.toNat

/-- The node is met by a scan that runs now. -/
def Node.Ready (b : Build) (c : Clk) (n : Node) : Prop :=
  n.pending.rt = c.get n.pending.wheel ∧ serviced b c n.pending.wheel = true

/-- A tick is taken only when no node waits for the present value of its
counter, and no value that a node is placed at wraps to zero. -/
def Prompt (s : TmrState) : Op → Prop
  | .tick => ∀ n ∈ s.nodes, n.pending.rt ≠ s.clk.get n.pending.wheel
  | .call c => ∀ d, c.armTicks .sfs = some d → s.clk.tick.toNat + d.toNat % tps .sfs < 2 ^ 32
  | .bottomHalf => ∀ n ∈ s.nodes, n.pending.rt = s.clk.get n.pending.wheel →
      s.clk.tick.toNat + field .tick n.pending.ctime < 2 ^ 32
  | .finishExpd _ => True

/-! ## The clock before its first wrap -/

theorem get_clkAfter_le (b : Build) {k : Nat} (hk : k < 2 ^ 32) (w : Wheel) :
    ((clkAfter b k).get w).toNat ≤ k ∧
      (w ≠ .tick → ((clkAfter b k).get w).toNat + 1024 < 2 ^ 32) := by
  obtain ⟨htick, hsec, hmin, hhrs⟩ := clkAfter_toNat b k hk
  have htps := tps_cases b
  cases w with
  | tick => exact ⟨htick.le, fun h => absurd rfl h⟩
  | sec =>
      simp only [Clk.get, hsec]
      rcases htps with h | h <;> rw [h] <;> exact ⟨by omega, fun _ => by omega⟩
  | min =>
      simp only [Clk.get, hmin]
      rcases htps with h | h <;> rw [h] <;> exact ⟨by omega, fun _ => by omega⟩
  | hrs =>
      simp only [Clk.get, hhrs]
      rcases htps with h | h <;> rw [h] <;> exact ⟨by omega, fun _ => by omega⟩

/-- Where a boundary has been passed, the finer counters are not zero. -/
theorem serviced_of_boundary (b : Build) {k : Nat} (hk : k + 1 < 2 ^ 32) {w : Wheel}
    (h : boundary b (clkAfter b k) w) : serviced b (clkAfter b (k + 1)) w = true := by
  obtain ⟨htick, hsec, hmin, -⟩ := clkAfter_toNat b (k + 1) hk
  obtain ⟨htick', hsec', hmin', -⟩ := clkAfter_toNat b k (by omega)
  have htps := tps_cases b
  refine (serviced_advance_iff b (clkAfter b k) w).mpr ⟨h, fun hr => ?_, fun hr => ?_⟩
  · have hb : MinBoundary b (clkAfter b k) := boundary_mono (w := w) (v := .min) hr h
    have hsb := hb.1
    unfold SecBoundary at hsb
    rw [htick', Nat.mod_eq_of_lt hk] at hsb
    show (clkAfter b (k + 1)).sec.toNat ≠ 0
    rw [hsec]
    rcases htps with h | h <;> rw [h] at hsb ⊢ <;> omega
  · have hb : HrBoundary b (clkAfter b k) := boundary_mono (w := w) (v := .hrs) hr h
    have hsb := hb.1.1
    have hmb := hb.1.2
    unfold SecBoundary at hsb
    rw [htick', Nat.mod_eq_of_lt hk] at hsb
    have hfit : k / tps b + 1 < 2 ^ 32 := by rcases htps with h | h <;> rw [h] <;> omega
    rw [hsec', Nat.mod_eq_of_lt hfit] at hmb
    show (clkAfter b (k + 1)).min.toNat ≠ 0
    rw [hmin]
    rcases htps with h | h <;> rw [h] at hsb hmb ⊢ <;> omega

/-- A counter that a tick has moved is scanned by the next pass. -/
theorem get_clkAfter_succ (b : Build) {k : Nat} (hk : k + 1 < 2 ^ 32) (w : Wheel) :
    (clkAfter b (k + 1)).get w = (clkAfter b k).get w ∨
      (((clkAfter b (k + 1)).get w).toNat = ((clkAfter b k).get w).toNat + 1 ∧
        serviced b (clkAfter b (k + 1)) w = true) := by
  by_cases h : boundary b (clkAfter b k) w
  · right
    refine ⟨?_, serviced_of_boundary b hk h⟩
    have hle := (get_clkAfter_le b (show k < 2 ^ 32 by omega) w).1
    show ((Clk.advance b (clkAfter b k)).get w).toNat = _
    rw [get_advance_of_boundary h, BitVec.toNat_add]
    exact Nat.mod_eq_of_lt (show _ + 1 < 2 ^ 32 by omega)
  · exact .inl (get_advance_of_not_boundary h)

/-- A node placed before the wrap is ahead of its counter. -/
theorem ahead_of_place {b : Build} {k : Nat} (hk : k < 2 ^ 32) {ct : U32} {q : Pending}
    (h : place (clkAfter b k) ct = some q)
    (hfit : (clkAfter b k).tick.toNat + field .tick ct < 2 ^ 32) (a : AppId)
    (t : Option TimerId) : Node.Ahead (clkAfter b k) ⟨a, t, q⟩ := by
  obtain ⟨-, hgap, hne, -⟩ := place_eq_some h
  have hlt := field_lt q.wheel ct
  have hroom : ((clkAfter b k).get q.wheel).toNat + field q.wheel ct < 2 ^ 32 := by
    by_cases hw : q.wheel = .tick
    · rw [hw]
      exact hfit
    · have := (get_clkAfter_le b hk q.wheel).2 hw
      omega
  show ((clkAfter b k).get q.wheel).toNat < q.rt.toNat
  have hrt : q.rt = (clkAfter b k).get q.wheel + (q.rt - (clkAfter b k).get q.wheel) := by
    rw [BitVec.add_comm, BitVec.sub_add_cancel]
  have hsum : q.rt.toNat = ((clkAfter b k).get q.wheel).toNat + field q.wheel ct := by
    rw [hrt, BitVec.toNat_add, show (q.rt - (clkAfter b k).get q.wheel).toNat = _ from hgap]
    exact Nat.mod_eq_of_lt hroom
  omega

/-! ## One pass -/

/-- The node is ahead, or the pass will meet it and can place it again. -/
def Node.Kept (b : Build) (c : Clk) (n : Node) : Prop :=
  n.Ahead c ∨ (n.Ready b c ∧ c.tick.toNat + field .tick n.pending.ctime < 2 ^ 32)

theorem field_tick_clearWheel_le (w : Wheel) (ct : U32) :
    field .tick (clearWheel w ct) ≤ field .tick ct := by
  rw [field_clearWheel]
  split
  · exact Nat.zero_le _
  · exact le_rfl

/-- No node of the wheel would be met by a scan that runs now. -/
def NoneReady (b : Build) (s : TmrState) (w : Wheel) : Prop :=
  ∀ n ∈ s.nodes, n.Ready b s.clk → n.pending.wheel ≠ w

/-- The scan of one wheel leaves no node of it ready, and makes no node of
another wheel ready. -/
theorem passWheel_kept {b : Build} {k : Nat} (hk : k < 2 ^ 32) {s s' : TmrState} {w : Wheel}
    (hl : Linked s) (hclk : s.clk = clkAfter b k) (hkept : ∀ n ∈ s.nodes, n.Kept b s.clk)
    (hpass : passWheel b s w = some s') :
    s'.clk = clkAfter b k ∧ Linked s' ∧ (∀ n ∈ s'.nodes, n.Kept b s'.clk) ∧
      NoneReady b s' w ∧ ∀ v, NoneReady b s v → NoneReady b s' v := by
  unfold passWheel at hpass
  split at hpass
  · obtain ⟨⟨last, j⟩, hproc, rfl⟩ := Option.map_eq_some_iff.mp hpass
    have hnone := processTimers_exhausts hl hproc
    obtain ⟨hlclk, hll, hlkept, hlready⟩ : last.clk = clkAfter b k ∧ Linked last ∧
        (∀ n ∈ last.nodes, n.Kept b last.clk) ∧ ∀ v, NoneReady b s v → NoneReady b last v := by
      refine processTimersLoop_invariant
        (I := fun m => m.clk = clkAfter b k ∧ Linked m ∧ (∀ n ∈ m.nodes, n.Kept b m.clk) ∧
          ∀ v, NoneReady b s v → NoneReady b m v) ?_ ⟨hclk, hl, hkept, fun _ => id⟩ hproc
      rintro m x next ⟨hmclk, hml, hmkept, hmready⟩ hx hrt hone
      obtain ⟨hnclk, hnl, rest, v, hnodes, hcase⟩ := processOne_nodes hml hx hone
      have hrest {n : Node} (hn : n ∈ rest) : n ∈ m.nodes := by
        rw [hnodes]
        exact Multiset.mem_cons_of_mem hn
      refine ⟨hnclk.trans hmclk, hnl, ?_⟩
      unfold NoneReady at hmready ⊢
      rw [hnclk]
      rcases hcase with ⟨-, hnew, -⟩ | ⟨q, hq, hnew, -⟩
      · rw [hnew]
        exact ⟨fun n hn => hmkept n (hrest hn), fun u hu n hn => hmready u hu n (hrest hn)⟩
      · rw [hnew]
        -- the node of this turn was ready, so its new value does not wrap
        have hfit : m.clk.tick.toNat + field .tick (clearWheel v x.ctime) < 2 ^ 32 := by
          have hle := field_tick_clearWheel_le v x.ctime
          rcases hmkept _ (node_mem_nodes hx) with hahead | ⟨-, hfit⟩
          · have hlt : (m.clk.get w).toNat < x.rt.toNat := hahead
            rw [hrt, hmclk, hclk] at hlt
            omega
          · have hfit' : m.clk.tick.toNat + field .tick x.ctime < 2 ^ 32 := hfit
            omega
        have hahead : Node.Ahead m.clk ⟨x.addr, x.timer, q⟩ := by
          rw [hmclk] at hq hfit ⊢
          exact ahead_of_place hk hq hfit x.addr x.timer
        constructor
        · intro n hn
          rcases Multiset.mem_cons.mp hn with rfl | hn
          · exact .inl hahead
          · exact hmkept n (hrest hn)
        · intro u hu n hn hready hw
          rcases Multiset.mem_cons.mp hn with rfl | hn
          · exact not_hit_of_place hq x.addr x.timer u ⟨hw, hw ▸ hready.1⟩
          · exact hmready u hu n (hrest hn) hready hw
    refine ⟨hlclk, hll, hlkept, fun n hn hready hw => ?_, hlready⟩
    refine hnone n hn ⟨hw, ?_⟩
    rw [hready.1, hw, hlclk, hclk]
  · rename_i hserv
    cases hpass
    exact ⟨hclk, hl, hkept, fun n _ hready hw => hserv (hw ▸ hready.2), fun _ => id⟩

/-- A pass leaves every node ahead of its counter. -/
theorem tmProcess_ahead {b : Build} {k : Nat} (hk : k < 2 ^ 32) {s : TmrState}
    {r : TmrState × Nat} (hl : Linked s) (hclk : s.clk = clkAfter b k)
    (hkept : ∀ n ∈ s.nodes, n.Kept b s.clk)
    (hproc : tmProcessTickAndUpdateTimers b s = some r) :
    r.1.clk = clkAfter b k ∧ Linked r.1 ∧ ∀ n ∈ r.1.nodes, n.Ahead r.1.clk := by
  have hrun := tmProcess_eq_run (b := b) hl
  rw [hproc, eq_comm, wheels] at hrun
  simp only [PartialSteps.run_cons, PartialSteps.run_nil, Option.map_some,
    Option.some.injEq] at hrun
  obtain ⟨s₁, htick, s₂, hsec, s₃, hmin, s₄, hhrs, hlast⟩ := hrun
  obtain ⟨hc₁, hl₁, hk₁, hr₁, -⟩ := passWheel_kept hk hl hclk hkept htick
  obtain ⟨hc₂, hl₂, hk₂, hr₂, hkeep₂⟩ := passWheel_kept hk hl₁ hc₁ hk₁ hsec
  obtain ⟨hc₃, hl₃, hk₃, hr₃, hkeep₃⟩ := passWheel_kept hk hl₂ hc₂ hk₂ hmin
  obtain ⟨hc₄, hl₄, hk₄, hr₄, hkeep₄⟩ := passWheel_kept hk hl₃ hc₃ hk₃ hhrs
  have hnone : ∀ w, NoneReady b s₄ w := by
    intro w
    cases w with
    | tick => exact hkeep₄ _ (hkeep₃ _ (hkeep₂ _ hr₁))
    | sec => exact hkeep₄ _ (hkeep₃ _ hr₂)
    | min => exact hkeep₄ _ hr₃
    | hrs => exact hr₄
  rw [← hlast]
  refine ⟨hc₄, hl₄, fun n hn => ?_⟩
  rcases hk₄ n hn with hahead | ⟨hready, -⟩
  · exact hahead
  · exact absurd rfl (hnone _ n hn hready)

/-! ## Runs -/

/-- After `k` ticks, every node is ahead of its counter or will be met by the
next pass. -/
structure Serviceable (k : Nat) (s : TmrState) : Prop where
  linked : Linked s
  clk : s.clk = clkAfter .sfs k
  waiting : ∀ n ∈ s.nodes, n.Ahead s.clk ∨ n.Ready .sfs s.clk

theorem serviceable_init : Serviceable 0 initTimerMgr where
  linked := linked_init
  clk := rfl
  waiting := fun n hn => absurd hn (Multiset.notMem_zero n)

theorem field_tick_packCtime (b : Build) (d : U32) :
    field .tick (packCtime b d) = d.toNat % tps b :=
  (field_packCtime b d).1

/-- A call changes neither the clock nor where the old nodes stand, and adds
only nodes that are ahead. -/
theorem exec_ahead {k : Nat} (hk : k < 2 ^ 32) {s s' : TmrState} {c : Call} (hl : Linked s)
    (hclk : s.clk = clkAfter .sfs k) (hprompt : Prompt s (.call c))
    (hexec : c.exec .sfs s = some s') :
    s'.clk = s.clk ∧ Linked s' ∧ ∀ n ∈ s'.nodes, n ∈ s.nodes ∨ n.Ahead s.clk := by
  obtain ⟨hclk', hl', hfrom⟩ := hl.of_exec hexec
  refine ⟨hclk', hl', fun n hn => ?_⟩
  rcases hfrom n hn with hold | ⟨d, hd, hplace⟩
  · exact .inl hold
  · right
    have hfit := hprompt d hd
    rw [← field_tick_packCtime, hclk] at hfit
    rw [hclk] at hplace ⊢
    exact ahead_of_place hk hplace hfit n.addr n.timer

theorem Serviceable.of_tick {k : Nat} (hk : k + 1 < 2 ^ 32) {s s' : TmrState}
    (h : Serviceable k s) (hprompt : Prompt s .tick) (htick : updateTimes .sfs s = some s') :
    Serviceable (k + 1) s' := by
  have hsame : s'.root = s.root ∧ s'.nextApp = s.nextApp ∧ s'.clk = s.clk.advance .sfs := by
    rcases updateTimes_cases htick with ⟨-, rfl⟩ | ⟨-, rfl⟩ | ⟨r, hb, -⟩
    · exact ⟨rfl, rfl, rfl⟩
    · exact ⟨rfl, rfl, rfl⟩
    · cases hb
  obtain ⟨hroot, happ, hclk⟩ := hsame
  have hnodes : s'.nodes = s.nodes := by simp only [TmrState.nodes, hroot]
  have hclk' : s'.clk = clkAfter .sfs (k + 1) := by
    rw [hclk, h.clk]
    rfl
  refine ⟨h.linked.of_eq hroot happ.ge, hclk', fun n hn => ?_⟩
  rw [hnodes] at hn
  -- nothing was ready before the tick, so the value is reached now or later
  have hlt : ((clkAfter .sfs k).get n.pending.wheel).toNat < n.pending.rt.toNat := by
    rcases h.waiting n hn with hahead | hready
    · rw [h.clk] at hahead
      exact hahead
    · exact absurd hready.1 (hprompt n hn)
  rw [hclk']
  rcases get_clkAfter_succ .sfs hk n.pending.wheel with hstay | ⟨hmove, hserv⟩
  · left
    show ((clkAfter .sfs (k + 1)).get n.pending.wheel).toNat < _
    rwa [hstay]
  · by_cases hnow : n.pending.rt = (clkAfter .sfs (k + 1)).get n.pending.wheel
    · exact .inr ⟨hnow, hserv⟩
    · left
      have hne : n.pending.rt.toNat ≠ ((clkAfter .sfs (k + 1)).get n.pending.wheel).toNat :=
        fun heq => hnow (BitVec.eq_of_toNat_eq heq)
      show ((clkAfter .sfs (k + 1)).get n.pending.wheel).toNat < _
      omega

/-- Under `Prompt`, the deferred pass leaves every node ahead. -/
theorem Serviceable.ahead_of_bottomHalf {k : Nat} (hk : k < 2 ^ 32) {s s' : TmrState}
    (h : Serviceable k s) (hprompt : Prompt s .bottomHalf)
    (hstep : step .sfs s .bottomHalf = some s') :
    s'.clk = clkAfter .sfs k ∧ Linked s' ∧ ∀ n ∈ s'.nodes, n.Ahead s'.clk := by
  have hkept : ∀ n ∈ s.nodes, n.Kept .sfs s.clk := by
    intro n hn
    rcases h.waiting n hn with hahead | hready
    · exact .inl hahead
    · exact .inr ⟨hready, hprompt n hn hready.1⟩
  rcases step_bottomHalf_cases hstep with ⟨-, r, hproc, rfl⟩ | ⟨hb, -⟩
  · obtain ⟨hclk, hl, hahead⟩ := tmProcess_ahead hk h.linked h.clk hkept hproc
    exact ⟨hclk, hl.of_eq rfl le_rfl, hahead⟩
  · cases hb

/-- The ticks that a run has taken. -/
def tickCount (ops : List Op) : Nat :=
  ops.countP fun op => op matches .tick

theorem tickCount_cons (op : Op) (ops : List Op) :
    tickCount (op :: ops) = tickCount [op] + tickCount ops := by
  show tickCount ([op] ++ ops) = _
  exact List.countP_append

theorem Serviceable.of_step {k : Nat} {op : Op} (hk : k + tickCount [op] < 2 ^ 32)
    {s s' : TmrState} (h : Serviceable k s) (hprompt : Prompt s op)
    (hstep : step .sfs s op = some s') : Serviceable (k + tickCount [op]) s' := by
  cases op with
  | call c =>
      obtain ⟨hclk, hl, hnodes⟩ := exec_ahead hk h.linked h.clk hprompt hstep
      refine ⟨hl, hclk.trans h.clk, fun n hn => ?_⟩
      rw [hclk]
      rcases hnodes n hn with hold | hahead
      · exact h.waiting n hold
      · exact .inl hahead
  | tick => exact h.of_tick hk hprompt hstep
  | bottomHalf =>
      obtain ⟨hclk, hl, hahead⟩ := h.ahead_of_bottomHalf hk hprompt hstep
      exact ⟨hl, hclk, fun n hn => .inl (hahead n hn)⟩
  | finishExpd appOk =>
      obtain ⟨x, rest, p, tmr, -, -, -, rfl | rfl⟩ := finishExpd_cases hstep
      · exact ⟨h.linked.of_eq rfl le_rfl, h.clk, h.waiting⟩
      · exact ⟨h.linked.of_eq rfl le_rfl, h.clk, h.waiting⟩

theorem Serviceable.of_run {ops : List Op} {k : Nat} (hk : k + tickCount ops < 2 ^ 32)
    {s s' : TmrState} (h : Serviceable k s) (hprompt : PartialSteps.Meets (step .sfs) Prompt s ops)
    (hrun : PartialSteps.run (step .sfs) s ops = some s') :
    Serviceable (k + tickCount ops) s' := by
  -- the count of ticks grows with the run, so the invariant is indexed by it
  induction ops generalizing k s with
  | nil =>
      cases hrun
      exact h
  | cons op rest ih =>
      obtain ⟨mid, hstep, hrest⟩ := (PartialSteps.run_cons _).mp hrun
      rw [tickCount_cons, ← Nat.add_assoc] at hk ⊢
      refine ih hk (h.of_step ?_ hprompt.1 hstep) (hprompt.2 mid hstep) hrest
      exact (Nat.le_add_right _ _).trans_lt hk

/-- While the tick counter has not wrapped, in every run whose steps are prompt,
a servicing pass leaves no node at a value that its counter has reached. -/
theorem ahead_after_pass (ops : List Op) (s : TmrState) (hwrap : tickCount ops < 2 ^ 32)
    (hprompt : PartialSteps.Meets (step .sfs) Prompt initTimerMgr (ops ++ [.bottomHalf]))
    (hrun : PartialSteps.run (step .sfs) initTimerMgr (ops ++ [.bottomHalf]) = some s) :
    ∀ n ∈ s.nodes, ¬ n.pending.rt ≤ s.clk.get n.pending.wheel := by
  obtain ⟨mid, hmid, hlast⟩ := (PartialSteps.run_append _).mp hrun
  obtain ⟨hfirst, hpass⟩ := PartialSteps.meets_append _ hmid hprompt
  rw [← Nat.zero_add (tickCount ops)] at hwrap
  have hserv := serviceable_init.of_run hwrap hfirst hmid
  obtain ⟨s', hstep, hnil⟩ := (PartialSteps.run_cons _).mp hlast
  cases hnil
  obtain ⟨-, -, hahead⟩ := hserv.ahead_of_bottomHalf hwrap hpass.1 hstep
  exact fun n hn => BitVec.not_le.mpr (hahead n hn)

/-- Of two timers started for one and for three ticks, a pass right after the
first tick leaves the second one, which is still ahead. -/
theorem ahead_after_prompt_pass :
    ∃ s, PartialSteps.run (step .sfs) initTimerMgr
        [.call (.startTimer 1 0 none 0 true true), .call (.startTimer 3 0 none 0 true true),
          .tick, .bottomHalf] = some s ∧ s.nodes.card = 1 ∧
      ∀ n ∈ s.nodes, ¬ n.pending.rt ≤ s.clk.get n.pending.wheel := by
  refine ⟨_, rfl, rfl, ahead_after_pass
    [.call (.startTimer 1 0 none 0 true true), .call (.startTimer 3 0 none 0 true true), .tick]
    _ (by decide) ?_ rfl⟩
  refine .cons rfl ?_ (.cons rfl ?_ (.cons rfl ?_ (.cons rfl ?_ trivial)))
  · rintro d ⟨⟩
    decide
  · rintro d ⟨⟩
    decide
  · show ∀ n ∈ _, _
    decide
  · show ∀ n ∈ _, _
    decide

/-- Two ticks go by before the soft irq runs: the timer of one tick is then
behind the clock and the pass leaves it in its tree. -/
theorem overdue_after_delayed_pass :
    ∃ s, PartialSteps.run (step .sfs) initTimerMgr
        [.call (.startTimer 1 0 none 0 true true), .tick, .tick, .bottomHalf] = some s ∧
      ∃ n ∈ s.nodes, n.pending.rt ≤ s.clk.get n.pending.wheel :=
  ⟨_, rfl, ⟨0, some 0, ⟨.tick, 1, 1⟩⟩, by decide, by decide⟩

end Timers
end TmULThreads
