import TmULThreads.Timers.References
import TmULThreads.Timers.Arming

/-!
# The count of the running timers

`tmrrq.count` is raised by the functions that arm a timer, whatever the placement did,
and lowered where a node leaves the trees for good.  A time of which the time word holds
nothing is counted without a node.  `count_exact_iff` states that this is the only way,
short of a wrap of the counter, in which it goes wrong.

The limit on the number of timers is tested against this counter before it is raised,
by `alloc_timer_id` alone: `start_timer` gets one timer past it, and `mod_timer` any
number.  `nodes_le_max_iff` states when the limit is kept.
-/

namespace TmULThreads
namespace Timers

open RedBlackTree

/-- The ticks for which a call arms a timer, if it gets that far. -/
def Call.arming (b : Build) (s : TmrState) : Call → Option U32
  | .startTimer ticks _ _ _ timerOk appOk => if s.Starts timerOk appOk then some ticks else none
  | .modTimer (some _) secs true => some (secs * tmGetTicksPerSecond b)
  | .modTimer .. | .setupTimer .. | .timerRestart .. | .stopTimer _ | .delTimer _ => none

def Op.arming (b : Build) (s : TmrState) : Op → Option U32
  | .call c => c.arming b s
  | .tick | .bottomHalf | .finishExpd _ => none

/-- Looks at the one number there is: the instance for bit vectors would try them all. -/
def decidableArming (P : U32 → Prop) [DecidablePred P] :
    ∀ o : Option U32, Decidable (∀ d ∈ o, P d)
  | none => isTrue nofun
  | some d => decidable_of_iff (P d) (by simp)

/-! ## Steps that arm nothing -/

/-- Some nodes have left the trees, and have been taken off the count. -/
def Settles (s s' : TmrState) : Prop :=
  ∃ k, s'.nodes.card + k = s.nodes.card ∧ s'.count + BitVec.ofNat 32 k = s.count

theorem settles_of_eq {s s' : TmrState} (hroot : s'.root = s.root) (hcount : s'.count = s.count) :
    Settles s s' := by
  refine ⟨0, ?_, ?_⟩
  · simp only [TmrState.nodes, hroot, Nat.add_zero]
  · rw [hcount]
    exact BitVec.add_zero _

theorem Settles.trans {s mid s' : TmrState} (h : Settles s mid) (h' : Settles mid s') :
    Settles s s' := by
  obtain ⟨j, hj, hjc⟩ := h
  obtain ⟨k, hk, hkc⟩ := h'
  refine ⟨k + j, by omega, ?_⟩
  rw [← hjc, ← hkc, BitVec.ofNat_add, BitVec.add_assoc]

theorem settles_of_cons {s s' : TmrState} {n : Node} (hnodes : s.nodes = n ::ₘ s'.nodes)
    (hcount : s'.count = s.count - 1) : Settles s s' := by
  refine ⟨1, ?_, ?_⟩
  · rw [hnodes, Multiset.card_cons]
  · rw [hcount]
    exact BitVec.sub_add_cancel _ _

theorem settles_processOne {s s' : TmrState} {w : Wheel} {x : AppTimer} (hl : Linked s)
    (hx : x ∈ (s.root w).toList) (h : processOne s w x = some s') : Settles s s' := by
  obtain ⟨-, -, rest, v, hnodes, hcase⟩ := processOne_nodes hl hx h
  rcases hcase with ⟨-, hrest, -, hcount⟩ | ⟨q, -, hput, -, hcount⟩
  · rw [← hrest] at hnodes
    exact settles_of_cons hnodes hcount
  · -- the node has only changed its tree
    refine ⟨0, ?_, ?_⟩
    · rw [hnodes, hput, Multiset.card_cons, Multiset.card_cons, Nat.add_zero]
    · rw [hcount]
      exact BitVec.add_zero _

theorem settles_tmProcess {b : Build} {s : TmrState} {r : TmrState × Nat} (hl : Linked s)
    (h : tmProcessTickAndUpdateTimers b s = some r) : Settles s r.1 := by
  have hboth : Linked r.1 ∧ Settles s r.1 := by
    refine tmProcess_invariant (I := fun m => Linked m ∧ Settles s m) ?_
      ⟨hl, settles_of_eq rfl rfl⟩ h
    rintro w mid x next ⟨hlm, hs⟩ hx hone
    exact ⟨(processOne_nodes hlm hx hone).2.1, hs.trans (settles_processOne hlm hx hone)⟩
  exact hboth.2

theorem settles_stopTimer {s s' : TmrState} {p : TimerId} (hl : Linked s)
    (h : stopTimer s p = some s') : Settles s s' := by
  obtain ⟨tmr, w, a, r, -, -, -, hr, rfl⟩ := stopTimer_cases h
  obtain ⟨x, hx, rfl, -⟩ := exists_of_timerDel (w := w) hr
  exact settles_of_cons (hl.timerDel_eq hx hr) rfl

/-! ## Steps that arm a timer -/

/-- A timer has been armed for `d` ticks, and counted, and it has a node unless the time
word is empty. -/
def Arms (b : Build) (d : U32) (s s' : TmrState) : Prop :=
  s'.count = s.count + 1 ∧
    s'.nodes.card = s.nodes.card + if d.toNat % maxTicks b = 0 then 0 else 1

theorem arms_calcAndPlace {b : Build} (mid : TmrState) {s s' : TmrState} {x : AppTimer}
    {p : TimerId} {tmr : Timer} (hroot : mid.root = s.root) (hcount : mid.count = s.count)
    (hzero : x.ctime = 0) (hp : x.timer = some p) (htmr : mid.timers p = some tmr)
    (h : calcAndPlace b mid x = some s') : Arms b tmr.rmt s s' := by
  have hnodes : mid.nodes = s.nodes := by simp only [TmrState.nodes, hroot]
  obtain ⟨p', tmr', last, hp', htmr', hfind, rfl⟩ := calcAndPlace_cases hzero h
  obtain rfl : p = p' := Option.some.inj (hp.symm.trans hp')
  obtain rfl : tmr = tmr' := Option.some.inj (htmr.symm.trans htmr')
  rcases findTmrSlotAndPlace_cases hfind with ⟨hnone, rfl⟩ | ⟨q, p', tmr', hq, -, -, rfl⟩
  · have hempty := (packCtime_eq_zero_iff b tmr.rmt).mp ((place_eq_none_iff _ _).mp hnone)
    refine ⟨congrArg (· + 1) hcount, ?_⟩
    rw [if_pos hempty, ← hnodes]
    rfl
  · have hfull : tmr.rmt.toNat % maxTicks b ≠ 0 := by
      rw [ne_eq, ← packCtime_eq_zero_iff]
      intro hempty
      have hnone := (place_eq_none_iff mid.clk (packCtime b tmr.rmt)).mpr hempty
      exact Option.some_ne_none q (hq.symm.trans hnone)
    refine ⟨congrArg (· + 1) hcount, ?_⟩
    rw [if_neg hfull, ← hnodes]
    have hcons := nodes_attach (p := p') (t := tmr') hq
    exact (congrArg Multiset.card hcons).trans (Multiset.card_cons _ _)

theorem settles_or_arms_exec {b : Build} {s s' : TmrState} {c : Call} (hl : Linked s)
    (h : c.exec b s = some s') :
    (c.arming b s = none ∧ Settles s s') ∨ ∃ d, c.arming b s = some d ∧ Arms b d s s' := by
  cases c with
  | startTimer ticks data handler flags timerOk appOk =>
      obtain ⟨⟨r, res⟩, hstart, rfl⟩ := Option.map_eq_some_iff.mp h
      rcases startTimer_cases hstart with ⟨-, hfail, i, rfl | rfl⟩ | ⟨-, hstarts, harm⟩
      · exact .inl ⟨if_neg hfail, settles_of_eq rfl rfl⟩
      · exact .inl ⟨if_neg hfail, settles_of_eq rfl rfl⟩
      · refine .inr ⟨ticks, if_pos hstarts, ?_⟩
        let mid := s.grow (s.indx + 1) (some (s.newTimer ticks data handler flags)) 1
        have hnew : mid.timers s.nextTimer = some (s.newTimer ticks data handler flags) :=
          Function.update_self ..
        exact arms_calcAndPlace mid rfl rfl rfl rfl hnew harm
  | setupTimer handler data timerOk =>
      cases h
      obtain ⟨i, hs' | ⟨t, -, -, -, hs'⟩⟩ := setupTimer_cases s handler data timerOk
      · rw [hs']
        exact .inl ⟨rfl, settles_of_eq rfl rfl⟩
      · rw [hs']
        exact .inl ⟨rfl, settles_of_eq rfl rfl⟩
  | modTimer p secs appOk =>
      cases p with
      | none =>
          cases h
          exact .inl ⟨rfl, settles_of_eq rfl rfl⟩
      | some p =>
          cases appOk with
          | false =>
              cases h
              exact .inl ⟨rfl, settles_of_eq rfl rfl⟩
          | true =>
              simp only [Call.exec, modTimer, not_true_eq_false, if_false, allocAppTimer,
                Option.bind_eq_bind, Option.bind_eq_some_iff] at h
              obtain ⟨t, -, harm⟩ := h
              refine .inr ⟨secs * tmGetTicksPerSecond b, rfl, ?_⟩
              let mid := TmrState.setTimer { s with nextApp := s.nextApp + 1 } p
                { t with rmt := secs * tmGetTicksPerSecond b, apptimer := some s.nextApp }
              have hset : mid.timers p = some { t with
                  rmt := secs * tmGetTicksPerSecond b, apptimer := some s.nextApp } :=
                setTimer_timers_self ..
              exact arms_calcAndPlace mid rfl rfl rfl rfl hset harm
  | timerRestart p appOk =>
      rw [timerRestart_cases h]
      exact .inl ⟨rfl, settles_of_eq rfl rfl⟩
  | stopTimer p => exact .inl ⟨rfl, settles_stopTimer hl h⟩
  | delTimer p =>
      rcases delTimer_cases h with rfl | hstop
      · exact .inl ⟨rfl, settles_of_eq rfl rfl⟩
      · exact .inl ⟨rfl, settles_stopTimer hl hstop⟩

/-- All that a step can do to the trees and to the count. -/
theorem settles_or_arms {b : Build} {s s' : TmrState} {op : Op} (hl : Linked s)
    (h : step b s op = some s') :
    (op.arming b s = none ∧ Settles s s') ∨ ∃ d, op.arming b s = some d ∧ Arms b d s s' := by
  cases op with
  | call c => exact settles_or_arms_exec hl h
  | tick =>
      refine .inl ⟨rfl, ?_⟩
      have hclk : Linked { s with clk := s.clk.advance b } := hl.of_eq rfl le_rfl
      have hmoved : Settles s { s with clk := s.clk.advance b } := settles_of_eq rfl rfl
      rcases updateTimes_cases h with ⟨-, rfl⟩ | ⟨-, rfl⟩ | ⟨r, -, hproc, rfl⟩
      · exact hmoved
      · exact settles_of_eq rfl rfl
      · exact (hmoved.trans (settles_tmProcess hclk hproc)).trans (settles_of_eq rfl rfl)
  | bottomHalf =>
      refine .inl ⟨rfl, ?_⟩
      rcases step_bottomHalf_cases h with ⟨-, r, hproc, rfl⟩ | ⟨-, rfl⟩
      · exact (settles_tmProcess hl hproc).trans (settles_of_eq rfl rfl)
      · exact settles_of_eq rfl rfl
  | finishExpd appOk =>
      obtain ⟨x, rest, p, tmr, -, -, -, rfl | rfl⟩ := finishExpd_cases h
      · exact .inl ⟨rfl, settles_of_eq rfl rfl⟩
      · exact .inl ⟨rfl, settles_of_eq rfl rfl⟩

/-- A property that nodes leaving the trees do not endanger holds all along a run if and
only if every arming of the run keeps it. -/
theorem always_iff_arming {b : Build} {P : TmrState → Prop} {ok : TmrState → U32 → Prop}
    (hinit : P initTimerMgr) (hsettles : ∀ s s', P s → Settles s s' → P s')
    (harms : ∀ s d s', P s → Arms b d s s' → (P s' ↔ ok s d)) {ops : List Op} {s : TmrState}
    (hrun : PartialSteps.run (step b) initTimerMgr ops = some s) :
    PartialSteps.Always (step b) P initTimerMgr ops ↔
      PartialSteps.Meets (step b) (fun m op => ∀ d ∈ op.arming b m, ok m d) initTimerMgr ops := by
  refine PartialSteps.always_iff_meets (step b) (I := fun m => Linked m ∧ P m)
    (fun _ hm => hm.2) ?_ ⟨linked_init, hinit⟩ hrun
  rintro m op m' ⟨hl, hm⟩ hstep
  have hl' := (hl.of_step hstep).2
  rcases settles_or_arms hl hstep with ⟨hnone, hs⟩ | ⟨d, hsome, ha⟩
  · refine ⟨fun _ => ⟨hl', hsettles m m' hm hs⟩, fun _ d hd => ?_⟩
    rw [hnone] at hd
    cases hd
  · have hiff := harms m d m' hm ha
    refine ⟨fun hok => ⟨hl', hiff.mpr (hok d hsome)⟩, fun hm' d' hd => ?_⟩
    obtain rfl : d = d' := Option.some.inj (hsome.symm.trans hd)
    exact hiff.mp hm'

/-! ## The count is exact -/

/-- The counter is the number of the nodes in the four trees. -/
def CountExact (s : TmrState) : Prop := s.count.toNat = s.nodes.card

instance (s : TmrState) : Decidable (CountExact s) := inferInstanceAs (Decidable (_ = _))

/-- Every timer that is armed gets a node, and the counter can hold its number. -/
def ArmsNode (b : Build) (s : TmrState) (op : Op) : Prop :=
  ∀ d ∈ op.arming b s, d.toNat % maxTicks b ≠ 0 ∧ s.nodes.card + 1 < 2 ^ 32

instance (b : Build) (s : TmrState) (op : Op) : Decidable (ArmsNode b s op) :=
  decidableArming (fun d => d.toNat % maxTicks b ≠ 0 ∧ s.nodes.card + 1 < 2 ^ 32) _

theorem CountExact.of_settles {s s' : TmrState} (h : CountExact s) (hs : Settles s s') :
    CountExact s' := by
  obtain ⟨k, hcard, hcount⟩ := hs
  have hlt := s.count.isLt
  have hlt' := s'.count.isLt
  have hsum := congrArg BitVec.toNat hcount
  rw [BitVec.toNat_add, BitVec.toNat_ofNat] at hsum
  unfold CountExact at h ⊢
  omega

theorem countExact_of_arms_iff {b : Build} {d : U32} {s s' : TmrState} (h : CountExact s)
    (ha : Arms b d s s') :
    CountExact s' ↔ d.toNat % maxTicks b ≠ 0 ∧ s.nodes.card + 1 < 2 ^ 32 := by
  obtain ⟨hcount, hcard⟩ := ha
  have hlt := s.count.isLt
  unfold CountExact at h ⊢
  rw [hcount, hcard, BitVec.toNat_add, h]
  rw [h] at hlt
  by_cases hzero : d.toNat % maxTicks b = 0
  · simp only [hzero, if_true, ne_eq, not_true_eq_false, false_and, iff_false]
    show ¬ (s.nodes.card + 1) % 2 ^ 32 = s.nodes.card + 0
    omega
  · simp only [hzero, if_false, ne_eq, not_false_eq_true, true_and]
    show (s.nodes.card + 1) % 2 ^ 32 = s.nodes.card + 1 ↔ _
    omega

/-- The counter is exact all along a run if and only if every timer that the run arms
gets a node. -/
theorem count_exact_iff (b : Build) (ops : List Op) (s : TmrState)
    (hrun : PartialSteps.run (step b) initTimerMgr ops = some s) :
    PartialSteps.Always (step b) CountExact initTimerMgr ops ↔
      PartialSteps.Meets (step b) (ArmsNode b) initTimerMgr ops :=
  always_iff_arming (P := CountExact) rfl (fun _ _ h hs => h.of_settles hs)
    (fun _ _ _ h ha => countExact_of_arms_iff h ha) hrun

/-- Of three timers one expires and one is stopped. -/
def threeStarts : List Op :=
  [.call (.startTimer 1 0 none 0 true true), .call (.startTimer 5 0 none 0 true true),
    .call (.startTimer 101 0 none 0 true true), .tick, .call (.delTimer 1)]

theorem count_exact_threeStarts :
    ∃ s, PartialSteps.run (step .normal) initTimerMgr threeStarts = some s ∧
      s.count = 1 ∧ PartialSteps.Always (step .normal) CountExact initTimerMgr threeStarts := by
  have hok : PartialSteps.Meets (step .normal) (ArmsNode .normal) initTimerMgr threeStarts := by
    decide +kernel
  have hfacts : (PartialSteps.run (step .normal) initTimerMgr threeStarts).map TmrState.count =
      some 1 := by
    decide +kernel
  obtain ⟨s, hrun, hcount⟩ := Option.map_eq_some_iff.mp hfacts
  exact ⟨s, hrun, hcount, (count_exact_iff .normal threeStarts s hrun).mpr hok⟩

/-- A timer of no ticks is counted and has no node. -/
theorem miscounted_zero_ticks :
    ∃ s, PartialSteps.run (step .normal) initTimerMgr
        [.call (.startTimer 0 0 none 0 true true)] = some s ∧
      s.count = 1 ∧ s.nodes = 0 ∧ ¬ CountExact s := by
  have hfacts : (PartialSteps.run (step .normal) initTimerMgr
      [.call (.startTimer 0 0 none 0 true true)]).map (fun s => (s.count, s.nodes.card)) =
        some (1, 0) := by
    decide +kernel
  obtain ⟨s, hrun, hs⟩ := Option.map_eq_some_iff.mp hfacts
  simp only [Prod.mk.injEq] at hs
  refine ⟨s, hrun, hs.1, Multiset.card_eq_zero.mp hs.2, fun hexact => ?_⟩
  rw [CountExact, hs.1, hs.2] at hexact
  cases hexact

/-! ## The limit -/

/-- Not more timers are armed than there may be. -/
def WithinMax (s : TmrState) : Prop := s.nodes.card ≤ maxTimers.toNat

/-- A timer that gets a node is armed below the limit. -/
def ArmsBelowMax (b : Build) (s : TmrState) (op : Op) : Prop :=
  ∀ d ∈ op.arming b s, d.toNat % maxTicks b ≠ 0 → s.nodes.card < maxTimers.toNat

instance (b : Build) (s : TmrState) (op : Op) : Decidable (ArmsBelowMax b s op) :=
  decidableArming (fun d => d.toNat % maxTicks b ≠ 0 → s.nodes.card < maxTimers.toNat) _

theorem withinMax_of_arms_iff {b : Build} {d : U32} {s s' : TmrState} (h : WithinMax s)
    (ha : Arms b d s s') :
    WithinMax s' ↔ (d.toNat % maxTicks b ≠ 0 → s.nodes.card < maxTimers.toNat) := by
  obtain ⟨-, hcard⟩ := ha
  unfold WithinMax at h ⊢
  rw [hcard]
  by_cases hzero : d.toNat % maxTicks b = 0
  · simp only [hzero, if_true, Nat.add_zero, h, ne_eq, not_true_eq_false, false_implies]
  · simp only [hzero, if_false, ne_eq, not_false_eq_true, true_implies]
    exact Nat.succ_le_iff

/-- The limit is kept all along a run if and only if every timer that gets a node is armed
below it. -/
theorem nodes_le_max_iff (b : Build) (ops : List Op) (s : TmrState)
    (hrun : PartialSteps.run (step b) initTimerMgr ops = some s) :
    PartialSteps.Always (step b) WithinMax initTimerMgr ops ↔
      PartialSteps.Meets (step b) (ArmsBelowMax b) initTimerMgr ops := by
  refine always_iff_arming (Nat.zero_le _) ?_ (fun _ _ _ h ha => withinMax_of_arms_iff h ha) hrun
  rintro m m' h ⟨k, hcard, -⟩
  exact (Nat.le_of_add_right_le hcard.le).trans h

theorem nodes_le_max_threeStarts :
    ∃ s, PartialSteps.run (step .normal) initTimerMgr threeStarts = some s ∧
      PartialSteps.Always (step .normal) WithinMax initTimerMgr threeStarts := by
  have hok : PartialSteps.Meets (step .normal) (ArmsBelowMax .normal) initTimerMgr
      threeStarts := by
    decide +kernel
  have hdone : (PartialSteps.run (step .normal) initTimerMgr threeStarts).isSome := by
    decide +kernel
  obtain ⟨s, hrun⟩ := Option.isSome_iff_exists.mp hdone
  exact ⟨s, hrun, (nodes_le_max_iff .normal threeStarts s hrun).mpr hok⟩

/-! ## One timer more than the limit -/

theorem indx_of_calcAndPlace {b : Build} {s s' : TmrState} {x : AppTimer} (hzero : x.ctime = 0)
    (h : calcAndPlace b s x = some s') : s'.indx = s.indx := by
  obtain ⟨p, tmr, mid, -, -, hfind, rfl⟩ := calcAndPlace_cases hzero h
  rcases findTmrSlotAndPlace_cases hfind with ⟨-, rfl⟩ | ⟨q, p', tmr', -, -, -, rfl⟩
  · rfl
  · rfl

/-- `start_timer` for one tick, with nothing to call. -/
def startOne : Op := .call (.startTimer 1 0 none 0 true true)

/-- As long as the test of `alloc_timer_id` lets it through, every `start_timer` adds a
node. -/
theorem run_startOne (b : Build) {n : Nat} (hn : n ≤ maxTimers.toNat + 1) :
    ∃ s, PartialSteps.run (step b) initTimerMgr (List.replicate n startOne) = some s ∧ Linked s ∧
      s.count.toNat = n ∧ s.indx.toNat = n ∧ s.nodes.card = n := by
  induction n with
  | zero => exact ⟨initTimerMgr, rfl, linked_init, rfl, rfl, rfl⟩
  | succ n ih =>
      replace hn : n + 1 ≤ 2001 := hn
      obtain ⟨s, hrun, hl, hcount, hindx, hcard⟩ := ih (Nat.le_of_succ_le hn)
      have hstarts : s.Starts true true := by
        refine ⟨?_, ?_, rfl, rfl⟩
        · show s.count.toNat ≤ 2000
          omega
        · intro hzero
          have hwrap := congrArg BitVec.toNat hzero
          rw [BitVec.toNat_add, hindx] at hwrap
          replace hwrap : (n + 1) % 2 ^ 32 = 0 := hwrap
          omega
      obtain ⟨⟨s', res⟩, hstart⟩ :=
        Option.isSome_iff_exists.mp (startTimer_isSome b s 1 0 none 0 true true)
      have hstep : step b s startOne = some s' :=
        Option.map_eq_some_iff.mpr ⟨(s', res), hstart, rfl⟩
      obtain ⟨hcount', hcard'⟩ : Arms b 1 s s' := by
        rcases settles_or_arms hl hstep with ⟨hnone, -⟩ | ⟨d, hsome, ha⟩
        · rw [startOne, Op.arming, Call.arming, if_pos hstarts] at hnone
          cases hnone
        · rw [startOne, Op.arming, Call.arming, if_pos hstarts] at hsome
          cases hsome
          exact ha
      have hindx' : s'.indx = s.indx + 1 := by
        rcases startTimer_cases hstart with ⟨-, hfail, -⟩ | ⟨-, -, harm⟩
        · exact absurd hstarts hfail
        · exact indx_of_calcAndPlace rfl harm
      refine ⟨s', ?_, (hl.of_step hstep).2, ?_, ?_, ?_⟩
      · rw [List.replicate_succ', PartialSteps.run_append]
        exact ⟨s, hrun, (PartialSteps.run_cons _).mpr ⟨s', hstep, rfl⟩⟩
      · rw [hcount', BitVec.toNat_add, hcount]
        exact Nat.mod_eq_of_lt (hn.trans_lt (by decide))
      · rw [hindx', BitVec.toNat_add, hindx]
        exact Nat.mod_eq_of_lt (hn.trans_lt (by decide))
      · rw [hcard', hcard, if_neg]
        cases b with
        | sfs => decide
        | normal => decide

/-- With 2000 timers armed, `alloc_timer_id` lets one more through. -/
theorem nodes_exceed_max :
    ∃ s, PartialSteps.run (step .normal) initTimerMgr (List.replicate 2001 startOne) = some s ∧
      s.nodes.card = 2001 ∧ maxTimers.toNat = 2000 ∧ ¬ WithinMax s := by
  obtain ⟨s, hrun, -, -, -, hcard⟩ := run_startOne .normal (n := 2001) le_rfl
  refine ⟨s, hrun, hcard, rfl, fun hle => ?_⟩
  rw [WithinMax, hcard] at hle
  exact absurd hle (by decide)

end Timers
end TmULThreads
