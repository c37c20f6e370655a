import TmULThreads.Timers.Steps

/-!
# Starting a timer while the clock ticks

In the pthread build `update_times` runs in a thread of its own.  Only the tree
operations are made under a lock; the clock that `start_timer` reads, and the
count that `timers_pending_for_service` tests, are not.  Here the two functions
are cut into the steps between which the other threads can run, for any number
of threads that start timers.

A counter value is *passed* when the tick thread has nothing more to do for it.
A node whose value is passed stays in its tree for a whole lap of the counter.
There is none in any run where a node is linked before its value is passed, and
where the count is not zero when the test finds a node due
(`noneMissed_of_undisturbed`).  Without the first condition a scan between the
computation of `rt` and the insertion is enough to miss the timer
(`missed_by_late_insert`).
-/

namespace TmULThreads
namespace Timers

open RedBlackTree

/-! ## The steps of `start_timer` -/

/-- The part of `find_tmr_slot_and_place` before `timer_add`. -/
def chooseSlot (s : TmrState) (ptmr : AppTimer) : Option (TmrState × Option (Wheel × AppTimer)) :=
  match findSlot ptmr.ctime with
  | none => some (s, none)
  | some (w, t) => do
      let p ← ptmr.timer
      let tmr ← s.timers p
      some (s.setTimer p { tmr with wheel := some w, isRunning := true },
        some (w, { ptmr with rt := s.clk.get w + t }))

/-- The `timer_add` of `find_tmr_slot_and_place`, if it is reached. -/
def linkSlot (s : TmrState) : Option (Wheel × AppTimer) → TmrState
  | none => s
  | some (w, ptmr) => s.setRoot w (timerAdd ptmr (s.root w))

def calcAndChoose (s : TmrState) (ptmr : AppTimer) :
    Option (TmrState × Option (Wheel × AppTimer)) := do
  let (s, ptmr) ← calcTime .normal s ptmr
  chooseSlot s ptmr

def incTimerCount (s : TmrState) : TmrState := { s with count := s.count + 1 }

/-- Where a thread stands in `start_timer`. -/
inductive StartPc where
  | out
  | insert (slot : Option (Wheel × AppTimer))
  | count
  deriving DecidableEq, Repr

/-- `start_timer` up to the computation of `rt`. -/
def startCompute (s : TmrState) (ticks : U32) (data : Nat) (handler : Option Nat) (flags : U32)
    (timerOk appOk : Bool) : Option (TmrState × StartPc) :=
  let (s, idx) := allocTimerId s
  if idx = 0 ∨ ¬ timerOk then some (s, .out)
  else
    let t : Timer :=
      { rmt := ticks, idx := idx, data := data, timeOutHandler := handler,
        flags := if flags ≠ 0 then flags else timerOnce }
    let (s, new) := allocTimer s t
    if ¬ appOk then some (freeTimer s new, .out)
    else do
      let (s, apptimer) := allocAppTimer s
      let s := s.setTimer new { t with apptimer := some apptimer }
      let (s, slot) ← calcAndChoose s { addr := apptimer, timer := some new }
      some (s, .insert slot)

/-! ## The steps of `update_times` -/

/-- Where the tick thread stands in `update_times`; `n` is the number of nodes
that the pass has met so far. -/
inductive TickPc where
  | out
  | test
  | walk (w : Wheel) (n : Nat)
  | del (w : Wheel) (n : Nat) (ptmr : AppTimer)
  | act (w : Wheel) (n : Nat) (ptmr : AppTimer)
  deriving DecidableEq, Repr

/-- The wheel that `tm_process_tick_and_update_timers` looks at after `w`. -/
def nextWheel (c : Clk) : Wheel → Option Wheel
  | .tick => if isNxtSecHappend .normal c then some .sec else none
  | .sec => if isNxtMinHappend c then some .min else none
  | .min => if isNxtHrHappend c then some .hrs else none
  | .hrs => none

def tickStep (s : TmrState) : TickPc → Option (TmrState × TickPc)
  | .out => some ({ s with clk := s.clk.advance .normal }, .test)
  | .test => some (s, if timersPendingForService .normal s then .walk .tick 0 else .out)
  | .walk w n =>
      match timerTreeWalk (s.root w) (s.clk.get w) with
      | some ptmr => some (s, .del w n ptmr)
      | none =>
          match nextWheel s.clk w with
          | some v => some (s, .walk v n)
          | none => some ({ s with raised := s.raised || n ≠ 0 }, .out)
  | .del w n ptmr => do
      let ptmr ← clearWheelTimer s ptmr
      let r ← timerDel ptmr.addr (s.root w)
      some (s.setRoot w r, .act w n ptmr)
  | .act w n ptmr => do
      let s ← timerExpiryAction s ptmr
      some (s, .walk w (n + 1))

/-! ## Threads -/

structure Conc where
  mem : TmrState
  tick : TickPc
  app : Nat → StartPc

def Conc.init : Conc := ⟨initTimerMgr, .out, fun _ => .out⟩

/-- The thread that takes its next step. -/
inductive Turn where
  | tick
  | start (t : Nat) (ticks : U32) (data : Nat) (handler : Option Nat) (flags : U32)
      (timerOk appOk : Bool)
  | app (t : Nat)
  deriving DecidableEq, Repr

def concStep (c : Conc) : Turn → Option Conc
  | .tick => (tickStep c.mem c.tick).map fun r => { c with mem := r.1, tick := r.2 }
  | .start t ticks data handler flags timerOk appOk =>
      match c.app t with
      | .out => (startCompute c.mem ticks data handler flags timerOk appOk).map fun r =>
          { c with mem := r.1, app := Function.update c.app t r.2 }
      | _ => none
  | .app t =>
      match c.app t with
      | .out => none
      | .insert slot =>
          some { c with mem := linkSlot c.mem slot, app := Function.update c.app t .count }
      | .count =>
          some { c with mem := incTimerCount c.mem, app := Function.update c.app t .out }

/-! ## One thread at a time -/

theorem findTmrSlotAndPlace_eq (s : TmrState) (ptmr : AppTimer) :
    findTmrSlotAndPlace s ptmr = (chooseSlot s ptmr).map fun r => linkSlot r.1 r.2 := by
  unfold findTmrSlotAndPlace chooseSlot
  cases findSlot ptmr.ctime with
  | none => rfl
  | some slot =>
      cases ptmr.timer with
      | none => rfl
      | some p =>
          simp only [Option.bind_eq_bind, Option.bind_some]
          cases s.timers p with
          | none => rfl
          | some tmr => rfl

theorem calcAndPlace_eq (s : TmrState) (ptmr : AppTimer) :
    calcAndPlace .normal s ptmr =
      (calcAndChoose s ptmr).map fun r => incTimerCount (linkSlot r.1 r.2) := by
  unfold calcAndPlace calcAndChoose
  cases calcTime .normal s ptmr with
  | none => rfl
  | some r =>
      simp only [Option.bind_eq_bind, Option.bind_some, findTmrSlotAndPlace_eq]
      cases chooseSlot r.1 r.2 with
      | none => rfl
      | some slot => rfl

/-- What is left to do for a thread that has computed its `rt`. -/
def finishStart (s : TmrState) : StartPc → TmrState
  | .insert slot => incTimerCount (linkSlot s slot)
  | .count => incTimerCount s
  | .out => s

/-- The steps of `start_timer` together do what `startTimer` does. -/
theorem startTimer_eq (s : TmrState) (ticks : U32) (data : Nat) (handler : Option Nat)
    (flags : U32) (timerOk appOk : Bool) :
    (startTimer .normal s ticks data handler flags timerOk appOk).map Prod.fst =
      (startCompute s ticks data handler flags timerOk appOk).map fun r =>
        finishStart r.1 r.2 := by
  unfold startTimer startCompute
  dsimp only
  by_cases hid : (allocTimerId s).2 = 0 ∨ ¬ timerOk = true
  · rw [if_pos hid, if_pos hid]
    rfl
  · rw [if_neg hid, if_neg hid]
    by_cases hok : ¬ appOk = true
    · rw [if_pos hok, if_pos hok]
      rfl
    · rw [if_neg hok, if_neg hok, calcAndPlace_eq]
      generalize calcAndChoose _ _ = res
      cases res with
      | none => rfl
      | some r => rfl

theorem processOne_clk {s s' : TmrState} {w : Wheel} {x : AppTimer}
    (h : processOne s w x = some s') : s'.clk = s.clk := by
  obtain ⟨p, tmr, v, r, -, -, -, -, hcase⟩ := processOne_cases h
  rcases hcase with ⟨-, rfl⟩ | ⟨q, -, rfl⟩
  · rfl
  · rfl

/-- The tick thread alone leads from one state to the other. -/
def TickLeads (c c' : Conc) : Prop :=
  ∃ m, PartialSteps.run concStep c (List.replicate m .tick) = some c'

theorem TickLeads.trans {c d e : Conc} (hcd : TickLeads c d) (hde : TickLeads d e) :
    TickLeads c e := by
  obtain ⟨m, hm⟩ := hcd
  obtain ⟨k, hk⟩ := hde
  refine ⟨m + k, ?_⟩
  rw [List.replicate_add, PartialSteps.run_append]
  exact ⟨d, hm, hk⟩

theorem TickLeads.step {c d : Conc} (h : concStep c .tick = some d) : TickLeads c d := by
  refine ⟨1, ?_⟩
  rw [List.replicate_one, PartialSteps.run_cons]
  exact ⟨d, h, rfl⟩

/-- A turn of the loop of `process_timers` is three steps of the tick thread. -/
theorem run_turn {c : Conc} {w : Wheel} {n : Nat} {x : AppTimer} {s' : TmrState}
    (hpc : c.tick = .walk w n) (hwalk : timerTreeWalk (c.mem.root w) (c.mem.clk.get w) = some x)
    (hone : processOne c.mem w x = some s') :
    TickLeads c { c with mem := s', tick := .walk w (n + 1) } := by
  simp only [processOne, Option.bind_eq_bind, Option.bind_eq_some_iff] at hone
  obtain ⟨y, hclear, r, hdel, hact⟩ := hone
  refine ⟨3, ?_⟩
  simp only [List.replicate_succ, List.replicate_zero, PartialSteps.run, concStep, hpc, tickStep, hwalk,
    hclear, hdel, hact, Option.bind_eq_bind, Option.bind_some, Option.map_some]

/-- The turns of the tick thread in one wheel do what `processTimersLoop` does. -/
theorem run_walk {c : Conc} {w : Wheel} {n fuel k : Nat} {s' : TmrState}
    (hpc : c.tick = .walk w n)
    (hloop : processTimersLoop fuel c.mem w (c.mem.clk.get w) = some (s', k)) :
    TickLeads c { c with mem := s', tick := .walk w (n + k) } := by
  induction fuel generalizing c n k with
  | zero =>
      cases hloop
      refine ⟨0, ?_⟩
      rw [Nat.add_zero, ← hpc]
      rfl
  | succ fuel ih =>
      simp only [processTimersLoop] at hloop
      split at hloop
      · cases hloop
        refine ⟨0, ?_⟩
        rw [Nat.add_zero, ← hpc]
        rfl
      · rename_i x hwalk
        simp only [Option.bind_eq_bind, Option.bind_eq_some_iff] at hloop
        obtain ⟨mid, hone, ⟨last, j⟩, hrest, hres⟩ := hloop
        cases hres
        have hturn := run_turn hpc hwalk hone
        have hrest' : processTimersLoop fuel mid w (mid.clk.get w) = some (last, j) := by
          rwa [processOne_clk hone]
        have hlater := ih (c := { c with mem := mid, tick := .walk w (n + 1) }) rfl hrest'
        rw [Nat.add_right_comm] at hlater
        exact hturn.trans hlater

/-- What the tick thread does when a walk has found nothing. -/
def leaveWheel (c : Conc) (w : Wheel) (n : Nat) : Conc :=
  match nextWheel c.mem.clk w with
  | some v => { c with tick := .walk v n }
  | none => { c with mem := { c.mem with raised := c.mem.raised || n ≠ 0 }, tick := .out }

theorem concStep_walk_none {c : Conc} {w : Wheel} {n : Nat} (hpc : c.tick = .walk w n)
    (hwalk : timerTreeWalk (c.mem.root w) (c.mem.clk.get w) = none) :
    concStep c .tick = some (leaveWheel c w n) := by
  unfold leaveWheel
  simp only [concStep, hpc, tickStep, hwalk]
  cases nextWheel c.mem.clk w with
  | none => rfl
  | some v => rfl

/-- The walk of a tree that holds no node for the present value finds none. -/
theorem timerTreeWalk_eq_none {s : TmrState} {w : Wheel} (h : ∀ n ∈ s.nodes, ¬ n.hit s.clk w) :
    timerTreeWalk (s.root w) (s.clk.get w) = none := by
  cases hwalk : timerTreeWalk (s.root w) (s.clk.get w) with
  | none => rfl
  | some x =>
      obtain ⟨hx, hrt⟩ := search_eq_some _ _ _ hwalk
      exact absurd ⟨rfl, BitVec.eq_of_toNat_eq hrt⟩ (h _ (node_mem_nodes hx))

theorem run_wheel {c : Conc} {w : Wheel} {n k : Nat} {s' : TmrState} (hl : Linked c.mem)
    (hpc : c.tick = .walk w n)
    (hproc : processTimers c.mem w (c.mem.clk.get w) = some (s', k)) :
    Linked s' ∧ TickLeads c (leaveWheel { c with mem := s' } w (n + k)) := by
  obtain ⟨hclk, hl'⟩ := processTimers_linked hl hproc
  refine ⟨hl', (run_walk hpc hproc).trans (.step ?_)⟩
  have hnone := processTimers_exhausts hl hproc
  rw [← hclk] at hnone
  exact concStep_walk_none rfl (timerTreeWalk_eq_none hnone)

/-- The steps of a pass do what `tmProcessTickAndUpdateTimers` does. -/
theorem run_pass {c : Conc} {s' : TmrState} {n : Nat} (hl : Linked c.mem)
    (hpc : c.tick = .walk .tick 0)
    (hproc : tmProcessTickAndUpdateTimers .normal c.mem = some (s', n)) :
    TickLeads c { c with mem := { s' with raised := s'.raised || n ≠ 0 }, tick := .out } := by
  simp only [tmProcessTickAndUpdateTimers, Option.bind_eq_bind, Option.bind_eq_some_iff] at hproc
  obtain ⟨⟨s₁, k₁⟩, htick, hproc⟩ := hproc
  obtain ⟨hl₁, hlead₁⟩ := run_wheel hl hpc htick
  rw [Nat.zero_add] at hlead₁
  refine hlead₁.trans ?_
  -- each gate decides whether the pass goes on to the next wheel
  split at hproc
  · rename_i hsec
    obtain ⟨⟨s₂, k₂⟩, hproc₂, hproc⟩ := Option.bind_eq_some_iff.mp hproc
    rw [leaveWheel, nextWheel, if_pos hsec]
    obtain ⟨hl₂, hlead₂⟩ := run_wheel (c := { c with mem := s₁, tick := .walk .sec k₁ }) hl₁ rfl hproc₂
    refine hlead₂.trans ?_
    split at hproc
    · rename_i hmin
      obtain ⟨⟨s₃, k₃⟩, hproc₃, hproc⟩ := Option.bind_eq_some_iff.mp hproc
      rw [leaveWheel, nextWheel, if_pos hmin]
      obtain ⟨hl₃, hlead₃⟩ :=
        run_wheel (c := { c with mem := s₂, tick := .walk .min (k₁ + k₂) }) hl₂ rfl hproc₃
      refine hlead₃.trans ?_
      split at hproc
      · rename_i hhr
        obtain ⟨⟨s₄, k₄⟩, hproc₄, hres⟩ := Option.bind_eq_some_iff.mp hproc
        cases hres
        rw [leaveWheel, nextWheel, if_pos hhr]
        exact (run_wheel (c := { c with mem := s₃, tick := .walk .hrs (k₁ + k₂ + k₃) })
          hl₃ rfl hproc₄).2
      · rename_i hhr
        cases hproc
        rw [leaveWheel, nextWheel, if_neg hhr]
        exact ⟨0, rfl⟩
    · rename_i hmin
      cases hproc
      rw [leaveWheel, nextWheel, if_neg hmin]
      exact ⟨0, rfl⟩
  · rename_i hsec
    cases hproc
    rw [leaveWheel, nextWheel, if_neg hsec]
    exact ⟨0, rfl⟩

/-- The steps of the tick thread together do what `updateTimes` does. -/
theorem run_updateTimes {c : Conc} {s' : TmrState} (hl : Linked c.mem) (hpc : c.tick = .out)
    (htick : updateTimes .normal c.mem = some s') :
    TickLeads c { c with mem := s' } := by
  have hadvance : TickLeads c
      { c with mem := { c.mem with clk := c.mem.clk.advance .normal }, tick := .test } := by
    apply TickLeads.step
    rw [concStep, hpc]
    rfl
  simp only [updateTimes] at htick
  refine hadvance.trans ?_
  split at htick
  · rename_i hpend
    simp only [serviceTimers, Option.bind_eq_bind, Option.bind_eq_some_iff] at htick
    obtain ⟨⟨s₁, n⟩, hproc, hres⟩ := htick
    cases hres
    have htest : TickLeads
        { c with mem := { c.mem with clk := c.mem.clk.advance .normal }, tick := .test }
        { c with mem := { c.mem with clk := c.mem.clk.advance .normal }, tick := .walk .tick 0 } := by
      apply TickLeads.step
      simp only [concStep, tickStep, hpend, if_true, Option.map_some]
    rw [hpc]
    exact htest.trans (run_pass (hl.of_eq rfl le_rfl) rfl hproc)
  · rename_i hpend
    cases htick
    apply TickLeads.step
    simp only [concStep, tickStep, hpend, hpc, Option.map_some]
    rfl

/-! ## Values that have been passed -/

/-- The tick that led to this clock moved the counter of the wheel. -/
def moved (b : Build) (c : Clk) : Wheel → Bool
  | .tick => true
  | .sec => isNxtSecHappend b c
  | .min => isNxtSecHappend b c && c.sec % 60 == 0
  | .hrs => isNxtSecHappend b c && c.sec % 60 == 0 && c.min % 60 == 0

/-- The tick thread still has to look at the wheel, for the present value of
its counter. -/
def Conc.awaits (c : Conc) (w : Wheel) : Bool :=
  match c.tick with
  | .out => false
  | .test => moved .normal c.mem.clk w
  | .walk v _ | .del v _ _ | .act v _ _ => decide (v.rank ≤ w.rank) && serviced .normal c.mem.clk w

/-- The last value of the counter for which the tick thread is done, be it by a
scan or because the test asked for none. -/
def Conc.passed (c : Conc) (w : Wheel) : U32 :=
  if c.awaits w then c.mem.clk.get w - 1 else c.mem.clk.get w

/-- `rt` equals or precedes `v`, in the order of a counter that wraps. -/
def Reached (rt v : U32) : Prop := (v - rt).toNat < 2 ^ 31

instance (rt v : U32) : Decidable (Reached rt v) := inferInstanceAs (Decidable (_ < _))

/-- No node waits for a value that has been passed. -/
def NoneMissed (c : Conc) : Prop :=
  ∀ w, ∀ x ∈ (c.mem.root w).toList, ¬ Reached x.rt (c.passed w)

/-- A node is linked before its value is passed; and when the tick thread tests
whether there is something to do, and a node waits for the present value, the
timer has been counted and its wheel is one that is scanned. -/
def Undisturbed (c : Conc) : Turn → Prop
  | .tick => c.tick = .test → ∀ w, ∀ x ∈ (c.mem.root w).toList, x.rt = c.mem.clk.get w →
      c.mem.count ≠ 0 ∧ serviced .normal c.mem.clk w = true
  | .start .. => True
  | .app t => ∀ w x, c.app t = .insert (some (w, x)) → ¬ Reached x.rt (c.passed w)

theorem not_reached_succ {rt v : U32} (h : ¬ Reached rt v) (hne : rt ≠ v + 1) :
    ¬ Reached rt (v + 1) := by
  unfold Reached at h ⊢
  intro hlt
  apply hne
  bv_omega

/-- A value at most 1023 ahead of the counter has not been passed. -/
theorem not_reached_of_ahead {rt v : U32} (h0 : 0 < (rt - v).toNat)
    (h1 : (rt - v).toNat < 1024) : ¬ Reached rt v ∧ ¬ Reached rt (v - 1) := by
  unfold Reached
  constructor
  · bv_omega
  · bv_omega

theorem moved_advance_iff (b : Build) (c : Clk) (w : Wheel) :
    moved b (c.advance b) w = true ↔ boundary b c w := by
  classical
  have hsec := isNxtSecHappend_advance b c
  cases w with
  | tick => simp [moved, boundary]
  | sec => exact hsec
  | min =>
      simp only [moved, boundary, MinBoundary, Bool.and_eq_true, hsec, beq_iff_eq, boundary60_iff]
      refine and_congr_right fun hb => ?_
      rw [advance_sec, if_pos hb]
  | hrs =>
      simp only [moved, boundary, HrBoundary, MinBoundary, Bool.and_eq_true, hsec, beq_iff_eq,
        boundary60_iff]
      have hstep (hb : SecBoundary b c) : (c.advance b).sec % 60 = 0 ↔ (c.sec + 1) % 60 = 0 := by
        rw [advance_sec, if_pos hb]
      constructor
      · rintro ⟨⟨hb, hs⟩, hm⟩
        have hmin : MinBoundary b c := ⟨hb, (boundary60_iff _).mpr ((hstep hb).mp hs)⟩
        rw [advance_min, if_pos hmin] at hm
        exact ⟨⟨hb, (hstep hb).mp hs⟩, hm⟩
      · rintro ⟨⟨hb, hs⟩, hm⟩
        have hmin : MinBoundary b c := ⟨hb, (boundary60_iff _).mpr hs⟩
        rw [advance_min, if_pos hmin]
        exact ⟨⟨hb, (hstep hb).mpr hs⟩, hm⟩

theorem moved_of_serviced {b : Build} {c : Clk} {w : Wheel} (h : serviced b c w = true) :
    moved b c w = true := by
  have hmin : isNxtMinHappend c = true → (c.sec % 60 == 0) = true := by
    unfold isNxtMinHappend
    split
    · exact id
    · nofun
  have hhr : isNxtHrHappend c = true → (c.min % 60 == 0) = true := by
    unfold isNxtHrHappend
    split
    · exact id
    · nofun
  cases w with
  | tick => rfl
  | sec => exact h
  | min =>
      simp only [serviced, moved, Bool.and_eq_true] at h ⊢
      exact ⟨h.1, hmin h.2⟩
  | hrs =>
      simp only [serviced, moved, Bool.and_eq_true] at h ⊢
      exact ⟨⟨h.1.1, hmin h.1.2⟩, hhr h.2⟩

/-- The pass goes on to the next wheel as long as some coarser one is due. -/
theorem nextWheel_of_serviced {c : Clk} {w u : Wheel} (hlt : w.rank < u.rank)
    (h : serviced .normal c u = true) : ∃ v, nextWheel c w = some v ∧ v.rank ≤ u.rank := by
  cases w <;> cases u <;> simp_all [nextWheel, serviced, Wheel.rank]

theorem rank_of_nextWheel {c : Clk} {w v : Wheel} (h : nextWheel c w = some v) :
    v.rank = w.rank + 1 := by
  cases w with
  | hrs => cases h
  | _ =>
      simp only [nextWheel, Option.ite_none_right_eq_some, Option.some.injEq] at h
      rw [← h.2]
      rfl

/-- A wheel with a node in it and a gate that is open makes the test succeed. -/
theorem pending_of_mem {s : TmrState} {w : Wheel} {x : AppTimer} (hx : x ∈ (s.root w).toList)
    (hcount : s.count ≠ 0) (hserv : serviced .normal s.clk w = true) :
    timersPendingForService .normal s = true := by
  have hne : (s.root w).isEmpty = false := by
    rw [Bool.eq_false_iff, ne_eq, RBTree.isEmpty_iff]
    exact List.ne_nil_of_mem hx
  cases w <;> simp_all [timersPendingForService, serviced]

/-! ## Steps keep every node ahead -/

theorem Conc.passed_of_awaits {c : Conc} {w : Wheel} (h : c.awaits w = true) :
    c.passed w = c.mem.clk.get w - 1 :=
  if_pos h

theorem Conc.passed_of_not_awaits {c : Conc} {w : Wheel} (h : ¬ c.awaits w = true) :
    c.passed w = c.mem.clk.get w :=
  if_neg h

theorem Conc.passed_of_eq {c c' : Conc} (hclk : c'.mem.clk = c.mem.clk) {w : Wheel}
    (h : c'.awaits w = c.awaits w) : c'.passed w = c.passed w := by
  rw [Conc.passed, Conc.passed, hclk, h]

/-- When the tick thread is done with a wheel, its present value is passed. -/
theorem Conc.passed_of_done {c c' : Conc} (hclk : c'.mem.clk = c.mem.clk) {w : Wheel}
    (h : c'.awaits w = true → c.awaits w = true) :
    c'.passed w = c.passed w ∨
      (c.awaits w = true ∧ c'.awaits w = false ∧ c'.passed w = c.passed w + 1 ∧
        c'.passed w = c.mem.clk.get w) := by
  cases hold : c.awaits w with
  | false =>
      left
      apply Conc.passed_of_eq hclk
      rw [hold, Bool.eq_false_iff]
      intro hnew
      rw [h hnew] at hold
      cases hold
  | true =>
      cases hnew : c'.awaits w with
      | true =>
          left
          apply Conc.passed_of_eq hclk
          rw [hold, hnew]
      | false =>
          right
          simp only [Conc.passed, hold, hnew, hclk, if_true, Bool.false_eq_true, if_false,
            BitVec.sub_add_cancel, and_self]

/-- The trees are search trees, and no node has been missed. -/
structure Clean (c : Conc) : Prop where
  ordered : ∀ w, Ordered (fun x : AppTimer => x.rt.toNat) (c.mem.root w).toList
  noneMissed : NoneMissed c

/-- A step that leaves the trees alone may pass a value that no node waits for. -/
theorem Clean.of_root {c c' : Conc} (h : Clean c) (hroot : c'.mem.root = c.mem.root)
    (hpassed : ∀ w, c'.passed w = c.passed w ∨
      (c'.passed w = c.passed w + 1 ∧ ∀ x ∈ (c.mem.root w).toList, x.rt ≠ c'.passed w)) :
    Clean c' where
  ordered := by
    rw [hroot]
    exact h.ordered
  noneMissed := by
    intro w x hx
    rw [hroot] at hx
    rcases hpassed w with hsame | ⟨hnext, hne⟩
    · rw [hsame]
      exact h.noneMissed w x hx
    · have hx' := hne x hx
      rw [hnext] at hx' ⊢
      exact not_reached_succ (h.noneMissed w x hx) hx'

/-- A step that links one node must link it ahead of what has been passed. -/
theorem Clean.of_add {c c' : Conc} (h : Clean c) {w : Wheel} {x : AppTimer}
    (hroot : c'.mem.root = Function.update c.mem.root w (timerAdd x (c.mem.root w)))
    (hpassed : ∀ v, c'.passed v = c.passed v) (hx : ¬ Reached x.rt (c.passed w)) :
    Clean c' where
  ordered := by
    intro v
    rw [hroot]
    by_cases hv : v = w
    · rw [hv, Function.update_self]
      exact insert_ordered _ _ _ (h.ordered w)
    · rw [Function.update_of_ne hv]
      exact h.ordered v
  noneMissed := by
    intro v y hy
    rw [hpassed]
    rw [hroot] at hy
    by_cases hv : v = w
    · rw [hv, Function.update_self] at hy
      rw [hv]
      rcases List.mem_cons.mp ((insert_perm _ _ _).mem_iff.mp hy) with rfl | hold
      · exact hx
      · exact h.noneMissed w y hold
    · rw [Function.update_of_ne hv] at hy
      exact h.noneMissed v y hy

theorem Clean.of_del {c c' : Conc} (h : Clean c) {w : Wheel} {a : AppId} {r : RBTree AppTimer}
    (hdel : timerDel a (c.mem.root w) = some r)
    (hroot : c'.mem.root = Function.update c.mem.root w r)
    (hpassed : ∀ v, c'.passed v = c.passed v) : Clean c' where
  ordered := by
    intro v
    rw [hroot]
    by_cases hv : v = w
    · rw [hv, Function.update_self]
      exact erase_ordered _ _ _ _ hdel (h.ordered w)
    · rw [Function.update_of_ne hv]
      exact h.ordered v
  noneMissed := by
    intro v y hy
    rw [hpassed]
    rw [hroot] at hy
    by_cases hv : v = w
    · rw [hv, Function.update_self] at hy
      rw [hv]
      obtain ⟨x, -, hperm⟩ := erase_perm _ _ _ hdel
      exact h.noneMissed w y (hperm.mem_iff.mpr (List.mem_cons_of_mem _ hy))
    · rw [Function.update_of_ne hv] at hy
      exact h.noneMissed v y hy

/-- Advancing the clock passes no value: the values it leaves behind were passed
before, and the new ones are still to be looked at. -/
theorem Clean.of_advance {c : Conc} (h : Clean c) (hpc : c.tick = .out) :
    Clean { c with mem := { c.mem with clk := c.mem.clk.advance .normal }, tick := .test } := by
  refine h.of_root rfl fun w => .inl ?_
  have hold : c.passed w = c.mem.clk.get w := by
    apply Conc.passed_of_not_awaits
    rw [Conc.awaits, hpc]
    nofun
  set c' : Conc := { c with mem := { c.mem with clk := c.mem.clk.advance .normal }, tick := .test }
  have hmoved : c'.awaits w = true ↔ boundary .normal c.mem.clk w :=
    moved_advance_iff .normal c.mem.clk w
  rw [hold]
  by_cases hb : boundary .normal c.mem.clk w
  · refine (Conc.passed_of_awaits (hmoved.mpr hb)).trans ?_
    exact (congrArg (· - 1) (get_advance_of_boundary hb)).trans (BitVec.add_sub_cancel _ _)
  · refine (Conc.passed_of_not_awaits fun hw => hb (hmoved.mp hw)).trans ?_
    exact get_advance_of_not_boundary hb

theorem Clean.of_test {c : Conc} (h : Clean c) (hpc : c.tick = .test)
    (hquiet : Undisturbed c .tick) :
    Clean { c with tick := if timersPendingForService .normal c.mem then .walk .tick 0
                           else .out } := by
  refine h.of_root rfl fun w => ?_
  set c' : Conc := { c with tick := if timersPendingForService .normal c.mem then .walk .tick 0
                                    else .out }
  have hawaits : c'.awaits w = true ↔
      timersPendingForService .normal c.mem = true ∧ serviced .normal c.mem.clk w = true := by
    cases hpend : timersPendingForService .normal c.mem <;>
      simp [c', Conc.awaits, hpend, Wheel.rank]
  have hkeep : c'.awaits w = true → c.awaits w = true := by
    intro hw
    simp only [Conc.awaits, hpc]
    exact moved_of_serviced (hawaits.mp hw).2
  rcases Conc.passed_of_done (show c'.mem.clk = c.mem.clk from rfl) hkeep with hsame | ⟨-, hnot, hnext, hnow⟩
  · exact .inl hsame
  · right
    refine ⟨hnext, fun x hx hrt => ?_⟩
    -- a node at the present value makes the test succeed, and its wheel is scanned
    obtain ⟨hcount, hserv⟩ := hquiet hpc w x hx (hrt.trans hnow)
    rw [hawaits.mpr ⟨pending_of_mem hx hcount hserv, hserv⟩] at hnot
    cases hnot

theorem Clean.of_leaveWheel {c : Conc} (h : Clean c) {w : Wheel} {n : Nat}
    (hpc : c.tick = .walk w n)
    (hwalk : timerTreeWalk (c.mem.root w) (c.mem.clk.get w) = none) :
    Clean (leaveWheel c w n) := by
  have hroot : (leaveWheel c w n).mem.root = c.mem.root := by
    unfold leaveWheel
    split <;> rfl
  have hclk : (leaveWheel c w n).mem.clk = c.mem.clk := by
    unfold leaveWheel
    split <;> rfl
  have hold (u : Wheel) : c.awaits u = true ↔ w.rank ≤ u.rank ∧
      serviced .normal c.mem.clk u = true := by
    simp only [Conc.awaits, hpc, Bool.and_eq_true, decide_eq_true_eq]
  have hnew (u : Wheel) : (leaveWheel c w n).awaits u = true ↔ w.rank < u.rank ∧
      serviced .normal c.mem.clk u = true := by
    unfold leaveWheel
    cases hnext : nextWheel c.mem.clk w with
    | some v =>
        have hv := rank_of_nextWheel hnext
        simp only [Conc.awaits, Bool.and_eq_true, decide_eq_true_eq, hv]
        rfl
    | none =>
        simp only [Conc.awaits, Bool.false_eq_true, false_iff]
        rintro ⟨hlt, hserv⟩
        obtain ⟨v, hv, -⟩ := nextWheel_of_serviced hlt hserv
        rw [hnext] at hv
        cases hv
  refine h.of_root hroot fun u => ?_
  have hkeep : (leaveWheel c w n).awaits u = true → c.awaits u = true := by
    intro hu
    obtain ⟨hlt, hserv⟩ := (hnew u).mp hu
    exact (hold u).mpr ⟨hlt.le, hserv⟩
  rcases Conc.passed_of_done hclk hkeep with hsame | ⟨hwas, hnot, hnext, hnow⟩
  · exact .inl hsame
  · right
    refine ⟨hnext, fun x hx hrt => ?_⟩
    -- only the wheel that has just been walked is left
    obtain ⟨hle, hserv⟩ := (hold u).mp hwas
    have hrank : ¬ w.rank < u.rank := by
      intro hlt
      rw [(hnew u).mpr ⟨hlt, hserv⟩] at hnot
      cases hnot
    have hu : u = w := Wheel.rank_injective (by omega)
    rw [hu] at hx hnow hrt
    have hmiss := search_eq_none _ _ _ (h.ordered w) hwalk x hx
    exact hmiss (by rw [hrt, hnow])

/-- The tick thread places a node again ahead of the clock that it reads, and
nobody else moves that clock. -/
theorem Clean.of_act {c : Conc} (h : Clean c) {w : Wheel} {n : Nat} {x : AppTimer}
    {s' : TmrState} (hpc : c.tick = .act w n x) (hact : timerExpiryAction c.mem x = some s') :
    Clean { c with mem := s', tick := .walk w (n + 1) } := by
  have hawaits (clk : s'.clk = c.mem.clk) (v : Wheel) :
      Conc.passed { c with mem := s', tick := .walk w (n + 1) } v = c.passed v := by
    apply Conc.passed_of_eq clk
    simp only [Conc.awaits, hpc, clk]
  unfold timerExpiryAction at hact
  split at hact
  · simp only [Option.bind_eq_bind, Option.bind_eq_some_iff] at hact
    obtain ⟨p, -, tmr, -, hs'⟩ := hact
    cases hs'
    exact h.of_root rfl fun v => .inl (hawaits rfl v)
  · rcases findTmrSlotAndPlace_cases hact with ⟨-, rfl⟩ | ⟨q, p, tmr, hq, -, -, rfl⟩
    · exact h.of_root rfl fun v => .inl (hawaits rfl v)
    · obtain ⟨-, hgap, hne, -⟩ := place_eq_some hq
      have hgap' : (q.rt - c.mem.clk.get q.wheel).toNat = field q.wheel x.ctime := hgap
      have hlt := field_lt q.wheel x.ctime
      obtain ⟨hnow, hbefore⟩ : ¬ Reached q.rt (c.mem.clk.get q.wheel) ∧
          ¬ Reached q.rt (c.mem.clk.get q.wheel - 1) :=
        not_reached_of_ahead (by omega) (by omega)
      refine h.of_add (w := q.wheel) rfl (fun v => hawaits rfl v) ?_
      unfold Conc.passed
      split
      · exact hbefore
      · exact hnow

theorem Clean.of_tick {c c' : Conc} (h : Clean c) (hquiet : Undisturbed c .tick)
    (hstep : concStep c .tick = some c') : Clean c' := by
  obtain ⟨⟨s', pc⟩, htick, rfl⟩ := Option.map_eq_some_iff.mp hstep
  cases hpc : c.tick with
  | out =>
      rw [hpc] at htick
      cases htick
      exact h.of_advance hpc
  | test =>
      rw [hpc] at htick
      cases htick
      exact h.of_test hpc hquiet
  | walk w n =>
      cases hwalk : timerTreeWalk (c.mem.root w) (c.mem.clk.get w) with
      | none =>
          rw [concStep_walk_none hpc hwalk] at hstep
          rw [← Option.some.inj hstep]
          exact h.of_leaveWheel hpc hwalk
      | some x =>
          simp only [hpc, tickStep, hwalk] at htick
          cases htick
          refine h.of_root rfl fun v => .inl ?_
          apply Conc.passed_of_eq
          · rfl
          · simp only [Conc.awaits, hpc]
  | del w n x =>
      simp only [hpc, tickStep, Option.bind_eq_bind, Option.bind_eq_some_iff] at htick
      obtain ⟨y, -, r, hdel, hres⟩ := htick
      cases hres
      refine h.of_del hdel rfl fun v => ?_
      apply Conc.passed_of_eq
      · rfl
      · simp only [Conc.awaits, hpc]
        rfl
  | act w n x =>
      simp only [hpc, tickStep, Option.bind_eq_bind, Option.bind_eq_some_iff] at htick
      obtain ⟨mid, hact, hres⟩ := htick
      cases hres
      exact h.of_act hpc hact

theorem calcAndChoose_frame {s s' : TmrState} {x : AppTimer} {slot : Option (Wheel × AppTimer)}
    (h : calcAndChoose s x = some (s', slot)) : s'.clk = s.clk ∧ s'.root = s.root := by
  simp only [calcAndChoose, calcTime, Option.bind_eq_bind, Option.bind_eq_some_iff,
    Option.some.injEq] at h
  obtain ⟨_, ⟨p, -, tmr, -, rfl⟩, h⟩ := h
  unfold chooseSlot at h
  split at h
  · cases h
    exact ⟨rfl, rfl⟩
  · simp only [Option.bind_eq_bind, Option.bind_eq_some_iff] at h
    obtain ⟨p', -, tmr', -, hres⟩ := h
    cases hres
    exact ⟨rfl, rfl⟩

/-- `start_timer` reads the clock and touches no tree before `timer_add`. -/
theorem startCompute_frame {s s' : TmrState} {ticks : U32} {data : Nat} {handler : Option Nat}
    {flags : U32} {timerOk appOk : Bool} {pc : StartPc}
    (h : startCompute s ticks data handler flags timerOk appOk = some (s', pc)) :
    s'.clk = s.clk ∧ s'.root = s.root := by
  have hid : (allocTimerId s).1.clk = s.clk ∧ (allocTimerId s).1.root = s.root := by
    unfold allocTimerId
    split <;> exact ⟨rfl, rfl⟩
  unfold startCompute at h
  dsimp only at h
  split at h
  · cases h
    exact hid
  · split at h
    · cases h
      exact hid
    · obtain ⟨⟨s₁, slot⟩, hchoose, hres⟩ := Option.bind_eq_some_iff.mp h
      cases hres
      obtain ⟨hclk, hroot⟩ := calcAndChoose_frame hchoose
      exact ⟨hclk.trans hid.1, hroot.trans hid.2⟩

theorem Clean.of_concStep {c c' : Conc} {t : Turn} (h : Clean c) (hquiet : Undisturbed c t)
    (hstep : concStep c t = some c') : Clean c' := by
  cases t with
  | tick => exact h.of_tick hquiet hstep
  | start t ticks data handler flags timerOk appOk =>
      simp only [concStep] at hstep
      split at hstep
      · obtain ⟨⟨s', pc⟩, hcomp, rfl⟩ := Option.map_eq_some_iff.mp hstep
        obtain ⟨hclk, hroot⟩ := startCompute_frame hcomp
        refine h.of_root hroot fun v => .inl (Conc.passed_of_eq hclk ?_)
        simp only [Conc.awaits, hclk]
      · cases hstep
  | app t =>
      simp only [concStep] at hstep
      split at hstep
      · cases hstep
      · rename_i slot hpc
        cases hstep
        cases slot with
        | none => exact h.of_root rfl fun v => .inl rfl
        | some slot => exact h.of_add (w := slot.1) rfl (fun v => rfl) (hquiet slot.1 slot.2 hpc)
      · cases hstep
        exact h.of_root rfl fun v => .inl rfl

theorem clean_init : Clean Conc.init where
  ordered := fun _ => List.Pairwise.nil
  noneMissed := fun _ _ hx => absurd hx List.not_mem_nil

/-- In every run of any number of threads that start timers with the tick
thread, whose steps are undisturbed, no timer is missed in any state. -/
theorem noneMissed_of_undisturbed (turns : List Turn) (c : Conc)
    (hquiet : PartialSteps.Meets concStep Undisturbed Conc.init turns)
    (hrun : PartialSteps.run concStep Conc.init turns = some c) : NoneMissed c :=
  (PartialSteps.run_invariant concStep (fun _ _ _ h hq hs => h.of_concStep hq hs)
    clean_init hquiet hrun).noneMissed

/-- A thread starts a timer of two ticks while the tick thread is between its
advance and its test. -/
theorem noneMissed_start_during_tick :
    ∃ c, PartialSteps.run concStep Conc.init
        [.start 0 2 0 none 0 true true, .tick, .app 0, .app 0, .tick, .tick] = some c ∧
      (c.mem.root .tick).toList.length = 1 ∧ NoneMissed c := by
  refine ⟨_, rfl, rfl, noneMissed_of_undisturbed
    [.start 0 2 0 none 0 true true, .tick, .app 0, .app 0, .tick, .tick] _ ?_ rfl⟩
  refine .cons rfl trivial (.cons rfl nofun (.cons rfl ?_ (.cons rfl nofun
    (.cons rfl ?_ (.cons rfl nofun trivial)))))
  · rintro w x ⟨⟩
    decide
  · intro _ w
    cases w <;> decide

/-- Thread 1 computes `rt = 1` for one tick; before it links the node, the tick
thread moves the clock to 1 and its scan for 1 finds nothing.  The node then
waits for a value that has been scanned. -/
theorem missed_by_late_insert :
    ∃ c c' c'', PartialSteps.run concStep Conc.init
        [.start 0 5 0 none 0 true true, .app 0, .app 0, .start 1 1 0 none 0 true true,
          .tick, .tick] = some c ∧
      c.tick = .walk .tick 0 ∧ timerTreeWalk (c.mem.root .tick) (c.mem.clk.get .tick) = none ∧
      concStep c .tick = some c' ∧ concStep c' (.app 1) = some c'' ∧
      (∃ x ∈ (c''.mem.root .tick).toList, x.rt = c.mem.clk.get .tick) ∧ ¬ NoneMissed c'' := by
  refine ⟨_, _, _, rfl, rfl, rfl, rfl, rfl, ⟨_, .head _, rfl⟩, fun h => ?_⟩
  exact h .tick _ (.head _) (by decide)

end Timers
end TmULThreads
