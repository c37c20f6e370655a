import TmULThreads.Sched.SoftIrq
import TmULThreads.Timers.References

/-!
# Tasks and timers together

The scheduler and the timer manager of the SFS build as one system: `sleep` and
`tm_msleep`, which start a timer that calls `wakeup_task`, the tick interrupt, and the
bottom half, which the task of the soft irqs runs.

`wakes` tells which task a timer is there to wake.  A program can start timers of its
own, but `wakeup_task` is not a handler that it names, and it is never told the handle
of a timer that a sleep has started.
-/

namespace TmULThreads
namespace ThreadLib

open Sched (SchedState TaskId softirqD schedStep)
open Timers

structure LibState where
  sched : SchedState
  tmr : TmrState

/-- `wakeup_task` as a handler; the handlers of the program have other numbers. -/
def wakeupHandler : Nat := 0

/-- The task that the timer `p` wakes when it expires. -/
def wakes (s : TmrState) (p : TimerId) : Option TaskId :=
  (s.label p).bind fun l => if l.handler = some wakeupHandler then some l.data else none

/-! ## Sleeping -/

def tmConvertMsecToTick (msecs : U32) : U32 := msecs / 20

inductive SleepCall where
  | sleep (secs : U32)
  | tmMsleep (msecs : U32)
  deriving DecidableEq, Repr

/-- The time that the call gives to `start_timer`; `none` where it returns before
that. -/
def SleepCall.ticks : SleepCall → Option U32
  | .sleep secs => if secs = 0 then none else some (secs * tmGetTicksPerSecond .sfs)
  | .tmMsleep msecs => if msecs < 20 then none else some (tmConvertMsecToTick msecs)

/-- The `start_timer` of a sleep.  The calls drop the handle that it returns. -/
def startWakeup (s : LibState) (ticks : U32) (timerOk appOk : Bool) :
    Option (LibState × Option TimerId) := do
  let (tmr, new) ← startTimer .sfs s.tmr ticks s.sched.current (some wakeupHandler) 0 timerOk appOk
  some ({ s with tmr := tmr }, new)

/-- `sleep` and `tm_msleep` up to their `schedule`. -/
def SleepCall.exec (s : LibState) (c : SleepCall) (timerOk appOk : Bool) (now : Int) :
    Option LibState :=
  match c.ticks with
  | none => some s
  | some ticks => do
      let (s, _) ← startWakeup s ticks timerOk appOk
      some { s with sched := Sched.addTaskToWaitQ s.sched s.sched.current now }

/-! ## Steps -/

/-- The `softirq_wakeup` of `service_timers`. -/
def softirqWakeup (s : LibState) (now : Int) : Option SchedState :=
  if timersPendingForService .sfs { s.tmr with clk := s.tmr.clk.advance .sfs } then
    schedStep s.sched (.wakeup softirqD now)
  else some s.sched

/-- `tick_tmr_intr` up to its `schedule`. -/
def tickTmrIntr (s : LibState) (now : Int) : Option LibState := do
  let tmr ← updateTimes .sfs s.tmr
  let sched ← softirqWakeup s now
  let sched ← schedStep sched (.tick now)
  some ⟨sched, tmr⟩

/-- The handler of the timer `p`.  What a handler of the program does are steps of their
own. -/
def timeOutHandler (s : LibState) (p : TimerId) (now : Int) : Option SchedState :=
  match wakes s.tmr p with
  | some t => schedStep s.sched (.wakeup t now)
  | none => some s.sched

/-- One turn of the loop of `process_expd_timers`. -/
def serveExpd (s : LibState) (now : Int) (appOk : Bool) : Option LibState :=
  match s.tmr.expdTmrs with
  | [] => none
  | ptmr :: _ => do
      let p ← ptmr.timer
      let sched ← timeOutHandler s p now
      let tmr ← finishExpd .sfs s.tmr appOk
      some ⟨sched, tmr⟩

/-- The call neither names `wakeup_task` nor is about the timer of a sleep. -/
def foreign (s : TmrState) (c : Call) : Bool :=
  ((Op.call c).label.all fun l => l.handler ≠ some wakeupHandler) &&
    c.target.all fun p => (wakes s p).isNone

inductive LibOp where
  | sched (op : Sched.Op)
  | call (c : Call)
  | startSleep (c : SleepCall) (timerOk appOk : Bool)
  | tick (now : Int)
  | bottomHalf
  | serve (now : Int) (appOk : Bool)
  deriving DecidableEq, Repr

/-- A sleep is its `start_timer`, an `add_task_to_wait_Q` and a `schedule`; interrupts
come in between. -/
def libStep (s : LibState) : LibOp → Option LibState
  | .sched (.tick _) => none
  | .sched op => (schedStep s.sched op).map fun sched => { s with sched := sched }
  | .call c => if foreign s.tmr c then (c.exec .sfs s.tmr).map fun tmr => { s with tmr := tmr } else none
  | .startSleep c timerOk appOk => do
      if s.sched.current = s.sched.idle then none
      else
        let ticks ← c.ticks
        (startWakeup s ticks timerOk appOk).map Prod.fst
  | .tick now => tickTmrIntr s now
  | .bottomHalf =>
      if s.sched.current = softirqD then
        (Timers.step .sfs s.tmr .bottomHalf).map fun tmr => { s with tmr := tmr }
      else none
  | .serve now appOk => if s.sched.current = softirqD then serveExpd s now appOk else none

def libInit (now : Int) : LibState := ⟨Sched.tmlibInit now, initTimerMgr⟩

/-! ## The two parts along a step

A step of the whole is a few steps of the scheduler and at most one of the timer
manager. -/

def LibState.schedOps (s : LibState) : LibOp → List Sched.Op
  | .sched op => [op]
  | .tick now =>
      if timersPendingForService .sfs { s.tmr with clk := s.tmr.clk.advance .sfs } then
        [.wakeup softirqD now, .tick now]
      else [.tick now]
  | .serve now _ =>
      match s.tmr.expdTmrs.head?.bind fun x => x.timer.bind (wakes s.tmr) with
      | some t => [.wakeup t now]
      | none => []
  | .call _ | .startSleep .. | .bottomHalf => []

def LibState.timerOp (s : LibState) : LibOp → Option Op
  | .sched _ => none
  | .call c => some (.call c)
  | .startSleep c timerOk appOk => c.ticks.map fun ticks =>
      .call (.startTimer ticks s.sched.current (some wakeupHandler) 0 timerOk appOk)
  | .tick _ => some .tick
  | .bottomHalf => some .bottomHalf
  | .serve _ appOk => some (.finishExpd appOk)

/-- The part that a step does not concern stays as it is. -/
structure Parts (s : LibState) (op : LibOp) (s' : LibState) : Prop where
  sched : PartialSteps.run schedStep s.sched (s.schedOps op) = some s'.sched
  tmr : match s.timerOp op with
    | none => s'.tmr = s.tmr
    | some top => Timers.step .sfs s.tmr top = some s'.tmr

theorem parts_tick {s s' : LibState} {now : Int} (h : tickTmrIntr s now = some s') :
    Parts s (.tick now) s' := by
  simp only [tickTmrIntr, Option.bind_eq_bind, Option.bind_eq_some_iff] at h
  obtain ⟨tmr, htmr, mid, hmid, sched, hsched, hs'⟩ := h
  cases hs'
  refine ⟨?_, htmr⟩
  unfold LibState.schedOps
  unfold softirqWakeup at hmid
  split at hmid
  · rename_i hpending
    simp only [hpending, if_true, PartialSteps.run, hmid, hsched]
  · rename_i hpending
    cases hmid
    simp only [hpending, Bool.false_eq_true, if_false, PartialSteps.run, hsched]

theorem parts_serve {s s' : LibState} {now : Int} {appOk : Bool}
    (h : serveExpd s now appOk = some s') : Parts s (.serve now appOk) s' := by
  unfold serveExpd at h
  split at h
  · cases h
  · rename_i x rest hlist
    simp only [Option.bind_eq_bind, Option.bind_eq_some_iff] at h
    obtain ⟨p, hp, sched, hsched, tmr, htmr, hs'⟩ := h
    cases hs'
    refine ⟨?_, htmr⟩
    simp only [LibState.schedOps, hlist, List.head?_cons, Option.bind_some, hp]
    unfold timeOutHandler at hsched
    cases hwakes : wakes s.tmr p with
    | none =>
        rw [hwakes] at hsched
        exact hsched
    | some t =>
        rw [hwakes] at hsched
        simp only [PartialSteps.run, hsched]

theorem parts_of_libStep {s s' : LibState} {op : LibOp} (h : libStep s op = some s') :
    Parts s op s' := by
  cases op with
  | sched op =>
      have hstep : (schedStep s.sched op).map (fun sched => { s with sched := sched }) = some s' := by
        cases op with
        | tick now => cases h
        | _ => exact h
      obtain ⟨sched, hsched, rfl⟩ := Option.map_eq_some_iff.mp hstep
      refine ⟨?_, rfl⟩
      simp only [LibState.schedOps, PartialSteps.run, hsched]
  | call c =>
      simp only [libStep] at h
      split at h
      · obtain ⟨tmr, hexec, rfl⟩ := Option.map_eq_some_iff.mp h
        exact ⟨rfl, hexec⟩
      · cases h
  | startSleep c timerOk appOk =>
      simp only [libStep] at h
      split at h
      · cases h
      · simp only [startWakeup, Option.bind_eq_bind, Option.bind_eq_some_iff,
          Option.map_eq_some_iff] at h
        obtain ⟨ticks, hticks, _, ⟨⟨tmr, new⟩, hstart, hpair⟩, rfl⟩ := h
        cases hpair
        refine ⟨rfl, ?_⟩
        simp only [LibState.timerOp, hticks, Option.map_some]
        exact Option.map_eq_some_iff.mpr ⟨_, hstart, rfl⟩
  | tick now => exact parts_tick h
  | bottomHalf =>
      simp only [libStep] at h
      split at h
      · obtain ⟨tmr, hstep, rfl⟩ := Option.map_eq_some_iff.mp h
        exact ⟨rfl, hstep⟩
      · cases h
  | serve now appOk =>
      simp only [libStep] at h
      split at h
      · exact parts_serve h
      · cases h

/-- The scheduler keeps whatever its own steps keep. -/
theorem Parts.sched_invariant {s s' : LibState} {op : LibOp} (h : Parts s op s')
    {J : SchedState → Prop} (hkeep : ∀ u op u', J u → schedStep u op = some u' → J u')
    (hs : J s.sched) : J s'.sched :=
  PartialSteps.run_invariant_always schedStep hkeep hs h.sched

theorem Parts.numbered {s s' : LibState} {op : LibOp} (h : Parts s op s') (hn : Numbered s.tmr) :
    Numbered s'.tmr := by
  have htmr := h.tmr
  split at htmr
  · rw [htmr]
    exact hn
  · exact hn.of_evolves (evolves_of_step htmr)

/-! ## Timers that wake a task -/

/-- A timer that is referred to wakes `t`. -/
def Rouses (s : TmrState) (p : TimerId) (t : TaskId) : Prop := p ∈ s.refs ∧ wakes s p = some t

theorem wakes_eq_some {s : TmrState} {p : TimerId} {t : TaskId} :
    wakes s p = some t ↔
      ∃ l, s.label p = some l ∧ l.handler = some wakeupHandler ∧ l.data = t := by
  unfold wakes
  rw [Option.bind_eq_some_iff]
  refine exists_congr fun l => and_congr_right fun _ => ?_
  split <;> simp_all

theorem Rouses.of_evolves {s s' : TmrState} {op : Op} (he : Evolves s op s') {p : TimerId}
    {t : TaskId} (h : Rouses s' p t) :
    Rouses s p t ∨ (op.arms s = some p ∧ wakes s p = some t) ∨
      ∃ l, op.label = some l ∧ l.handler = some wakeupHandler ∧ p = s.nextTimer ∧ l.data = t := by
  obtain ⟨l, hl, hhandler, hdata⟩ := wakes_eq_some.mp h.2
  rcases he.label p l hl with hold | ⟨hnew, -, hlabel⟩
  · have hwakes : wakes s p = some t := wakes_eq_some.mpr ⟨l, hold, hhandler, hdata⟩
    rcases he.refs p h.1 with href | ⟨harms, -⟩
    · exact .inl ⟨href, hwakes⟩
    · exact .inr (.inl ⟨harms, hwakes⟩)
  · exact .inr (.inr ⟨l, hlabel, hhandler, hnew, hdata⟩)

theorem wakes_nextTimer {s : TmrState} (hn : Numbered s) : wakes s s.nextTimer = none := by
  cases hl : s.label s.nextTimer with
  | none => simp only [wakes, hl, Option.bind_none]
  | some l => exact absurd (hn.label _ (Option.isSome_of_eq_some hl)) (Nat.lt_irrefl _)

/-- A call arms the timer that it allocates or the one that it is about. -/
theorem arms_call {s : TmrState} {c : Call} {p : TimerId} (h : (Op.call c).arms s = some p) :
    p = s.nextTimer ∨ c.target = some p := by
  cases c with
  | startTimer => exact .inl (Option.some.inj h).symm
  | modTimer => exact .inr h
  | setupTimer => cases h
  | timerRestart => cases h
  | stopTimer => cases h
  | delTimer => cases h

theorem Rouses.of_foreign {s s' : TmrState} {c : Call} (hn : Numbered s)
    (hforeign : foreign s c = true) (he : Evolves s (.call c) s') {p : TimerId} {t : TaskId}
    (h : Rouses s' p t) : Rouses s p t := by
  simp only [foreign, Bool.and_eq_true, Option.all_eq_true, decide_eq_true_eq,
    Option.isNone_iff_eq_none] at hforeign
  rcases h.of_evolves he with hold | ⟨harms, hwakes⟩ | ⟨l, hlabel, hhandler, -⟩
  · exact hold
  · have hnone : wakes s p = none := by
      rcases arms_call harms with rfl | htarget
      · exact wakes_nextTimer hn
      · exact hforeign.2 p htarget
    rw [hnone] at hwakes
    cases hwakes
  · exact absurd hhandler (hforeign.1 l hlabel)

theorem foreign_of_libStep {s s' : LibState} {c : Call} (h : libStep s (.call c) = some s') :
    foreign s.tmr c = true := by
  by_contra hnot
  simp only [libStep, hnot, if_false, reduceCtorEq] at h

/-- Only a sleep makes a timer that wakes a task, and it is the current task. -/
theorem Rouses.of_libStep {s s' : LibState} {op : LibOp} (hn : Numbered s.tmr)
    (hstep : libStep s op = some s') {p : TimerId} {t : TaskId} (h : Rouses s'.tmr p t) :
    Rouses s.tmr p t ∨
      (∃ c timerOk appOk, op = .startSleep c timerOk appOk) ∧ p = s.tmr.nextTimer ∧
        t = s.sched.current := by
  have htmr := (parts_of_libStep hstep).tmr
  -- a step that neither arms nor allocates
  have hplain {top : Op} (htop : Timers.step .sfs s.tmr top = some s'.tmr)
      (harms : top.arms s.tmr = none) (hlabel : top.label = none) : Rouses s.tmr p t := by
    rcases h.of_evolves (evolves_of_step htop) with hold | ⟨hsome, -⟩ | ⟨l, hsome, -⟩
    · exact hold
    · exact absurd (harms.symm.trans hsome) (Option.some_ne_none p).symm
    · exact absurd (hlabel.symm.trans hsome) (Option.some_ne_none l).symm
  cases op with
  | sched op =>
      have hsame : s'.tmr = s.tmr := htmr
      rw [hsame] at h
      exact .inl h
  | call c =>
      exact .inl (h.of_foreign hn (foreign_of_libStep hstep) (evolves_of_step htmr))
  | startSleep c timerOk appOk =>
      cases hticks : c.ticks with
      | none =>
          simp only [LibState.timerOp, hticks, Option.map_none] at htmr
          rw [htmr] at h
          exact .inl h
      | some ticks =>
          simp only [LibState.timerOp, hticks, Option.map_some] at htmr
          rcases h.of_evolves (evolves_of_step htmr) with
            hold | ⟨harms, hwakes⟩ | ⟨l, hlabel, -, hp, hdata⟩
          · exact .inl hold
          · cases harms
            rw [wakes_nextTimer hn] at hwakes
            cases hwakes
          · cases hlabel
            exact .inr ⟨⟨c, timerOk, appOk, rfl⟩, hp, hdata.symm⟩
  | tick now => exact .inl (hplain htmr rfl rfl)
  | bottomHalf => exact .inl (hplain htmr rfl rfl)
  | serve now appOk => exact .inl (hplain htmr rfl rfl)

end ThreadLib
end TmULThreads
