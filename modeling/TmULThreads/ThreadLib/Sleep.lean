import TmULThreads.ThreadLib.Model
import TmULThreads.Timers.Arming

/-!
# What wakes a sleeping task

`sleep` and `tm_msleep` put the current task on the wait queue whatever `start_timer`
has returned.  `armed_exec_iff` states when a timer that wakes the task is then in one
of the trees: one is there from before, or `start_timer` passes its checks and the time
is not a multiple of the 1024 hours that the time word holds.  The multiplication in
`sleep` wraps around, so that 2 ^ 31 seconds are no time at all.
-/

namespace TmULThreads
namespace ThreadLib

open Sched (TaskId)
open Timers

/-- A timer that wakes `t` is in one of the trees. -/
def Armed (s : TmrState) (t : TaskId) : Prop := ∃ x ∈ s.placed, x.timer.bind (wakes s) = some t

instance (s : TmrState) (t : TaskId) : Decidable (Armed s t) :=
  inferInstanceAs (Decidable (∃ x ∈ s.placed, _))

/-- `start_timer` places the timer that it is asked for. -/
def Places (s : TmrState) (ticks : U32) (timerOk appOk : Bool) : Prop :=
  s.Starts timerOk appOk ∧ ticks.toNat % maxTicks .sfs ≠ 0

/-! ## The timer of a sleep -/

/-- A new handle does not change what the placed timers do. -/
theorem timer_bind_wakes {s s' : TmrState} (hn : Numbered s)
    (hlabel : ∀ p < s.nextTimer, s'.label p = s.label p) {x : AppTimer} (hx : x ∈ s.placed) :
    x.timer.bind (wakes s') = x.timer.bind (wakes s) := by
  cases hp : x.timer with
  | none => rfl
  | some p =>
      have hlt := hn.refs p (mem_refs.mpr ⟨x, mem_apps.mpr (.inl hx), hp⟩)
      simp only [Option.bind_some, wakes, hlabel p hlt]

theorem armed_congr {s s' : TmrState} (hn : Numbered s) (hplaced : s'.placed = s.placed)
    (hlabel : ∀ p < s.nextTimer, s'.label p = s.label p) (t : TaskId) :
    Armed s' t ↔ Armed s t := by
  unfold Armed
  rw [hplaced]
  refine exists_congr fun x => and_congr_right fun hx => ?_
  rw [timer_bind_wakes hn hlabel hx]

theorem armed_startTimer_iff {s s' : TmrState} (hn : Numbered s) {ticks : U32} {t : TaskId}
    {timerOk appOk : Bool} {res : Option TimerId}
    (h : startTimer .sfs s ticks t (some wakeupHandler) 0 timerOk appOk = some (s', res)) :
    Armed s' t ↔ Armed s t ∨ Places s ticks timerOk appOk := by
  rcases startTimer_cases h with ⟨-, hfail, i, hs'⟩ | ⟨-, hstarts, harm⟩
  · have hsame : Armed s' t ↔ Armed s t := by
      rcases hs' with rfl | rfl
      · exact armed_congr hn rfl (fun _ _ => rfl) t
      · have hplaced : (s.grow i none 0).placed = s.placed := rfl
        exact armed_congr hn hplaced (fun _ hp => label_grow_of_lt hp) t
    rw [hsame, or_iff_left fun hplaces => hfail hplaces.1]
  · obtain ⟨-, hlabels, -⟩ := calcAndPlace_refs rfl harm
    have hlabel (p : TimerId) (hp : p < s.nextTimer) : s'.label p = s.label p :=
      (hlabels p).trans (label_grow_of_lt hp)
    have hplaced := calcAndPlace_placed rfl rfl (Function.update_self ..) harm
    have hempty : packCtime .sfs (s.newTimer ticks t (some wakeupHandler) 0).rmt = 0 ↔
        ticks.toNat % maxTicks .sfs = 0 := packCtime_eq_zero_iff .sfs ticks
    rcases hplaced with ⟨hzero, hsame⟩ | ⟨hne, y, hy, hmem⟩
    · rw [armed_congr hn hsame hlabel, or_iff_left fun hplaces => hplaces.2 (hempty.mp hzero)]
    · -- the new node is for the new timer, which wakes `t`
      have hplaces : Places s ticks timerOk appOk := ⟨hstarts, fun hmod => hne (hempty.mpr hmod)⟩
      refine iff_of_true ⟨y, (hmem y).mpr (.inl rfl), ?_⟩ (.inr hplaces)
      have hnew : s'.label s.nextTimer = some ⟨some wakeupHandler, t, timerOnce⟩ := by
        rw [hlabels]
        simp [TmrState.label, TmrState.grow, TmrState.newTimer, Timer.label]
      simp only [hy, Option.bind_some, wakes, hnew, if_true]

/-! ## Whole calls -/

/-- A sleep that puts the current task on the wait queue leaves a timer in the trees
that wakes the task if and only if there was one, or `start_timer` has placed its
own. -/
theorem armed_exec_iff {ops : List Op} {s : LibState} {c : SleepCall} {ticks : U32}
    (hrun : PartialSteps.run (Timers.step .sfs) initTimerMgr ops = some s.tmr)
    (hticks : c.ticks = some ticks) (honrq : (s.sched.tsk s.sched.current).onrq = true)
    (timerOk appOk : Bool) (now : Int) :
    ∃ s', c.exec s timerOk appOk now = some s' ∧ s.sched.current ∈ s'.sched.hd .wq ∧
      (Armed s'.tmr s.sched.current ↔
        Armed s.tmr s.sched.current ∨ Places s.tmr ticks timerOk appOk) := by
  obtain ⟨⟨tmr, new⟩, hstart⟩ := Option.isSome_iff_exists.mp
    (startTimer_isSome .sfs s.tmr ticks s.sched.current (some wakeupHandler) 0 timerOk appOk)
  refine ⟨⟨Sched.addTaskToWaitQ s.sched s.sched.current now, tmr⟩, ?_, ?_,
    armed_startTimer_iff (numbered_of_run hrun) hstart⟩
  · simp only [SleepCall.exec, hticks, startWakeup, hstart, Option.bind_eq_bind, Option.bind_some]
  · rcases Sched.addTaskToWaitQ_cases s.sched now with ⟨hoff, -⟩ | ⟨-, hwaited, -⟩
    · rw [honrq] at hoff
      cases hoff
    · exact (hwaited.moved.mem_iff _ _).mpr (.inl ⟨rfl, rfl⟩)

/-- The program sleeps for 20 ms right after `tmlib_init`. -/
theorem armed_msleep_once :
    ∃ s', (SleepCall.tmMsleep 20).exec (libInit 0) true true 0 = some s' ∧
      Armed s'.tmr (libInit 0).sched.current := by
  have hrun : PartialSteps.run (Timers.step .sfs) initTimerMgr [] = some (libInit 0).tmr := rfl
  have hticks : (SleepCall.tmMsleep 20).ticks = some 1 := by decide
  have hplaces : Places (libInit 0).tmr 1 true true := by
    refine ⟨by decide, ?_⟩
    decide
  obtain ⟨s', hexec, -, hiff⟩ := armed_exec_iff hrun hticks (by decide +kernel) true true 0
  exact ⟨s', hexec, hiff.mpr (.inr hplaces)⟩

/-- A sleep of 2 ^ 31 seconds: the product with the 50 ticks of a second is zero, and
nothing is placed. -/
theorem not_armed_longSleep :
    ∃ s', (SleepCall.sleep 0x80000000).exec (libInit 0) true true 0 = some s' ∧
      (libInit 0).sched.current ∈ s'.sched.hd .wq ∧ ¬ Armed s'.tmr (libInit 0).sched.current := by
  have hfacts : ((SleepCall.sleep 0x80000000).exec (libInit 0) true true 0).map
      (fun s' => (decide ((libInit 0).sched.current ∈ s'.sched.hd .wq),
        decide (Armed s'.tmr (libInit 0).sched.current))) = some (true, false) := by
    decide +kernel
  obtain ⟨s', hexec, hs'⟩ := Option.map_eq_some_iff.mp hfacts
  simp only [Prod.mk.injEq, decide_eq_true_eq, decide_eq_false_iff_not] at hs'
  exact ⟨s', hexec, hs'.1, hs'.2⟩

end ThreadLib
end TmULThreads
