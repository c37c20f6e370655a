import TmULThreads.Sched.Sleepers
import TmULThreads.ThreadLib.Stale

/-!
# What ends a sleep

Sleeps of many tasks, with waits for events, posts and expiries in between.  Every
task has a place in its `sleep` or `tm_msleep`, which remembers the timer that this
call has started; neither of them has a loop around its `schedule`.

A post ends a sleep like any other wait, and the timer of that sleep then ends a later
wait.  `wakeOk_of_run` shows that nothing else goes wrong, provided that no task sleeps
while it is the cached task, when `schedule` returns at once.
-/

namespace TmULThreads
namespace ThreadLib

open Sched (SchedState TaskId Sane Calm softirqD schedStep)
open Timers

/-- Where a task is in a sleep, with the timer that the call has started. -/
inductive SleepPc where
  | out
  | armed (h : Option TimerId)
  | queued (h : Option TimerId)
  | asleep (h : Option TimerId)
  deriving DecidableEq, Repr

def SleepPc.timer : SleepPc → Option TimerId
  | .out => none
  | .armed h | .queued h | .asleep h => h

def SleepPc.isBlocked : SleepPc → Bool
  | .queued _ | .asleep _ => true
  | .out | .armed _ => false

def SleepPc.isAsleep : SleepPc → Bool
  | .asleep _ => true
  | .out | .armed _ | .queued _ => false

structure SleepSys where
  lib : LibState
  pc : TaskId → SleepPc

def SleepSys.current (s : SleepSys) : TaskId := s.lib.sched.current

def SleepSys.goto (s : SleepSys) (lib : LibState) (pc : SleepPc) : SleepSys :=
  ⟨lib, Function.update s.pc s.current pc⟩

/-- What tasks do outside of sleeps: they wait, post, spawn and use timers. -/
def LibOp.isMixed : LibOp → Bool
  | .sched (.wakeup ..) => false
  | .sched op => op.isPlain
  | .startSleep .. => false
  | .call _ | .tick _ | .bottomHalf | .serve .. => true

/-- What can come between two statements of a sleep. -/
def LibOp.isInterrupt : LibOp → Bool
  | .tick _ | .sched (.schedule _) => true
  | _ => false

inductive SleepOp where
  | lib (op : LibOp)
  | enter (c : SleepCall) (timerOk appOk : Bool)
  | queue (now : Int)
  | block (now : Int)
  | ret
  deriving DecidableEq, Repr

def sleepStep (s : SleepSys) : SleepOp → Option SleepSys
  | .lib op =>
      if op.isMixed ∧ (op.isInterrupt ∨ s.pc s.current = .out) then
        (libStep s.lib op).map fun lib => { s with lib := lib }
      else none
  | .enter c timerOk appOk =>
      if s.pc s.current = .out ∧ s.current ≠ s.lib.sched.idle then do
        let ticks ← c.ticks
        let (lib, h) ← startWakeup s.lib ticks timerOk appOk
        some (s.goto lib (.armed h))
      else none
  | .queue now =>
      match s.pc s.current with
      | .armed h => (libStep s.lib (.sched (.addToWaitQ now))).map fun lib => s.goto lib (.queued h)
      | _ => none
  | .block now =>
      match s.pc s.current with
      | .queued h => (libStep s.lib (.sched (.schedule now))).map fun lib => s.goto lib (.asleep h)
      | _ => none
  | .ret =>
      match s.pc s.current with
      | .asleep _ => some (s.goto s.lib .out)
      | _ => none

def sleepInit (now : Int) : SleepSys := ⟨libInit now, fun _ => .out⟩

/-- The timer whose handler the step calls. -/
def served (s : SleepSys) : SleepOp → Option TimerId
  | .lib (.serve ..) => s.lib.tmr.expdTmrs.head?.bind AppTimer.timer
  | _ => none

/-- A step ends a sleep only by the timer that the call has started, and the timer of a
sleep ends no other wait. -/
structure WakeOk (s : SleepSys) (i : SleepOp) (s' : SleepSys) : Prop where
  only : ∀ t, (s.pc t).isBlocked = true → t ∈ s.lib.sched.hd .wq → t ∉ s'.lib.sched.hd .wq →
    ∃ p, (s.pc t).timer = some p ∧ served s i = some p
  own : ∀ p t, served s i = some p → wakes s.lib.tmr p = some t → t ∈ s.lib.sched.hd .wq →
    t ∉ s'.lib.sched.hd .wq → (s.pc t).timer = some p

/-- A post does not find a task that is blocked in a sleep, and neither the cached task
nor the task of the soft irqs enters one. -/
def Undisturbed (s : SleepSys) : SleepOp → Prop
  | .lib (.sched (.postEvent tid _ _)) =>
      ∀ t ∈ Sched.findTask s.lib.sched tid, (s.pc t).isBlocked = false
  | .enter .. => s.lib.sched.nxtImmTask ≠ some s.current ∧ s.current ≠ softirqD
  | _ => True

instance (s : SleepSys) : ∀ i, Decidable (Undisturbed s i)
  | .lib (.sched (.postEvent tid _ _)) =>
      inferInstanceAs (Decidable (∀ t ∈ Sched.findTask s.lib.sched tid, (s.pc t).isBlocked = false))
  | .enter .. => inferInstanceAs (Decidable (_ ∧ _))
  | .lib (.sched (.spawn ..)) | .lib (.sched (.addToWaitQ _)) | .lib (.sched (.waitOnFd _))
  | .lib (.sched (.lock _)) | .lib (.sched (.unlock ..)) | .lib (.sched (.wakeup ..))
  | .lib (.sched (.wakeIo ..)) | .lib (.sched (.tick _)) | .lib (.sched (.schedule _))
  | .lib (.call _) | .lib (.startSleep ..) | .lib (.tick _) | .lib .bottomHalf | .lib (.serve ..)
  | .queue _ | .block _ | .ret => isTrue trivial

/-! ## The scheduler along a step of the library -/

/-- The task that a post or a handler wakes. -/
def roused (s : LibState) : LibOp → Option TaskId
  | .sched (.postEvent tid _ _) => Sched.findTask s.sched tid
  | .serve .. => s.tmr.expdTmrs.head?.bind fun x => x.timer.bind (wakes s.tmr)
  | _ => none

theorem meets_schedOps {s : LibState} {op : LibOp} {t : TaskId} {Q : SchedState → Prop}
    (hmixed : op.isMixed = true) (hdaemon : t ≠ softirqD) (hQ : roused s op = some t → Q s.sched) :
    PartialSteps.Meets schedStep
      (fun u o => o.isPlain = true ∧ (Sched.wakens u o = some t → Q u)) s.sched (s.schedOps op) := by
  have hsilent : ∀ {u o}, Sched.wakens u o = none → Sched.wakens u o = some t → Q u := by
    intro u o hnone hwakens
    rw [hnone] at hwakens
    cases hwakens
  cases op with
  | sched o =>
      refine ⟨?_, fun _ _ => trivial⟩
      cases o with
      | postEvent tid event now => exact ⟨rfl, hQ⟩
      | wakeup => cases hmixed
      | waitOnFd => cases hmixed
      | lock => cases hmixed
      | unlock => cases hmixed
      | wakeIo => cases hmixed
      | spawn => exact ⟨rfl, hsilent rfl⟩
      | addToWaitQ => exact ⟨rfl, hsilent rfl⟩
      | tick => exact ⟨rfl, hsilent rfl⟩
      | schedule => exact ⟨rfl, hsilent rfl⟩
  | startSleep => cases hmixed
  | call => trivial
  | bottomHalf => trivial
  | tick now =>
      simp only [LibState.schedOps]
      split
      · -- the interrupt wakes the task of the soft irqs
        refine ⟨⟨rfl, fun hwakens => ?_⟩, fun _ _ => ⟨⟨rfl, hsilent rfl⟩, fun _ _ => trivial⟩⟩
        exact absurd (Option.some.inj hwakens).symm hdaemon
      · exact ⟨⟨rfl, hsilent rfl⟩, fun _ _ => trivial⟩
  | serve now appOk =>
      simp only [LibState.schedOps]
      split
      · rename_i t' ht'
        refine ⟨⟨rfl, fun hwakens => hQ ?_⟩, fun _ _ => trivial⟩
        exact ht'.trans hwakens
      · trivial

theorem calm_of_libStep {s s' : LibState} {op : LibOp} {blocked asleep : Bool} {t : TaskId}
    (h : Calm blocked asleep t s.sched) (hmixed : op.isMixed = true) (hdaemon : t ≠ softirqD)
    (hroused : roused s op = some t → blocked = false ∧ s.sched.current ≠ t)
    (hstep : libStep s op = some s') : Calm blocked asleep t s'.sched :=
  PartialSteps.run_invariant schedStep (fun _ _ _ hu hok hu' => hu.of_schedStep hok.1 hok.2 hu') h
    (meets_schedOps (Q := fun u => blocked = false ∧ u.current ≠ t) hmixed hdaemon hroused)
    (parts_of_libStep hstep).sched

theorem mem_wq_of_libStep {s s' : LibState} {op : LibOp} {t : TaskId} (hsane : Sane s.sched)
    (hmixed : op.isMixed = true) (hdaemon : t ≠ softirqD) (hroused : roused s op ≠ some t)
    (hstep : libStep s op = some s') (ht : t ∈ s.sched.hd .wq) : t ∈ s'.sched.hd .wq := by
  have hinv : Sane s'.sched ∧ t ∈ s'.sched.hd .wq :=
    PartialSteps.run_invariant schedStep (I := fun u => Sane u ∧ t ∈ u.hd .wq)
      (fun u o u' hu hok hu' => ⟨hu.1.of_schedStep hu',
        Sched.mem_wq_of_schedStep hu.1.toListsOk hok.1 hu' hu.2 hok.2⟩)
      ⟨hsane, ht⟩ (meets_schedOps (Q := fun _ => False) hmixed hdaemon hroused)
      (parts_of_libStep hstep).sched
  exact hinv.2

/-! ## Timers of sleeps are used once -/

def AllOnce (s : TmrState) : Prop :=
  ∀ p l, s.label p = some l → l.handler = some wakeupHandler → l.flags = timerOnce

theorem AllOnce.of_libStep {s s' : LibState} {op : LibOp} (h : AllOnce s.tmr)
    (hstep : libStep s op = some s') : AllOnce s'.tmr := by
  intro p l hl hhandler
  have htmr := (parts_of_libStep hstep).tmr
  cases hop : s.timerOp op with
  | none =>
      rw [hop] at htmr
      exact h p l (htmr ▸ hl) hhandler
  | some top =>
      rw [hop] at htmr
      rcases (evolves_of_step htmr).label p l hl with hold | ⟨-, -, hlabel⟩
      · exact h p l hold hhandler
      · -- the timer is new: a sleep has started it, or it is the program's own
        cases op with
        | startSleep c timerOk appOk =>
            obtain ⟨ticks, -, rfl⟩ := Option.map_eq_some_iff.mp hop
            cases hlabel
            rfl
        | call c =>
            cases hop
            have hforeign := foreign_of_libStep hstep
            simp only [foreign, hlabel, Option.all_some, Bool.and_eq_true, decide_eq_true_eq] at hforeign
            exact absurd hhandler hforeign.1
        | sched => cases hop
        | tick =>
            cases hop
            cases hlabel
        | bottomHalf =>
            cases hop
            cases hlabel
        | serve =>
            cases hop
            cases hlabel

theorem not_rouses_served {s s' : LibState} {now : Int} {appOk : Bool} (hall : AllOnce s.tmr)
    (hstep : libStep s (.serve now appOk) = some s') {p : TimerId} {t : TaskId}
    (hp : s.tmr.expdTmrs.head?.bind AppTimer.timer = some p) (hwakes : wakes s.tmr p = some t) :
    ¬ Rouses s'.tmr p t := by
  rintro ⟨-, hnew⟩
  obtain ⟨x, hx, hxp⟩ := Option.bind_eq_some_iff.mp hp
  obtain ⟨rest, hlist⟩ := List.head?_eq_some_iff.mp hx
  obtain ⟨l, hl, hhandler, -⟩ := wakes_eq_some.mp hwakes
  have honce : l.flags &&& timerOnce ≠ 0 := by
    rw [hall p l hl hhandler]
    decide
  have hnone := label_finishExpd hlist hxp hl honce (parts_of_libStep hstep).tmr
  obtain ⟨l', hl', -⟩ := wakes_eq_some.mp hnew
  rw [hnone] at hl'
  cases hl'

/-! ## The invariant -/

/-- A timer that wakes a task is the one of the sleep that the task is in, and the task
is kept from running as far as the sleep has got. -/
structure Timed (s : SleepSys) : Prop where
  fresh : Fresh s.lib
  daemon : s.pc softirqD = .out
  once : AllOnce s.lib.tmr
  timer : ∀ p t, Rouses s.lib.tmr p t → (s.pc t).timer = some p
  calm : ∀ p t, Rouses s.lib.tmr p t →
    Calm (s.pc t).isBlocked (s.pc t).isAsleep t s.lib.sched

theorem timed_sleepInit (now : Int) : Timed (sleepInit now) where
  fresh := fresh_libInit now
  daemon := rfl
  once p l hl := by cases hl
  timer p t h := by cases h.1
  calm p t h := by cases h.1

theorem Timed.pc_ne_out {s : SleepSys} (h : Timed s) {p : TimerId} {t : TaskId}
    (hrouses : Rouses s.lib.tmr p t) : s.pc t ≠ .out := by
  intro hout
  have htimer := h.timer p t hrouses
  rw [hout] at htimer
  cases htimer

theorem Timed.ne_daemon {s : SleepSys} (h : Timed s) {t : TaskId} (ht : s.pc t ≠ .out) :
    t ≠ softirqD := by
  rintro rfl
  exact ht h.daemon

/-- The expired timer that is served is one that is referred to. -/
theorem rouses_of_roused {s : LibState} {now : Int} {appOk : Bool} {t : TaskId}
    (h : roused s (.serve now appOk) = some t) :
    ∃ p, s.tmr.expdTmrs.head?.bind AppTimer.timer = some p ∧ Rouses s.tmr p t := by
  obtain ⟨x, hx, hxt⟩ := Option.bind_eq_some_iff.mp h
  obtain ⟨p, hp, hwakes⟩ := Option.bind_eq_some_iff.mp hxt
  refine ⟨p, Option.bind_eq_some_iff.mpr ⟨x, hx, hp⟩, mem_refs.mpr ⟨x, ?_, hp⟩, hwakes⟩
  exact mem_apps.mpr (.inr (List.mem_of_mem_head? hx))

theorem rouses_of_served {s : SleepSys} {i : SleepOp} {p : TimerId} {t : TaskId}
    (hserved : served s i = some p) (hwakes : wakes s.lib.tmr p = some t) :
    Rouses s.lib.tmr p t := by
  cases i with
  | lib op =>
      cases op with
      | serve now appOk =>
          obtain ⟨x, hx, hxp⟩ := Option.bind_eq_some_iff.mp hserved
          refine ⟨mem_refs.mpr ⟨x, ?_, hxp⟩, hwakes⟩
          exact mem_apps.mpr (.inr (List.mem_of_mem_head? hx))
      | _ => cases hserved
  | _ => cases hserved

/-! ## Steps -/

theorem sleepStep_lib {s s' : SleepSys} {op : LibOp} (h : sleepStep s (.lib op) = some s') :
    op.isMixed = true ∧ (op.isInterrupt = true ∨ s.pc s.current = .out) ∧
      libStep s.lib op = some s'.lib ∧ s'.pc = s.pc := by
  simp only [sleepStep] at h
  split at h
  · rename_i hguard
    obtain ⟨lib, hlib, rfl⟩ := Option.map_eq_some_iff.mp h
    exact ⟨hguard.1, hguard.2, hlib, rfl⟩
  · cases h

theorem sleepStep_enter {s s' : SleepSys} {c : SleepCall} {timerOk appOk : Bool}
    (h : sleepStep s (.enter c timerOk appOk) = some s') :
    s.pc s.current = .out ∧ s.current ≠ s.lib.sched.idle ∧ s'.lib.sched = s.lib.sched ∧
      libStep s.lib (.startSleep c timerOk appOk) = some s'.lib ∧
      ∃ ticks h, startTimer .sfs s.lib.tmr ticks s.current (some wakeupHandler) 0 timerOk appOk =
          some (s'.lib.tmr, h) ∧ s'.pc = Function.update s.pc s.current (.armed h) := by
  simp only [sleepStep] at h
  split at h
  · rename_i hguard
    simp only [startWakeup, Option.bind_eq_bind, Option.bind_eq_some_iff] at h
    obtain ⟨ticks, hticks, ⟨lib, new⟩, ⟨⟨tmr, new'⟩, hstart, hpair⟩, hs'⟩ := h
    cases hpair
    cases hs'
    refine ⟨hguard.1, hguard.2, rfl, ?_, ticks, new', hstart, rfl⟩
    have hidle : s.lib.sched.current ≠ s.lib.sched.idle := hguard.2
    simp only [libStep, if_neg hidle, hticks, startWakeup, hstart, Option.bind_eq_bind,
      Option.bind_some, Option.map_some]
    rfl
  · cases h

theorem sleepStep_queue {s s' : SleepSys} {now : Int} (h : sleepStep s (.queue now) = some s') :
    ∃ h, s.pc s.current = .armed h ∧ libStep s.lib (.sched (.addToWaitQ now)) = some s'.lib ∧
      s'.pc = Function.update s.pc s.current (.queued h) := by
  simp only [sleepStep] at h
  split at h
  · rename_i handle hpc
    obtain ⟨lib, hlib, rfl⟩ := Option.map_eq_some_iff.mp h
    exact ⟨handle, hpc, hlib, rfl⟩
  · cases h

theorem sleepStep_block {s s' : SleepSys} {now : Int} (h : sleepStep s (.block now) = some s') :
    ∃ h, s.pc s.current = .queued h ∧ libStep s.lib (.sched (.schedule now)) = some s'.lib ∧
      s'.pc = Function.update s.pc s.current (.asleep h) := by
  simp only [sleepStep] at h
  split at h
  · rename_i handle hpc
    obtain ⟨lib, hlib, rfl⟩ := Option.map_eq_some_iff.mp h
    exact ⟨handle, hpc, hlib, rfl⟩
  · cases h

theorem sleepStep_ret {s s' : SleepSys} (h : sleepStep s .ret = some s') :
    (∃ h, s.pc s.current = .asleep h) ∧ s'.lib = s.lib ∧
      s'.pc = Function.update s.pc s.current .out := by
  simp only [sleepStep] at h
  split at h
  · rename_i handle hpc
    cases h
    exact ⟨⟨handle, hpc⟩, rfl, rfl⟩
  · cases h

/-! ## One step keeps the invariant -/

theorem Timed.of_lib {s s' : SleepSys} {op : LibOp} (h : Timed s) (hok : Undisturbed s (.lib op))
    (hstep : sleepStep s (.lib op) = some s') : Timed s' := by
  obtain ⟨hmixed, hguard, hlib, hpc⟩ := sleepStep_lib hstep
  have hback {p : TimerId} {t : TaskId} (hr : Rouses s'.lib.tmr p t) : Rouses s.lib.tmr p t := by
    rcases hr.of_libStep h.fresh.numbered hlib with hold | ⟨⟨c, timerOk, appOk, rfl⟩, -⟩
    · exact hold
    · cases hmixed
  refine
    { fresh := h.fresh.of_libStep hlib
      daemon := hpc ▸ h.daemon
      once := h.once.of_libStep hlib
      timer := ?_, calm := ?_ }
  · intro p t hr
    rw [hpc]
    exact h.timer p t (hback hr)
  · intro p t hr
    have hold := hback hr
    have hinside := h.pc_ne_out hold
    rw [hpc]
    refine calm_of_libStep (h.calm p t hold) hmixed (h.ne_daemon hinside) (fun hroused => ?_) hlib
    cases op with
    | sched o =>
        cases o with
        | postEvent tid event now =>
            refine ⟨hok t hroused, fun hcur => hinside ?_⟩
            exact hcur ▸ hguard.resolve_left Bool.false_ne_true
        | _ => cases hroused
    | serve now appOk =>
        -- the timer that has just been served is gone
        obtain ⟨q, hq, hqt⟩ := rouses_of_roused hroused
        obtain rfl : p = q := Option.some.inj ((h.timer p t hold).symm.trans (h.timer q t hqt))
        exact absurd hr (not_rouses_served h.once hlib hq hqt.2)
    | _ => cases hroused

/-- A timer of a sleep exists only if `start_timer` has returned it. -/
theorem started_of_rouses {s s' : TmrState} (hn : Numbered s) {ticks : U32} {data : Nat}
    {timerOk appOk : Bool} {res : Option TimerId} {t : TaskId}
    (h : startTimer .sfs s ticks data (some wakeupHandler) 0 timerOk appOk = some (s', res))
    (hr : Rouses s' s.nextTimer t) : res = some s.nextTimer := by
  rcases startTimer_cases h with ⟨-, -, i, rfl | rfl⟩ | ⟨hres, -⟩
  · have hnone : wakes s s.nextTimer = some t := hr.2
    rw [wakes_nextTimer hn] at hnone
    cases hnone
  · obtain ⟨l, hl, -⟩ := wakes_eq_some.mp hr.2
    have hnone : (s.grow i none 0).label s.nextTimer = none := by
      simp [TmrState.label, TmrState.grow]
    rw [hnone] at hl
    cases hl
  · exact hres

theorem Timed.of_enter {s s' : SleepSys} {c : SleepCall} {timerOk appOk : Bool} (h : Timed s)
    (hok : Undisturbed s (.enter c timerOk appOk))
    (hstep : sleepStep s (.enter c timerOk appOk) = some s') : Timed s' := by
  obtain ⟨hout, hidle, hsched, hlib, ticks, new, hstart, hpc⟩ := sleepStep_enter hstep
  have hold {p : TimerId} {t : TaskId} (hr : Rouses s.lib.tmr p t) : s'.pc t = s.pc t := by
    rw [hpc]
    refine Function.update_of_ne (fun heq => h.pc_ne_out hr ?_) ..
    exact heq ▸ hout
  have hself : s'.pc s.current = .armed new := by
    rw [hpc]
    exact Function.update_self ..
  refine
    { fresh := h.fresh.of_libStep hlib
      daemon := ?_
      once := h.once.of_libStep hlib
      timer := ?_, calm := ?_ }
  · rw [hpc, Function.update_of_ne hok.2.symm]
    exact h.daemon
  · intro p t hr
    rcases hr.of_libStep h.fresh.numbered hlib with hr' | ⟨-, rfl, rfl⟩
    · rw [hold hr']
      exact h.timer p t hr'
    · have hpc' : s'.pc s.lib.sched.current = .armed new := hself
      rw [hpc']
      exact started_of_rouses h.fresh.numbered hstart hr
  · intro p t hr
    rw [hsched]
    rcases hr.of_libStep h.fresh.numbered hlib with hr' | ⟨-, -, rfl⟩
    · rw [hold hr']
      exact h.calm p t hr'
    · have hpc' : s'.pc s.lib.sched.current = .armed new := hself
      rw [hpc']
      exact ⟨h.fresh.sane, h.fresh.sane.current_live, hidle, fun _ => hok.1, nofun, nofun, nofun⟩

theorem schedStep_of_libStep {s s' : LibState} {op : Sched.Op}
    (h : libStep s (.sched op) = some s') :
    schedStep s.sched op = some s'.sched ∧ s'.tmr = s.tmr := by
  have hparts := parts_of_libStep h
  obtain ⟨mid, hmid, hlast⟩ := (PartialSteps.run_cons schedStep).mp hparts.sched
  cases hlast
  exact ⟨hmid, hparts.tmr⟩

/-- The statements of a sleep after its `start_timer` change the place of the current
task only, and no timer. -/
theorem Timed.of_goto {s s' : SleepSys} {op : Sched.Op} {pc : SleepPc} (h : Timed s)
    (hmixed : (LibOp.sched op).isMixed = true) (hnone : roused s.lib (.sched op) = none)
    (hlib : libStep s.lib (.sched op) = some s'.lib)
    (hpc : s'.pc = Function.update s.pc s.current pc) (hinside : s.pc s.current ≠ .out)
    (htimer : pc.timer = (s.pc s.current).timer)
    (hself : Calm (s.pc s.current).isBlocked (s.pc s.current).isAsleep s.current s.lib.sched →
      Calm pc.isBlocked pc.isAsleep s.current s'.lib.sched) : Timed s' := by
  have htmr := (schedStep_of_libStep hlib).2
  refine
    { fresh := h.fresh.of_libStep hlib
      daemon := ?_
      once := h.once.of_libStep hlib
      timer := ?_, calm := ?_ }
  · rw [hpc, Function.update_of_ne (h.ne_daemon hinside).symm]
    exact h.daemon
  · intro p t hr
    rw [htmr] at hr
    rw [hpc]
    by_cases ht : t = s.current
    · rw [ht, Function.update_self, htimer]
      exact h.timer p s.current (ht ▸ hr)
    · rw [Function.update_of_ne ht]
      exact h.timer p t hr
  · intro p t hr
    rw [htmr] at hr
    rw [hpc]
    by_cases ht : t = s.current
    · rw [ht, Function.update_self]
      exact hself (h.calm p s.current (ht ▸ hr))
    · rw [Function.update_of_ne ht]
      refine calm_of_libStep (h.calm p t hr) hmixed (h.ne_daemon (h.pc_ne_out hr)) ?_ hlib
      rw [hnone]
      exact nofun

theorem Timed.of_queue {s s' : SleepSys} {now : Int} (h : Timed s)
    (hstep : sleepStep s (.queue now) = some s') : Timed s' := by
  obtain ⟨handle, hcur, hlib, hpc⟩ := sleepStep_queue hstep
  refine h.of_goto rfl rfl hlib hpc ?_ ?_ ?_
  · rw [hcur]
    exact nofun
  · rw [hcur]
    rfl
  · rw [hcur]
    exact fun hcalm => hcalm.of_wait rfl (schedStep_of_libStep hlib).1

theorem Timed.of_block {s s' : SleepSys} {now : Int} (h : Timed s)
    (hstep : sleepStep s (.block now) = some s') : Timed s' := by
  obtain ⟨handle, hcur, hlib, hpc⟩ := sleepStep_block hstep
  refine h.of_goto rfl rfl hlib hpc ?_ ?_ ?_
  · rw [hcur]
    exact nofun
  · rw [hcur]
    rfl
  · rw [hcur]
    exact fun hcalm => hcalm.of_block (schedStep_of_libStep hlib).1

/-- A sleep returns only after its timer has been served. -/
theorem Timed.of_ret {s s' : SleepSys} (h : Timed s) (hstep : sleepStep s .ret = some s') :
    Timed s' := by
  obtain ⟨⟨handle, hcur⟩, hlib, hpc⟩ := sleepStep_ret hstep
  have hinside : s.pc s.current ≠ .out := by
    rw [hcur]
    exact nofun
  have hsame {p : TimerId} {t : TaskId} (hr : Rouses s.lib.tmr p t) : s'.pc t = s.pc t := by
    rw [hpc]
    refine Function.update_of_ne (fun heq => ?_) ..
    have hcalm := h.calm p t hr
    rw [heq, hcur] at hcalm
    exact hcalm.current rfl rfl
  refine
    { fresh := hlib ▸ h.fresh
      daemon := ?_
      once := hlib ▸ h.once
      timer := ?_, calm := ?_ }
  · rw [hpc, Function.update_of_ne (h.ne_daemon hinside).symm]
    exact h.daemon
  · intro p t hr
    rw [hlib] at hr
    rw [hsame hr]
    exact h.timer p t hr
  · intro p t hr
    rw [hlib] at hr ⊢
    rw [hsame hr]
    exact h.calm p t hr

theorem Timed.of_step {s s' : SleepSys} {i : SleepOp} (h : Timed s) (hok : Undisturbed s i)
    (hstep : sleepStep s i = some s') : Timed s' := by
  cases i with
  | lib op => exact h.of_lib hok hstep
  | enter c timerOk appOk => exact h.of_enter hok hstep
  | queue now => exact h.of_queue hstep
  | block now => exact h.of_block hstep
  | ret => exact h.of_ret hstep

/-! ## What ends a sleep -/

/-- The task that a step takes off the wait queue has been woken by it, or is the one
of the soft irqs. -/
theorem roused_of_step {s s' : SleepSys} {i : SleepOp} {t : TaskId} (h : Timed s)
    (hinside : s.pc t ≠ .out) (hstep : sleepStep s i = some s') (ht : t ∈ s.lib.sched.hd .wq)
    (hgone : t ∉ s'.lib.sched.hd .wq) : ∃ op, i = .lib op ∧ roused s.lib op = some t := by
  have hleft {op : LibOp} (hmixed : op.isMixed = true) (hlib : libStep s.lib op = some s'.lib) :
      roused s.lib op = some t := by
    by_contra hnot
    exact hgone (mem_wq_of_libStep h.fresh.sane hmixed (h.ne_daemon hinside) hnot hlib ht)
  cases i with
  | lib op =>
      obtain ⟨hmixed, -, hlib, -⟩ := sleepStep_lib hstep
      exact ⟨op, rfl, hleft hmixed hlib⟩
  | enter c timerOk appOk =>
      obtain ⟨-, -, hsched, -⟩ := sleepStep_enter hstep
      exact absurd (hsched.symm ▸ ht) hgone
  | queue now =>
      obtain ⟨-, -, hlib, -⟩ := sleepStep_queue hstep
      cases hleft rfl hlib
  | block now =>
      obtain ⟨-, -, hlib, -⟩ := sleepStep_block hstep
      cases hleft rfl hlib
  | ret =>
      obtain ⟨-, hlib, -⟩ := sleepStep_ret hstep
      exact absurd (hlib.symm ▸ ht) hgone

theorem Timed.wakeOk {s s' : SleepSys} {i : SleepOp} (h : Timed s) (hok : Undisturbed s i)
    (hstep : sleepStep s i = some s') : WakeOk s i s' where
  only t hblocked ht hgone := by
    have hinside : s.pc t ≠ .out := by
      intro hout
      rw [hout] at hblocked
      cases hblocked
    obtain ⟨op, rfl, hroused⟩ := roused_of_step h hinside hstep ht hgone
    cases op with
    | sched o =>
        cases o with
        | postEvent tid event now =>
            have hfree : (s.pc t).isBlocked = false := hok t hroused
            rw [hblocked] at hfree
            cases hfree
        | _ => cases hroused
    | serve now appOk =>
        obtain ⟨p, hp, hr⟩ := rouses_of_roused hroused
        exact ⟨p, h.timer p t hr, hp⟩
    | _ => cases hroused
  own p t hserved hwakes _ _ := h.timer p t (rouses_of_served hserved hwakes)

/-- In every run whose steps all meet the condition, a sleep is ended only by the timer
that it has started, and that timer ends no other wait. -/
theorem wakeOk_of_run {now : Int} {ops : List SleepOp} {s s' : SleepSys} {i : SleepOp}
    (hrun : PartialSteps.run sleepStep (sleepInit now) ops = some s)
    (hok : PartialSteps.Meets sleepStep Undisturbed (sleepInit now) ops)
    (hstep : sleepStep s i = some s') (hi : Undisturbed s i) : WakeOk s i s' := by
  have htimed : Timed s := PartialSteps.run_invariant sleepStep
    (fun _ _ _ hs hcond hs' => hs.of_step hcond hs') (timed_sleepInit now) hok hrun
  exact htimed.wakeOk hi hstep

/-- The program sleeps for 20 ms; a tick later the bottom half has found its timer. -/
def sleepExpires : List SleepOp :=
  [.enter (.tmMsleep 20) true true, .queue 1, .block 2, .lib (.sched (.addToWaitQ 3)),
    .lib (.sched (.schedule 4)), .lib (.tick 5), .lib (.sched (.schedule 6)), .lib .bottomHalf]

theorem wakeOk_sleepExpires :
    ∃ s s', PartialSteps.run sleepStep (sleepInit 0) sleepExpires = some s ∧
      sleepStep s (.lib (.serve 7 true)) = some s' ∧ 1 ∈ s.lib.sched.hd .wq ∧
      1 ∉ s'.lib.sched.hd .wq ∧ WakeOk s (.lib (.serve 7 true)) s' := by
  have hok : PartialSteps.Meets sleepStep Undisturbed (sleepInit 0) sleepExpires := by
    decide +kernel
  have hfacts : ((PartialSteps.run sleepStep (sleepInit 0) sleepExpires).bind fun s =>
      (sleepStep s (.lib (.serve 7 true))).map fun s' =>
        (decide (1 ∈ s.lib.sched.hd .wq), decide (1 ∈ s'.lib.sched.hd .wq))) =
          some (true, false) := by
    decide +kernel
  obtain ⟨s, hrun, hfacts⟩ := Option.bind_eq_some_iff.mp hfacts
  obtain ⟨s', hstep, hs⟩ := Option.map_eq_some_iff.mp hfacts
  simp only [Prod.mk.injEq, decide_eq_true_eq, decide_eq_false_iff_not] at hs
  exact ⟨s, s', hrun, hstep, hs.1, hs.2, wakeOk_of_run hrun hok hstep trivial⟩

/-- The program sleeps for 20 ms, and task 4 runs. -/
def sleepPosted : List SleepOp :=
  [.lib (.sched (.spawn 5 true true 0)), .enter (.tmMsleep 20) true true, .queue 1, .block 2,
    .lib (.sched (.addToWaitQ 3)), .lib (.sched (.schedule 4))]

/-- Task 4 posts an event, the program returns from its sleep and waits for another
event, and the timer of the sleep expires. -/
def postedThenWaits : List SleepOp :=
  sleepPosted ++ [.lib (.sched (.postEvent 1 1 5)), .lib (.sched (.schedule 6)), .ret,
    .lib (.sched (.addToWaitQ 7)), .lib (.sched (.schedule 8)), .lib (.tick 9),
    .lib (.sched (.schedule 10)), .lib .bottomHalf]

/-- The post ends the sleep, and the timer of the sleep ends the later wait. -/
theorem not_wakeOk_posted :
    (∃ s s', PartialSteps.run sleepStep (sleepInit 0) sleepPosted = some s ∧
        sleepStep s (.lib (.sched (.postEvent 1 1 5))) = some s' ∧
        ¬ WakeOk s (.lib (.sched (.postEvent 1 1 5))) s') ∧
      ∃ s s', PartialSteps.run sleepStep (sleepInit 0) postedThenWaits = some s ∧
        sleepStep s (.lib (.serve 11 true)) = some s' ∧ s.pc 1 = .out ∧
        ¬ WakeOk s (.lib (.serve 11 true)) s' := by
  constructor
  · have hfacts : ((PartialSteps.run sleepStep (sleepInit 0) sleepPosted).bind fun s =>
        (sleepStep s (.lib (.sched (.postEvent 1 1 5)))).map fun s' =>
          ((s.pc 1).isBlocked, decide (1 ∈ s.lib.sched.hd .wq),
            decide (1 ∈ s'.lib.sched.hd .wq))) = some (true, true, false) := by
      decide +kernel
    obtain ⟨s, hrun, hfacts⟩ := Option.bind_eq_some_iff.mp hfacts
    obtain ⟨s', hstep, hs⟩ := Option.map_eq_some_iff.mp hfacts
    simp only [Prod.mk.injEq, decide_eq_true_eq, decide_eq_false_iff_not] at hs
    refine ⟨s, s', hrun, hstep, fun hwake => ?_⟩
    obtain ⟨p, -, hserved⟩ := hwake.only 1 hs.1 hs.2.1 hs.2.2
    cases hserved
  · have hfacts : ((PartialSteps.run sleepStep (sleepInit 0) postedThenWaits).bind fun s =>
        (sleepStep s (.lib (.serve 11 true))).map fun s' =>
          (s.pc 1, served s (.lib (.serve 11 true)), wakes s.lib.tmr 0,
            decide (1 ∈ s.lib.sched.hd .wq), decide (1 ∈ s'.lib.sched.hd .wq))) =
              some (.out, some 0, some 1, true, false) := by
      decide +kernel
    obtain ⟨s, hrun, hfacts⟩ := Option.bind_eq_some_iff.mp hfacts
    obtain ⟨s', hstep, hs⟩ := Option.map_eq_some_iff.mp hfacts
    simp only [Prod.mk.injEq, decide_eq_true_eq, decide_eq_false_iff_not] at hs
    obtain ⟨hout, hserved, hwakes, hbefore, hafter⟩ := hs
    refine ⟨s, s', hrun, hstep, hout, fun hwake => ?_⟩
    have htimer := hwake.own 0 1 hserved hwakes hbefore hafter
    rw [hout] at htimer
    cases htimer

end ThreadLib
end TmULThreads
