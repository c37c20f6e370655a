import TmULThreads.Lib.Ledger
import TmULThreads.Sched.Election
import TmULThreads.Sched.Frame

/-!
# Events

`wait_for_event` statement by statement, over the scheduler.  A tick can come
between any two of them and switch to another task, and other tasks call
`post_event`.

Every task has a ledger of the bits that were posted to it and of the words that
`wait_for_event` stored to `*evt`.  A posted bit is outstanding until a word with
that bit has been stored.  Two windows lose events: between the test and the entry
into the wait queue, where a post finds a task that is still runnable, and between
the copy and the reset of the event word, where it is wiped out.
`eventsOk_of_run` shows that nothing else does, apart from a call by a task
that is on the wait queue already.
-/

namespace TmULThreads
namespace Sched

/-- Where a task is in `wait_for_event`, with the bits it waits for. -/
inductive WaitPc where
  | out
  | test (events : BitVec 32)
  | queue (events : BitVec 32)
  | sched (events : BitVec 32)
  | copy (events : BitVec 32)
  | clear (events : BitVec 32)
  deriving DecidableEq, Repr

def WaitPc.events? : WaitPc → Option (BitVec 32)
  | .out => none
  | .test events | .queue events | .sched events | .copy events | .clear events => some events

inductive EventNote where
  | posted (event : BitVec 32)
  /-- The word that has been stored to `*evt`. -/
  | reported (evt : BitVec 32)
  deriving DecidableEq, Repr

def EventNote.Posts (i : Nat) : EventNote → Prop
  | .posted event => event.getLsbD i = true
  | .reported _ => False

def EventNote.Reports (i : Nat) : EventNote → Prop
  | .posted _ => False
  | .reported evt => evt.getLsbD i = true

structure EventSys where
  sched : SchedState
  pc : TaskId → WaitPc
  log : TaskId → List EventNote

def EventSys.event (s : EventSys) (t : TaskId) : BitVec 32 := (s.sched.tsk t).event

/-- The bit `i` has been posted to `t` and not been reported since. -/
def EventSys.Unreported (s : EventSys) (t : TaskId) (i : Nat) : Prop :=
  Ledger.Outstanding (EventNote.Posts i) (EventNote.Reports i) (s.log t)

inductive EventOp where
  /-- The current task calls `wait_for_event`. -/
  | enter (events : BitVec 32)
  /-- The current task runs the next statement of `wait_for_event`. -/
  | next (now : Int)
  | post (tid : TaskId) (event : BitVec 32) (now : Int)
  /-- What else the current task or an interrupt does. -/
  | other (op : Op)
  deriving DecidableEq, Repr

/-- The statement of `wait_for_event` that the current task is at. -/
def waitForEvent (s : EventSys) (now : Int) : Option EventSys :=
  let t := s.sched.current
  match s.pc t with
  | .out => none
  | .test events =>
      let pc := if s.event t &&& events = 0 then .queue events else .copy events
      some { s with pc := Function.update s.pc t pc }
  | .queue events => do
      let sched ← schedStep s.sched (.addToWaitQ now)
      some { s with sched := sched, pc := Function.update s.pc t (.sched events) }
  | .sched events => do
      let sched ← schedStep s.sched (.schedule now)
      some { s with sched := sched, pc := Function.update s.pc t (.test events) }
  | .copy events =>
      some { s with
        pc := Function.update s.pc t (.clear events)
        log := Function.update s.log t (s.log t ++ [.reported (s.event t)]) }
  | .clear _ =>
      some { s with
        sched := s.sched.setTsk t { s.sched.tsk t with event := 0 }
        pc := Function.update s.pc t .out }

def eventStep (s : EventSys) : EventOp → Option EventSys
  | .enter events =>
      if s.pc s.sched.current ≠ .out ∨ s.sched.current = s.sched.idle then none
      else some { s with pc := Function.update s.pc s.sched.current (.test events) }
  | .next now => waitForEvent s now
  | .post tid event now =>
      if s.pc s.sched.current ≠ .out then none
      else
        match findTask s.sched tid with
        | none => some s
        | some p =>
            some { s with
              sched := postEvent s.sched tid event now
              log := Function.update s.log p (s.log p ++ [.posted event]) }
  | .other op =>
      if op.isPost ∨ (s.pc s.sched.current ≠ .out ∧ op.isInterrupt = false) then none
      else do
        let sched ← schedStep s.sched op
        some { s with sched := sched }

def eventInit (now : Int) : EventSys := ⟨tmlibInit now, fun _ => .out, fun _ => []⟩

/-- The bits may be posted to a task that is there: it has not just found them
missing, and it is not about to reset its word. -/
def WaitPc.Admits (event : BitVec 32) : WaitPc → Prop
  | .queue events => event &&& events = 0
  | .clear _ => event = 0
  | _ => True

instance (event : BitVec 32) : ∀ pc : WaitPc, Decidable (pc.Admits event)
  | .queue _ | .clear _ => inferInstanceAs (Decidable (_ = _))
  | .out | .test _ | .sched _ | .copy _ => isTrue trivial

/-- A post does not fall into one of the two windows, and a task on the wait queue
does not ask for what it has. -/
def Timely (s : EventSys) : EventOp → Prop
  | .enter events => s.sched.current ∈ s.sched.hd .wq → s.event s.sched.current &&& events = 0
  | .post tid event _ => findTask s.sched tid = some tid → (s.pc tid).Admits event
  | _ => True

instance (s : EventSys) : ∀ op, Decidable (Timely s op)
  | .enter _ | .post .. => inferInstanceAs (Decidable (_ → _))
  | .next _ | .other _ => isTrue trivial

/-- No event is lost. -/
structure EventsOk (s : EventSys) : Prop where
  /-- No task inside `wait_for_event` is on the wait queue with a bit it asked for. -/
  awake : ∀ t events, (s.pc t).events? = some events → t ∈ s.sched.hd .wq →
    s.event t &&& events = 0
  /-- A bit that has been posted and not been reported is in the event word, all of
  which the next report stores. -/
  kept : ∀ t i, s.Unreported t i → (s.event t).getLsbD i = true

/-! ## One task -/

/-- The invariant for one task: where it is, its event word, its ledger, and whether
it is on the wait queue. -/
structure DeliversTo (pc : WaitPc) (event : BitVec 32) (log : List EventNote) (waits : Prop) :
    Prop where
  awake : ∀ events, pc.events? = some events → waits → event &&& events = 0
  kept : ∀ i, Ledger.Outstanding (EventNote.Posts i) (EventNote.Reports i) log →
    event.getLsbD i = true
  /-- No bit has come in since the test. -/
  missing : ∀ events, pc = .queue events → event &&& events = 0
  /-- Nothing is lost by the reset. -/
  reported : ∀ events, pc = .clear events →
    ∀ i, ¬ Ledger.Outstanding (EventNote.Posts i) (EventNote.Reports i) log

section OneTask

variable {pc : WaitPc} {event events : BitVec 32} {log : List EventNote} {waits waits' : Prop}

theorem deliversTo_new : DeliversTo .out event [] waits where
  awake _ hpc := by cases hpc
  kept _ hout := absurd hout Ledger.not_outstanding_nil
  missing _ hpc := by cases hpc
  reported _ hpc := by cases hpc

theorem DeliversTo.mono (h : DeliversTo pc event log waits) (hwaits : waits' → waits) :
    DeliversTo pc event log waits' :=
  { h with awake := fun events hpc hw => h.awake events hpc (hwaits hw) }

/-- A task that has left `wait_for_event`, or has not called it, may wait for something
else. -/
theorem DeliversTo.outside (h : DeliversTo .out event log waits) :
    DeliversTo .out event log waits' :=
  { h with awake := fun _ hpc => by cases hpc }

theorem DeliversTo.enter (h : DeliversTo .out event log waits)
    (hwaits : waits → event &&& events = 0) : DeliversTo (.test events) event log waits where
  awake _ hpc hw := by
    cases hpc
    exact hwaits hw
  kept := h.kept
  missing _ hpc := by cases hpc
  reported _ hpc := by cases hpc

theorem DeliversTo.test (h : DeliversTo (.test events) event log waits) :
    DeliversTo (if event &&& events = 0 then .queue events else .copy events) event log waits := by
  split
  · rename_i hzero
    refine { awake := h.awake, kept := h.kept, missing := ?_, reported := ?_ }
    · intro _ hpc
      cases hpc
      exact hzero
    · intro _ hpc
      cases hpc
  · refine { awake := h.awake, kept := h.kept, missing := ?_, reported := ?_ }
    · intro _ hpc
      cases hpc
    · intro _ hpc
      cases hpc

/-- The task may go to sleep, as no bit has come in since the test. -/
theorem DeliversTo.queue (h : DeliversTo (.queue events) event log waits) :
    DeliversTo (.sched events) event log waits' where
  awake _ hpc _ := by
    cases hpc
    exact h.missing events rfl
  kept := h.kept
  missing _ hpc := by cases hpc
  reported _ hpc := by cases hpc

theorem DeliversTo.sched (h : DeliversTo (.sched events) event log waits) :
    DeliversTo (.test events) event log waits where
  awake := h.awake
  kept := h.kept
  missing _ hpc := by cases hpc
  reported _ hpc := by cases hpc

/-- The copy reports all that is outstanding. -/
theorem DeliversTo.copy (h : DeliversTo (.copy events) event log waits) :
    DeliversTo (.clear events) event (log ++ [.reported event]) waits := by
  have hnone (i : Nat) : ¬ Ledger.Outstanding (EventNote.Posts i) (EventNote.Reports i)
      (log ++ [.reported event]) := by
    rw [Ledger.outstanding_concat]
    rintro (hposts | ⟨hout, hreports⟩)
    · exact hposts
    · exact hreports (h.kept i hout)
  refine { awake := h.awake, kept := ?_, missing := ?_, reported := fun _ _ => hnone }
  · intro i hout
    exact absurd hout (hnone i)
  · intro _ hpc
    cases hpc

theorem DeliversTo.clear (h : DeliversTo (.clear events) event log waits) :
    DeliversTo .out 0 log waits where
  awake _ hpc := by cases hpc
  kept i hout := absurd hout (h.reported events rfl i)
  missing _ hpc := by cases hpc
  reported _ hpc := by cases hpc

/-- A post takes the task off the wait queue. -/
theorem DeliversTo.post {new : BitVec 32} (h : DeliversTo pc event log waits)
    (hadmits : pc.Admits new) (hwaits : ¬ waits') :
    DeliversTo pc (event ||| new) (log ++ [.posted new]) waits' where
  awake _ _ hw := absurd hw hwaits
  kept i hout := by
    rw [BitVec.getLsbD_or, Bool.or_eq_true]
    rcases Ledger.outstanding_concat.mp hout with hposts | ⟨hold, -⟩
    · exact .inr hposts
    · exact .inl (h.kept i hold)
  missing events hpc := by
    rw [hpc] at hadmits
    have hnew : new &&& events = 0 := hadmits
    have hold := h.missing events hpc
    rw [BitVec.and_or_distrib_right, hold, hnew]
    rfl
  reported events hpc i hout := by
    rw [hpc] at hadmits
    have hnew : new = 0 := hadmits
    rcases Ledger.outstanding_concat.mp hout with hposts | ⟨hold, -⟩
    · rw [hnew] at hposts
      simp [EventNote.Posts] at hposts
    · exact h.reported events hpc i hold

end OneTask

/-! ## All tasks -/

structure Delivering (s : EventSys) : Prop where
  regular : Regular s.sched
  task : ∀ t, DeliversTo (s.pc t) (s.event t) (s.log t) (t ∈ s.sched.hd .wq)
  /-- Tasks that do not exist yet. -/
  fresh : ∀ t, s.sched.taskid < t → s.pc t = .out ∧ s.log t = []

theorem Delivering.eventsOk {s : EventSys} (h : Delivering s) : EventsOk s :=
  ⟨fun t => (h.task t).awake, fun t => (h.task t).kept⟩

/-- A step is about one task; the others keep what they have, and none of them joins
the wait queue. -/
theorem Delivering.of_task {s s' : EventSys} (h : Delivering s) {c : TaskId}
    (hc : c ∈ s.sched.live) (hreg : Regular s'.sched) (htid : s.sched.taskid ≤ s'.sched.taskid)
    (hpc : ∀ t, t ≠ c → s'.pc t = s.pc t) (hlog : ∀ t, t ≠ c → s'.log t = s.log t)
    (hevent : ∀ t, t ≠ c → t ≤ s.sched.taskid → s'.event t = s.event t)
    (hwq : ∀ t, t ≠ c → t ∈ s'.sched.hd .wq → t ∈ s.sched.hd .wq)
    (hself : DeliversTo (s'.pc c) (s'.event c) (s'.log c) (c ∈ s'.sched.hd .wq)) :
    Delivering s' := by
  have hfresh (t : TaskId) (ht : s.sched.taskid < t) : s'.pc t = .out ∧ s'.log t = [] := by
    have hne : t ≠ c := fun heq => absurd (h.regular.live_le c hc) (not_le.mpr (heq ▸ ht))
    obtain ⟨hpc', hlog'⟩ := h.fresh t ht
    exact ⟨(hpc t hne).trans hpc', (hlog t hne).trans hlog'⟩
  refine ⟨hreg, fun t => ?_, fun t ht => hfresh t (lt_of_le_of_lt htid ht)⟩
  by_cases heq : t = c
  · rw [heq]
    exact hself
  · rcases le_or_gt t s.sched.taskid with hle | hlt
    · rw [hpc t heq, hlog t heq, hevent t heq hle]
      exact (h.task t).mono (hwq t heq)
    · obtain ⟨hpc', hlog'⟩ := hfresh t hlt
      rw [hpc', hlog']
      exact deliversTo_new

/-! ## Steps -/

/-- The statements that change only where the current task is and what the scheduler
knows. -/
theorem Delivering.of_current {s : EventSys} (h : Delivering s) {op : Op} {sched : SchedState}
    (hstep : schedStep s.sched op = some sched) (hpost : op.isPost = false) {pc : WaitPc}
    (hself : DeliversTo pc (s.event s.sched.current) (s.log s.sched.current)
      (s.sched.current ∈ sched.hd .wq)) :
    Delivering { s with sched := sched, pc := Function.update s.pc s.sched.current pc } := by
  have he := effect_of_step h.regular.toQueued hstep
  have hcur := h.regular.current_live
  refine h.of_task hcur (h.regular.of_effect he) he.taskid_le
    (fun _ ht => Function.update_of_ne ht ..) (fun _ _ => rfl)
    (fun _ _ ht => event_of_schedStep hstep hpost ht) (fun t hne ht => ?_) ?_
  · exact (he.mem_of_not_rq rfl ht).resolve_right fun hwait => hne hwait.2.1
  · have hevent : (sched.tsk s.sched.current).event = s.event s.sched.current :=
      event_of_schedStep hstep hpost (h.regular.live_le _ hcur)
    show DeliversTo (Function.update s.pc s.sched.current pc s.sched.current)
      (sched.tsk s.sched.current).event (s.log s.sched.current) _
    rw [Function.update_self, hevent]
    exact hself

theorem Delivering.of_waitForEvent {s s' : EventSys} {now : Int} (h : Delivering s)
    (hstep : waitForEvent s now = some s') : Delivering s' := by
  have hcur := h.regular.current_live
  have htask := h.task s.sched.current
  unfold waitForEvent at hstep
  dsimp only at hstep
  split at hstep
  · cases hstep
  · rename_i events hpc
    rw [hpc] at htask
    cases hstep
    refine h.of_task hcur h.regular le_rfl (fun _ ht => Function.update_of_ne ht ..)
      (fun _ _ => rfl) (fun _ _ _ => rfl) (fun _ _ => id) ?_
    show DeliversTo (Function.update s.pc s.sched.current _ s.sched.current) _ _ _
    rw [Function.update_self]
    exact htask.test
  · rename_i events hpc
    rw [hpc] at htask
    obtain ⟨sched, hsched, hs'⟩ := Option.bind_eq_some_iff.mp hstep
    cases hs'
    exact h.of_current hsched rfl htask.queue
  · rename_i events hpc
    rw [hpc] at htask
    obtain ⟨sched, hsched, hs'⟩ := Option.bind_eq_some_iff.mp hstep
    cases hs'
    refine h.of_current hsched rfl (htask.sched.mono fun ht => ?_)
    have he := effect_of_step h.regular.toQueued hsched
    exact (he.mem_of_not_rq rfl ht).resolve_right fun hwait => hwait.1
  · rename_i events hpc
    rw [hpc] at htask
    cases hstep
    refine h.of_task hcur h.regular le_rfl (fun _ ht => Function.update_of_ne ht ..)
      (fun _ ht => Function.update_of_ne ht ..) (fun _ _ _ => rfl) (fun _ _ => id) ?_
    show DeliversTo (Function.update s.pc s.sched.current _ s.sched.current) _
      (Function.update s.log s.sched.current _ s.sched.current) _
    rw [Function.update_self, Function.update_self]
    exact htask.copy
  · rename_i events hpc
    rw [hpc] at htask
    cases hstep
    let cleared := s.sched.setTsk s.sched.current { s.sched.tsk s.sched.current with event := 0 }
    have hu : Untouched s.sched cleared := untouched_setTsk rfl rfl
    refine h.of_task hcur (h.regular.of_untouched hu) le_rfl
      (fun _ ht => Function.update_of_ne ht ..) (fun _ _ => rfl)
      (fun t ht _ => congrArg Tsk.event (setTsk_tsk_of_ne _ _ ht)) (fun _ _ => id) ?_
    have hevent : (cleared.tsk s.sched.current).event = 0 := by
      rw [setTsk_tsk_self]
    show DeliversTo (Function.update s.pc s.sched.current .out s.sched.current)
      (cleared.tsk s.sched.current).event _ _
    rw [Function.update_self, hevent]
    exact htask.clear

theorem Delivering.of_post {s : EventSys} (h : Delivering s) {tid : TaskId} {event : BitVec 32}
    {now : Int} (hfind : findTask s.sched tid = some tid) (hadmits : (s.pc tid).Admits event) :
    Delivering { s with
      sched := postEvent s.sched tid event now
      log := Function.update s.log tid (s.log tid ++ [.posted event]) } := by
  obtain ⟨-, hd, hmem⟩ := findTask_eq_some hfind
  have he : Effect s.sched (.postEvent tid event now) (postEvent s.sched tid event now) :=
    effect_of_step h.regular.toQueued rfl
  have hevent := event_postEvent event now hfind
  refine h.of_task (h.regular.member hd tid hmem).1 (h.regular.of_effect he) he.taskid_le
    (fun _ _ => rfl) (fun _ ht => Function.update_of_ne ht ..)
    (fun t ht _ => (hevent t).trans (if_neg ht))
    (fun t _ ht => (he.mem_of_not_rq rfl ht).resolve_right fun hwait => hwait.1) ?_
  have hoff : tid ∉ (postEvent s.sched tid event now).hd .wq := by
    unfold postEvent
    rw [hfind]
    exact (woken_wakeupTask ..).not_mem (h.regular.toQueued.of_quiet (quiet_setTsk rfl)) rfl
  have hself := hevent tid
  rw [if_pos rfl] at hself
  show DeliversTo (s.pc tid) ((postEvent s.sched tid event now).tsk tid).event
    (Function.update s.log tid _ tid) _
  rw [Function.update_self, hself]
  exact (h.task tid).post hadmits hoff

theorem Delivering.of_step {s s' : EventSys} {op : EventOp} (h : Delivering s)
    (htimely : Timely s op) (hstep : eventStep s op = some s') : Delivering s' := by
  cases op with
  | enter events =>
      simp only [eventStep] at hstep
      split at hstep
      · cases hstep
      · rename_i hguard
        obtain ⟨hout, -⟩ := not_or.mp hguard
        have htask := h.task s.sched.current
        rw [not_not.mp hout] at htask
        cases hstep
        refine h.of_task h.regular.current_live h.regular le_rfl
          (fun _ ht => Function.update_of_ne ht ..) (fun _ _ => rfl) (fun _ _ _ => rfl)
          (fun _ _ => id) ?_
        show DeliversTo (Function.update s.pc s.sched.current _ s.sched.current) _ _ _
        rw [Function.update_self]
        exact htask.enter htimely
  | next now => exact h.of_waitForEvent hstep
  | post tid event now =>
      simp only [eventStep] at hstep
      split at hstep
      · cases hstep
      · split at hstep
        · cases hstep
          exact h
        · rename_i p hfind
          obtain ⟨rfl, -⟩ := findTask_eq_some hfind
          cases hstep
          exact h.of_post hfind (htimely hfind)
  | other op =>
      simp only [eventStep] at hstep
      split at hstep
      · cases hstep
      · rename_i hguard
        rw [not_or, Bool.not_eq_true] at hguard
        obtain ⟨sched, hsched, hs'⟩ := Option.bind_eq_some_iff.mp hstep
        cases hs'
        have hsame : s.pc = Function.update s.pc s.sched.current (s.pc s.sched.current) :=
          (Function.update_eq_self ..).symm
        have hself : DeliversTo (s.pc s.sched.current) (s.event s.sched.current)
            (s.log s.sched.current) (s.sched.current ∈ sched.hd .wq) := by
          have htask := h.task s.sched.current
          -- inside `wait_for_event` only an interrupt comes in between
          by_cases hout : s.pc s.sched.current = .out
          · rw [hout] at htask ⊢
            exact htask.outside
          · have hint : op.isInterrupt = true := by
              by_contra hnot
              exact hguard.2 ⟨hout, Bool.not_eq_true _ ▸ hnot⟩
            refine htask.mono fun ht => ?_
            have he := effect_of_step h.regular.toQueued hsched
            exact (he.mem_of_not_rq rfl ht).resolve_right fun hwait =>
              not_waits_of_isInterrupt hint hwait.1
        rw [hsame]
        exact h.of_current hsched hguard.1 hself

theorem delivering_eventInit (now : Int) : Delivering (eventInit now) :=
  ⟨regular_tmlibInit now, fun _ => deliversTo_new, fun _ _ => ⟨rfl, rfl⟩⟩

/-- A task that has copied its event word has been told of every bit. -/
theorem Delivering.settled {s s' : EventSys} {events : BitVec 32} {now : Int} (h : Delivering s)
    (hpc : s.pc s.sched.current = .copy events) (hstep : eventStep s (.next now) = some s')
    (i : Nat) : ¬ s'.Unreported s.sched.current i := by
  have htimely : Timely s (.next now) := trivial
  have hs' : Delivering s' := h.of_step htimely hstep
  simp only [eventStep, waitForEvent, hpc] at hstep
  cases hstep
  exact (hs'.task s.sched.current).reported events (Function.update_self ..) i

/-- In every run whose posts keep out of the two windows, no event is lost: no task
sleeps on a bit that it asked for, and the next `*evt` has all bits that were posted
before it. -/
theorem eventsOk_of_run {now : Int} {ops : List EventOp} {s : EventSys}
    (hrun : PartialSteps.run eventStep (eventInit now) ops = some s)
    (htimely : PartialSteps.Meets eventStep Timely (eventInit now) ops) :
    EventsOk s ∧ ∀ events now' s', s.pc s.sched.current = .copy events →
      eventStep s (.next now') = some s' → ∀ i, ¬ s'.Unreported s.sched.current i := by
  have h : Delivering s :=
    PartialSteps.run_invariant eventStep (fun _ _ _ h hop hstep => h.of_step hop hstep)
      (delivering_eventInit now) htimely hrun
  exact ⟨h.eventsOk, fun events now' s' hpc hstep => h.settled hpc hstep⟩

/-- Task 4 has been started, has started task 5, and waits for bit 0. -/
def callWait : List EventOp :=
  [.other (.spawn 0 true true 1), .other (.schedule 2), .other (.spawn 0 true true 3), .enter 1,
    .next 4]

/-- Task 5 posts the bit when task 4 is asleep. -/
def postToSleeper : List EventOp :=
  callWait ++ [.next 5, .next 6, .post 4 1 7, .other (.schedule 8), .next 9, .next 10, .next 11]

theorem eventsOk_postToSleeper :
    ∃ s, PartialSteps.run eventStep (eventInit 0) postToSleeper = some s ∧
      s.log 4 = [.posted 1, .reported 1] ∧ s.pc 4 = .out ∧ EventsOk s := by
  have hfacts : (PartialSteps.run eventStep (eventInit 0) postToSleeper).map
      (fun s => (s.log 4, s.pc 4)) = some ([.posted 1, .reported 1], .out) := by
    decide +kernel
  obtain ⟨s, hrun, hs⟩ := Option.map_eq_some_iff.mp hfacts
  simp only [Prod.mk.injEq] at hs
  have htimely : PartialSteps.Meets eventStep Timely (eventInit 0) postToSleeper := by
    decide +kernel
  exact ⟨s, hrun, hs.1, hs.2, (eventsOk_of_run hrun htimely).1⟩

/-- A tick comes after the test of task 4, and task 5 posts the bit. -/
def postAfterTest : List EventOp :=
  callWait ++ [.other (.tick 5), .other (.schedule 6), .post 4 1 7, .other (.schedule 8), .next 9,
    .next 10]

/-- Task 4 sleeps with the bit in its event word, and nobody will wake it. -/
theorem not_eventsOk_postAfterTest :
    ∃ s, PartialSteps.run eventStep (eventInit 0) postAfterTest = some s ∧
      s.sched.hd .wq = [4] ∧ s.sched.current = 5 ∧ s.event 4 = 1 ∧ s.log 4 = [.posted 1] ∧
      ¬ EventsOk s := by
  have hfacts : (PartialSteps.run eventStep (eventInit 0) postAfterTest).map
      (fun s => (s.sched.hd .wq, s.sched.current, s.event 4, s.log 4, s.pc 4)) =
        some ([4], 5, 1, [.posted 1], .test 1) := by
    decide +kernel
  obtain ⟨s, hrun, hs⟩ := Option.map_eq_some_iff.mp hfacts
  simp only [Prod.mk.injEq] at hs
  obtain ⟨hwq, hcur, hevent, hlog, hpc⟩ := hs
  refine ⟨s, hrun, hwq, hcur, hevent, hlog, fun hok => ?_⟩
  have hzero := hok.awake 4 1 (by rw [hpc]; rfl) (by rw [hwq]; exact List.mem_cons_self)
  rw [hevent] at hzero
  exact absurd hzero (by decide)

end Sched
end TmULThreads
