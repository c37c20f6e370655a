import TmULThreads.Lib.Ledger
import TmULThreads.Lib.PartialSteps
import Mathlib.Data.BitVec

/-!
# Events between tasks

`evt_snd` and `evt_rx` of `tsk_lnx.c`, where a task is a POSIX thread.  A task that waits
for events takes `evt_mtx` and looks at `curr_evt`; if none of the events it waits for is
there it goes into `pthread_cond_wait`, and looks again when it has been woken up and has
the mutex again.  It reports all events that have come in, also those it did not wait
for, and clears them.

The mutex makes the whole of `evt_snd`, and the part of `evt_rx` between two waits, single
steps.  A task that is in `pthread_cond_wait` leaves it when the condition variable is
signalled, or without any reason.

`evtLaw_of_run` states that no event is lost or invented, and that no task sleeps on an
event that it waits for, over every interleaving of senders and receivers.

Sizes are those of an LP64 machine, with an `int` of four bytes.  `get_tsk_info_frm_id` is
not declared in `tsk_lnx.c`; the pointer to the task that it returns is taken unchanged.
-/

namespace TmULThreads
namespace Task

/-- A set of events: the bits of an `int`. -/
abbrev Evt := BitVec 32

/-- Where a task is in `evt_rx`. -/
inductive RxPc where
  | out
  /-- Before `pthread_mutex_lock`, or woken up and not yet in possession of the mutex. -/
  | locking (event : Evt)
  /-- In `pthread_cond_wait`, and not signalled. -/
  | waiting (event : Evt)
  deriving DecidableEq, Repr

/-- What has happened to a task. -/
inductive EvtNote where
  | sent (event : Evt)
  /-- An `evt_rx` has returned with these events in `*pevent`. -/
  | reported (event : Evt)
  deriving DecidableEq, Repr

/-- The part of `tmtask_t` that events are about, with the place of the thread in `evt_rx`
and what has happened to it so far. -/
structure TmTask where
  taskId : Nat
  currEvt : Evt := 0
  prevEvt : Evt := 0
  pc : RxPc := .out
  log : List EvtNote := []
  deriving DecidableEq, Repr

def getTskInfoFrmId (tskHd : List TmTask) (tskid : Nat) : Option TmTask :=
  tskHd.find? fun t => t.taskId == tskid

def writeTsk (tskHd : List TmTask) (t : TmTask) : List TmTask :=
  tskHd.map fun u => if u.taskId = t.taskId then t else u

/-- `pthread_cond_signal`. -/
def RxPc.signal : RxPc → RxPc
  | .waiting event => .locking event
  | .locking event => .locking event
  | .out => .out

/-- The section of `evt_snd`. -/
def TmTask.evtSnd (t : TmTask) (event : Evt) : TmTask :=
  { t with prevEvt := t.currEvt, currEvt := t.currEvt ||| event, pc := t.pc.signal
           log := t.log ++ [.sent event] }

/-- The section of `evt_rx`: one turn of its loop, up to the return or the wait. -/
def TmTask.evtRx (t : TmTask) (event : Evt) : TmTask :=
  if t.currEvt &&& event ≠ 0 then
    { t with currEvt := t.currEvt &&& 0, pc := .out, log := t.log ++ [.reported t.currEvt] }
  else { t with pc := .waiting event }

inductive TaskOp where
  /-- A new thread links itself with `tsk_node_add`. -/
  | create (tskid : Nat)
  | evtSnd (tskid : Nat) (event : Evt)
  /-- The task calls `evt_rx`. -/
  | evtRx (tskid : Nat) (event : Evt)
  /-- The task gets the mutex. -/
  | lock (tskid : Nat)
  /-- A wake-up without a signal. -/
  | spurious (tskid : Nat)
  deriving DecidableEq, Repr

/-- `none` is a step that cannot be taken, or the access of `evt_snd` through `NULL` for a
task that is not registered. -/
def taskStep (tskHd : List TmTask) : TaskOp → Option (List TmTask)
  | .create tskid =>
      if (getTskInfoFrmId tskHd tskid).isSome then none else some ({ taskId := tskid } :: tskHd)
  | .evtSnd tskid event => do
      let t ← getTskInfoFrmId tskHd tskid
      some (writeTsk tskHd (t.evtSnd event))
  | .evtRx tskid event =>
      match getTskInfoFrmId tskHd tskid with
      | none => some tskHd
      | some t =>
          match t.pc with
          | .out => some (writeTsk tskHd { t with pc := .locking event })
          | .locking _ | .waiting _ => none
  | .lock tskid => do
      let t ← getTskInfoFrmId tskHd tskid
      match t.pc with
      | .locking event => some (writeTsk tskHd (t.evtRx event))
      | .out | .waiting _ => none
  | .spurious tskid => do
      let t ← getTskInfoFrmId tskHd tskid
      match t.pc with
      | .waiting event => some (writeTsk tskHd { t with pc := .locking event })
      | .out | .locking _ => none

/-! ## The property -/

/-- The entry is a send of the event `i`. -/
def EvtNote.Sends (i : Nat) (n : EvtNote) : Prop := ∃ e, n = .sent e ∧ e.getLsbD i = true

/-- The entry is a return of `evt_rx`. -/
def EvtNote.Returns (n : EvtNote) : Prop := ∃ r, n = .reported r

/-- The event `i` has been sent, and no `evt_rx` has returned since. -/
def Unreported (i : Nat) : List EvtNote → Prop :=
  Ledger.Outstanding (EvtNote.Sends i) EvtNote.Returns

structure EvtLaw (t : TmTask) : Prop where
  /-- An event that was sent is reported by the first `evt_rx` that returns after it. -/
  delivered : ∀ i, Ledger.Throughout
    (fun before n => ∀ r, n = .reported r → Unreported i before → r.getLsbD i = true) t.log
  /-- An event that is reported was sent since the return before. -/
  genuine : ∀ i, Ledger.Throughout
    (fun before n => ∀ r, n = .reported r → r.getLsbD i = true → Unreported i before) t.log
  /-- No task waits for an event that is there. -/
  awake : ∀ event, t.pc = .waiting event → t.currEvt &&& event = 0

/-! ## The invariant -/

/-- `curr_evt` holds exactly the events that are still to be reported. -/
structure Conserves (t : TmTask) : Prop extends EvtLaw t where
  curr : ∀ i, t.currEvt.getLsbD i = true ↔ Unreported i t.log

theorem unreported_sent {i : Nat} {log : List EvtNote} {e : Evt} :
    Unreported i (log ++ [.sent e]) ↔ e.getLsbD i = true ∨ Unreported i log := by
  have hsend : EvtNote.Sends i (.sent e) ↔ e.getLsbD i = true := by
    constructor
    · rintro ⟨e', he, hbit⟩
      cases he
      exact hbit
    · exact fun hbit => ⟨e, rfl, hbit⟩
  have hreturn : ¬ EvtNote.Returns (.sent e) := by
    rintro ⟨r, hr⟩
    cases hr
  unfold Unreported
  rw [Ledger.outstanding_concat, hsend, and_iff_left hreturn]

theorem not_unreported_reported {i : Nat} {log : List EvtNote} {r : Evt} :
    ¬ Unreported i (log ++ [.reported r]) := by
  intro h
  rcases Ledger.outstanding_concat.mp h with ⟨e, he, -⟩ | ⟨-, hnot⟩
  · cases he
  · exact hnot ⟨r, rfl⟩

theorem conserves_new (tskid : Nat) : Conserves { taskId := tskid } where
  delivered _ := Ledger.throughout_nil
  genuine _ := Ledger.throughout_nil
  awake event hpc := nomatch hpc
  curr i := by
    refine iff_of_false ?_ Ledger.not_outstanding_nil
    simp

/-- Moving on in `evt_rx` without going to sleep. -/
theorem Conserves.locking {t : TmTask} (h : Conserves t) (event : Evt) :
    Conserves { t with pc := .locking event } :=
  { h with awake := fun _ hpc => nomatch hpc }

theorem Conserves.evtSnd {t : TmTask} (h : Conserves t) (event : Evt) :
    Conserves (t.evtSnd event) where
  delivered i := Ledger.throughout_concat.mpr ⟨h.delivered i, nofun⟩
  genuine i := Ledger.throughout_concat.mpr ⟨h.genuine i, nofun⟩
  awake mask hpc := by
    -- the signal has taken the task out of the wait
    replace hpc : t.pc.signal = .waiting mask := hpc
    cases hold : t.pc <;> rw [hold] at hpc <;> cases hpc
  curr i := by
    show (t.currEvt ||| event).getLsbD i = true ↔ Unreported i (t.log ++ [.sent event])
    rw [unreported_sent, ← h.curr i, BitVec.getLsbD_or, Bool.or_eq_true, or_comm]

theorem Conserves.evtRx {t : TmTask} (h : Conserves t) (event : Evt) :
    Conserves (t.evtRx event) := by
  unfold TmTask.evtRx
  by_cases hevt : t.currEvt &&& event ≠ 0
  · rw [if_pos hevt]
    refine ⟨⟨fun i => ?_, fun i => ?_, nofun⟩, fun i => ?_⟩
    · refine Ledger.throughout_concat.mpr ⟨h.delivered i, fun r hr hun => ?_⟩
      cases hr
      exact (h.curr i).mpr hun
    · refine Ledger.throughout_concat.mpr ⟨h.genuine i, fun r hr hbit => ?_⟩
      cases hr
      exact (h.curr i).mp hbit
    · refine iff_of_false ?_ not_unreported_reported
      show ¬ (t.currEvt &&& 0).getLsbD i = true
      simp
  · rw [if_neg hevt]
    refine { h with awake := fun mask hpc => ?_ }
    cases hpc
    exact not_not.mp hevt

/-! ## Runs -/

theorem mem_of_getTskInfoFrmId {tskHd : List TmTask} {tskid : Nat} {t : TmTask}
    (h : getTskInfoFrmId tskHd tskid = some t) : t ∈ tskHd :=
  List.mem_of_find?_eq_some h

theorem forall_writeTsk {tskHd : List TmTask} {t : TmTask} {P : TmTask → Prop}
    (hall : ∀ u ∈ tskHd, P u) (ht : P t) : ∀ u ∈ writeTsk tskHd t, P u := by
  intro u hu
  obtain ⟨v, hv, rfl⟩ := List.mem_map.mp hu
  split
  · exact ht
  · exact hall v hv

theorem conserves_of_step {tskHd tskHd' : List TmTask} {op : TaskOp}
    (h : ∀ t ∈ tskHd, Conserves t) (hstep : taskStep tskHd op = some tskHd') :
    ∀ t ∈ tskHd', Conserves t := by
  cases op with
  | create tskid =>
      simp only [taskStep] at hstep
      split at hstep
      · cases hstep
      · cases hstep
        exact List.forall_mem_cons.mpr ⟨conserves_new tskid, h⟩
  | evtSnd tskid event =>
      obtain ⟨t, ht, hstep⟩ := Option.bind_eq_some_iff.mp hstep
      cases hstep
      exact forall_writeTsk h ((h t (mem_of_getTskInfoFrmId ht)).evtSnd event)
  | evtRx tskid event =>
      simp only [taskStep] at hstep
      split at hstep
      · cases hstep
        exact h
      · rename_i t ht
        split at hstep
        · cases hstep
          exact forall_writeTsk h ((h t (mem_of_getTskInfoFrmId ht)).locking event)
        · cases hstep
        · cases hstep
  | lock tskid =>
      obtain ⟨t, ht, hstep⟩ := Option.bind_eq_some_iff.mp hstep
      split at hstep
      · rename_i event hpc
        cases hstep
        exact forall_writeTsk h ((h t (mem_of_getTskInfoFrmId ht)).evtRx event)
      · cases hstep
      · cases hstep
  | spurious tskid =>
      obtain ⟨t, ht, hstep⟩ := Option.bind_eq_some_iff.mp hstep
      split at hstep
      · rename_i event hpc
        cases hstep
        exact forall_writeTsk h ((h t (mem_of_getTskInfoFrmId ht)).locking event)
      · cases hstep
      · cases hstep

/-- No event is lost or invented, and no task sleeps on an event that it waits for. -/
theorem evtLaw_of_run (ops : List TaskOp) (tskHd : List TmTask)
    (hrun : PartialSteps.run taskStep [] ops = some tskHd) : ∀ t ∈ tskHd, EvtLaw t := by
  have hall : ∀ t ∈ tskHd, Conserves t :=
    PartialSteps.run_invariant_always taskStep (I := fun hd => ∀ t ∈ hd, Conserves t)
      (fun _ _ _ h hstep => conserves_of_step h hstep) (fun _ ht => absurd ht List.not_mem_nil)
      hrun
  exact fun t ht => (hall t ht).toEvtLaw

/-- The task waits for the first event, is woken up for the second and for no reason, and
reports both when the first has come. -/
def coalesced : List TaskOp :=
  [.create 7, .evtRx 7 1, .lock 7, .evtSnd 7 2, .lock 7, .spurious 7, .lock 7, .evtSnd 7 1,
    .lock 7]

theorem evtLaw_coalesced :
    ∃ t, PartialSteps.run taskStep [] coalesced = some [t] ∧
      t.log = [.sent 2, .sent 1, .reported 3] ∧ EvtLaw t := by
  refine ⟨_, rfl, rfl, ?_⟩
  exact evtLaw_of_run coalesced _ rfl _ List.mem_cons_self

end Task
end TmULThreads
