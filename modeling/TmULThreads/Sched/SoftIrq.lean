import TmULThreads.Lib.Ledger
import TmULThreads.Sched.Election
import TmULThreads.Sched.Frame

/-!
# Soft irqs

`core/soft_irq.c` over the scheduler: the loop of `softirqd` statement by statement,
and raises, which are a `wake_irq` followed by a `softirq_wakeup` inside an interrupt
and so come between any two statements.

The ledger holds the raises and the starts of actions in their order, and a raise is
outstanding until the action of its irq starts.  Only one status is kept for an irq,
and it is reset after the action: a raise that comes when the scan has reached its
irq, or has passed it, is not seen.  `served_of_run` shows that these are the only
raises that `softirqd` can sleep on.
-/

namespace TmULThreads
namespace Sched

inductive IrqStatus where
  | sleeping
  | wakeUp
  deriving DecidableEq, Repr

/-- `struct soft_irq`; an irq is named by its place in the list, and `action` tells
whether it has one. -/
structure SoftIrq where
  action : Bool
  status : IrqStatus := .sleeping
  deriving DecidableEq, Repr

inductive IrqNote where
  | raised (id : Nat)
  | started (id : Nat)
  deriving DecidableEq, Repr

/-- Where `softirqd` is: at the top of its loop, at an irq of the list, or past the
list. -/
inductive SirqPc where
  | start
  | test (id : Nat)
  | action (id : Nat)
  | reset (id : Nat)
  | queue
  | sched
  deriving DecidableEq, Repr

structure IrqSys where
  sched : SchedState
  sftIrq : List SoftIrq
  pc : SirqPc
  log : List IrqNote

/-- The task that `init_soft_irq` spawns. -/
def softirqD : TaskId := 3

/-- `list_for_each` goes on at the place `id`. -/
def visit (sftIrq : List SoftIrq) (id : Nat) : SirqPc :=
  if id < sftIrq.length then .test id else .queue

def setStatus (sftIrq : List SoftIrq) (id : Nat) (status : IrqStatus) : List SoftIrq :=
  sftIrq.modify id fun irq => { irq with status := status }

theorem getElem?_setStatus_self (sftIrq : List SoftIrq) (id : Nat) (status : IrqStatus) :
    (setStatus sftIrq id status)[id]? = sftIrq[id]?.map fun irq => { irq with status := status } := by
  simp [setStatus]

theorem getElem?_setStatus_of_ne {sftIrq : List SoftIrq} {id id' : Nat} {status : IrqStatus}
    (h : id ≠ id') : (setStatus sftIrq id status)[id']? = sftIrq[id']? := by
  simp [setStatus, h]

/-- The statement of `softirqd` that comes next. -/
def softirqd (s : IrqSys) (now : Int) : Option IrqSys :=
  match s.pc with
  | .start => some { s with pc := visit s.sftIrq 0 }
  | .test id => do
      let irq ← s.sftIrq[id]?
      if irq.status = .wakeUp ∧ irq.action then
        some { s with pc := .action id, log := s.log ++ [.started id] }
      else some { s with pc := visit s.sftIrq (id + 1) }
  | .action id => some { s with pc := .reset id }
  | .reset id =>
      some { s with
        sftIrq := setStatus s.sftIrq id .sleeping
        pc := visit s.sftIrq (id + 1) }
  | .queue => do
      let sched ← schedStep s.sched (.addToWaitQ now)
      some { s with sched := sched, pc := .sched }
  | .sched => do
      let sched ← schedStep s.sched (.schedule now)
      some { s with sched := sched, pc := .start }

inductive IrqOp where
  /-- `softirq_create`; `ok` tells whether the allocation succeeds. -/
  | create (action ok : Bool)
  | raise (id : Nat) (now : Int)
  /-- The next statement of `softirqd`. -/
  | next (now : Int)
  /-- What another task, an action or an interrupt does. -/
  | other (op : Op)
  deriving DecidableEq, Repr

def SirqPc.isAction : SirqPc → Bool
  | .action _ => true
  | _ => false

/-- `softirqd` is the current task and in its own code. -/
def IrqSys.InDaemon (s : IrqSys) : Prop := s.sched.current = softirqD ∧ s.pc.isAction = false

instance (s : IrqSys) : Decidable s.InDaemon := inferInstanceAs (Decidable (_ ∧ _))

def irqStep (s : IrqSys) : IrqOp → Option IrqSys
  | .create action ok =>
      if s.InDaemon then none
      else if ok then some { s with sftIrq := s.sftIrq ++ [{ action := action }] }
      else some s
  | .raise id now =>
      if id < s.sftIrq.length then do
        let sched ← schedStep s.sched (.wakeup softirqD now)
        some { s with
          sched := sched
          sftIrq := setStatus s.sftIrq id .wakeUp
          log := s.log ++ [.raised id] }
      else none
  | .next now => if s.sched.current = softirqD then softirqd s now else none
  | .other op =>
      if s.InDaemon ∧ op.isInterrupt = false then none
      else do
        let sched ← schedStep s.sched op
        some { s with sched := sched }

def irqInit (now : Int) : IrqSys := ⟨tmlibInit now, [], .start, []⟩

/-- The scan that is going on, or the next one, has its test of `id` still ahead. -/
def SirqPc.Reaches (id : Nat) : SirqPc → Prop
  | .start | .sched => True
  | .test id' => id' ≤ id
  | .action id' | .reset id' => id' < id
  | .queue => False

instance (id : Nat) : ∀ pc : SirqPc, Decidable (pc.Reaches id)
  | .start | .sched => isTrue trivial
  | .test _ => inferInstanceAs (Decidable (_ ≤ _))
  | .action _ | .reset _ => inferInstanceAs (Decidable (_ < _))
  | .queue => isFalse not_false

/-- An irq is raised before the scan has reached it, and it has an action; an action
does not wait. -/
def InTime (s : IrqSys) : IrqOp → Prop
  | .raise id _ => s.pc.Reaches id ∧ ∀ irq ∈ s.sftIrq[id]?, irq.action = true
  | .other op => s.sched.current = softirqD → ¬ Waits s.sched op
  | _ => True

instance (s : IrqSys) : ∀ op, Decidable (InTime s op)
  | .raise _ _ => inferInstanceAs (Decidable (_ ∧ _))
  | .other _ => inferInstanceAs (Decidable (_ → _))
  | .create .. | .next _ => isTrue trivial

/-- The irq `id` has been raised and its action has not started since. -/
def IrqSys.Unserved (s : IrqSys) (id : Nat) : Prop :=
  Ledger.Outstanding (· = .raised id) (· = .started id) s.log

/-- `softirqd` does not sleep on a raise. -/
def Served (s : IrqSys) : Prop :=
  softirqD ∈ s.sched.hd .wq → ∀ id, ¬ s.Unserved id

/-! ## The invariant -/

structure Ahead (s : IrqSys) : Prop where
  regular : Regular s.sched
  served : Served s
  /-- A raise that is outstanding will be seen by the scan. -/
  pending : ∀ id, s.Unserved id → s.sftIrq[id]? = some ⟨true, .wakeUp⟩
  ahead : ∀ id, s.Unserved id → s.pc.Reaches id

theorem Ahead.lt_length {s : IrqSys} (h : Ahead s) {id : Nat} (hun : s.Unserved id) :
    id < s.sftIrq.length :=
  (List.getElem?_eq_some_iff.mp (h.pending id hun)).1

theorem reaches_visit {sftIrq : List SoftIrq} {id id' : Nat} (hle : id' ≤ id)
    (hlt : id < sftIrq.length) : (visit sftIrq id').Reaches id := by
  unfold visit
  rw [if_pos (lt_of_le_of_lt hle hlt)]
  exact hle

/-- A step that raises nothing and keeps the statuses of the irqs that are pending. -/
theorem Ahead.of_scan {s s' : IrqSys} (h : Ahead s) (hsched : s'.sched = s.sched)
    (hun : ∀ id, s'.Unserved id → s.Unserved id)
    (hpending : ∀ id, s'.Unserved id → s'.sftIrq[id]? = s.sftIrq[id]?)
    (hahead : ∀ id, s'.Unserved id → s'.pc.Reaches id) : Ahead s' where
  regular := hsched ▸ h.regular
  served hwq id hid := h.served (hsched ▸ hwq) id (hun id hid)
  pending id hid := (hpending id hid).trans (h.pending id (hun id hid))
  ahead := hahead

/-- A step of the scheduler that does not put `softirqd` on the wait queue. -/
theorem Ahead.of_sched {s : IrqSys} (h : Ahead s) {op : Op} {sched : SchedState} {pc : SirqPc}
    (hstep : schedStep s.sched op = some sched)
    (hwaits : Waits s.sched op → s.sched.current ≠ softirqD)
    (hahead : ∀ id, s.Unserved id → pc.Reaches id) : Ahead { s with sched := sched, pc := pc } := by
  have he := effect_of_step h.regular.toQueued hstep
  refine ⟨h.regular.of_effect he, fun hwq => ?_, h.pending, hahead⟩
  rcases he.mem_of_not_rq rfl hwq with hold | ⟨hop, hcur, -⟩
  · exact h.served hold
  · exact absurd hcur.symm (hwaits hop)

theorem Ahead.of_softirqd {s s' : IrqSys} {now : Int} (h : Ahead s)
    (hstep : softirqd s now = some s') : Ahead s' := by
  unfold softirqd at hstep
  split at hstep
  · cases hstep
    exact h.of_scan rfl (fun _ => id) (fun _ _ => rfl)
      fun id hid => reaches_visit (Nat.zero_le id) (h.lt_length hid)
  · rename_i k hpc
    obtain ⟨irq, hirq, hstep⟩ := Option.bind_eq_some_iff.mp hstep
    have hle {id : Nat} (hid : s.Unserved id) : k ≤ id := by
      have hreach := h.ahead id hid
      rwa [hpc] at hreach
    split at hstep
    · cases hstep
      -- the start of the action answers every raise of `k` so far
      have hun (id : Nat) (hid : Ledger.Outstanding (· = .raised id) (· = .started id)
          (s.log ++ [IrqNote.started k])) : s.Unserved id ∧ id ≠ k := by
        rcases Ledger.outstanding_concat.mp hid with hraise | ⟨hold, hstart⟩
        · cases hraise
        · exact ⟨hold, fun heq => hstart (heq ▸ rfl)⟩
      refine h.of_scan rfl (fun id hid => (hun id hid).1) (fun _ _ => rfl) fun id hid => ?_
      obtain ⟨hold, hne⟩ := hun id hid
      exact lt_of_le_of_ne (hle hold) hne.symm
    · rename_i hidle
      cases hstep
      refine h.of_scan rfl (fun _ => id) (fun _ _ => rfl) fun id hid => ?_
      have hne : id ≠ k := by
        rintro rfl
        have hpending := h.pending id hid
        rw [hirq] at hpending
        cases hpending
        exact hidle ⟨rfl, rfl⟩
      exact reaches_visit (lt_of_le_of_ne (hle hid) hne.symm) (h.lt_length hid)
  · rename_i k hpc
    cases hstep
    refine h.of_scan rfl (fun _ => id) (fun _ _ => rfl) fun id hid => ?_
    have hreach := h.ahead id hid
    rwa [hpc] at hreach
  · rename_i k hpc
    cases hstep
    have hlt {id : Nat} (hid : s.Unserved id) : k < id := by
      have hreach := h.ahead id hid
      rwa [hpc] at hreach
    refine h.of_scan rfl (fun _ => id) (fun id hid => ?_) fun id hid => ?_
    · exact getElem?_setStatus_of_ne (hlt hid).ne
    · exact reaches_visit (hlt hid) (h.lt_length hid)
  · rename_i hpc
    obtain ⟨sched, hsched, hs'⟩ := Option.bind_eq_some_iff.mp hstep
    cases hs'
    -- past the list nothing is outstanding
    have hnone (id : Nat) : ¬ s.Unserved id := by
      intro hid
      have hreach := h.ahead id hid
      rwa [hpc] at hreach
    have he := effect_of_step h.regular.toQueued hsched
    exact ⟨h.regular.of_effect he, fun _ => hnone, h.pending, fun id hid => absurd hid (hnone id)⟩
  · rename_i hpc
    obtain ⟨sched, hsched, hs'⟩ := Option.bind_eq_some_iff.mp hstep
    cases hs'
    exact h.of_sched hsched (fun hwaits => hwaits.elim) fun _ _ => trivial

theorem Ahead.of_raise {s : IrqSys} (h : Ahead s) {id : Nat} {now : Int} {sched : SchedState}
    (hlt : id < s.sftIrq.length) (haction : ∀ irq ∈ s.sftIrq[id]?, irq.action = true)
    (hreach : s.pc.Reaches id) (hstep : schedStep s.sched (.wakeup softirqD now) = some sched) :
    Ahead { s with
      sched := sched
      sftIrq := setStatus s.sftIrq id .wakeUp
      log := s.log ++ [.raised id] } := by
  have he := effect_of_step h.regular.toQueued hstep
  have hun {id' : Nat} (hid : Ledger.Outstanding (· = .raised id') (· = .started id')
      (s.log ++ [IrqNote.raised id])) : id' = id ∨ s.Unserved id' := by
    rcases Ledger.outstanding_concat.mp hid with hraise | ⟨hold, -⟩
    · cases hraise
      exact .inl rfl
    · exact .inr hold
  refine ⟨h.regular.of_effect he, fun hwq => ?_, fun id' hid => ?_, fun id' hid => ?_⟩
  · -- the raise itself has taken `softirqd` off the wait queue
    obtain ⟨-, -, rfl⟩ := schedStep_wakeup hstep
    exact absurd hwq ((woken_wakeupTask ..).not_mem h.regular.toQueued rfl)
  · show (setStatus s.sftIrq id .wakeUp)[id']? = some ⟨true, .wakeUp⟩
    rcases eq_or_ne id id' with rfl | hne
    · have htrue := haction s.sftIrq[id] (List.getElem?_eq_getElem hlt)
      rw [getElem?_setStatus_self, List.getElem?_eq_getElem hlt, Option.map_some, htrue]
    · rw [getElem?_setStatus_of_ne hne]
      exact h.pending id' ((hun hid).resolve_left hne.symm)
  · rcases hun hid with rfl | hold
    · exact hreach
    · exact h.ahead id' hold

theorem Ahead.of_step {s s' : IrqSys} {op : IrqOp} (h : Ahead s) (htime : InTime s op)
    (hstep : irqStep s op = some s') : Ahead s' := by
  cases op with
  | create action ok =>
      simp only [irqStep] at hstep
      split at hstep
      · cases hstep
      · split at hstep
        · cases hstep
          refine h.of_scan rfl (fun _ => id) (fun id hid => ?_) h.ahead
          exact List.getElem?_append_left (h.lt_length hid)
        · cases hstep
          exact h
  | raise id now =>
      simp only [irqStep] at hstep
      split at hstep
      · rename_i hlt
        obtain ⟨sched, hsched, hs'⟩ := Option.bind_eq_some_iff.mp hstep
        cases hs'
        exact h.of_raise hlt htime.2 htime.1 hsched
      · cases hstep
  | next now =>
      simp only [irqStep] at hstep
      split at hstep
      · exact h.of_softirqd hstep
      · cases hstep
  | other op =>
      simp only [irqStep] at hstep
      split at hstep
      · cases hstep
      · obtain ⟨sched, hsched, hs'⟩ := Option.bind_eq_some_iff.mp hstep
        cases hs'
        exact h.of_sched hsched (fun hwaits hcur => htime hcur hwaits) h.ahead

theorem ahead_irqInit (now : Int) : Ahead (irqInit now) where
  regular := regular_tmlibInit now
  served _ _ := Ledger.not_outstanding_nil
  pending _ hid := absurd hid Ledger.not_outstanding_nil
  ahead _ hid := absurd hid Ledger.not_outstanding_nil

/-- In every run that raises an irq only while the test of it is still ahead,
`softirqd` never sleeps on a raise. -/
theorem served_of_run {now : Int} {ops : List IrqOp} {s : IrqSys}
    (hrun : PartialSteps.run irqStep (irqInit now) ops = some s)
    (htime : PartialSteps.Meets irqStep InTime (irqInit now) ops) : Served s := by
  have h : Ahead s :=
    PartialSteps.run_invariant irqStep (fun _ _ _ h hop hstep => h.of_step hop hstep)
      (ahead_irqInit now) htime hrun
  exact h.served

/-- An irq is created, and the current task starts task 4 and switches to `softirqd`. -/
def startDaemon : List IrqOp :=
  [.create true true, .other (.spawn 5 true true 1), .other (.schedule 2), .next 3]

/-- The irq is raised while `softirqd` is asleep. -/
def raiseAsleep : List IrqOp :=
  startDaemon ++ [.next 4, .next 5, .next 6, .raise 0 7, .other (.schedule 8), .next 9, .next 10,
    .next 11, .next 12, .next 13]

theorem served_raiseAsleep :
    ∃ s, PartialSteps.run irqStep (irqInit 0) raiseAsleep = some s ∧
      s.sched.hd .wq = [softirqD] ∧ s.log = [.raised 0, .started 0] ∧ Served s := by
  have hfacts : (PartialSteps.run irqStep (irqInit 0) raiseAsleep).map
      (fun s => (s.sched.hd .wq, s.log)) = some ([softirqD], [.raised 0, .started 0]) := by
    decide +kernel
  obtain ⟨s, hrun, hs⟩ := Option.map_eq_some_iff.mp hfacts
  simp only [Prod.mk.injEq] at hs
  have htime : PartialSteps.Meets irqStep InTime (irqInit 0) raiseAsleep := by
    decide +kernel
  exact ⟨s, hrun, hs.1, hs.2, served_of_run hrun htime⟩

/-- The irq is raised a second time while its action runs. -/
def raiseInAction : List IrqOp :=
  startDaemon ++ [.raise 0 4, .next 5, .raise 0 6, .next 7, .next 8, .next 9]

/-- The reset has wiped out the second raise, and `softirqd` is on the wait queue. -/
theorem not_served_raiseInAction :
    ∃ s, PartialSteps.run irqStep (irqInit 0) raiseInAction = some s ∧
      s.sched.hd .wq = [softirqD] ∧ s.sftIrq = [⟨true, .sleeping⟩] ∧
      s.log = [.raised 0, .started 0, .raised 0] ∧ ¬ Served s := by
  have hfacts : (PartialSteps.run irqStep (irqInit 0) raiseInAction).map
      (fun s => (s.sched.hd .wq, s.sftIrq, s.log)) =
        some ([softirqD], [⟨true, .sleeping⟩], [.raised 0, .started 0, .raised 0]) := by
    decide +kernel
  obtain ⟨s, hrun, hs⟩ := Option.map_eq_some_iff.mp hfacts
  simp only [Prod.mk.injEq] at hs
  obtain ⟨hwq, hirq, hlog⟩ := hs
  refine ⟨s, hrun, hwq, hirq, hlog, fun hserved => ?_⟩
  refine hserved (by rw [hwq]; exact List.mem_cons_self) 0 ?_
  unfold IrqSys.Unserved
  have hlog' : s.log = [IrqNote.raised 0, .started 0] ++ [.raised 0] := hlog
  rw [hlog', Ledger.outstanding_concat]
  exact .inl rfl

end Sched
end TmULThreads
