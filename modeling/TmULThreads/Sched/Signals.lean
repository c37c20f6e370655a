import TmULThreads.Sched.Model
import TmULThreads.Lib.PartialSteps

/-!
# Signals

`tm_signal` registers a handler with the task that calls it, and enables the signal for
that task and for the idle one.  When a signal comes in, `generic_sig_handler` notes it
with whatever task is running, and the next `schedule` of that task processes it: the
handlers are looked up with the task itself, and then all pending signals are cleared.
So a signal that comes in while the idle task is running is cleared without any handler
having been called.

The loop of `process_signal` is taken turn by turn.  Signals can come in between the turns
and before the pending ones are cleared; and the tick calls `schedule` from its interrupt,
so that a task can be switched away in the middle of the loop, or enter it once more.  A
task therefore has a stack of loops.

`noneLost_of_run` states that no signal is lost as long as each one comes in while a task
with a handler for it is running, and not behind the back of that task's loop.
-/

namespace TmULThreads
namespace Sched

/-! ## The signals of a task -/

/-- The variables of the loop of `process_signal`. -/
structure SigLoop where
  res : BitVec 32
  i : Nat
  deriving DecidableEq, Repr

/-- The fields of `struct tsk` that signals are about, and where the task is in
`process_signal`. -/
structure SigTsk where
  signals : BitVec 32 := 0
  sigPending : BitVec 32 := 0
  /-- The list `sig_hd`; a handler may be `NULL`. -/
  sigHd : List (Nat × Option Nat) := []
  /-- The innermost loop first. -/
  loops : List SigLoop := []
  /-- The signals for which a handler has been called since they last came in. -/
  served : List Nat := []
  deriving DecidableEq, Repr

def bitPos (signo : Nat) : BitVec 32 := 1#32 <<< (signo - 1)

/-- The task has a handler for the signal. -/
def SigTsk.hears (t : SigTsk) (signo : Nat) : Bool :=
  t.sigHd.any fun e => e.1 = signo && e.2.isSome

/-- The handler that `invoke_signal_hanlder` calls. -/
def SigTsk.invokeSignalHanlder (t : SigTsk) (signo : Nat) : Option Nat :=
  t.sigHd.findSome? fun e => if e.1 = signo then e.2 else none

/-- A signal is noted; what was called for it before does not count any more. -/
def SigTsk.pend (t : SigTsk) (signo : Nat) : SigTsk :=
  { t with sigPending := t.sigPending ||| bitPos signo, served := t.served.filter (· ≠ signo) }

def SigTsk.register (t : SigTsk) (signo : Nat) (handler : Option Nat) : SigTsk :=
  { t with sigHd := (signo, handler) :: t.sigHd, signals := t.signals ||| bitPos signo }

def SigTsk.enable (t : SigTsk) (bits : BitVec 32) : SigTsk :=
  { t with signals := t.signals ||| bits }

/-- The beginning of `process_signal`. -/
def SigTsk.enter (t : SigTsk) : SigTsk :=
  { t with loops := ⟨t.signals &&& t.sigPending, 1⟩ :: t.loops }

/-- One turn of the loop.  The test is `res && 0x1`, so that a turn looks for a handler
whether or not the lowest bit is set. -/
def SigTsk.turn (t : SigTsk) (l : SigLoop) (rest : List SigLoop) : SigTsk :=
  { t with
    loops := ⟨l.res >>> 1, l.i + 1⟩ :: rest
    served :=
      if l.res ≠ 0 ∧ (t.invokeSignalHanlder l.i).isSome then l.i :: t.served else t.served }

/-- The end of `process_signal`. -/
def SigTsk.clear (t : SigTsk) (rest : List SigLoop) : SigTsk :=
  { t with sigPending := 0, loops := rest }

/-! ## The system -/

structure SigState where
  sched : SchedState
  sig : TaskId → SigTsk
  /-- The static `reg_signals` of `tm_signal`. -/
  regSignals : BitVec 32
  /-- The signals that were cleared although some task had a handler for them and none was
  called. -/
  lost : List Nat

def initSig (now : Int) : SigState := ⟨tmlibInit now, fun _ => {}, 0, []⟩

def SigState.cur (s : SigState) : SigTsk := s.sig s.sched.current

def SigState.setSig (s : SigState) (t : TaskId) (x : SigTsk) : SigState :=
  { s with sig := Function.update s.sig t x }

def tmSignal (s : SigState) (signo : Nat) (handler : Option Nat) (sigOk : Bool) : SigState :=
  if ¬ sigOk then s
  else
    let s := s.setSig s.sched.current (s.cur.register signo handler)
    let s := s.setSig s.sched.idle ((s.sig s.sched.idle).enable (bitPos signo))
    { s with regSignals := s.regSignals ||| bitPos signo }

def setCurrentSignalPendMask (s : SigState) (signo : Nat) : SigState :=
  s.setSig s.sched.current (s.cur.pend signo)

/-- Some task has a handler for the signal. -/
def SigState.heard (s : SigState) (signo : Nat) : Bool :=
  s.sched.live.any fun t => (s.sig t).hears signo

/-- The signals that are lost if those pending with the current task are cleared. -/
def SigState.unserved (s : SigState) : List Nat :=
  ((List.range 32).map (· + 1)).filter fun signo =>
    s.cur.sigPending.getLsbD (signo - 1) && s.heard signo && !s.cur.served.contains signo

/-- A signal number for which the shift in `bit_pos` is defined. -/
def ValidSig (signo : Nat) : Prop := 1 ≤ signo ∧ signo ≤ 32

instance (signo : Nat) : Decidable (ValidSig signo) := inferInstanceAs (Decidable (_ ∧ _))

inductive SigOp where
  /-- What the scheduler does besides `schedule`. -/
  | sched (op : Op)
  | tmSignal (signo : Nat) (handler : Option Nat) (sigOk : Bool)
  /-- The operating system delivers a signal to `generic_sig_handler`. -/
  | arrive (signo : Nat)
  | tmRaise (signo : Nat)
  /-- `schedule` is called, and goes into `process_signal` if it has to. -/
  | schedule (now : Int)
  | turn
  /-- The loop has ended: the pending signals are cleared and `schedule` goes on. -/
  | clear (now : Int)
  deriving DecidableEq, Repr

def sigStep (s : SigState) : SigOp → Option SigState
  | .sched (.schedule _) => none
  | .sched op => (schedStep s.sched op).map fun m => { s with sched := m }
  | .tmSignal signo handler sigOk =>
      if ValidSig signo then some (tmSignal s signo handler sigOk) else none
  | .arrive signo =>
      -- without a registration the signal has its default action
      if ValidSig signo ∧ s.regSignals.getLsbD (signo - 1) then
        some (setCurrentSignalPendMask s signo)
      else none
  | .tmRaise signo =>
      if ValidSig signo then some (setCurrentSignalPendMask s signo) else none
  | .schedule now =>
      if s.cur.signals &&& s.cur.sigPending ≠ 0 then some (s.setSig s.sched.current s.cur.enter)
      else (Sched.schedule s.sched now).map fun m => { s with sched := m }
  | .turn =>
      match s.cur.loops with
      | [] => none
      | l :: rest =>
          if l.res = 0 then none else some (s.setSig s.sched.current (s.cur.turn l rest))
  | .clear now =>
      match s.cur.loops with
      | [] => none
      | l :: rest =>
          if l.res ≠ 0 then none
          else (Sched.schedule s.sched now).map fun m =>
            { s.setSig s.sched.current (s.cur.clear rest) with
              sched := m, lost := s.lost ++ s.unserved }

/-- The loop has a turn for the signal before it. -/
def SigLoop.Reaches (l : SigLoop) (signo : Nat) : Prop :=
  l.i ≤ signo ∧ l.res >>> (signo - l.i) ≠ 0

instance SigLoop.decidableReaches (l : SigLoop) (signo : Nat) : Decidable (l.Reaches signo) :=
  inferInstanceAs (Decidable (_ ∧ _))

/-- A signal comes in, or is raised, while a task with a handler for it is running; and if
the task is in `process_signal`, its loop is still to come to the signal. -/
def SigAttended (s : SigState) : SigOp → Prop
  | .arrive signo | .tmRaise signo =>
      s.cur.hears signo = true ∧ ∀ l ∈ s.cur.loops.take 1, l.Reaches signo
  | .sched _ | .tmSignal .. | .schedule _ | .turn | .clear _ => True

instance (s : SigState) : ∀ op, Decidable (SigAttended s op)
  | .arrive _ | .tmRaise _ => inferInstanceAs (Decidable (_ ∧ _))
  | .sched _ | .tmSignal .. | .schedule _ | .turn | .clear _ => isTrue trivial

/-! ## Bits and handlers -/

theorem getLsbD_bitPos {signo : Nat} (h : ValidSig signo) (j : Nat) :
    (bitPos signo).getLsbD j = true ↔ j + 1 = signo := by
  obtain ⟨hpos, hle⟩ := h
  unfold bitPos
  simp only [BitVec.getLsbD_shiftLeft, BitVec.getLsbD_one, Bool.and_eq_true, decide_eq_true_eq,
    Bool.not_eq_true', decide_eq_false_iff_not]
  omega

theorem shiftRight_ne_zero {x : BitVec 32} {j : Nat} (h : x.getLsbD j = true) : x >>> j ≠ 0 := by
  intro hzero
  have hlow : (x >>> j).getLsbD 0 = true := by
    rw [BitVec.getLsbD_ushiftRight, Nat.add_zero]
    exact h
  rw [hzero] at hlow
  simp at hlow

theorem SigTsk.hears_iff {t : SigTsk} {signo : Nat} :
    t.hears signo = true ↔ (t.invokeSignalHanlder signo).isSome := by
  unfold SigTsk.hears SigTsk.invokeSignalHanlder
  induction t.sigHd with
  | nil => simp
  | cons e rest ih =>
      by_cases he : e.1 = signo
      · cases hh : e.2 with
        | none => simpa [he, hh] using ih
        | some h => simp [he, hh]
      · simpa [he] using ih

theorem SigTsk.hears_register {t : SigTsk} {signo : Nat} {handler : Option Nat} {n : Nat} :
    (t.register signo handler).hears n = true ↔
      (signo = n ∧ handler.isSome) ∨ t.hears n = true := by
  simp [SigTsk.hears, SigTsk.register]

/-! ## The invariant of a task -/

/-- A pending signal has a handler with the task, for which the task is enabled; and while
the task is in the loop, the handler has been called or will be.  Nothing is said about
the outer loops: when they go on, the signals have just been cleared. -/
structure SigTsk.Ready (t : SigTsk) : Prop where
  enabled : ∀ j < 32, t.hears (j + 1) = true → t.signals.getLsbD j = true
  heard : ∀ j, t.sigPending.getLsbD j = true → t.hears (j + 1) = true
  covered : ∀ l rest, t.loops = l :: rest → ∀ j, t.sigPending.getLsbD j = true →
    j + 1 ∈ t.served ∨ l.Reaches (j + 1)

theorem SigTsk.ready_default : SigTsk.Ready {} where
  enabled j _ hj := by cases hj
  heard j hj := by simp at hj
  covered l rest hl := by cases hl

theorem SigTsk.Ready.pend {t : SigTsk} (h : t.Ready) {signo : Nat} (hsig : ValidSig signo)
    (hears : t.hears signo = true) (hloop : ∀ l ∈ t.loops.take 1, l.Reaches signo) :
    (t.pend signo).Ready where
  enabled := h.enabled
  heard j hj := by
    simp only [SigTsk.pend, BitVec.getLsbD_or, Bool.or_eq_true, getLsbD_bitPos hsig] at hj
    rcases hj with hold | rfl
    · exact h.heard j hold
    · exact hears
  covered l rest hl j hj := by
    replace hl : t.loops = l :: rest := hl
    by_cases hnew : j + 1 = signo
    · right
      rw [hnew]
      exact hloop l (by rw [hl]; exact List.mem_cons_self)
    · simp only [SigTsk.pend, BitVec.getLsbD_or, Bool.or_eq_true, getLsbD_bitPos hsig] at hj
      -- another signal: what was called for it still counts
      rcases h.covered l rest hl j (hj.resolve_right hnew) with hserved | hreach
      · exact .inl (List.mem_filter.mpr ⟨hserved, decide_eq_true hnew⟩)
      · exact .inr hreach

theorem SigTsk.Ready.register {t : SigTsk} (h : t.Ready) {signo : Nat} (hsig : ValidSig signo)
    (handler : Option Nat) : (t.register signo handler).Ready where
  enabled j hlt hj := by
    show (t.signals ||| bitPos signo).getLsbD j = true
    rw [BitVec.getLsbD_or, Bool.or_eq_true, getLsbD_bitPos hsig]
    rcases SigTsk.hears_register.mp hj with ⟨heq, -⟩ | hold
    · exact .inr heq.symm
    · exact .inl (h.enabled j hlt hold)
  heard j hj := SigTsk.hears_register.mpr (.inr (h.heard j hj))
  covered := h.covered

theorem SigTsk.Ready.enable {t : SigTsk} (h : t.Ready) (bits : BitVec 32) :
    (t.enable bits).Ready where
  enabled j hlt hj := by
    show (t.signals ||| bits).getLsbD j = true
    rw [BitVec.getLsbD_or, h.enabled j hlt hj, Bool.true_or]
  heard := h.heard
  covered := h.covered

theorem SigTsk.Ready.enter {t : SigTsk} (h : t.Ready) : t.enter.Ready where
  enabled := h.enabled
  heard := h.heard
  covered l rest hl j hj := by
    obtain ⟨rfl, rfl⟩ := List.cons.inj hl
    have hlt : j < 32 := BitVec.lt_of_getLsbD hj
    have hbit : (t.signals &&& t.sigPending).getLsbD j = true := by
      rw [BitVec.getLsbD_and, h.enabled j hlt (h.heard j hj), Bool.true_and]
      exact hj
    exact .inr ⟨Nat.le_add_left 1 j, shiftRight_ne_zero hbit⟩

theorem SigTsk.Ready.turn {t : SigTsk} (h : t.Ready) {l : SigLoop} {rest : List SigLoop}
    (hl : t.loops = l :: rest) (hres : l.res ≠ 0) : (t.turn l rest).Ready where
  enabled := h.enabled
  heard := h.heard
  covered l' rest' hl' j hj := by
    obtain ⟨rfl, rfl⟩ := List.cons.inj hl'
    have hkeeps {n : Nat} (hn : n ∈ t.served) : n ∈ (t.turn l rest).served := by
      simp only [SigTsk.turn]
      split
      · exact List.mem_cons_of_mem _ hn
      · exact hn
    rcases h.covered l rest hl j hj with hserved | ⟨hle, hne⟩
    · exact .inl (hkeeps hserved)
    · rcases Nat.eq_or_lt_of_le hle with heq | hlt
      · -- the turn of this signal
        have hcalled := SigTsk.hears_iff.mp (h.heard j hj)
        left
        simp only [SigTsk.turn]
        rw [← heq] at hcalled ⊢
        rw [if_pos ⟨hres, hcalled⟩]
        exact List.mem_cons_self
      · refine .inr ⟨hlt, ?_⟩
        show (l.res >>> 1) >>> (j + 1 - (l.i + 1)) ≠ 0
        rw [← BitVec.shiftRight_add, show 1 + (j + 1 - (l.i + 1)) = j + 1 - l.i by omega]
        exact hne

theorem SigTsk.Ready.clear {t : SigTsk} (h : t.Ready) (rest : List SigLoop) :
    (t.clear rest).Ready where
  enabled := h.enabled
  heard j hj := by simp [SigTsk.clear] at hj
  covered _ _ _ j hj := by simp [SigTsk.clear] at hj

/-! ## The invariant of the system -/

structure SigInv (s : SigState) : Prop where
  ready : ∀ t, (s.sig t).Ready
  lost : s.lost = []

theorem SigInv.setSig {s : SigState} (h : SigInv s) (p : TaskId) {x : SigTsk} (hx : x.Ready) :
    SigInv (s.setSig p x) := by
  refine ⟨fun t => ?_, h.lost⟩
  by_cases ht : t = p
  · subst ht
    show (Function.update s.sig t x t).Ready
    rw [Function.update_self]
    exact hx
  · show (Function.update s.sig p x t).Ready
    rw [Function.update_of_ne ht]
    exact h.ready t

/-- When the loop has ended, a handler has been called for every pending signal. -/
theorem SigInv.unserved {s : SigState} (h : SigInv s) {l : SigLoop} {rest : List SigLoop}
    (hl : s.cur.loops = l :: rest) (hend : l.res = 0) : s.unserved = [] := by
  unfold SigState.unserved
  rw [List.filter_eq_nil_iff]
  intro signo hsig hlost
  obtain ⟨j, -, rfl⟩ := List.mem_map.mp hsig
  simp only [Nat.add_sub_cancel, Bool.and_eq_true, Bool.not_eq_true', List.contains_eq_mem,
    decide_eq_false_iff_not] at hlost
  obtain ⟨⟨hbit, -⟩, hnot⟩ := hlost
  rcases (h.ready s.sched.current).covered l rest hl j hbit with hserved | ⟨-, hne⟩
  · exact hnot hserved
  · apply hne
    rw [hend]
    exact BitVec.zero_ushiftRight

theorem SigInv.tmSignal {s : SigState} (h : SigInv s) {signo : Nat} (hsig : ValidSig signo)
    (handler : Option Nat) (sigOk : Bool) : SigInv (Sched.tmSignal s signo handler sigOk) := by
  unfold Sched.tmSignal
  split
  · exact h
  · have hreg := h.setSig s.sched.current ((h.ready s.sched.current).register hsig handler)
    have hidle := hreg.setSig s.sched.idle ((hreg.ready s.sched.idle).enable (bitPos signo))
    exact ⟨hidle.ready, hidle.lost⟩

theorem SigInv.of_step {s s' : SigState} {op : SigOp} (h : SigInv s) (hok : SigAttended s op)
    (hstep : sigStep s op = some s') : SigInv s' := by
  have hcur : s.cur.Ready := h.ready s.sched.current
  cases op with
  | sched op =>
      -- the scheduler does not touch the fields of signals
      have hmap : ∃ m, { s with sched := m } = s' := by
        cases op with
        | schedule now => cases hstep
        | _ =>
            simp only [sigStep] at hstep
            exact (Option.map_eq_some_iff.mp hstep).imp fun _ hm => hm.2
      obtain ⟨m, rfl⟩ := hmap
      exact ⟨h.ready, h.lost⟩
  | tmSignal signo handler sigOk =>
      obtain ⟨hsig, heq⟩ := Option.ite_none_right_eq_some.mp hstep
      cases heq
      exact h.tmSignal hsig handler sigOk
  | arrive signo =>
      obtain ⟨⟨hsig, -⟩, heq⟩ := Option.ite_none_right_eq_some.mp hstep
      cases heq
      exact h.setSig _ (hcur.pend hsig hok.1 hok.2)
  | tmRaise signo =>
      obtain ⟨hsig, heq⟩ := Option.ite_none_right_eq_some.mp hstep
      cases heq
      exact h.setSig _ (hcur.pend hsig hok.1 hok.2)
  | schedule now =>
      simp only [sigStep] at hstep
      split at hstep
      · cases hstep
        exact h.setSig _ hcur.enter
      · obtain ⟨m, -, rfl⟩ := Option.map_eq_some_iff.mp hstep
        exact ⟨h.ready, h.lost⟩
  | turn =>
      simp only [sigStep] at hstep
      split at hstep
      · cases hstep
      · rename_i l rest hl
        obtain ⟨hres, heq⟩ := Option.ite_none_left_eq_some.mp hstep
        cases heq
        exact h.setSig _ (hcur.turn hl hres)
  | clear now =>
      simp only [sigStep] at hstep
      split at hstep
      · cases hstep
      · rename_i l rest hl
        obtain ⟨hend, heq⟩ := Option.ite_none_left_eq_some.mp hstep
        obtain ⟨m, -, rfl⟩ := Option.map_eq_some_iff.mp heq
        refine ⟨(h.setSig s.sched.current (hcur.clear rest)).ready, ?_⟩
        show s.lost ++ s.unserved = []
        rw [h.lost, h.unserved hl (not_not.mp hend), List.append_nil]

theorem sigInv_initSig (now : Int) : SigInv (initSig now) :=
  ⟨fun _ => SigTsk.ready_default, rfl⟩

/-! ## Runs -/

/-- In a run in which every signal comes in while a task with a handler for it attends to
it, none is cleared without a handler having been called for it. -/
theorem noneLost_of_run (now : Int) (ops : List SigOp) (s : SigState)
    (hok : PartialSteps.Meets sigStep SigAttended (initSig now) ops)
    (hrun : PartialSteps.run sigStep (initSig now) ops = some s) : s.lost = [] :=
  (PartialSteps.run_invariant sigStep (I := SigInv)
    (fun _ _ _ hs hattends hstep => hs.of_step hattends hstep) (sigInv_initSig now) hok hrun).lost

/-- The program's task registers a handler, gets the signal and is preempted by the tick in
the middle of its loop. -/
def preemptedRun : List SigOp :=
  [.tmSignal 10 (some 5) true, .arrive 10, .schedule 0] ++ List.replicate 4 SigOp.turn ++
    [.arrive 10, .schedule 0] ++ List.replicate 10 SigOp.turn ++ [.clear 0]

theorem noneLost_preempted :
    ∃ s, PartialSteps.run sigStep (initSig 0) preemptedRun = some s ∧
      (s.sig 1).sigPending = 0 ∧ 10 ∈ (s.sig 1).served ∧ s.lost = [] := by
  have hfacts : (PartialSteps.run sigStep (initSig 0) preemptedRun).map
      (fun s => ((s.sig 1).sigPending, (s.sig 1).served.contains 10)) = some (0, true) := by
    decide +kernel
  obtain ⟨s, hs, hvals⟩ := Option.map_eq_some_iff.mp hfacts
  simp only [Prod.mk.injEq] at hvals
  obtain ⟨hpending, hserved⟩ := hvals
  exact ⟨s, hs, hpending, List.contains_iff_mem.mp hserved,
    noneLost_of_run 0 preemptedRun s (by decide +kernel) hs⟩

/-- The program's task registers a handler; it and the other task wait, and the signal comes
in while the idle task is running. -/
def idleRun : List SigOp :=
  [.tmSignal 10 (some 5) true, .sched (.addToWaitQ 0), .schedule 0, .sched (.addToWaitQ 0),
    .schedule 0, .arrive 10, .schedule 0] ++ List.replicate 10 SigOp.turn ++ [.clear 0]

/-- The idle task clears the signal, although the program's task has a handler for it. -/
theorem lost_idleRun :
    ∃ s, PartialSteps.run sigStep (initSig 0) idleRun = some s ∧
      1 ∈ s.sched.live ∧ (s.sig 1).hears 10 = true ∧ (s.sig s.sched.idle).served = [] ∧
      s.lost = [10] := by
  have hfacts : (PartialSteps.run sigStep (initSig 0) idleRun).map
      (fun s =>
        (s.sched.live.contains 1, (s.sig 1).hears 10, (s.sig s.sched.idle).served, s.lost)) =
      some (true, true, [], [10]) := by
    decide +kernel
  obtain ⟨s, hs, hvals⟩ := Option.map_eq_some_iff.mp hfacts
  simp only [Prod.mk.injEq] at hvals
  obtain ⟨hlive, hhears, hserved, hlost⟩ := hvals
  exact ⟨s, hs, List.contains_iff_mem.mp hlive, hhears, hserved, hlost⟩

end Sched
end TmULThreads
