import TmULThreads.Lib.PartialSteps
import Mathlib.Logic.Function.Basic

/-!
# The lock of the SFS build, statement by statement

`lock` and `unlock` of `core/lock.c`, cut at every point where the tick can
preempt a task.  A task is at one statement of the two functions or outside of
them; a step runs the statement that a task is at, and any task may be the next
one to take a step.  `schedule` may return whenever the scheduler likes.

`raise (SIGSEGV)` ends the program and with it the run.  Taking the first entry of
an empty list has no defined outcome.
-/

namespace TmULThreads
namespace Lock

abbrev TaskId := Nat

/-- The statement that a task is about to run. -/
inductive Pc where
  | out
  /-- `while (lock->lock)` -/
  | test
  | listDel
  | listAddTail
  | setTaskNotRq
  /-- In `schedule`. -/
  | asleep
  /-- `++lock->lock` -/
  | inc
  /-- `if (lock->lock > 1)` -/
  | checkInc
  /-- `lock->owner = get_current ()` -/
  | setOwner
  /-- `if (lock->owner != get_current ())` -/
  | checkOwner
  /-- `--lock->lock` -/
  | dec
  /-- `if (lock->lock < 0)` -/
  | checkDec
  /-- `lock->owner = NULL` -/
  | clearOwner
  /-- `if (!list_empty (&lock->wq))` -/
  | testWq
  | wakeFirst
  deriving DecidableEq, Repr

/-- `lock_t`, the `onrq` of the tasks and where they are.  `holds` is not part of
the program: a task holds the lock from the end of `lock` to the decrement in
`unlock`. -/
structure LockState where
  lock : Int
  owner : Option TaskId
  wq : List TaskId
  onrq : TaskId → Bool
  pc : TaskId → Pc
  holds : TaskId → Bool

def createLock : LockState where
  lock := 0
  owner := none
  wq := []
  onrq := fun _ => true
  pc := fun _ => .out
  holds := fun _ => false

def LockState.goto (s : LockState) (t : TaskId) (pc : Pc) : LockState :=
  { s with pc := Function.update s.pc t pc }

def LockState.setHolds (s : LockState) (t : TaskId) (b : Bool) : LockState :=
  { s with holds := Function.update s.holds t b }

/-- `wakeup_task`, as far as the lock can see it. -/
def wakeupTask (s : LockState) (p : TaskId) : LockState :=
  if s.onrq p then s
  else { s with wq := s.wq.filter (· ≠ p), onrq := Function.update s.onrq p true }

def runStatement (s : LockState) (t : TaskId) : Option LockState :=
  match s.pc t with
  | .out => none
  | .test => some (s.goto t (if s.lock ≠ 0 then .listDel else .inc))
  | .listDel => some ({ s with wq := s.wq.filter (· ≠ t) }.goto t .listAddTail)
  | .listAddTail => some ({ s with wq := s.wq ++ [t] }.goto t .setTaskNotRq)
  | .setTaskNotRq => some ({ s with onrq := Function.update s.onrq t false }.goto t .asleep)
  | .asleep => some (s.goto t .test)
  | .inc => some ({ s with lock := s.lock + 1 }.goto t .checkInc)
  | .checkInc => if s.lock > 1 then none else some (s.goto t .setOwner)
  | .setOwner => some (({ s with owner := some t }.setHolds t true).goto t .out)
  | .checkOwner => some (s.goto t (if s.owner ≠ some t then .out else .dec))
  | .dec => some (({ s with lock := s.lock - 1 }.setHolds t false).goto t .checkDec)
  | .checkDec => if s.lock < 0 then none else some (s.goto t .clearOwner)
  | .clearOwner => some ({ s with owner := none }.goto t .testWq)
  | .testWq => some (s.goto t (if s.wq ≠ [] then .wakeFirst else .out))
  | .wakeFirst =>
      match s.wq with
      | [] => none
      | p :: _ => some ((wakeupTask s p).goto t .out)

inductive Op where
  | lock (t : TaskId)
  | unlock (t : TaskId)
  | step (t : TaskId)
  deriving DecidableEq, Repr

def lockStep (s : LockState) : Op → Option LockState
  | .lock t => if s.pc t = .out then some (s.goto t .test) else none
  | .unlock t => if s.pc t = .out then some (s.goto t .checkOwner) else none
  | .step t => runStatement s t

/-! ## Where the tasks are -/

@[simp] theorem goto_lock (s : LockState) (t : TaskId) (pc : Pc) : (s.goto t pc).lock = s.lock := rfl
@[simp] theorem goto_holds (s : LockState) (t : TaskId) (pc : Pc) : (s.goto t pc).holds = s.holds :=
  rfl

@[simp] theorem goto_pc_self (s : LockState) (t : TaskId) (pc : Pc) : (s.goto t pc).pc t = pc :=
  Function.update_self ..

theorem goto_pc_of_ne (s : LockState) {t u : TaskId} (pc : Pc) (h : u ≠ t) :
    (s.goto t pc).pc u = s.pc u :=
  Function.update_of_ne h ..

theorem setHolds_of_ne (s : LockState) {t u : TaskId} (b : Bool) (h : u ≠ t) :
    (s.setHolds t b).holds u = s.holds u :=
  Function.update_of_ne h ..

@[simp] theorem setHolds_self (s : LockState) (t : TaskId) (b : Bool) :
    (s.setHolds t b).holds t = b :=
  Function.update_self ..

/-- `wakeup_task` changes neither the lock nor where anybody is. -/
theorem wakeupTask_eq (s : LockState) (p : TaskId) :
    ∃ wq onrq, wakeupTask s p = { s with wq := wq, onrq := onrq } := by
  unfold wakeupTask
  split
  · exact ⟨s.wq, s.onrq, rfl⟩
  · exact ⟨_, _, rfl⟩

end Lock
end TmULThreads
