import TmULThreads.Lib.PartialSteps
import Mathlib.Data.Fintype.Fin
import Mathlib.Data.Int.Init
import Mathlib.Logic.Function.Basic

/-!
# The scheduler of the SFS build

The functions of `core/sched.c`, with `spawn_task` and `post_event` of
`thread_lib.c`, the IO wait lists of `iostream.c` and the locks of `lock.c`, as
functions on an explicit state.

A task is named by its `tid`.  The intrusive lists that a task can be linked in
are the values of one function on list heads; `list_del` takes a task out of
whatever list it is in, and does nothing to a task that is in none.  The reading
of `times (NULL)` is an argument `now`.  Every function that has no defined
outcome in the source returns `none` there: `schedule` when no task has been
elected or when its arithmetic divides by zero.

Tasks do not end in this model, signals are not delivered, and the library is
not switched to OS threads.
-/

namespace TmULThreads
namespace Sched

abbrev TaskId := Nat
abbrev LockId := Nat

abbrev maxPrio : Nat := 20
abbrev maxFds : Nat := 16

instance : NeZero maxPrio := ⟨by decide⟩

theorem toNat_lt_maxPrio {prio : Int} (h : 0 ≤ prio ∧ prio < maxPrio) : prio.toNat < maxPrio := by
  omega

def loadThreshold : Int := 40
def defHptTslice : Nat := 60
def defLowTslice : Nat := 30
def defaultTimeSlice : Nat := 60

inductive TskState where
  | init
  | running
  | runnable
  | stopped
  | interruptible
  | uninterruptible
  | debug
  deriving DecidableEq, Repr

/-- `struct tsk`, as far as the scheduler reads it. -/
structure Tsk where
  prio : Fin maxPrio
  onrq : Bool := false
  state : TskState := .init
  currt : Int := 0
  trt : Int := 0
  stime : Int := 0
  tslice : Nat := defaultTimeSlice
  cpuusage : Int := 0
  swct : Int := 0
  event : BitVec 32 := 0
  stick : Int := 0
  etick : Int := 0
  deriving DecidableEq, Repr

/-- The list heads: `rq.hd`, `wq.hd`, `io_wait_task` and the `wq` of a lock. -/
inductive Head where
  | rq (prio : Fin maxPrio)
  | wq
  | io (fd : Fin maxFds)
  | lock (l : LockId)
  deriving DecidableEq, Repr

def Head.isRq : Head → Bool
  | .rq _ => true
  | _ => false

/-- `lock_t` without its list. -/
structure LockT where
  owner : Option TaskId := none
  lock : Int := 0
  deriving DecidableEq, Repr

structure SchedState where
  /-- The tasks that exist. -/
  live : List TaskId
  tsk : TaskId → Tsk
  /-- The static counter of `alloc_tid`. -/
  taskid : TaskId
  current : TaskId
  idle : TaskId
  parent : TaskId
  nxtImmTask : Option TaskId
  hd : Head → List TaskId
  nrp : Int
  nwp : Int
  taskCount : Nat
  schedNeed : Bool
  lock : LockId → LockT

/-! ## Lists -/

def listDel (s : SchedState) (p : TaskId) : SchedState :=
  { s with hd := fun h => (s.hd h).filter (· ≠ p) }

def listAdd (s : SchedState) (p : TaskId) (h : Head) : SchedState :=
  { s with hd := Function.update s.hd h (p :: s.hd h) }

def listAddTail (s : SchedState) (p : TaskId) (h : Head) : SchedState :=
  { s with hd := Function.update s.hd h (s.hd h ++ [p]) }

def SchedState.setTsk (s : SchedState) (p : TaskId) (t : Tsk) : SchedState :=
  { s with tsk := Function.update s.tsk p t }

@[simp] theorem setTsk_tsk_self (s : SchedState) (p : TaskId) (t : Tsk) :
    (s.setTsk p t).tsk p = t :=
  Function.update_self ..

theorem setTsk_tsk_of_ne (s : SchedState) {p q : TaskId} (t : Tsk) (h : q ≠ p) :
    (s.setTsk p t).tsk q = s.tsk q :=
  Function.update_of_ne h ..

/-! ## Waiting and waking -/

def addTaskToWaitQ (s : SchedState) (p : TaskId) (now : Int) : SchedState :=
  if (s.tsk p).onrq then
    let s := listAddTail (listDel s p) p .wq
    let s := s.setTsk p { s.tsk p with state := .interruptible, onrq := false, stime := now }
    { s with nrp := s.nrp - 1, nwp := s.nwp + 1 }
  else s

/-- The cached task is replaced by one of higher priority. -/
def cacheTask (s : SchedState) (p : TaskId) : SchedState :=
  match s.nxtImmTask with
  | some c => if (s.tsk p).prio < (s.tsk c).prio then { s with nxtImmTask := some p } else s
  | none => { s with nxtImmTask := some p }

/-- A task of higher priority than the current one asks for a `schedule`. -/
def requestSched (s : SchedState) (p : TaskId) : SchedState :=
  if (s.tsk p).prio < (s.tsk s.current).prio then { s with schedNeed := true } else s

/-- A task that is on a run queue already is not moved, but it is cached as the
next task like any other. -/
def wakeupTask (s : SchedState) (p : TaskId) (now : Int) : SchedState :=
  let s :=
    if (s.tsk p).onrq then s
    else
      let s := listAdd (listDel s p) p (.rq (s.tsk p).prio)
      let s := s.setTsk p { s.tsk p with onrq := true }
      { s with nrp := s.nrp + 1, nwp := s.nwp - 1 }
  let s := cacheTask (requestSched s p) p
  s.setTsk p { s.tsk p with stime := now - (s.tsk p).stime }

def taskFindRightRQ (s : SchedState) (p : TaskId) : SchedState :=
  let s := listAddTail s p (.rq (s.tsk p).prio)
  let s := s.setTsk p { s.tsk p with onrq := true }
  { s with nrp := s.nrp + 1 }

def wakeupNewTask (s : SchedState) (p : TaskId) (now : Int) : SchedState :=
  let s := cacheTask (taskFindRightRQ (requestSched s p) p) p
  s.setTsk p { s.tsk p with stime := now }

/-- `spawn_task`; `wrapper` tells whether there is a function to run, as without
one the task is neither counted nor put on a queue.  `tskOk` and `stkOk` say
whether the two allocations succeed. -/
def spawnTask (s : SchedState) (prio : Fin maxPrio) (wrapper tskOk stkOk : Bool) (now : Int) :
    SchedState × Option TaskId :=
  if ¬ tskOk then (s, none)
  else
    let tid := s.taskid + 1
    let s := { s with taskid := tid }
    if ¬ stkOk then (s, none)
    else
      let s := { s with live := s.live ++ [tid] }.setTsk tid { prio := prio }
      if wrapper then
        (wakeupNewTask { s with taskCount := s.taskCount + 1 } tid now, some tid)
      else (s, some tid)

/-- The part of `wait_on_fd` before its `schedule`. -/
def queueOnFd (s : SchedState) (fd : Fin maxFds) : SchedState :=
  let s := listAddTail (listDel s s.current) s.current (.io fd)
  let s := s.setTsk s.current { s.tsk s.current with onrq := false }
  { s with nrp := s.nrp - 1, nwp := s.nwp + 1 }

/-- `set_task_not_rq` leaves `rq.nrp` as it was. -/
def setTaskNotRq (s : SchedState) : SchedState :=
  let s := s.setTsk s.current { s.tsk s.current with onrq := false }
  { s with nwp := s.nwp + 1 }

/-- A pass through the loop of `lock`, up to its `schedule`, or what comes after
the loop. -/
def lockPass (s : SchedState) (l : LockId) : SchedState :=
  if (s.lock l).lock ≠ 0 then
    setTaskNotRq (listAddTail (listDel s s.current) s.current (.lock l))
  else
    { s with lock := Function.update s.lock l ⟨some s.current, 1⟩ }

/-- `unlock`; a count below zero raises `SIGSEGV`. -/
def unlock (s : SchedState) (l : LockId) (now : Int) : Option SchedState :=
  if (s.lock l).owner ≠ some s.current then some s
  else if (s.lock l).lock - 1 < 0 then none
  else
    let s := { s with lock := Function.update s.lock l ⟨none, (s.lock l).lock - 1⟩ }
    match s.hd (.lock l) with
    | [] => some s
    | p :: _ => some (wakeupTask s p now)

/-- `wake_io_task` unlinks every task of the list before it wakes it. -/
def wakeIoTask (s : SchedState) (fd : Fin maxFds) (now : Int) : SchedState :=
  (s.hd (.io fd)).foldl (fun s p => wakeupTask (listDel s p) p now) s

def findTask (s : SchedState) (tid : TaskId) : Option TaskId :=
  let inIo := (List.finRange maxFds).any fun fd => tid ∈ s.hd (.io fd)
  let inRq := (List.finRange maxPrio).any fun k => tid ∈ s.hd (.rq k)
  if inIo || tid ∈ s.hd .wq || (s.nrp ≠ 0 && inRq) then some tid else none

def postEvent (s : SchedState) (tid : TaskId) (event : BitVec 32) (now : Int) : SchedState :=
  match findTask s tid with
  | none => s
  | some p => wakeupTask (s.setTsk p { s.tsk p with event := (s.tsk p).event ||| event }) p now

/-! ## Choosing the next task -/

def rmNMoveTaskNewRq (s : SchedState) (p : TaskId) : SchedState :=
  listAddTail (listDel s p) p (.rq (s.tsk p).prio)

/-- The first task of the first run queue that is not empty. -/
def firstReady (s : SchedState) : Option TaskId :=
  (List.finRange maxPrio).findSome? fun k => (s.hd (.rq k)).head?

def nextTaskReadyToRun (s : SchedState) : SchedState × Option TaskId :=
  if s.nrp = 0 then (s, none)
  else
    match firstReady s with
    | none => (s, none)
    | some p => (if p ≠ s.current then rmNMoveTaskNewRq s p else s, some p)

def getNextEligibleTaskToRun (s : SchedState) : SchedState × Option TaskId :=
  if s.nrp = 0 then (s, some s.idle)
  else
    match s.nxtImmTask with
    | some c => (if s.current ≠ c then { s with nxtImmTask := none } else s, some c)
    | none => nextTaskReadyToRun s

/-! ## Time -/

def toUInt (n : Int) : Nat := (n % 2 ^ 32).toNat

def calcCurrentCpuUsage (s : SchedState) : SchedState :=
  let t := s.tsk s.current
  let usage : Int :=
    if t.tslice ≠ 0 then
      let used := Int.bmod (toUInt (t.currt * 100) / t.tslice) (2 ^ 32)
      if used > 100 then 100 else used
    else 100
  s.setTsk s.current { t with cpuusage := usage }

def updateStats (s : SchedState) (now : Int) : SchedState :=
  let s := calcCurrentCpuUsage s
  let t := s.tsk s.current
  s.setTsk s.current
    { t with currt := 0, swct := t.swct + 1, etick := now, trt := t.trt + (now - t.stick) * 10 }

def getLoadOnSystem (s : SchedState) : Int :=
  Int.bmod (toUInt (s.nrp * 100) / s.taskCount) (2 ^ 32)

def shareLoadAcrossSystem (s : SchedState) (load : Int) : Option Nat :=
  let load := if load = 0 then 1 else load
  let share := (1000 * load).tdiv 100
  let div := toUInt (s.nrp + 1)
  if div = 0 then none else some (toUInt share / div)

/-- The elected task is one that the time slice code moves to the lowest
priority. -/
def isDemoted (s : SchedState) (p : TaskId) : Bool :=
  getLoadOnSystem s > loadThreshold && (s.tsk p).cpuusage > loadThreshold

/-- `calculate_time_slice` changes `prio` and leaves the task where it is
linked. -/
def calculateTimeSlice (s : SchedState) (p : TaskId) : Option SchedState :=
  if p = s.idle ∨ p = s.current then some s
  else if s.taskCount = 0 then none
  else do
    let s := if isDemoted s p then s.setTsk p { s.tsk p with prio := 19 } else s
    let share ← shareLoadAcrossSystem s (getLoadOnSystem s)
    let extra := if (s.tsk p).prio < 5 then defHptTslice else defLowTslice
    some (s.setTsk p { s.tsk p with tslice := (share + extra) % 2 ^ 32 })

def contextSwitch (s : SchedState) (next : TaskId) (now : Int) : SchedState :=
  let s := { s with current := next }
  s.setTsk next { s.tsk next with state := .running, stick := now }

def schedule (s : SchedState) (now : Int) : Option SchedState := do
  let (s, etsk) := getNextEligibleTaskToRun s
  let s := { s with schedNeed := false }
  let e ← etsk
  if s.current ≠ e then
    let s := updateStats s now
    let s ← calculateTimeSlice s e
    let s := s.setTsk s.current { s.tsk s.current with state := .interruptible }
    some (contextSwitch s e now)
  else some (calcCurrentCpuUsage s)

def accountTaskTimeStats (s : SchedState) (now : Int) : SchedState :=
  let t := s.tsk s.current
  let currt := (now - t.stick) * 10
  let s := s.setTsk s.current { t with etick := now, currt := currt }
  if t.tslice ≤ toUInt currt then { s with schedNeed := true } else s

/-! ## Boot -/

def initScheduler : SchedState where
  live := []
  tsk := fun _ => { prio := 0 }
  taskid := 0
  current := 0
  idle := 0
  parent := 0
  nxtImmTask := none
  hd := fun _ => []
  nrp := 0
  nwp := 0
  taskCount := 0
  schedNeed := false
  lock := fun _ => {}

/-- The task of the program itself is marked as running but is linked
nowhere. -/
def createParentTask (s : SchedState) (now : Int) : SchedState :=
  let (s, t) := spawnTask s 1 false true true now
  let main := t.getD 0
  let s := { s with current := main, parent := main }
  s.setTsk main { s.tsk main with stick := now, onrq := true, state := .running }

def createIdleTask (s : SchedState) (now : Int) : SchedState :=
  let (s, t) := spawnTask s 19 true true true now
  let idle := t.getD 0
  let s := { s with idle := idle }
  let s := s.setTsk idle { s.tsk idle with state := .interruptible }
  listDel s idle

def initSoftIrq (s : SchedState) (now : Int) : SchedState :=
  (spawnTask s 1 true true true now).1

/-- The state after `tmlib_init`, whose allocations succeed. -/
def tmlibInit (now : Int) : SchedState :=
  initSoftIrq (createIdleTask (createParentTask initScheduler now) now) now

/-! ## Steps -/

/-- What the current task or an interrupt can do.  The calls that end in
`schedule` are two steps, as interrupts can come in between. -/
inductive Op where
  | spawn (prio : Int) (tskOk stkOk : Bool) (now : Int)
  | addToWaitQ (now : Int)
  | waitOnFd (fd : Nat)
  | lock (l : LockId)
  | unlock (l : LockId) (now : Int)
  | wakeup (p : TaskId) (now : Int)
  | wakeIo (fd : Nat) (now : Int)
  | postEvent (tid : TaskId) (event : BitVec 32) (now : Int)
  | tick (now : Int)
  | schedule (now : Int)
  deriving DecidableEq, Repr

/-- A priority or a descriptor outside its array has no defined outcome.  The
idle task only calls `schedule`, and it is never a task that something waits
for. -/
def schedStep (s : SchedState) : Op → Option SchedState
  | .spawn prio tskOk stkOk now =>
      if h : 0 ≤ prio ∧ prio < maxPrio then
        some (spawnTask s ⟨prio.toNat, toNat_lt_maxPrio h⟩ true tskOk stkOk now).1
      else none
  | .addToWaitQ now => if s.current = s.idle then none else some (addTaskToWaitQ s s.current now)
  | .waitOnFd fd =>
      if h : fd < maxFds then
        if s.current = s.idle then none else some (queueOnFd s ⟨fd, h⟩)
      else none
  | .lock l => if s.current = s.idle then none else some (lockPass s l)
  | .unlock l now => Sched.unlock s l now
  | .wakeup p now => if p ∈ s.live ∧ p ≠ s.idle then some (wakeupTask s p now) else none
  | .wakeIo fd now => if h : fd < maxFds then some (wakeIoTask s ⟨fd, h⟩ now) else none
  | .postEvent tid event now => some (Sched.postEvent s tid event now)
  | .tick now => some (accountTaskTimeStats s now)
  | .schedule now => Sched.schedule s now

end Sched
end TmULThreads
