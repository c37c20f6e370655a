import TmULThreads.Lib.Meter
import TmULThreads.Mem.Registry
import TmULThreads.Sched.Boot
import TmULThreads.Sched.Exit
import TmULThreads.Timers.Steps

/-!
# The blocks that the library allocates

In the SFS build every request for memory goes through `tm_calloc` or `tm_malloc`, which add
its size to `alloc_size`; `tm_free` takes the size off again, and `free` does not touch the
counter.  This module puts the scheduler, the timer manager, the soft irqs and the pools
together, and gives for each of their steps the requests and releases that it makes, in the
order of the source: `alloc` is `tm_calloc`, `release` is `tm_free` and `drop` is `free`.

A block is named after what it is for.  The counter is a `size_t`, and as the blocks of a
program lie in one address space, a request succeeds only if all of them together have fewer
than `2 ^ 64` bytes.
-/

namespace TmULThreads
namespace ThreadLib

open Meter (Event Heap)
open Sched (SchedState TaskId Exit ExitOp exitStep ended tmlibInit)
open Timers (TmrState TimerId AppId Call allocTimerId timerOnce timerRepeat initTimerMgr)
open Mem (Registry RegOp regStep initRegistry poolBytes toSizeT)

/-- The size of a structure. -/
abbrev SizeOf := { n : Nat // 0 < n ∧ n < 2 ^ 32 }

/-- The sizes that the compiler gives to the structures of the library. -/
structure Layout where
  tsk : SizeOf
  timer : SizeOf
  appTimer : SizeOf
  softIrq : SizeOf
  memInfo : SizeOf

inductive Block where
  | tsk (tid : TaskId)
  | stk (tid : TaskId)
  | timer (p : TimerId)
  | appTimer (a : AppId)
  | softIrq (n : Nat)
  | memInfo (memid : Nat)
  | area (memid : Nat)
  | addrBlks (memid : Nat)
  deriving DecidableEq, Repr

/-- The part of the library that a block belongs to. -/
inductive Part where
  | sched
  | timers
  | softIrqs
  | pools
  deriving DecidableEq, Repr

def Block.part : Block → Part
  | .tsk _ | .stk _ => .sched
  | .timer _ | .appTimer _ => .timers
  | .softIrq _ => .softIrqs
  | .memInfo _ | .area _ | .addrBlks _ => .pools

/-! ## Tasks -/

/-- When there is no stack for it, `spawn_task` gives the new task back with `free`. -/
def spawnTraffic (L : Layout) (tid : TaskId) (stksze : Int) (tskOk stkOk : Bool) :
    List (Event Block) :=
  if ¬ tskOk then [.alloc (.tsk tid) L.tsk false]
  else if ¬ stkOk then
    [.alloc (.tsk tid) L.tsk true, .alloc (.stk tid) (toSizeT stksze) false, .drop (.tsk tid)]
  else [.alloc (.tsk tid) L.tsk true, .alloc (.stk tid) (toSizeT stksze) true]

/-- `task_exit` clears the task before it frees `p->stk`, so only the task itself is
freed. -/
def schedTraffic (L : Layout) (s : SchedState) (stksze : Int) : ExitOp → List (Event Block)
  | .op (.spawn _ tskOk stkOk _) => spawnTraffic L (s.taskid + 1) stksze tskOk stkOk
  | .op _ => []
  | .exit e => (ended s e).toList.map fun p => Event.drop (.tsk p)

/-! ## Timers -/

/-- The condition under which `del_timer` calls `stop_timer`. -/
def running (s : TmrState) (p : TimerId) : Bool :=
  (s.timers p).any fun t => t.apptimer.isSome && t.isRunning

/-- The `free` of `stop_timer`. -/
def stopTraffic (s : TmrState) (p : TimerId) : List (Event Block) :=
  ((s.timers p).bind Timers.Timer.apptimer).toList.map fun a => Event.drop (.appTimer a)

def callTraffic (L : Layout) (s : TmrState) : Call → List (Event Block)
  | .startTimer _ _ _ _ timerOk appOk =>
      if (allocTimerId s).2 = 0 then []
      else if ¬ timerOk then [.alloc (.timer s.nextTimer) L.timer false]
      else if ¬ appOk then
        [.alloc (.timer s.nextTimer) L.timer true, .alloc (.appTimer s.nextApp) L.appTimer false,
          .release (.timer s.nextTimer) L.timer]
      else
        [.alloc (.timer s.nextTimer) L.timer true, .alloc (.appTimer s.nextApp) L.appTimer true]
  | .setupTimer _ _ timerOk =>
      if (allocTimerId s).2 = 0 then [] else [.alloc (.timer s.nextTimer) L.timer timerOk]
  | .modTimer p _ appOk | .timerRestart p appOk =>
      p.toList.map fun _ => Event.alloc (.appTimer s.nextApp) L.appTimer appOk
  | .stopTimer p => stopTraffic s p
  | .delTimer p => if running s p then stopTraffic s p else []

/-- What `process_expd_timers` does with the timer of an entry before it frees the entry. -/
def finishTimer (L : Layout) (s : TmrState) (ptmr : Timers.AppTimer) (appOk : Bool) :
    List (Event Block) :=
  match ptmr.timer with
  | none => []
  | some p =>
      match s.timers p with
      | none => []
      | some tmr =>
          if tmr.flags &&& timerOnce ≠ 0 then [.release (.timer p) L.timer]
          else if tmr.flags &&& timerRepeat ≠ 0 then
            [.alloc (.appTimer s.nextApp) L.appTimer appOk]
          else []

def finishTraffic (L : Layout) (s : TmrState) (appOk : Bool) : List (Event Block) :=
  match s.expdTmrs with
  | [] => []
  | ptmr :: _ => finishTimer L s ptmr appOk ++ [.drop (.appTimer ptmr.addr)]

def timerTraffic (L : Layout) (s : TmrState) : Timers.Op → List (Event Block)
  | .call c => callTraffic L s c
  | .tick | .bottomHalf => []
  | .finishExpd appOk => finishTraffic L s appOk

/-! ## Pools -/

/-- The bytes that `build_free_mem_blk_list` asks for. -/
def tableBytes (nBlks : Int) : Nat := 8 * toSizeT nBlks % 2 ^ 64

/-- A failed `mem_pool_create` keeps the control block that it has allocated. -/
def poolTraffic (L : Layout) (s : Registry) : RegOp → List (Event Block)
  | .create size nBlks mcbOk area tableOk =>
      let memid := s.mem.lastId + 1
      if ¬ mcbOk then [.alloc (.memInfo memid) L.memInfo false]
      else if area = 0 then
        [.alloc (.memInfo memid) L.memInfo true, .alloc (.area memid) (poolBytes size nBlks) false]
      else
        [.alloc (.memInfo memid) L.memInfo true, .alloc (.area memid) (poolBytes size nBlks) true,
          .alloc (.addrBlks memid) (tableBytes nBlks) tableOk]
  | .delete memid =>
      match s.getMemInfo memid with
      | some (some p) => [Block.addrBlks p.memid, .area p.memid, .memInfo p.memid].map Event.drop
      | _ => []
  | .alloc _ | .free .. => []

/-! ## The library -/

structure AllocState where
  sched : SchedState
  timers : TmrState
  /-- The number of soft irqs, which are never freed. -/
  softIrqs : Nat
  pools : Registry
  /-- `alloc_size`, and the blocks that have not been released. -/
  heap : Heap Block

inductive AllocOp where
  /-- A step of the scheduler; `stksze` is used by `spawn_task` only. -/
  | sched (op : ExitOp) (stksze : Int)
  | timer (op : Timers.Op)
  | softirqCreate (ok : Bool)
  | pool (op : RegOp)
  deriving DecidableEq, Repr

def AllocOp.part : AllocOp → Part
  | .sched .. => .sched
  | .timer _ => .timers
  | .softirqCreate _ => .softIrqs
  | .pool _ => .pools

def traffic (L : Layout) (s : AllocState) : AllocOp → List (Event Block)
  | .sched op stksze => schedTraffic L s.sched stksze op
  | .timer op => timerTraffic L s.timers op
  | .softirqCreate ok => [.alloc (.softIrq s.softIrqs) L.softIrq ok]
  | .pool op => poolTraffic L s.pools op

/-- The step apart from its requests and releases. -/
def advance (s : AllocState) : AllocOp → Option AllocState
  | .sched op _ => (exitStep s.sched op).map fun sched => { s with sched := sched }
  | .timer op => (Timers.step .sfs s.timers op).map fun timers => { s with timers := timers }
  | .softirqCreate ok => some { s with softIrqs := if ok then s.softIrqs + 1 else s.softIrqs }
  | .pool op => (regStep s.pools op).map fun pools => { s with pools := pools }

def allocStep (L : Layout) (s : AllocState) (op : AllocOp) : Option AllocState := do
  let next ← advance s op
  let heap ← PartialSteps.run (Meter.exec (2 ^ 64)) s.heap (traffic L s op)
  some { next with heap := heap }

/-- The requests of `create_parent_task`, `create_idle_task`, `init_soft_irq` and
`init_timer_mgr`. -/
def bootTraffic (L : Layout) : List (Event Block) :=
  [.alloc (.tsk 1) L.tsk true, .alloc (.stk 1) 10000 true,
    .alloc (.tsk 2) L.tsk true, .alloc (.stk 2) (32 * 1024) true,
    .alloc (.tsk 3) L.tsk true, .alloc (.stk 3) (20 * 1024) true,
    .alloc (.softIrq 0) L.softIrq true]

def boot (L : Layout) (now : Int) : AllocState where
  sched := tmlibInit now
  timers := initTimerMgr
  softIrqs := 1
  pools := initRegistry
  heap := (bootTraffic L).foldl (Heap.apply (2 ^ 64)) ⟨0, []⟩

/-! ## The property and the condition -/

/-- `alloc_size` is the number of bytes in blocks that have not been released. -/
def AllocExact (s : AllocState) : Prop := s.heap.Exact

instance (s : AllocState) : Decidable (AllocExact s) := inferInstanceAs (Decidable s.heap.Exact)

/-- Both requests of `spawn_task` succeed, and no task ends.  A stack size that is negative
is a large request, and can make up for the task that is freed when it fails. -/
def SchedBalanced (L : Layout) (s : SchedState) (stksze : Int) : ExitOp → Prop
  | .op (.spawn _ tskOk stkOk _) =>
      tskOk = true ∧ (stkOk = true ∨ (toSizeT stksze + L.tsk) % 2 ^ 64 = 0)
  | .op _ => True
  | .exit e => ended s e = none

/-- The requests for timers succeed, unless none is made.  No timer is stopped, and no
entry of `expd_tmrs` is cleaned up. -/
def TimerBalanced (s : TmrState) : Timers.Op → Prop
  | .call (.startTimer _ _ _ _ timerOk appOk) =>
      (allocTimerId s).2 = 0 ∨ (timerOk = true ∧ appOk = true)
  | .call (.setupTimer _ _ timerOk) => (allocTimerId s).2 = 0 ∨ timerOk = true
  | .call (.modTimer p _ appOk) | .call (.timerRestart p appOk) => p = none ∨ appOk = true
  | .call (.stopTimer _) | .finishExpd _ => False
  | .call (.delTimer p) => running s p = false
  | .tick | .bottomHalf => True

/-- The requests for a pool succeed, as far as they are for any bytes, and no pool is
deleted. -/
def PoolBalanced (s : Registry) : RegOp → Prop
  | .create size nBlks mcbOk area tableOk =>
      mcbOk = true ∧
        ((area = 0 ∧ poolBytes size nBlks = 0) ∨
          (area ≠ 0 ∧ (tableOk = true ∨ tableBytes nBlks = 0)))
  | .delete memid => s.pools memid = none
  | .alloc _ | .free .. => True

def Balanced (L : Layout) (s : AllocState) : AllocOp → Prop
  | .sched op stksze => SchedBalanced L s.sched stksze op
  | .timer op => TimerBalanced s.timers op
  | .softirqCreate ok => ok = true
  | .pool op => PoolBalanced s.pools op

instance (L : Layout) (s : SchedState) (stksze : Int) : ∀ op, Decidable (SchedBalanced L s stksze op)
  | .op (.spawn ..) => inferInstanceAs (Decidable (_ ∧ (_ ∨ _)))
  | .op (.addToWaitQ _) | .op (.waitOnFd _) | .op (.lock _) | .op (.unlock ..) | .op (.wakeup ..)
  | .op (.wakeIo ..) | .op (.postEvent ..) | .op (.tick _) | .op (.schedule _) => isTrue trivial
  | .exit e => inferInstanceAs (Decidable (ended s e = none))

instance (s : TmrState) : ∀ op, Decidable (TimerBalanced s op)
  | .call (.startTimer ..) => inferInstanceAs (Decidable (_ ∨ (_ ∧ _)))
  | .call (.setupTimer ..) => inferInstanceAs (Decidable (_ ∨ _))
  | .call (.modTimer ..) => inferInstanceAs (Decidable (_ ∨ _))
  | .call (.timerRestart ..) => inferInstanceAs (Decidable (_ ∨ _))
  | .call (.stopTimer _) | .finishExpd _ => isFalse id
  | .call (.delTimer p) => inferInstanceAs (Decidable (running s p = false))
  | .tick | .bottomHalf => isTrue trivial

instance (s : Registry) : ∀ op, Decidable (PoolBalanced s op)
  | .create .. => inferInstanceAs (Decidable (_ ∧ (_ ∨ (_ ∧ (_ ∨ _)))))
  | .delete memid => inferInstanceAs (Decidable (s.pools memid = none))
  | .alloc _ | .free .. => isTrue trivial

instance (L : Layout) (s : AllocState) : ∀ op, Decidable (Balanced L s op)
  | .sched op stksze => inferInstanceAs (Decidable (SchedBalanced L s.sched stksze op))
  | .timer op => inferInstanceAs (Decidable (TimerBalanced s.timers op))
  | .softirqCreate ok => inferInstanceAs (Decidable (ok = true))
  | .pool op => inferInstanceAs (Decidable (PoolBalanced s.pools op))

/-! ## Each part makes requests for its own blocks -/

theorem part_of_schedTraffic (L : Layout) (s : SchedState) (stksze : Int) (op : ExitOp) :
    ∀ e ∈ schedTraffic L s stksze op, e.block.part = .sched := by
  cases op with
  | op o =>
      cases o with
      | spawn prio tskOk stkOk now =>
          simp only [schedTraffic, spawnTraffic]
          split_ifs <;> simp [Event.block, Block.part]
      | _ => simp [schedTraffic]
  | exit e => simp [schedTraffic, Event.block, Block.part]

theorem part_of_stopTraffic (s : TmrState) (p : TimerId) :
    ∀ e ∈ stopTraffic s p, e.block.part = .timers := by
  simp [stopTraffic, Event.block, Block.part]

theorem part_of_finishTimer (L : Layout) (s : TmrState) (ptmr : Timers.AppTimer) (appOk : Bool) :
    ∀ e ∈ finishTimer L s ptmr appOk, e.block.part = .timers := by
  unfold finishTimer
  split
  · simp
  · split
    · simp
    · split_ifs <;> simp [Event.block, Block.part]

theorem part_of_timerTraffic (L : Layout) (s : TmrState) (op : Timers.Op) :
    ∀ e ∈ timerTraffic L s op, e.block.part = .timers := by
  cases op with
  | call c =>
      cases c with
      | startTimer ticks data handler flags timerOk appOk =>
          simp only [timerTraffic, callTraffic]
          split_ifs <;> simp [Event.block, Block.part]
      | setupTimer handler data timerOk =>
          simp only [timerTraffic, callTraffic]
          split_ifs <;> simp [Event.block, Block.part]
      | modTimer p secs appOk => simp [timerTraffic, callTraffic, Event.block, Block.part]
      | timerRestart p appOk => simp [timerTraffic, callTraffic, Event.block, Block.part]
      | stopTimer p => exact part_of_stopTraffic s p
      | delTimer p =>
          simp only [timerTraffic, callTraffic]
          split_ifs
          · exact part_of_stopTraffic s p
          · simp
  | tick => simp [timerTraffic]
  | bottomHalf => simp [timerTraffic]
  | finishExpd appOk =>
      simp only [timerTraffic, finishTraffic]
      split
      · simp
      · rename_i ptmr rest hlist
        rw [List.forall_mem_append]
        exact ⟨part_of_finishTimer L s ptmr appOk, by simp [Event.block, Block.part]⟩

theorem part_of_poolTraffic (L : Layout) (s : Registry) (op : RegOp) :
    ∀ e ∈ poolTraffic L s op, e.block.part = .pools := by
  cases op with
  | create size nBlks mcbOk area tableOk =>
      simp only [poolTraffic]
      split_ifs <;> simp [Event.block, Block.part]
  | delete memid =>
      simp only [poolTraffic]
      split <;> simp [Event.block, Block.part]
  | alloc memid => simp [poolTraffic]
  | free memid addr => simp [poolTraffic]

theorem part_of_traffic (L : Layout) (s : AllocState) (op : AllocOp) :
    ∀ e ∈ traffic L s op, e.block.part = op.part := by
  cases op with
  | sched op stksze => exact part_of_schedTraffic L s.sched stksze op
  | timer op => exact part_of_timerTraffic L s.timers op
  | softirqCreate ok => simp [traffic, Event.block, Block.part, AllocOp.part]
  | pool op => exact part_of_poolTraffic L s.pools op

end ThreadLib
end TmULThreads
