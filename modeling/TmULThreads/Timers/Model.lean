import TmULThreads.Lib.RedBlackTree
import TmULThreads.Lib.PartialSteps
import TmULThreads.Timers.Cascade

/-!
# The timer manager

The functions of `tmr_init.c`, `update.c` and `btm_hlf.c` as functions on an
explicit state.

A `TIMER_T` or `APP_TIMER_T` is named by the number of its allocation, so an
address that has been freed is never handed out again; `timers` maps a handle
to the live object, and `none` there is an object that was never allocated or
has been given to `free_timer`.  Every function returns an `Option`: `none` is
a step without a defined outcome, which is a dereference of `NULL` or of a freed
object, an index outside `tmrrq.root`, or an `rb_erase` of a node that is not in
the tree.  Whether `tm_calloc` succeeds is an argument of the functions that
call it.
-/

namespace TmULThreads
namespace Timers

open RedBlackTree

abbrev TimerId := Nat
abbrev AppId := Nat

/-- `TIMER_T`; the defaults are those of `tm_calloc`. -/
structure Timer where
  rmt : U32 := 0
  exp : U32 := 0
  /-- `none` is `WAIT_TIMERS`, which is no index of `tmrrq.root`. -/
  wheel : Option Wheel := some .tick
  idx : U32 := 0
  flags : U32 := 0
  isRunning : Bool := false
  data : Nat := 0
  apptimer : Option AppId := none
  timeOutHandler : Option Nat := none
  deriving DecidableEq, Repr

/-- `APP_TIMER_T`, with the address it is linked under. -/
structure AppTimer where
  addr : AppId
  timer : Option TimerId := none
  ctime : U32 := 0
  rt : U32 := 0
  deriving DecidableEq, Repr

/-- The static data of the timer manager and its part of the heap. -/
structure TmrState where
  clk : Clk
  root : Wheel → RBTree AppTimer
  count : U32
  expdTmrs : List AppTimer
  indx : U32
  timers : TimerId → Option Timer
  nextTimer : TimerId
  nextApp : AppId
  /-- The bottom half has been asked to run: the soft irq has status `WAKE_UP`,
  or `TMR_SERVE_TIMERS` has been sent. -/
  raised : Bool

def timerOnce : U32 := 1
def timerRepeat : U32 := 2
def timerForever : U32 := 4
def maxTimers : U32 := 2000

/-- The state after `init_timer_mgr`. -/
def initTimerMgr : TmrState where
  clk := Clk.zero
  root := fun _ => .nil
  count := 0
  expdTmrs := []
  indx := 0
  timers := fun _ => none
  nextTimer := 0
  nextApp := 0
  raised := false

def TmrState.setTimer (s : TmrState) (p : TimerId) (t : Timer) : TmrState :=
  { s with timers := Function.update s.timers p (some t) }

def TmrState.setRoot (s : TmrState) (w : Wheel) (r : RBTree AppTimer) : TmrState :=
  { s with root := Function.update s.root w r }

/-! ## The trees -/

def timerAdd (n : AppTimer) (root : RBTree AppTimer) : RBTree AppTimer :=
  RedBlackTree.insert (fun x => x.rt.toNat) n root

def timerDel (n : AppId) (root : RBTree AppTimer) : Option (RBTree AppTimer) :=
  erase (fun x => x.addr == n) root

def timerTreeWalk (root : RBTree AppTimer) (key : U32) : Option AppTimer :=
  search (fun x => x.rt.toNat) key.toNat root

/-! ## Arming -/

def findTmrSlotAndPlace (s : TmrState) (ptmr : AppTimer) : Option TmrState :=
  match findSlot ptmr.ctime with
  | none => some s
  | some (w, t) => do
      let ptmr := { ptmr with rt := s.clk.get w + t }
      let p ← ptmr.timer
      let tmr ← s.timers p
      let s := s.setTimer p { tmr with wheel := some w, isRunning := true }
      some (s.setRoot w (timerAdd ptmr (s.root w)))

def calcTime (b : Build) (s : TmrState) (ptmr : AppTimer) : Option (TmrState × AppTimer) := do
  let p ← ptmr.timer
  let tmr ← s.timers p
  let tick := tmr.rmt
  let secs := tick / tmGetTicksPerSecond b
  let mins := secs / 60
  let hrs := mins / 60
  let ctime := setHrs (setMins (setSecs (setTick b ptmr.ctime tick) secs) mins) hrs
  some (s.setTimer p { tmr with exp := tick + s.clk.tick }, { ptmr with ctime := ctime })

/-- The common end of the functions that arm a timer. -/
def calcAndPlace (b : Build) (s : TmrState) (ptmr : AppTimer) : Option TmrState := do
  let (s, ptmr) ← calcTime b s ptmr
  let s ← findTmrSlotAndPlace s ptmr
  some { s with count := s.count + 1 }

def allocTimerId (s : TmrState) : TmrState × U32 :=
  if maxTimers < s.count then (s, 0) else ({ s with indx := s.indx + 1 }, s.indx + 1)

/-- The object returned by a successful `alloc_timer`, initialised to `t`. -/
def allocTimer (s : TmrState) (t : Timer) : TmrState × TimerId :=
  ({ s with timers := Function.update s.timers s.nextTimer (some t)
            nextTimer := s.nextTimer + 1 }, s.nextTimer)

def freeTimer (s : TmrState) (p : TimerId) : TmrState :=
  { s with timers := Function.update s.timers p none }

/-- A successful `tm_calloc` of an `APP_TIMER_T`. -/
def allocAppTimer (s : TmrState) : TmrState × AppId :=
  ({ s with nextApp := s.nextApp + 1 }, s.nextApp)

/-- `start_timer`; the returned handle is `none` where the source returns
`-1`. -/
def startTimer (b : Build) (s : TmrState) (ticks : U32) (data : Nat) (handler : Option Nat)
    (flags : U32) (timerOk appOk : Bool) : Option (TmrState × Option TimerId) :=
  let (s, idx) := allocTimerId s
  if idx = 0 ∨ ¬ timerOk then some (s, none)
  else
    let t : Timer :=
      { rmt := ticks, idx := idx, data := data, timeOutHandler := handler,
        flags := if flags ≠ 0 then flags else timerOnce }
    let (s, new) := allocTimer s t
    if ¬ appOk then some (freeTimer s new, none)
    else do
      let (s, apptimer) := allocAppTimer s
      let s := s.setTimer new { t with apptimer := some apptimer }
      let s ← calcAndPlace b s { addr := apptimer, timer := some new }
      some (s, some new)

def setupTimer (s : TmrState) (handler : Option Nat) (data : Nat) (timerOk : Bool) :
    TmrState × Option TimerId :=
  let (s, idx) := allocTimerId s
  if idx = 0 ∨ ¬ timerOk then (s, none)
  else
    let (s, new) := allocTimer s
      { idx := idx, rmt := 0, data := data, timeOutHandler := handler,
        flags := timerForever, wheel := none }
    (s, some new)

def modTimer (b : Build) (s : TmrState) (p : Option TimerId) (secs : U32) (appOk : Bool) :
    Option TmrState :=
  match p with
  | none => some s
  | some p =>
      if ¬ appOk then some s
      else do
        let (s, apptimer) := allocAppTimer s
        let tmr ← s.timers p
        let s := s.setTimer p
          { tmr with rmt := secs * tmGetTicksPerSecond b, apptimer := some apptimer }
        calcAndPlace b s { addr := apptimer, timer := some p }

/-- `timer_restart` never sets `apptimer->timer`, so `calc_time` dereferences
`NULL` whenever it is reached. -/
def timerRestart (b : Build) (s : TmrState) (p : Option TimerId) (appOk : Bool) :
    Option TmrState :=
  match p with
  | none => some s
  | some _ =>
      if ¬ appOk then some s
      else
        let (s, apptimer) := allocAppTimer s
        calcAndPlace b s { addr := apptimer }

/-! ## Stopping -/

/-- `stop_timer` leaves `p->apptimer` as it was. -/
def stopTimer (s : TmrState) (p : TimerId) : Option TmrState := do
  let tmr ← s.timers p
  let w ← tmr.wheel
  let apptimer ← tmr.apptimer
  let r ← timerDel apptimer (s.root w)
  let s := s.setRoot w r
  let s := s.setTimer p { tmr with isRunning := false }
  some { s with count := s.count - 1 }

def delTimer (s : TmrState) (p : TimerId) : Option TmrState := do
  let tmr ← s.timers p
  if tmr.apptimer.isSome ∧ tmr.isRunning then stopTimer s p else some s

/-! ## Ticks -/

def clearWheelTimer (s : TmrState) (ptmr : AppTimer) : Option AppTimer := do
  let p ← ptmr.timer
  let tmr ← s.timers p
  let w ← tmr.wheel
  some { ptmr with ctime := clearWheel w ptmr.ctime }

def timerExpiryAction (s : TmrState) (ptmr : AppTimer) : Option TmrState :=
  if ptmr.ctime = 0 then do
    let p ← ptmr.timer
    let tmr ← s.timers p
    let s := { s with count := s.count - 1 }
    let s := s.setTimer p { tmr with isRunning := false }
    some { s with expdTmrs := s.expdTmrs ++ [ptmr] }
  else findTmrSlotAndPlace s ptmr

/-- One turn of the loop of `process_timers`, for the node that the walk has
found. -/
def processOne (s : TmrState) (w : Wheel) (ptmr : AppTimer) : Option TmrState := do
  let ptmr ← clearWheelTimer s ptmr
  let r ← timerDel ptmr.addr (s.root w)
  timerExpiryAction (s.setRoot w r) ptmr

/-- The loop of `process_timers`.  A turn takes a node that matches out of the
tree and never puts a matching node back, so as many turns as the tree has
nodes are enough (`processTimers_exhausts`). -/
def processTimersLoop : Nat → TmrState → Wheel → U32 → Option (TmrState × Nat)
  | 0, s, _, _ => some (s, 0)
  | fuel + 1, s, w, expires =>
      match timerTreeWalk (s.root w) expires with
      | none => some (s, 0)
      | some ptmr => do
          let s ← processOne s w ptmr
          let (s, expdCount) ← processTimersLoop fuel s w expires
          some (s, expdCount + 1)

def processTimers (s : TmrState) (w : Wheel) (expires : U32) : Option (TmrState × Nat) :=
  processTimersLoop (s.root w).size s w expires

def tmProcessTickAndUpdateTimers (b : Build) (s : TmrState) : Option (TmrState × Nat) := do
  let (s, timersExp) ← processTimers s .tick s.clk.tick
  if isNxtSecHappend b s.clk then
    let (s, n) ← processTimers s .sec s.clk.sec
    let timersExp := timersExp + n
    if isNxtMinHappend s.clk then
      let (s, n) ← processTimers s .min s.clk.min
      let timersExp := timersExp + n
      if isNxtHrHappend s.clk then
        let (s, n) ← processTimers s .hrs s.clk.hrs
        some (s, timersExp + n)
      else some (s, timersExp)
    else some (s, timersExp)
  else some (s, timersExp)

/-- The tests are not nested here, unlike in
`tm_process_tick_and_update_timers`. -/
def timersPendingForService (b : Build) (s : TmrState) : Bool :=
  s.count ≠ 0 &&
    (!(s.root .tick).isEmpty ||
      (isNxtSecHappend b s.clk && !(s.root .sec).isEmpty) ||
      (isNxtMinHappend s.clk && !(s.root .min).isEmpty) ||
      (isNxtHrHappend s.clk && !(s.root .hrs).isEmpty))

/-- With soft irqs the service is only asked for; otherwise it is done here,
and the bottom half is asked to run the handlers. -/
def serviceTimers (b : Build) (s : TmrState) : Option TmrState :=
  match b with
  | .sfs => some { s with raised := true }
  | .normal => do
      let (s, n) ← tmProcessTickAndUpdateTimers b s
      some { s with raised := s.raised || n ≠ 0 }

def updateTimes (b : Build) (s : TmrState) : Option TmrState :=
  let s := { s with clk := s.clk.advance b }
  if timersPendingForService b s then serviceTimers b s else some s

/-! ## What a program can call -/

inductive Call where
  | startTimer (ticks : U32) (data : Nat) (handler : Option Nat) (flags : U32)
      (timerOk appOk : Bool)
  | setupTimer (handler : Option Nat) (data : Nat) (timerOk : Bool)
  | modTimer (p : Option TimerId) (secs : U32) (appOk : Bool)
  | timerRestart (p : Option TimerId) (appOk : Bool)
  | stopTimer (p : TimerId)
  | delTimer (p : TimerId)
  deriving DecidableEq, Repr

def Call.exec (b : Build) (s : TmrState) : Call → Option TmrState
  | .startTimer ticks data handler flags timerOk appOk =>
      (Timers.startTimer b s ticks data handler flags timerOk appOk).map Prod.fst
  | .setupTimer handler data timerOk => some (Timers.setupTimer s handler data timerOk).1
  | .modTimer p secs appOk => Timers.modTimer b s p secs appOk
  | .timerRestart p appOk => Timers.timerRestart b s p appOk
  | .stopTimer p => Timers.stopTimer s p
  | .delTimer p => Timers.delTimer s p

/-- The handle that a call is about. -/
def Call.target : Call → Option TimerId
  | .startTimer .. | .setupTimer .. => none
  | .modTimer p _ _ | .timerRestart p _ => p
  | .stopTimer p | .delTimer p => some p

/-! ## The bottom half -/

/-- One turn of the loop of `process_expd_timers` after the handler has
returned: the clean-up of the first entry. -/
def finishExpd (b : Build) (s : TmrState) (appOk : Bool) : Option TmrState :=
  match s.expdTmrs with
  | [] => none
  | ptmr :: rest => do
      let p ← ptmr.timer
      let tmr ← s.timers p
      let s := { s with expdTmrs := rest }
      let s := s.setTimer p { tmr with apptimer := none }
      if tmr.flags &&& timerOnce ≠ 0 then some (freeTimer s p)
      else if tmr.flags &&& timerRepeat ≠ 0 then timerRestart b s (some p) appOk
      else some s

/-- The calls that a handler makes, given the data it is called with. -/
abbrev Handlers := Nat → Nat → List Call

def callHandler (b : Build) (handlers : Handlers) (s : TmrState) : Option TmrState :=
  match s.expdTmrs with
  | [] => none
  | ptmr :: _ => do
      let p ← ptmr.timer
      let tmr ← s.timers p
      match tmr.timeOutHandler with
      | none => some s
      | some handler => PartialSteps.run (Call.exec b) s (handlers handler tmr.data)

/-- `process_expd_timers`: no call appends to `expd_tmrs`, so the loop makes as
many turns as the list has entries. -/
def processExpdTimersLoop (b : Build) (handlers : Handlers) (appOk : Bool) :
    Nat → TmrState → Option TmrState
  | 0, s => some s
  | n + 1, s => do
      let s ← callHandler b handlers s
      let s ← finishExpd b s appOk
      processExpdTimersLoop b handlers appOk n s

def processExpdTimers (b : Build) (handlers : Handlers) (appOk : Bool) (s : TmrState) :
    Option TmrState :=
  processExpdTimersLoop b handlers appOk s.expdTmrs.length s

def btmHlf (b : Build) (handlers : Handlers) (appOk : Bool) (s : TmrState) : Option TmrState := do
  let s ← match b with
    | .sfs => (tmProcessTickAndUpdateTimers b s).map Prod.fst
    | .normal => some s
  processExpdTimers b handlers appOk s

/-! ## Steps -/

/-- A step of the system.  A bottom half is a `bottomHalf` step, which answers
the request, followed for every entry of `expd_tmrs` by the calls of its handler
and a `finishExpd` step. -/
inductive Op where
  | call (c : Call)
  | tick
  | bottomHalf
  | finishExpd (appOk : Bool)
  deriving DecidableEq, Repr

def step (b : Build) (s : TmrState) : Op → Option TmrState
  | .call c => c.exec b s
  | .tick => updateTimes b s
  | .bottomHalf =>
      if s.raised then
        match b with
        | .sfs => (tmProcessTickAndUpdateTimers b s).map fun r => { r.1 with raised := false }
        | .normal => some { s with raised := false }
      else none
  | .finishExpd appOk => finishExpd b s appOk

/-! ## Queries -/

def timerPending (s : TmrState) : Option TimerId → Option Bool
  | none => some false
  | some p => (s.timers p).map fun t => t.isRunning

/-- The difference is read as a signed number, and a negative one is reported
as zero. -/
def timerGetRemainingTime (s : TmrState) : Option TimerId → Option U32
  | none => some 0
  | some p => do
      let tmr ← s.timers p
      if !tmr.isRunning then some 0
      else
        let t := tmr.exp - s.clk.tick
        if t.toInt < 0 then some 0 else some t

end Timers
end TmULThreads
