import TmULThreads.Lib.PartialSteps
import TmULThreads.Mem.Pool
import Mathlib.Data.List.FinRange

/-!
# Message queues of the pthread build

The queues of `core/msg_queue.c` without `SFS_WANTED`, over the pools of
`mem_main.c`.  Every call runs under the mutex of its queue, so the sections
between lock and unlock are single steps; a `msg_rcv` that finds the list empty
sleeps on `q_cnd` and tries again when it has been woken, by the signal of a
`msg_send` or for no reason at all.

The messages are linked through nodes that live in blocks of the pool.  A node
is written to the block at its address, so a send has a defined outcome only
when the block lies in the area of the pool and overlaps no node that is linked.

Every queue carries two logs that the program does not have: `sent`, the
messages whose `msg_send` has returned 0, and `received`, what the calls of
`msg_rcv` have returned, both in the order in which the mutex was taken.

Sizes are those of an LP64 machine: a pointer and a `size_t` have eight bytes, an `int`
four.  `alloc_block` is not declared in this file, so that a C compiler may take its result
for an `int`; here the pointer is taken unchanged.
-/

namespace TmULThreads
namespace MsgQueue

open Mem

abbrev Msg := Nat
abbrev ThreadId := Nat

abbrev maxMsgQ : Nat := 10

abbrev Qid := Fin maxMsgQ

/-- `sizeof (struct msg)`: two links and a pointer. -/
def sizeofMsg : Nat := 24

inductive MqFlags where
  | free
  | active
  deriving DecidableEq, Repr

/-- `struct Q`; a node of `msg_list` is its address and its message, and `qCnd`
are the threads asleep on the condition variable.  The name is not read. -/
structure Q where
  maxMsg : Int
  size : Int
  /-- `none` is `-1`. -/
  mpoolId : Option Nat
  flags : MqFlags
  qCnd : List ThreadId
  msgList : List (Nat × Msg)
  sent : List Msg
  received : List (ThreadId × Msg)
  deriving DecidableEq, Repr

structure QState where
  mem : MemState
  queue : Qid → Q
  /-- The queue that a thread waits for in `msg_rcv`, asleep or woken. -/
  inRcv : ThreadId → Option Qid

/-- The state after `mem_init` and `msg_Q_init`. -/
def msgQInit : QState where
  mem := memInit
  queue := fun _ =>
    { maxMsg := 0, size := 0, mpoolId := none, flags := .free, qCnd := [], msgList := [],
      sent := [], received := [] }
  inRcv := fun _ => none

def QState.setQ (s : QState) (i : Qid) (q : Q) : QState :=
  { s with queue := Function.update s.queue i q }

/-! ## Calls -/

/-- `get_qid` looks from the last queue down. -/
def getQid (s : QState) : Option Qid :=
  (List.finRange maxMsgQ).reverse.find? fun i => (s.queue i).flags = .free

/-- The pool that `msg_create_Q` asks for has the room for all messages as its
block size, and the size of a message as its number of blocks. -/
def createPool (s : QState) (maxmsg : Int) (mcbOk : Bool) (area : Nat) (tableOk : Bool) :
    MemState × Option Nat :=
  memPoolCreate s.mem (toSizeT maxmsg * sizeofMsg % 2 ^ 64) sizeofMsg mcbOk area tableOk

/-- `msg_create_Q`, with the queue it returns; `none` there is its `-1`. -/
def msgCreateQ (s : QState) (maxmsg size : Int) (mcbOk : Bool) (area : Nat) (tableOk : Bool) :
    QState × Option Qid :=
  match getQid s with
  | none => (s, none)
  | some i =>
      let q := s.queue i
      match createPool s maxmsg mcbOk area tableOk with
      | (mem, none) => ({ s with mem := mem }.setQ i { q with mpoolId := none }, none)
      | (mem, some id) =>
          ({ s with mem := mem }.setQ i
            { q with mpoolId := some id, maxMsg := maxmsg, size := size, flags := .active }, some i)

/-- The node at `addr` lies in the area of the pool and apart from the nodes
that are linked. -/
def nodeOk (p : MemInfo) (q : Q) (addr : Nat) : Bool :=
  p.saddr ≤ addr && addr + sizeofMsg ≤ p.eaddr &&
    q.msgList.all fun e => addr + sizeofMsg ≤ e.1 || e.1 + sizeofMsg ≤ addr

/-- The list operations of `msg_send`: it links the message if there is a block
for it. -/
def linkMsg (s : QState) (i : Qid) (msg : Msg) : Option QState := do
  let q := s.queue i
  let id ← q.mpoolId
  let (mem, addr) ← allocBlock s.mem id
  let s := { s with mem := mem }
  if addr = 0 then some s
  else do
    let p ← getMemInfo mem id
    if nodeOk p q addr then some (s.setQ i { q with msgList := q.msgList ++ [(addr, msg)] })
    else none

/-- `pthread_cond_signal`; `wake` is the thread it wakes, which has to be one of
the sleeping ones if there is any. -/
def signal (s : QState) (i : Qid) (wake : Option ThreadId) : Option QState :=
  let q := s.queue i
  match wake with
  | none => if q.qCnd = [] then some s else none
  | some t => if t ∈ q.qCnd then some (s.setQ i { q with qCnd := q.qCnd.erase t }) else none

/-- `msg_send` returns 0 whether or not the message has been linked. -/
def msgSend (s : QState) (i : Qid) (msg : Msg) (wake : Option ThreadId) : Option QState := do
  let s ← linkMsg s i msg
  let s ← signal s i wake
  let q := s.queue i
  some (s.setQ i { q with sent := q.sent ++ [msg] })

/-- One turn of the loop of `msg_rcv`. -/
def tryRcv (s : QState) (t : ThreadId) (i : Qid) : Option QState :=
  let q := s.queue i
  match q.msgList with
  | [] =>
      some { s.setQ i { q with qCnd := q.qCnd ++ [t] } with
        inRcv := Function.update s.inRcv t (some i) }
  | (addr, msg) :: rest => do
      let id ← q.mpoolId
      let (mem, _) ← freeBlk s.mem id addr
      some { { s with mem := mem }.setQ i
              { q with msgList := rest, received := q.received ++ [(t, msg)] } with
        inRcv := Function.update s.inRcv t none }

/-! ## Steps -/

inductive Op where
  | create (maxmsg size : Int) (mcbOk : Bool) (area : Nat) (tableOk : Bool)
  | send (i : Qid) (msg : Msg) (wake : Option ThreadId)
  | rcv (t : ThreadId) (i : Qid)
  /-- A woken thread gets the mutex again. -/
  | resume (t : ThreadId)
  | spurious (t : ThreadId)
  deriving DecidableEq, Repr

/-- Addresses of user space lie below this bound. -/
def userSpace : Nat := 2 ^ 47

def qStep (s : QState) : Op → Option QState
  | .create maxmsg size mcbOk area tableOk =>
      if area < userSpace then some (msgCreateQ s maxmsg size mcbOk area tableOk).1 else none
  | .send i msg wake => msgSend s i msg wake
  | .rcv t i => if s.inRcv t = none then tryRcv s t i else none
  | .resume t => do
      let i ← s.inRcv t
      if t ∈ (s.queue i).qCnd then none else tryRcv s t i
  | .spurious t => do
      let i ← s.inRcv t
      let q := s.queue i
      if t ∈ q.qCnd then some (s.setQ i { q with qCnd := q.qCnd.erase t }) else none

@[simp] theorem setQ_queue_self (s : QState) (i : Qid) (q : Q) : (s.setQ i q).queue i = q :=
  Function.update_self ..

theorem setQ_queue_of_ne (s : QState) {i j : Qid} (q : Q) (h : j ≠ i) :
    (s.setQ i q).queue j = s.queue j :=
  Function.update_of_ne h ..

@[simp] theorem setQ_mem (s : QState) (i : Qid) (q : Q) : (s.setQ i q).mem = s.mem := rfl
@[simp] theorem setQ_inRcv (s : QState) (i : Qid) (q : Q) : (s.setQ i q).inRcv = s.inRcv := rfl

end MsgQueue
end TmULThreads
