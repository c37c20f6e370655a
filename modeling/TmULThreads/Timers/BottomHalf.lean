import TmULThreads.Timers.Coherent
import TmULThreads.Timers.Race
import TmULThreads.Timers.References

/-!
# The bottom half of the pthread build

The tick thread appends the timers that have expired to `expd_tmrs` and then sends
`TMR_SERVE_TIMERS`; another thread receives the event and goes through the list with
`list_for_each_safe`, which has read the successor of an entry before the handler of the
entry runs.  An entry that is appended in the meantime may be passed over, but then its
event is still to come, or has come and not been received.

`allServed_of_run` states that no entry is forgotten and that the handlers run once each
in the order of expiry.  It excludes `TIMER_REPEAT`: the bottom half does not survive the
`timer_restart` of such a timer, and the entries behind it are never served
(`not_allServed_repeat`).
-/

namespace TmULThreads
namespace Timers

open RedBlackTree

/-! ## The tick thread -/

/-- Where the tick thread is in `update_times`; `n` is the number of nodes that the pass
has met. -/
inductive PassPc where
  | out
  | walk (w : Wheel) (n : Nat)
  | send
  deriving DecidableEq, Repr

/-- The thread may have appended to the list, and has not called `evt_snd` yet. -/
def PassPc.isBetween : PassPc → Bool
  | .out => false
  | .walk _ n => n ≠ 0
  | .send => true

/-- A turn of the loop of `process_timers` has one operation on the list. -/
def passStep (s : TmrState) : PassPc → Option (TmrState × PassPc)
  | .out =>
      let s := { s with clk := s.clk.advance .normal }
      some (s, if timersPendingForService .normal s then .walk .tick 0 else .out)
  | .walk w n =>
      match timerTreeWalk (s.root w) (s.clk.get w) with
      | some ptmr => (processOne s w ptmr).map fun s => (s, .walk w (n + 1))
      | none =>
          match nextWheel s.clk w with
          | some v => some (s, .walk v n)
          | none => some (s, if n = 0 then .out else .send)
  | .send => some ({ s with raised := true }, .out)

/-! ## The task that serves the timers -/

/-- Where `tick_service` is.  A cursor is the address of an entry, or `none` for the head
of the list. -/
inductive BhPc where
  /-- In `evt_rx`, and blocked there if no event has been sent. -/
  | rx
  /-- At the `list_empty` of `btm_hlf`. -/
  | test
  | first
  | succ (pos : Option AppId)
  | body (pos n : Option AppId)
  | del (pos : AppId) (n : Option AppId)
  deriving DecidableEq, Repr

def entryAfter : List AppTimer → AppId → Option (Option AppId)
  | [], _ => none
  | x :: rest, a => if x.addr = a then some (rest.head?.map AppTimer.addr) else entryAfter rest a

/-- `pos->next`; an entry that is not linked has none that is defined. -/
def cursorNext (expdTmrs : List AppTimer) : Option AppId → Option (Option AppId)
  | none => some (expdTmrs.head?.map AppTimer.addr)
  | some a => entryAfter expdTmrs a

/-- The body of the loop of `process_expd_timers` from its `list_del` on. -/
def finishEntry (s : TmrState) (a : AppId) (appOk : Bool) : Option TmrState := do
  let ptmr ← s.expdTmrs.find? fun x => x.addr == a
  let p ← ptmr.timer
  let tmr ← s.timers p
  let s := { s with expdTmrs := s.expdTmrs.eraseP fun x => x.addr == a }
  let s := s.setTimer p { tmr with apptimer := none }
  if tmr.flags &&& timerOnce ≠ 0 then some (freeTimer s p)
  else if tmr.flags &&& timerRepeat ≠ 0 then timerRestart .normal s (some p) appOk
  else some s

/-- An entry with what its timer calls. -/
structure Fired where
  addr : AppId
  label : Option Label
  deriving DecidableEq, Repr

def Fired.hasHandler (f : Fired) : Bool := f.label.any fun l => l.handler.isSome

def fired (s : TmrState) (x : AppTimer) : Fired := ⟨x.addr, x.timer.bind s.label⟩

/-- The memory, the two threads, and the expiries and the calls of handlers so far. -/
structure BhSys where
  mem : TmrState
  tick : PassPc
  bh : BhPc
  expired : List Fired
  invoked : List Fired

/-- The next statement of `tick_service`. -/
def tickService (s : BhSys) (appOk : Bool) : Option BhSys :=
  match s.bh with
  | .rx =>
      if s.mem.raised then some { s with mem := { s.mem with raised := false }, bh := .test }
      else none
  | .test => some { s with bh := if s.mem.expdTmrs.isEmpty then .rx else .first }
  | .first => some { s with bh := .succ (s.mem.expdTmrs.head?.map AppTimer.addr) }
  | .succ pos => (cursorNext s.mem.expdTmrs pos).map fun n => { s with bh := .body pos n }
  | .body none _ => some { s with bh := .rx }
  | .body (some a) n => do
      let ptmr ← s.mem.expdTmrs.find? fun x => x.addr == a
      let p ← ptmr.timer
      let _ ← s.mem.timers p
      let f := fired s.mem ptmr
      some { s with
        invoked := if f.hasHandler then s.invoked ++ [f] else s.invoked
        bh := .del a n }
  | .del a n => (finishEntry s.mem a appOk).map fun mem => { s with mem := mem, bh := .succ n }

/-- The program calls the timer functions from threads of its own; handlers do not. -/
inductive BhOp where
  | call (c : Call)
  | tick
  | bh (appOk : Bool)
  deriving DecidableEq, Repr

def bhStep (s : BhSys) : BhOp → Option BhSys
  | .call c => (c.exec .normal s.mem).map fun mem => { s with mem := mem }
  | .tick => (passStep s.mem s.tick).map fun r =>
      { s with
        mem := r.1
        tick := r.2
        expired := s.expired ++ (r.1.expdTmrs.drop s.mem.expdTmrs.length).map (fired r.1) }
  | .bh appOk => tickService s appOk

def bhInit : BhSys := ⟨initTimerMgr, .out, .rx, [], []⟩

/-! ## What is claimed of it -/

/-- The entries whose handler has not been called yet. -/
def BhSys.uncalled (s : BhSys) : List AppTimer :=
  match s.bh with
  | .del .. => s.mem.expdTmrs.tail
  | _ => s.mem.expdTmrs

/-- The handlers called so far are those of the timers that have expired first, once
each and in this order; the other entries are on the list. -/
def BhSys.InOrder (s : BhSys) : Prop :=
  ∃ called, s.expired = called ++ s.uncalled.map (fired s.mem) ∧
    s.invoked = called.filter Fired.hasHandler

structure AllServed (s : BhSys) : Prop where
  order : s.InOrder
  /-- The task does not sleep on an entry that it will not be told of. -/
  notStuck : s.mem.expdTmrs ≠ [] → s.bh = .rx → s.mem.raised = false → s.tick.isBetween = true
  /-- Once the event has been sent, the task alone calls every handler. -/
  completes : s.tick.isBetween = false → ∀ appOk, ∃ k s',
    PartialSteps.run bhStep s (List.replicate k (.bh appOk)) = some s' ∧
      s'.mem.expdTmrs = [] ∧ s'.invoked = s.expired.filter Fired.hasHandler

/-- A timer with these flags is not given to `timer_restart`. -/
def Finishes (flags : U32) : Prop := flags &&& timerOnce ≠ 0 ∨ flags &&& timerRepeat = 0

instance (flags : U32) : Decidable (Finishes flags) := inferInstanceAs (Decidable (_ ∨ _))

/-- No timer is allocated that would be restarted, and `mod_timer` is not called on a
timer that has a node. -/
def Unrepeated (s : BhSys) : BhOp → Prop
  | .call c => c.ModIdle s.mem ∧ ∀ l ∈ (Op.call c).label, Finishes l.flags
  | .tick | .bh _ => True

instance (s : TmrState) : (c : Call) → Decidable (c.ModIdle s)
  | .modTimer (some p) _ _ => inferInstanceAs
      (Decidable (∀ t ∈ s.timers p, t.isRunning = false ∧ ∀ x ∈ s.expdTmrs, x.timer ≠ some p))
  | .modTimer none _ _ | .startTimer .. | .setupTimer .. | .timerRestart .. | .stopTimer _
  | .delTimer _ => isTrue trivial

instance (s : BhSys) : (op : BhOp) → Decidable (Unrepeated s op)
  | .call c => inferInstanceAs
      (Decidable (c.ModIdle s.mem ∧ ∀ l ∈ (Op.call c).label, Finishes l.flags))
  | .tick | .bh _ => isTrue trivial

/-! ## What the tick thread does -/

/-- The tick thread at this place among the threads of the finer model, in which the test
of the count and `evt_snd` are one step. -/
def PassPc.conc (s : TmrState) (app : Nat → StartPc) : PassPc → Conc
  | .out => ⟨s, .out, app⟩
  | .walk w n => ⟨s, .walk w n, app⟩
  | .send => ⟨{ s with raised := true }, .out, app⟩

/-- A step here is a number of steps there. -/
theorem passStep_leads {s s' : TmrState} {pc pc' : PassPc} (app : Nat → StartPc)
    (h : passStep s pc = some (s', pc')) : TickLeads (pc.conc s app) (pc'.conc s' app) := by
  cases pc with
  | out =>
      cases h
      refine ⟨2, ?_⟩
      simp only [List.replicate_succ, List.replicate_zero, PartialSteps.run, PassPc.conc, concStep,
        tickStep, Option.map_some]
      split
      · rfl
      · rfl
  | walk w n =>
      simp only [passStep] at h
      split at h
      · rename_i x hwalk
        obtain ⟨mid, hone, hmid⟩ := Option.map_eq_some_iff.mp h
        cases hmid
        exact run_turn rfl hwalk hone
      · rename_i hwalk
        have hleave := TickLeads.step
          (concStep_walk_none (c := PassPc.conc s app (.walk w n)) rfl hwalk)
        split at h
        · rename_i v hnext
          cases h
          simp only [leaveWheel, PassPc.conc, hnext] at hleave
          exact hleave
        · rename_i hnext
          cases h
          simp only [leaveWheel, PassPc.conc, hnext] at hleave
          by_cases hn : n = 0
          · simpa [PassPc.conc, hn] using hleave
          · simpa [PassPc.conc, hn] using hleave
  | send =>
      cases h
      exact ⟨0, rfl⟩

/-- Entries come at the end of the list, and only with an event to follow. -/
theorem passStep_frame {s s' : TmrState} {pc pc' : PassPc} (hs : Coherent s)
    (h : passStep s pc = some (s', pc')) :
    Coherent s' ∧ (∀ p, s'.label p = s.label p) ∧
      (s.raised = true ∨ pc.isBetween = true → s'.raised = true ∨ pc'.isBetween = true) ∧
      ∃ new, s'.expdTmrs = s.expdTmrs ++ new ∧ (new = [] ∨ pc'.isBetween = true) := by
  have hnone : s.expdTmrs = s.expdTmrs ++ [] := (List.append_nil _).symm
  cases pc with
  | out =>
      cases h
      refine ⟨hs.of_eq rfl rfl rfl rfl le_rfl, fun _ => rfl, fun halert => ?_, [], hnone, .inl rfl⟩
      exact .inl (halert.resolve_right Bool.false_ne_true)
  | walk w n =>
      simp only [passStep] at h
      split at h
      · rename_i x hwalk
        obtain ⟨mid, hone, hmid⟩ := Option.map_eq_some_iff.mp h
        cases hmid
        have hbetween : (PassPc.walk w (n + 1)).isBetween = true := by simp [PassPc.isBetween]
        obtain ⟨hcoh, rest, -, hcase⟩ :=
          hs.of_processOne (search_eq_some _ _ _ hwalk).1 hone
        refine ⟨hcoh, label_processOne hone, fun _ => .inr hbetween, ?_⟩
        rcases hcase with ⟨-, -, hexpd, -⟩ | ⟨q, -, -, hexpd, -⟩
        · exact ⟨_, hexpd, .inr hbetween⟩
        · exact ⟨[], hexpd.trans hnone, .inl rfl⟩
      · split at h
        · cases h
          exact ⟨hs, fun _ => rfl, id, [], hnone, .inl rfl⟩
        · cases h
          refine ⟨hs, fun _ => rfl, Or.imp_right fun hbetween => ?_, [], hnone, .inl rfl⟩
          have hn : n ≠ 0 := by simpa [PassPc.isBetween] using hbetween
          rw [if_neg hn]
          rfl
  | send =>
      cases h
      exact ⟨hs.of_eq rfl rfl rfl rfl le_rfl, fun _ => rfl, fun _ => .inl rfl, [], hnone, .inl rfl⟩

/-! ## The cursors -/

/-- An event has been sent and not received, or is still to be sent. -/
def BhSys.Alert (s : BhSys) : Prop := s.mem.raised = true ∨ s.tick.isBetween = true

/-- The entry at `pos` is the first one, and `n` is the entry after it or has become
outdated; where the traversal ends, the list is empty or there is an event. -/
def Cursor (l : List AppTimer) (alert : Prop) : BhPc → Prop
  | .test | .first => True
  | .rx | .succ none | .body none _ => l = [] ∨ alert
  | .succ (some a) => ∃ x rest, l = x :: rest ∧ x.addr = a
  | .body (some a) n | .del a n => ∃ x rest, l = x :: rest ∧ x.addr = a ∧
      (n = rest.head?.map AppTimer.addr ∨ (n = none ∧ alert))

theorem cursor_head (l : List AppTimer) (alert : Prop) :
    Cursor l alert (.succ (l.head?.map AppTimer.addr)) := by
  cases l with
  | nil => exact .inl rfl
  | cons x rest => exact ⟨x, rest, rfl, rfl⟩

section Grow

variable {l new : List AppTimer} {alert alert' : Prop}

theorem empty_grow (h : l = [] ∨ alert) (halert : alert → alert') (hnew : new = [] ∨ alert') :
    l ++ new = [] ∨ alert' := by
  rcases h with rfl | h
  · exact hnew
  · exact .inr (halert h)

/-- A successor that was read before the list has grown. -/
theorem successor_grow {a : AppId} {n : Option AppId}
    (h : ∃ x rest, l = x :: rest ∧ x.addr = a ∧
      (n = rest.head?.map AppTimer.addr ∨ (n = none ∧ alert)))
    (halert : alert → alert') (hnew : new = [] ∨ alert') :
    ∃ x rest, l ++ new = x :: rest ∧ x.addr = a ∧
      (n = rest.head?.map AppTimer.addr ∨ (n = none ∧ alert')) := by
  obtain ⟨x, rest, rfl, ha, hn⟩ := h
  refine ⟨x, rest ++ new, rfl, ha, ?_⟩
  rcases hn with rfl | ⟨rfl, h⟩
  · cases rest with
    | nil => exact hnew.imp (fun hnil => by rw [hnil]; rfl) fun h => ⟨rfl, h⟩
    | cons y ys => exact .inl rfl
  · exact .inr ⟨rfl, halert h⟩

theorem Cursor.grow {pc : BhPc} (h : Cursor l alert pc) (halert : alert → alert')
    (hnew : new = [] ∨ alert') : Cursor (l ++ new) alert' pc := by
  match pc, h with
  | .test, _ | .first, _ => trivial
  | .rx, h | .succ none, h | .body none _, h => exact empty_grow h halert hnew
  | .succ (some a), ⟨x, rest, hl, ha⟩ => exact ⟨x, rest ++ new, by rw [hl]; rfl, ha⟩
  | .body (some a) n, h | .del a n, h => exact successor_grow h halert hnew

end Grow

/-! ## The invariant -/

structure Tended (s : BhSys) : Prop where
  coherent : Coherent s.mem
  finishes : ∀ p l, s.mem.label p = some l → Finishes l.flags
  cursor : Cursor s.mem.expdTmrs s.Alert s.bh
  order : s.InOrder

theorem Tended.cursor_at {s : BhSys} (h : Tended s) {pc : BhPc} (hpc : s.bh = pc) :
    Cursor s.mem.expdTmrs s.Alert pc := by
  rw [← hpc]
  exact h.cursor

theorem fired_congr {s s' : TmrState} {x : AppTimer}
    (h : ∀ p, x.timer = some p → s'.label p = s.label p) : fired s' x = fired s x := by
  unfold fired
  cases hp : x.timer with
  | none => rfl
  | some p =>
      show Fired.mk x.addr (s'.label p) = Fired.mk x.addr (s.label p)
      rw [h p hp]

theorem uncalled_subset (s : BhSys) : s.uncalled ⊆ s.mem.expdTmrs := by
  unfold BhSys.uncalled
  split
  · exact List.tail_subset _
  · exact List.Subset.refl _

/-- The handler of the first entry has been called only while the entry is there. -/
theorem uncalled_grow {s s' : BhSys} {new : List AppTimer} {alert : Prop}
    (hcursor : Cursor s.mem.expdTmrs alert s.bh) (hbh : s'.bh = s.bh)
    (hexpd : s'.mem.expdTmrs = s.mem.expdTmrs ++ new) : s'.uncalled = s.uncalled ++ new := by
  unfold BhSys.uncalled
  rw [hbh, hexpd]
  cases hpc : s.bh with
  | del a n =>
      rw [hpc] at hcursor
      obtain ⟨x, rest, hl, -⟩ := hcursor
      rw [hl]
      rfl
  | rx => rfl
  | test => rfl
  | first => rfl
  | succ pos => rfl
  | body pos n => rfl

/-- More timers may have expired, and no handler has been called. -/
theorem BhSys.InOrder.grow {s s' : BhSys} (h : s.InOrder) (new : List AppTimer)
    (hinvoked : s'.invoked = s.invoked)
    (hexpired : s'.expired = s.expired ++ new.map (fired s'.mem))
    (huncalled : s'.uncalled = s.uncalled ++ new)
    (hfired : ∀ x ∈ s.uncalled, fired s'.mem x = fired s.mem x) : s'.InOrder := by
  obtain ⟨called, hcalled, hinv⟩ := h
  refine ⟨called, ?_, hinvoked.trans hinv⟩
  rw [hexpired, hcalled, huncalled, List.map_append, List.append_assoc,
    List.map_congr_left hfired]

theorem Tended.of_tick {s s' : BhSys} (h : Tended s) (hstep : bhStep s .tick = some s') :
    Tended s' := by
  obtain ⟨⟨mem, pc⟩, hpass, rfl⟩ := Option.map_eq_some_iff.mp hstep
  obtain ⟨hcoh, hlabel, halert, new, hexpd, hnew⟩ := passStep_frame h.coherent hpass
  refine
    { coherent := hcoh
      finishes := fun p l hl => h.finishes p l ((hlabel p).symm.trans hl)
      cursor := ?_
      order := ?_ }
  · show Cursor mem.expdTmrs _ s.bh
    rw [hexpd]
    exact h.cursor.grow halert (hnew.imp_right .inr)
  · refine h.order.grow new rfl ?_ (uncalled_grow h.cursor rfl hexpd) fun x _ => ?_
    · show _ ++ (mem.expdTmrs.drop _).map _ = _
      rw [hexpd, List.drop_left]
    · exact fired_congr fun p _ => hlabel p

theorem Tended.of_call {s s' : BhSys} {c : Call} (h : Tended s) (hok : Unrepeated s (.call c))
    (hstep : bhStep s (.call c) = some s') : Tended s' := by
  obtain ⟨mem, hexec, rfl⟩ := Option.map_eq_some_iff.mp hstep
  obtain ⟨hidle, hflags⟩ := hok
  have hsame := sameWork_of_exec hexec
  have hevolves : Evolves s.mem (.call c) mem := evolves_of_step hexec
  have hexpd : mem.expdTmrs = s.mem.expdTmrs ++ [] := by rw [hsame.expdTmrs, List.append_nil]
  refine
    { coherent := h.coherent.of_exec hidle hexec
      finishes := fun p l hl => ?_
      cursor := ?_
      order := ?_ }
  · rcases hevolves.label p l hl with hold | ⟨-, -, hnew⟩
    · exact h.finishes p l hold
    · exact hflags l hnew
  · show Cursor mem.expdTmrs (mem.raised = true ∨ _) s.bh
    rw [hexpd, hsame.raised]
    exact h.cursor.grow id (.inl rfl)
  · refine h.order.grow [] rfl (List.append_nil _).symm
      (uncalled_grow h.cursor rfl hexpd) fun x hx => fired_congr fun p hp => ?_
    -- an entry belongs to a timer that has been allocated before the call
    obtain ⟨p', t, hp', ht, -⟩ := h.coherent.expired x (uncalled_subset s hx)
    obtain rfl : p = p' := Option.some.inj (hp.symm.trans hp')
    exact hsame.label p (h.coherent.lt_nextTimer ht)

/-! ## What the bottom half does -/

theorem finishEntry_head {s : TmrState} {x : AppTimer} {rest : List AppTimer}
    (hlist : s.expdTmrs = x :: rest) (appOk : Bool) :
    finishEntry s x.addr appOk = finishExpd .normal s appOk := by
  simp [finishEntry, finishExpd, hlist]

theorem finishExpd_of_finishes {b : Build} {s : TmrState} {x : AppTimer} {rest : List AppTimer}
    {p : TimerId} {tmr : Timer} (hlist : s.expdTmrs = x :: rest) (hp : x.timer = some p)
    (htmr : s.timers p = some tmr) (hflags : Finishes tmr.flags) (appOk : Bool) :
    ∃ s', finishExpd b s appOk = some s' := by
  simp only [finishExpd, hlist, hp, htmr, Option.bind_eq_bind, Option.bind_some]
  split
  · exact ⟨_, rfl⟩
  · rename_i honce
    rw [if_neg (not_not.mpr (hflags.resolve_left honce))]
    exact ⟨_, rfl⟩

/-- Entries have timers of their own, so that freeing one does not affect another. -/
theorem finishExpd_frame {b : Build} {s s' : TmrState} {x : AppTimer} {rest : List AppTimer}
    {appOk : Bool} (hs : Coherent s) (hlist : s.expdTmrs = x :: rest)
    (h : finishExpd b s appOk = some s') :
    s'.expdTmrs = rest ∧ s'.raised = s.raised ∧ ∀ y ∈ rest, fired s' y = fired s y := by
  obtain ⟨x', rest', p, tmr, hlist', hp, -, hs'⟩ := finishExpd_cases h
  obtain ⟨rfl, rfl⟩ := List.cons.inj (hlist'.symm.trans hlist)
  have hdistinct : (s.expdTmrs.map AppTimer.timer).Nodup :=
    Multiset.coe_nodup.mp (Multiset.nodup_of_le (Multiset.le_add_left _ _) hs.owners_nodup)
  rw [hlist, List.map_cons, List.nodup_cons] at hdistinct
  have hne {y : AppTimer} (hy : y ∈ rest') {q : TimerId} (hq : y.timer = some q) : q ≠ p := by
    rintro rfl
    exact hdistinct.1 (List.mem_map.mpr ⟨y, hy, hq.trans hp.symm⟩)
  rcases hs' with rfl | rfl
  · refine ⟨rfl, rfl, fun y hy => fired_congr fun q hq => ?_⟩
    show Option.map _ (Function.update s.timers p none q) = _
    rw [Function.update_of_ne (hne hy hq)]
    rfl
  · refine ⟨rfl, rfl, fun y hy => fired_congr fun q hq => ?_⟩
    show Option.map _ (Function.update s.timers p _ q) = _
    rw [Function.update_of_ne (hne hy hq)]
    rfl

/-- Steps left within a turn, counted so that a turn that removes an entry makes progress
wherever it leads. -/
def BhPc.phase : BhPc → Nat
  | .succ none => 7
  | .body none _ => 6
  | .rx => 5
  | .test => 4
  | .first => 3
  | .succ (some _) => 2
  | .body (some _) _ => 1
  | .del .. => 0

def BhSys.work (s : BhSys) : Nat := 8 * s.mem.expdTmrs.length + s.bh.phase

/-- The next statement of the task can be executed, keeps the invariant, and brings the
task closer to the end of the list. -/
structure Serves (s s' : BhSys) : Prop where
  tended : Tended s'
  tick : s'.tick = s.tick
  expired : s'.expired = s.expired
  work : s.mem.expdTmrs ≠ [] → s'.work < s.work

/-- Statements that move a cursor. -/
theorem Tended.moves {s : BhSys} (h : Tended s) (pc : BhPc)
    (hcursor : Cursor s.mem.expdTmrs s.Alert pc)
    (huncalled : BhSys.uncalled { s with bh := pc } = s.uncalled)
    (hwork : s.mem.expdTmrs ≠ [] → pc.phase < s.bh.phase) : Serves s { s with bh := pc } where
  tended :=
    { coherent := h.coherent
      finishes := h.finishes
      cursor := hcursor
      order := h.order.grow [] rfl (List.append_nil _).symm
        (huncalled.trans (List.append_nil _).symm) fun _ _ => rfl }
  tick := rfl
  expired := rfl
  work hne := Nat.add_lt_add_left (hwork hne) _

/-- The statement that calls the handler. -/
theorem Tended.calls {s : BhSys} (h : Tended s) {a : AppId} {n : Option AppId}
    (hpc : s.bh = .body (some a) n) (appOk : Bool) :
    ∃ s', tickService s appOk = some s' ∧ Serves s s' := by
  obtain ⟨x, rest, hl, rfl, hn⟩ := h.cursor_at hpc
  obtain ⟨p, t, hp, ht, -⟩ := h.coherent.expired x (by simp [hl])
  obtain ⟨called, hexpired, hinvoked⟩ := h.order
  have hfind : s.mem.expdTmrs.find? (fun y => y.addr == x.addr) = some x := by
    rw [hl]
    exact List.find?_cons_of_pos (beq_self_eq_true x.addr)
  simp only [tickService, hpc, hfind, hp, ht, Option.bind_eq_bind, Option.bind_some]
  refine ⟨_, rfl, ?_⟩
  refine
    { tended :=
        { coherent := h.coherent
          finishes := h.finishes
          cursor := ⟨x, rest, hl, rfl, hn⟩
          order := ⟨called ++ [fired s.mem x], ?_, ?_⟩ }
      tick := rfl
      expired := rfl
      work := fun _ => ?_ }
  · -- the entry is the first of those whose handler was still to be called
    have huncalled : s.uncalled = x :: rest := by
      simp only [BhSys.uncalled, hpc, hl]
    rw [hexpired, huncalled]
    simp [BhSys.uncalled, hl]
  · simp only [hinvoked, List.filter_append, List.filter_cons, List.filter_nil]
    split
    · rfl
    · exact (List.append_nil _).symm
  · simp [BhSys.work, hpc, BhPc.phase]

/-- The clean-up of an entry, which takes it off the list. -/
theorem Tended.removes {s : BhSys} (h : Tended s) {a : AppId} {n : Option AppId}
    (hpc : s.bh = .del a n) (appOk : Bool) :
    ∃ s', tickService s appOk = some s' ∧ Serves s s' := by
  obtain ⟨x, rest, hl, rfl, hn⟩ := h.cursor_at hpc
  obtain ⟨p, t, hp, ht, -⟩ := h.coherent.expired x (by simp [hl])
  have hflags : Finishes t.flags := h.finishes p t.label (by rw [TmrState.label, ht]; rfl)
  obtain ⟨mem, hfin⟩ := finishExpd_of_finishes (b := .normal) hl hp ht hflags appOk
  obtain ⟨hexpd, hraised, hfired⟩ := finishExpd_frame h.coherent hl hfin
  have huncalled : s.uncalled = rest := by
    simp only [BhSys.uncalled, hpc, hl, List.tail_cons]
  simp only [tickService, hpc, finishEntry_head hl, hfin, Option.map_some]
  refine ⟨_, rfl, ?_⟩
  refine
    { tended :=
        { coherent := h.coherent.of_finishExpd hfin
          finishes := fun q l hq => h.finishes q l ((keeps_finishExpd hfin).label q l hq)
          cursor := ?_
          order := ?_ }
      tick := rfl
      expired := rfl
      work := fun _ => ?_ }
  · show Cursor mem.expdTmrs (mem.raised = true ∨ _) (.succ n)
    rw [hexpd, hraised]
    rcases hn with rfl | ⟨rfl, halert⟩
    · exact cursor_head rest _
    · exact .inr halert
  · refine h.order.grow [] rfl (List.append_nil _).symm ?_ ?_
    · rw [huncalled, List.append_nil]
      exact hexpd
    · rw [huncalled]
      exact hfired
  · have hphase : (BhPc.succ n).phase ≤ 7 := by
      cases n with
      | none => exact le_rfl
      | some b => exact (by decide : 2 ≤ 7)
    simp only [BhSys.work, hexpd, hl, hpc, List.length_cons]
    omega

/-- Only `evt_rx` can block the task. -/
theorem Tended.serves {s : BhSys} (h : Tended s) (appOk : Bool)
    (hready : s.bh = .rx → s.mem.raised = true) :
    ∃ s', tickService s appOk = some s' ∧ Serves s s' := by
  cases hpc : s.bh with
  | rx =>
      simp only [tickService, hpc, hready hpc, if_true]
      refine ⟨_, rfl, ?_⟩
      exact
        { tended :=
            { coherent := h.coherent.of_eq rfl rfl rfl rfl le_rfl
              finishes := h.finishes
              cursor := trivial
              order := h.order.grow [] rfl (List.append_nil _).symm
                (by simp [BhSys.uncalled, hpc]) fun _ _ => rfl }
          tick := rfl
          expired := rfl
          work := fun _ => by simp [BhSys.work, hpc, BhPc.phase] }
  | test =>
      simp only [tickService, hpc]
      refine ⟨_, rfl, ?_⟩
      cases hl : s.mem.expdTmrs with
      | nil =>
          refine h.moves .rx (.inl hl) ?_ fun hne => absurd hl hne
          simp [BhSys.uncalled, hpc]
      | cons x rest =>
          refine h.moves .first trivial ?_ fun _ => ?_
          · simp [BhSys.uncalled, hpc]
          · rw [hpc]
            exact Nat.lt_succ_self _
  | first =>
      simp only [tickService, hpc]
      refine ⟨_, rfl, h.moves _ (cursor_head _ _) ?_ fun hne => ?_⟩
      · simp [BhSys.uncalled, hpc]
      · obtain ⟨x, rest, hl⟩ := List.exists_cons_of_ne_nil hne
        rw [hpc, hl]
        exact Nat.lt_succ_self _
  | succ pos =>
      have hcursor := h.cursor_at hpc
      cases pos with
      | none =>
          simp only [tickService, hpc, cursorNext, Option.map_some]
          refine ⟨_, rfl, h.moves _ hcursor ?_ fun _ => ?_⟩
          · simp [BhSys.uncalled, hpc]
          · rw [hpc]
            exact Nat.lt_succ_self _
      | some a =>
          obtain ⟨x, rest, hl, rfl⟩ := hcursor
          simp only [tickService, hpc, cursorNext, hl, entryAfter, if_true, Option.map_some]
          refine ⟨_, rfl, h.moves _ ⟨x, rest, hl, rfl, .inl rfl⟩ ?_ fun _ => ?_⟩
          · simp [BhSys.uncalled, hpc]
          · rw [hpc]
            exact Nat.lt_succ_self _
  | body pos n =>
      cases pos with
      | none =>
          have hcursor := h.cursor_at hpc
          simp only [tickService, hpc]
          refine ⟨_, rfl, h.moves _ hcursor ?_ fun _ => ?_⟩
          · simp [BhSys.uncalled, hpc]
          · rw [hpc]
            exact Nat.lt_succ_self _
      | some a => exact h.calls hpc appOk
  | del a n => exact h.removes hpc appOk

theorem Tended.of_bhStep {s s' : BhSys} {op : BhOp} (h : Tended s) (hok : Unrepeated s op)
    (hstep : bhStep s op = some s') : Tended s' := by
  cases op with
  | call c => exact h.of_call hok hstep
  | tick => exact h.of_tick hstep
  | bh appOk =>
      have hready : s.bh = .rx → s.mem.raised = true := by
        intro hpc
        by_contra hraised
        simp [bhStep, tickService, hpc, hraised] at hstep
      obtain ⟨r, hr, hserves⟩ := h.serves appOk hready
      obtain rfl : r = s' := Option.some.inj (hr.symm.trans hstep)
      exact hserves.tended

theorem tended_init : Tended bhInit where
  coherent := coherent_init
  finishes _ _ hl := nomatch hl
  cursor := .inl rfl
  order := ⟨[], rfl, rfl⟩

/-! ## Every handler is called -/

/-- A task that has entries to serve and waits has been sent an event, or will be. -/
theorem Tended.alert {s : BhSys} (h : Tended s) (hne : s.mem.expdTmrs ≠ []) (hpc : s.bh = .rx) :
    s.Alert :=
  (h.cursor_at hpc).resolve_left hne

theorem Tended.completes {s : BhSys} (h : Tended s) (hquiet : s.tick.isBetween = false)
    (appOk : Bool) :
    ∃ k s', PartialSteps.run bhStep s (List.replicate k (.bh appOk)) = some s' ∧
      s'.mem.expdTmrs = [] ∧ s'.invoked = s.expired.filter Fired.hasHandler := by
  obtain ⟨k, s', hrun, ⟨hinv, -, hexpired⟩, hempty⟩ :=
    PartialSteps.run_reaches bhStep BhSys.work (i := .bh appOk)
      (I := fun r => Tended r ∧ r.tick.isBetween = false ∧ r.expired = s.expired)
      (P := fun r => r.mem.expdTmrs = [])
      (fun r ⟨hr, hr', hexp⟩ hne => by
        have hready (hpc : r.bh = .rx) : r.mem.raised = true :=
          (hr.alert hne hpc).resolve_right (Bool.eq_false_iff.mp hr')
        obtain ⟨r', hstep, hserves⟩ := hr.serves appOk hready
        exact ⟨r', hstep, ⟨hserves.tended, hserves.tick ▸ hr', hserves.expired.trans hexp⟩,
          hserves.work hne⟩)
      ⟨h, hquiet, rfl⟩
  refine ⟨k, s', hrun, hempty, ?_⟩
  obtain ⟨called, hcalled, hinvoked⟩ := hinv.order
  have huncalled : s'.uncalled = [] := List.subset_nil.mp (hempty ▸ uncalled_subset s')
  rw [huncalled, List.map_nil, List.append_nil] at hcalled
  rw [hinvoked, ← hcalled, hexpired]

/-- In every run of the tick thread, the bottom half and a program that starts no timer
for `timer_restart`, every state has the properties. -/
theorem allServed_of_run (ops : List BhOp) (s : BhSys)
    (hok : PartialSteps.Meets bhStep Unrepeated bhInit ops)
    (hrun : PartialSteps.run bhStep bhInit ops = some s) : AllServed s := by
  have h : Tended s :=
    PartialSteps.run_invariant bhStep (fun _ _ _ hs hop hstep => hs.of_bhStep hop hstep)
      tended_init hok hrun
  exact
    { order := h.order
      notStuck := fun hne hpc hraised =>
        (h.alert hne hpc).resolve_left (Bool.eq_false_iff.mp hraised)
      completes := fun hquiet appOk => h.completes hquiet appOk }

/-- The second timer expires after the bottom half has read that the first entry has no
successor, and the traversal passes it over. -/
def appendDuringTraversal : List BhOp :=
  [BhOp.call (.startTimer 1 0 (some 5) timerOnce true true),
    .call (.startTimer 2 0 (some 6) timerOnce true true)] ++
  List.replicate 4 BhOp.tick ++ List.replicate 4 (BhOp.bh true) ++
  List.replicate 4 BhOp.tick ++ List.replicate 4 (BhOp.bh true)

theorem allServed_appendDuringTraversal :
    ∃ s, PartialSteps.run bhStep bhInit appendDuringTraversal = some s ∧ s.bh = .rx ∧
      s.mem.expdTmrs ≠ [] ∧ s.invoked.length = 1 ∧ AllServed s := by
  have hok : PartialSteps.Meets bhStep Unrepeated bhInit appendDuringTraversal := by
    decide +kernel
  have hfacts : (PartialSteps.run bhStep bhInit appendDuringTraversal).map (fun s =>
      (s.bh, s.mem.expdTmrs.isEmpty, s.invoked.length)) = some (.rx, false, 1) := by
    decide +kernel
  obtain ⟨s, hrun, hs⟩ := Option.map_eq_some_iff.mp hfacts
  simp only [Prod.mk.injEq, List.isEmpty_eq_false_iff] at hs
  exact ⟨s, hrun, hs.1, hs.2.1, hs.2.2, allServed_of_run appendDuringTraversal s hok hrun⟩

/-- Two timers expire on the same tick, and the handler of the first has been called. -/
def repeatExpires : List BhOp :=
  [BhOp.call (.startTimer 1 0 (some 5) timerRepeat true true),
    .call (.startTimer 1 0 (some 6) timerOnce true true)] ++
  List.replicate 5 BhOp.tick ++ List.replicate 5 (BhOp.bh true)

/-- `timer_restart` has `calc_time` read through a null pointer, and the task does not
reach the second timer. -/
theorem not_allServed_repeat :
    ∃ s, PartialSteps.run bhStep bhInit repeatExpires = some s ∧ s.tick = .out ∧
      s.expired.length = 2 ∧ s.invoked.length = 1 ∧ tickService s true = none ∧
      ¬ AllServed s := by
  have hfacts : (PartialSteps.run bhStep bhInit repeatExpires).map (fun s =>
      (s.tick, s.expired.length, s.invoked.length, (tickService s true).isNone,
        s.mem.expdTmrs.isEmpty)) = some (.out, 2, 1, true, false) := by
    decide +kernel
  obtain ⟨s, hrun, hs⟩ := Option.map_eq_some_iff.mp hfacts
  simp only [Prod.mk.injEq, List.isEmpty_eq_false_iff, Option.isNone_iff_eq_none] at hs
  obtain ⟨htick, hexpired, hinvoked, hcrash, hne⟩ := hs
  refine ⟨s, hrun, htick, hexpired, hinvoked, hcrash, fun hserved => ?_⟩
  have hquiet : s.tick.isBetween = false := by
    rw [htick]
    rfl
  obtain ⟨k, s', hleft, hempty, -⟩ := hserved.completes hquiet true
  cases k with
  | zero =>
      cases hleft
      exact hne hempty
  | succ k =>
      obtain ⟨mid, hmid, -⟩ := (PartialSteps.run_cons bhStep).mp hleft
      exact Option.some_ne_none mid (hmid.symm.trans hcrash)

end Timers
end TmULThreads
