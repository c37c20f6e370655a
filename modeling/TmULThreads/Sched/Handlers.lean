import TmULThreads.Sched.Signals
import Mathlib.Data.List.Basic

/-!
# The handlers that are called for the pending signals

`process_signal` shifts the word of the enabled and pending signals to the right, one bit in
each turn, and calls the handler of the turn's signal as long as the rest of the word is not
zero: the test is `res && 0x1` where `res & 0x1` was meant.

* `processSignal` is the function as a whole, with the handlers it calls; taken turn by turn
  it is what the interleaved model does between two interrupts (`run_turns`).
* `loopCalls_eq` describes the calls of the loop: there is one for every signal with a
  handler up to the highest pending one.
* `callsExact_iff` states that these are the right ones exactly if no signal below the
  highest pending one has a handler without being pending itself.
-/

namespace TmULThreads
namespace Sched

/-- The handler that a turn calls, with the signal it is called with. -/
def SigTsk.calls (t : SigTsk) (l : SigLoop) : List (Nat × Nat) :=
  if l.res ≠ 0 then ((t.invokeSignalHanlder l.i).map fun h => (l.i, h)).toList else []

/-- What is left of the word gets smaller. -/
theorem toNat_shiftRight_one_lt {x : BitVec 32} (h : x >>> 1 ≠ 0) : (x >>> 1).toNat < x.toNat := by
  have hpos : (x >>> 1).toNat ≠ 0 := fun hzero => h (BitVec.eq_of_toNat_eq hzero)
  rw [BitVec.toNat_ushiftRight, Nat.shiftRight_eq_div_pow] at hpos ⊢
  omega

/-- The loop of `process_signal`, which tests the word after it has been shifted. -/
def SigTsk.loopCalls (t : SigTsk) (l : SigLoop) : List (Nat × Nat) :=
  if l.res >>> 1 = 0 then t.calls l else t.calls l ++ t.loopCalls ⟨l.res >>> 1, l.i + 1⟩
termination_by l.res.toNat
decreasing_by exact toNat_shiftRight_one_lt ‹_›

/-- `process_signal`, with the calls of handlers that it makes. -/
def processSignal (t : SigTsk) : SigTsk × List (Nat × Nat) :=
  ({ t with sigPending := 0 }, t.loopCalls ⟨t.signals &&& t.sigPending, 1⟩)

/-! ## The property -/

/-- The handler that was registered last for a signal; `NULL` is not a handler. -/
def latest (regs : List (Nat × Option Nat)) (signo : Nat) : Option Nat :=
  (regs.filterMap fun e => if e.1 = signo then e.2 else none).getLast?

/-- A task after calls of `tm_signal` in this order. -/
def SigTsk.registerAll (t : SigTsk) (regs : List (Nat × Option Nat)) : SigTsk :=
  regs.foldl (fun t e => t.register e.1 e.2) t

/-- A task with any two words and any list of handlers. -/
def sigTask (signals pending : BitVec 32) (regs : List (Nat × Option Nat)) : SigTsk :=
  { SigTsk.registerAll {} regs with signals := signals, sigPending := pending }

/-- The calls that there should be, in increasing order of the signals. -/
def dueCalls (signals pending : BitVec 32) (regs : List (Nat × Option Nat)) : List (Nat × Nat) :=
  (List.range 32).filterMap fun j =>
    if (signals &&& pending).getLsbD j then (latest regs (j + 1)).map fun h => (j + 1, h) else none

/-- A signal that has a handler, and comes before a signal that is enabled and pending, is
enabled and pending itself. -/
def NoGap (signals pending : BitVec 32) (regs : List (Nat × Option Nat)) : Prop :=
  ∀ i j, i < j → (signals &&& pending).getLsbD j = true → (latest regs (i + 1)).isSome →
    (signals &&& pending).getLsbD i = true

/-! ## The calls of the loop -/

theorem shiftRight_ne_zero_iff {x : BitVec 32} {j : Nat} :
    x >>> j ≠ 0 ↔ ∃ k, j ≤ k ∧ x.getLsbD k = true := by
  constructor
  · intro hne
    by_contra hnone
    apply hne
    apply BitVec.eq_of_getLsbD_eq
    intro i hi
    have hzero : (0 : BitVec 32).getLsbD i = false := BitVec.getLsbD_zero
    rw [BitVec.getLsbD_ushiftRight, hzero]
    by_contra hbit
    exact hnone ⟨j + i, Nat.le_add_right _ _, Bool.eq_true_of_not_eq_false hbit⟩
  · rintro ⟨k, hle, hbit⟩ hzero
    apply shiftRight_ne_zero hbit
    rw [← Nat.add_sub_cancel' hle, BitVec.shiftRight_add, hzero]
    exact BitVec.zero_ushiftRight

/-- The call that the loop makes for the signal of bit `j`. -/
def SigTsk.callAt (t : SigTsk) (res : BitVec 32) (j : Nat) : Option (Nat × Nat) :=
  if res >>> j ≠ 0 then (t.invokeSignalHanlder (j + 1)).map fun h => (j + 1, h) else none

theorem SigTsk.calls_eq (t : SigTsk) (res : BitVec 32) (k : Nat) :
    t.calls ⟨res >>> k, k + 1⟩ = (t.callAt res k).toList := by
  unfold SigTsk.calls SigTsk.callAt
  split <;> rfl

/-- A turn after the word has become zero makes no call. -/
theorem SigTsk.callAt_of_le {t : SigTsk} {res : BitVec 32} {j k : Nat} (hzero : res >>> j = 0)
    (hle : j ≤ k) : t.callAt res k = none := by
  unfold SigTsk.callAt
  rw [if_neg]
  rw [shiftRight_ne_zero_iff]
  rintro ⟨i, hi, hbit⟩
  exact shiftRight_ne_zero_iff.mpr ⟨i, hle.trans hi, hbit⟩ hzero

theorem SigTsk.loopCalls_from (t : SigTsk) (res : BitVec 32) (n k : Nat) (hk : n + 1 + k = 32) :
    t.loopCalls ⟨res >>> k, k + 1⟩ = (List.range' k (n + 1)).filterMap (t.callAt res) := by
  -- by induction on the bits that are left, as the loop shifts them out one by one
  induction n generalizing k with
  | zero =>
      have hlast : res >>> k >>> 1 = 0 := by
        rw [← BitVec.shiftRight_add]
        exact BitVec.ushiftRight_eq_zero (by omega)
      rw [SigTsk.loopCalls, if_pos hlast, SigTsk.calls_eq]
      cases hcall : t.callAt res k <;> simp [hcall]
  | succ n ih =>
      rw [List.range'_succ]
      by_cases hrest : res >>> k >>> 1 = 0
      · rw [SigTsk.loopCalls, if_pos hrest, SigTsk.calls_eq]
        rw [← BitVec.shiftRight_add] at hrest
        have hnone : (List.range' (k + 1) (n + 1)).filterMap (t.callAt res) = [] := by
          rw [List.filterMap_eq_nil_iff]
          intro j hj
          exact SigTsk.callAt_of_le hrest (List.mem_range'_1.mp hj).1
        cases hcall : t.callAt res k <;> simp [hcall, hnone]
      · rw [SigTsk.loopCalls, if_neg hrest, SigTsk.calls_eq, ← BitVec.shiftRight_add,
          ih (k + 1) (by omega)]
        cases hcall : t.callAt res k <;> simp [hcall]

theorem SigTsk.loopCalls_eq (t : SigTsk) (res : BitVec 32) :
    t.loopCalls ⟨res, 1⟩ = (List.range 32).filterMap (t.callAt res) := by
  have hfrom := t.loopCalls_from res 31 0 rfl
  rwa [BitVec.ushiftRight_zero, ← List.range_eq_range'] at hfrom

/-! ## The loop, turn by turn -/

/-- What a turn of the interleaved model notes is the call that it makes. -/
theorem SigTsk.served_turn {t u : SigTsk} (hsig : t.sigHd = u.sigHd) (l : SigLoop)
    (rest : List SigLoop) :
    (u.turn l rest).served = ((t.calls l).map Prod.fst).reverse ++ u.served := by
  have hinvoke : t.invokeSignalHanlder l.i = u.invokeSignalHanlder l.i := by
    rw [SigTsk.invokeSignalHanlder, SigTsk.invokeSignalHanlder, hsig]
  simp only [SigTsk.turn, SigTsk.calls, hinvoke]
  by_cases hres : l.res ≠ 0
  · rw [if_pos hres]
    cases u.invokeSignalHanlder l.i with
    | none => rw [if_neg (by simp)]; rfl
    | some h => rw [if_pos ⟨hres, rfl⟩]; rfl
  · rw [if_neg hres, if_neg fun hboth => hres hboth.1]
    rfl

/-- Without an interrupt the turns of the interleaved model make the calls of the loop, and
then the loop is over. -/
theorem run_turns {t : SigTsk} {l : SigLoop} {rest : List SigLoop} {s : SigState}
    (hsig : t.sigHd = s.cur.sigHd) (hl : s.cur.loops = l :: rest) (hres : l.res ≠ 0) :
    ∃ k s' l', PartialSteps.run sigStep s (List.replicate k .turn) = some s' ∧
      s'.cur.loops = l' :: rest ∧ l'.res = 0 ∧
      s'.cur.served = ((t.loopCalls l).map Prod.fst).reverse ++ s.cur.served := by
  induction hn : l.res.toNat using Nat.strong_induction_on generalizing l s with
  | h n ih =>
      let mid := s.setSig s.sched.current (s.cur.turn l rest)
      have hstep : sigStep s .turn = some mid := by
        simp only [sigStep, hl, hres, if_false, mid]
      have hcur : mid.cur = s.cur.turn l rest := Function.update_self ..
      have hserved : mid.cur.served = ((t.calls l).map Prod.fst).reverse ++ s.cur.served := by
        rw [hcur]
        exact SigTsk.served_turn hsig l rest
      have hloops : mid.cur.loops = ⟨l.res >>> 1, l.i + 1⟩ :: rest := by
        rw [hcur]
        rfl
      rw [SigTsk.loopCalls]
      by_cases hrest : l.res >>> 1 = 0
      · rw [if_pos hrest]
        refine ⟨1, mid, _, ?_, hloops, hrest, hserved⟩
        exact (PartialSteps.run_cons sigStep).mpr ⟨mid, hstep, rfl⟩
      · have hmid : t.sigHd = mid.cur.sigHd := by
          rw [hcur]
          exact hsig
        obtain ⟨k, s', l', hrun, hloops', hzero, hserved'⟩ :=
          ih _ (hn ▸ toNat_shiftRight_one_lt hrest) hmid hloops hrest rfl
        refine ⟨k + 1, s', l', (PartialSteps.run_cons sigStep).mpr ⟨mid, hstep, hrun⟩, hloops',
          hzero, ?_⟩
        rw [if_neg hrest, hserved', hserved]
        simp

/-! ## The handlers of a task -/

theorem sigHd_registerAll (t : SigTsk) (regs : List (Nat × Option Nat)) :
    (t.registerAll regs).sigHd = regs.reverse ++ t.sigHd := by
  induction regs generalizing t with
  | nil => rfl
  | cons e regs ih =>
      show ((t.register e.1 e.2).registerAll regs).sigHd = (e :: regs).reverse ++ t.sigHd
      rw [ih, List.reverse_cons, List.append_assoc]
      rfl

/-- The list is searched from its head, which is where `tm_signal` adds to it. -/
theorem invokeSignalHanlder_sigTask (signals pending : BitVec 32) (regs : List (Nat × Option Nat))
    (signo : Nat) :
    (sigTask signals pending regs).invokeSignalHanlder signo = latest regs signo := by
  have hlist : (sigTask signals pending regs).sigHd = regs.reverse := by
    show (SigTsk.registerAll {} regs).sigHd = regs.reverse
    rw [sigHd_registerAll]
    exact List.append_nil _
  rw [SigTsk.invokeSignalHanlder, hlist, latest, ← List.head?_filterMap, List.filterMap_reverse,
    List.head?_reverse]

theorem callAt_sigTask (signals pending : BitVec 32) (regs : List (Nat × Option Nat))
    (res : BitVec 32) (j : Nat) :
    (sigTask signals pending regs).callAt res j =
      if res >>> j ≠ 0 then (latest regs (j + 1)).map fun h => (j + 1, h) else none := by
  rw [SigTsk.callAt, invokeSignalHanlder_sigTask]

/-- Two ways to choose from a list, where the choice tells what it was made for. -/
theorem filterMap_inj {α β : Type*} {f g : α → Option β} {l : List α} (key : β → α)
    (hf : ∀ x y, f x = some y → key y = x) (hg : ∀ x y, g x = some y → key y = x) :
    l.filterMap f = l.filterMap g ↔ ∀ x ∈ l, f x = g x := by
  constructor
  · intro heq x hx
    -- what one of them chooses, the other one chooses for the same element
    have hsome {f g : α → Option β} (hf : ∀ x y, f x = some y → key y = x)
        (hg : ∀ x y, g x = some y → key y = x) (heq : l.filterMap f = l.filterMap g) {y : β}
        (hy : f x = some y) : g x = some y := by
      have hmem : y ∈ l.filterMap g := heq ▸ List.mem_filterMap.mpr ⟨x, hx, hy⟩
      obtain ⟨x', -, hy'⟩ := List.mem_filterMap.mp hmem
      rwa [← hf x y hy, hg x' y hy']
    cases hfx : f x with
    | some y => exact (hsome hf hg heq hfx).symm
    | none =>
        cases hgx : g x with
        | none => rfl
        | some y => rw [hsome hg hf heq.symm hgx] at hfx; cases hfx
  · exact fun heq => List.filterMap_congr heq

/-- `process_signal` calls exactly the handlers that are due, in order and once each, if and
only if there is no gap. -/
theorem callsExact_iff (signals pending : BitVec 32) (regs : List (Nat × Option Nat)) :
    (processSignal (sigTask signals pending regs)).2 = dueCalls signals pending regs ↔
      NoGap signals pending regs := by
  have hcalls : (processSignal (sigTask signals pending regs)).2 = (List.range 32).filterMap
      ((sigTask signals pending regs).callAt (signals &&& pending)) :=
    SigTsk.loopCalls_eq _ _
  have hkey {c : Prop} [Decidable c] (j : Nat) (y : Nat × Nat)
      (hy : (if c then (latest regs (j + 1)).map fun h => (j + 1, h) else none) = some y) :
      y.1 - 1 = j := by
    split at hy
    · obtain ⟨h, -, rfl⟩ := Option.map_eq_some_iff.mp hy
      rfl
    · cases hy
  rw [hcalls, dueCalls, funext (callAt_sigTask signals pending regs (signals &&& pending)),
    filterMap_inj (fun y => y.1 - 1) (fun j y => hkey j y) (fun j y => hkey j y)]
  constructor
  · intro hall i j hij hbit hsome
    have hi : i < 32 := hij.trans (BitVec.lt_of_getLsbD hbit)
    have heq := hall i (List.mem_range.mpr hi)
    rw [if_pos (shiftRight_ne_zero_iff.mpr ⟨j, hij.le, hbit⟩)] at heq
    by_contra hclear
    rw [if_neg hclear] at heq
    rw [Option.map_eq_none_iff.mp heq] at hsome
    cases hsome
  · intro hgap j _
    by_cases hbit : (signals &&& pending).getLsbD j = true
    · rw [if_pos (shiftRight_ne_zero_iff.mpr ⟨j, le_rfl, hbit⟩), if_pos hbit]
    · rw [if_neg hbit]
      split
      · rename_i hres
        obtain ⟨k, hle, hk⟩ := shiftRight_ne_zero_iff.mp hres
        have hne : j ≠ k := fun hjk => hbit (hjk ▸ hk)
        cases hlast : latest regs (j + 1) with
        | none => rfl
        | some h =>
            have hset := hgap j k (lt_of_le_of_ne hle hne) hk (hlast ▸ rfl)
            exact absurd hset hbit
      · rfl

/-- Handlers for the signals 1 and 2, of which only the second is pending: both are
called. -/
theorem not_callsExact_gap :
    (processSignal (sigTask 3 2 [(1, some 7), (2, some 8)])).2 = [(1, 7), (2, 8)] ∧
      dueCalls 3 2 [(1, some 7), (2, some 8)] = [(2, 8)] ∧
      (processSignal (sigTask 3 2 [(1, some 7), (2, some 8)])).2 ≠
        dueCalls 3 2 [(1, some 7), (2, some 8)] := by
  have hcalls : (processSignal (sigTask 3 2 [(1, some 7), (2, some 8)])).2 = [(1, 7), (2, 8)] :=
    (SigTsk.loopCalls_eq _ _).trans (by decide)
  have hdue : dueCalls 3 2 [(1, some 7), (2, some 8)] = [(2, 8)] := by decide
  refine ⟨hcalls, hdue, ?_⟩
  rw [hcalls, hdue]
  decide

end Sched
end TmULThreads
