import TmULThreads.Sched.Frame
import TmULThreads.ThreadLib.Allocations
import TmULThreads.Timers.References

/-!
# The blocks that are held

What the steps of each part of the library do to `alloc_size`.  `TasksHeld`, `TimersHeld` and
`PoolsHeld` keep track of the blocks that a later step may give back: each of them is held
with its full size, so that a `free` of it, which `alloc_size` does not see, moves the counter
away from the total.  For each part one theorem (`TasksHeld.step`, `TimersHeld.step`,
`PoolsHeld.step`) tells which steps cost nothing, and that those keep the blocks.
-/

namespace TmULThreads
namespace ThreadLib

open Meter (Event Heap cost own)
open Sched (SchedState TaskId Exit ExitOp exitStep ended tmlibInit)
open Timers (TmrState TimerId AppId AppTimer Call allocTimerId initTimerMgr)
open Mem (Registry RegOp regStep initRegistry poolBytes toSizeT)

theorem sizeOf_not_modEq_zero (n : SizeOf) : ¬ (n : Nat) ≡ 0 [MOD 2 ^ 64] := by
  have hpos := n.2.1
  have hlt := n.2.2
  rw [Meter.modEq_zero_iff (by omega)]
  omega

/-- The heap after a step, seen through what is held. -/
def after (h : Heap Block) (es : List (Event Block)) : Block → Nat :=
  (es.foldl (Heap.apply (2 ^ 64)) h).held

/-! ## Tasks -/

/-- The tasks that there are have their blocks, and those to come have none yet. -/
structure TasksHeld (L : Layout) (held : Block → Nat) (s : SchedState) : Prop where
  lists : Sched.ListsOk s
  live : ∀ p ∈ s.live, held (.tsk p) = L.tsk
  fresh : ∀ p, s.taskid < p → held (.tsk p) = 0

section Tasks

variable {L : Layout} {h : Heap Block} {s s' : SchedState} {stksze : Int}

theorem cost_spawnTraffic_iff {tid : TaskId} {tskOk stkOk : Bool} (hfresh : h.held (.tsk tid) = 0) :
    cost (2 ^ 64) h (spawnTraffic L tid stksze tskOk stkOk) ≡ 0 [MOD 2 ^ 64] ↔
      tskOk = true ∧ (stkOk = true ∨ (toSizeT stksze + L.tsk) % 2 ^ 64 = 0) := by
  cases tskOk with
  | false =>
      have hcost : cost (2 ^ 64) h (spawnTraffic L tid stksze false stkOk) = L.tsk := by
        simp [spawnTraffic, cost, own]
      rw [hcost]
      exact iff_of_false (sizeOf_not_modEq_zero L.tsk) (by simp)
  | true =>
      cases stkOk with
      | false =>
          -- the task is freed again, and both requests stay on the counter
          have hcost : cost (2 ^ 64) h (spawnTraffic L tid stksze true false) =
              toSizeT stksze + L.tsk := by
            simp [spawnTraffic, cost, own, Heap.apply, hfresh]
          rw [hcost]
          simp [Nat.ModEq]
      | true => simp [spawnTraffic, cost, own, Nat.ModEq]

theorem TasksHeld.of_sameTasks {held : Block → Nat} (hh : TasksHeld L held s)
    (hl : Sched.ListsOk s') (hsame : Sched.SameTasks s s') : TasksHeld L held s' where
  lists := hl
  live p hp := hh.live p (hsame.live ▸ hp)
  fresh p hp := hh.fresh p (hsame.taskid.trans_lt hp)

theorem TasksHeld.of_spawn (hh : TasksHeld L h.held s) (hl : Sched.ListsOk s')
    {k : Fin Sched.maxPrio} {tskOk stkOk : Bool} {now : Int}
    (hs' : s' = (Sched.spawnTask s k true tskOk stkOk now).1) (htsk : tskOk = true) :
    TasksHeld L (after h (spawnTraffic L (s.taskid + 1) stksze tskOk stkOk)) s' := by
  subst htsk
  have hzero := hh.fresh (s.taskid + 1) (Nat.lt_succ_self _)
  have hlive_ne {p : TaskId} (hp : p ∈ s.live) : s.taskid + 1 ≠ p :=
    (Nat.lt_succ_of_le (hh.lists.live_le p hp)).ne'
  cases stkOk with
  | false =>
      have hheld (p : TaskId) : after h (spawnTraffic L (s.taskid + 1) stksze true false) (.tsk p) =
          if s.taskid + 1 = p then 0 else h.held (.tsk p) := by
        by_cases hp : s.taskid + 1 = p
        · simp [after, spawnTraffic, Heap.apply, hp]
        · simp [after, spawnTraffic, Heap.apply, hp]
      subst hs'
      refine ⟨hl, fun p hp => ?_, fun p hp => ?_⟩
      · rw [hheld, if_neg (hlive_ne hp)]
        exact hh.live p hp
      · rw [hheld]
        split_ifs
        · rfl
        · exact hh.fresh p ((Nat.lt_succ_self _).trans hp)
  | true =>
      have hheld (p : TaskId) : after h (spawnTraffic L (s.taskid + 1) stksze true true) (.tsk p) =
          h.held (.tsk p) + if s.taskid + 1 = p then (L.tsk : Nat) else 0 := by
        simp [after, spawnTraffic, Heap.apply]
      have hspawned := (Sched.joined_spawnTask s k now).spawned
      rw [← hs'] at hspawned
      refine ⟨hl, fun p hp => ?_, fun p hp => ?_⟩
      · rw [hheld]
        rw [hspawned.live, List.mem_append, List.mem_singleton] at hp
        rcases hp with hold | rfl
        · rw [if_neg (hlive_ne hold), Nat.add_zero]
          exact hh.live p hold
        · rw [if_pos rfl, hzero, Nat.zero_add]
      · have hlt : s.taskid + 1 < p := (hspawned.taskid.trans_lt hp)
        rw [hheld, if_neg hlt.ne, Nat.add_zero]
        exact hh.fresh p ((Nat.lt_succ_self _).trans hlt)

/-- What a step of the scheduler costs, and that a step without cost keeps the blocks. -/
theorem TasksHeld.step {op : ExitOp} (hh : TasksHeld L h.held s) (hstep : exitStep s op = some s')
    (stksze : Int) :
    (cost (2 ^ 64) h (schedTraffic L s stksze op) ≡ 0 [MOD 2 ^ 64] ↔ SchedBalanced L s stksze op) ∧
      (SchedBalanced L s stksze op → TasksHeld L (after h (schedTraffic L s stksze op)) s') := by
  have hl := hh.lists.of_exitStep hstep
  cases op with
  | op o =>
      have hop := (Sched.exitStep_op hstep).2
      cases o with
      | spawn prio tskOk stkOk now =>
          refine ⟨cost_spawnTraffic_iff (hh.fresh _ (Nat.lt_succ_self _)), fun hok => ?_⟩
          obtain ⟨k, -, hs'⟩ := Sched.schedStep_spawn hop
          exact hh.of_spawn hl hs' hok.1
      | _ =>
          have hsame := Sched.sameTasks_of_schedStep hh.lists hop rfl
          exact ⟨iff_of_true rfl trivial, fun _ => hh.of_sameTasks hl hsame⟩
  | exit e =>
      cases hended : ended s e with
      | none =>
          have hquiet : schedTraffic L s stksze (.exit e) = [] := by simp [schedTraffic, hended]
          rw [Sched.exit_of_ended_none hstep hended, hquiet]
          exact ⟨iff_of_true rfl hended, fun _ => hh⟩
      | some p =>
          have hlive := (Sched.ended_live hh.lists hstep hended).1
          have hcost : cost (2 ^ 64) h (schedTraffic L s stksze (.exit e)) = L.tsk := by
            simp [schedTraffic, hended, cost, own, hh.live p hlive]
          have hnot : ¬ SchedBalanced L s stksze (.exit e) := by
            simp [SchedBalanced, hended]
          rw [hcost]
          exact ⟨iff_of_false (sizeOf_not_modEq_zero L.tsk) hnot, fun hok => absurd hok hnot⟩

end Tasks

/-! ## Timers -/

/-- The timers and nodes that there are have their blocks, and those to come have none
yet. -/
structure TimersHeld (L : Layout) (held : Block → Nat) (s : TmrState) : Prop where
  linked : Timers.Linked s
  timer : ∀ p l, s.label p = some l → held (.timer p) = L.timer
  timer_fresh : ∀ p, s.nextTimer ≤ p → held (.timer p) = 0
  app : ∀ a, a < s.nextApp → held (.appTimer a) = L.appTimer
  app_fresh : ∀ a, s.nextApp ≤ a → held (.appTimer a) = 0
  expd : ∀ x ∈ s.expdTmrs, x.addr < s.nextApp

section Timers

variable {L : Layout} {h : Heap Block} {s s' : TmrState}

theorem TimersHeld.of_sameBlocks {held : Block → Nat} (hh : TimersHeld L held s)
    (hl : Timers.Linked s') (hsame : Timers.SameBlocks s s') : TimersHeld L held s' where
  linked := hl
  timer p l hp := hh.timer p l (hsame.label p l hp)
  timer_fresh p hp := hh.timer_fresh p (hsame.nextTimer ▸ hp)
  app a ha := hh.app a (hsame.nextApp ▸ ha)
  app_fresh a ha := hh.app_fresh a (hsame.nextApp ▸ ha)
  expd x hx := by
    rw [hsame.nextApp]
    exact (hsame.expd x hx).elim (hh.expd x) id

theorem TimersHeld.addTimer (hh : TimersHeld L h.held s) (i : Timers.U32) (t : Timers.Timer) :
    TimersHeld L (h.apply (2 ^ 64) (.alloc (.timer s.nextTimer) L.timer true)).held
      (s.grow i (some t) 0) := by
  have htimer (p : TimerId) :
      (h.apply (2 ^ 64) (.alloc (.timer s.nextTimer) L.timer true)).held (.timer p) =
        h.held (.timer p) + if s.nextTimer = p then (L.timer : Nat) else 0 := by
    simp [Heap.apply]
  have happ (a : AppId) :
      (h.apply (2 ^ 64) (.alloc (.timer s.nextTimer) L.timer true)).held (.appTimer a) =
        h.held (.appTimer a) := by
    simp [Heap.apply]
  refine ⟨hh.linked.of_eq rfl le_rfl, fun p l hp => ?_, fun p hp => ?_, fun a ha => ?_,
    fun a ha => ?_, hh.expd⟩
  · rw [htimer]
    rcases Timers.label_grow hp with hold | ⟨rfl, -⟩
    · -- a timer that is there already is not the new one, which holds nothing yet
      have hne : s.nextTimer ≠ p := by
        rintro rfl
        have hpos := L.timer.2.1
        have hsize := hh.timer _ l hold
        rw [hh.timer_fresh _ le_rfl] at hsize
        omega
      rw [if_neg hne, Nat.add_zero]
      exact hh.timer p l hold
    · rw [if_pos rfl, hh.timer_fresh _ le_rfl, Nat.zero_add]
  · have hlt : s.nextTimer < p := hp
    rw [htimer, if_neg hlt.ne, Nat.add_zero]
    exact hh.timer_fresh p hlt.le
  · rw [happ]
    exact hh.app a ha
  · rw [happ]
    exact hh.app_fresh a ha

theorem TimersHeld.addApp (hh : TimersHeld L h.held s) :
    TimersHeld L (h.apply (2 ^ 64) (.alloc (.appTimer s.nextApp) L.appTimer true)).held
      { s with nextApp := s.nextApp + 1 } := by
  have htimer (p : TimerId) :
      (h.apply (2 ^ 64) (.alloc (.appTimer s.nextApp) L.appTimer true)).held (.timer p) =
        h.held (.timer p) := by
    simp [Heap.apply]
  have happ (a : AppId) :
      (h.apply (2 ^ 64) (.alloc (.appTimer s.nextApp) L.appTimer true)).held (.appTimer a) =
        h.held (.appTimer a) + if s.nextApp = a then (L.appTimer : Nat) else 0 := by
    simp [Heap.apply]
  refine ⟨hh.linked.of_eq rfl (Nat.le_succ _), fun p l hp => ?_, fun p hp => ?_, fun a ha => ?_,
    fun a ha => ?_, fun x hx => (hh.expd x hx).trans (Nat.lt_succ_self _)⟩
  · rw [htimer]
    exact hh.timer p l hp
  · rw [htimer]
    exact hh.timer_fresh p hp
  · rw [happ]
    rcases Nat.lt_succ_iff_lt_or_eq.mp ha with hlt | rfl
    · rw [if_neg hlt.ne', Nat.add_zero]
      exact hh.app a hlt
    · rw [if_pos rfl, hh.app_fresh _ le_rfl, Nat.zero_add]
  · have hlt : s.nextApp < a := ha
    rw [happ, if_neg hlt.ne, Nat.add_zero]
    exact hh.app_fresh a hlt.le

theorem allocTimerId_eq (s : TmrState) : ∃ i, (allocTimerId s).1 = { s with indx := i } := by
  unfold allocTimerId
  split_ifs
  · exact ⟨s.indx, rfl⟩
  · exact ⟨s.indx + 1, rfl⟩

theorem starts_of_allocTimerId (hid : (allocTimerId s).2 ≠ 0) : s.Starts true true := by
  unfold allocTimerId at hid
  split_ifs at hid with hfull
  · exact absurd rfl hid
  · exact ⟨BitVec.not_lt.mp hfull, hid, rfl, rfl⟩

theorem TimersHeld.of_allocTimerId (hh : TimersHeld L h.held s) :
    TimersHeld L h.held (allocTimerId s).1 := by
  obtain ⟨i, hi⟩ := allocTimerId_eq s
  rw [hi]
  exact hh.of_sameBlocks (hh.linked.of_eq rfl le_rfl) (Timers.sameBlocks_of_eq rfl rfl rfl rfl)

theorem cost_startTraffic_iff (ticks : Timers.U32) (data : Nat) (handler : Option Nat)
    (flags : Timers.U32) {timerOk appOk : Bool} (hfresh : h.held (.timer s.nextTimer) = 0) :
    cost (2 ^ 64) h (callTraffic L s (.startTimer ticks data handler flags timerOk appOk)) ≡
        0 [MOD 2 ^ 64] ↔
      (allocTimerId s).2 = 0 ∨ (timerOk = true ∧ appOk = true) := by
  rw [callTraffic]
  by_cases hfull : (allocTimerId s).2 = 0
  · rw [if_pos hfull]
    exact iff_of_true rfl (.inl hfull)
  · rw [if_neg hfull]
    cases timerOk with
    | false =>
        have hcost : cost (2 ^ 64) h [.alloc (.timer s.nextTimer) L.timer false] = L.timer := by
          simp [cost, own]
        rw [if_pos Bool.false_ne_true, hcost]
        refine iff_of_false (sizeOf_not_modEq_zero L.timer) fun hok => ?_
        exact Bool.false_ne_true (hok.resolve_left hfull).1
    | true =>
        rw [if_neg (not_not.mpr rfl)]
        cases appOk with
        | false =>
            -- the timer is given back with `tm_free`, so only the failed request is left
            let grown := (h.apply (2 ^ 64) (.alloc (.timer s.nextTimer) L.timer true)).apply (2 ^ 64)
              (.alloc (.appTimer s.nextApp) L.appTimer false)
            have hheld : grown.held (.timer s.nextTimer) = L.timer := by
              simp [grown, Heap.apply, hfresh]
            have hturn : own (2 ^ 64) grown (.release (.timer s.nextTimer) L.timer) = 2 ^ 64 :=
              Meter.own_release (L.timer.2.2.trans (by decide)) hheld
            have hcost : cost (2 ^ 64) h [.alloc (.timer s.nextTimer) L.timer true,
                .alloc (.appTimer s.nextApp) L.appTimer false,
                .release (.timer s.nextTimer) L.timer] = L.appTimer + 2 ^ 64 := by
              show 0 + (L.appTimer + (own (2 ^ 64) grown (.release (.timer s.nextTimer) L.timer) + 0)) = _
              rw [hturn]
              omega
            rw [if_pos Bool.false_ne_true, hcost]
            refine iff_of_false (fun hzero => ?_) fun hok => ?_
            · exact sizeOf_not_modEq_zero L.appTimer (Nat.add_modEq_right.symm.trans hzero)
            · exact Bool.false_ne_true (hok.resolve_left hfull).2
        | true =>
            rw [if_neg (not_not.mpr rfl)]
            exact iff_of_true rfl (.inr ⟨rfl, rfl⟩)

theorem TimersHeld.of_startTimer {b : Timers.Build} {ticks : Timers.U32} {data : Nat}
    {handler : Option Nat} {flags : Timers.U32} {timerOk appOk : Bool} {res : Option TimerId}
    (hh : TimersHeld L h.held s) (hl : Timers.Linked s')
    (hstart : Timers.startTimer b s ticks data handler flags timerOk appOk = some (s', res))
    (hok : (allocTimerId s).2 = 0 ∨ (timerOk = true ∧ appOk = true)) :
    TimersHeld L (after h (callTraffic L s (.startTimer ticks data handler flags timerOk appOk)))
      s' := by
  rw [callTraffic]
  by_cases hfull : (allocTimerId s).2 = 0
  · have hfail : Timers.startTimer b s ticks data handler flags timerOk appOk =
        some ((allocTimerId s).1, none) := if_pos (.inl hfull)
    rw [hfail] at hstart
    cases hstart
    rw [if_pos hfull]
    exact hh.of_allocTimerId
  · obtain ⟨rfl, rfl⟩ := hok.resolve_left hfull
    rw [if_neg hfull, if_neg (not_not.mpr rfl), if_neg (not_not.mpr rfl)]
    rcases Timers.startTimer_cases hstart with ⟨-, hnot, -⟩ | ⟨-, -, harm⟩
    · exact absurd (starts_of_allocTimerId hfull) hnot
    · have hgrown := (hh.addTimer (s.indx + 1) (s.newTimer ticks data handler flags)).addApp
      exact hgrown.of_sameBlocks hl (Timers.sameBlocks_calcAndPlace rfl harm)

theorem cost_setupTraffic_iff (handler : Option Nat) (data : Nat) {timerOk : Bool} :
    cost (2 ^ 64) h (callTraffic L s (.setupTimer handler data timerOk)) ≡ 0 [MOD 2 ^ 64] ↔
      (allocTimerId s).2 = 0 ∨ timerOk = true := by
  rw [callTraffic]
  by_cases hfull : (allocTimerId s).2 = 0
  · rw [if_pos hfull]
    exact iff_of_true rfl (.inl hfull)
  · rw [if_neg hfull]
    cases timerOk with
    | false =>
        have hcost : cost (2 ^ 64) h [.alloc (.timer s.nextTimer) L.timer false] = L.timer := by
          simp [cost, own]
        rw [hcost]
        refine iff_of_false (sizeOf_not_modEq_zero L.timer) fun hok => ?_
        exact Bool.false_ne_true (hok.resolve_left hfull)
    | true => exact iff_of_true rfl (.inr rfl)

theorem TimersHeld.of_setupTimer {handler : Option Nat} {data : Nat} {timerOk : Bool}
    (hh : TimersHeld L h.held s) (hok : (allocTimerId s).2 = 0 ∨ timerOk = true) :
    TimersHeld L (after h (callTraffic L s (.setupTimer handler data timerOk)))
      (Timers.setupTimer s handler data timerOk).1 := by
  rw [callTraffic]
  by_cases hfull : (allocTimerId s).2 = 0
  · have hfail : Timers.setupTimer s handler data timerOk = ((allocTimerId s).1, none) :=
      if_pos (.inl hfull)
    rw [hfail, if_pos hfull]
    exact hh.of_allocTimerId
  · obtain rfl := hok.resolve_left hfull
    have hnot : ¬ ((allocTimerId s).2 = 0 ∨ ¬ true = true) := fun hfail =>
      hfail.elim hfull fun hfalse => hfalse rfl
    obtain ⟨t, ht⟩ : ∃ t, (Timers.setupTimer s handler data true).1 =
        (Timers.allocTimer (allocTimerId s).1 t).1 := ⟨_, congrArg Prod.fst (if_neg hnot)⟩
    obtain ⟨i, hi⟩ := allocTimerId_eq s
    rw [ht, hi, if_neg hfull]
    exact hh.addTimer i t

/-- The request that `mod_timer` and `timer_restart` make. -/
theorem cost_appTraffic_iff {p : Option TimerId} {a : AppId} {appOk : Bool} :
    cost (2 ^ 64) h (p.toList.map fun _ => Event.alloc (.appTimer a) L.appTimer appOk) ≡
        0 [MOD 2 ^ 64] ↔ p = none ∨ appOk = true := by
  cases p with
  | none => exact iff_of_true rfl (.inl rfl)
  | some q =>
      cases appOk with
      | false =>
          have hcost : cost (2 ^ 64) h [.alloc (.appTimer a) L.appTimer false] = L.appTimer := by
            simp [cost, own]
          refine iff_of_false (fun hzero => ?_) (by simp)
          exact sizeOf_not_modEq_zero L.appTimer (hcost ▸ hzero)
      | true => exact iff_of_true rfl (.inr rfl)

theorem TimersHeld.of_modTimer {b : Timers.Build} {p : Option TimerId} {secs : Timers.U32}
    {appOk : Bool} (hh : TimersHeld L h.held s) (hl : Timers.Linked s')
    (hmod : Timers.modTimer b s p secs appOk = some s') (hok : p = none ∨ appOk = true) :
    TimersHeld L (after h (callTraffic L s (.modTimer p secs appOk))) s' := by
  cases p with
  | none =>
      cases hmod
      exact hh
  | some q =>
      obtain rfl : appOk = true := hok.resolve_left (Option.some_ne_none q)
      simp only [Timers.modTimer, not_true_eq_false, if_false, Timers.allocAppTimer,
        Option.bind_eq_bind, Option.bind_eq_some_iff] at hmod
      obtain ⟨t, ht, harm⟩ := hmod
      have hset := Timers.label_rearm ht (secs * Timers.tmGetTicksPerSecond b)
      have hrearm : Timers.SameBlocks { s with nextApp := s.nextApp + 1 }
          (TmrState.setTimer { s with nextApp := s.nextApp + 1 } q
            { t with rmt := secs * Timers.tmGetTicksPerSecond b, apptimer := some s.nextApp }) :=
        ⟨fun p l hl => (hset p).symm.trans hl, rfl, rfl, fun x hx => .inl hx⟩
      exact hh.addApp.of_sameBlocks hl (hrearm.trans (Timers.sameBlocks_calcAndPlace rfl harm))

theorem TimersHeld.of_timerRestart {b : Timers.Build} {p : Option TimerId} {appOk : Bool}
    (hh : TimersHeld L h.held s) (hrestart : Timers.timerRestart b s p appOk = some s')
    (hok : p = none ∨ appOk = true) :
    TimersHeld L (after h (callTraffic L s (.timerRestart p appOk))) s' := by
  cases p with
  | none =>
      cases hrestart
      exact hh
  | some q =>
      -- with a node for the timer, `calc_time` dereferences `NULL`
      obtain rfl : appOk = true := hok.resolve_left (Option.some_ne_none q)
      obtain ⟨q', t, mid, hq', -⟩ := Timers.calcAndPlace_cases rfl hrestart
      cases hq'

/-- A timer that can be stopped has a node, which is counted. -/
theorem TimersHeld.cost_stopTraffic (hh : TimersHeld L h.held s) {p : TimerId}
    (hstop : Timers.stopTimer s p = some s') :
    cost (2 ^ 64) h (stopTraffic s p) = L.appTimer := by
  obtain ⟨tmr, w, a, r, htmr, -, ha, hr, -⟩ := Timers.stopTimer_cases hstop
  obtain ⟨x, hx, rfl, -⟩ := Timers.exists_of_timerDel (w := w) hr
  have hlt : x.addr < s.nextApp := hh.linked.addr_lt _ (Timers.node_mem_nodes hx)
  have hone : stopTraffic s p = [.drop (.appTimer x.addr)] := by
    simp [stopTraffic, htmr, ha]
  rw [hone, cost, cost, own, Nat.add_zero]
  exact hh.app x.addr hlt

theorem delTimer_running_cases {p : TimerId} (hdel : Timers.delTimer s p = some s') :
    (running s p = false ∧ s' = s) ∨ (running s p = true ∧ Timers.stopTimer s p = some s') := by
  simp only [Timers.delTimer, Option.bind_eq_bind, Option.bind_eq_some_iff] at hdel
  obtain ⟨tmr, htmr, hdel⟩ := hdel
  have hrunning : running s p = true ↔ tmr.apptimer.isSome ∧ tmr.isRunning := by
    simp [running, htmr]
  split_ifs at hdel with hrun
  · exact .inr ⟨hrunning.mpr hrun, hdel⟩
  · exact .inl ⟨Bool.eq_false_iff.mpr fun htrue => hrun (hrunning.mp htrue),
      (Option.some.inj hdel).symm⟩

/-- The entry that is cleaned up is freed and stays on the counter.  What happens to its timer
does not make up for that. -/
theorem TimersHeld.not_cost_finishTraffic {b : Timers.Build} {appOk : Bool}
    (hh : TimersHeld L h.held s) (hfinish : Timers.finishExpd b s appOk = some s') :
    ¬ cost (2 ^ 64) h (finishTraffic L s appOk) ≡ 0 [MOD 2 ^ 64] := by
  obtain ⟨x, rest, p, tmr, hlist, hp, htmr, -⟩ := Timers.finishExpd_cases hfinish
  have hlt : x.addr < s.nextApp := hh.expd x (hlist ▸ List.mem_cons_self)
  have htimer : h.held (.timer p) = L.timer := by
    refine hh.timer p tmr.label ?_
    rw [TmrState.label, htmr, Option.map_some]
  have hpos := L.appTimer.2.1
  have hsize := L.appTimer.2.2
  have hother : ∀ e ∈ finishTimer L s x appOk, e.block ≠ .appTimer x.addr := by
    simp only [finishTimer, hp, htmr]
    split_ifs
    · simp [Event.block]
    · simp [Event.block, hlt.ne']
    · simp
  have hentry : after h (finishTimer L s x appOk) (.appTimer x.addr) = L.appTimer :=
    (Meter.held_foldl_of_ne h hother).trans (hh.app x.addr hlt)
  have hcost : cost (2 ^ 64) h (finishTraffic L s appOk) =
      cost (2 ^ 64) h (finishTimer L s x appOk) + L.appTimer := by
    rw [finishTraffic, hlist, ← hentry]
    exact Meter.cost_append h _ _
  rw [hcost]
  simp only [finishTimer, hp, htmr]
  split_ifs
  · rw [cost, cost, Meter.own_release (L.timer.2.2.trans (by decide)) htimer, Nat.add_zero,
      Nat.add_comm]
    exact fun hzero => sizeOf_not_modEq_zero L.appTimer (Nat.add_modEq_right.symm.trans hzero)
  · cases appOk with
    | false =>
        rw [cost, cost, own, Meter.modEq_zero_iff (by omega)]
        omega
    | true =>
        rw [cost, cost, own, Meter.modEq_zero_iff (by omega)]
        omega
  · rw [cost, Meter.modEq_zero_iff (by omega)]
    omega

/-- What a step of the timer manager costs, and that a step without cost keeps the blocks. -/
theorem TimersHeld.step {op : Timers.Op} (hh : TimersHeld L h.held s)
    (hstep : Timers.step .sfs s op = some s') :
    (cost (2 ^ 64) h (timerTraffic L s op) ≡ 0 [MOD 2 ^ 64] ↔ TimerBalanced s op) ∧
      (TimerBalanced s op → TimersHeld L (after h (timerTraffic L s op)) s') := by
  have hl := (hh.linked.of_step hstep).2
  cases op with
  | call c =>
      cases c with
      | startTimer ticks data handler flags timerOk appOk =>
          obtain ⟨⟨r, res⟩, hstart, rfl⟩ := Option.map_eq_some_iff.mp hstep
          refine ⟨cost_startTraffic_iff ticks data handler flags ?_, hh.of_startTimer hl hstart⟩
          exact hh.timer_fresh _ le_rfl
      | setupTimer handler data timerOk =>
          cases hstep
          exact ⟨cost_setupTraffic_iff handler data, hh.of_setupTimer⟩
      | modTimer p secs appOk => exact ⟨cost_appTraffic_iff, hh.of_modTimer hl hstep⟩
      | timerRestart p appOk => exact ⟨cost_appTraffic_iff, hh.of_timerRestart hstep⟩
      | stopTimer p =>
          refine ⟨iff_of_false ?_ id, False.elim⟩
          rw [timerTraffic, callTraffic, hh.cost_stopTraffic hstep]
          exact sizeOf_not_modEq_zero L.appTimer
      | delTimer p =>
          rw [timerTraffic, callTraffic]
          rcases delTimer_running_cases hstep with ⟨hidle, rfl⟩ | ⟨hrun, hstop⟩
          · rw [hidle]
            exact ⟨iff_of_true rfl hidle, fun _ => hh⟩
          · rw [if_pos hrun, hh.cost_stopTraffic hstop]
            have hnot : ¬ TimerBalanced s (.call (.delTimer p)) := fun hidle =>
              Bool.false_ne_true (hidle.symm.trans hrun)
            exact ⟨iff_of_false (sizeOf_not_modEq_zero L.appTimer) hnot, fun hok => absurd hok hnot⟩
  | tick =>
      have hsame := Timers.sameBlocks_updateTimes hh.linked hstep
      exact ⟨iff_of_true rfl trivial, fun _ => hh.of_sameBlocks hl hsame⟩
  | bottomHalf =>
      have hsame := Timers.sameBlocks_bottomHalf hh.linked hstep
      exact ⟨iff_of_true rfl trivial, fun _ => hh.of_sameBlocks hl hsame⟩
  | finishExpd appOk =>
      exact ⟨iff_of_false (hh.not_cost_finishTraffic hstep) id, False.elim⟩

end Timers

/-! ## Pools -/

/-- The pools that there are have their control blocks, and those to come have none yet. -/
structure PoolsHeld (L : Layout) (held : Block → Nat) (s : Registry) : Prop where
  intact : Mem.Intact s
  pool : ∀ memid p, s.pools memid = some p → held (.memInfo memid) = L.memInfo
  fresh : ∀ memid, s.mem.lastId < memid → held (.memInfo memid) = 0

section Pools

variable {L : Layout} {h : Heap Block} {s s' : Registry}

theorem cost_createTraffic_iff {size : Nat} {nBlks : Int} {mcbOk : Bool} {area : Nat}
    {tableOk : Bool} :
    cost (2 ^ 64) h (poolTraffic L s (.create size nBlks mcbOk area tableOk)) ≡ 0 [MOD 2 ^ 64] ↔
      PoolBalanced s (.create size nBlks mcbOk area tableOk) := by
  have hbytes : poolBytes size nBlks < 2 ^ 64 := (Mem.poolBytes_lt size nBlks).trans (by decide)
  have htable : tableBytes nBlks < 2 ^ 64 := Nat.mod_lt _ (by decide)
  simp only [poolTraffic, PoolBalanced]
  cases mcbOk with
  | false =>
      rw [if_pos Bool.false_ne_true, cost, cost, own, Nat.add_zero]
      exact iff_of_false (sizeOf_not_modEq_zero L.memInfo) fun hok => Bool.false_ne_true hok.1
  | true =>
      rw [if_neg (not_not.mpr rfl)]
      by_cases harea : area = 0
      · rw [if_pos harea, cost, cost, cost, own, own, Nat.zero_add, Nat.add_zero,
          Meter.modEq_zero_iff hbytes]
        simp [harea]
      · rw [if_neg harea]
        cases tableOk with
        | false =>
            rw [cost, cost, cost, cost, own, own, own, Nat.zero_add, Nat.zero_add, Nat.add_zero,
              Meter.modEq_zero_iff htable]
            simp [harea]
        | true => exact iff_of_true rfl ⟨rfl, .inr ⟨harea, .inl rfl⟩⟩

/-- The control block of the next pool, of which the registry may have heard or not. -/
theorem PoolsHeld.addPool (hh : PoolsHeld L h.held s) {held : Block → Nat} (hintact : Mem.Intact s')
    (hlast : s'.mem.lastId = s.mem.lastId + 1)
    (hpools : ∀ memid p, s'.pools memid = some p →
      memid = s.mem.lastId + 1 ∨ s.pools memid = some p)
    (hheld : ∀ memid, held (.memInfo memid) =
      h.held (.memInfo memid) + if s.mem.lastId + 1 = memid then (L.memInfo : Nat) else 0) :
    PoolsHeld L held s' := by
  have hzero := hh.fresh (s.mem.lastId + 1) (Nat.lt_succ_self _)
  refine ⟨hintact, fun memid p hp => ?_, fun memid hlt => ?_⟩
  · rw [hheld]
    by_cases hnew : s.mem.lastId + 1 = memid
    · rw [if_pos hnew, ← hnew, hzero, Nat.zero_add]
    · rw [if_neg hnew, Nat.add_zero]
      exact hh.pool memid p ((hpools memid p hp).resolve_left (Ne.symm hnew))
  · rw [hlast] at hlt
    rw [hheld, if_neg hlt.ne, Nat.add_zero]
    exact hh.fresh memid ((Nat.lt_succ_self _).trans hlt)

theorem PoolsHeld.of_create {size : Nat} {nBlks : Int} {area : Nat} {tableOk : Bool}
    {res : Option Nat} (hh : PoolsHeld L h.held s)
    (hcreate : s.create size nBlks true area tableOk = some (s', res)) :
    PoolsHeld L (after h (poolTraffic L s (.create size nBlks true area tableOk))) s' := by
  have hintact := hh.intact.of_create hcreate
  unfold Registry.create at hcreate
  split at hcreate
  · cases hcreate
  · by_cases harea : area = 0
    · simp only [Mem.memPoolCreate, not_true_eq_false, if_false, harea, if_true] at hcreate
      cases hcreate
      refine hh.addPool hintact rfl (fun memid p hp => .inr hp) fun memid => ?_
      simp [after, poolTraffic, harea, Heap.apply]
    · simp only [Mem.memPoolCreate, not_true_eq_false, if_false, harea] at hcreate
      split at hcreate
      · cases hcreate
      · cases hcreate
        refine hh.addPool hintact rfl (fun memid p hp => ?_) fun memid => ?_
        · by_cases hnew : memid = s.mem.lastId + 1
          · exact .inl hnew
          · exact .inr (by simpa [Function.update_of_ne hnew] using hp)
        · cases tableOk <;> simp [after, poolTraffic, harea, Heap.apply]

/-- The pool is freed and stays on the counter, with its control block at least. -/
theorem PoolsHeld.not_cost_deleteTraffic (hh : PoolsHeld L h.held s) (hb : h.Bounded (2 ^ 64))
    {memid : Nat} {p : Mem.MemInfo} (hp : s.pools memid = some p) :
    ¬ cost (2 ^ 64) h (poolTraffic L s (.delete memid)) ≡ 0 [MOD 2 ^ 64] := by
  obtain ⟨-, rfl⟩ := Mem.getMemInfo_mem ((hh.intact.pools memid).trans hp)
  have hdrops : poolTraffic L s (.delete p.memid) =
      [Block.addrBlks p.memid, .area p.memid, .memInfo p.memid].map Event.drop := by
    simp [poolTraffic, hh.intact.getMemInfo_eq, hp]
  have hmcb : L.memInfo ≤ cost (2 ^ 64) h (poolTraffic L s (.delete p.memid)) := by
    rw [hdrops]
    simp only [List.map_cons, List.map_nil, cost, own, Heap.apply, Meter.held_remove, reduceCtorEq,
      if_false, hh.pool p.memid p hp]
    omega
  have hle : cost (2 ^ 64) h (poolTraffic L s (.delete p.memid)) ≤ h.total := by
    rw [hdrops]
    exact Meter.cost_drops_le h _
  have hpos := L.memInfo.2.1
  rw [Meter.modEq_zero_iff (hle.trans_lt hb.total)]
  omega

theorem PoolsHeld.of_write (hh : PoolsHeld L h.held s) {memid : Nat} {p p' : Mem.MemInfo}
    (hfound : s.pools memid = some p) (hid : p'.memid = p.memid) :
    PoolsHeld L h.held (s.write memid p') where
  intact := hh.intact.of_write hfound hid
  pool id q hq := by
    by_cases heq : id = memid
    · rw [heq]
      exact hh.pool memid p hfound
    · refine hh.pool id q ?_
      simpa [Registry.write, Function.update_of_ne heq] using hq
  fresh := hh.fresh

/-- What an operation on the pools costs, and that one without cost keeps the blocks. -/
theorem PoolsHeld.step {op : RegOp} (hh : PoolsHeld L h.held s) (hb : h.Bounded (2 ^ 64))
    (hstep : regStep s op = some s') :
    (cost (2 ^ 64) h (poolTraffic L s op) ≡ 0 [MOD 2 ^ 64] ↔ PoolBalanced s op) ∧
      (PoolBalanced s op → PoolsHeld L (after h (poolTraffic L s op)) s') := by
  cases op with
  | create size nBlks mcbOk area tableOk =>
      obtain ⟨⟨r, res⟩, hcreate, rfl⟩ := Option.map_eq_some_iff.mp hstep
      refine ⟨cost_createTraffic_iff, fun hok => ?_⟩
      obtain rfl : mcbOk = true := hok.1
      exact hh.of_create hcreate
  | delete memid =>
      cases hfound : s.pools memid with
      | none =>
          have hnone : poolTraffic L s (.delete memid) = [] := by
            simp [poolTraffic, hh.intact.getMemInfo_eq, hfound]
          obtain ⟨⟨r, ret⟩, hdelete, rfl⟩ := Option.map_eq_some_iff.mp hstep
          simp only [Registry.delete, hh.intact.getMemInfo_eq, hfound, Option.bind_eq_bind,
            Option.bind_some] at hdelete
          cases hdelete
          rw [hnone]
          exact ⟨iff_of_true rfl hfound, fun _ => hh⟩
      | some p =>
          have hnot : ¬ PoolBalanced s (.delete memid) := fun hnone => by
            cases hfound.symm.trans hnone
          exact ⟨iff_of_false (hh.not_cost_deleteTraffic hb hfound) hnot, fun hok => absurd hok hnot⟩
  | alloc memid =>
      obtain ⟨⟨r, a⟩, halloc, rfl⟩ := Option.map_eq_some_iff.mp hstep
      obtain ⟨p, p', hfound, hid, rfl⟩ := hh.intact.alloc_cases halloc
      exact ⟨iff_of_true rfl trivial, fun _ => hh.of_write hfound hid⟩
  | free memid addr =>
      obtain ⟨⟨r, ret⟩, hfree, rfl⟩ := Option.map_eq_some_iff.mp hstep
      rcases hh.intact.free_cases hfree with rfl | ⟨p, p', hfound, hid, rfl⟩
      · exact ⟨iff_of_true rfl trivial, fun _ => hh⟩
      · exact ⟨iff_of_true rfl trivial, fun _ => hh.of_write hfound hid⟩

end Pools

/-! ## Blocks of other parts -/

section Frame

variable {L : Layout} {held held' : Block → Nat}

theorem TasksHeld.congr {s : SchedState} (hh : TasksHeld L held s)
    (hsame : ∀ b : Block, b.part = .sched → held' b = held b) : TasksHeld L held' s where
  lists := hh.lists
  live p hp := (hsame (.tsk p) rfl).trans (hh.live p hp)
  fresh p hp := (hsame (.tsk p) rfl).trans (hh.fresh p hp)

theorem TimersHeld.congr {s : TmrState} (hh : TimersHeld L held s)
    (hsame : ∀ b : Block, b.part = .timers → held' b = held b) : TimersHeld L held' s where
  linked := hh.linked
  timer p l hp := (hsame (.timer p) rfl).trans (hh.timer p l hp)
  timer_fresh p hp := (hsame (.timer p) rfl).trans (hh.timer_fresh p hp)
  app a ha := (hsame (.appTimer a) rfl).trans (hh.app a ha)
  app_fresh a ha := (hsame (.appTimer a) rfl).trans (hh.app_fresh a ha)
  expd := hh.expd

theorem PoolsHeld.congr {s : Registry} (hh : PoolsHeld L held s)
    (hsame : ∀ b : Block, b.part = .pools → held' b = held b) : PoolsHeld L held' s where
  intact := hh.intact
  pool memid p hp := (hsame (.memInfo memid) rfl).trans (hh.pool memid p hp)
  fresh memid hlt := (hsame (.memInfo memid) rfl).trans (hh.fresh memid hlt)

end Frame

end ThreadLib
end TmULThreads
