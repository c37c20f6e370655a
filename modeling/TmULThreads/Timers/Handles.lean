import TmULThreads.Timers.Coherent

/-!
# What a handle says about its timer

`HandlesOk` is what a program relies on when it holds a `TIMER_T *`:
`is_running` tells whether the timer has a node in the trees, `apptimer` and
`wheel` lead to that node, and no node outlives its timer.

It holds in every state of every run in which `mod_timer` is only called on a
timer that is not running and not on the list of expired timers.  A handler
that re-arms its own timer breaks it: `process_expd_timers` clears `apptimer`,
or frees the timer, after the handler has returned.

Runs have the bottom half in small steps; `btmHlf_run` says that every call of
`btm_hlf` is made of such steps.
-/

namespace TmULThreads
namespace Timers

structure HandlesOk (s : TmrState) : Prop where
  running_iff : ∀ p t, s.timers p = some t →
    (t.isRunning = true ↔ s.nodes.countP (fun n => n.timer = some p) = 1)
  reaches : ∀ p t, s.timers p = some t → t.isRunning = true →
    ∃ w x, t.wheel = some w ∧ x ∈ (s.root w).toList ∧ x.timer = some p ∧
      t.apptimer = some x.addr
  live : ∀ n ∈ s.nodes, ∀ p, n.timer = some p → s.timers p ≠ none

theorem Coherent.countP_timer_le_one {s : TmrState} (h : Coherent s) (p : TimerId) :
    s.nodes.countP (fun n => n.timer = some p) ≤ 1 := by
  have hnodup : (s.nodes.map Node.timer).Nodup :=
    Multiset.nodup_of_le (Multiset.le_add_right _ _) h.owners_nodup
  have hcount := Multiset.nodup_iff_count_le_one.mp hnodup (some p)
  rw [Multiset.count_map, ← Multiset.countP_eq_card_filter] at hcount
  simpa only [eq_comm] using hcount

theorem Coherent.handlesOk {s : TmrState} (h : Coherent s) : HandlesOk s where
  running_iff := by
    intro p t ht
    have hle := h.countP_timer_le_one p
    constructor
    · intro hrun
      obtain ⟨n, hn, htimer⟩ := h.running p t ht hrun
      have hpos : 0 < s.nodes.countP (fun n => n.timer = some p) :=
        Multiset.countP_pos.mpr ⟨n, hn, htimer⟩
      omega
    · intro hone
      obtain ⟨n, hn, htimer⟩ := Multiset.countP_pos.mp (hone ▸ Nat.one_pos)
      obtain ⟨q, u, hq, hu, hrun, -⟩ := h.armed n hn
      obtain rfl : p = q := Option.some.inj (htimer.symm.trans hq)
      obtain rfl : t = u := Option.some.inj (ht.symm.trans hu)
      exact hrun
  reaches := by
    intro p t ht hrun
    obtain ⟨n, hn, htimer⟩ := h.running p t ht hrun
    obtain ⟨q, u, hq, hu, -, hwheel, happ⟩ := h.armed n hn
    obtain rfl : p = q := Option.some.inj (htimer.symm.trans hq)
    obtain rfl : t = u := Option.some.inj (ht.symm.trans hu)
    obtain ⟨x, hx, hnode⟩ := mem_nodes.mp hn
    rw [← hnode] at htimer happ
    exact ⟨n.pending.wheel, x, hwheel, hx, htimer, happ⟩
  live := by
    intro n hn p htimer
    obtain ⟨q, u, hq, hu, -⟩ := h.armed n hn
    obtain rfl : p = q := Option.some.inj (htimer.symm.trans hq)
    rw [hu]
    exact nofun

/-- What `timer_pending` answers can be relied on: the timer has a node in the trees. -/
theorem HandlesOk.timerPending_iff {s : TmrState} (h : HandlesOk s) (p : TimerId) :
    timerPending s (some p) = some true ↔ s.nodes.countP (fun n => n.timer = some p) = 1 := by
  rw [timerPending, Option.map_eq_some_iff]
  constructor
  · rintro ⟨t, ht, hrunning⟩
    exact (h.running_iff p t ht).mp hrunning
  · intro hone
    obtain ⟨n, hn, htimer⟩ := Multiset.countP_pos.mp (hone ▸ Nat.one_pos)
    obtain ⟨t, ht⟩ := Option.ne_none_iff_exists'.mp (h.live n hn p htimer)
    exact ⟨t, ht, (h.running_iff p t ht).mpr hone⟩

/-! ## The bottom half is a run -/

/-- What a handler does is a run of calls. -/
theorem callHandler_run {b : Build} {handlers : Handlers} {s s' : TmrState}
    (h : callHandler b handlers s = some s') :
    ∃ cs : List Call, PartialSteps.run (step b) s (cs.map .call) = some s' := by
  unfold callHandler at h
  split at h
  · cases h
  · simp only [Option.bind_eq_bind, Option.bind_eq_some_iff] at h
    obtain ⟨p, -, tmr, -, h⟩ := h
    split at h
    · exact ⟨[], h⟩
    · rename_i handler _
      refine ⟨handlers handler tmr.data, ?_⟩
      rw [PartialSteps.run_map]
      exact h

/-- The whole of `process_expd_timers`, whatever the handlers call, is a run of
calls and clean-ups, so what holds along every run holds between its turns. -/
theorem processExpdTimers_run {b : Build} {handlers : Handlers} {appOk : Bool} {s s' : TmrState}
    (h : processExpdTimers b handlers appOk s = some s') :
    ∃ ops, PartialSteps.run (step b) s ops = some s' := by
  unfold processExpdTimers at h
  generalize s.expdTmrs.length = n at h
  induction n generalizing s with
  | zero => exact ⟨[], h⟩
  | succ n ih =>
      simp only [processExpdTimersLoop, Option.bind_eq_bind, Option.bind_eq_some_iff] at h
      obtain ⟨mid, hcall, next, hfinish, hrest⟩ := h
      obtain ⟨cs, hcs⟩ := callHandler_run hcall
      obtain ⟨ops, hops⟩ := ih hrest
      refine ⟨cs.map .call ++ .finishExpd appOk :: ops, ?_⟩
      rw [PartialSteps.run_append]
      refine ⟨mid, hcs, ?_⟩
      rw [PartialSteps.run_cons]
      exact ⟨next, hfinish, hops⟩

section

variable (s : TmrState) (r : Bool)

/-- The state with another request for the bottom half. -/
def TmrState.withRaised : TmrState := { s with raised := r }

@[simp] theorem withRaised_clk : (s.withRaised r).clk = s.clk := rfl

@[simp] theorem withRaised_root : (s.withRaised r).root = s.root := rfl

/-! No turn of a pass looks at the request. -/

theorem findTmrSlotAndPlace_withRaised (x : AppTimer) :
    findTmrSlotAndPlace (s.withRaised r) x = (findTmrSlotAndPlace s x).map (·.withRaised r) := by
  unfold findTmrSlotAndPlace
  cases findSlot x.ctime with
  | none => rfl
  | some wt =>
      cases x.timer with
      | none => rfl
      | some p => cases htmr : s.timers p <;> simp [htmr, TmrState.withRaised, TmrState.setTimer,
          TmrState.setRoot]

theorem timerExpiryAction_withRaised (x : AppTimer) :
    timerExpiryAction (s.withRaised r) x = (timerExpiryAction s x).map (·.withRaised r) := by
  unfold timerExpiryAction
  split
  · cases x.timer with
    | none => rfl
    | some p => cases htmr : s.timers p <;> simp [htmr, TmrState.withRaised, TmrState.setTimer]
  · exact findTmrSlotAndPlace_withRaised s r x

theorem processOne_withRaised (w : Wheel) (x : AppTimer) :
    processOne (s.withRaised r) w x = (processOne s w x).map (·.withRaised r) := by
  have hclear : clearWheelTimer (s.withRaised r) x = clearWheelTimer s x := rfl
  unfold processOne
  rw [hclear, withRaised_root]
  cases clearWheelTimer s x with
  | none => rfl
  | some y =>
      cases hdel : timerDel y.addr (s.root w) with
      | none => simp [hdel]
      | some root =>
          simp only [hdel, Option.bind_eq_bind, Option.bind_some]
          exact timerExpiryAction_withRaised (s.setRoot w root) r y

theorem processTimersLoop_withRaised (fuel : Nat) (w : Wheel) (expires : U32) :
    processTimersLoop fuel (s.withRaised r) w expires =
      (processTimersLoop fuel s w expires).map (Prod.map (·.withRaised r) id) := by
  induction fuel generalizing s with
  | zero => rfl
  | succ fuel ih =>
      unfold processTimersLoop
      rw [withRaised_root]
      cases timerTreeWalk (s.root w) expires with
      | none => rfl
      | some x =>
          simp only [processOne_withRaised]
          cases processOne s w x with
          | none => rfl
          | some mid =>
              simp only [Option.map_some, Option.bind_eq_bind, Option.bind_some, ih]
              cases processTimersLoop fuel mid w expires <;> rfl

theorem tmProcess_withRaised (b : Build) :
    tmProcessTickAndUpdateTimers b (s.withRaised r) =
      (tmProcessTickAndUpdateTimers b s).map (Prod.map (·.withRaised r) id) := by
  have hpass (s : TmrState) (w : Wheel) (expires : U32) :=
    processTimersLoop_withRaised s r (s.root w).size w expires
  unfold tmProcessTickAndUpdateTimers processTimers
  simp only [hpass, withRaised_root, withRaised_clk, Option.bind_eq_bind, Option.bind_map,
    Option.map_bind, Function.comp_def, Prod.map, apply_ite, Option.map_some, id]

end

/-- The whole of `btm_hlf`, called when its request has been taken back, is a `bottomHalf` step
and a run of calls and clean-ups. -/
theorem btmHlf_run {b : Build} {handlers : Handlers} {appOk : Bool} {s s' : TmrState}
    (hraised : s.raised = true)
    (h : btmHlf b handlers appOk { s with raised := false } = some s') :
    ∃ ops, PartialSteps.run (step b) s (.bottomHalf :: ops) = some s' := by
  obtain ⟨mid, hpass, hexpd⟩ : ∃ mid, step b s .bottomHalf = some mid ∧
      processExpdTimers b handlers appOk mid = some s' := by
    cases b with
    | sfs =>
        simp only [btmHlf, Option.bind_eq_bind, Option.bind_eq_some_iff] at h
        obtain ⟨mid, hpass, hexpd⟩ := h
        -- the pass itself does not look at the request, so it may be taken back before or after
        have hframe := congrArg (Option.map Prod.fst) (tmProcess_withRaised s false .sfs)
        refine ⟨mid, ?_, hexpd⟩
        simp only [step, hraised, if_true]
        rw [← hpass]
        exact (hframe.trans (Option.map_map ..)).symm
    | normal =>
        refine ⟨_, ?_, h⟩
        simp only [step, hraised, if_true]
  obtain ⟨ops, hops⟩ := processExpdTimers_run hexpd
  exact ⟨ops, (PartialSteps.run_cons (step b)).mpr ⟨mid, hpass, hops⟩⟩

/-- Handles are reliable as long as no timer is re-armed while it has a node,
in a tree or on the list of expired timers. -/
theorem handlesOk_of_modIdle (b : Build) (ops : List Op) (s : TmrState)
    (hidle : PartialSteps.Meets (step b) ModIdle initTimerMgr ops)
    (hrun : PartialSteps.run (step b) initTimerMgr ops = some s) : HandlesOk s :=
  (coherent_of_run hidle hrun).handlesOk

/-- A timer is set up, armed, stopped and armed again. -/
theorem handlesOk_stop_rearm :
    ∃ s, PartialSteps.run (step .normal) initTimerMgr
        [.call (.setupTimer none 0 true), .call (.modTimer (some 0) 2 true), .tick,
          .call (.stopTimer 0), .call (.modTimer (some 0) 3 true)] = some s ∧
      HandlesOk s := by
  refine ⟨_, rfl, handlesOk_of_modIdle .normal
    [.call (.setupTimer none 0 true), .call (.modTimer (some 0) 2 true), .tick,
      .call (.stopTimer 0), .call (.modTimer (some 0) 3 true)] _ ?_ rfl⟩
  refine .cons rfl trivial (.cons rfl ?_ (.cons rfl trivial (.cons rfl trivial
    (.cons rfl ?_ trivial))))
  · intro t ht
    cases ht
    exact ⟨rfl, nofun⟩
  · intro t ht
    cases ht
    exact ⟨rfl, nofun⟩

/-- The handler of a timer that is not `TIMER_ONCE` re-arms it; the clean-up
then clears `apptimer` of a running timer, which can no longer be cancelled. -/
theorem handlesOk_broken_by_handler :
    ∃ s s', PartialSteps.run (step .normal) initTimerMgr
        [.call (.startTimer 1 0 (some 0) timerForever true true), .tick, .bottomHalf] = some s ∧
      processExpdTimers .normal (fun _ _ => [.modTimer (some 0) 2 true]) true s = some s' ∧
      ¬ HandlesOk s' := by
  refine ⟨_, _, rfl, rfl, fun h => ?_⟩
  obtain ⟨w, x, -, -, -, happ⟩ := h.reaches 0 _ rfl rfl
  cases happ

end Timers
end TmULThreads
