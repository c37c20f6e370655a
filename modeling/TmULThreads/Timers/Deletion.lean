import TmULThreads.Lib.Ledger
import TmULThreads.Timers.References
import TmULThreads.Timers.Sweep

/-!
# Deleted timers

`del_timer` decides from `apptimer` and `is_running` whether there is anything to stop.
A timer that has expired is not running any more, but until the bottom half has come to
its entry on `expd_tmrs` its handler has not been called: `del_timer` does nothing then,
and the handler is called although the timer has been deleted.

The system here is the timer manager with the calls of the handlers as steps of their
own, and with a ledger of what has been armed, deleted and called.  The calls that a
handler makes are ordinary call steps between `invoke` and `finish`.  `quiet_of_run`
states that the deletion of an expired timer whose handler is still to be called, and the
arming of a timer that has a node already, are the only ways to a late call.
-/

namespace TmULThreads
namespace Timers

/-- What is entered in the ledger. -/
inductive DelNote where
  | armed (p : TimerId)
  | deleted (p : TimerId)
  | called (p : TimerId)
  deriving DecidableEq, Repr

structure DelSys where
  mem : TmrState
  /-- `process_expd_timers` has called the handler of the first entry, and has not taken
  the entry off the list yet. -/
  called : Bool
  log : List DelNote

inductive DelOp where
  | call (c : Call)
  | tick
  | bottomHalf
  | invoke
  | finish (appOk : Bool)
  deriving DecidableEq, Repr

def initDel : DelSys := ⟨initTimerMgr, false, []⟩

/-- The entry that a call makes when it returns. -/
def Call.note (s : TmrState) : Call → Option DelNote
  | .startTimer _ _ _ _ timerOk appOk =>
      if s.Starts timerOk appOk then some (.armed s.nextTimer) else none
  | .modTimer (some p) _ true => some (.armed p)
  | .delTimer p => some (.deleted p)
  | .modTimer .. | .setupTimer .. | .timerRestart .. | .stopTimer _ => none

/-- The call of the handler in `process_expd_timers`. -/
def DelSys.invoke (s : DelSys) : Option DelSys :=
  match s.mem.expdTmrs with
  | [] => none
  | ptmr :: _ => do
      let p ← ptmr.timer
      let tmr ← s.mem.timers p
      let note := if tmr.timeOutHandler.isSome then some (DelNote.called p) else none
      some { s with called := true, log := s.log ++ note.toList }

def delStep (b : Build) (s : DelSys) : DelOp → Option DelSys
  | .call c =>
      (c.exec b s.mem).map fun m =>
        { s with mem := m, log := s.log ++ (c.note s.mem).toList }
  | .tick => (updateTimes b s.mem).map fun m => { s with mem := m }
  | .bottomHalf => (step b s.mem .bottomHalf).map fun m => { s with mem := m }
  | .invoke => if s.called then none else s.invoke
  | .finish appOk =>
      if s.called then
        (finishExpd b s.mem appOk).map fun m => { s with mem := m, called := false }
      else none

/-! ## The property and the condition -/

/-- The timer has been deleted, and not been armed since. -/
def Deleted (p : TimerId) : List DelNote → Prop :=
  Ledger.Outstanding (· = DelNote.deleted p) (· = DelNote.armed p)

/-- No handler has been called while its timer was deleted. -/
def Quiet (log : List DelNote) : Prop :=
  ∀ p, Ledger.Silent (· = DelNote.deleted p) (· = DelNote.armed p) (· = DelNote.called p) log

/-- The entries whose handler is still to be called. -/
def DelSys.waiting (s : DelSys) : List AppTimer :=
  if s.called then s.mem.expdTmrs.tail else s.mem.expdTmrs

/-- A timer is not deleted while a call of its handler is due, and not armed while it has
a node. -/
def DeletesInTime (s : DelSys) : DelOp → Prop
  | .call (.delTimer p) => ∀ x ∈ s.waiting, x.timer ≠ some p
  | .call c => c.ModIdle s.mem
  | .tick | .bottomHalf | .invoke | .finish _ => True

/-! ## The entries of the calls -/

theorem note_cases (s : TmrState) (c : Call) :
    c.note s = none ∨ (∃ p, c.note s = some (.armed p)) ∨
      ∃ p, c = .delTimer p ∧ c.note s = some (.deleted p) := by
  cases c with
  | startTimer ticks data handler flags timerOk appOk =>
      by_cases hstarts : s.Starts timerOk appOk
      · exact .inr (.inl ⟨s.nextTimer, if_pos hstarts⟩)
      · exact .inl (if_neg hstarts)
  | modTimer p secs appOk =>
      cases p with
      | none => exact .inl rfl
      | some p =>
          cases appOk with
          | false => exact .inl rfl
          | true => exact .inr (.inl ⟨p, rfl⟩)
  | setupTimer handler data timerOk => exact .inl rfl
  | timerRestart p appOk => exact .inl rfl
  | stopTimer p => exact .inl rfl
  | delTimer p => exact .inr (.inr ⟨p, rfl, rfl⟩)

/-- No call of the program is a call of a handler. -/
theorem note_ne_called (s : TmrState) (c : Call) (p : TimerId) :
    c.note s ≠ some (.called p) := by
  intro hnote
  rcases note_cases s c with h | ⟨q, h⟩ | ⟨q, -, h⟩
  all_goals
    rw [hnote] at h
    cases h

theorem eq_delTimer_of_note {s : TmrState} {c : Call} {p : TimerId}
    (hnote : c.note s = some (.deleted p)) : c = .delTimer p := by
  rcases note_cases s c with h | ⟨q, h⟩ | ⟨q, rfl, h⟩
  all_goals
    rw [hnote] at h
    cases h
  rfl

/-! ## References -/

theorem not_mem_refs_of_unowned {s : TmrState} {p : TimerId} (h : Unowned s p) : p ∉ s.refs := by
  intro hp
  obtain ⟨x, hx, htimer⟩ := mem_refs.mp hp
  rcases mem_apps.mp hx with hplaced | hexpd
  · obtain ⟨w, hw⟩ := mem_placed.mp hplaced
    exact h.1 _ (node_mem_nodes hw) htimer
  · exact h.2 x hexpd htimer

theorem mem_refs_of_head {s : TmrState} {x : AppTimer} {rest : List AppTimer} {p : TimerId}
    (hlist : s.expdTmrs = x :: rest) (hp : x.timer = some p) : p ∈ s.refs := by
  refine mem_refs.mpr ⟨x, mem_apps.mpr (.inr ?_), hp⟩
  rw [hlist]
  exact List.mem_cons_self

/-- A call refers to a timer that was not referred to before only by arming it. -/
theorem refs_of_exec {b : Build} {s s' : TmrState} {c : Call} {p : TimerId}
    (h : c.exec b s = some s') (hp : p ∈ s'.refs) :
    p ∈ s.refs ∨ c.note s = some (.armed p) := by
  have hev : Evolves s (.call c) s' := evolves_of_step h
  have hnone (harms : Op.arms s (.call c) = none) : p ∈ s.refs := by
    rcases hev.refs p hp with hold | ⟨hnew, -⟩
    · exact hold
    · cases harms.symm.trans hnew
  cases c with
  | startTimer ticks data handler flags timerOk appOk =>
      obtain ⟨⟨r, res⟩, hstart, rfl⟩ := Option.map_eq_some_iff.mp h
      rcases startTimer_cases hstart with ⟨-, -, i, rfl | rfl⟩ | ⟨-, hstarts, harm⟩
      · exact .inl hp
      · exact .inl hp
      · refine ((calcAndPlace_refs rfl harm).1 p hp).imp_right fun hnew => ?_
        cases hnew
        exact if_pos hstarts
  | modTimer q secs appOk =>
      cases appOk with
      | false =>
          have hsame : s' = s := by
            cases q with
            | none => exact (Option.some.inj h).symm
            | some q => exact (Option.some.inj h).symm
          rw [hsame] at hp
          exact .inl hp
      | true =>
          refine (hev.refs p hp).imp_right fun ⟨hnew, _⟩ => ?_
          obtain rfl : q = some p := hnew
          rfl
  | setupTimer handler data timerOk => exact .inl (hnone rfl)
  | timerRestart q appOk => exact .inl (hnone rfl)
  | stopTimer q => exact .inl (hnone rfl)
  | delTimer q => exact .inl (hnone rfl)

/-! ## What `del_timer` achieves -/

/-- After `del_timer` no tree holds a node of the timer; the list stays as it was. -/
theorem nodes_of_delTimer {s s' : TmrState} {p : TimerId} (h : Coherent s)
    (hdel : delTimer s p = some s') : ∀ n ∈ s'.nodes, n.timer ≠ some p := by
  simp only [delTimer, Option.bind_eq_bind, Option.bind_eq_some_iff] at hdel
  obtain ⟨tmr, htmr, hdel⟩ := hdel
  split at hdel
  · obtain ⟨-, n, hn, hnodes⟩ := h.of_stopTimer hdel
    exact (h.unowned_of_cons hnodes hn).1
  · rename_i hidle
    obtain rfl : s = s' := Option.some.inj hdel
    -- a node of the timer would make both tests of `del_timer` succeed
    intro n hn htimer
    obtain ⟨q, t, hq, ht, hrun, -, happ⟩ := h.armed n hn
    obtain rfl : p = q := Option.some.inj (htimer.symm.trans hq)
    obtain rfl : tmr = t := Option.some.inj (htmr.symm.trans ht)
    exact hidle ⟨by rw [happ]; rfl, hrun⟩

/-! ## The invariant -/

/-- No call of the handler is due: the timer is not referred to, or only by the entry
whose handler has been called. -/
def Silenced (s : DelSys) (p : TimerId) : Prop :=
  p ∉ s.mem.refs ∨
    (s.called = true ∧ ∃ x rest, s.mem.expdTmrs = x :: rest ∧ x.timer = some p)

/-- The ledger agrees with the state of the timer manager. -/
structure Accounted (s : DelSys) : Prop where
  coherent : Coherent s.mem
  quiet : Quiet s.log
  silenced : ∀ p, Deleted p s.log → Silenced s p

theorem quiet_append_note {log : List DelNote} {o : Option DelNote} (h : Quiet log)
    (hcalled : ∀ p, o = some (.called p) → ¬ Deleted p log) : Quiet (log ++ o.toList) := by
  cases o with
  | none =>
      rw [Option.toList_none, List.append_nil]
      exact h
  | some n =>
      intro p
      refine Ledger.throughout_concat.mpr ⟨h p, ?_⟩
      rintro rfl
      exact hcalled p rfl

theorem deleted_append_note {p : TimerId} {log : List DelNote} {o : Option DelNote}
    (h : Deleted p (log ++ o.toList)) :
    o = some (.deleted p) ∨ (Deleted p log ∧ o ≠ some (.armed p)) := by
  cases o with
  | none =>
      rw [Option.toList_none, List.append_nil] at h
      exact .inr ⟨h, nofun⟩
  | some n =>
      rcases Ledger.outstanding_concat.mp h with rfl | ⟨hold, hn⟩
      · exact .inl rfl
      · exact .inr ⟨hold, fun heq => hn (Option.some.inj heq)⟩

/-- Steps that append to the list and arm nothing. -/
theorem Silenced.of_keeps {s : DelSys} {m : TmrState} {p : TimerId} (h : Silenced s p)
    (hkeeps : Keeps s.mem m) (hlist : s.mem.expdTmrs <+: m.expdTmrs) :
    Silenced { s with mem := m } p := by
  rcases h with hnot | ⟨hcalled, x, rest, hx, hp⟩
  · exact .inl fun hp => hnot (hkeeps.refs p hp)
  · obtain ⟨new, hnew⟩ := hlist
    rw [hx] at hnew
    exact .inr ⟨hcalled, x, rest ++ new, hnew.symm, hp⟩

theorem Coherent.prefix_updateTimes {b : Build} {s s' : TmrState} (h : Coherent s)
    (htick : updateTimes b s = some s') : s.expdTmrs <+: s'.expdTmrs := by
  have hclk : Coherent { s with clk := s.clk.advance b } := h.of_eq rfl rfl rfl rfl le_rfl
  rcases updateTimes_cases htick with ⟨-, rfl⟩ | ⟨-, rfl⟩ | ⟨r, -, hproc, rfl⟩
  · exact List.prefix_rfl
  · exact List.prefix_rfl
  · exact (hclk.tmProcess_nodes hproc).2.2.1.expdTmrs

theorem Coherent.prefix_bottomHalf {b : Build} {s s' : TmrState} (h : Coherent s)
    (hbh : step b s .bottomHalf = some s') : s.expdTmrs <+: s'.expdTmrs := by
  rcases step_bottomHalf_cases hbh with ⟨-, r, hproc, rfl⟩ | ⟨-, rfl⟩
  · exact (h.tmProcess_nodes hproc).2.2.1.expdTmrs
  · exact List.prefix_rfl

theorem silenced_of_delTimer {s : DelSys} {m : TmrState} {p : TimerId} (h : Coherent s.mem)
    (hwait : ∀ x ∈ s.waiting, x.timer ≠ some p) (hdel : delTimer s.mem p = some m)
    (log : List DelNote) : Silenced ⟨m, s.called, log⟩ p := by
  have hlist : m.expdTmrs = s.mem.expdTmrs :=
    (sameWork_of_exec (b := .normal) (c := .delTimer p) hdel).expdTmrs
  have hnodes := nodes_of_delTimer h hdel
  have hfree (hexpd : ∀ x ∈ s.mem.expdTmrs, x.timer ≠ some p) : p ∉ m.refs :=
    not_mem_refs_of_unowned ⟨hnodes, hlist ▸ hexpd⟩
  unfold DelSys.waiting at hwait
  by_cases hcalled : s.called = true
  · rw [if_pos hcalled] at hwait
    cases hexpd : s.mem.expdTmrs with
    | nil => exact .inl (hfree (by simp [hexpd]))
    | cons x rest =>
        by_cases hx : x.timer = some p
        · exact .inr ⟨hcalled, x, rest, hlist.trans hexpd, hx⟩
        · refine .inl (hfree fun y hy => ?_)
          rw [hexpd] at hwait hy
          rcases List.mem_cons.mp hy with rfl | hy
          · exact hx
          · exact hwait y hy
  · rw [if_neg hcalled] at hwait
    exact .inl (hfree hwait)

/-- The entry that is taken off the list was the only node of its timer. -/
theorem Coherent.not_mem_refs_finishExpd {b : Build} {s s' : TmrState} {appOk : Bool}
    {x : AppTimer} {rest : List AppTimer} {p : TimerId} (h : Coherent s)
    (hlist : s.expdTmrs = x :: rest) (hp : x.timer = some p)
    (hfin : finishExpd b s appOk = some s') : p ∉ s'.refs := by
  have hnodup := h.owners_nodup
  rw [owners_of_head hlist hp, Multiset.nodup_cons] at hnodup
  have hfree := not_mem_refs_of_unowned ((unowned_iff _ p).mpr hnodup.1)
  obtain ⟨x', rest', q, tmr, hlist', -, -, rfl | rfl⟩ := finishExpd_cases hfin
  all_goals
    rw [hlist] at hlist'
    cases hlist'
    exact hfree

theorem Accounted.of_step {b : Build} {s s' : DelSys} {op : DelOp} (h : Accounted s)
    (hok : DeletesInTime s op) (hstep : delStep b s op = some s') : Accounted s' := by
  cases op with
  | call c =>
      obtain ⟨m, hexec, rfl⟩ := Option.map_eq_some_iff.mp hstep
      have hidle : c.ModIdle s.mem := by
        cases c with
        | delTimer p => exact trivial
        | _ => exact hok
      have hlist := (sameWork_of_exec hexec).expdTmrs
      refine ⟨h.coherent.of_exec hidle hexec, quiet_append_note h.quiet ?_, ?_⟩
      · exact fun p hnote => absurd hnote (note_ne_called s.mem c p)
      · intro p hdel
        rcases deleted_append_note hdel with hnote | ⟨hold, hnote⟩
        · obtain rfl := eq_delTimer_of_note hnote
          exact silenced_of_delTimer h.coherent hok hexec _
        · rcases h.silenced p hold with hnot | ⟨hcalled, x, rest, hx, hp⟩
          · refine .inl fun hp => ?_
            exact (refs_of_exec hexec hp).elim hnot hnote
          · exact .inr ⟨hcalled, x, rest, hlist.trans hx, hp⟩
  | tick =>
      obtain ⟨m, htick, rfl⟩ := Option.map_eq_some_iff.mp hstep
      exact ⟨h.coherent.of_updateTimes htick, h.quiet, fun p hp => (h.silenced p hp).of_keeps
        (keeps_updateTimes htick) (h.coherent.prefix_updateTimes htick)⟩
  | bottomHalf =>
      obtain ⟨m, hbh, rfl⟩ := Option.map_eq_some_iff.mp hstep
      have hidle : ModIdle s.mem .bottomHalf := trivial
      exact ⟨h.coherent.of_step hidle hbh, h.quiet, fun p hp => (h.silenced p hp).of_keeps
        (keeps_bottomHalf hbh) (h.coherent.prefix_bottomHalf hbh)⟩
  | invoke =>
      simp only [delStep] at hstep
      split at hstep
      · cases hstep
      · rename_i hcalled
        unfold DelSys.invoke at hstep
        split at hstep
        · cases hstep
        · rename_i x rest hlist
          simp only [Option.bind_eq_bind, Option.bind_eq_some_iff, Option.some.injEq] at hstep
          obtain ⟨p, hp, tmr, -, rfl⟩ := hstep
          -- nothing has been called yet, so a deleted timer is not referred to at all
          have hnot (q : TimerId) (hq : Deleted q s.log) : q ∉ s.mem.refs :=
            (h.silenced q hq).resolve_right fun hright => hcalled hright.1
          refine ⟨h.coherent, quiet_append_note h.quiet ?_, ?_⟩
          · intro q hnote hdel
            split at hnote
            · cases hnote
              exact hnot p hdel (mem_refs_of_head hlist hp)
            · cases hnote
          · intro q hdel
            rcases deleted_append_note hdel with hnote | ⟨hold, -⟩
            · split at hnote <;> cases hnote
            · exact .inl (hnot q hold)
  | finish appOk =>
      simp only [delStep] at hstep
      split at hstep
      · obtain ⟨m, hfin, rfl⟩ := Option.map_eq_some_iff.mp hstep
        refine ⟨h.coherent.of_finishExpd hfin, h.quiet, fun p hdel => .inl ?_⟩
        rcases h.silenced p hdel with hnot | ⟨-, x, rest, hx, hp⟩
        · exact fun hp => hnot ((keeps_finishExpd hfin).refs p hp)
        · exact h.coherent.not_mem_refs_finishExpd hx hp hfin
      · cases hstep

theorem accounted_init : Accounted initDel where
  coherent := coherent_init
  quiet _ := Ledger.throughout_nil
  silenced _ hdel := absurd hdel Ledger.not_outstanding_nil

/-- If no timer is deleted while a call of its handler is due, no handler of a deleted
timer is called. -/
theorem quiet_of_run (b : Build) (ops : List DelOp) (s : DelSys)
    (hok : PartialSteps.Meets (delStep b) DeletesInTime initDel ops)
    (hrun : PartialSteps.run (delStep b) initDel ops = some s) : Quiet s.log :=
  (PartialSteps.run_invariant (delStep b) (fun _ _ _ h hk hs => h.of_step hk hs) accounted_init
    hok hrun).quiet

instance (s : DelSys) : ∀ op, Decidable (DeletesInTime s op)
  | .call (.delTimer p) => inferInstanceAs (Decidable (∀ x ∈ s.waiting, x.timer ≠ some p))
  | .call (.modTimer (some p) secs appOk) =>
      match h : s.mem.timers p with
      | none => isTrue fun t ht => by
          rw [h] at ht
          cases ht
      | some t => decidable_of_iff (t.isRunning = false ∧ ∀ x ∈ s.mem.expdTmrs, x.timer ≠ some p)
          ⟨fun hidle t' ht' => by
            rw [h] at ht'
            cases ht'
            exact hidle, fun hidle => hidle t h⟩
  | .call (.modTimer none ..) | .call (.startTimer ..) | .call (.setupTimer ..)
  | .call (.timerRestart ..) | .call (.stopTimer _) => isTrue trivial
  | .tick | .bottomHalf | .invoke | .finish _ => isTrue trivial

/-- One timer is deleted while it runs, the other, which `mod_timer` has armed, by its own
handler. -/
def deletesInTime : List DelOp :=
  [.call (.startTimer 2 0 (some 5) 0 true true), .call (.setupTimer (some 6) 0 true),
    .call (.delTimer 0), .call (.modTimer (some 1) 42949673 true), .tick, .tick, .tick, .tick,
    .bottomHalf, .invoke, .call (.delTimer 1), .finish true]

theorem quiet_deletesInTime :
    ∃ s, PartialSteps.run (delStep .normal) initDel deletesInTime = some s ∧
      s.log = [.armed 0, .deleted 0, .armed 1, .called 1, .deleted 1] ∧ Quiet s.log := by
  have hok : PartialSteps.Meets (delStep .normal) DeletesInTime initDel deletesInTime := by
    decide +kernel
  have hfacts : (PartialSteps.run (delStep .normal) initDel deletesInTime).map DelSys.log =
      some [.armed 0, .deleted 0, .armed 1, .called 1, .deleted 1] := by
    decide +kernel
  obtain ⟨s, hrun, hlog⟩ := Option.map_eq_some_iff.mp hfacts
  exact ⟨s, hrun, hlog, quiet_of_run .normal deletesInTime s hok hrun⟩

/-- The timer is deleted between its expiry and the bottom half. -/
def deletesExpired : List DelOp :=
  [.call (.startTimer 1 0 (some 5) 0 true true), .tick, .call (.delTimer 0), .bottomHalf, .invoke]

theorem not_quiet_deletesExpired :
    ∃ s, PartialSteps.run (delStep .normal) initDel deletesExpired = some s ∧
      s.log = [.armed 0, .deleted 0, .called 0] ∧ ¬ Quiet s.log := by
  have hfacts : (PartialSteps.run (delStep .normal) initDel deletesExpired).map DelSys.log =
      some [.armed 0, .deleted 0, .called 0] := by
    decide +kernel
  obtain ⟨s, hrun, hlog⟩ := Option.map_eq_some_iff.mp hfacts
  refine ⟨s, hrun, hlog, fun hquiet => ?_⟩
  apply hquiet 0 [.armed 0, .deleted 0] (.called 0) [] hlog rfl
  exact ⟨[.armed 0], .deleted 0, [], rfl, rfl, nofun⟩

end Timers
end TmULThreads
