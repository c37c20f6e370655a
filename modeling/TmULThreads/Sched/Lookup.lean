import TmULThreads.Sched.Counters
import TmULThreads.Sched.Exit
import TmULThreads.Sched.Frame
import TmULThreads.Sched.Placement

/-!
# Finding a task

`find_task` looks for a task in the lists of the descriptors, on the wait queue and, if
`rq.nrp` is not zero, on the run queues.  It does not look at the lists of the locks, and
it cannot find the task of the program before that has been linked for the first time.

`findsAll_iff` states that these three are the only tasks it misses, in every state that
the scheduler reaches.  `searchable_of_run` gives the runs that stay clear of them: those
in which the program's task has waited, no lock is contended, and no task waits for a
descriptor that is not on a run queue.
-/

namespace TmULThreads
namespace Sched

/-- `find_task` finds the tasks other than the idle one, so that events and cancellations
reach them, and finds nothing else. -/
structure FindsAll (s : SchedState) : Prop where
  finds : ∀ t ∈ s.live, t ≠ s.idle → findTask s t = some t
  rejects : ∀ t, t ∉ s.live → findTask s t = none
  posts : ∀ t ∈ s.live, t ≠ s.idle → ∀ event now,
    ((postEvent s t event now).tsk t).event = (s.tsk t).event ||| event
  kills : ∀ t ∈ s.live, t ≠ s.idle → killTask s t = (taskExit s t, 0)

/-- All tasks are where `find_task` looks. -/
structure Searchable (s : SchedState) : Prop where
  main : ¬ Stray s
  locks : ∀ l t, t ∉ s.hd (.lock l)
  counter : s.nrp = 0 → ∀ k t, t ∉ s.hd (.rq k)

theorem findTask_eq_some_iff {s : SchedState} {t : TaskId} :
    findTask s t = some t ↔
      (∃ fd, t ∈ s.hd (.io fd)) ∨ t ∈ s.hd .wq ∨ (s.nrp ≠ 0 ∧ ∃ k, t ∈ s.hd (.rq k)) := by
  unfold findTask
  simp only [Bool.or_eq_true, Bool.and_eq_true, List.any_eq_true, decide_eq_true_eq,
    List.mem_finRange, true_and, ite_eq_left_iff, reduceCtorEq, imp_false, not_not, or_assoc]

/-- A task that is linked is found exactly if `find_task` looks at its list. -/
theorem Queued.findTask_iff {s : SchedState} (hq : Queued s) {t : TaskId} {h : Head}
    (hmem : t ∈ s.hd h) :
    findTask s t = some t ↔ (∀ l, h ≠ .lock l) ∧ (s.nrp = 0 → h.isRq = false) := by
  -- the other lists do not hold the task
  have honly {h' : Head} (hmem' : t ∈ s.hd h') : h' = h := hq.unique t h' h hmem' hmem
  rw [findTask_eq_some_iff]
  constructor
  · rintro (⟨fd, hio⟩ | hwq | ⟨hnrp, k, hrq⟩)
    · rw [← honly hio]
      exact ⟨nofun, fun _ => rfl⟩
    · rw [← honly hwq]
      exact ⟨nofun, fun _ => rfl⟩
    · rw [← honly hrq]
      exact ⟨nofun, fun hzero => absurd hzero hnrp⟩
  · rintro ⟨hlock, hrq⟩
    cases h with
    | rq k =>
        refine .inr (.inr ⟨fun hzero => ?_, k, hmem⟩)
        cases hrq hzero
    | wq => exact .inr (.inl hmem)
    | io fd => exact .inl ⟨fd, hmem⟩
    | lock l => exact absurd rfl (hlock l)

theorem Regular.finds_iff_searchable {s : SchedState} (hr : Regular s) :
    FindsAll s ↔ Searchable s := by
  constructor
  · intro hall
    have hfinds {t : TaskId} {h : Head} (hmem : t ∈ s.hd h) :=
      (hr.toQueued.findTask_iff hmem).mp
        (hall.finds t (hr.member h t hmem).1 (hr.member h t hmem).2.1)
    refine ⟨fun hstray => ?_, fun l t hmem => ?_, fun hzero k t hmem => ?_⟩
    · obtain ⟨-, h, hmem⟩ := findTask_eq_some (hall.finds s.parent hr.parent_live hr.idle_ne.symm)
      exact hstray h hmem
    · exact (hfinds hmem).1 l rfl
    · cases (hfinds hmem).2 hzero
  · intro hs
    have hfinds (t : TaskId) (hlive : t ∈ s.live) (hidle : t ≠ s.idle) : findTask s t = some t := by
      obtain ⟨h, hmem⟩ := hr.linked_of_not_stray hlive hidle fun _ => hs.main
      refine (hr.toQueued.findTask_iff hmem).mpr ⟨?_, fun hzero => ?_⟩
      · rintro l rfl
        exact hs.locks l t hmem
      · cases h with
        | rq k => exact absurd hmem (hs.counter hzero k t)
        | wq => rfl
        | io fd => rfl
        | lock l => rfl
    refine ⟨hfinds, fun t hlive => ?_, fun t hlive hidle event now => ?_, fun t hlive hidle => ?_⟩
    · cases hfind : findTask s t with
      | none => rfl
      | some p =>
          obtain ⟨-, h, hmem⟩ := findTask_eq_some hfind
          exact absurd (hr.member h t hmem).1 hlive
    · rw [event_postEvent event now (hfinds t hlive hidle), if_pos rfl]
    · rw [killTask, hfinds t hlive hidle]

/-- In every state that is reached, `find_task` finds every task if and only if none is
where it does not look. -/
theorem findsAll_iff (now : Int) (ops : List Op) (s : SchedState)
    (hrun : PartialSteps.run schedStep (tmlibInit now) ops = some s) :
    FindsAll s ↔ Searchable s :=
  (regular_of_run hrun).finds_iff_searchable

/-! ## Runs in which all tasks are found -/

/-- No task waits for a lock. -/
def LocksEmpty (s : SchedState) : Prop := ∀ l t, t ∉ s.hd (.lock l)

theorem LocksEmpty.of_quiet {s s' : SchedState} (h : LocksEmpty s) (hq : Quiet s s') :
    LocksEmpty s' := by
  intro l t hmem
  rw [hq.hd] at hmem
  exact h l t hmem

theorem LocksEmpty.of_moved {s s' : SchedState} {p : TaskId} {hd : Head} (h : LocksEmpty s)
    (hm : Moved p hd s s') (hhd : ∀ l, hd ≠ .lock l) : LocksEmpty s' := by
  intro l t hmem
  rcases (hm.mem_iff t _).mp hmem with ⟨-, heq⟩ | ⟨-, hold⟩
  · exact hhd l heq.symm
  · exact h l t hold

theorem LocksEmpty.of_woken {s s' : SchedState} {p : TaskId} (h : LocksEmpty s)
    (hw : Woken p s s') : LocksEmpty s' := by
  rcases hw.change with ⟨-, hquiet, -⟩ | ⟨-, hmoved, -⟩
  · exact h.of_quiet hquiet
  · exact h.of_moved hmoved nofun

theorem LocksEmpty.of_effect {s s' : SchedState} {op : Op} (h : LocksEmpty s) (hok : Tallied s op)
    (he : Effect s op s') : LocksEmpty s' := by
  cases he with
  | untouched _ hu => exact h.of_quiet hu.toQuiet
  | waited hop _ hw _ _ _ hhead =>
      refine h.of_moved hw.moved fun l hl => ?_
      -- a wait in the list of a lock is a `lock` that found it taken
      obtain rfl := hhead l hl
      exact hop hok
  | woken _ _ hw => exact h.of_woken hw
  | wakes _ hmid hw =>
      exact hw.preserves (fun _ _ _ _ _ hwoken hu => hu.of_woken hwoken) (h.of_quiet hmid.toQuiet)
  | joined _ hj =>
      intro l t hmem
      rcases (hj.spawned.mem_iff t _).mp hmem with ⟨-, heq⟩ | hold
      · cases heq
      · exact h l t hold
  | switched hs =>
      rcases hs.change with hquiet | ⟨-, hmoved⟩
      · exact h.of_quiet hquiet
      · exact h.of_moved hmoved nofun

/-- If the counter is exact, it is not zero while a run queue holds a task. -/
theorem Regular.nrp_ne_zero {s : SchedState} (hr : Regular s) (hc : Counted s) {k : Fin maxPrio}
    {t : TaskId} (hmem : t ∈ s.hd (.rq k)) : s.nrp ≠ 0 := by
  obtain ⟨hlive, hidle, honrq⟩ := hr.member _ t hmem
  have hpos : 0 < runnable s := by
    refine List.countP_pos_iff.mpr ⟨t, hlive, ?_⟩
    simp only [hidle, honrq, Head.isRq, ne_eq, not_false_eq_true, decide_true, Bool.and_self]
  rw [hc.1]
  omega

/-- Once the program's task has waited, all tasks can be found as long as no lock is
contended and the counters are kept. -/
theorem searchable_of_run {now : Int} {ops : List Op} {s : SchedState}
    (hrun : PartialSteps.run schedStep (tmlibInit now) ops = some s)
    (hok : PartialSteps.Meets schedStep Tallied (tmlibInit now) ops)
    (hmain : ¬ PartialSteps.Meets schedStep (fun s op => ¬ MainWaits s op) (tmlibInit now) ops) :
    Searchable s := by
  have hr := regular_of_run hrun
  have hstray := PartialSteps.run_iff_meets schedStep (I := Regular) (P := Stray)
    (fun m op m' hm _ hstep =>
      ⟨hm.of_step hstep, stray_of_effect hm (effect_of_step hm.toQueued hstep)⟩)
    (regular_tmlibInit now) (PartialSteps.meets_trivial schedStep _ ops) hrun
  have hlocks : Regular s ∧ LocksEmpty s := by
    refine PartialSteps.run_invariant schedStep (I := fun m => Regular m ∧ LocksEmpty m) ?_
      ⟨regular_tmlibInit now, fun l t hmem => ?_⟩ hok hrun
    · rintro m op m' ⟨hm, hempty⟩ htallied hstep
      exact ⟨hm.of_step hstep, hempty.of_effect htallied (effect_of_step hm.toQueued hstep)⟩
    · cases (mem_tmlibInit_hd.mp hmem).1
  refine ⟨fun hs => hmain (hstray.mp hs).2, hlocks.2, fun hzero k t hmem => ?_⟩
  exact hr.nrp_ne_zero ((counted_iff hrun).mpr hok) hmem hzero

/-- The program's task waits, and so does another one, for a descriptor. -/
theorem findsAll_waiting :
    ∃ s, PartialSteps.run schedStep (tmlibInit 0)
        [.spawn 0 true true 0, .addToWaitQ 0, .schedule 0, .waitOnFd 3, .schedule 0] = some s ∧
      FindsAll s := by
  obtain ⟨s, hs⟩ : ∃ s, PartialSteps.run schedStep (tmlibInit 0)
      [.spawn 0 true true 0, .addToWaitQ 0, .schedule 0, .waitOnFd 3, .schedule 0] = some s :=
    Option.isSome_iff_exists.mp (by decide +kernel)
  refine ⟨s, hs, (findsAll_iff 0 _ s hs).mpr (searchable_of_run hs (by decide +kernel) ?_)⟩
  intro hnever
  obtain ⟨mid, hspawn, hrest⟩ := (PartialSteps.run_cons _).mp hs
  have hfacts : (schedStep (tmlibInit 0) (.spawn 0 true true 0)).map
      (fun s => (s.current, s.parent, (s.tsk s.current).onrq)) = some (1, 1, true) := by
    decide +kernel
  rw [hspawn, Option.map_some, Option.some.injEq, Prod.mk.injEq, Prod.mk.injEq] at hfacts
  obtain ⟨hcur, hpar, honrq⟩ := hfacts
  exact (hnever.2 mid hspawn).1 ⟨hcur.trans hpar.symm, honrq⟩

/-- A task that waits for a lock is not found, and no event can be posted to it. -/
theorem not_findsAll_lock :
    ∃ s, PartialSteps.run schedStep (tmlibInit 0)
        [.lock 0, .spawn 0 true true 0, .schedule 0, .lock 0] = some s ∧
      4 ∈ s.live ∧ 4 ≠ s.idle ∧ 4 ∈ s.hd (.lock 0) ∧ findTask s 4 = none ∧ ¬ FindsAll s := by
  have hfacts : (PartialSteps.run schedStep (tmlibInit 0)
      [.lock 0, .spawn 0 true true 0, .schedule 0, .lock 0]).map
        (fun s => (s.live, s.idle, s.hd (.lock 0), findTask s 4)) =
      some ([1, 2, 3, 4], 2, [4], none) := by
    decide +kernel
  obtain ⟨s, hs, hvals⟩ := Option.map_eq_some_iff.mp hfacts
  simp only [Prod.mk.injEq] at hvals
  obtain ⟨hlive, hidle, hlock, hnone⟩ := hvals
  have hmem : 4 ∈ s.live := by simp [hlive]
  have hne : 4 ≠ s.idle := by simp [hidle]
  refine ⟨s, hs, hmem, hne, by simp [hlock], hnone, fun hall => ?_⟩
  cases hnone.symm.trans (hall.finds 4 hmem hne)

end Sched
end TmULThreads
