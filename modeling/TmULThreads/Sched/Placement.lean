import TmULThreads.Sched.Boot

/-!
# Every task is in the list it belongs to

`QueuesOk` says that a task other than the idle one is linked once, in the run
queue of its priority if `onrq` is set and in a list of waiting tasks otherwise.

There are two ways in which it fails.  The task of the program itself is made
runnable at boot without being linked, so the property does not hold before that
task has waited for the first time.  And `calculate_time_slice` lowers the
priority of a task that has used much of its slice while the task stays in the
queue of its old priority.  `queuesOk_iff` shows that there is no other way: as
long as no elected task is demoted, the property holds from the first wait of the
program's task on, and only from then on.
-/

namespace TmULThreads
namespace Sched

/-- The task is linked once, and that in `h`. -/
def LinkedIn (s : SchedState) (t : TaskId) (h : Head) : Prop :=
  (s.hd h).count t = 1 ∧ ∀ h', h' ≠ h → t ∉ s.hd h'

def QueuesOk (s : SchedState) : Prop :=
  ∀ t ∈ s.live, t ≠ s.idle → ∃ h, LinkedIn s t h ∧
    ((s.tsk t).onrq = true → h = .rq (s.tsk t).prio) ∧
    ((s.tsk t).onrq = false → h.isRq = false)

/-- A `schedule` does not demote the task that it elects. -/
def NoDemotion (s : SchedState) : Op → Prop
  | .schedule _ => ∀ e ∈ (getNextEligibleTaskToRun s).2, KeepsPrio s e
  | _ => True

instance (s : SchedState) : ∀ op, Decidable (NoDemotion s op)
  | .schedule _ => inferInstanceAs (Decidable (∀ e ∈ (getNextEligibleTaskToRun s).2, KeepsPrio s e))
  | .spawn .. | .addToWaitQ .. | .waitOnFd .. | .lock .. | .unlock .. | .wakeup .. | .wakeIo ..
  | .postEvent .. | .tick .. => isTrue trivial

/-- The task of the program itself waits. -/
def MainWaits (s : SchedState) (op : Op) : Prop := s.current = s.parent ∧ Waits s op

/-- The task of the program itself is linked nowhere. -/
def Stray (s : SchedState) : Prop := ∀ h, s.parent ∉ s.hd h

/-! ## Priorities and run queues -/

structure Ranked (s : SchedState) : Prop extends Regular s where
  rank : ∀ k t, t ∈ s.hd (.rq k) → (s.tsk t).prio = k

theorem Ranked.of_quiet {s s' : SchedState} (h : Ranked s) (hreg : Regular s') (hq : Quiet s s')
    (hprio : ∀ t, (s'.tsk t).prio = (s.tsk t).prio) : Ranked s' where
  toRegular := hreg
  rank := by
    intro k t ht
    rw [hq.hd] at ht
    rw [hprio, h.rank k t ht]

theorem Ranked.of_moved {s s' : SchedState} {p : TaskId} {hd : Head} (h : Ranked s)
    (hreg : Regular s') (hm : Moved p hd s s') (hprio : ∀ t, (s'.tsk t).prio = (s.tsk t).prio)
    (hhd : ∀ k, hd = .rq k → (s.tsk p).prio = k) : Ranked s' where
  toRegular := hreg
  rank := by
    intro k t ht
    rw [hprio]
    rcases (hm.mem_iff t (.rq k)).mp ht with ⟨rfl, hk⟩ | ⟨-, hold⟩
    · exact hhd k hk.symm
    · exact h.rank k t hold

/-- The own priority is a good place to be moved to. -/
theorem own_rank {p : TaskId} {s : SchedState} (k : Fin maxPrio)
    (h : Head.rq (s.tsk p).prio = .rq k) : (s.tsk p).prio = k :=
  Head.rq.inj h

theorem Ranked.of_woken {s s' : SchedState} {p : TaskId} (h : Ranked s) (hw : Woken p s s')
    (hlive : p ∈ s.live) (hidle : p ≠ s.idle) : Ranked s' := by
  have hreg := h.toRegular.of_woken hw hlive hidle
  rcases hw.change with ⟨-, hquiet, -⟩ | ⟨-, hmoved, -⟩
  · exact h.of_quiet hreg hquiet hw.prio
  · exact h.of_moved hreg hmoved hw.prio own_rank

theorem Ranked.of_joined {s s' : SchedState} {p : TaskId} {k : Fin maxPrio} (h : Ranked s)
    (hj : Joined p k s s') : Ranked s' where
  toRegular := h.toRegular.of_joined hj
  rank := by
    intro k' t ht
    rcases (hj.spawned.mem_iff t (.rq k')).mp ht with ⟨rfl, hk⟩ | hold
    · rw [hj.prio_self, Head.rq.inj hk]
    · have hne : t ≠ p := hj.spawned.fresh ▸ h.toQueued.listsOk.fresh (h.member _ t hold).1
      rw [hj.prio_other t hne, h.rank k' t hold]

theorem Ranked.of_effect {s s' : SchedState} {op : Op} (h : Ranked s) (he : Effect s op s')
    (hok : NoDemotion s op) : Ranked s' := by
  have hreg := h.toRegular.of_effect he
  cases he with
  | untouched _ hu => exact h.of_quiet hreg hu.toQuiet hu.prio
  | waited _ _ hw =>
      refine h.of_moved hreg hw.moved hw.prio fun k hk => ?_
      have hrq := hw.not_rq
      rw [hk] at hrq
      cases hrq
  | woken hlive hidle hw => exact h.of_woken hw hlive hidle
  | wakes _ hmid hw =>
      refine hw.preserves (fun u u' p hd hmem hwoken hu => ?_)
        (h.of_quiet (h.toRegular.of_untouched hmid) hmid.toQuiet hmid.prio)
      obtain ⟨hlive, hidle, -⟩ := hu.member hd p hmem
      exact hu.of_woken hwoken hlive hidle
  | joined _ hj => exact h.of_joined hj
  | @switched e _ _ hs =>
      have hkeeps : KeepsPrio s e := hok e hs.elected
      rcases hs.change with hquiet | ⟨-, hmoved⟩
      · exact h.of_quiet hreg hquiet (hs.prio hkeeps)
      · exact h.of_moved hreg hmoved (hs.prio hkeeps) own_rank

theorem ranked_tmlibInit (now : Int) : Ranked (tmlibInit now) where
  toRegular := regular_tmlibInit now
  rank := by
    intro k t ht
    obtain ⟨hk, rfl⟩ := mem_tmlibInit_hd.mp ht
    simp [bootTsk, bootTask, Head.rq.inj hk]

/-! ## The task of the program itself -/

theorem Quiet.stray_iff {s s' : SchedState} (hq : Quiet s s') : Stray s' ↔ Stray s := by
  unfold Stray
  rw [hq.parent, hq.hd]

theorem Moved.stray_iff {p : TaskId} {hd : Head} {s s' : SchedState} (hm : Moved p hd s s') :
    Stray s' ↔ Stray s ∧ p ≠ s.parent := by
  unfold Stray
  rw [hm.parent]
  constructor
  · intro hstray
    have hne : s.parent ≠ p := fun heq =>
      hstray hd ((hm.mem_iff _ hd).mpr (.inl ⟨heq, rfl⟩))
    exact ⟨fun h hold => hstray h ((hm.mem_iff _ h).mpr (.inr ⟨hne, hold⟩)), hne.symm⟩
  · rintro ⟨hstray, hne⟩ h hmem
    rcases (hm.mem_iff _ h).mp hmem with ⟨heq, -⟩ | ⟨-, hold⟩
    · exact hne heq.symm
    · exact hstray h hold

/-- A wakeup does not link the task of the program: it is runnable as long as it
is linked nowhere. -/
theorem Woken.stray_iff {p : TaskId} {s s' : SchedState} (hq : Queued s) (hw : Woken p s s') :
    Stray s' ↔ Stray s := by
  rcases hw.change with ⟨-, hquiet, -⟩ | ⟨honrq, hmoved, -⟩
  · exact hquiet.stray_iff
  · rw [hmoved.stray_iff]
    refine and_iff_left_of_imp fun hstray heq => ?_
    have hrun := hq.stray hstray
    rw [← heq, honrq] at hrun
    cases hrun

theorem Joined.stray_iff {p : TaskId} {k : Fin maxPrio} {s s' : SchedState} (hq : Queued s)
    (hj : Joined p k s s') : Stray s' ↔ Stray s := by
  have hs := hj.spawned
  have hne : s.parent ≠ p := hs.fresh ▸ hq.listsOk.fresh hq.parent_live
  unfold Stray
  rw [hs.parent]
  refine forall_congr' fun h => not_congr ?_
  rw [hs.mem_iff]
  exact or_iff_right fun hp => hne hp.1

theorem Switched.stray_iff {e : TaskId} {s s' : SchedState} (hs : Switched e s s') :
    Stray s' ↔ Stray s := by
  rcases hs.change with hquiet | ⟨⟨k, hmem⟩, hmoved⟩
  · exact hquiet.stray_iff
  · rw [hmoved.stray_iff]
    exact and_iff_left_of_imp fun hstray heq => hstray (.rq k) (heq ▸ hmem)

/-- Only a wait of the task of the program itself links it. -/
theorem stray_of_effect {s s' : SchedState} {op : Op} (h : Regular s) (he : Effect s op s') :
    Stray s' ↔ Stray s ∧ ¬ MainWaits s op := by
  have hnot (hop : ¬ Waits s op) : (Stray s ∧ ¬ MainWaits s op) ↔ Stray s :=
    and_iff_left fun hmain => hop hmain.2
  cases he with
  | untouched hop hu => exact hu.stray_iff.trans (hnot hop).symm
  | waited hop _ hw =>
      rw [hw.moved.stray_iff]
      exact and_congr_right fun _ => not_congr (and_iff_left hop).symm
  | woken _ _ hw => exact (hw.stray_iff h.toQueued).trans (hnot id).symm
  | @wakes _ mid _ hop hmid hw =>
      -- along the wakeups the regular state is kept, and with it the reason above
      have hall : Regular s' ∧ (Stray s' ↔ Stray mid) := by
        refine hw.preserves (J := fun u => Regular u ∧ (Stray u ↔ Stray mid))
          (fun u u' p hd hmem hwoken hu => ?_) ⟨h.of_untouched hmid, Iff.rfl⟩
        obtain ⟨hlive, hidle, -⟩ := hu.1.member hd p hmem
        exact ⟨hu.1.of_woken hwoken hlive hidle, (hwoken.stray_iff hu.1.toQueued).trans hu.2⟩
      exact hall.2.trans (hmid.stray_iff.trans (hnot hop).symm)
  | joined hop hj => exact (hj.stray_iff h.toQueued).trans (hnot hop).symm
  | switched hs => exact hs.stray_iff.trans (hnot id).symm

theorem stray_tmlibInit (now : Int) : Stray (tmlibInit now) := by
  intro h hmem
  have hone : (tmlibInit now).parent = 3 := (mem_tmlibInit_hd.mp hmem).2
  simp at hone

/-! ## The property -/

theorem Queued.linkedIn {s : SchedState} (hq : Queued s) {t : TaskId} {h : Head}
    (hmem : t ∈ s.hd h) : LinkedIn s t h :=
  ⟨List.count_eq_one_of_mem (hq.nodup h) hmem, fun h' hne hmem' => hne (hq.unique t h' h hmem' hmem)⟩

/-- A task other than the idle one is linked somewhere, unless it is the task of
the program and that has not waited yet. -/
theorem Queued.linked_of_not_stray {s : SchedState} (hq : Queued s) {t : TaskId}
    (hlive : t ∈ s.live) (hidle : t ≠ s.idle) (hparent : t = s.parent → ¬ Stray s) :
    ∃ h, t ∈ s.hd h := by
  by_cases heq : t = s.parent
  · obtain ⟨h, hmem⟩ := not_forall.mp (hparent heq)
    exact ⟨h, heq ▸ not_not.mp hmem⟩
  · exact hq.linked t hlive hidle heq

theorem Ranked.queuesOk_iff {s : SchedState} (hr : Ranked s) : QueuesOk s ↔ ¬ Stray s := by
  constructor
  · intro hok hstray
    obtain ⟨h, ⟨hone, -⟩, -⟩ := hok s.parent hr.parent_live hr.idle_ne.symm
    have hzero := List.count_eq_zero_of_not_mem (hstray h)
    omega
  · intro hstray t hlive hidle
    obtain ⟨h, hmem⟩ := hr.linked_of_not_stray hlive hidle fun _ => hstray
    have honrq := (hr.member h t hmem).2.2
    refine ⟨h, hr.toQueued.linkedIn hmem, fun hon => ?_, fun hoff => honrq.symm.trans hoff⟩
    rw [hon] at honrq
    cases h with
    | rq k => rw [hr.rank k t hmem]
    | wq => cases honrq
    | io fd => cases honrq
    | lock l => cases honrq

/-- A demotion is seen at once: a runnable task that is demoted stays in the queue
of the priority that it had. -/
theorem not_queuesOk_of_demotion {s s' : SchedState} {e : TaskId} (hr : Ranked s)
    (hs : Switched e s s') (honrq : (s.tsk e).onrq = true) (hdemoted : ¬ KeepsPrio s e) :
    ¬ QueuesOk s' := by
  intro hok
  have hold : (s.tsk e).prio ≠ 19 := fun heq => hdemoted (.inr (.inr (.inr heq)))
  have hreg := hr.toRegular.of_switched hs
  have hlive : e ∈ s'.live := hs.current ▸ hreg.current_live
  have hidle : e ≠ s'.idle := by
    have heq : s'.idle = s.idle := by
      rcases hs.change with hquiet | ⟨-, hmoved⟩
      · exact hquiet.idle
      · exact hmoved.idle
    exact fun h => hdemoted (.inl (h.trans heq))
  obtain ⟨h, ⟨hone, -⟩, hrq, -⟩ := hok e hlive hidle
  have hh : h = .rq 19 := by rw [hrq ((hs.onrq e).trans honrq), hs.demoted hdemoted]
  have hmem : e ∈ s'.hd (.rq 19) := by
    rw [← hh]
    exact List.count_pos_iff.mp (by omega)
  rcases hs.change with hquiet | ⟨-, hmoved⟩
  · rw [hquiet.hd] at hmem
    exact hold (hr.rank 19 e hmem)
  · rcases (hmoved.mem_iff e _).mp hmem with ⟨-, heq⟩ | ⟨hne, -⟩
    · exact hold (Head.rq.inj heq).symm
    · exact hne rfl

theorem queuesOk_iff_mainWaited {now : Int} {ops : List Op} {s : SchedState}
    (hrun : PartialSteps.run schedStep (tmlibInit now) ops = some s)
    (hprio : PartialSteps.Meets schedStep NoDemotion (tmlibInit now) ops) :
    QueuesOk s ↔
      ¬ PartialSteps.Meets schedStep (fun s op => ¬ MainWaits s op) (tmlibInit now) ops := by
  have hkeep (s : SchedState) (op : Op) (s' : SchedState) (hr : Ranked s) (hok : NoDemotion s op)
      (hstep : schedStep s op = some s') : Ranked s' ∧ (Stray s' ↔ Stray s ∧ ¬ MainWaits s op) := by
    have he := effect_of_step hr.toQueued hstep
    exact ⟨hr.of_effect he hok, stray_of_effect hr.toRegular he⟩
  have hranked : Ranked s := PartialSteps.run_invariant schedStep
    (fun s op s' hr hok hstep => (hkeep s op s' hr hok hstep).1) (ranked_tmlibInit now) hprio hrun
  have hstray := PartialSteps.run_iff_meets schedStep hkeep (ranked_tmlibInit now) hprio hrun
  rw [hranked.queuesOk_iff, hstray, and_iff_right (stray_tmlibInit now)]

/-- The program waits, and the task of the soft interrupts takes over. -/
theorem queuesOk_after_first_wait :
    ∃ s, PartialSteps.run schedStep (tmlibInit 0) [.addToWaitQ 0, .schedule 0] = some s ∧
      PartialSteps.Meets schedStep NoDemotion (tmlibInit 0) [.addToWaitQ 0, .schedule 0] ∧
        QueuesOk s := by
  obtain ⟨s, hs⟩ : ∃ s, PartialSteps.run schedStep (tmlibInit 0) [.addToWaitQ 0, .schedule 0] =
      some s := Option.isSome_iff_exists.mp (by decide +kernel)
  have hprio : PartialSteps.Meets schedStep NoDemotion (tmlibInit 0)
      [.addToWaitQ 0, .schedule 0] := by decide +kernel
  refine ⟨s, hs, hprio, (queuesOk_iff_mainWaited hs hprio).mpr fun hnever => ?_⟩
  refine hnever.1 ⟨by simp, ?_⟩
  simp [Waits, bootTsk, bootTask]

/-- Right after boot the program itself is runnable and in no list. -/
theorem queuesOk_fails_at_boot : ¬ QueuesOk (tmlibInit 0) := by
  rw [(ranked_tmlibInit 0).queuesOk_iff, not_not]
  exact stray_tmlibInit 0

end Sched
end TmULThreads
