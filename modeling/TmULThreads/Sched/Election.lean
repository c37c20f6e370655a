import TmULThreads.Sched.Counters
import TmULThreads.Sched.Placement

/-!
# Which task is elected

`ElectionOk` is what `schedule` needs of the election: there is an elected task,
and it is one that is linked in a run queue, or the idle task if no other task is
runnable.

The election goes by the cached task, then by `nrp`, then by the lists, and each
of them can mislead it.  The cached task may have gone to sleep since, if it was
woken while it was running.  `nrp` may be wrong.  And the task of the program
itself is counted in `nrp` before it is linked anywhere.  `Careful` excludes the
steps that bring these about, and `electionOk_of_careful` shows that then every
election goes well.
-/

namespace TmULThreads
namespace Sched

def InRq (s : SchedState) (t : TaskId) : Prop := ∃ k, t ∈ s.hd (.rq k)

def ElectionOk (s : SchedState) : Prop :=
  ∃ e, (getNextEligibleTaskToRun s).2 = some e ∧
    (((s.tsk e).onrq = true ∧ InRq s e) ∨
      (e = s.idle ∧ ∀ t ∈ s.live, t ≠ s.idle → (s.tsk t).onrq = false))

/-- If the task of the program is linked nowhere, then it is the current one or
there is another task to run. -/
def Relieved (s : SchedState) : Prop :=
  Stray s → s.current = s.parent ∨ ∃ t, t ≠ s.current ∧ InRq s t

/-- The steps that do not mislead the election: the counters are kept exact, a
task does not wait while it is the cached one or the only one to run, and nothing
wakes the task of the program before it has waited. -/
structure Careful (s : SchedState) (op : Op) : Prop where
  tallied : Tallied s op
  waits : Waits s op → s.nxtImmTask ≠ some s.current ∧ Relieved s
  wakes : ∀ p now, op = .wakeup p now → p = s.parent → ¬ Stray s

structure Ready (s : SchedState) : Prop extends Regular s where
  counted : Counted s
  cache_inRq : ∀ c, s.nxtImmTask = some c → InRq s c
  manned : Stray s → ∃ t, InRq s t

/-! ## Run queues along the steps -/

theorem InRq.onrq {s : SchedState} {t : TaskId} (h : InRq s t) (hq : Queued s) :
    (s.tsk t).onrq = true := by
  obtain ⟨k, hmem⟩ := h
  exact (hq.member _ t hmem).2.2

/-- A runnable task that is linked at all is linked in a run queue. -/
theorem ListsOk.inRq {s : SchedState} (hl : ListsOk s) {t : TaskId} {h : Head} (hmem : t ∈ s.hd h)
    (honrq : (s.tsk t).onrq = true) : InRq s t := by
  have hrq := (hl.member h t hmem).2.2
  rw [honrq] at hrq
  cases h with
  | rq k => exact ⟨k, hmem⟩
  | wq => cases hrq
  | io fd => cases hrq
  | lock l => cases hrq

theorem InRq.of_quiet {s s' : SchedState} {t : TaskId} (h : InRq s t) (hq : Quiet s s') :
    InRq s' t := by
  unfold InRq
  rw [hq.hd]
  exact h

theorem InRq.of_moved {s s' : SchedState} {t p : TaskId} {hd : Head} (h : InRq s t)
    (hm : Moved p hd s s') (hne : t ≠ p) : InRq s' t := by
  obtain ⟨k, hmem⟩ := h
  exact ⟨k, (hm.mem_iff t _).mpr (.inr ⟨hne, hmem⟩)⟩

theorem Moved.inRq_self {s s' : SchedState} {p : TaskId} {k : Fin maxPrio}
    (hm : Moved p (.rq k) s s') : InRq s' p :=
  ⟨k, (hm.mem_iff p _).mpr (.inl ⟨rfl, rfl⟩)⟩

theorem InRq.of_moved_rq {s s' : SchedState} {t p : TaskId} {k : Fin maxPrio} (h : InRq s t)
    (hm : Moved p (.rq k) s s') : InRq s' t := by
  by_cases hne : t = p
  · rw [hne]
    exact hm.inRq_self
  · exact h.of_moved hm hne

theorem InRq.of_joined {s s' : SchedState} {t p : TaskId} {k : Fin maxPrio} (h : InRq s t)
    (hj : Joined p k s s') : InRq s' t := by
  obtain ⟨k', hmem⟩ := h
  exact ⟨k', (hj.spawned.mem_iff t _).mpr (.inr hmem)⟩

theorem InRq.of_woken {s s' : SchedState} {t p : TaskId} (h : InRq s t) (hw : Woken p s s') :
    InRq s' t := by
  rcases hw.change with ⟨-, hquiet, -⟩ | ⟨-, hmoved, -⟩
  · exact h.of_quiet hquiet
  · exact h.of_moved_rq hmoved

/-- A task that is linked is in a run queue after it has been woken. -/
theorem Woken.inRq {s s' : SchedState} {p : TaskId} {h : Head} (hq : Queued s)
    (hw : Woken p s s') (hmem : p ∈ s.hd h) : InRq s' p := by
  rcases hw.change with ⟨honrq, hquiet, -⟩ | ⟨-, hmoved, -⟩
  · exact (hq.listsOk.inRq hmem honrq).of_quiet hquiet
  · exact hmoved.inRq_self

theorem InRq.of_switched {s s' : SchedState} {t e : TaskId} (h : InRq s t)
    (hs : Switched e s s') : InRq s' t := by
  rcases hs.change with hquiet | ⟨-, hmoved⟩
  · exact h.of_quiet hquiet
  · exact h.of_moved_rq hmoved

/-- Only a wait takes a task off the run queues, and only the current one. -/
theorem InRq.of_effect {s s' : SchedState} {op : Op} {t : TaskId} (h : InRq s t)
    (he : Effect s op s') (hstay : Waits s op → t ≠ s.current) : InRq s' t := by
  cases he with
  | untouched _ hu => exact h.of_quiet hu.toQuiet
  | waited hop _ hw => exact h.of_moved hw.moved (hstay hop)
  | woken _ _ hw => exact h.of_woken hw
  | wakes _ hmid hw =>
      exact hw.preserves (J := fun u => InRq u t) (fun _ _ _ _ _ hwoken hu => hu.of_woken hwoken)
        (h.of_quiet hmid.toQuiet)
  | joined _ hj => exact h.of_joined hj
  | switched hs => exact h.of_switched hs

theorem Moved.mem_of_not_rq {p t : TaskId} {k : Fin maxPrio} {hd : Head} {s s' : SchedState}
    (hm : Moved p (.rq k) s s') (hrq : hd.isRq = false) (hmem : t ∈ s'.hd hd) : t ∈ s.hd hd := by
  rcases (hm.mem_iff t hd).mp hmem with ⟨-, heq⟩ | ⟨-, hold⟩
  · rw [heq] at hrq
    cases hrq
  · exact hold

theorem Woken.mem_of_not_rq {p t : TaskId} {hd : Head} {s s' : SchedState} (hw : Woken p s s')
    (hrq : hd.isRq = false) (hmem : t ∈ s'.hd hd) : t ∈ s.hd hd := by
  rcases hw.change with ⟨-, hquiet, -⟩ | ⟨-, hmoved, -⟩
  · exact hquiet.hd ▸ hmem
  · exact hmoved.mem_of_not_rq hrq hmem

/-- A task that has been woken is on no list but a run queue. -/
theorem Woken.not_mem {p : TaskId} {hd : Head} {s s' : SchedState} (hw : Woken p s s')
    (hq : Queued s) (hrq : hd.isRq = false) : p ∉ s'.hd hd := by
  intro hmem
  rcases hw.change with ⟨honrq, -⟩ | ⟨-, hmoved, -⟩
  · have hoff := (hq.member hd p (hw.mem_of_not_rq hrq hmem)).2.2
    rw [honrq, hrq] at hoff
    cases hoff
  · rcases (hmoved.mem_iff p hd).mp hmem with ⟨-, heq⟩ | ⟨hne, -⟩
    · rw [heq] at hrq
      cases hrq
    · exact hne rfl

/-- Only a wait puts a task on a list that is not a run queue, and only the current
one. -/
theorem Effect.mem_of_not_rq {s s' : SchedState} {op : Op} (he : Effect s op s') {t : TaskId}
    {hd : Head} (hrq : hd.isRq = false) (hmem : t ∈ s'.hd hd) :
    t ∈ s.hd hd ∨ (Waits s op ∧ t = s.current ∧ ∀ l, hd = .lock l → op = .lock l) := by
  cases he with
  | untouched _ hu => exact .inl (hu.hd ▸ hmem)
  | waited hop _ hw _ _ _ hhead =>
      rcases (hw.moved.mem_iff t hd).mp hmem with ⟨rfl, rfl⟩ | ⟨-, hold⟩
      · exact .inr ⟨hop, rfl, hhead⟩
      · exact .inl hold
  | woken _ _ hw => exact .inl (hw.mem_of_not_rq hrq hmem)
  | @wakes _ mid _ _ hmid hw =>
      have hback : t ∈ s'.hd hd → t ∈ mid.hd hd :=
        hw.preserves (J := fun u => t ∈ u.hd hd → t ∈ mid.hd hd)
          (fun _ _ _ _ _ hwoken hu ht => hu (hwoken.mem_of_not_rq hrq ht)) id
      exact .inl (hmid.hd ▸ hback hmem)
  | joined _ hj =>
      rcases (hj.spawned.mem_iff t hd).mp hmem with ⟨-, heq⟩ | hold
      · rw [heq] at hrq
        cases hrq
      · exact .inl hold
  | switched hs =>
      rcases hs.change with hquiet | ⟨-, hmoved⟩
      · exact .inl (hquiet.hd ▸ hmem)
      · exact .inl (hmoved.mem_of_not_rq hrq hmem)

theorem Woken.taskid_le {p : TaskId} {s s' : SchedState} (hw : Woken p s s') :
    s.taskid ≤ s'.taskid := by
  rcases hw.change with ⟨-, hquiet, -⟩ | ⟨-, hmoved, -⟩
  · exact hquiet.taskid
  · exact hmoved.taskid

/-- A `tid` is never handed out again. -/
theorem Effect.taskid_le {s s' : SchedState} {op : Op} (he : Effect s op s') :
    s.taskid ≤ s'.taskid := by
  cases he with
  | untouched _ hu => exact hu.taskid
  | waited _ _ hw => exact hw.moved.taskid
  | woken _ _ hw => exact hw.taskid_le
  | @wakes _ mid _ _ hmid hw =>
      exact hmid.taskid.trans (hw.preserves (J := fun u => mid.taskid ≤ u.taskid)
        (fun _ _ _ _ _ hwoken hu => hu.trans hwoken.taskid_le) le_rfl)
  | joined _ hj =>
      have hnew := hj.spawned.taskid
      rw [hj.spawned.fresh] at hnew
      exact (Nat.le_succ _).trans hnew
  | switched hs =>
      rcases hs.change with hquiet | ⟨-, hmoved⟩
      · exact hquiet.taskid
      · exact hmoved.taskid

/-! ## One step -/

/-- A step that takes no task off a run queue. -/
theorem Ready.of_inRq_mono {s s' : SchedState} (h : Ready s) (hreg : Regular s')
    (hcounted : Counted s') (hmono : ∀ t, InRq s t → InRq s' t)
    (hcache : ∀ c, s'.nxtImmTask = some c → s.nxtImmTask = some c ∨ InRq s' c)
    (hstray : Stray s' → Stray s) : Ready s' where
  toRegular := hreg
  counted := hcounted
  cache_inRq := by
    intro c hc
    rcases hcache c hc with hold | hnew
    · exact hmono c (h.cache_inRq c hold)
    · exact hnew
  manned := by
    intro hs'
    obtain ⟨t, ht⟩ := h.manned (hstray hs')
    exact ⟨t, hmono t ht⟩

theorem Counted.of_sameDrift {s s' : SchedState} (h : Counted s) (hd : SameDrift s s') :
    Counted s' := by
  rw [counted_iff_drift] at h ⊢
  rw [hd.1, hd.2]
  exact h

theorem Ready.of_untouched {s s' : SchedState} (h : Ready s) (hu : Untouched s s') : Ready s' :=
  h.of_inRq_mono (h.toRegular.of_untouched hu)
    (h.counted.of_sameDrift (hu.toQuiet.sameDrift hu.nrp hu.nwp))
    (fun _ ht => ht.of_quiet hu.toQuiet) (fun _ hc => .inl (hu.cache ▸ hc)) hu.stray_iff.mp

theorem Ready.of_woken {s s' : SchedState} {p : TaskId} {hd : Head} (h : Ready s)
    (hw : Woken p s s') (hmem : p ∈ s.hd hd) : Ready s' := by
  obtain ⟨hlive, hidle, -⟩ := h.member hd p hmem
  refine h.of_inRq_mono (h.toRegular.of_woken hw hlive hidle)
    (h.counted.of_sameDrift (hw.sameDrift h.toQueued hlive hidle)) (fun _ ht => ht.of_woken hw)
    (fun c hc => ?_) (hw.stray_iff h.toQueued).mp
  rcases hw.cache c hc with rfl | hold
  · exact .inr (hw.inRq h.toQueued hmem)
  · exact .inl hold

theorem Ready.of_waited {s s' : SchedState} {hd : Head} (h : Ready s) (hw : Waited hd s s')
    (hreg : Regular s') (hcounted : Counted s') (hcache : s.nxtImmTask ≠ some s.current)
    (hrelieved : Relieved s) : Ready s' where
  toRegular := hreg
  counted := hcounted
  cache_inRq := by
    intro c hc
    rw [hw.cache] at hc
    have hne : c ≠ s.current := fun heq => hcache (heq ▸ hc)
    exact (h.cache_inRq c hc).of_moved hw.moved hne
  manned := by
    intro hstray
    obtain ⟨hold, hne⟩ := hw.moved.stray_iff.mp hstray
    rcases hrelieved hold with heq | ⟨t, hother, ht⟩
    · exact absurd heq hne
    · exact ⟨t, ht.of_moved hw.moved hother⟩

theorem Ready.of_joined {s s' : SchedState} {p : TaskId} {k : Fin maxPrio} (h : Ready s)
    (hj : Joined p k s s') : Ready s' := by
  refine h.of_inRq_mono (h.toRegular.of_joined hj)
    (h.counted.of_sameDrift (hj.sameDrift h.toQueued)) (fun _ ht => ht.of_joined hj)
    (fun c hc => ?_) (hj.stray_iff h.toQueued).mp
  rcases hj.cache c hc with rfl | hold
  · exact .inr ⟨k, (hj.spawned.mem_iff c _).mpr (.inl ⟨rfl, rfl⟩)⟩
  · exact .inl hold

theorem Ready.of_step {s s' : SchedState} {op : Op} (h : Ready s) (hok : Careful s op)
    (hstep : schedStep s op = some s') : Ready s' := by
  have he := effect_of_step h.toQueued hstep
  have hreg := h.toRegular.of_effect he
  have hcounted : Counted s' := by
    rcases drift_of_effect h.toRegular he with ⟨-, hsame⟩ | ⟨hbad, -⟩
    · exact h.counted.of_sameDrift hsame
    · exact absurd hok.tallied hbad
  cases he with
  | untouched _ hu => exact h.of_untouched hu
  | waited hop _ hw =>
      obtain ⟨hcache, hrelieved⟩ := hok.waits hop
      exact h.of_waited hw hreg hcounted hcache hrelieved
  | @woken p now _ hlive hidle hw =>
      obtain ⟨hd, hmem⟩ := h.linked_of_not_stray hlive hidle (hok.wakes p now rfl)
      exact h.of_woken hw hmem
  | wakes _ hmid hw =>
      exact hw.preserves (fun _ _ _ _ hmem hwoken hu => hu.of_woken hwoken hmem) (h.of_untouched hmid)
  | joined _ hj => exact h.of_joined hj
  | switched hs =>
      exact h.of_inRq_mono hreg hcounted (fun _ ht => ht.of_switched hs)
        (fun c hc => .inl (hs.cache c hc)) hs.stray_iff.mp

/-! ## Elections -/

/-- With exact counters, a count other than zero means that a run queue is not
empty. -/
theorem Ready.exists_inRq {s : SchedState} (h : Ready s) (hnrp : s.nrp ≠ 0) : ∃ t, InRq s t := by
  by_cases hstray : Stray s
  · exact h.manned hstray
  · have hpos : 0 < runnable s := by
      have hexact := h.counted.1
      omega
    obtain ⟨t, hlive, ht⟩ := List.countP_pos_iff.mp hpos
    simp only [Bool.and_eq_true, decide_eq_true_eq] at ht
    obtain ⟨hd, hmem⟩ := h.linked_of_not_stray hlive ht.1 fun _ => hstray
    exact ⟨t, h.toQueued.listsOk.inRq hmem ht.2⟩

theorem Ready.electionOk {s : SchedState} (h : Ready s) : ElectionOk s := by
  unfold ElectionOk getNextEligibleTaskToRun
  by_cases hnrp : s.nrp = 0
  · rw [if_pos hnrp]
    refine ⟨s.idle, rfl, .inr ⟨rfl, fun t hlive hidle => ?_⟩⟩
    have hzero : runnable s = 0 := by
      have hexact := h.counted.1
      omega
    have ht := List.countP_eq_zero.mp hzero t hlive
    simpa [hidle] using ht
  · rw [if_neg hnrp]
    cases hcache : s.nxtImmTask with
    | some c =>
        have hc := h.cache_inRq c hcache
        exact ⟨c, rfl, .inl ⟨hc.onrq h.toQueued, hc⟩⟩
    | none =>
        obtain ⟨t, k, hmem⟩ := h.exists_inRq hnrp
        obtain ⟨p, hp⟩ := Option.isSome_iff_exists.mp (firstReady_isSome hmem)
        have hpRq : InRq s p := firstReady_mem hp
        refine ⟨p, ?_, .inl ⟨hpRq.onrq h.toQueued, hpRq⟩⟩
        simp only [nextTaskReadyToRun, if_neg hnrp, hp]

theorem ready_tmlibInit (now : Int) : Ready (tmlibInit now) where
  toRegular := regular_tmlibInit now
  counted := counted_tmlibInit now
  cache_inRq := by
    intro c hc
    obtain rfl : 3 = c := by simpa using hc
    exact ⟨1, mem_tmlibInit_hd.mpr ⟨rfl, rfl⟩⟩
  manned := fun _ => ⟨3, 1, mem_tmlibInit_hd.mpr ⟨rfl, rfl⟩⟩

theorem electionOk_of_careful {now : Int} {ops : List Op} {s : SchedState}
    (hrun : PartialSteps.run schedStep (tmlibInit now) ops = some s)
    (hcareful : PartialSteps.Meets schedStep Careful (tmlibInit now) ops) : ElectionOk s := by
  have hready : Ready s := PartialSteps.run_invariant schedStep
    (fun _ _ _ hs hok hstep => hs.of_step hok hstep) (ready_tmlibInit now) hcareful hrun
  exact hready.electionOk

/-- The program waits, with the task of the soft interrupts ready to take over. -/
theorem electionOk_after_sleep :
    ∃ s, PartialSteps.run schedStep (tmlibInit 0) [.addToWaitQ 0, .schedule 0] = some s ∧
      PartialSteps.Meets schedStep Careful (tmlibInit 0) [.addToWaitQ 0, .schedule 0] ∧
        ElectionOk s := by
  obtain ⟨s, hs⟩ : ∃ s, PartialSteps.run schedStep (tmlibInit 0) [.addToWaitQ 0, .schedule 0] =
      some s := Option.isSome_iff_exists.mp (by decide +kernel)
  have hcareful : PartialSteps.Meets schedStep Careful (tmlibInit 0)
      [.addToWaitQ 0, .schedule 0] := by
    refine ⟨⟨trivial, fun _ => ⟨by simp, fun _ => .inl (by simp)⟩, nofun⟩, fun s' _ => ?_⟩
    exact ⟨⟨trivial, False.elim, nofun⟩, fun _ _ => trivial⟩
  exact ⟨s, hs, hcareful, electionOk_of_careful hs hcareful⟩

/-- The task of the soft interrupts is woken while it runs, and then waits: it is
elected although it is not on a run queue. -/
theorem sleeper_elected :
    ∃ s, PartialSteps.run schedStep (tmlibInit 0) [.schedule 0, .wakeup 3 0, .addToWaitQ 0] =
        some s ∧ (getNextEligibleTaskToRun s).2 = some 3 ∧ s.current = 3 ∧
      (s.tsk 3).onrq = false ∧ ¬ ElectionOk s := by
  have hrun : (PartialSteps.run schedStep (tmlibInit 0)
      [.schedule 0, .wakeup 3 0, .addToWaitQ 0]).map
        (fun s => ((getNextEligibleTaskToRun s).2, s.current, (s.tsk 3).onrq, s.idle)) =
          some (some 3, 3, false, 2) := by decide +kernel
  obtain ⟨s, hs, hfacts⟩ := Option.map_eq_some_iff.mp hrun
  simp only [Prod.mk.injEq] at hfacts
  obtain ⟨helected, hcur, honrq, hidle⟩ := hfacts
  refine ⟨s, hs, helected, hcur, honrq, ?_⟩
  rintro ⟨e, he, hgood⟩
  obtain rfl : 3 = e := Option.some.inj (helected.symm.trans he)
  rcases hgood with ⟨hon, -⟩ | ⟨heq, -⟩
  · rw [honrq] at hon
    cases hon
  · rw [hidle] at heq
    cases heq

end Sched
end TmULThreads
