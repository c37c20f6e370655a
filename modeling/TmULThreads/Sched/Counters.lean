import TmULThreads.Sched.Boot
import Mathlib.Data.List.Count

/-!
# The counters of the run queues and of the wait queue

`rq.nrp` should be the number of runnable tasks other than the idle one, and
`wq.nwp` the number of tasks that wait.  Each operation that moves a task updates
the two by hand.  `lock` does not take the task that it suspends off `nrp`, and
`wait_on_fd` takes a task off `nrp` that may not have been on it.

`counted_iff` says that these are all the ways in which the counters go wrong, and
that they never recover: the counters are exact at the end of a run if and only
if no step of it was one of the two.
-/

namespace TmULThreads
namespace Sched

def runnable (s : SchedState) : Nat := s.live.countP fun t => t ≠ s.idle && (s.tsk t).onrq

def waiting (s : SchedState) : Nat := s.live.countP fun t => !(s.tsk t).onrq

def Counted (s : SchedState) : Prop := s.nrp = runnable s ∧ s.nwp = waiting s

instance (s : SchedState) : Decidable (Counted s) := inferInstanceAs (Decidable (_ ∧ _))

/-- How far the counters are off. -/
def runDrift (s : SchedState) : Int := s.nrp - runnable s

def waitDrift (s : SchedState) : Int := s.nwp - waiting s

/-! ## Counting -/

/-- Two predicates that differ at one element of a list without duplicates. -/
theorem countP_add_ite {l : List TaskId} (hnodup : l.Nodup) {p : TaskId} (hp : p ∈ l)
    {f g : TaskId → Bool} (hagree : ∀ t ∈ l, t ≠ p → f t = g t) :
    l.countP f + (if g p then 1 else 0) = l.countP g + if f p then 1 else 0 := by
  have hsplit (q : TaskId → Bool) :
      l.countP q = (l.erase p).countP q + if q p then 1 else 0 := by
    rw [(List.perm_cons_erase hp).countP_eq, List.countP_cons]
  have hrest : (l.erase p).countP f = (l.erase p).countP g := by
    refine List.countP_congr fun t ht => ?_
    have hne : t ≠ p := fun heq => hnodup.not_mem_erase (heq ▸ ht)
    rw [hagree t (List.mem_of_mem_erase ht) hne]
  rw [hsplit f, hsplit g, hrest]
  omega

/-- A boolean as the number that it adds to a count. -/
def bit (b : Bool) : Nat := if b then 1 else 0

theorem Quiet.counts {s s' : SchedState} (hq : Quiet s s') :
    runnable s' = runnable s ∧ waiting s' = waiting s := by
  unfold runnable waiting
  rw [hq.live, hq.idle]
  simp only [hq.onrq, and_self]

theorem Moved.counts {s s' : SchedState} {p : TaskId} {h : Head} (hq : Queued s)
    (hm : Moved p h s s') (hlive : p ∈ s.live) (hidle : p ≠ s.idle) :
    runnable s' + bit (s.tsk p).onrq = runnable s + bit h.isRq ∧
      waiting s' + bit (!(s.tsk p).onrq) = waiting s + bit (!h.isRq) := by
  unfold runnable waiting
  rw [hm.live, hm.idle]
  constructor
  · have hcount := countP_add_ite hq.live_nodup hlive
      (f := fun t => t ≠ s.idle && (s'.tsk t).onrq) (g := fun t => t ≠ s.idle && (s.tsk t).onrq)
      fun t _ hne => by rw [hm.onrq_other t hne]
    simpa [hidle, hm.onrq_self, bit] using hcount
  · have hcount := countP_add_ite hq.live_nodup hlive
      (f := fun t => !(s'.tsk t).onrq) (g := fun t => !(s.tsk t).onrq)
      fun t _ hne => by rw [hm.onrq_other t hne]
    simpa [hm.onrq_self, bit] using hcount

theorem Spawned.counts {s s' : SchedState} {p : TaskId} {k : Fin maxPrio} (hq : Queued s)
    (hs : Spawned p k s s') : runnable s' = runnable s + 1 ∧ waiting s' = waiting s := by
  have hne {t : TaskId} (ht : t ∈ s.live) : t ≠ p := hs.fresh ▸ hq.listsOk.fresh ht
  unfold runnable waiting
  rw [hs.live, hs.idle, List.countP_append, List.countP_append]
  constructor
  · refine congrArg₂ (· + ·) (List.countP_congr fun t ht => ?_) ?_
    · rw [hs.onrq_other t (hne ht)]
    · simp [hs.onrq_self, (hne hq.idle_live).symm]
  · rw [List.countP_congr (q := fun t => !(s.tsk t).onrq) fun t ht => by
      rw [hs.onrq_other t (hne ht)]]
    simp [hs.onrq_self]

/-! ## What a step does to the drift -/

/-- Both counters are off by the same amount as before. -/
def SameDrift (s s' : SchedState) : Prop :=
  runDrift s' = runDrift s ∧ waitDrift s' = waitDrift s

theorem SameDrift.trans {s s' s'' : SchedState} (h : SameDrift s s') (h' : SameDrift s' s'') :
    SameDrift s s'' :=
  ⟨h'.1.trans h.1, h'.2.trans h.2⟩

theorem Quiet.sameDrift {s s' : SchedState} (hq : Quiet s s') (hnrp : s'.nrp = s.nrp)
    (hnwp : s'.nwp = s.nwp) : SameDrift s s' := by
  obtain ⟨hrun, hwait⟩ := hq.counts
  unfold SameDrift runDrift waitDrift
  rw [hrun, hwait, hnrp, hnwp]
  exact ⟨rfl, rfl⟩

theorem Woken.sameDrift {s s' : SchedState} {p : TaskId} (hq : Queued s) (hw : Woken p s s')
    (hlive : p ∈ s.live) (hidle : p ≠ s.idle) : SameDrift s s' := by
  rcases hw.change with ⟨-, hquiet, hnrp, hnwp⟩ | ⟨honrq, hmoved, hnrp, hnwp⟩
  · exact hquiet.sameDrift hnrp hnwp
  · obtain ⟨hrun, hwait⟩ := hmoved.counts hq hlive hidle
    simp only [honrq, bit, Head.isRq, Bool.not_false, Bool.not_true, Bool.false_eq_true, if_true,
      if_false] at hrun hwait
    unfold SameDrift runDrift waitDrift
    omega

theorem Joined.sameDrift {s s' : SchedState} {p : TaskId} {k : Fin maxPrio} (hq : Queued s)
    (hj : Joined p k s s') : SameDrift s s' := by
  obtain ⟨hrun, hwait⟩ := hj.spawned.counts hq
  have hnrp := hj.nrp
  have hnwp := hj.nwp
  unfold SameDrift runDrift waitDrift
  omega

theorem Switched.sameDrift {s s' : SchedState} {e : TaskId} (hq : Queued s)
    (hs : Switched e s s') : SameDrift s s' := by
  rcases hs.change with hquiet | ⟨⟨k, hmem⟩, hmoved⟩
  · exact hquiet.sameDrift hs.nrp hs.nwp
  · -- the elected task was on a run queue and is on one now
    obtain ⟨hlive, hidle, honrq⟩ := hq.member _ e hmem
    obtain ⟨hrun, hwait⟩ := hmoved.counts hq hlive hidle
    rw [honrq] at hrun hwait
    have hnrp := hs.nrp
    have hnwp := hs.nwp
    simp only [Head.isRq] at hrun hwait
    unfold SameDrift runDrift waitDrift
    omega

theorem tallied_of_not_waits {s : SchedState} {op : Op} (h : ¬ Waits s op) : Tallied s op := by
  cases op with
  | waitOnFd fd => exact absurd trivial h
  | lock l => exact not_not.mp h
  | _ => trivial

/-- A step that is not tallied makes the counters drift further. -/
def Drifts (s s' : SchedState) : Prop :=
  (runDrift s' = runDrift s + 1 ∧ waitDrift s' = waitDrift s) ∨
    (runDrift s' = runDrift s ∧ waitDrift s' = waitDrift s + 1) ∨
      (runDrift s' = runDrift s - 1 ∧ waitDrift s' = waitDrift s + 1)

theorem drift_of_effect {s s' : SchedState} {op : Op} (h : Regular s) (he : Effect s op s') :
    (Tallied s op ∧ SameDrift s s') ∨ (¬ Tallied s op ∧ Drifts s s') := by
  cases he with
  | untouched hop hu =>
      exact .inl ⟨tallied_of_not_waits hop, hu.toQuiet.sameDrift hu.nrp hu.nwp⟩
  | waited _ hidle hw hnwp hnrp hdrift =>
      obtain ⟨hrun, hwait⟩ := hw.moved.counts h.toQueued h.current_live hidle
      rw [hw.not_rq] at hrun hwait
      simp only [bit, Bool.not_false, if_true, Bool.false_eq_true, if_false] at hrun hwait
      by_cases hok : Tallied s op
      · left
        obtain ⟨honrq, hminus⟩ := hnrp hok
        simp only [honrq, Bool.not_true, if_true, Bool.false_eq_true, if_false] at hrun hwait
        refine ⟨hok, ?_⟩
        unfold SameDrift runDrift waitDrift
        omega
      · right
        refine ⟨hok, ?_⟩
        unfold Drifts runDrift waitDrift
        rcases hdrift hok with hsame | ⟨hoff, hminus⟩
        · cases honrq : (s.tsk s.current).onrq with
          | true =>
              simp only [honrq, Bool.not_true, if_true, Bool.false_eq_true, if_false] at hrun hwait
              omega
          | false =>
              simp only [honrq, Bool.not_false, if_true, Bool.false_eq_true, if_false] at hrun hwait
              omega
        · simp only [hoff, Bool.not_false, if_true, Bool.false_eq_true, if_false] at hrun hwait
          omega
  | woken hlive hidle hw => exact .inl ⟨trivial, hw.sameDrift h.toQueued hlive hidle⟩
  | @wakes _ mid _ hop hmid hw =>
      have hall : Regular s' ∧ SameDrift mid s' := by
        refine hw.preserves (J := fun u => Regular u ∧ SameDrift mid u)
          (fun u u' p hd hmem hwoken hu => ?_) ⟨h.of_untouched hmid, rfl, rfl⟩
        obtain ⟨hlive, hidle, -⟩ := hu.1.member hd p hmem
        exact ⟨hu.1.of_woken hwoken hlive hidle,
          hu.2.trans (hwoken.sameDrift hu.1.toQueued hlive hidle)⟩
      exact .inl ⟨tallied_of_not_waits hop,
        (hmid.toQuiet.sameDrift hmid.nrp hmid.nwp).trans hall.2⟩
  | joined hop hj => exact .inl ⟨tallied_of_not_waits hop, hj.sameDrift h.toQueued⟩
  | switched hs => exact .inl ⟨trivial, hs.sameDrift h.toQueued⟩

/-! ## Whole runs -/

theorem counted_iff_drift {s : SchedState} : Counted s ↔ runDrift s = 0 ∧ waitDrift s = 0 := by
  unfold Counted runDrift waitDrift
  omega

/-- The drift has a direction, so that it cannot cancel out. -/
structure Forward (s : SchedState) : Prop extends Regular s where
  wait_nonneg : 0 ≤ waitDrift s
  sum_nonneg : 0 ≤ runDrift s + waitDrift s

theorem Forward.of_step {s s' : SchedState} {op : Op} (hf : Forward s)
    (hstep : schedStep s op = some s') : Forward s' ∧ (Counted s' ↔ Counted s ∧ Tallied s op) := by
  have hwait := hf.wait_nonneg
  have hsum := hf.sum_nonneg
  have hreg := hf.toRegular.of_step hstep
  rw [counted_iff_drift, counted_iff_drift]
  rcases drift_of_effect hf.toRegular (effect_of_step hf.toQueued hstep) with
    ⟨hok, hrun', hwait'⟩ | ⟨hbad, hdrift⟩
  · exact ⟨⟨hreg, by omega, by omega⟩, by rw [hrun', hwait']; exact (and_iff_left hok).symm⟩
  · unfold Drifts at hdrift
    refine ⟨⟨hreg, by omega, by omega⟩, ?_⟩
    constructor
    · intro hzero
      omega
    · exact fun h => absurd h.2 hbad

theorem counted_tmlibInit (now : Int) : Counted (tmlibInit now) := by
  unfold Counted runnable waiting
  simp [bootTsk, bootTask]

theorem forward_tmlibInit (now : Int) : Forward (tmlibInit now) := by
  obtain ⟨hrun, hwait⟩ := counted_iff_drift.mp (counted_tmlibInit now)
  exact ⟨regular_tmlibInit now, by omega, by omega⟩

theorem counted_iff {now : Int} {ops : List Op} {s : SchedState}
    (hrun : PartialSteps.run schedStep (tmlibInit now) ops = some s) :
    Counted s ↔ PartialSteps.Meets schedStep Tallied (tmlibInit now) ops := by
  have hiff := PartialSteps.run_iff_meets schedStep (I := Forward)
    (fun _ _ _ hf _ hstep => hf.of_step hstep) (forward_tmlibInit now)
    (PartialSteps.meets_trivial schedStep _ ops) hrun
  rw [hiff, and_iff_right (counted_tmlibInit now)]

/-- The program spawns a task and sleeps; the new task waits for a descriptor and
is woken. -/
theorem counted_after_io_wait :
    ∃ s, PartialSteps.run schedStep (tmlibInit 0)
        [.spawn 0 true true 0, .addToWaitQ 0, .schedule 0, .waitOnFd 3, .wakeIo 3 0] = some s ∧
      Counted s := by
  obtain ⟨s, hs⟩ : ∃ s, PartialSteps.run schedStep (tmlibInit 0)
      [.spawn 0 true true 0, .addToWaitQ 0, .schedule 0, .waitOnFd 3, .wakeIo 3 0] = some s :=
    Option.isSome_iff_exists.mp (by decide +kernel)
  exact ⟨s, hs, (counted_iff hs).mpr (by decide +kernel)⟩

/-- The program takes a lock, and a task of higher priority that it has spawned
asks for the same lock: that task waits, and is still counted as runnable. -/
theorem miscounted_after_contended_lock :
    ∃ s, PartialSteps.run schedStep (tmlibInit 0)
        [.lock 0, .spawn 0 true true 0, .schedule 0, .lock 0] = some s ∧
      s.nrp = 3 ∧ runnable s = 2 ∧ ¬ Counted s := by
  have hrun : (PartialSteps.run schedStep (tmlibInit 0)
      [.lock 0, .spawn 0 true true 0, .schedule 0, .lock 0]).map (fun s => (s.nrp, runnable s)) =
        some (3, 2) := by decide +kernel
  obtain ⟨s, hs, hcounts⟩ := Option.map_eq_some_iff.mp hrun
  obtain ⟨hnrp, hrunnable⟩ := Prod.mk.inj hcounts
  refine ⟨s, hs, hnrp, hrunnable, fun hcounted => ?_⟩
  have hexact := hcounted.1
  omega

end Sched
end TmULThreads
