import TmULThreads.Sched.Cache

/-!
# Taking turns

`next_task_ready_to_run` moves the task that it elects to the end of its run queue, so
that the tasks of one priority should be elected one after the other.  `RoundRobin` is
this for one round: as many calls of `schedule` as the first queue has tasks elect each
of them once, provided that meanwhile no task blocks, wakes or ends.

The task is moved only if it is not the current one.  A current task at the head of its
queue is therefore elected again by every call, and the tasks behind it never are.  A
wakeup leads there, since it links the task at the head and `schedule` takes it from the
cache without moving it.  `roundRobin_iff` states that this is the only exception, apart
from a current task that has ended and from counters that have gone wrong: with `rq.nrp` at
zero the queues are not looked at, and `calculate_time_slice` divides by `task_count` and by
`rq.nrp + 1`.

The condition does not mention priorities: `calculate_time_slice` lowers the `prio` of a
task after the task has been moved, which shows only in its next turn.
-/

namespace TmULThreads
namespace Sched

def isSchedule : ExitOp → Bool
  | .op (.schedule _) => true
  | _ => false

/-- No task blocks, is woken or created, or ends in the step. -/
def Still (s : SchedState) : ExitOp → Prop
  | .op op => ¬ Waits s op ∧ arrivals s op = []
  | .exit e => ended s e = none

instance (s : SchedState) : ∀ i, Decidable (Still s i)
  | .op op => inferInstanceAs (Decidable (¬ Waits s op ∧ arrivals s op = []))
  | .exit e => inferInstanceAs (Decidable (ended s e = none))

/-- A step of a round.  What the tasks do between the calls of `schedule` is defined. -/
def Uneventful (s : SchedState) (i : ExitOp) : Prop :=
  Still s i ∧ (isSchedule i = false → (exitStep s i).isSome)

instance (s : SchedState) (i : ExitOp) : Decidable (Uneventful s i) :=
  inferInstanceAs (Decidable (_ ∧ _))

/-- The task that is current after each call of `schedule`. -/
def elections (s : SchedState) : List ExitOp → Option (List TaskId)
  | [] => some []
  | i :: is => do
      let s ← exitStep s i
      let es ← elections s is
      some (if isSchedule i then s.current :: es else es)

def RoundRobin (s : SchedState) (p : Fin maxPrio) (turns : List ExitOp) : Prop :=
  ∃ es, elections s turns = some es ∧ ∀ t ∈ s.hd (.rq p), es.count t = 1

/-- The current task is not at the head of the queue, unless it is alone there. -/
structure Rotates (s : SchedState) (p : Fin maxPrio) : Prop where
  live : s.current ∈ s.live
  nrp : s.nrp ≠ 0
  head : s.hd (.rq p) = [s.current] ∨
    ((s.hd (.rq p)).head? ≠ some s.current ∧ s.taskCount ≠ 0 ∧ toUInt (s.nrp + 1) ≠ 0)

/-! ## Steps between the calls -/

structure Unmoved (s s' : SchedState) : Prop extends Untouched s s' where
  taskCount : s'.taskCount = s.taskCount

theorem Unmoved.refl (s : SchedState) : Unmoved s s := ⟨Untouched.refl s, rfl⟩

theorem unmoved_spawn {s s' : SchedState} {prio : Int} {tskOk stkOk : Bool} {now : Int}
    (hstep : schedStep s (.spawn prio tskOk stkOk now) = some s')
    (hnone : arrivals s (.spawn prio tskOk stkOk now) = []) : Unmoved s s' := by
  simp only [schedStep] at hstep
  split at hstep
  · rename_i hrange
    cases hstep
    cases hok : tskOk && stkOk with
    | false =>
        obtain ⟨huntouched, hcount⟩ := untouched_spawnTask s _ hok now
        exact ⟨huntouched, hcount⟩
    | true =>
        rw [arrivals, dif_pos hrange, if_pos hok] at hnone
        cases hnone
  · cases hstep

theorem unmoved_of_schedStep {s s' : SchedState} {op : Op} (hstill : Still s (.op op))
    (hother : isSchedule (.op op) = false) (hstep : schedStep s op = some s') : Unmoved s s' := by
  obtain ⟨hwaits, hnone⟩ := hstill
  cases op with
  | spawn prio tskOk stkOk now => exact unmoved_spawn hstep hnone
  | addToWaitQ now =>
      obtain ⟨-, rfl⟩ := schedStep_addToWaitQ hstep
      rcases addTaskToWaitQ_cases s now with ⟨-, heq⟩ | ⟨honrq, -⟩
      · rw [heq]
        exact Unmoved.refl s
      · exact absurd honrq hwaits
  | waitOnFd fd => exact absurd trivial hwaits
  | lock l =>
      obtain ⟨-, rfl⟩ := schedStep_lock hstep
      have hfree : (s.lock l).lock = 0 := not_not.mp hwaits
      refine ⟨untouched_lockPass hfree, ?_⟩
      rw [lockPass, if_neg (not_not.mpr hfree)]
  | unlock l now =>
      rcases unlock_eq_some hstep with ⟨-, rfl⟩ | ⟨howner, ⟨-, rfl⟩ | ⟨p, rest, hcons, -⟩⟩
      · exact Unmoved.refl s'
      · exact ⟨untouched_dropLock s l, rfl⟩
      · simp [arrivals, howner, hcons] at hnone
  | wakeup p now => cases hnone
  | wakeIo fd now =>
      obtain ⟨k, rfl, rfl⟩ := schedStep_wakeIo hstep
      have hempty : s.hd (.io k) = [] := by simpa [arrivals] using hnone
      rw [wakeIoTask, hempty]
      exact Unmoved.refl s
  | postEvent tid event now =>
      cases hstep
      rcases postEvent_cases s tid event now with ⟨-, heq⟩ | ⟨p, hfind, -⟩
      · rw [heq]
        exact Unmoved.refl s
      · simp [arrivals, hfind] at hnone
  | tick now =>
      cases hstep
      refine ⟨untouched_accountTaskTimeStats s now, ?_⟩
      unfold accountTaskTimeStats
      dsimp only
      split <;> rfl
  | schedule now => cases hother

theorem unmoved_of_exitStep {s s' : SchedState} {i : ExitOp} (hstill : Still s i)
    (hother : isSchedule i = false) (hstep : exitStep s i = some s') : Unmoved s s' := by
  cases i with
  | op op => exact unmoved_of_schedStep hstill hother (exitStep_op hstep).2
  | exit e =>
      rw [exit_of_ended_none hstep hstill]
      exact Unmoved.refl s

/-! ## One call -/

theorem exitStep_schedule {s : SchedState} (hlive : s.current ∈ s.live) (now : Int) :
    exitStep s (.op (.schedule now)) = schedule s now :=
  if_pos hlive

theorem calculateTimeSlice_isSome_iff {s : SchedState} {p : TaskId} :
    (calculateTimeSlice s p).isSome ↔
      p = s.idle ∨ p = s.current ∨ (s.taskCount ≠ 0 ∧ toUInt (s.nrp + 1) ≠ 0) := by
  unfold calculateTimeSlice
  by_cases hspecial : p = s.idle ∨ p = s.current
  · rw [if_pos hspecial]
    exact iff_of_true rfl (hspecial.imp id .inl)
  · have hnrp :
        (if isDemoted s p then s.setTsk p { s.tsk p with prio := 19 } else s).nrp = s.nrp := by
      split <;> rfl
    rw [if_neg hspecial, ← or_assoc, or_iff_right hspecial]
    by_cases hcount : s.taskCount = 0
    · simp [hcount]
    · by_cases hdiv : toUInt (s.nrp + 1) = 0
      · simp [hcount, hdiv, shareLoadAcrossSystem, hnrp]
      · simp [hcount, hdiv, shareLoadAcrossSystem, hnrp]

/-- `schedule` fails for want of a task, or because the time slice of the elected one
cannot be computed. -/
theorem schedule_isSome_iff {s first : SchedState} {e : TaskId} (hl : ListsOk s)
    (hnext : getNextEligibleTaskToRun s = (first, some e)) (now : Int) :
    (schedule s now).isSome ↔
      e = s.idle ∨ e = s.current ∨ (s.taskCount ≠ 0 ∧ toUInt (s.nrp + 1) ≠ 0) := by
  have hfirst := elected_getNextEligibleTaskToRun hl hnext
  unfold schedule
  rw [hnext]
  dsimp only [Option.bind_eq_bind, Option.bind_some]
  by_cases hcur : first.current = e
  · have hself : e = s.current := hcur.symm.trans hfirst.current
    rw [if_neg (not_not.mpr hcur)]
    exact iff_of_true rfl (.inr (.inl hself))
  · rw [if_pos hcur, ← hfirst.idle, ← hfirst.current, ← hfirst.nrp, ← hfirst.taskCount]
    have hslice := calculateTimeSlice_isSome_iff (p := e)
      (s := updateStats { first with schedNeed := false } now)
    refine Iff.trans ?_ hslice
    cases calculateTimeSlice (updateStats { first with schedNeed := false } now) e <;> rfl

theorem schedule_taskCount {s s' : SchedState} {now : Int} (hl : ListsOk s)
    (h : schedule s now = some s') : s'.taskCount = s.taskCount := by
  obtain ⟨first, e, hnext, hcases⟩ := schedule_eq_some h
  have hfirst := elected_getNextEligibleTaskToRun hl hnext
  rcases hcases with ⟨-, rfl⟩ | ⟨-, mid, hslice, rfl⟩
  · exact hfirst.taskCount
  · rcases calculateTimeSlice_eq hslice with ⟨rfl, -⟩ | ⟨t, rfl, -⟩
    · exact hfirst.taskCount
    · exact hfirst.taskCount

/-! ## A round -/

/-- The queue of priority `p` is the first one that is not empty, if it is not. -/
structure Lined (p : Fin maxPrio) (l : List TaskId) (s : SchedState) : Prop extends Placed s where
  cache : s.nxtImmTask = none
  top : ∀ q < p, s.hd (.rq q) = []
  queue : s.hd (.rq p) = l
  live : s.current ∈ s.live

variable {p : Fin maxPrio} {a : TaskId} {l : List TaskId} {s s' : SchedState}

theorem Lined.of_unmoved (h : Lined p l s) (hc : Unmoved s s') : Lined p l s' where
  toPlaced := h.toPlaced.of_untouched hc.toUntouched
  cache := hc.cache.trans h.cache
  top := by
    rw [hc.hd]
    exact h.top
  queue := by
    rw [hc.hd]
    exact h.queue
  live := by
    rw [hc.current, hc.live]
    exact h.live

theorem Lined.firstReady_eq (h : Lined p (a :: l) s) : firstReady s = some a := by
  obtain ⟨before, after, hsplit⟩ := List.append_of_mem (List.mem_finRange p)
  refine List.findSome?_eq_some_iff.mpr ⟨before, p, after, hsplit, ?_, fun q hq => ?_⟩
  · rw [h.queue]
    rfl
  · have hsorted := List.pairwise_lt_finRange maxPrio
    rw [hsplit] at hsorted
    have hlt : q < p := (List.pairwise_append.mp hsorted).2.2 q hq p List.mem_cons_self
    rw [h.top q hlt]
    rfl

theorem Lined.next_eq (h : Lined p (a :: l) s) (hnrp : s.nrp ≠ 0) :
    getNextEligibleTaskToRun s =
      (if a ≠ s.current then rmNMoveTaskNewRq s a else s, some a) := by
  rw [getNextEligibleTaskToRun, if_neg hnrp, h.cache]
  dsimp only
  rw [nextTaskReadyToRun, if_neg hnrp, h.firstReady_eq]

theorem Lined.member (h : Lined p (a :: l) s) : a ∈ s.live ∧ a ≠ s.idle := by
  have hmem : a ∈ s.hd (.rq p) := by
    rw [h.queue]
    exact List.mem_cons_self
  obtain ⟨hlive, hidle, -⟩ := h.lists.member _ a hmem
  exact ⟨hlive, hidle⟩

/-- The task at the head leaves the queue or goes to its end. -/
theorem Lined.of_schedule {now : Int} (h : Lined p (a :: l) s) (hnrp : s.nrp ≠ 0)
    (hcur : a ≠ s.current) (hstep : schedule s now = some s') :
    s'.current = a ∧ ∃ last, Lined p (l ++ last) s' := by
  have hnext := h.next_eq hnrp
  rw [if_pos hcur] at hnext
  obtain ⟨first, e, hnext', hhd, hlive, hcache⟩ := schedule_frame hstep
  cases hnext.symm.trans hnext'
  obtain ⟨e, hs⟩ := switched_schedule h.lists hstep
  obtain rfl := hs.eq_of_next hnext
  have hstep' := (exitStep_schedule h.live now).trans hstep
  have hplaced : Placed s' := h.toPlaced.of_exitStep hstep'
  have hsunk : p ≤ (s.tsk a).prio := h.sunk p a (h.queue ▸ List.mem_cons_self)
  have hnodup : a ∉ l := by
    have hall := h.lists.nodup (.rq p)
    rw [h.queue] at hall
    exact (List.nodup_cons.mp hall).1
  have hrest : (s.hd (.rq p)).filter (· ≠ a) = l := by
    rw [h.queue, List.filter_cons_of_neg (by simp)]
    exact List.filter_eq_self.mpr fun t ht => decide_eq_true fun heq => hnodup (heq ▸ ht)
  -- the queue that the task goes to is not before `p`
  have hother (q : Fin maxPrio) (hq : q ≠ (s.tsk a).prio) :
      s'.hd (.rq q) = (s.hd (.rq q)).filter (· ≠ a) := by
    rw [hhd]
    exact Function.update_of_ne (fun heq => hq (Head.rq.inj heq)) ..
  have htop (q : Fin maxPrio) (hq : q < p) : s'.hd (.rq q) = [] := by
    rw [hother q (hq.trans_le hsunk).ne, h.top q hq]
    rfl
  have hlined (last : List TaskId) (hqueue : s'.hd (.rq p) = l ++ last) : Lined p (l ++ last) s' :=
    ⟨hplaced, hcache.trans h.cache, htop, hqueue, by rw [hs.current, hlive]; exact h.member.1⟩
  refine ⟨hs.current, ?_⟩
  by_cases hsame : p = (s.tsk a).prio
  · refine ⟨[a], hlined [a] ?_⟩
    rw [hhd, hsame]
    show Function.update (listDel s a).hd _ _ _ = _
    rw [Function.update_self, ← hsame]
    exact congrArg (· ++ [a]) hrest
  · refine ⟨[], hlined [] ?_⟩
    rw [hother p hsame, hrest, List.append_nil]

theorem elections_cons {i : ExitOp} {is : List ExitOp} (hstep : exitStep s i = some s') :
    elections s (i :: is) =
      (elections s' is).map fun es => if isSchedule i then s'.current :: es else es := by
  rw [elections, hstep, Option.bind_eq_bind, Option.bind_some]
  cases elections s' is <;> rfl

theorem isSchedule_eq_true {i : ExitOp} (h : isSchedule i = true) :
    ∃ now, i = .op (.schedule now) := by
  unfold isSchedule at h
  split at h
  · rename_i now
    exact ⟨now, rfl⟩
  · cases h

/-- If `J l` promises that the next call elects the first task of `l` and leads to `J` of
the others, the calls elect `l`. -/
theorem elections_eq {J : List TaskId → SchedState → Prop}
    (hkeep : ∀ l s s', J l s → Unmoved s s' → J l s')
    (hturn : ∀ a l s now, J (a :: l) s →
      ∃ s', exitStep s (.op (.schedule now)) = some s' ∧ s'.current = a ∧ J l s')
    {turns : List ExitOp} (hturns : PartialSteps.Meets exitStep Uneventful s turns)
    (hlen : turns.countP isSchedule = l.length) (h : J l s) : elections s turns = some l := by
  induction turns generalizing s l with
  | nil =>
      obtain rfl := List.length_eq_zero_iff.mp hlen.symm
      rfl
  | cons i is ih =>
      obtain ⟨⟨hstill, hdefined⟩, hrest⟩ := hturns
      cases hi : isSchedule i with
      | false =>
          obtain ⟨s', hstep⟩ := Option.isSome_iff_exists.mp (hdefined hi)
          rw [List.countP_cons_of_neg (by simp [hi])] at hlen
          have hs' := hkeep l s s' h (unmoved_of_exitStep hstill hi hstep)
          have hes := ih (hrest s' hstep) hlen hs'
          simp [elections_cons hstep, hes, hi]
      | true =>
          obtain ⟨now, rfl⟩ := isSchedule_eq_true hi
          rw [List.countP_cons_of_pos hi] at hlen
          cases l with
          | nil => cases hlen
          | cons a l =>
              obtain ⟨s', hstep, rfl, hs'⟩ := hturn a l s now h
              have hes := ih (hrest s' hstep) (Nat.succ.inj hlen) hs'
              simp [elections_cons hstep, hes, hi]

/-- The first call is never reached, or it is not defined. -/
theorem elections_eq_none {J : SchedState → Prop} (hkeep : ∀ s s', J s → Unmoved s s' → J s')
    (hturn : ∀ s now, J s → exitStep s (.op (.schedule now)) = none)
    {turns : List ExitOp} (hturns : PartialSteps.Meets exitStep Uneventful s turns)
    (hpos : 0 < turns.countP isSchedule) (h : J s) : elections s turns = none := by
  induction turns generalizing s with
  | nil => cases hpos
  | cons i is ih =>
      obtain ⟨⟨hstill, hdefined⟩, hrest⟩ := hturns
      cases hi : isSchedule i with
      | false =>
          obtain ⟨s', hstep⟩ := Option.isSome_iff_exists.mp (hdefined hi)
          rw [List.countP_cons_of_neg (by simp [hi])] at hpos
          have hs' := hkeep s s' h (unmoved_of_exitStep hstill hi hstep)
          have hes := ih (hrest s' hstep) hpos hs'
          rw [elections_cons hstep, hes]
          rfl
      | true =>
          obtain ⟨now, rfl⟩ := isSchedule_eq_true hi
          rw [elections, hturn s now h]
          rfl

/-! ### The head of the queue is not the current task -/

/-- The tasks of `l` have not had their turn yet. -/
structure Turning (p : Fin maxPrio) (l : List TaskId) (s : SchedState) : Prop where
  lined : ∃ last, Lined p (l ++ last) s
  head : l.head? ≠ some s.current
  nrp : s.nrp ≠ 0
  taskCount : s.taskCount ≠ 0
  share : toUInt (s.nrp + 1) ≠ 0

theorem Turning.of_unmoved (h : Turning p l s) (hc : Unmoved s s') : Turning p l s' where
  lined := h.lined.imp fun _ hlast => hlast.of_unmoved hc
  head := hc.current ▸ h.head
  nrp := hc.nrp ▸ h.nrp
  taskCount := hc.taskCount ▸ h.taskCount
  share := hc.nrp ▸ h.share

theorem Turning.turn (h : Turning p (a :: l) s) (now : Int) :
    ∃ s', exitStep s (.op (.schedule now)) = some s' ∧ s'.current = a ∧ Turning p l s' := by
  obtain ⟨last, hlined⟩ := h.lined
  have hcur : a ≠ s.current := fun heq => h.head (congrArg some heq)
  have hdefined := (schedule_isSome_iff hlined.lists (hlined.next_eq h.nrp) now).mpr
    (.inr (.inr ⟨h.taskCount, h.share⟩))
  obtain ⟨s', hstep⟩ := Option.isSome_iff_exists.mp hdefined
  obtain ⟨hcurrent, last', hlined'⟩ := hlined.of_schedule h.nrp hcur hstep
  obtain ⟨e, hs⟩ := switched_schedule hlined.lists hstep
  refine ⟨s', (exitStep_schedule hlined.live now).trans hstep, hcurrent, ?_⟩
  refine ⟨⟨last ++ last', by rw [← List.append_assoc]; exact hlined'⟩, ?_, ?_, ?_, ?_⟩
  · -- the queue has no task twice
    have hnodup := hlined.lists.nodup (.rq p)
    rw [hlined.queue, List.cons_append] at hnodup
    rw [hcurrent]
    intro hhead
    exact (List.nodup_cons.mp hnodup).1 (List.mem_append_left _ (List.mem_of_mem_head? hhead))
  · rw [hs.nrp]
    exact h.nrp
  · rw [schedule_taskCount hlined.lists hstep]
    exact h.taskCount
  · rw [hs.nrp]
    exact h.share

/-! ### The current task stays -/

/-- A call at which the current task is at the head changes no queue. -/
theorem Lined.stay (h : Lined p (s.current :: l) s) (hnrp : s.nrp ≠ 0) (now : Int) :
    ∃ s', exitStep s (.op (.schedule now)) = some s' ∧ Unmoved s s' := by
  have hnext := h.next_eq hnrp
  rw [if_neg (not_not.mpr rfl)] at hnext
  refine ⟨calcCurrentCpuUsage { s with schedNeed := false }, ?_, ?_⟩
  · rw [exitStep_schedule h.live, schedule, hnext]
    simp only [Option.bind_eq_bind, Option.bind_some]
    exact if_neg (not_not.mpr rfl)
  · have hclear := untouched_clearSchedNeed s
    exact ⟨hclear.trans (untouched_calcCurrentCpuUsage _), rfl⟩

theorem elections_of_head {turns : List ExitOp}
    (hturns : PartialSteps.Meets exitStep Uneventful s turns)
    (h : Lined p (s.current :: l) s) (hnrp : s.nrp ≠ 0) :
    elections s turns = some (List.replicate (turns.countP isSchedule) s.current) := by
  refine elections_eq (J := fun ts u => (∀ t ∈ ts, t = u.current) ∧ Lined p (u.current :: l) u ∧
    u.nrp ≠ 0) ?_ ?_ hturns List.length_replicate.symm
    ⟨fun t ht => List.eq_of_mem_replicate ht, h, hnrp⟩
  · rintro ts u u' ⟨hall, hlined, hu⟩ hc
    rw [hc.current, hc.nrp]
    exact ⟨hall, hlined.of_unmoved hc, hu⟩
  · rintro t ts u now ⟨hall, hlined, hu⟩
    obtain ⟨u', hstep, hc⟩ := hlined.stay hu now
    refine ⟨u', hstep, ?_, ?_⟩
    · rw [hc.current]
      exact (hall t List.mem_cons_self).symm
    · rw [hc.current, hc.nrp]
      exact ⟨fun t' ht' => hall t' (List.mem_cons_of_mem t ht'), hlined.of_unmoved hc, hu⟩

/-- With no runnable task on the books the idle task is elected, whatever is linked. -/
theorem elections_of_nrp_zero {turns : List ExitOp} (hl : ListsOk s) (hlive : s.current ∈ s.live)
    (hturns : PartialSteps.Meets exitStep Uneventful s turns) (hnrp : s.nrp = 0) :
    elections s turns = some (List.replicate (turns.countP isSchedule) s.idle) := by
  refine elections_eq (J := fun ts u => (∀ t ∈ ts, t = u.idle) ∧ ListsOk u ∧
    u.current ∈ u.live ∧ u.nrp = 0) ?_ ?_ hturns List.length_replicate.symm
    ⟨fun t ht => List.eq_of_mem_replicate ht, hl, hlive, hnrp⟩
  · rintro ts u u' ⟨hall, hu, hcur, hzero⟩ hc
    rw [hc.idle, hc.current, hc.live, hc.nrp]
    exact ⟨hall, hu.of_quiet hc.toQuiet, hcur, hzero⟩
  · rintro t ts u now ⟨hall, hu, hcur, hzero⟩
    have hnext : getNextEligibleTaskToRun u = (u, some u.idle) := by
      rw [getNextEligibleTaskToRun, if_pos hzero]
    obtain ⟨u', hstep⟩ := Option.isSome_iff_exists.mp
      ((schedule_isSome_iff hu hnext now).mpr (.inl rfl))
    have hstep' := (exitStep_schedule hcur now).trans hstep
    obtain ⟨e, hs⟩ := switched_schedule hu hstep
    have hidle : u'.idle = u.idle := hs.change.elim (·.idle) (·.2.idle)
    have helected : u'.current = u.idle := hs.current.trans (hs.eq_of_next hnext).symm
    have hu' := hu.of_exitStep hstep'
    refine ⟨u', hstep', helected.trans (hall t List.mem_cons_self).symm, ?_, hu', ?_,
      hs.nrp.trans hzero⟩
    · rw [hidle]
      exact fun t' ht' => hall t' (List.mem_cons_of_mem t ht')
    · rw [helected, ← hidle]
      exact hu'.idle_live

/-! ## All positions of the current task -/

section Positions

variable {turns : List ExitOp} (hturns : PartialSteps.Meets exitStep Uneventful s turns)
  (hlen : turns.countP isSchedule = (s.hd (.rq p)).length)

include hturns

theorem Lined.not_roundRobin_of_nrp (h : Lined p (a :: l) s) (hnrp : s.nrp = 0) :
    ¬ RoundRobin s p turns := by
  rintro ⟨es, hes, hall⟩
  rw [elections_of_nrp_zero h.lists h.live hturns hnrp] at hes
  cases hes
  have hone := hall a (h.queue ▸ List.mem_cons_self)
  rw [List.count_replicate, if_neg (by simpa using h.member.2.symm)] at hone
  cases hone

include hlen

/-- The head is elected by every call, so it has to be the only task. -/
theorem Lined.roundRobin_iff_alone (h : Lined p (s.current :: l) s) (hnrp : s.nrp ≠ 0) :
    RoundRobin s p turns ↔ s.hd (.rq p) = [s.current] := by
  have hes := elections_of_head hturns h hnrp
  rw [hlen] at hes
  constructor
  · rintro ⟨es, hes', hall⟩
    cases hes.symm.trans hes'
    have hone := hall s.current (h.queue ▸ List.mem_cons_self)
    rw [List.count_replicate_self, h.queue] at hone
    rw [h.queue, List.length_eq_zero_iff.mp (Nat.succ.inj hone)]
  · intro halone
    refine ⟨_, hes, fun t ht => ?_⟩
    rw [halone] at ht ⊢
    rw [List.mem_singleton.mp ht]
    exact List.count_replicate_self

theorem Lined.not_roundRobin_of_division (h : Lined p (a :: l) s) (hnrp : s.nrp ≠ 0)
    (hcur : a ≠ s.current) (hzero : ¬ (s.taskCount ≠ 0 ∧ toUInt (s.nrp + 1) ≠ 0)) :
    ¬ RoundRobin s p turns := by
  have hpos : 0 < turns.countP isSchedule := by
    rw [hlen, h.queue]
    exact Nat.succ_pos _
  have hnone : elections s turns = none := by
    refine elections_eq_none (J := fun u => Lined p (a :: l) u ∧ u.nrp ≠ 0 ∧ a ≠ u.current ∧
      ¬ (u.taskCount ≠ 0 ∧ toUInt (u.nrp + 1) ≠ 0)) ?_ ?_ hturns hpos ⟨h, hnrp, hcur, hzero⟩
    · rintro u u' ⟨hlined, hrest⟩ hc
      rw [hc.nrp, hc.current, hc.taskCount]
      exact ⟨hlined.of_unmoved hc, hrest⟩
    · rintro u now ⟨hlined, hu, hne, hdiv⟩
      rw [exitStep_schedule hlined.live, ← Option.not_isSome_iff_eq_none,
        schedule_isSome_iff hlined.lists (hlined.next_eq hu)]
      rintro (hidle | hself | hok)
      · exact hlined.member.2 hidle
      · exact hne hself
      · exact hdiv hok
  rintro ⟨es, hes, -⟩
  rw [hnone] at hes
  cases hes

theorem Turning.roundRobin (h : Turning p (s.hd (.rq p)) s) (hl : ListsOk s) :
    RoundRobin s p turns := by
  refine ⟨_, elections_eq (J := Turning p) (fun _ _ _ => Turning.of_unmoved)
    (fun _ _ _ now hu => hu.turn now) hturns hlen h, fun t ht => ?_⟩
  exact List.count_eq_one_of_mem (hl.nodup _) ht

theorem Lined.rotation_iff (h : Lined p (a :: l) s) : RoundRobin s p turns ↔ Rotates s p := by
  by_cases hnrp : s.nrp = 0
  · exact iff_of_false (h.not_roundRobin_of_nrp hturns hnrp) fun hr => hr.nrp hnrp
  by_cases hcur : a = s.current
  · subst hcur
    rw [h.roundRobin_iff_alone hturns hlen hnrp]
    constructor
    · exact fun halone => ⟨h.live, hnrp, .inl halone⟩
    · rintro ⟨-, -, halone | ⟨hhead, -⟩⟩
      · exact halone
      · rw [h.queue] at hhead
        exact absurd rfl hhead
  by_cases hdiv : s.taskCount ≠ 0 ∧ toUInt (s.nrp + 1) ≠ 0
  · have hhead : (s.hd (.rq p)).head? ≠ some s.current := by
      rw [h.queue]
      exact fun heq => hcur (Option.some.inj heq)
    have hlined : Lined p (s.hd (.rq p) ++ []) s := by
      rw [List.append_nil, h.queue]
      exact h
    have hturning : Turning p (s.hd (.rq p)) s := ⟨⟨[], hlined⟩, hhead, hnrp, hdiv.1, hdiv.2⟩
    exact iff_of_true (hturning.roundRobin hturns hlen h.lists)
      ⟨h.live, hnrp, .inr ⟨hhead, hdiv⟩⟩
  · refine iff_of_false (h.not_roundRobin_of_division hturns hlen hnrp hcur hdiv) ?_
    rintro ⟨-, -, halone | ⟨-, hok⟩⟩
    · rw [h.queue] at halone
      exact hcur (List.cons.inj halone).1
    · exact hdiv hok

end Positions

/-- In every reachable state without a cached task, for every number of tasks in the first
queue and every position of the current one. -/
theorem roundRobin_iff {now : Int} {ops turns : List ExitOp} {s : SchedState} {p : Fin maxPrio}
    (hrun : PartialSteps.run exitStep (tmlibInit now) ops = some s) (hcache : s.nxtImmTask = none)
    (htop : ∀ q < p, s.hd (.rq q) = []) (hne : s.hd (.rq p) ≠ [])
    (hturns : PartialSteps.Meets exitStep Uneventful s turns)
    (hlen : turns.countP isSchedule = (s.hd (.rq p)).length) :
    RoundRobin s p turns ↔ Rotates s p := by
  obtain ⟨a, l, hqueue⟩ := List.exists_cons_of_ne_nil hne
  by_cases hlive : s.current ∈ s.live
  · exact Lined.rotation_iff hturns hlen ⟨placed_of_run hrun, hcache, htop, hqueue, hlive⟩
  · -- a current task that has ended calls nothing any more
    refine iff_of_false ?_ fun hr => hlive hr.live
    rintro ⟨es, hes, -⟩
    cases turns with
    | nil =>
        rw [hqueue] at hlen
        cases hlen
    | cons i is =>
        have hnone : exitStep s i = none := if_neg hlive
        rw [elections, hnone] at hes
        cases hes

/-- The program starts two tasks of priority 5, and the soft irq task, which is elected
first, waits. -/
def twoReady : List ExitOp :=
  [.op (.spawn 5 true true 1), .op (.spawn 5 true true 2), .op (.schedule 3), .op (.addToWaitQ 4)]

def oneRound : List ExitOp := [.op (.schedule 5), .op (.tick 6), .op (.schedule 7)]

theorem roundRobin_twoReady :
    ∃ s, PartialSteps.run exitStep (tmlibInit 0) twoReady = some s ∧ s.nxtImmTask = none ∧
      s.hd (.rq 5) = [4, 5] ∧ s.current = 3 ∧
      PartialSteps.Meets exitStep Uneventful s oneRound ∧ RoundRobin s 5 oneRound := by
  have hfacts : (PartialSteps.run exitStep (tmlibInit 0) twoReady).any
      (fun s => s.nxtImmTask = none ∧ (∀ q < 5, s.hd (.rq q) = []) ∧ s.hd (.rq 5) = [4, 5] ∧
        s.current = 3 ∧ s.current ∈ s.live ∧ s.nrp ≠ 0 ∧ s.taskCount ≠ 0 ∧
          toUInt (s.nrp + 1) ≠ 0 ∧ PartialSteps.Meets exitStep Uneventful s oneRound) := by
    decide +kernel
  simp only [Option.any_eq_true, decide_eq_true_eq] at hfacts
  obtain ⟨s, hrun, hcache, htop, hqueue, hcur, hlive, hnrp, hcount, hshare, hturns⟩ := hfacts
  have hhead : (s.hd (.rq 5)).head? ≠ some s.current := by
    rw [hqueue, hcur]
    decide
  have hne : s.hd (.rq 5) ≠ [] := by
    rw [hqueue]
    exact List.cons_ne_nil _ _
  have hlen : oneRound.countP isSchedule = (s.hd (.rq 5)).length := by
    rw [hqueue]
    rfl
  have hrotates : Rotates s 5 := ⟨hlive, hnrp, .inr ⟨hhead, hcount, hshare⟩⟩
  exact ⟨s, hrun, hcache, hqueue, hcur, hturns,
    (roundRobin_iff hrun hcache htop hne hturns hlen).mpr hrotates⟩

/-- One of the two tasks waits.  The other one wakes it and calls `schedule`. -/
def wokenAhead : List ExitOp :=
  twoReady ++ [.op (.schedule 5), .op (.addToWaitQ 6), .op (.schedule 7), .op (.wakeup 4 8),
    .op (.schedule 9)]

/-- The woken task is at the head of the queue and stays there. -/
theorem not_roundRobin_wokenAhead :
    ∃ s, PartialSteps.run exitStep (tmlibInit 0) wokenAhead = some s ∧ s.nxtImmTask = none ∧
      (∀ q < 5, s.hd (.rq q) = []) ∧ s.hd (.rq 5) = [4, 5] ∧ s.current = 4 ∧
      PartialSteps.Meets exitStep Uneventful s oneRound ∧
      elections s oneRound = some [4, 4] ∧ ¬ RoundRobin s 5 oneRound := by
  have hfacts : (PartialSteps.run exitStep (tmlibInit 0) wokenAhead).any
      (fun s => s.nxtImmTask = none ∧ (∀ q < 5, s.hd (.rq q) = []) ∧ s.hd (.rq 5) = [4, 5] ∧
        s.current = 4 ∧ PartialSteps.Meets exitStep Uneventful s oneRound ∧
          elections s oneRound = some [4, 4]) := by
    decide +kernel
  simp only [Option.any_eq_true, decide_eq_true_eq] at hfacts
  obtain ⟨s, hrun, hcache, htop, hqueue, hcur, hturns, hes⟩ := hfacts
  refine ⟨s, hrun, hcache, htop, hqueue, hcur, hturns, hes, ?_⟩
  rintro ⟨es, hes', hall⟩
  cases hes.symm.trans hes'
  have hone := hall 5 (by rw [hqueue]; decide)
  exact absurd hone (by decide)

end Sched
end TmULThreads
