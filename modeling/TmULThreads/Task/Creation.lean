import TmULThreads.Sched.Lookup

/-!
# Creating a task in the SFS build

`task_create` of `tsk_main.c` over `start_task` of `tsk_sched.c`, where a task is one of the
scheduler of `core/`.  `start_task` stores what `spawn_task` returns, as the identifier of the
new task.  But `spawn_task` returns the address of the `struct tsk`, which `calls.h` declares
to be an `int`, while `task_selfid` and `find_task` go by the `tid`.

`createdLaw_iff` states what follows: an identifier is right only if the address happens to be
the number of the task.  The other way to miss a task is the one of `find_task` itself, which
does not look at the run queues while `rq.nrp` is zero.
-/

namespace TmULThreads
namespace Task
namespace Creation

open Sched

/-- A pointer as an `int`. -/
def asInt (ptr : Nat) : Int := Int.bmod ptr (2 ^ 32)

/-- `MIN_THREAD_STACK_SIZE`. -/
def minThreadStackSize : Int := 20000

/-- `TSK_SUCCESS`. -/
def tskSuccess : Int := 1

/-- `TSK_FAILURE`. -/
def tskFailure : Int := 0

/-- What a call of `task_create` is given, and what its allocations return. -/
structure Request where
  prio : Int
  stkSize : Int
  /-- There is a start routine. -/
  wrapper : Bool
  /-- The record of the task can be allocated. -/
  infoOk : Bool
  /-- The address of the `struct tsk`; `NULL` is zero. -/
  ptr : Nat
  /-- The stack can be allocated. -/
  stkOk : Bool
  now : Int
  deriving DecidableEq, Repr

/-- What a call of `task_create` leaves. -/
structure Outcome where
  sched : SchedState
  ret : Int
  /-- What has been stored through `rettskid`. -/
  stored : Option Int
  /-- The task that `spawn_task` has made. -/
  tsk : Option TaskId

/-- `task_create`.  The record is freed again when the task has been started. -/
def taskCreate (s : SchedState) (r : Request) (prio : Fin maxPrio) : Outcome :=
  if r.stkSize < minThreadStackSize then ⟨s, tskFailure, none, none⟩
  else if ¬ r.infoOk then ⟨s, tskFailure, none, none⟩
  else
    match spawnTask s prio r.wrapper (r.ptr ≠ 0) r.stkOk r.now with
    | (s, none) => ⟨s, tskFailure, some 0, none⟩
    | (s, some tid) =>
        ⟨s, if asInt r.ptr = 0 then tskFailure else tskSuccess, some (asInt r.ptr), some tid⟩

/-- `find_task`, whose argument is an `int`. -/
def findId (s : SchedState) (id : Int) : Option TaskId :=
  if 0 ≤ id then findTask s id.toNat else none

/-- A task that `task_create` has created, and the identifier it has stored. -/
structure Created where
  tid : TaskId
  id : Int
  deriving DecidableEq, Repr

structure Sys where
  sched : SchedState
  created : List Created

inductive SysOp where
  | create (r : Request)
  | other (op : ExitOp)
  deriving DecidableEq, Repr

/-- The tasks that have been created after a call. -/
def Outcome.record (o : Outcome) (created : List Created) : List Created :=
  match o.tsk, o.stored with
  | some tid, some id => if o.ret = tskSuccess then created ++ [⟨tid, id⟩] else created
  | _, _ => created

/-- A priority outside of the array has no defined outcome, and a task that has ended does
nothing any more. -/
def sysStep (s : Sys) : SysOp → Option Sys
  | .create r =>
      if h : 0 ≤ r.prio ∧ r.prio < maxPrio then
        if s.sched.current ∈ s.sched.live then
          let o := taskCreate s.sched r ⟨r.prio.toNat, by omega⟩
          some ⟨o.sched, o.record s.created⟩
        else none
      else none
  | .other op => (exitStep s.sched op).map fun sched => { s with sched := sched }

def sysInit (now : Int) : Sys := ⟨tmlibInit now, []⟩

/-! ## The property -/

/-- The task is on a run queue, on the wait queue or on the list of a descriptor. -/
def Placed (s : SchedState) (t : TaskId) : Prop := ∃ h : Head, (∀ l, h ≠ .lock l) ∧ t ∈ s.hd h

/-- The identifier of every task is what `task_selfid` returns in it, and leads to the task as
long as that can be found. -/
structure CreatedLaw (s : Sys) : Prop where
  self : ∀ c ∈ s.created, c.id = c.tid
  finds : ∀ c ∈ s.created, Placed s.sched c.tid → findId s.sched c.id = some c.tid
  posts : ∀ c ∈ s.created, Placed s.sched c.tid → ∀ event now,
    ((postEvent s.sched c.id.toNat event now).tsk c.tid).event =
      (s.sched.tsk c.tid).event ||| event
  kills : ∀ c ∈ s.created, Placed s.sched c.tid →
    killTask s.sched c.id.toNat = (taskExit s.sched c.tid, 0)

/-- The call gets what it needs, and does not take the address for a failure. -/
def Request.Succeeds (r : Request) : Prop :=
  minThreadStackSize ≤ r.stkSize ∧ r.infoOk = true ∧ r.stkOk = true ∧ asInt r.ptr ≠ 0

instance (r : Request) : Decidable r.Succeeds := inferInstanceAs (Decidable (_ ∧ _))

/-- The address of a new task is its number. -/
def AddressIsTid (s : Sys) : SysOp → Prop
  | .create r => r.Succeeds → asInt r.ptr = s.sched.taskid + 1
  | .other _ => True

instance (s : Sys) : ∀ op, Decidable (AddressIsTid s op)
  | .create r => inferInstanceAs (Decidable (r.Succeeds → asInt r.ptr = s.sched.taskid + 1))
  | .other _ => isTrue trivial

/-- No task that has been created is on a run queue that `find_task` does not look at. -/
def RunQueueSeen (s : Sys) : Prop :=
  s.sched.nrp = 0 → ∀ c ∈ s.created, ∀ k, c.tid ∉ s.sched.hd (.rq k)

/-! ## Steps -/

theorem ptr_ne_zero {ptr : Nat} (h : asInt ptr ≠ 0) : ptr ≠ 0 := by
  rintro rfl
  exact h (by decide)

/-- A task without a start routine is linked nowhere. -/
theorem listsOk_unlinked {s : SchedState} (h : ListsOk s) (k : Fin maxPrio) :
    ListsOk ({ s with taskid := s.taskid + 1, live := s.live ++ [s.taskid + 1] }.setTsk
      (s.taskid + 1) { prio := k }) := by
  have hnew : s.taskid + 1 ∉ s.live := by
    exact fun hmem => Nat.not_succ_le_self _ (h.live_le _ hmem)
  refine ⟨?_, ?_, List.mem_append_left _ h.idle_live, h.nodup, h.unique, ?_⟩
  · show (s.live ++ [s.taskid + 1]).Nodup
    rw [← List.concat_eq_append]
    exact h.live_nodup.concat hnew
  · intro t ht
    rcases List.mem_append.mp ht with hold | hself
    · exact (h.live_le t hold).trans (Nat.le_succ _)
    · exact (List.mem_singleton.mp hself).le
  · intro hd t ht
    obtain ⟨hlive, hidle, honrq⟩ := h.member hd t ht
    have hne : t ≠ s.taskid + 1 := by
      rintro rfl
      exact hnew hlive
    rw [setTsk_tsk_of_ne _ _ hne]
    exact ⟨List.mem_append_left _ hlive, hidle, honrq⟩

theorem listsOk_spawnTask {s : SchedState} (h : ListsOk s) (hcur : s.current ∈ s.live)
    (k : Fin maxPrio) (wrapper tskOk stkOk : Bool) (now : Int) :
    ListsOk (spawnTask s k wrapper tskOk stkOk now).1 := by
  have heffect : Effect s (.tick now) (spawnTask s k true tskOk stkOk now).1 :=
    effect_spawn s k tskOk stkOk now id
  have hwrapped := h.of_effect hcur heffect
  cases wrapper with
  | true => exact hwrapped
  | false =>
      cases tskOk with
      | false => exact h
      | true =>
          cases stkOk with
          | false => exact hwrapped
          | true => exact listsOk_unlinked h k

theorem listsOk_taskCreate {s : SchedState} (h : ListsOk s) (hcur : s.current ∈ s.live)
    (r : Request) (k : Fin maxPrio) : ListsOk (taskCreate s r k).sched := by
  have hspawn := listsOk_spawnTask h hcur k r.wrapper (r.ptr ≠ 0) r.stkOk r.now
  unfold taskCreate
  split
  · exact h
  · split
    · exact h
    · split
      · rename_i heq
        rwa [heq] at hspawn
      · rename_i heq
        rwa [heq] at hspawn

theorem spawnTask_snd (s : SchedState) (k : Fin maxPrio) (wrapper tskOk stkOk : Bool) (now : Int) :
    (spawnTask s k wrapper tskOk stkOk now).2 =
      if tskOk ∧ stkOk then some (s.taskid + 1) else none := by
  cases tskOk with
  | false => rfl
  | true =>
      cases stkOk with
      | false => rfl
      | true => cases wrapper <;> rfl

/-- The task is the next one, and its identifier is its address. -/
theorem taskCreate_record (s : SchedState) (r : Request) (k : Fin maxPrio)
    (created : List Created) :
    (taskCreate s r k).record created =
      if r.Succeeds then created ++ [⟨s.taskid + 1, asInt r.ptr⟩] else created := by
  have hsnd := spawnTask_snd s k r.wrapper (r.ptr ≠ 0) r.stkOk r.now
  unfold taskCreate Request.Succeeds
  by_cases hsize : r.stkSize < minThreadStackSize
  · simp [hsize, not_le.mpr hsize, Outcome.record]
  · by_cases hinfo : r.infoOk = true
    · simp only [hsize, hinfo, not_true_eq_false, if_false, not_lt.mp hsize, true_and]
      split
      · -- one of the two allocations has failed
        rename_i heq
        rw [heq] at hsnd
        have hfail : ¬ (r.stkOk = true ∧ asInt r.ptr ≠ 0) := by
          rintro ⟨hstk, hptr⟩
          simp [hstk, ptr_ne_zero hptr] at hsnd
        rw [if_neg hfail]
        rfl
      · rename_i heq
        rw [heq] at hsnd
        by_cases hok : decide (r.ptr ≠ 0) = true ∧ r.stkOk = true
        · rw [if_pos hok, Option.some.injEq] at hsnd
          simp only [Outcome.record, hok.2, true_and]
          by_cases hptr : asInt r.ptr = 0
          · simp [hptr, tskSuccess, tskFailure]
          · simp [hptr, hsnd]
        · rw [if_neg hok] at hsnd
          cases hsnd
    · simp [hsize, hinfo, Outcome.record]

/-- The identifiers are right. -/
def SelfLaw (s : Sys) : Prop := ∀ c ∈ s.created, c.id = c.tid

/-- A step keeps the identifiers right exactly if it gives a new task the right one. -/
theorem selfLaw_step {s s' : Sys} {op : SysOp} (h : ListsOk s.sched)
    (hstep : sysStep s op = some s') :
    ListsOk s'.sched ∧ (SelfLaw s' ↔ SelfLaw s ∧ AddressIsTid s op) := by
  cases op with
  | create r =>
      simp only [sysStep] at hstep
      split at hstep
      · split at hstep
        · rename_i hprio hcur
          cases hstep
          refine ⟨listsOk_taskCreate h hcur r _, ?_⟩
          show (∀ c ∈ (taskCreate s.sched r _).record s.created, _) ↔
            SelfLaw s ∧ (r.Succeeds → asInt r.ptr = s.sched.taskid + 1)
          rw [taskCreate_record]
          by_cases hr : r.Succeeds
          · rw [if_pos hr]
            simp only [List.mem_append, List.mem_singleton, or_imp, forall_and, forall_eq, hr,
              true_imp_iff]
            rfl
          · rw [if_neg hr]
            simp only [hr, false_imp_iff, and_true]
            rfl
        · cases hstep
      · cases hstep
  | other op =>
      obtain ⟨sched, hexit, rfl⟩ := Option.map_eq_some_iff.mp hstep
      exact ⟨h.of_exitStep hexit, (and_iff_left trivial).symm⟩

/-! ## States -/

/-- A task that can be found is found by its own number. -/
theorem acts_of_findTask {s : SchedState} {t : TaskId} (hfind : findTask s t = some t) :
    (∀ event now, ((postEvent s t event now).tsk t).event = (s.tsk t).event ||| event) ∧
      killTask s t = (taskExit s t, 0) := by
  refine ⟨fun event now => ?_, ?_⟩
  · rw [event_postEvent event now hfind, if_pos rfl]
  · rw [killTask, hfind]

theorem placed_iff {s : SchedState} (h : ListsOk s) {t : TaskId} :
    (Placed s t → findTask s t = some t) ↔ (s.nrp = 0 → ∀ k, t ∉ s.hd (.rq k)) := by
  rw [findTask_eq_some_iff]
  constructor
  · intro hfind hzero k hmem
    rcases hfind ⟨.rq k, nofun, hmem⟩ with ⟨fd, hio⟩ | hwq | ⟨hnrp, -⟩
    · cases h.unique t _ _ hmem hio
    · cases h.unique t _ _ hmem hwq
    · exact hnrp hzero
  · rintro hseen ⟨hd, hlock, hmem⟩
    cases hd with
    | rq k => exact .inr (.inr ⟨fun hzero => hseen hzero k hmem, k, hmem⟩)
    | wq => exact .inr (.inl hmem)
    | io fd => exact .inl ⟨fd, hmem⟩
    | lock l => exact absurd rfl (hlock l)

theorem createdLaw_iff_self {s : Sys} (h : ListsOk s.sched) :
    CreatedLaw s ↔ SelfLaw s ∧ RunQueueSeen s := by
  constructor
  · intro hlaw
    refine ⟨hlaw.self, fun hzero c hc => ?_⟩
    refine (placed_iff h).mp (fun hplaced => ?_) hzero
    have hfind := hlaw.finds c hc hplaced
    rw [hlaw.self c hc] at hfind
    simpa [findId] using hfind
  · rintro ⟨hself, hseen⟩
    have hfind (c : Created) (hc : c ∈ s.created) (hplaced : Placed s.sched c.tid) :
        findTask s.sched c.tid = some c.tid :=
      (placed_iff h).mpr (fun hzero => hseen hzero c hc) hplaced
    refine ⟨hself, fun c hc hplaced => ?_, fun c hc hplaced => ?_, fun c hc hplaced => ?_⟩
    · rw [hself c hc]
      simpa [findId] using hfind c hc hplaced
    · rw [hself c hc]
      exact (acts_of_findTask (hfind c hc hplaced)).1
    · rw [hself c hc]
      exact (acts_of_findTask (hfind c hc hplaced)).2

/-- In every state that is reached, the identifiers of all tasks lead to them if and only if
the address of every task was its number, and no task is on a run queue while `rq.nrp` is
zero. -/
theorem createdLaw_iff (now : Int) (ops : List SysOp) (s : Sys)
    (hrun : PartialSteps.run sysStep (sysInit now) ops = some s) :
    CreatedLaw s ↔ PartialSteps.Meets sysStep AddressIsTid (sysInit now) ops ∧ RunQueueSeen s := by
  have hinit : ListsOk (sysInit now).sched := (regular_tmlibInit now).toQueued.listsOk
  have hlists : ListsOk s.sched :=
    PartialSteps.run_invariant_always sysStep (I := fun s => ListsOk s.sched)
      (fun _ _ _ h hstep => (selfLaw_step h hstep).1) hinit hrun
  have hself : SelfLaw s ↔ SelfLaw (sysInit now) ∧
      PartialSteps.Meets sysStep AddressIsTid (sysInit now) ops :=
    PartialSteps.run_iff_meets sysStep (fun _ _ _ h _ hstep => selfLaw_step h hstep) hinit
      (PartialSteps.meets_trivial sysStep _ ops) hrun
  have hnone : SelfLaw (sysInit now) := fun c hc => nomatch hc
  rw [createdLaw_iff_self hlists, hself, and_iff_right hnone]

/-- The address of the sixteenth task has its number in the lower half. -/
def luckyRun : List SysOp :=
  List.replicate 12 (.other (.op (.spawn 0 true true 0))) ++
    [.create ⟨5, 20000, true, true, 0x7f0000000010, true, 0⟩]

theorem createdLaw_luckyRun :
    ∃ s, PartialSteps.run sysStep (sysInit 0) luckyRun = some s ∧ s.created = [⟨16, 16⟩] ∧
      CreatedLaw s := by
  have hfacts : (PartialSteps.run sysStep (sysInit 0) luckyRun).map
      (fun s => (s.created, s.sched.nrp)) = some ([⟨16, 16⟩], 15) := by decide +kernel
  obtain ⟨s, hrun, hs⟩ := Option.map_eq_some_iff.mp hfacts
  simp only [Prod.mk.injEq] at hs
  refine ⟨s, hrun, hs.1, (createdLaw_iff 0 luckyRun s hrun).mpr ⟨by decide +kernel, ?_⟩⟩
  intro hzero
  rw [hs.2] at hzero
  cases hzero

/-- The first task of a program is not found by the identifier that is stored for it, so no
event can be posted to it. -/
theorem not_createdLaw_first :
    ∃ s, PartialSteps.run sysStep (sysInit 0) [.create ⟨5, 20000, true, true, 0x804c008, true, 0⟩] =
        some s ∧ s.created = [⟨4, 0x804c008⟩] ∧ 4 ∈ s.sched.hd (.rq 5) ∧
      findId s.sched 0x804c008 = none ∧ ¬ CreatedLaw s := by
  have hfacts : (PartialSteps.run sysStep (sysInit 0)
      [.create ⟨5, 20000, true, true, 0x804c008, true, 0⟩]).map
        (fun s => (s.created, s.sched.hd (.rq 5), findId s.sched 0x804c008)) =
      some ([⟨4, 0x804c008⟩], [4], none) := by decide +kernel
  obtain ⟨s, hrun, hs⟩ := Option.map_eq_some_iff.mp hfacts
  simp only [Prod.mk.injEq] at hs
  obtain ⟨hcreated, hrq, hnone⟩ := hs
  refine ⟨s, hrun, hcreated, by simp [hrq], hnone, fun hlaw => ?_⟩
  have hself := hlaw.self ⟨4, 0x804c008⟩ (by simp [hcreated])
  cases hself

end Creation
end Task
end TmULThreads
