import TmULThreads.Sched.Exit
import Mathlib.Data.List.Nodup

/-!
# Switching to OS threads and back

`switch_to_os_threading` walks the lists of the scheduler and starts an OS thread for the tasks
it finds there; then it starts one for the current task and goes on as the task of the program.
`switch_back` walks the lists again and cancels the threads.

The walks do not fit together.  The one of the wait queue does not skip the current task, no
walk visits the queue of a lock, the current task is given a thread even if it is the task of
the program itself, and the run queues are left out while `rq.nrp` is zero.  The loop of
`switch_back` over the descriptors has its test the wrong way round.

* `contextLaw_iff` says for every reachable state whether each task gets exactly one context.
* `cancelLaw_iff` says when `switch_back` cancels the right threads.
-/

namespace TmULThreads
namespace Sched

/-! ## The walks -/

/-- `io_get_next_non_empty_task_list`, from the descriptor behind the cursor on. -/
def ioGetNextNonEmptyTaskList (s : SchedState) (fd : Nat) : Option (Fin maxFds) :=
  if h : fd < maxFds then
    if s.hd (.io ⟨fd, h⟩) ≠ [] then some ⟨fd, h⟩ else ioGetNextNonEmptyTaskList s (fd + 1)
  else none
termination_by maxFds - fd

theorem le_ioGetNextNonEmptyTaskList {s : SchedState} {fd : Nat} {k : Fin maxFds}
    (h : ioGetNextNonEmptyTaskList s fd = some k) : fd ≤ k := by
  fun_induction ioGetNextNonEmptyTaskList s fd with
  | case1 fd hlt hne =>
      cases h
      exact le_rfl
  | case2 fd hlt hnil ih => exact (Nat.le_succ fd).trans (ih h)
  | case3 => cases h

/-- The tasks that the loop over the descriptors visits. -/
def ioTasks (s : SchedState) (fd : Nat) : List TaskId :=
  match _h : ioGetNextNonEmptyTaskList s fd with
  | none => []
  | some k => s.hd (.io k) ++ ioTasks s (k + 1)
termination_by maxFds - fd
decreasing_by
  have := le_ioGetNextNonEmptyTaskList _h
  omega

/-- The tasks that the loop over the priorities visits. -/
def rqTasks (s : SchedState) : List TaskId :=
  if s.nrp ≠ 0 then (List.finRange maxPrio).flatMap fun k => s.hd (.rq k) else []

/-! ## The two functions -/

structure OsState where
  sched : SchedState
  osSchedEnabled : Bool := false

/-- The contexts that tasks are given: by `create_os_thread`, and by the jump to the registers
of a task on the calling thread. -/
structure Contexts where
  created : List TaskId := []
  resumed : List TaskId := []
  deriving DecidableEq, Repr

def createCalls (s : SchedState) : List TaskId :=
  (if s.idle ≠ s.current then [s.idle] else []) ++
    (s.hd .wq).filter (· ≠ s.parent) ++
    (rqTasks s).filter (fun p => p ≠ s.current ∧ p ≠ s.parent) ++
    (ioTasks s 0).filter (fun p => p ≠ s.current ∧ p ≠ s.parent) ++
    [s.current]

/-- `switch_to_os_threading`, which uses the registers of the current task and of the task of
the program. -/
def switchToOsThreading (s : OsState) : Option (OsState × Contexts) :=
  if s.osSchedEnabled then some (s, {})
  else if s.sched.current ∈ s.sched.live ∧ s.sched.parent ∈ s.sched.live then
    some ({ s with osSchedEnabled := true }, ⟨createCalls s.sched, [s.sched.parent]⟩)
  else none

/-- The tasks whose threads `switch_back` cancels, if it gets past its loop over the
descriptors. -/
def cancelCalls (s : SchedState) : List TaskId :=
  (s.hd .wq).filter (· ≠ s.current) ++ (rqTasks s).filter (· ≠ s.current) ++
    (if s.idle ≠ s.current then [s.idle] else [])

/-- `switch_back`.  The loop over the descriptors is entered when there is no list, and takes
the null pointer for one.  `pthread_cancel` is taken to return whatever the thread is, also for
the task of the program itself, which has none: its `ptid` is zero. -/
def switchBack (s : OsState) : Option (OsState × List TaskId) :=
  match ioGetNextNonEmptyTaskList s.sched 0 with
  | none => none
  | some _ => some ({ s with osSchedEnabled := false }, cancelCalls s.sched)

/-! ## Runs -/

inductive OsOp where
  | lib (op : ExitOp)
  | switchToOsThreading
  | switchBack
  deriving DecidableEq, Repr

/-- Once the tasks are OS threads, `schedule` does nothing, and what they do to the lists is
done for the task that was the current one. -/
def osStep (s : OsState) : OsOp → Option OsState
  | .lib (.op (.schedule now)) =>
      if s.osSchedEnabled then some s
      else (exitStep s.sched (.op (.schedule now))).map fun sched => { s with sched }
  | .lib op => (exitStep s.sched op).map fun sched => { s with sched }
  | .switchToOsThreading => (switchToOsThreading s).map Prod.fst
  | .switchBack => (switchBack s).map Prod.fst

def osInit (now : Int) : OsState := { sched := tmlibInit now }

theorem osInit_sched (now : Int) : (osInit now).sched = tmlibInit now := by
  rw [osInit]

/-- The switches leave the lists alone. -/
theorem osStep_cases {s s' : OsState} {op : OsOp} (h : osStep s op = some s') :
    s'.sched = s.sched ∨ ∃ i, exitStep s.sched i = some s'.sched := by
  have hlib {i : ExitOp} (h : (exitStep s.sched i).map (fun sched => { s with sched }) = some s') :
      ∃ i, exitStep s.sched i = some s'.sched := by
    obtain ⟨sched, hstep, rfl⟩ := Option.map_eq_some_iff.mp h
    exact ⟨i, hstep⟩
  cases op with
  | lib op =>
      cases op with
      | exit e => exact .inr (hlib h)
      | op op =>
          cases op with
          | schedule now =>
              simp only [osStep] at h
              split at h
              · cases h
                exact .inl rfl
              · exact .inr (hlib h)
          | _ => exact .inr (hlib h)
  | switchToOsThreading =>
      obtain ⟨r, hr, rfl⟩ := Option.map_eq_some_iff.mp h
      unfold switchToOsThreading at hr
      split at hr
      · cases hr
        exact .inl rfl
      · split at hr
        · cases hr
          exact .inl rfl
        · cases hr
  | switchBack =>
      obtain ⟨r, hr, rfl⟩ := Option.map_eq_some_iff.mp h
      unfold switchBack at hr
      split at hr
      · cases hr
      · cases hr
        exact .inl rfl

/-- The lists hold every task but two, none of them twice. -/
structure Populated (s : SchedState) : Prop extends ListsOk s where
  idle_ne : s.idle ≠ s.parent
  linked : AllLinked s

theorem AllLinked.of_woken {s s' : SchedState} {p : TaskId} (h : AllLinked s)
    (hw : Woken p s s') : AllLinked s' := by
  rcases hw.change with ⟨-, hquiet, -⟩ | ⟨-, hmoved, -⟩
  · exact h.of_quiet hquiet
  · exact h.of_moved hmoved

theorem AllLinked.of_effect {s s' : SchedState} {op : Op} (h : AllLinked s)
    (he : Effect s op s') : AllLinked s' := by
  cases he with
  | untouched _ hu => exact h.of_quiet hu.toQuiet
  | waited _ _ hw => exact h.of_moved hw.moved
  | woken _ _ hw => exact h.of_woken hw
  | wakes _ hmid hw =>
      exact hw.preserves (fun _ _ _ _ _ hwoken hs => hs.of_woken hwoken) (h.of_quiet hmid.toQuiet)
  | joined _ hj => exact h.of_spawned hj.spawned
  | switched hs =>
      rcases hs.change with hquiet | ⟨-, hmoved⟩
      · exact h.of_quiet hquiet
      · exact h.of_moved hmoved

/-- A task that ends leaves the others where they are. -/
theorem AllLinked.of_taskExit {s : SchedState} (h : AllLinked s) (p : TaskId) :
    AllLinked (taskExit s p) := by
  intro t ht hidle hparent
  obtain ⟨hlive, hne⟩ := mem_taskExit_live.mp ht
  obtain ⟨hd, hmem⟩ := h t hlive hidle hparent
  exact ⟨hd, mem_taskExit_hd.mpr ⟨hmem, hne⟩⟩

theorem Populated.of_exitStep {s s' : SchedState} {i : ExitOp} (h : Populated s)
    (hstep : exitStep s i = some s') : Populated s' := by
  have hlists := h.toListsOk.of_exitStep hstep
  cases i with
  | op op =>
      obtain ⟨-, hop⟩ := exitStep_op hstep
      have he := effect_of_schedStep h.toListsOk hop
      refine ⟨hlists, ?_, h.linked.of_effect he⟩
      rw [he.idle_eq, he.parent_eq]
      exact h.idle_ne
  | exit e =>
      rcases exit_cases hstep with ⟨-, rfl⟩ | ⟨p, -, rfl⟩
      · exact h
      · exact ⟨hlists, h.idle_ne, h.linked.of_taskExit p⟩

theorem populated_of_run {now : Int} {ops : List OsOp} {s : OsState}
    (hrun : PartialSteps.run osStep (osInit now) ops = some s) : Populated s.sched := by
  have hinit := (regular_tmlibInit now).toQueued
  have hstart : Populated (osInit now).sched := by
    rw [osInit_sched]
    exact ⟨hinit.listsOk, hinit.idle_ne, hinit.linked⟩
  refine PartialSteps.run_invariant_always osStep (I := fun s => Populated s.sched) ?_ hstart hrun
  intro s op s' hs hstep
  rcases osStep_cases hstep with heq | ⟨i, hi⟩
  · rwa [heq]
  · exact hs.of_exitStep hi

/-! ## What the walks visit -/

theorem ioTasks_of_none {s : SchedState} {fd : Nat} (h : ioGetNextNonEmptyTaskList s fd = none) :
    ioTasks s fd = [] := by
  rw [ioTasks]
  split
  · rfl
  · rename_i k hk
    rw [h] at hk
    cases hk

theorem ioTasks_of_some {s : SchedState} {fd : Nat} {k : Fin maxFds}
    (h : ioGetNextNonEmptyTaskList s fd = some k) :
    ioTasks s fd = s.hd (.io k) ++ ioTasks s (k + 1) := by
  rw [ioTasks]
  split
  · rename_i hk
    rw [h] at hk
    cases hk
  · rename_i k' hk
    rw [h] at hk
    cases hk
    rfl

/-- An empty list is passed over. -/
theorem ioTasks_succ {s : SchedState} {fd : Nat} (hlt : fd < maxFds) :
    ioTasks s fd = s.hd (.io ⟨fd, hlt⟩) ++ ioTasks s (fd + 1) := by
  by_cases hnil : s.hd (.io ⟨fd, hlt⟩) = []
  · have hnext : ioGetNextNonEmptyTaskList s fd = ioGetNextNonEmptyTaskList s (fd + 1) := by
      rw [ioGetNextNonEmptyTaskList, dif_pos hlt, if_neg (not_not.mpr hnil)]
    rw [hnil, List.nil_append]
    cases hk : ioGetNextNonEmptyTaskList s (fd + 1) with
    | none => rw [ioTasks_of_none hk, ioTasks_of_none (hnext.trans hk)]
    | some k => rw [ioTasks_of_some hk, ioTasks_of_some (hnext.trans hk)]
  · apply ioTasks_of_some
    rw [ioGetNextNonEmptyTaskList, dif_pos hlt, if_pos hnil]

theorem ioTasks_eq (s : SchedState) (fd : Nat) :
    ioTasks s fd = ((List.finRange maxFds).drop fd).flatMap fun k => s.hd (.io k) := by
  induction hn : maxFds - fd generalizing fd with
  | zero =>
      have hdrop : (List.finRange maxFds).drop fd = [] :=
        List.drop_eq_nil_of_le (by rw [List.length_finRange]; omega)
      rw [hdrop]
      apply ioTasks_of_none
      rw [ioGetNextNonEmptyTaskList, dif_neg (by omega)]
  | succ n ih =>
      have hlt : fd < maxFds := by omega
      have hdrop : (List.finRange maxFds).drop fd =
          ⟨fd, hlt⟩ :: (List.finRange maxFds).drop (fd + 1) := by
        rw [List.drop_eq_getElem_cons (by rw [List.length_finRange]; exact hlt),
          List.getElem_finRange]
        rfl
      rw [ioTasks_succ hlt, ih (fd + 1) (by omega), hdrop, List.flatMap_cons]

theorem mem_ioTasks {s : SchedState} {t : TaskId} :
    t ∈ ioTasks s 0 ↔ ∃ fd, t ∈ s.hd (.io fd) := by
  rw [ioTasks_eq]
  simp

theorem mem_rqTasks {s : SchedState} {t : TaskId} :
    t ∈ rqTasks s ↔ s.nrp ≠ 0 ∧ ∃ k, t ∈ s.hd (.rq k) := by
  unfold rqTasks
  split
  · rename_i hnrp
    simp [hnrp]
  · rename_i hnrp
    simp [not_not.mp hnrp]

/-- Different lists have no task in common. -/
theorem ListsOk.nodup_flatMap {s : SchedState} (h : ListsOk s) {n : Nat} {f : Fin n → Head}
    (hf : Function.Injective f) : ((List.finRange n).flatMap fun a => s.hd (f a)).Nodup := by
  rw [List.nodup_flatMap]
  refine ⟨fun a _ => h.nodup (f a), (List.nodup_finRange n).imp ?_⟩
  intro a b hne t hta htb
  exact hne (hf (h.unique t _ _ hta htb))

theorem ListsOk.nodup_ioTasks {s : SchedState} (h : ListsOk s) : (ioTasks s 0).Nodup := by
  rw [ioTasks_eq]
  exact h.nodup_flatMap fun _ _ heq => Head.io.inj heq

theorem ListsOk.nodup_rqTasks {s : SchedState} (h : ListsOk s) : (rqTasks s).Nodup := by
  unfold rqTasks
  split
  · exact h.nodup_flatMap fun _ _ heq => Head.rq.inj heq
  · exact List.nodup_nil

theorem ioGetNextNonEmptyTaskList_eq_none {s : SchedState} {fd : Nat} :
    ioGetNextNonEmptyTaskList s fd = none ↔ ∀ k : Fin maxFds, fd ≤ k → s.hd (.io k) = [] := by
  fun_induction ioGetNextNonEmptyTaskList s fd with
  | case1 fd hlt hne =>
      constructor
      · nofun
      · intro hall
        exact absurd (hall ⟨fd, hlt⟩ le_rfl) hne
  | case2 fd hlt hnil ih =>
      rw [ih]
      constructor
      · intro hall k hk
        rcases Nat.eq_or_lt_of_le hk with heq | hgt
        · obtain rfl : k = ⟨fd, hlt⟩ := Fin.ext heq.symm
          exact not_not.mp hnil
        · exact hall k hgt
      · exact fun hall k hk => hall k (Nat.le_of_succ_le hk)
  | case3 fd hge => exact ⟨fun _ k hk => absurd (hk.trans_lt k.isLt) hge, fun _ => rfl⟩

/-! ## One context for each task -/

/-- The call is defined, starts one thread for each task but the one of the program, and goes on
as that one. -/
def ContextLaw (s : OsState) : Prop :=
  ∃ s' c, switchToOsThreading s = some (s', c) ∧
    (∀ t, c.created.count t = if t ∈ s.sched.live ∧ t ≠ s.sched.parent then 1 else 0) ∧
    c.resumed = [s.sched.parent]

/-- The tasks are where the walks look for them. -/
structure Walkable (s : SchedState) : Prop where
  current_live : s.current ∈ s.live
  parent_live : s.parent ∈ s.live
  current_ne : s.current ≠ s.parent
  current_wq : s.current ∉ s.hd .wq
  locks : ∀ l t, t ∈ s.hd (.lock l) → t = s.current ∨ t = s.parent
  nrp : s.nrp = 0 → ∀ k t, t ∈ s.hd (.rq k) → t = s.current ∨ t = s.parent

section

variable {s : SchedState}

theorem count_idleCall (t : TaskId) :
    (if s.idle ≠ s.current then [s.idle] else []).count t =
      if t = s.idle ∧ s.idle ≠ s.current then 1 else 0 := by
  by_cases hne : s.idle ≠ s.current
  · rw [if_pos hne, (List.nodup_singleton _).count]
    simp [hne]
  · rw [if_neg hne, if_neg fun hand => hne hand.2]
    rfl

theorem count_createCalls (h : ListsOk s) (t : TaskId) :
    (createCalls s).count t =
      (if t = s.idle ∧ s.idle ≠ s.current then 1 else 0) +
      (if t ∈ s.hd .wq ∧ t ≠ s.parent then 1 else 0) +
      (if t ∈ rqTasks s ∧ t ≠ s.current ∧ t ≠ s.parent then 1 else 0) +
      (if t ∈ ioTasks s 0 ∧ t ≠ s.current ∧ t ≠ s.parent then 1 else 0) +
      (if t = s.current then 1 else 0) := by
  unfold createCalls
  simp only [List.count_append, count_idleCall, ((h.nodup .wq).filter _).count,
    (h.nodup_rqTasks.filter _).count, (h.nodup_ioTasks.filter _).count,
    (List.nodup_singleton _).count, List.mem_filter, List.mem_singleton, decide_eq_true_eq]

theorem count_createCalls_current (h : ListsOk s) :
    (createCalls s).count s.current =
      (if s.current ∈ s.hd .wq ∧ s.current ≠ s.parent then 1 else 0) + 1 := by
  have hidle : ¬ (s.current = s.idle ∧ s.idle ≠ s.current) := fun hand => hand.2 hand.1.symm
  rw [count_createCalls h, if_neg hidle]
  simp

theorem count_createCalls_parent (h : Populated s) (hne : s.parent ≠ s.current) :
    (createCalls s).count s.parent = 0 := by
  rw [count_createCalls h.toListsOk]
  simp [h.idle_ne.symm, hne]

/-- The other tasks get a thread for each walk that visits them. -/
theorem count_createCalls_other (h : ListsOk s) {t : TaskId} (hcur : t ≠ s.current)
    (hpar : t ≠ s.parent) :
    (createCalls s).count t =
      (if t = s.idle then 1 else 0) + (if t ∈ s.hd .wq then 1 else 0) +
      (if t ∈ rqTasks s then 1 else 0) + (if t ∈ ioTasks s 0 then 1 else 0) := by
  have hidle : (t = s.idle ∧ s.idle ≠ s.current) ↔ t = s.idle :=
    and_iff_left_of_imp fun heq => heq ▸ hcur
  rw [count_createCalls h]
  simp only [hidle, hcur, hpar, ne_eq, not_false_eq_true, and_true, if_false, Nat.add_zero]

/-- How often the tasks of a list are visited. -/
def visits (s : SchedState) : Head → Nat
  | .wq => 1
  | .rq _ => if s.nrp ≠ 0 then 1 else 0
  | .io _ => 1
  | .lock _ => 0

theorem count_createCalls_linked (h : ListsOk s) {t : TaskId} {hd : Head} (ht : t ∈ s.hd hd)
    (hcur : t ≠ s.current) (hpar : t ≠ s.parent) :
    (createCalls s).count t = visits s hd := by
  have hhd {hd' : Head} : t ∈ s.hd hd' ↔ hd' = hd :=
    ⟨fun hmem => h.unique t _ _ hmem ht, fun heq => heq ▸ ht⟩
  rw [count_createCalls_other h hcur hpar, if_neg (h.member hd t ht).2.1]
  simp only [mem_rqTasks, mem_ioTasks, hhd]
  cases hd <;> simp [visits]

theorem walkable_of_counts (h : ListsOk s) (hcur : s.current ∈ s.live) (hpar : s.parent ∈ s.live)
    (hcount : ∀ t, (createCalls s).count t = if t ∈ s.live ∧ t ≠ s.parent then 1 else 0) :
    Walkable s := by
  have hself := hcount s.current
  rw [count_createCalls_current h] at hself
  have hne : s.current ≠ s.parent := by
    intro heq
    have hnone : ¬ (s.current ∈ s.live ∧ s.current ≠ s.parent) := fun hand => hand.2 heq
    rw [if_neg hnone] at hself
    omega
  have hmissed {t : TaskId} {hd : Head} (ht : t ∈ s.hd hd) (hcur : t ≠ s.current)
      (hpar : t ≠ s.parent) : (createCalls s).count t = 1 := by
    rw [hcount, if_pos ⟨(h.member hd t ht).1, hpar⟩]
  refine ⟨hcur, hpar, hne, fun hwq => ?_, fun l t ht => ?_, fun hnrp k t ht => ?_⟩
  · rw [if_pos ⟨hwq, hne⟩, if_pos ⟨hcur, hne⟩] at hself
    omega
  · by_contra hother
    obtain ⟨htc, htp⟩ := not_or.mp hother
    have hone := hmissed ht htc htp
    rw [count_createCalls_linked h ht htc htp] at hone
    cases hone
  · by_contra hother
    obtain ⟨htc, htp⟩ := not_or.mp hother
    have hone := hmissed ht htc htp
    rw [count_createCalls_linked h ht htc htp, visits, if_neg (not_not.mpr hnrp)] at hone
    cases hone

theorem counts_of_walkable (h : Populated s) (hw : Walkable s) (t : TaskId) :
    (createCalls s).count t = if t ∈ s.live ∧ t ≠ s.parent then 1 else 0 := by
  have hlists := h.toListsOk
  by_cases hcur : t = s.current
  · rw [hcur, count_createCalls_current hlists, if_neg fun hand => hw.current_wq hand.1,
      if_pos ⟨hw.current_live, hw.current_ne⟩]
  by_cases hpar : t = s.parent
  · rw [hpar, count_createCalls_parent h hw.current_ne.symm, if_neg fun hand => hand.2 rfl]
  by_cases hlinked : ∃ hd, t ∈ s.hd hd
  · obtain ⟨hd, ht⟩ := hlinked
    rw [count_createCalls_linked hlists ht hcur hpar, if_pos ⟨(h.member hd t ht).1, hpar⟩]
    cases hd with
    | wq => rfl
    | io fd => rfl
    | lock l => exact absurd (hw.locks l t ht) (not_or.mpr ⟨hcur, hpar⟩)
    | rq k =>
        refine if_pos fun hnrp => ?_
        exact absurd (hw.nrp hnrp k t ht) (not_or.mpr ⟨hcur, hpar⟩)
  · -- who is in no list is the idle task, or has ended
    have hno (hd : Head) : t ∉ s.hd hd := fun ht => hlinked ⟨hd, ht⟩
    rw [count_createCalls_other hlists hcur hpar]
    simp only [mem_rqTasks, mem_ioTasks, hno, exists_false, and_false, if_false, Nat.add_zero]
    by_cases hidle : t = s.idle
    · rw [if_pos hidle, if_pos ⟨hidle ▸ h.idle_live, hpar⟩]
    · rw [if_neg hidle, if_neg fun hand => hlinked (h.linked t hand.1 hidle hpar)]

end

theorem contextLaw_iff_walkable {s : OsState} (h : Populated s.sched)
    (hsfs : s.osSchedEnabled = false) : ContextLaw s ↔ Walkable s.sched := by
  have hcall : switchToOsThreading s =
      if s.sched.current ∈ s.sched.live ∧ s.sched.parent ∈ s.sched.live then
        some ({ s with osSchedEnabled := true }, ⟨createCalls s.sched, [s.sched.parent]⟩)
      else none := by
    rw [switchToOsThreading, hsfs, if_neg Bool.false_ne_true]
  unfold ContextLaw
  rw [hcall]
  constructor
  · rintro ⟨s', c, hsome, hcount, -⟩
    obtain ⟨⟨hcur, hpar⟩, hval⟩ := Option.ite_none_right_eq_some.mp hsome
    cases hval
    exact walkable_of_counts h.toListsOk hcur hpar hcount
  · intro hw
    rw [if_pos ⟨hw.current_live, hw.parent_live⟩]
    exact ⟨_, _, rfl, counts_of_walkable h hw, rfl⟩

/-- In every reachable state in which the library schedules the tasks itself, a switch to OS
threads gives each task one context if and only if the walks find the tasks. -/
theorem contextLaw_iff {now : Int} {ops : List OsOp} {s : OsState}
    (hrun : PartialSteps.run osStep (osInit now) ops = some s) (hsfs : s.osSchedEnabled = false) :
    ContextLaw s ↔ Walkable s.sched :=
  contextLaw_iff_walkable (populated_of_run hrun) hsfs

/-- The program waits, and the task of the soft interrupts is the current one. -/
def mainWaits : List OsOp := [.lib (.op (.addToWaitQ 1)), .lib (.op (.schedule 2))]

theorem contextLaw_mainWaits :
    ∃ s, PartialSteps.run osStep (osInit 0) mainWaits = some s ∧ s.osSchedEnabled = false ∧
      ContextLaw s := by
  have hfacts (l : LockId) : (PartialSteps.run osStep (osInit 0) mainWaits).map (fun s =>
      (s.osSchedEnabled, s.sched.live, s.sched.current, s.sched.parent, s.sched.hd .wq,
        s.sched.hd (.lock l), s.sched.nrp)) = some (false, [1, 2, 3], 3, 1, [1], [], 1) := rfl
  obtain ⟨s, hrun, -⟩ := Option.map_eq_some_iff.mp (hfacts 0)
  have hs (l : LockId) := hfacts l
  simp only [hrun, Option.map_some, Option.some.injEq, Prod.mk.injEq, forall_and,
    forall_const] at hs
  obtain ⟨hsfs, hlive, hcur, hpar, hwq, hlocks, hnrp⟩ := hs
  refine ⟨s, hrun, hsfs, (contextLaw_iff hrun hsfs).mpr ⟨?_, ?_, ?_, ?_, ?_, ?_⟩⟩
  · simp [hlive, hcur]
  · simp [hlive, hpar]
  · simp [hcur, hpar]
  · simp [hwq, hcur]
  · simp [hlocks]
  · simp [hnrp]

/-- Task 4 waits for a lock of the program, and task 5 is the current one. -/
def lockWaits : List OsOp :=
  [.lib (.op (.lock 7)), .lib (.op (.spawn 5 true true 1)), .lib (.op (.spawn 5 true true 2)),
    .lib (.op (.addToWaitQ 3)), .lib (.op (.schedule 4)), .lib (.op (.addToWaitQ 5)),
    .lib (.op (.schedule 6)), .lib (.op (.lock 7)), .lib (.op (.schedule 7))]

/-- A program that switches right after `tmlib_init` is given a thread besides the one it runs
on, and a task that waits for a lock is given none. -/
theorem not_contextLaw_lost :
    (∃ s' c, switchToOsThreading (osInit 0) = some (s', c) ∧ 1 ∈ c.created ∧ c.resumed = [1] ∧
      ¬ ContextLaw (osInit 0)) ∧
    ∃ s s' c, PartialSteps.run osStep (osInit 0) lockWaits = some s ∧
      switchToOsThreading s = some (s', c) ∧ 4 ∈ s.sched.live ∧ 4 ∉ c.created ∧
      ¬ ContextLaw s := by
  constructor
  · have hcur : (osInit 0).sched.current = 1 := rfl
    have hpar : (osInit 0).sched.parent = 1 := rfl
    have hpop : Populated (osInit 0).sched := populated_of_run (PartialSteps.run_nil osStep _)
    refine ⟨{ osInit 0 with osSchedEnabled := true }, ⟨createCalls (osInit 0).sched, [1]⟩, rfl, ?_,
      rfl, fun hlaw => ?_⟩
    · rw [createCalls, List.mem_append, hcur]
      exact .inr (List.mem_singleton_self 1)
    · exact ((contextLaw_iff_walkable hpop rfl).mp hlaw).current_ne (hcur.trans hpar.symm)
  · have hfacts : (PartialSteps.run osStep (osInit 0) lockWaits).map (fun s =>
        (s.osSchedEnabled, s.sched.live, s.sched.current, s.sched.parent, s.sched.hd (.lock 7))) =
          some (false, [1, 2, 3, 4, 5], 5, 1, [4]) := rfl
    obtain ⟨s, hrun, hs⟩ := Option.map_eq_some_iff.mp hfacts
    simp only [Prod.mk.injEq] at hs
    obtain ⟨hsfs, hlive, hcur, hpar, hlock⟩ := hs
    have hpop := populated_of_run hrun
    have hmem : 4 ∈ s.sched.hd (.lock 7) := by simp [hlock]
    have hnone := count_createCalls_linked hpop.toListsOk hmem (by simp [hcur]) (by simp [hpar])
    refine ⟨s, { s with osSchedEnabled := true }, ⟨createCalls s.sched, [s.sched.parent]⟩, hrun,
      ?_, by simp [hlive], List.count_eq_zero.mp hnone, fun hlaw => ?_⟩
    · rw [switchToOsThreading, hsfs, if_neg Bool.false_ne_true,
        if_pos (by simp [hlive, hcur, hpar])]
    · have hfound := ((contextLaw_iff_walkable hpop hsfs).mp hlaw).locks 7 4 hmem
      simp [hcur, hpar] at hfound

/-! ## Cancelling the threads -/

/-- The tasks whose threads are to be cancelled. -/
def Listed (s : SchedState) (t : TaskId) : Prop :=
  t = s.idle ∨ t ∈ s.hd .wq ∨ (∃ k, t ∈ s.hd (.rq k)) ∨ ∃ fd, t ∈ s.hd (.io fd)

instance (s : SchedState) (t : TaskId) : Decidable (Listed s t) :=
  inferInstanceAs (Decidable (_ ∨ _))

/-- The call is defined and cancels, once each, the threads of the listed tasks but the current
one. -/
def CancelLaw (s : OsState) : Prop :=
  ∃ s' cancelled, switchBack s = some (s', cancelled) ∧
    ∀ t, cancelled.count t = if Listed s.sched t ∧ t ≠ s.sched.current then 1 else 0

/-- There is a list for the test of the loop, no thread is left to the loop, and none on a run
queue that is not walked. -/
structure Cancellable (s : SchedState) : Prop where
  list : ∃ fd, s.hd (.io fd) ≠ []
  io : ∀ fd t, t ∈ s.hd (.io fd) → t = s.current
  nrp : s.nrp = 0 → ∀ k t, t ∈ s.hd (.rq k) → t = s.current

theorem switchBack_eq (s : OsState) :
    switchBack s = if ∃ fd, s.sched.hd (.io fd) ≠ [] then
      some ({ s with osSchedEnabled := false }, cancelCalls s.sched) else none := by
  unfold switchBack
  cases hnext : ioGetNextNonEmptyTaskList s.sched 0 with
  | none =>
      have hall := ioGetNextNonEmptyTaskList_eq_none.mp hnext
      rw [if_neg]
      rintro ⟨fd, hne⟩
      exact hne (hall fd (Nat.zero_le _))
  | some k =>
      rw [if_pos]
      by_contra hnone
      have hall : ∀ k : Fin maxFds, 0 ≤ k.val → s.sched.hd (.io k) = [] :=
        fun k _ => not_not.mp fun hne => hnone ⟨k, hne⟩
      rw [ioGetNextNonEmptyTaskList_eq_none.mpr hall] at hnext
      cases hnext

section

variable {s : SchedState}

theorem count_cancelCalls (h : ListsOk s) (t : TaskId) :
    (cancelCalls s).count t =
      if t = s.current then 0
      else (if t = s.idle then 1 else 0) + (if t ∈ s.hd .wq then 1 else 0) +
        (if t ∈ rqTasks s then 1 else 0) := by
  unfold cancelCalls
  rw [List.count_append, List.count_append, ((h.nodup .wq).filter _).count,
    (h.nodup_rqTasks.filter _).count, count_idleCall]
  simp only [List.mem_filter, decide_eq_true_eq]
  by_cases hcur : t = s.current
  · simp [hcur]
    exact fun heq => heq.symm
  · have hidle : (t = s.idle ∧ s.idle ≠ s.current) ↔ t = s.idle :=
      and_iff_left_of_imp fun heq => heq ▸ hcur
    simp only [hcur, hidle, ne_eq, not_false_eq_true, and_true, if_false]
    omega

theorem count_cancelCalls_linked (h : ListsOk s) {t : TaskId} {hd : Head} (ht : t ∈ s.hd hd)
    (hcur : t ≠ s.current) (hio : ∀ fd, hd ≠ .io fd) : (cancelCalls s).count t = visits s hd := by
  have hhd {hd' : Head} : t ∈ s.hd hd' ↔ hd' = hd :=
    ⟨fun hmem => h.unique t _ _ hmem ht, fun heq => heq ▸ ht⟩
  rw [count_cancelCalls h, if_neg hcur, if_neg (h.member hd t ht).2.1]
  simp only [mem_rqTasks, hhd]
  cases hd with
  | io fd => exact absurd rfl (hio fd)
  | _ => simp [visits]

theorem count_cancelCalls_io (h : ListsOk s) {t : TaskId} {fd : Fin maxFds}
    (ht : t ∈ s.hd (.io fd)) : (cancelCalls s).count t = 0 := by
  have hwq : t ∉ s.hd .wq := fun hmem => by cases h.unique t _ _ ht hmem
  have hrq : t ∉ rqTasks s := by
    intro hmem
    obtain ⟨-, k, hk⟩ := mem_rqTasks.mp hmem
    cases h.unique t _ _ ht hk
  rw [count_cancelCalls h, if_neg (h.member _ t ht).2.1, if_neg hwq, if_neg hrq, ite_self]

/-- The calls are right if and only if nothing was left to the loop over the descriptors or to
run queues that are not walked. -/
theorem counts_cancelCalls_iff (h : ListsOk s) :
    (∀ t, (cancelCalls s).count t = if Listed s t ∧ t ≠ s.current then 1 else 0) ↔
      (∀ fd t, t ∈ s.hd (.io fd) → t = s.current) ∧
        (s.nrp = 0 → ∀ k t, t ∈ s.hd (.rq k) → t = s.current) := by
  constructor
  · intro hcount
    refine ⟨fun fd t ht => ?_, fun hnrp k t ht => ?_⟩
    · by_contra hcur
      have hone := hcount t
      rw [count_cancelCalls_io h ht, if_pos ⟨.inr (.inr (.inr ⟨fd, ht⟩)), hcur⟩] at hone
      cases hone
    · by_contra hcur
      have hone := hcount t
      rw [count_cancelCalls_linked h ht hcur (by simp), visits, if_neg (not_not.mpr hnrp),
        if_pos ⟨.inr (.inr (.inl ⟨k, ht⟩)), hcur⟩] at hone
      cases hone
  · rintro ⟨hio, hnrp⟩ t
    by_cases hcur : t = s.current
    · rw [count_cancelCalls h, if_pos hcur, if_neg fun hand => hand.2 hcur]
    by_cases hlisted : Listed s t
    · rw [if_pos ⟨hlisted, hcur⟩]
      rcases hlisted with hidle | hwq | ⟨k, hrq⟩ | ⟨fd, hfd⟩
      · have hno (hd : Head) : t ∉ s.hd hd := fun ht => (h.member hd t ht).2.1 hidle
        rw [count_cancelCalls h, if_neg hcur, if_pos hidle]
        simp [mem_rqTasks, hno]
      · exact count_cancelCalls_linked h hwq hcur (by simp)
      · rw [count_cancelCalls_linked h hrq hcur (by simp)]
        exact if_pos fun hzero => hcur (hnrp hzero k t hrq)
      · exact absurd (hio fd t hfd) hcur
    · rw [if_neg fun hand => hlisted hand.1, count_cancelCalls h, if_neg hcur,
        if_neg fun hidle => hlisted (.inl hidle), if_neg fun hwq => hlisted (.inr (.inl hwq)),
        if_neg fun hrq => hlisted (.inr (.inr (.inl (mem_rqTasks.mp hrq).2)))]

end

/-- Whatever lists are empty, `switch_back` cancels the right threads if and only if there is a
task waiting for a descriptor, and that is the current one. -/
theorem cancelLaw_iff (s : OsState) (h : ListsOk s.sched) : CancelLaw s ↔ Cancellable s.sched := by
  unfold CancelLaw
  rw [switchBack_eq]
  constructor
  · rintro ⟨s', cancelled, hsome, hcount⟩
    obtain ⟨hlist, hval⟩ := Option.ite_none_right_eq_some.mp hsome
    cases hval
    obtain ⟨hio, hnrp⟩ := (counts_cancelCalls_iff h).mp hcount
    exact ⟨hlist, hio, hnrp⟩
  · rintro ⟨hlist, hio, hnrp⟩
    rw [if_pos hlist]
    exact ⟨_, _, rfl, (counts_cancelCalls_iff h).mpr ⟨hio, hnrp⟩⟩

/-- The program gives way to the task of the soft interrupts without waiting for anything, so
that no list has it. -/
def mainGivesWay : OsOp := .lib (.op (.schedule 2))

/-- The tasks are OS threads; the task of the soft interrupts, which was the current one, is on
the list of a descriptor, and task 4 is on a run queue. -/
def softIrqOnFd : List OsOp :=
  [.lib (.op (.spawn 5 true true 1)), mainGivesWay, .lib (.op (.waitOnFd 4)), .switchToOsThreading]

theorem cancelLaw_softIrqOnFd :
    ∃ s, PartialSteps.run osStep (osInit 0) softIrqOnFd = some s ∧ s.osSchedEnabled = true ∧
      cancelCalls s.sched = [4, 2] ∧ CancelLaw s := by
  have hfacts : (PartialSteps.run osStep (osInit 0) softIrqOnFd).map (fun s =>
      (s.osSchedEnabled, s.sched.current, s.sched.hd (.io 4), s.sched.nrp,
        cancelCalls s.sched)) = some (true, 3, [3], 2, [4, 2]) := by
    decide +kernel
  have hio (fd : Fin maxFds) : (PartialSteps.run osStep (osInit 0) softIrqOnFd).any
      (fun s => (s.sched.hd (.io fd)).all (· = 3)) = true := by
    revert fd
    decide +kernel
  obtain ⟨s, hrun, hs⟩ := Option.map_eq_some_iff.mp hfacts
  simp only [Prod.mk.injEq] at hs
  obtain ⟨hos, hcur, hlist, hnrp, hcalls⟩ := hs
  simp only [hrun, Option.any_some, List.all_eq_true, decide_eq_true_eq] at hio
  refine ⟨s, hrun, hos, hcalls,
    (cancelLaw_iff s (populated_of_run hrun).toListsOk).mpr ⟨⟨4, ?_⟩, ?_, ?_⟩⟩
  · simp [hlist]
  · rwa [hcur]
  · intro hzero
    rw [hnrp] at hzero
    cases hzero

/-- No task waits for a descriptor: `switch_back` takes the null pointer for a list. -/
def nobodyOnFd : List OsOp := [mainGivesWay, .switchToOsThreading]

/-- The task of the soft interrupts waits for a descriptor, and task 4 is the current one. -/
def otherOnFd : List OsOp :=
  [.lib (.op (.spawn 5 true true 1)), mainGivesWay, .lib (.op (.waitOnFd 4)),
    .lib (.op (.schedule 5)), .switchToOsThreading]

/-- With nobody on a descriptor `switch_back` has no outcome; otherwise the threads of those who
wait there are not cancelled. -/
theorem not_cancelLaw_io :
    (∃ s, PartialSteps.run osStep (osInit 0) nobodyOnFd = some s ∧ s.osSchedEnabled = true ∧
      switchBack s = none ∧ ¬ CancelLaw s) ∧
    ∃ s s' cancelled, PartialSteps.run osStep (osInit 0) otherOnFd = some s ∧
      s.osSchedEnabled = true ∧ 3 ∈ s.sched.hd (.io 4) ∧ s.sched.current = 4 ∧
      switchBack s = some (s', cancelled) ∧ 3 ∉ cancelled ∧ ¬ CancelLaw s := by
  constructor
  · have hfacts : (PartialSteps.run osStep (osInit 0) nobodyOnFd).map (fun s =>
        (s.osSchedEnabled, (List.finRange maxFds).all fun fd => s.sched.hd (.io fd) = [])) =
          some (true, true) := by
      decide +kernel
    obtain ⟨s, hrun, hs⟩ := Option.map_eq_some_iff.mp hfacts
    simp only [Prod.mk.injEq, List.all_eq_true, List.mem_finRange, decide_eq_true_eq,
      forall_const] at hs
    obtain ⟨hos, hempty⟩ := hs
    have hnone : switchBack s = none := by
      rw [switchBack_eq, if_neg fun hex => hex.elim fun fd hne => hne (hempty fd)]
    refine ⟨s, hrun, hos, hnone, ?_⟩
    rintro ⟨s', cancelled, hsome, -⟩
    rw [hnone] at hsome
    cases hsome
  · have hfacts : (PartialSteps.run osStep (osInit 0) otherOnFd).map (fun s =>
        (s.osSchedEnabled, s.sched.hd (.io 4), s.sched.current)) = some (true, [3], 4) := rfl
    obtain ⟨s, hrun, hs⟩ := Option.map_eq_some_iff.mp hfacts
    simp only [Prod.mk.injEq] at hs
    obtain ⟨hos, hio, hcur⟩ := hs
    have hlists := (populated_of_run hrun).toListsOk
    have hmem : 3 ∈ s.sched.hd (.io 4) := by simp [hio]
    have hback : switchBack s =
        some ({ s with osSchedEnabled := false }, cancelCalls s.sched) := by
      rw [switchBack_eq, if_pos ⟨4, by simp [hio]⟩]
    have hnot : 3 ∉ cancelCalls s.sched := List.count_eq_zero.mp (count_cancelCalls_io hlists hmem)
    refine ⟨s, _, _, hrun, hos, hmem, hcur, hback, hnot, ?_⟩
    rintro ⟨s', cancelled, hsome, hcount⟩
    rw [hback] at hsome
    cases hsome
    have hone := hcount 3
    rw [count_cancelCalls_io hlists hmem,
      if_pos ⟨.inr (.inr (.inr ⟨4, hmem⟩)), by simp [hcur]⟩] at hone
    cases hone

end Sched
end TmULThreads
