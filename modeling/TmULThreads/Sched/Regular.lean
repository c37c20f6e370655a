import TmULThreads.Sched.Effects

/-!
# Every step, and what holds in every run

`effect_of_step` puts the pieces together: a step of `schedStep` is one of the
kinds of `Effect`.  `Regular` is `Queued` with what is known of `current` and of
the cached task; it holds in every state that the scheduler reaches from
`tmlibInit`.
-/

namespace TmULThreads
namespace Sched

/-- The operation is one by which the current task waits. -/
def Waits (s : SchedState) : Op → Prop
  | .addToWaitQ _ => (s.tsk s.current).onrq = true
  | .waitOnFd _ => True
  | .lock l => (s.lock l).lock ≠ 0
  | _ => False

instance (s : SchedState) : ∀ op, Decidable (Waits s op)
  | .addToWaitQ _ => inferInstanceAs (Decidable (_ = _))
  | .waitOnFd _ => isTrue trivial
  | .lock _ => inferInstanceAs (Decidable (_ ≠ _))
  | .spawn .. | .unlock .. | .wakeup .. | .wakeIo .. | .postEvent .. | .tick _ | .schedule _ =>
      isFalse not_false

/-- The operation keeps the books: a task waits for a descriptor only if it is on
a run queue, and a lock is taken only when it is free. -/
def Tallied (s : SchedState) : Op → Prop
  | .waitOnFd _ => (s.tsk s.current).onrq = true
  | .lock l => (s.lock l).lock = 0
  | _ => True

instance (s : SchedState) : ∀ op, Decidable (Tallied s op)
  | .waitOnFd _ => inferInstanceAs (Decidable ((s.tsk s.current).onrq = true))
  | .lock l => inferInstanceAs (Decidable ((s.lock l).lock = 0))
  | .spawn .. | .addToWaitQ .. | .unlock .. | .wakeup .. | .wakeIo .. | .postEvent .. | .tick ..
  | .schedule .. => isTrue trivial

inductive Effect (s : SchedState) : Op → SchedState → Prop
  | untouched {op : Op} {s' : SchedState} (hop : ¬ Waits s op) (h : Untouched s s') :
      Effect s op s'
  | waited {op : Op} {s' : SchedState} {h : Head} (hop : Waits s op) (hidle : s.current ≠ s.idle)
      (hw : Waited h s s') (hnwp : s'.nwp = s.nwp + 1)
      (hnrp : Tallied s op → (s.tsk s.current).onrq = true ∧ s'.nrp = s.nrp - 1)
      (hdrift : ¬ Tallied s op →
        s'.nrp = s.nrp ∨ ((s.tsk s.current).onrq = false ∧ s'.nrp = s.nrp - 1))
      (hhead : ∀ l, h = .lock l → op = .lock l) : Effect s op s'
  | woken {p : TaskId} {now : Int} {s' : SchedState} (hlive : p ∈ s.live) (hidle : p ≠ s.idle)
      (h : Woken p s s') : Effect s (.wakeup p now) s'
  | wakes {op : Op} {mid s' : SchedState} (hop : ¬ Waits s op) (hmid : Untouched s mid)
      (h : Wakes mid s') : Effect s op s'
  | joined {op : Op} {p : TaskId} {k : Fin maxPrio} {s' : SchedState} (hop : ¬ Waits s op)
      (h : Joined p k s s') : Effect s op s'
  | switched {e : TaskId} {now : Int} {s' : SchedState} (h : Switched e s s') :
      Effect s (.schedule now) s'

/-! ## Wakeups of linked tasks -/

theorem Untouched.refl (s : SchedState) : Untouched s s :=
  ⟨Quiet.refl s, fun _ => rfl, rfl, rfl, rfl, rfl⟩

theorem Wakes.preserves {J : SchedState → Prop}
    (hkeep : ∀ s s' p h, p ∈ s.hd h → Woken p s s' → J s → J s') {s s' : SchedState}
    (h : Wakes s s') (hs : J s) : J s' := by
  induction h with
  | done s => exact hs
  | wake hmem hwoken _ ih => exact ih (hkeep _ _ _ _ hmem hwoken hs)

theorem Queued.of_woken {s s' : SchedState} {p : TaskId} (hq : Queued s) (h : Woken p s s')
    (hlive : p ∈ s.live) (hidle : p ≠ s.idle) : Queued s' := by
  rcases h.change with ⟨-, hquiet, -, -⟩ | ⟨-, hmoved, -, -⟩
  · exact hq.of_quiet hquiet
  · exact hq.of_moved hmoved hlive hidle

theorem ListsOk.of_woken {s s' : SchedState} {p : TaskId} (hl : ListsOk s) (h : Woken p s s')
    (hlive : p ∈ s.live) (hidle : p ≠ s.idle) : ListsOk s' := by
  rcases h.change with ⟨-, hquiet, -, -⟩ | ⟨-, hmoved, -, -⟩
  · exact hl.of_quiet hquiet
  · exact hl.of_moved hmoved hlive hidle

theorem wakes_wakeupTask {s : SchedState} {p : TaskId} {h : Head} (hmem : p ∈ s.hd h) (now : Int) :
    Wakes s (wakeupTask s p now) :=
  .wake hmem (woken_wakeupTask s p now) (.done _)

theorem listDel_listDel (s : SchedState) (p : TaskId) : listDel (listDel s p) p = listDel s p := by
  simp only [listDel, List.filter_filter, Bool.and_self]

/-- The `list_del` of `wake_io_task` is done again by `wakeup_task`. -/
theorem wakeupTask_listDel {s : SchedState} {p : TaskId} (h : (s.tsk p).onrq = false) (now : Int) :
    wakeupTask (listDel s p) p now = wakeupTask s p now := by
  have hdel : ((listDel s p).tsk p).onrq = false := h
  unfold wakeupTask
  simp only [h, hdel, Bool.false_eq_true, if_false, listDel_listDel]
  rfl

theorem wakes_foldl {fd : Fin maxFds} {now : Int} {l : List TaskId} {s : SchedState}
    (hl : ListsOk s) (hnodup : l.Nodup) (hmem : ∀ p ∈ l, p ∈ s.hd (.io fd)) :
    Wakes s (l.foldl (fun s p => wakeupTask (listDel s p) p now) s) := by
  induction l generalizing s with
  | nil => exact .done s
  | cons p l ih =>
      obtain ⟨hnot, hrest⟩ := List.nodup_cons.mp hnodup
      have hp := hmem p List.mem_cons_self
      obtain ⟨hlive, hidle, honrq⟩ := hl.member _ _ hp
      have hwoken := woken_wakeupTask s p now
      rw [List.foldl_cons, wakeupTask_listDel honrq]
      refine .wake hp hwoken (ih (hl.of_woken hwoken hlive hidle) hrest fun q hql => ?_)
      -- the tasks behind `p` in the list have not been moved
      have hne : q ≠ p := fun heq => hnot (heq ▸ hql)
      have hqmem := hmem q (List.mem_cons_of_mem p hql)
      rcases hwoken.change with ⟨hon, -⟩ | ⟨-, hmoved, -⟩
      · rw [honrq] at hon
        cases hon
      · exact (hmoved.mem_iff q _).mpr (.inr ⟨hne, hqmem⟩)

theorem wakes_wakeIoTask {s : SchedState} (hl : ListsOk s) (fd : Fin maxFds) (now : Int) :
    Wakes s (wakeIoTask s fd now) :=
  wakes_foldl hl (hl.nodup _) fun _ => id

theorem findTask_eq_some {s : SchedState} {tid p : TaskId} (h : findTask s tid = some p) :
    p = tid ∧ ∃ hd, tid ∈ s.hd hd := by
  unfold findTask at h
  dsimp only at h
  split at h
  · rename_i hfound
    refine ⟨(Option.some.inj h).symm, ?_⟩
    simp only [Bool.or_eq_true, Bool.and_eq_true, List.any_eq_true, decide_eq_true_eq] at hfound
    rcases hfound with (⟨fd, -, hmem⟩ | hmem) | ⟨-, k, -, hmem⟩
    · exact ⟨.io fd, hmem⟩
    · exact ⟨.wq, hmem⟩
    · exact ⟨.rq k, hmem⟩
  · cases h

/-! ## Single calls -/

/-- The lock `l` has been given up. -/
def SchedState.dropLock (s : SchedState) (l : LockId) : SchedState :=
  { s with lock := Function.update s.lock l ⟨none, (s.lock l).lock - 1⟩ }

theorem untouched_dropLock (s : SchedState) (l : LockId) : Untouched s (s.dropLock l) :=
  ⟨⟨rfl, le_rfl, rfl, rfl, rfl, fun _ => rfl⟩, fun _ => rfl, rfl, rfl, rfl, rfl⟩

/-- `unlock` fails and changes nothing, finds nobody waiting, or wakes the first task of the
list. -/
theorem unlock_eq_some {s s' : SchedState} {l : LockId} {now : Int}
    (h : Sched.unlock s l now = some s') :
    ((s.lock l).owner ≠ some s.current ∧ s' = s) ∨
      ((s.lock l).owner = some s.current ∧
        ((s.hd (.lock l) = [] ∧ s' = s.dropLock l) ∨
          ∃ p rest, s.hd (.lock l) = p :: rest ∧ s' = wakeupTask (s.dropLock l) p now)) := by
  unfold Sched.unlock at h
  split at h
  · rename_i howner
    exact .inl ⟨howner, (Option.some.inj h).symm⟩
  · rename_i howner
    split at h
    · cases h
    · refine .inr ⟨not_not.mp howner, ?_⟩
      dsimp only at h
      split at h
      · rename_i hnil
        exact .inl ⟨hnil, (Option.some.inj h).symm⟩
      · rename_i p rest hcons
        exact .inr ⟨p, rest, hcons, (Option.some.inj h).symm⟩

theorem effect_unlock {s s' : SchedState} {l : LockId} {now : Int}
    (h : Sched.unlock s l now = some s') : Effect s (.unlock l now) s' := by
  have hmid := untouched_dropLock s l
  rcases unlock_eq_some h with ⟨-, rfl⟩ | ⟨-, ⟨-, rfl⟩ | ⟨p, rest, hcons, rfl⟩⟩
  · exact .untouched id (Untouched.refl s')
  · exact .untouched id hmid
  · have hp : p ∈ (s.dropLock l).hd (.lock l) := hcons ▸ List.mem_cons_self
    exact .wakes id hmid (wakes_wakeupTask hp now)

/-- The event has been stored for the task `p`. -/
def SchedState.addEvent (s : SchedState) (p : TaskId) (event : BitVec 32) : SchedState :=
  s.setTsk p { s.tsk p with event := (s.tsk p).event ||| event }

theorem untouched_addEvent (s : SchedState) (p : TaskId) (event : BitVec 32) :
    Untouched s (s.addEvent p event) :=
  untouched_setTsk rfl rfl

/-- `post_event` does nothing for a task that it does not find. -/
theorem postEvent_cases (s : SchedState) (tid : TaskId) (event : BitVec 32) (now : Int) :
    (findTask s tid = none ∧ Sched.postEvent s tid event now = s) ∨
      ∃ p, findTask s tid = some p ∧
        Sched.postEvent s tid event now = wakeupTask (s.addEvent p event) p now := by
  unfold Sched.postEvent
  cases hfind : findTask s tid with
  | none => exact .inl ⟨rfl, rfl⟩
  | some p => exact .inr ⟨p, rfl, rfl⟩

theorem effect_postEvent (s : SchedState) (tid : TaskId) (event : BitVec 32) (now : Int) :
    Effect s (.postEvent tid event now) (Sched.postEvent s tid event now) := by
  rcases postEvent_cases s tid event now with ⟨-, heq⟩ | ⟨p, hfind, heq⟩
  · rw [heq]
    exact .untouched id (Untouched.refl s)
  · obtain ⟨rfl, hd, hmem⟩ := findTask_eq_some hfind
    have hlinked : p ∈ (s.addEvent p event).hd hd := hmem
    rw [heq]
    exact .wakes id (untouched_addEvent s p event) (wakes_wakeupTask hlinked now)

theorem effect_spawn (s : SchedState) (k : Fin maxPrio) (tskOk stkOk : Bool) (now : Int) {op : Op}
    (hop : ¬ Waits s op) : Effect s op (spawnTask s k true tskOk stkOk now).1 := by
  cases hok : tskOk && stkOk with
  | false => exact .untouched hop (untouched_spawnTask s k hok now).1
  | true =>
      obtain ⟨rfl, rfl⟩ := Bool.and_eq_true_iff.mp hok
      exact .joined hop (joined_spawnTask s k now)

/-! ## The guards of a step -/

section Guards

variable {s s' : SchedState} {now : Int}

theorem schedStep_spawn {prio : Int} {tskOk stkOk : Bool}
    (h : schedStep s (.spawn prio tskOk stkOk now) = some s') :
    ∃ k : Fin maxPrio, (k : Int) = prio ∧ s' = (spawnTask s k true tskOk stkOk now).1 := by
  simp only [schedStep] at h
  split at h
  · rename_i hrange
    exact ⟨_, Int.toNat_of_nonneg hrange.1, (Option.some.inj h).symm⟩
  · cases h

theorem schedStep_addToWaitQ (h : schedStep s (.addToWaitQ now) = some s') :
    s.current ≠ s.idle ∧ s' = addTaskToWaitQ s s.current now := by
  simp only [schedStep] at h
  split at h
  · cases h
  · rename_i hidle
    exact ⟨hidle, (Option.some.inj h).symm⟩

theorem schedStep_waitOnFd {fd : Nat} (h : schedStep s (.waitOnFd fd) = some s') :
    s.current ≠ s.idle ∧ ∃ k : Fin maxFds, (k : Nat) = fd ∧ s' = queueOnFd s k := by
  simp only [schedStep] at h
  split at h
  · rename_i hfd
    split at h
    · cases h
    · rename_i hidle
      exact ⟨hidle, ⟨fd, hfd⟩, rfl, (Option.some.inj h).symm⟩
  · cases h

theorem schedStep_lock {l : LockId} (h : schedStep s (.lock l) = some s') :
    s.current ≠ s.idle ∧ s' = lockPass s l := by
  simp only [schedStep] at h
  split at h
  · cases h
  · rename_i hidle
    exact ⟨hidle, (Option.some.inj h).symm⟩

theorem schedStep_wakeup {p : TaskId} (h : schedStep s (.wakeup p now) = some s') :
    p ∈ s.live ∧ p ≠ s.idle ∧ s' = wakeupTask s p now := by
  simp only [schedStep] at h
  split at h
  · rename_i hp
    exact ⟨hp.1, hp.2, (Option.some.inj h).symm⟩
  · cases h

theorem schedStep_wakeIo {fd : Nat} (h : schedStep s (.wakeIo fd now) = some s') :
    ∃ k : Fin maxFds, (k : Nat) = fd ∧ s' = wakeIoTask s k now := by
  simp only [schedStep] at h
  split at h
  · rename_i hfd
    exact ⟨⟨fd, hfd⟩, rfl, (Option.some.inj h).symm⟩
  · cases h

end Guards

/-! ## One step -/

theorem effect_of_schedStep {s s' : SchedState} {op : Op} (hl : ListsOk s)
    (hstep : schedStep s op = some s') : Effect s op s' := by
  cases op with
  | spawn prio tskOk stkOk now =>
      obtain ⟨_, -, rfl⟩ := schedStep_spawn hstep
      exact effect_spawn s _ tskOk stkOk now id
  | addToWaitQ now =>
      obtain ⟨hidle, rfl⟩ := schedStep_addToWaitQ hstep
      rcases addTaskToWaitQ_cases s now with ⟨honrq, heq⟩ | ⟨honrq, hw, hnrp, hnwp⟩
      · rw [heq]
        refine .untouched (fun hop => ?_) (Untouched.refl s)
        exact Bool.false_ne_true (honrq.symm.trans hop)
      · exact .waited honrq hidle hw hnwp (fun _ => ⟨honrq, hnrp⟩) (absurd trivial) nofun
  | waitOnFd fd =>
      obtain ⟨hidle, k, -, rfl⟩ := schedStep_waitOnFd hstep
      exact .waited trivial hidle (waited_queueOnFd s k) rfl (fun honrq => ⟨honrq, rfl⟩)
        (fun hoff => .inr ⟨Bool.eq_false_iff.mpr hoff, rfl⟩) nofun
  | lock l =>
      obtain ⟨hidle, rfl⟩ := schedStep_lock hstep
      by_cases hlock : (s.lock l).lock = 0
      · exact .untouched (fun hop => hop hlock) (untouched_lockPass hlock)
      · have hpass : lockPass s l =
            setTaskNotRq (listAddTail (listDel s s.current) s.current (.lock l)) := if_pos hlock
        refine .waited hlock hidle (waited_lockPass hlock) ?_ (absurd · hlock) (fun _ => .inl ?_)
          fun _ hl => congrArg Op.lock (Head.lock.inj hl)
        · rw [hpass]
          rfl
        · rw [hpass]
          rfl
  | unlock l now => exact effect_unlock hstep
  | wakeup p now =>
      obtain ⟨hlive, hidle, rfl⟩ := schedStep_wakeup hstep
      exact .woken hlive hidle (woken_wakeupTask s p now)
  | wakeIo fd now =>
      obtain ⟨_, -, rfl⟩ := schedStep_wakeIo hstep
      exact .wakes id (Untouched.refl s) (wakes_wakeIoTask hl _ now)
  | postEvent tid event now =>
      cases hstep
      exact effect_postEvent s tid event now
  | tick now =>
      cases hstep
      exact .untouched id (untouched_accountTaskTimeStats s now)
  | schedule now =>
      obtain ⟨e, he⟩ := switched_schedule hl hstep
      exact .switched he

/-- The lists stay in order even if the cached task has ended. -/
theorem ListsOk.of_effect {s s' : SchedState} {op : Op} (h : ListsOk s)
    (hcur : s.current ∈ s.live) (he : Effect s op s') : ListsOk s' := by
  cases he with
  | untouched _ hu => exact h.of_quiet hu.toQuiet
  | waited _ hidle hw => exact h.of_moved hw.moved hcur hidle
  | woken hlive hidle hw => exact h.of_woken hw hlive hidle
  | wakes _ hmid hw =>
      refine hw.preserves (fun s s' p hd hmem hwoken hs => ?_) (h.of_quiet hmid.toQuiet)
      obtain ⟨hlive, hidle, -⟩ := hs.member hd p hmem
      exact hs.of_woken hwoken hlive hidle
  | joined _ hj => exact h.of_spawned hj.spawned
  | switched hs =>
      rcases hs.change with hquiet | ⟨⟨k, hmem⟩, hmoved⟩
      · exact h.of_quiet hquiet
      · obtain ⟨hlive, hidle, -⟩ := h.member _ _ hmem
        exact h.of_moved hmoved hlive hidle

theorem effect_of_step {s s' : SchedState} {op : Op} (hq : Queued s)
    (hstep : schedStep s op = some s') : Effect s op s' :=
  effect_of_schedStep hq.listsOk hstep

/-! ## The current and the cached task -/

/-- The lists are in order and no pointer of the scheduler is to a task that does not
exist. -/
structure Sane (s : SchedState) : Prop extends ListsOk s where
  current_live : s.current ∈ s.live
  cache_live : ∀ c, s.nxtImmTask = some c → c ∈ s.live ∧ c ≠ s.idle

/-- Only a task that is live may become the current or the cached one. -/
theorem Sane.of_listsOk {s s' : SchedState} (h : Sane s) (hl : ListsOk s')
    (hlive : ∀ t ∈ s.live, t ∈ s'.live) (hidle : s'.idle = s.idle)
    (hcur : s'.current = s.current)
    (hcache : ∀ c, s'.nxtImmTask = some c →
      s.nxtImmTask = some c ∨ (c ∈ s'.live ∧ c ≠ s.idle)) : Sane s' where
  toListsOk := hl
  current_live := hcur ▸ hlive _ h.current_live
  cache_live := by
    intro c hc
    rw [hidle]
    rcases hcache c hc with hold | hnew
    · exact ⟨hlive c (h.cache_live c hold).1, (h.cache_live c hold).2⟩
    · exact hnew

theorem Sane.of_untouched {s s' : SchedState} (h : Sane s) (hu : Untouched s s') : Sane s' :=
  h.of_listsOk (h.toListsOk.of_quiet hu.toQuiet) (fun _ ht => hu.live.symm ▸ ht) hu.idle hu.current
    fun _ hc => .inl (hu.cache ▸ hc)

theorem Woken.live_eq {p : TaskId} {s s' : SchedState} (h : Woken p s s') : s'.live = s.live := by
  rcases h.change with ⟨-, hquiet, -⟩ | ⟨-, hmoved, -⟩
  · exact hquiet.live
  · exact hmoved.live

theorem Woken.idle_eq {p : TaskId} {s s' : SchedState} (h : Woken p s s') : s'.idle = s.idle := by
  rcases h.change with ⟨-, hquiet, -⟩ | ⟨-, hmoved, -⟩
  · exact hquiet.idle
  · exact hmoved.idle

theorem Sane.of_woken {s s' : SchedState} {p : TaskId} (h : Sane s) (hw : Woken p s s')
    (hlive : p ∈ s.live) (hidle : p ≠ s.idle) : Sane s' := by
  refine h.of_listsOk (h.toListsOk.of_woken hw hlive hidle) (fun _ ht => hw.live_eq.symm ▸ ht)
    hw.idle_eq hw.current fun c hc => ?_
  rcases hw.cache c hc with rfl | hold
  · exact .inr ⟨hw.live_eq.symm ▸ hlive, hidle⟩
  · exact .inl hold

theorem Sane.of_joined {s s' : SchedState} {p : TaskId} {k : Fin maxPrio} (h : Sane s)
    (hj : Joined p k s s') : Sane s' := by
  have hs := hj.spawned
  have hnew : p ∈ s'.live := by
    rw [hs.live]
    exact List.mem_append_right _ (List.mem_singleton_self p)
  refine h.of_listsOk (h.toListsOk.of_spawned hs) (fun t ht => ?_) hs.idle hj.current fun c hc => ?_
  · rw [hs.live]
    exact List.mem_append_left _ ht
  · rcases hj.cache c hc with rfl | hold
    · exact .inr ⟨hnew, hs.fresh ▸ (h.fresh h.idle_live).symm⟩
    · exact .inl hold

/-- An elected task is live: it is the idle one, the cached one or one of a
list. -/
theorem Sane.elected_live {s : SchedState} {e : TaskId} (h : Sane s)
    (he : (getNextEligibleTaskToRun s).2 = some e) : e ∈ s.live := by
  rcases elected_source he with ⟨-, rfl⟩ | ⟨-, hcache⟩ | ⟨k, hmem⟩
  · exact h.idle_live
  · exact (h.cache_live e hcache).1
  · exact (h.member _ e hmem).1

theorem Sane.of_switched {s s' : SchedState} {e : TaskId} (h : Sane s) (hs : Switched e s s') :
    Sane s' := by
  obtain ⟨hl, hlive, hidle⟩ : ListsOk s' ∧ s'.live = s.live ∧ s'.idle = s.idle := by
    rcases hs.change with hquiet | ⟨⟨k, hmem⟩, hmoved⟩
    · exact ⟨h.toListsOk.of_quiet hquiet, hquiet.live, hquiet.idle⟩
    · obtain ⟨hl, hi, -⟩ := h.member _ e hmem
      exact ⟨h.toListsOk.of_moved hmoved hl hi, hmoved.live, hmoved.idle⟩
  refine ⟨hl, ?_, fun c hc => ?_⟩
  · rw [hs.current, hlive]
    exact h.elected_live hs.elected
  · rw [hlive, hidle]
    exact h.cache_live c (hs.cache c hc)

theorem Sane.of_effect {s s' : SchedState} {op : Op} (h : Sane s) (he : Effect s op s') :
    Sane s' := by
  cases he with
  | untouched _ hu => exact h.of_untouched hu
  | waited _ hidle hw =>
      have hm := hw.moved
      exact h.of_listsOk (h.toListsOk.of_moved hm h.current_live hidle)
        (fun _ ht => hm.live.symm ▸ ht) hm.idle hw.current fun _ hc => .inl (hw.cache ▸ hc)
  | woken hlive hidle hw => exact h.of_woken hw hlive hidle
  | wakes _ hmid hw =>
      refine hw.preserves (fun s s' p hd hmem hwoken hs => ?_) (h.of_untouched hmid)
      obtain ⟨hlive, hidle, -⟩ := hs.member hd p hmem
      exact hs.of_woken hwoken hlive hidle
  | joined _ hj => exact h.of_joined hj
  | switched hs => exact h.of_switched hs

theorem Sane.of_schedStep {s s' : SchedState} {op : Op} (h : Sane s)
    (hstep : schedStep s op = some s') : Sane s' :=
  h.of_effect (effect_of_schedStep h.toListsOk hstep)

/-- No operation of the scheduler ends a task. -/
theorem Effect.live_mono {s s' : SchedState} {op : Op} (he : Effect s op s') {t : TaskId}
    (ht : t ∈ s.live) : t ∈ s'.live := by
  cases he with
  | untouched _ hu => exact hu.live.symm ▸ ht
  | waited _ _ hw => exact hw.moved.live.symm ▸ ht
  | woken _ _ hw => exact hw.live_eq.symm ▸ ht
  | wakes _ hmid hw =>
      exact hw.preserves (J := fun u => t ∈ u.live)
        (fun _ _ _ _ _ hwoken hu => hwoken.live_eq.symm ▸ hu) (hmid.live.symm ▸ ht)
  | joined _ hj =>
      rw [hj.spawned.live]
      exact List.mem_append_left _ ht
  | switched hs =>
      rcases hs.change with hquiet | ⟨-, hmoved⟩
      · exact hquiet.live.symm ▸ ht
      · exact hmoved.live.symm ▸ ht

/-- What none of the three kinds of change touches. -/
theorem Effect.kept {α : Type} {f : SchedState → α} (hquiet : ∀ s s', Quiet s s' → f s' = f s)
    (hmoved : ∀ p h s s', Moved p h s s' → f s' = f s)
    (hspawned : ∀ p k s s', Spawned p k s s' → f s' = f s) {s s' : SchedState} {op : Op}
    (he : Effect s op s') : f s' = f s := by
  have hwoken {p : TaskId} {s s' : SchedState} (hw : Woken p s s') : f s' = f s := by
    rcases hw.change with ⟨-, hq, -⟩ | ⟨-, hm, -⟩
    · exact hquiet _ _ hq
    · exact hmoved _ _ _ _ hm
  cases he with
  | untouched _ hu => exact hquiet _ _ hu.toQuiet
  | waited _ _ hw => exact hmoved _ _ _ _ hw.moved
  | woken _ _ hw => exact hwoken hw
  | wakes _ hmid hw =>
      exact hw.preserves (J := fun u => f u = f s) (fun _ _ _ _ _ hw hu => (hwoken hw).trans hu)
        (hquiet _ _ hmid.toQuiet)
  | joined _ hj => exact hspawned _ _ _ _ hj.spawned
  | switched hs =>
      rcases hs.change with hq | ⟨-, hm⟩
      · exact hquiet _ _ hq
      · exact hmoved _ _ _ _ hm

theorem Effect.idle_eq {s s' : SchedState} {op : Op} (he : Effect s op s') : s'.idle = s.idle :=
  he.kept (fun _ _ h => h.idle) (fun _ _ _ _ h => h.idle) (fun _ _ _ _ h => h.idle)

theorem Effect.parent_eq {s s' : SchedState} {op : Op} (he : Effect s op s') :
    s'.parent = s.parent :=
  he.kept (fun _ _ h => h.parent) (fun _ _ _ _ h => h.parent) (fun _ _ _ _ h => h.parent)

/-! ## Runs without exits -/

structure Regular (s : SchedState) : Prop extends Queued s where
  current_live : s.current ∈ s.live
  cache_live : ∀ c, s.nxtImmTask = some c → c ∈ s.live ∧ c ≠ s.idle

theorem Regular.sane {s : SchedState} (h : Regular s) : Sane s :=
  ⟨h.toQueued.listsOk, h.current_live, h.cache_live⟩

theorem Sane.regular {s : SchedState} (h : Sane s) (hq : Queued s) : Regular s :=
  ⟨hq, h.current_live, h.cache_live⟩

theorem Regular.of_untouched {s s' : SchedState} (h : Regular s) (hu : Untouched s s') :
    Regular s' :=
  (h.sane.of_untouched hu).regular (h.toQueued.of_quiet hu.toQuiet)

theorem Regular.of_woken {s s' : SchedState} {p : TaskId} (h : Regular s) (hw : Woken p s s')
    (hlive : p ∈ s.live) (hidle : p ≠ s.idle) : Regular s' :=
  (h.sane.of_woken hw hlive hidle).regular (h.toQueued.of_woken hw hlive hidle)

theorem Regular.of_joined {s s' : SchedState} {p : TaskId} {k : Fin maxPrio} (h : Regular s)
    (hj : Joined p k s s') : Regular s' :=
  (h.sane.of_joined hj).regular (h.toQueued.of_spawned hj.spawned)

theorem Regular.of_switched {s s' : SchedState} {e : TaskId} (h : Regular s)
    (hs : Switched e s s') : Regular s' := by
  refine (h.sane.of_switched hs).regular ?_
  rcases hs.change with hquiet | ⟨⟨k, hmem⟩, hmoved⟩
  · exact h.toQueued.of_quiet hquiet
  · obtain ⟨hlive, hidle, -⟩ := h.member _ e hmem
    exact h.toQueued.of_moved hmoved hlive hidle

theorem Regular.of_effect {s s' : SchedState} {op : Op} (h : Regular s) (he : Effect s op s') :
    Regular s' := by
  cases he with
  | untouched _ hu => exact h.of_untouched hu
  | waited hop hidle hw hnwp hnrp hdrift hhead =>
      exact (h.sane.of_effect (.waited hop hidle hw hnwp hnrp hdrift hhead)).regular
        (h.toQueued.of_moved hw.moved h.current_live hidle)
  | woken hlive hidle hw => exact h.of_woken hw hlive hidle
  | wakes _ hmid hw =>
      refine hw.preserves (fun s s' p hd hmem hwoken hs => ?_) (h.of_untouched hmid)
      obtain ⟨hlive, hidle, -⟩ := hs.member hd p hmem
      exact hs.of_woken hwoken hlive hidle
  | joined _ hj => exact h.of_joined hj
  | switched hs => exact h.of_switched hs

theorem Regular.of_step {s s' : SchedState} {op : Op} (h : Regular s)
    (hstep : schedStep s op = some s') : Regular s' :=
  h.of_effect (effect_of_step h.toQueued hstep)

end Sched
end TmULThreads
