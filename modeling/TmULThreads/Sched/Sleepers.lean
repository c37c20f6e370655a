import TmULThreads.Sched.Boot

/-!
# A task that nothing wakes

The operations of a program that uses neither locks nor descriptors.  `plain_cases`
is their inversion lemma, with the task that an operation wakes, if it wakes one.

`Calm` is what keeps a task from running: it is not on a run queue and it is not the
cached task.  An operation that does not wake the task leaves it so
(`Calm.of_schedStep`), and the task stays on the wait queue (`mem_wq_of_schedStep`).
-/

namespace TmULThreads
namespace Sched

def Op.isPlain : Op → Bool
  | .spawn .. | .addToWaitQ _ | .wakeup .. | .postEvent .. | .tick _ | .schedule _ => true
  | .waitOnFd _ | .lock _ | .unlock .. | .wakeIo .. => false

/-- The task that a plain operation gives to `wakeup_task`. -/
def wakens (s : SchedState) : Op → Option TaskId
  | .wakeup p _ => some p
  | .postEvent tid _ _ => findTask s tid
  | _ => none

/-- What a plain operation can do. -/
inductive Plain (s : SchedState) : Op → SchedState → Prop
  | untouched {op : Op} {s' : SchedState} (hop : ∀ now, op ≠ .schedule now)
      (h : Untouched s s') : Plain s op s'
  | waited {now : Int} {s' : SchedState} (honrq : (s.tsk s.current).onrq = true)
      (h : Waited .wq s s') : Plain s (.addToWaitQ now) s'
  | woken {op : Op} {p : TaskId} {mid s' : SchedState} (hp : wakens s op = some p)
      (hmid : Untouched s mid) (h : Woken p mid s') : Plain s op s'
  | joined {op : Op} {p : TaskId} {k : Fin maxPrio} {s' : SchedState} (h : Joined p k s s') :
      Plain s op s'
  | switched {now : Int} {e : TaskId} {s' : SchedState} (h : Switched e s s')
      (hsched : schedule s now = some s') : Plain s (.schedule now) s'

theorem plain_cases {s s' : SchedState} {op : Op} (hl : ListsOk s) (hplain : op.isPlain = true)
    (hstep : schedStep s op = some s') : Plain s op s' := by
  cases op with
  | spawn prio tskOk stkOk now =>
      obtain ⟨k, -, rfl⟩ := schedStep_spawn hstep
      cases hok : tskOk && stkOk with
      | false => exact .untouched nofun (untouched_spawnTask s k hok now).1
      | true =>
          obtain ⟨rfl, rfl⟩ := Bool.and_eq_true_iff.mp hok
          exact .joined (joined_spawnTask s k now)
  | addToWaitQ now =>
      obtain ⟨-, rfl⟩ := schedStep_addToWaitQ hstep
      rcases addTaskToWaitQ_cases s now with ⟨-, heq⟩ | ⟨honrq, hw, -⟩
      · rw [heq]
        exact .untouched nofun (Untouched.refl s)
      · exact .waited honrq hw
  | wakeup p now =>
      obtain ⟨-, -, rfl⟩ := schedStep_wakeup hstep
      exact .woken rfl (Untouched.refl s) (woken_wakeupTask s p now)
  | postEvent tid event now =>
      cases hstep
      rcases postEvent_cases s tid event now with ⟨-, heq⟩ | ⟨p, hfind, heq⟩
      · rw [heq]
        exact .untouched nofun (Untouched.refl s)
      · rw [heq]
        exact .woken hfind (untouched_addEvent s p event) (woken_wakeupTask _ p now)
  | tick now =>
      cases hstep
      exact .untouched nofun (untouched_accountTaskTimeStats s now)
  | schedule now =>
      obtain ⟨e, he⟩ := switched_schedule hl hstep
      exact .switched he hstep
  | waitOnFd => cases hplain
  | lock => cases hplain
  | unlock => cases hplain
  | wakeIo => cases hplain

/-! ## The wait queue -/

/-- Only a wake-up takes a task off the wait queue. -/
theorem mem_wq_of_schedStep {s s' : SchedState} {op : Op} {t : TaskId} (hl : ListsOk s)
    (hplain : op.isPlain = true) (hstep : schedStep s op = some s') (ht : t ∈ s.hd .wq)
    (hwake : wakens s op ≠ some t) : t ∈ s'.hd .wq := by
  have hoff : (s.tsk t).onrq = false := (hl.member _ t ht).2.2
  cases plain_cases hl hplain hstep with
  | untouched _ hu => exact hu.hd.symm ▸ ht
  | waited honrq hw =>
      refine (hw.moved.mem_iff t .wq).mpr (.inr ⟨?_, ht⟩)
      rintro rfl
      rw [honrq] at hoff
      cases hoff
  | @woken _ p mid _ hp hmid hw =>
      have hne : t ≠ p := fun heq => hwake (heq ▸ hp)
      have hmem : t ∈ mid.hd .wq := hmid.hd.symm ▸ ht
      rcases hw.change with ⟨-, hquiet, -⟩ | ⟨-, hmoved, -⟩
      · exact hquiet.hd.symm ▸ hmem
      · exact (hmoved.mem_iff t .wq).mpr (.inr ⟨hne, hmem⟩)
  | joined hj => exact (hj.spawned.mem_iff t .wq).mpr (.inr ht)
  | switched hs =>
      rcases hs.change with hquiet | ⟨⟨k, hmem⟩, hmoved⟩
      · exact hquiet.hd.symm ▸ ht
      · refine (hmoved.mem_iff t .wq).mpr (.inr ⟨?_, ht⟩)
        rintro rfl
        cases hl.unique t _ _ hmem ht

/-! ## Tasks that do not run -/

/-- A cached task that is not the current one is taken out of the cache when it is
elected. -/
theorem cache_of_schedule {s s' : SchedState} {now : Int} {t : TaskId}
    (h : schedule s now = some s') (hidle : t ≠ s.idle) (hcur : s'.current = t)
    (hcache : s'.nxtImmTask = some t) : s.current = t ∧ s.nxtImmTask = some t := by
  obtain ⟨first, e, hnext, hcases⟩ := schedule_eq_some h
  have hlast : s'.current = e ∧ s'.nxtImmTask = first.nxtImmTask := by
    rcases hcases with ⟨he, rfl⟩ | ⟨-, mid, hslice, rfl⟩
    · exact ⟨he, rfl⟩
    · obtain ⟨-, -, -, hmid, -⟩ := quiet_calculateTimeSlice hslice
      exact ⟨rfl, hmid⟩
  obtain rfl : e = t := hlast.1.symm.trans hcur
  have hfirst : first.nxtImmTask = some e := hlast.2.symm.trans hcache
  unfold getNextEligibleTaskToRun at hnext
  split at hnext
  · cases hnext
    exact absurd rfl hidle
  · split at hnext
    · rename_i c hc
      simp only [Prod.mk.injEq, Option.some.injEq] at hnext
      obtain ⟨rfl, rfl⟩ := hnext
      split at hfirst
      · cases hfirst
      · rename_i hsame
        exact ⟨not_not.mp hsame, hc⟩
    · rename_i hc
      -- an election by the lists leaves the cache empty
      have hnone : first.nxtImmTask = none := by
        unfold nextTaskReadyToRun at hnext
        split at hnext
        · cases hnext
        · split at hnext
          · cases hnext
          · cases hnext
            split
            · exact hc
            · exact hc
      rw [hnone] at hfirst
      cases hfirst

/-- The task `t`, which is `blocked` if it is off the run queues, and `asleep` if it is
not even the current task any more. -/
structure Calm (blocked asleep : Bool) (t : TaskId) (s : SchedState) : Prop where
  sane : Sane s
  live : t ∈ s.live
  idle : t ≠ s.idle
  cache : blocked = true ∨ s.current = t → s.nxtImmTask ≠ some t
  onrq : blocked = true → (s.tsk t).onrq = false
  blocked : asleep = true → blocked = true
  current : asleep = true → s.current ≠ t

/-- The election passes over a task that is blocked. -/
theorem Calm.not_elected {asleep : Bool} {t : TaskId} {s : SchedState} (h : Calm true asleep t s) :
    (getNextEligibleTaskToRun s).2 ≠ some t := by
  intro helected
  rcases elected_source helected with ⟨-, hidle⟩ | ⟨-, hcache⟩ | ⟨k, hmem⟩
  · exact h.idle hidle
  · exact h.cache (.inl rfl) hcache
  · have hon := (h.sane.member _ t hmem).2.2
    rw [h.onrq rfl] at hon
    cases hon

theorem Calm.of_effect {blocked asleep : Bool} {t : TaskId} {s s' : SchedState}
    (h : Calm blocked asleep t s) {op : Op} (he : Effect s op s')
    (hcache : blocked = true ∨ s'.current = t → s'.nxtImmTask ≠ some t)
    (honrq : blocked = true → (s'.tsk t).onrq = false)
    (hcur : asleep = true → s'.current ≠ t) : Calm blocked asleep t s' where
  sane := h.sane.of_effect he
  live := he.live_mono h.live
  idle := he.idle_eq.symm ▸ h.idle
  cache := hcache
  onrq := honrq
  blocked := h.blocked
  current := hcur

/-- An operation that does not concern `t`. -/
theorem Calm.of_eq {blocked asleep : Bool} {t : TaskId} {s s' : SchedState}
    (h : Calm blocked asleep t s) {op : Op} (he : Effect s op s')
    (hcache : s'.nxtImmTask = some t → s.nxtImmTask = some t)
    (honrq : (s'.tsk t).onrq = (s.tsk t).onrq) (hcur : s'.current = s.current) :
    Calm blocked asleep t s' := by
  apply h.of_effect he
  · rw [hcur]
    exact fun hwhen hc => h.cache hwhen (hcache hc)
  · rw [honrq]
    exact h.onrq
  · rw [hcur]
    exact h.current

theorem Woken.onrq_other {p t : TaskId} {s s' : SchedState} (h : Woken p s s') (hne : t ≠ p) :
    (s'.tsk t).onrq = (s.tsk t).onrq := by
  rcases h.change with ⟨-, hquiet, -⟩ | ⟨-, hmoved, -⟩
  · exact hquiet.onrq t
  · exact hmoved.onrq_other t hne

/-- A wake-up of `t` itself is harmless only while `t` is neither blocked nor the
current task: then it is cached, but it leaves the cache when it is elected. -/
theorem Calm.of_schedStep {blocked asleep : Bool} {t : TaskId} {s s' : SchedState} {op : Op}
    (h : Calm blocked asleep t s) (hplain : op.isPlain = true)
    (hwake : wakens s op = some t → blocked = false ∧ s.current ≠ t)
    (hstep : schedStep s op = some s') : Calm blocked asleep t s' := by
  have he := effect_of_schedStep h.sane.toListsOk hstep
  cases plain_cases h.sane.toListsOk hplain hstep with
  | untouched _ hu => exact h.of_eq he (hu.cache ▸ id) (hu.onrq t) hu.current
  | waited _ hw =>
      apply h.of_effect he
      · rw [hw.cache, hw.current]
        exact h.cache
      · intro hb
        by_cases hself : t = s.current
        · rw [hself]
          exact hw.moved.onrq_self
        · rw [hw.moved.onrq_other t hself]
          exact h.onrq hb
      · rw [hw.current]
        exact h.current
  | @woken _ p mid _ hp hmid hw =>
      have hcur : s'.current = s.current := hw.current.trans hmid.current
      by_cases hself : t = p
      · obtain ⟨hfree, hother⟩ := hwake (hself ▸ hp)
        have hnot : blocked ≠ true := Bool.eq_false_iff.mp hfree
        apply h.of_effect he
        · rw [hcur]
          exact fun hwhen => hwhen.elim (absurd · hnot) (absurd · hother)
        · exact fun hb => absurd hb hnot
        · rw [hcur]
          exact h.current
      · refine h.of_eq he (fun hc => ?_) ((hw.onrq_other hself).trans (hmid.onrq t)) hcur
        rcases hw.cache t hc with heq | hold
        · exact absurd heq hself
        · exact hmid.cache ▸ hold
  | @joined _ p _ _ hj =>
      have hne : t ≠ p := hj.spawned.fresh ▸ h.sane.fresh h.live
      refine h.of_eq he (fun hc => ?_) (hj.spawned.onrq_other t hne) hj.current
      exact (hj.cache t hc).resolve_left hne
  | switched hs hsched =>
      apply h.of_effect he
      · rintro hwhen hc
        have hold := hs.cache t hc
        rcases hwhen with hb | hcur
        · exact h.cache (.inl hb) hold
        · exact h.cache (.inr (cache_of_schedule hsched h.idle hcur hc).1) hold
      · rw [hs.onrq]
        exact h.onrq
      · intro ha hcur
        have hb := h.blocked ha
        subst hb
        exact h.not_elected (hcur ▸ hs.current ▸ hs.elected)

/-- The current task blocks itself by waiting. -/
theorem Calm.of_wait {t : TaskId} {s s' : SchedState} {now : Int} (h : Calm false false t s)
    (hcur : s.current = t) (hstep : schedStep s (.addToWaitQ now) = some s') :
    Calm true false t s' := by
  have hquiet : wakens s (.addToWaitQ now) ≠ some t := nofun
  have hnext := h.of_schedStep rfl (absurd · hquiet) hstep
  obtain ⟨-, rfl⟩ := schedStep_addToWaitQ hstep
  subst hcur
  have hstay : (addTaskToWaitQ s s.current now).current = s.current ∧
      ((addTaskToWaitQ s s.current now).tsk s.current).onrq = false := by
    rcases addTaskToWaitQ_cases s now with ⟨honrq, heq⟩ | ⟨-, hw, -⟩
    · rw [heq]
      exact ⟨rfl, honrq⟩
    · exact ⟨hw.current, hw.moved.onrq_self⟩
  exact { hnext with
    cache := fun _ => hnext.cache (.inr hstay.1)
    onrq := fun _ => hstay.2
    blocked := nofun
    current := nofun }

/-- A blocked task that calls `schedule` does not go on. -/
theorem Calm.of_block {asleep : Bool} {t : TaskId} {s s' : SchedState} {now : Int}
    (h : Calm true asleep t s) (hstep : schedStep s (.schedule now) = some s') :
    Calm true true t s' := by
  have hquiet : wakens s (.schedule now) ≠ some t := nofun
  have hnext := h.of_schedStep rfl (absurd · hquiet) hstep
  obtain ⟨e, he⟩ := switched_schedule h.sane.toListsOk hstep
  exact { hnext with
    blocked := fun _ => rfl
    current := fun _ hcur => h.not_elected (hcur ▸ he.current ▸ he.elected) }

end Sched
end TmULThreads
