import TmULThreads.Sched.Model
import Mathlib.Data.List.Perm.Basic

/-!
# Where the tasks are linked

Every operation of the scheduler changes the lists in one of three ways: not at
all (`Quiet`), by moving one task to one list (`Moved`), or by linking a new
task (`Spawned`).  What is said here once about these changes gives the
invariants of all operations.

`Queued` holds in every run without any condition: a task is in at most one
list, a run queue exactly if `onrq` is set, and every task but the idle one and
the task of the program itself is in some list.
-/

namespace TmULThreads
namespace Sched

/-! ## Kinds of change -/

/-- No task is created, linked or unlinked, and no `onrq` changes. -/
structure Quiet (s s' : SchedState) : Prop where
  live : s'.live = s.live
  taskid : s.taskid ≤ s'.taskid
  idle : s'.idle = s.idle
  parent : s'.parent = s.parent
  hd : s'.hd = s.hd
  onrq : ∀ t, (s'.tsk t).onrq = (s.tsk t).onrq

/-- The task `p` has been moved to the list `h`, and its `onrq` tells so. -/
structure Moved (p : TaskId) (h : Head) (s s' : SchedState) : Prop where
  live : s'.live = s.live
  taskid : s.taskid ≤ s'.taskid
  idle : s'.idle = s.idle
  parent : s'.parent = s.parent
  hd_self : (s'.hd h).Perm (p :: (s.hd h).filter (· ≠ p))
  hd_other : ∀ h', h' ≠ h → s'.hd h' = (s.hd h').filter (· ≠ p)
  onrq_self : (s'.tsk p).onrq = h.isRq
  onrq_other : ∀ t, t ≠ p → (s'.tsk t).onrq = (s.tsk t).onrq

/-- The task `p` is new and linked in a run queue. -/
structure Spawned (p : TaskId) (k : Fin maxPrio) (s s' : SchedState) : Prop where
  fresh : p = s.taskid + 1
  live : s'.live = s.live ++ [p]
  taskid : p ≤ s'.taskid
  idle : s'.idle = s.idle
  parent : s'.parent = s.parent
  hd_self : s'.hd (.rq k) = s.hd (.rq k) ++ [p]
  hd_other : ∀ h', h' ≠ .rq k → s'.hd h' = s.hd h'
  onrq_self : (s'.tsk p).onrq = true
  onrq_other : ∀ t, t ≠ p → (s'.tsk t).onrq = (s.tsk t).onrq

theorem Quiet.refl (s : SchedState) : Quiet s s :=
  ⟨rfl, le_rfl, rfl, rfl, rfl, fun _ => rfl⟩

theorem Quiet.trans {s s' s'' : SchedState} (h : Quiet s s') (h' : Quiet s' s'') : Quiet s s'' :=
  ⟨h'.live.trans h.live, h.taskid.trans h'.taskid, h'.idle.trans h.idle,
    h'.parent.trans h.parent, h'.hd.trans h.hd, fun t => (h'.onrq t).trans (h.onrq t)⟩

/-- What happens around a move does not matter. -/
theorem Moved.of_quiet {p : TaskId} {h : Head} {s s₁ s₂ s' : SchedState} (hbefore : Quiet s s₁)
    (hm : Moved p h s₁ s₂) (hafter : Quiet s₂ s') : Moved p h s s' where
  live := by rw [hafter.live, hm.live, hbefore.live]
  taskid := (hbefore.taskid.trans hm.taskid).trans hafter.taskid
  idle := by rw [hafter.idle, hm.idle, hbefore.idle]
  parent := by rw [hafter.parent, hm.parent, hbefore.parent]
  hd_self := by
    rw [hafter.hd, ← hbefore.hd]
    exact hm.hd_self
  hd_other := by
    intro h' hne
    rw [hafter.hd, ← hbefore.hd]
    exact hm.hd_other h' hne
  onrq_self := by rw [hafter.onrq, hm.onrq_self]
  onrq_other := fun t ht => by rw [hafter.onrq, hm.onrq_other t ht, hbefore.onrq]

/-- Writing a field of a task other than `onrq`. -/
theorem quiet_setTsk {s : SchedState} {p : TaskId} {t : Tsk} (h : t.onrq = (s.tsk p).onrq) :
    Quiet s (s.setTsk p t) := by
  refine ⟨rfl, le_rfl, rfl, rfl, rfl, fun q => ?_⟩
  by_cases hq : q = p
  · rw [hq, setTsk_tsk_self, h]
  · rw [setTsk_tsk_of_ne s t hq]

/-! ## Membership -/

theorem Moved.mem_iff {p : TaskId} {h : Head} {s s' : SchedState} (hm : Moved p h s s')
    (t : TaskId) (h' : Head) :
    t ∈ s'.hd h' ↔ (t = p ∧ h' = h) ∨ (t ≠ p ∧ t ∈ s.hd h') := by
  by_cases hh : h' = h
  · rw [hh, hm.hd_self.mem_iff, List.mem_cons, List.mem_filter]
    simp [and_comm]
  · rw [hm.hd_other h' hh, List.mem_filter]
    simp [hh, and_comm]

theorem Spawned.mem_iff {p : TaskId} {k : Fin maxPrio} {s s' : SchedState}
    (hs : Spawned p k s s') (t : TaskId) (h' : Head) :
    t ∈ s'.hd h' ↔ (t = p ∧ h' = .rq k) ∨ t ∈ s.hd h' := by
  by_cases hh : h' = .rq k
  · rw [hh, hs.hd_self, List.mem_append, List.mem_singleton]
    simp [or_comm]
  · rw [hs.hd_other h' hh]
    simp [hh]

/-! ## The lists -/

/-- What holds of the lists whichever tasks there are: no task is in two lists or
twice in one, and `onrq` tells whether its list is a run queue. -/
structure ListsOk (s : SchedState) : Prop where
  live_nodup : s.live.Nodup
  live_le : ∀ t ∈ s.live, t ≤ s.taskid
  idle_live : s.idle ∈ s.live
  nodup : ∀ h, (s.hd h).Nodup
  unique : ∀ t h h', t ∈ s.hd h → t ∈ s.hd h' → h = h'
  member : ∀ h t, t ∈ s.hd h → t ∈ s.live ∧ t ≠ s.idle ∧ (s.tsk t).onrq = h.isRq

theorem ListsOk.of_quiet {s s' : SchedState} (h : ListsOk s) (hq : Quiet s s') : ListsOk s' where
  live_nodup := hq.live ▸ h.live_nodup
  live_le := by
    rw [hq.live]
    exact fun t ht => (h.live_le t ht).trans hq.taskid
  idle_live := by
    rw [hq.live, hq.idle]
    exact h.idle_live
  nodup := hq.hd ▸ h.nodup
  unique := hq.hd ▸ h.unique
  member := by
    intro hd t ht
    rw [hq.live, hq.idle, hq.onrq]
    rw [hq.hd] at ht
    exact h.member hd t ht

theorem ListsOk.of_moved {s s' : SchedState} (h : ListsOk s) {p : TaskId} {hd : Head}
    (hm : Moved p hd s s') (hlive : p ∈ s.live) (hidle : p ≠ s.idle) : ListsOk s' where
  live_nodup := hm.live ▸ h.live_nodup
  live_le := by
    rw [hm.live]
    exact fun t ht => (h.live_le t ht).trans hm.taskid
  idle_live := by
    rw [hm.live, hm.idle]
    exact h.idle_live
  nodup := by
    intro h'
    by_cases hh : h' = hd
    · rw [hh, hm.hd_self.nodup_iff, List.nodup_cons]
      exact ⟨by simp, (h.nodup hd).filter _⟩
    · rw [hm.hd_other h' hh]
      exact (h.nodup h').filter _
  unique := by
    intro t h₁ h₂ ht₁ ht₂
    rcases (hm.mem_iff t h₁).mp ht₁ with ⟨rfl, rfl⟩ | ⟨hne, hold₁⟩
    · rcases (hm.mem_iff t h₂).mp ht₂ with ⟨-, rfl⟩ | ⟨hne, -⟩
      · rfl
      · exact absurd rfl hne
    · rcases (hm.mem_iff t h₂).mp ht₂ with ⟨rfl, -⟩ | ⟨-, hold₂⟩
      · exact absurd rfl hne
      · exact h.unique t h₁ h₂ hold₁ hold₂
  member := by
    intro h' t ht
    rw [hm.live, hm.idle]
    rcases (hm.mem_iff t h').mp ht with ⟨rfl, rfl⟩ | ⟨hne, hold⟩
    · exact ⟨hlive, hidle, hm.onrq_self⟩
    · rw [hm.onrq_other t hne]
      exact h.member h' t hold

/-- A task that is about to be spawned is not in use. -/
theorem ListsOk.fresh {s : SchedState} (h : ListsOk s) {t : TaskId} (ht : t ∈ s.live) :
    t ≠ s.taskid + 1 :=
  ((h.live_le t ht).trans_lt (Nat.lt_succ_self _)).ne

theorem ListsOk.of_spawned {s s' : SchedState} (h : ListsOk s) {p : TaskId} {k : Fin maxPrio}
    (hs : Spawned p k s s') : ListsOk s' := by
  have hnew {t : TaskId} (ht : t ∈ s.live) : t ≠ p := hs.fresh ▸ h.fresh ht
  have hout (h' : Head) : p ∉ s.hd h' := fun hp => hnew (h.member h' p hp).1 rfl
  have hlive {t : TaskId} (ht : t ∈ s.live) : t ∈ s'.live := by
    rw [hs.live]
    exact List.mem_append_left _ ht
  refine ⟨?_, ?_, ?_, ?_, ?_, ?_⟩
  · rw [hs.live, List.nodup_append]
    refine ⟨h.live_nodup, List.nodup_singleton p, fun a ha b hb => ?_⟩
    rw [List.mem_singleton.mp hb]
    exact hnew ha
  · intro t ht
    rw [hs.live] at ht
    rcases List.mem_append.mp ht with hold | hp
    · have hlt : s.taskid < p := hs.fresh ▸ Nat.lt_succ_self _
      exact (h.live_le t hold).trans (hlt.le.trans hs.taskid)
    · exact List.mem_singleton.mp hp ▸ hs.taskid
  · rw [hs.idle]
    exact hlive h.idle_live
  · intro h'
    by_cases hh : h' = .rq k
    · rw [hh, hs.hd_self, List.nodup_append]
      refine ⟨h.nodup _, List.nodup_singleton p, ?_⟩
      rintro a ha b hb rfl
      rw [List.mem_singleton.mp hb] at ha
      exact hout _ ha
    · rw [hs.hd_other h' hh]
      exact h.nodup h'
  · intro t h₁ h₂ ht₁ ht₂
    rcases (hs.mem_iff t h₁).mp ht₁ with ⟨rfl, rfl⟩ | hold₁
    · rcases (hs.mem_iff t h₂).mp ht₂ with ⟨-, rfl⟩ | hold₂
      · rfl
      · exact absurd hold₂ (hout h₂)
    · rcases (hs.mem_iff t h₂).mp ht₂ with ⟨rfl, -⟩ | hold₂
      · exact absurd hold₁ (hout h₁)
      · exact h.unique t h₁ h₂ hold₁ hold₂
  · intro h' t ht
    rw [hs.idle]
    rcases (hs.mem_iff t h').mp ht with ⟨rfl, rfl⟩ | hold
    · refine ⟨?_, (hnew h.idle_live).symm, hs.onrq_self⟩
      rw [hs.live]
      exact List.mem_append_right _ (List.mem_singleton_self t)
    · obtain ⟨hl, hi, ho⟩ := h.member h' t hold
      exact ⟨hlive hl, hi, (hs.onrq_other t (hnew hl)).trans ho⟩

/-! ## Tasks in no list -/

/-- Every task but the idle one and the task of the program itself is in some list. -/
def AllLinked (s : SchedState) : Prop :=
  ∀ t ∈ s.live, t ≠ s.idle → t ≠ s.parent → ∃ h, t ∈ s.hd h

theorem AllLinked.of_quiet {s s' : SchedState} (h : AllLinked s) (hq : Quiet s s') :
    AllLinked s' := by
  unfold AllLinked
  rw [hq.live, hq.idle, hq.parent, hq.hd]
  exact h

theorem AllLinked.of_moved {s s' : SchedState} (h : AllLinked s) {p : TaskId} {hd : Head}
    (hm : Moved p hd s s') : AllLinked s' := by
  intro t ht hti htp
  rw [hm.live] at ht
  rw [hm.idle] at hti
  rw [hm.parent] at htp
  by_cases hne : t = p
  · exact ⟨hd, (hm.mem_iff t hd).mpr (.inl ⟨hne, rfl⟩)⟩
  · obtain ⟨h', hold⟩ := h t ht hti htp
    exact ⟨h', (hm.mem_iff t h').mpr (.inr ⟨hne, hold⟩)⟩

theorem AllLinked.of_spawned {s s' : SchedState} (h : AllLinked s) {p : TaskId} {k : Fin maxPrio}
    (hs : Spawned p k s s') : AllLinked s' := by
  intro t ht hti htp
  rw [hs.live] at ht
  rw [hs.idle] at hti
  rw [hs.parent] at htp
  rcases List.mem_append.mp ht with hold | hp
  · obtain ⟨h', hmem⟩ := h t hold hti htp
    exact ⟨h', (hs.mem_iff t h').mpr (.inr hmem)⟩
  · exact ⟨.rq k, (hs.mem_iff t _).mpr (.inl ⟨List.mem_singleton.mp hp, rfl⟩)⟩

/-! ## The invariant -/

structure Queued (s : SchedState) : Prop where
  live_nodup : s.live.Nodup
  live_le : ∀ t ∈ s.live, t ≤ s.taskid
  idle_live : s.idle ∈ s.live
  parent_live : s.parent ∈ s.live
  idle_ne : s.idle ≠ s.parent
  idle_onrq : (s.tsk s.idle).onrq = true
  nodup : ∀ h, (s.hd h).Nodup
  unique : ∀ t h h', t ∈ s.hd h → t ∈ s.hd h' → h = h'
  member : ∀ h t, t ∈ s.hd h → t ∈ s.live ∧ t ≠ s.idle ∧ (s.tsk t).onrq = h.isRq
  linked : ∀ t ∈ s.live, t ≠ s.idle → t ≠ s.parent → ∃ h, t ∈ s.hd h
  stray : (∀ h, s.parent ∉ s.hd h) → (s.tsk s.parent).onrq = true

theorem Queued.listsOk {s : SchedState} (h : Queued s) : ListsOk s :=
  ⟨h.live_nodup, h.live_le, h.idle_live, h.nodup, h.unique, h.member⟩

theorem Queued.of_quiet {s s' : SchedState} (h : Queued s) (hq : Quiet s s') : Queued s' where
  __ := h.listsOk.of_quiet hq
  parent_live := by
    rw [hq.live, hq.parent]
    exact h.parent_live
  idle_ne := by
    rw [hq.idle, hq.parent]
    exact h.idle_ne
  idle_onrq := by
    rw [hq.idle, hq.onrq]
    exact h.idle_onrq
  linked := AllLinked.of_quiet h.linked hq
  stray := by
    rw [hq.parent, hq.hd, hq.onrq]
    exact h.stray

theorem Queued.of_moved {s s' : SchedState} (h : Queued s) {p : TaskId} {hd : Head}
    (hm : Moved p hd s s') (hlive : p ∈ s.live) (hidle : p ≠ s.idle) : Queued s' where
  __ := h.listsOk.of_moved hm hlive hidle
  parent_live := by
    rw [hm.live, hm.parent]
    exact h.parent_live
  idle_ne := by
    rw [hm.idle, hm.parent]
    exact h.idle_ne
  idle_onrq := by
    rw [hm.idle, hm.onrq_other _ hidle.symm]
    exact h.idle_onrq
  linked := AllLinked.of_moved h.linked hm
  stray := by
    rw [hm.parent]
    intro hstray
    -- the moved task is linked, so it is not the one that is linked nowhere
    have hne : s.parent ≠ p := fun heq =>
      hstray hd ((hm.mem_iff _ hd).mpr (.inl ⟨heq, rfl⟩))
    rw [hm.onrq_other _ hne]
    exact h.stray fun h' hold => hstray h' ((hm.mem_iff _ h').mpr (.inr ⟨hne, hold⟩))

theorem Queued.of_spawned {s s' : SchedState} (h : Queued s) {p : TaskId} {k : Fin maxPrio}
    (hs : Spawned p k s s') : Queued s' := by
  have hnew {t : TaskId} (ht : t ∈ s.live) : t ≠ p := hs.fresh ▸ h.listsOk.fresh ht
  refine { h.listsOk.of_spawned hs with
    parent_live := ?_, idle_ne := ?_, idle_onrq := ?_, linked := ?_, stray := ?_ }
  · rw [hs.parent, hs.live]
    exact List.mem_append_left _ h.parent_live
  · rw [hs.idle, hs.parent]
    exact h.idle_ne
  · rw [hs.idle, hs.onrq_other _ (hnew h.idle_live)]
    exact h.idle_onrq
  · exact AllLinked.of_spawned h.linked hs
  · rw [hs.parent]
    intro hstray
    rw [hs.onrq_other _ (hnew h.parent_live)]
    exact h.stray fun h' hold => hstray h' ((hs.mem_iff _ h').mpr (.inr hold))

end Sched
end TmULThreads
