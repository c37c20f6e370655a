import TmULThreads.ThreadLib.Holdings

/-!
# The counter of allocated bytes

`alloc_size` is printed as the memory that the library has in use.  It drifts from it in two
ways: `tm_calloc` counts a request before it is known to succeed, and most blocks are given
back with `free`, which does not count, and not with `tm_free`.

`allocExact_iff` states for which steps that makes no difference.  Along a run the counter is
exact if and only if every request succeeds, and no task ends, no timer is stopped or cleaned
up and no pool is deleted.
-/

namespace TmULThreads
namespace ThreadLib

open Meter (Event Heap cost own)
open Sched (TaskId)
open Timers (TimerId)

/-! ## Runs -/

/-- The counter is exact, and the blocks that a later step may give back are held. -/
structure Accounted (L : Layout) (s : AllocState) : Prop where
  bounded : s.heap.Bounded (2 ^ 64)
  counted : s.heap.Exact
  tasks : TasksHeld L s.heap.held s.sched
  timers : TimersHeld L s.heap.held s.timers
  pools : PoolsHeld L s.heap.held s.pools

theorem cost_softirqTraffic_iff {L : Layout} {h : Heap Block} {n : Nat} {ok : Bool} :
    cost (2 ^ 64) h [.alloc (.softIrq n) L.softIrq ok] ≡ 0 [MOD 2 ^ 64] ↔ ok = true := by
  cases ok with
  | false =>
      rw [cost, cost, own, Nat.add_zero]
      exact iff_of_false (sizeOf_not_modEq_zero L.softIrq) Bool.false_ne_true
  | true => exact iff_of_true rfl rfl

/-- A balanced step keeps the account, and only a balanced step leaves the counter exact. -/
theorem Accounted.step {L : Layout} {s s' : AllocState} {op : AllocOp} (hs : Accounted L s)
    (hstep : allocStep L s op = some s') :
    (Balanced L s op → Accounted L s') ∧ (AllocExact s' → Balanced L s op) := by
  simp only [allocStep, Option.bind_eq_bind, Option.bind_eq_some_iff, Option.some.injEq] at hstep
  obtain ⟨next, hadvance, heap, hrun, rfl⟩ := hstep
  obtain ⟨hb, hexact⟩ := Meter.run_exact_iff hs.bounded hs.counted hrun
  have hafter : heap.held = after s.heap (traffic L s op) :=
    congrArg Heap.held (Meter.run_eq_foldl hrun)
  -- the blocks of the other parts are as they were
  have hother (part : Part) (hne : op.part ≠ part) (b : Block) (hpart : b.part = part) :
      heap.held b = s.heap.held b := by
    rw [hafter]
    refine Meter.held_foldl_of_ne s.heap fun e he heq => hne ?_
    rw [← part_of_traffic L s op e he, heq, hpart]
  cases op with
  | sched op stksze =>
      obtain ⟨sched, hsched, rfl⟩ := Option.map_eq_some_iff.mp hadvance
      obtain ⟨hcost, hkeep⟩ := hs.tasks.step hsched stksze
      refine ⟨fun hok => ⟨hb, hexact.mpr (hcost.mpr hok), ?_, ?_, ?_⟩, fun h => ?_⟩
      · exact hafter ▸ hkeep hok
      · exact hs.timers.congr (hother .timers nofun)
      · exact hs.pools.congr (hother .pools nofun)
      · exact hcost.mp (hexact.mp h)
  | timer op =>
      obtain ⟨timers, htimers, rfl⟩ := Option.map_eq_some_iff.mp hadvance
      obtain ⟨hcost, hkeep⟩ := hs.timers.step htimers
      refine ⟨fun hok => ⟨hb, hexact.mpr (hcost.mpr hok), ?_, ?_, ?_⟩, fun h => ?_⟩
      · exact hs.tasks.congr (hother .sched nofun)
      · exact hafter ▸ hkeep hok
      · exact hs.pools.congr (hother .pools nofun)
      · exact hcost.mp (hexact.mp h)
  | softirqCreate ok =>
      cases hadvance
      refine ⟨fun hok => ⟨hb, hexact.mpr (cost_softirqTraffic_iff.mpr hok), ?_, ?_, ?_⟩,
        fun h => ?_⟩
      · exact hs.tasks.congr (hother .sched nofun)
      · exact hs.timers.congr (hother .timers nofun)
      · exact hs.pools.congr (hother .pools nofun)
      · exact cost_softirqTraffic_iff.mp (hexact.mp h)
  | pool op =>
      obtain ⟨pools, hpools, rfl⟩ := Option.map_eq_some_iff.mp hadvance
      obtain ⟨hcost, hkeep⟩ := hs.pools.step hs.bounded hpools
      refine ⟨fun hok => ⟨hb, hexact.mpr (hcost.mpr hok), ?_, ?_, ?_⟩, fun h => ?_⟩
      · exact hs.tasks.congr (hother .sched nofun)
      · exact hs.timers.congr (hother .timers nofun)
      · exact hafter ▸ hkeep hok
      · exact hcost.mp (hexact.mp h)

section Boot

variable (L : Layout) (now : Int)

theorem total_boot : (boot L now).heap.total = 3 * L.tsk + L.softIrq + 63248 := by
  simp [boot, bootTraffic, Heap.apply, Heap.total, Heap.push, Heap.charge]
  omega

theorem meter_boot : (boot L now).heap.meter = 3 * L.tsk + L.softIrq + 63248 := by
  have htsk := L.tsk.2.2
  have hirq := L.softIrq.2.2
  simp [boot, bootTraffic, Heap.apply, Heap.charge, Heap.push]
  omega

theorem held_boot_tsk (p : TaskId) :
    (boot L now).heap.held (.tsk p) = if p ∈ [1, 2, 3] then (L.tsk : Nat) else 0 := by
  have hempty (b : Block) : (⟨0, []⟩ : Heap Block).held b = 0 := rfl
  by_cases hone : p = 1
  · simp [boot, bootTraffic, Heap.apply, hempty, hone]
  · by_cases htwo : p = 2
    · simp [boot, bootTraffic, Heap.apply, hempty, htwo]
    · simp [boot, bootTraffic, Heap.apply, hempty, hone, htwo, eq_comm]

theorem held_boot_of_part {b : Block} (hpart : b.part = .timers ∨ b.part = .pools) :
    (boot L now).heap.held b = 0 := by
  refine Meter.held_foldl_of_ne ⟨0, []⟩ fun e he heq => ?_
  subst heq
  simp only [bootTraffic, List.mem_cons, List.not_mem_nil, or_false] at he
  rcases he with rfl | rfl | rfl | rfl | rfl | rfl | rfl <;> simp [Event.block, Block.part] at hpart

theorem accounted_boot : Accounted L (boot L now) := by
  have htsk := L.tsk.2.2
  have hirq := L.softIrq.2.2
  have hlabel (p : TimerId) : (boot L now).timers.label p = none := rfl
  refine ⟨⟨?_, ?_⟩, (meter_boot L now).trans (total_boot L now).symm, ⟨?_, ?_, ?_⟩,
    ⟨Timers.linked_init, ?_, ?_, ?_, ?_, ?_⟩, ⟨Mem.intact_init, ?_, ?_⟩⟩
  · rw [meter_boot]
    omega
  · rw [total_boot]
    omega
  · exact (Sched.regular_tmlibInit now).toQueued.listsOk
  · intro p hp
    have hmem : p ∈ [1, 2, 3] := Sched.tmlibInit_live now ▸ hp
    rw [held_boot_tsk, if_pos hmem]
  · intro p hp
    replace hp : 3 < p := Sched.tmlibInit_taskid now ▸ hp
    rw [held_boot_tsk, if_neg]
    intro hmem
    simp only [List.mem_cons, List.not_mem_nil, or_false] at hmem
    rcases hmem with rfl | rfl | rfl <;> exact absurd hp (by decide)
  · intro p l hl
    rw [hlabel] at hl
    cases hl
  · exact fun p _ => held_boot_of_part L now (.inl rfl)
  · exact fun a ha => absurd ha (Nat.not_lt_zero a)
  · exact fun a _ => held_boot_of_part L now (.inl rfl)
  · exact fun x hx => absurd hx List.not_mem_nil
  · exact fun memid p hp => nomatch hp
  · exact fun memid _ => held_boot_of_part L now (.inr rfl)

end Boot

/-- Along a run the counter is what it should be if and only if every step of the run is
balanced. -/
theorem allocExact_iff (L : Layout) (now : Int) (ops : List AllocOp) (s : AllocState)
    (hrun : PartialSteps.run (allocStep L) (boot L now) ops = some s) :
    PartialSteps.Always (allocStep L) AllocExact (boot L now) ops ↔
      PartialSteps.Meets (allocStep L) (Balanced L) (boot L now) ops := by
  refine PartialSteps.always_iff_meets (allocStep L) (I := Accounted L) (fun _ hm => hm.counted)
    ?_ (accounted_boot L now) hrun
  intro m op m' hm hstep
  exact hm.step hstep

/-- The sizes of some compiler. -/
def someLayout : Layout where
  tsk := ⟨448, by decide⟩
  timer := ⟨56, by decide⟩
  appTimer := ⟨64, by decide⟩
  softIrq := ⟨40, by decide⟩
  memInfo := ⟨72, by decide⟩

/-- A task is spawned, timers are started, one of them expires, and a soft irq and a pool are
created. -/
def busyRun : List AllocOp :=
  [.sched (.op (.spawn 5 true true 0)) 10240, .timer (.call (.startTimer 1 0 none 0 true true)),
    .timer (.call (.startTimer 100 0 none 2 true true)), .timer .tick, .timer .bottomHalf,
    .softirqCreate true, .pool (.create 8 4 true 4096 true), .pool (.alloc 1),
    .sched (.exit (.kill 9)) 0, .pool (.delete 2)]

theorem allocExact_busyRun :
    ∃ s, PartialSteps.run (allocStep someLayout) (boot someLayout 0) busyRun = some s ∧
      PartialSteps.Always (allocStep someLayout) AllocExact (boot someLayout 0) busyRun := by
  have hok : PartialSteps.Meets (allocStep someLayout) (Balanced someLayout) (boot someLayout 0)
      busyRun := by decide +kernel
  have hdone : (PartialSteps.run (allocStep someLayout) (boot someLayout 0) busyRun).isSome := by
    decide +kernel
  obtain ⟨s, hrun⟩ := Option.isSome_iff_exists.mp hdone
  exact ⟨s, hrun, (allocExact_iff someLayout 0 busyRun s hrun).mpr hok⟩

/-- The run leaves the counter too high. -/
def Drifts (ops : List AllocOp) : Prop :=
  ∃ s, PartialSteps.run (allocStep someLayout) (boot someLayout 0) ops = some s ∧
    s.heap.total < s.heap.meter ∧ ¬ AllocExact s

theorem drifts_of_any {ops : List AllocOp}
    (hdrift : (PartialSteps.run (allocStep someLayout) (boot someLayout 0) ops).any fun s =>
      s.heap.total < s.heap.meter ∧ ¬ AllocExact s) : Drifts ops := by
  obtain ⟨s, hrun, hs⟩ := (Option.any_eq_true _ _).mp hdrift
  exact ⟨s, hrun, of_decide_eq_true hs⟩

/-- A request that fails, the end of a task, a timer that is stopped, one that is cleaned up
after it has expired, and a pool that is deleted. -/
theorem not_allocExact_drifting :
    Drifts [.softirqCreate false] ∧
    Drifts [.sched (.op (.spawn 5 true true 0)) 10240, .sched (.exit (.kill 4)) 0] ∧
    Drifts [.timer (.call (.startTimer 100 0 none 0 true true)), .timer (.call (.stopTimer 0))] ∧
    Drifts [.timer (.call (.startTimer 1 0 none 0 true true)), .timer .tick, .timer .bottomHalf,
      .timer (.finishExpd true)] ∧
    Drifts [.pool (.create 8 4 true 4096 true), .pool (.delete 1)] :=
  ⟨drifts_of_any (by decide +kernel), drifts_of_any (by decide +kernel),
    drifts_of_any (by decide +kernel), drifts_of_any (by decide +kernel),
    drifts_of_any (by decide +kernel)⟩

end ThreadLib
end TmULThreads
