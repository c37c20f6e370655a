import TmULThreads.Timers.Tracking
import TmULThreads.Timers.Arming

/-!
# When a started timer expires

The results about `start_timer` in the build that services every tick
synchronously.

* `onTime_iff`: a timer armed for `d` ticks expires on the tick that its field
  `exp` announces exactly when it was armed on a boundary of its unit.
* `expires_once`: before the tick counter wraps, a timer armed on tick `n` for
  `d` ticks is put on the list of expired timers exactly once, on tick
  `n - n % unit + d`.

Both hold whatever other timers there are, and whatever is done to them in the
meantime.
-/

namespace TmULThreads
namespace Timers

/-- How often a timer is on the part of the list that a step has appended. -/
def newlyExpired (s s' : TmrState) (p : TimerId) : Nat :=
  (s'.expdTmrs.drop s.expdTmrs.length).countP fun x => x.timer = some p

/-- The state `s'` is reached from `s` by an orderly run in which no call is
about the timer `p`. -/
def Continues (s : TmrState) (p : TimerId) (ops : List Op) (s' : TmrState) : Prop :=
  PartialSteps.run (step .normal) s ops = some s' ∧
    PartialSteps.Meets (step .normal) Orderly s ops ∧ ∀ op ∈ ops, op.target ≠ some p

/-- From `s` on, where the timer `p` has just been armed for `d` ticks, it is
put on the list on the `d`-th tick and on no other, which is the tick that `exp`
names, and the remaining time of the pending timer is the number of ticks that
are left. -/
structure OnTime (s : TmrState) (p : TimerId) (d : U32) : Prop where
  expires : ∀ ops s₁ s₂, Continues s p ops s₁ → updateTimes .normal s₁ = some s₂ →
    newlyExpired s₁ s₂ p = if ops.count .tick + 1 = d.toNat then 1 else 0
  atExp : ∀ ops s₁ s₂, Continues s p ops s₁ → updateTimes .normal s₁ = some s₂ →
    newlyExpired s₁ s₂ p ≠ 0 → ∃ t, s₁.timers p = some t ∧ t.exp = s.clk.tick + d ∧
      s₂.clk.tick = t.exp
  remaining : ∀ ops s₁ t, Continues s p ops s₁ → s₁.timers p = some t → t.isRunning = true →
    ∃ r, timerGetRemainingTime s₁ (some p) = some r ∧ ops.count .tick + r.toNat = d.toNat

/-! ## Expiry on a tick -/

theorem card_nodesOf (s : TmrState) (p : TimerId) :
    Multiset.card (s.nodesOf p) = (s.nodes.map Node.timer).countP (fun o => o = some p) := by
  rw [Multiset.countP_map]
  rfl

/-- A tick moves the nodes of a timer to the list. -/
theorem newlyExpired_add_card {s s' : TmrState} {c : Clk} (hscan : Scanned { s with clk := c } s')
    (p : TimerId) :
    newlyExpired s s' p + Multiset.card (s'.nodesOf p) = Multiset.card (s.nodesOf p) := by
  obtain ⟨new, hnew⟩ := hscan.expdTmrs
  replace hnew : s.expdTmrs ++ new = s'.expdTmrs := hnew
  have hdrop : newlyExpired s s' p =
      (new.map AppTimer.timer : Multiset (Option TimerId)).countP (fun o => o = some p) := by
    rw [newlyExpired, ← hnew, List.drop_left, Multiset.coe_countP, List.countP_map]
    rfl
  have howners : s'.owners.countP (fun o => o = some p) = s.owners.countP (fun o => o = some p) :=
    congrArg _ hscan.owners
  rw [TmrState.owners, TmrState.owners, ← hnew, List.map_append, ← Multiset.coe_add,
    Multiset.countP_add, Multiset.countP_add, Multiset.countP_add, ← card_nodesOf,
    ← card_nodesOf] at howners
  rw [hdrop]
  omega

section

variable {c : Clk} {p : TimerId} {a : AppId} {q : Pending} {e : U32} {k : Nat} {s s' : TmrState}

theorem Tracked.card_nodesOf (h : Tracked c p a q e k s) :
    Multiset.card (s.nodesOf p) = if q.after .normal c k = none then 0 else 1 := by
  rw [h.nodesOf]
  cases q.after .normal c k with
  | none => rfl
  | some r => rfl

/-- A tracked timer is put on the list on the tick on which its automaton
ends. -/
theorem Tracked.newlyExpired_eq (h : Tracked c p a q e k s)
    (htick : updateTimes .normal s = some s') [Decidable (q.expiresAt .normal c (k + 1))] :
    newlyExpired s s' p = if q.expiresAt .normal c (k + 1) then 1 else 0 := by
  obtain ⟨-, -, -, hscan⟩ := updateTimes_normal h.coherent h.counted htick
  have hcard := newlyExpired_add_card hscan p
  rw [h.card_nodesOf, (h.of_tick htick).card_nodesOf] at hcard
  have hexp := Pending.expiresAt_succ_iff .normal c q k
  have hmono := Pending.after_eq_none_of_le (b := .normal) (c := c) (p := q) (Nat.le_succ k)
  by_cases hk : q.after .normal c k = none
  · rw [if_pos hk, if_pos (hmono hk)] at hcard
    rw [if_neg fun hat => (hexp.mp hat).1 hk]
    omega
  · rw [if_neg hk] at hcard
    by_cases hk' : q.after .normal c (k + 1) = none
    · rw [if_pos hk'] at hcard
      rw [if_pos (hexp.mpr ⟨hk, hk'⟩)]
      omega
    · rw [if_neg hk'] at hcard
      rw [if_neg fun hat => hk' (hexp.mp hat).2]
      omega

theorem Tracked.continues {ops : List Op} (h : Tracked c p a q e 0 s)
    (hcont : Continues s p ops s') : Tracked c p a q e (ops.count .tick) s' := by
  obtain ⟨hrun, hok, hp⟩ := hcont
  have hlast := h.of_run hok hp hrun
  rwa [Nat.zero_add] at hlast

end

/-- Any number of ticks is an orderly run. -/
theorem exists_continues_ticks {c : Clk} {k : Nat} {s : TmrState} (h : Steady c k s)
    (p : TimerId) (n : Nat) : ∃ s', Continues s p (List.replicate n .tick) s' := by
  induction n generalizing s k with
  | zero => exact ⟨s, rfl, trivial, nofun⟩
  | succ n ih =>
      obtain ⟨mid, htick⟩ := exists_updateTimes_normal h.coherent
      have hok : Orderly s .tick := ⟨trivial, trivial⟩
      obtain ⟨s', hrun, hmeets, hp⟩ := ih (h.of_step hok htick)
      refine ⟨s', ?_, .cons htick hok hmeets, ?_⟩
      · rw [List.replicate_succ, PartialSteps.run_cons]
        exact ⟨mid, htick, hrun⟩
      · intro op hop
        obtain rfl := List.eq_of_mem_replicate hop
        exact nofun

/-! ## From `start_timer` on -/

/-- What a successful `start_timer` leaves behind when the time word is not empty. -/
theorem startTimer_armed {b : Build} {s s₁ : TmrState} {d : U32} {data : Nat}
    {handler : Option Nat} {flags : U32} {timerOk appOk : Bool} {p : TimerId} {q : Pending}
    (hstart : startTimer b s d data handler flags timerOk appOk = some (s₁, some p))
    (hq : place s.clk (packCtime b d) = some q) :
    s₁.nodes = ⟨s.nextApp, some p, q⟩ ::ₘ s.nodes ∧ s₁.expdTmrs = s.expdTmrs ∧
      s₁.clk = s.clk ∧ (p = s.nextTimer ∧ s₁.nextTimer = s.nextTimer + 1) ∧
      ∃ t, s₁.timers p = some t ∧ t.exp = s.clk.tick + d ∧
        t.label = ⟨handler, data, if flags ≠ 0 then flags else timerOnce⟩ := by
  rcases startTimer_cases hstart with ⟨hres, -⟩ | ⟨hres, -, harm⟩
  · cases hres
  · cases hres
    obtain ⟨p', tmr, mid, hp', htmr, hfind, rfl⟩ := calcAndPlace_cases rfl harm
    cases hp'
    let t := s.newTimer d data handler flags
    have hnew : (s.grow (s.indx + 1) (some t) 1).timers s.nextTimer = some t :=
      Function.update_self ..
    obtain rfl : t = tmr := Option.some.inj (hnew.symm.trans htmr)
    rcases findTmrSlotAndPlace_cases hfind with ⟨hnone, -⟩ | ⟨q', p', tmr', hq', hp', htmr', rfl⟩
    · cases hq.symm.trans hnone
    · cases hp'
      obtain rfl : q = q' := Option.some.inj (hq.symm.trans hq')
      rw [setTimer_timers_self] at htmr'
      cases htmr'
      refine ⟨nodes_attach hq', rfl, rfl, ⟨rfl, rfl⟩, _,
        attach_timers_self _ _ _ { addr := s.nextApp } q, ?_, rfl⟩
      exact BitVec.add_comm _ _

/-- A successful `start_timer` leaves a node whose automaton starts here. -/
theorem tracked_of_start {c : Clk} {k : Nat} {s s₁ : TmrState} {d : U32} {data : Nat}
    {handler : Option Nat} {flags : U32} {timerOk appOk : Bool} {p : TimerId}
    (h : Steady c k s) (hpos : 0 < d.toNat) (hd : d.toNat < maxTicks .normal)
    (hstart : startTimer .normal s d data handler flags timerOk appOk = some (s₁, some p)) :
    ∃ q, place s.clk (packCtime .normal d) = some q ∧
      Tracked s.clk p s.nextApp q (s.clk.tick + d) 0 s₁ := by
  obtain ⟨q, hq⟩ := exists_arm .normal s.clk hpos hd
  have hcoh : Coherent s₁ := h.coherent.of_startTimer hstart
  have hcount : Counted s₁ := (startTimer_effect hstart).2.2 h.counted
  obtain ⟨hnodes, -, hclk, ⟨rfl, hnext⟩, t, ht, hexp, -⟩ := startTimer_armed hstart hq
  refine ⟨q, hq, ⟨hcoh, hcount, hclk⟩, ?_, ?_, fun u hu => ?_⟩
  · rw [hnext]
    exact Nat.lt_succ_self _
  · rw [TmrState.nodesOf, hnodes,
      Multiset.filter_cons_of_pos (p := fun n : Node => n.timer = some s.nextTimer) _ rfl,
      Multiset.filter_eq_nil.mpr]
    · rfl
    · exact h.coherent.unowned_fresh.1
  · obtain rfl : t = u := Option.some.inj (ht.symm.trans hu)
    exact hexp

/-- A pending timer is not past its expiry. -/
theorem Tracked.after_ne_none {c : Clk} {p : TimerId} {a : AppId} {q : Pending} {e : U32}
    {k : Nat} {s : TmrState} {t : Timer} (h : Tracked c p a q e k s)
    (ht : s.timers p = some t) (hrun : t.isRunning = true) : q.after .normal c k ≠ none := by
  intro hnone
  obtain ⟨n, hn, htimer⟩ := h.coherent.running p t ht hrun
  have hmem : n ∈ s.nodesOf p := Multiset.mem_filter.mpr ⟨hn, htimer⟩
  rw [h.nodesOf, hnone] at hmem
  exact Multiset.notMem_zero n hmem

/-- While the node is pending its timer is live. -/
theorem Tracked.exists_timer {c : Clk} {p : TimerId} {a : AppId} {q : Pending} {e : U32}
    {k : Nat} {s : TmrState} (h : Tracked c p a q e k s)
    (hne : q.after .normal c k ≠ none) : ∃ t, s.timers p = some t ∧ t.exp = e := by
  obtain ⟨r, hr⟩ := Option.ne_none_iff_exists'.mp hne
  have hmem : (⟨a, some p, r⟩ : Node) ∈ s.nodesOf p := by
    rw [h.nodesOf, hr]
    exact Multiset.mem_singleton_self _
  obtain ⟨p', t, hp', ht, -⟩ := h.coherent.armed _ (Multiset.mem_filter.mp hmem).1
  cases hp'
  exact ⟨t, ht, h.exp t ht⟩

theorem remaining_toNat {c d : U32} {k : Nat} (hk : k < d.toNat) (hd : d.toNat < 2 ^ 31) :
    (c + d - (c + BitVec.ofNat 32 k)).toNat = d.toNat - k ∧
      ¬ (c + d - (c + BitVec.ofNat 32 k)).toInt < 0 := by
  have hsub : c + d - (c + BitVec.ofNat 32 k) = d - BitVec.ofNat 32 k := by
    generalize BitVec.ofNat 32 k = x
    bv_omega
  have hnat : (d - BitVec.ofNat 32 k).toNat = d.toNat - k := by
    have hk32 : (BitVec.ofNat 32 k).toNat = k := by
      rw [BitVec.toNat_ofNat]
      exact Nat.mod_eq_of_lt (by omega)
    rw [BitVec.toNat_sub_of_le (by rw [BitVec.le_def, hk32]; omega), hk32]
  rw [hsub]
  refine ⟨hnat, ?_⟩
  rw [BitVec.toInt_eq_toNat_of_lt (by omega)]
  omega

/-- A timer expires when its field `exp` says, and reports the time that is
left, exactly when it is armed on a boundary of its coarsest unit (and no
counter wraps on the way). -/
theorem onTime_iff (ops : List Op) (s s₁ : TmrState) (d : U32) (data : Nat)
    (handler : Option Nat) (flags : U32) (timerOk appOk : Bool) (p : TimerId)
    (hpos : 0 < d.toNat) (hd : d.toNat < maxTicks .normal)
    (hok : PartialSteps.Meets (step .normal) Orderly initTimerMgr ops)
    (hrun : PartialSteps.run (step .normal) initTimerMgr ops = some s)
    (hstart : startTimer .normal s d data handler flags timerOk appOk = some (s₁, some p)) :
    OnTime s₁ p d ↔ ArmedOnBoundary .normal s.clk d.toNat := by
  classical
  obtain ⟨q, hplace, htr⟩ := tracked_of_start (steady_init.of_run hok hrun) hpos hd hstart
  have hclk : s₁.clk = s.clk := htr.clk
  rw [← expiresAt_arm_iff hplace hpos hd]
  constructor
  · intro hon
    -- run to the tick before the announced one
    obtain ⟨m, hm⟩ : ∃ m, d.toNat = m + 1 := ⟨d.toNat - 1, by omega⟩
    obtain ⟨s₂, hcont⟩ := exists_continues_ticks htr.toSteady p m
    have htr₂ := htr.continues hcont
    obtain ⟨s₃, htick⟩ := exists_updateTimes_normal htr₂.coherent
    have hone := hon.expires _ s₂ s₃ hcont htick
    rw [List.count_replicate_self] at hone htr₂
    rw [if_pos hm.symm, htr₂.newlyExpired_eq htick] at hone
    rw [hm]
    by_contra hnot
    rw [if_neg hnot] at hone
    omega
  · intro hat
    have hsame (k : Nat) : q.expiresAt .normal s.clk k ↔ k = d.toNat :=
      ⟨fun hk => Pending.expiresAt_unique hk hat, fun hk => hk ▸ hat⟩
    refine ⟨fun ops' s₂ s₃ hcont htick => ?_, fun ops' s₂ s₃ hcont htick hnew => ?_,
      fun ops' s₂ t hcont ht hrunning => ?_⟩
    · rw [(htr.continues hcont).newlyExpired_eq htick]
      simp only [hsame]
    · have htr₂ := htr.continues hcont
      rw [htr₂.newlyExpired_eq htick] at hnew
      have hexp : q.expiresAt .normal s.clk (ops'.count .tick + 1) := by
        by_contra hnot
        rw [if_neg hnot] at hnew
        exact hnew rfl
      obtain ⟨t, ht, hte⟩ :=
        htr₂.exists_timer ((Pending.expiresAt_succ_iff _ _ _ _).mp hexp).1
      refine ⟨t, ht, by rw [hte, hclk], ?_⟩
      rw [hte, (htr₂.of_tick htick).clk, Clk.after_tick, (hsame _).mp hexp, BitVec.ofNat_toNat,
        BitVec.setWidth_eq]
    · have htr₂ := htr.continues hcont
      have hlt := Pending.lt_of_after_ne_none hat (htr₂.after_ne_none ht hrunning)
      have hd31 : d.toNat < 2 ^ 31 := hd.trans (by decide)
      obtain ⟨hnat, hint⟩ := remaining_toNat (c := s.clk.tick) hlt hd31
      have hrem : timerGetRemainingTime s₂ (some p) =
          some (s.clk.tick + d - (s.clk.tick + BitVec.ofNat 32 (ops'.count .tick))) := by
        simp only [timerGetRemainingTime, ht, Option.bind_eq_bind, Option.bind_some, hrunning,
          htr₂.exp t ht, htr₂.clk, Clk.after_tick, Bool.not_true, Bool.false_eq_true, if_false]
        exact if_neg hint
      refine ⟨_, hrem, ?_⟩
      rw [hnat]
      omega

theorem onTime_on_boundary :
    ∃ s₁, startTimer .normal initTimerMgr 100 0 none 0 true true = some (s₁, some 0) ∧
      OnTime s₁ 0 100 :=
  ⟨_, rfl, (onTime_iff [] initTimerMgr _ 100 0 none 0 true true 0 (by decide) (by decide) trivial
    rfl rfl).mpr (by decide)⟩

/-- A timer of one second that is started on the last tick of a second expires
on the next tick, 99 ticks before its `exp`. -/
theorem onTime_fails_off_boundary :
    ∃ s s₁ s₂, PartialSteps.run (step .normal) initTimerMgr (List.replicate 99 .tick) = some s ∧
      startTimer .normal s 100 0 none 0 true true = some (s₁, some 0) ∧
      updateTimes .normal s₁ = some s₂ ∧ newlyExpired s₁ s₂ 0 = 1 ∧ s₂.clk.tick = 100 ∧
      (s₂.timers 0).map Timer.exp = some 199 ∧ ¬ OnTime s₁ 0 100 := by
  have hclk : Clk.zero.after .normal 99 = ⟨99, 0, 0, 0⟩ := by decide +kernel
  have hrun := run_ticks_idle .normal Clk.zero 99
  rw [hclk] at hrun
  refine ⟨_, _, _, hrun, rfl, rfl, rfl, rfl, rfl, fun hon => ?_⟩
  exact absurd (hon.expires [] _ _ ⟨rfl, trivial, nofun⟩ rfl) (by decide)

end Timers
end TmULThreads
