import TmULThreads.Timers.Steps

/-!
# Which timers are referred to

A timer is referred to as long as a node for it is in a tree or on the list of
expired timers.  Only arming a timer makes a reference, and what a timer will call,
and with which data, is fixed when it is allocated.  `evolves_of_step` states both
for every step of the timer manager, without any condition on the program.
-/

namespace TmULThreads
namespace Timers

open RedBlackTree

/-- The nodes of the four trees. -/
def TmrState.placed (s : TmrState) : List AppTimer := wheels.flatMap fun w => (s.root w).toList

/-- Every `APP_TIMER_T` that is linked somewhere. -/
def TmrState.apps (s : TmrState) : List AppTimer := s.placed ++ s.expdTmrs

def TmrState.refs (s : TmrState) : List TimerId := s.apps.filterMap AppTimer.timer

def TmrState.label (s : TmrState) (p : TimerId) : Option Label := (s.timers p).map Timer.label

theorem mem_placed {s : TmrState} {x : AppTimer} : x ∈ s.placed ↔ ∃ w, x ∈ (s.root w).toList := by
  unfold TmrState.placed
  rw [List.mem_flatMap]
  refine ⟨fun ⟨w, _, hx⟩ => ⟨w, hx⟩, fun ⟨w, hx⟩ => ⟨w, ?_, hx⟩⟩
  cases w <;> simp [wheels]

theorem mem_apps {s : TmrState} {x : AppTimer} : x ∈ s.apps ↔ x ∈ s.placed ∨ x ∈ s.expdTmrs :=
  List.mem_append

theorem mem_refs {s : TmrState} {p : TimerId} :
    p ∈ s.refs ↔ ∃ x ∈ s.apps, x.timer = some p := by
  unfold TmrState.refs
  rw [List.mem_filterMap]

/-! ## Steps that arm nothing -/

/-- No timer is armed or allocated; some may be freed. -/
structure Keeps (s s' : TmrState) : Prop where
  refs : ∀ p ∈ s'.refs, p ∈ s.refs
  label : ∀ p l, s'.label p = some l → s.label p = some l
  nextTimer : s'.nextTimer = s.nextTimer

theorem Keeps.refl (s : TmrState) : Keeps s s := ⟨fun _ => id, fun _ _ => id, rfl⟩

theorem Keeps.trans {s mid s' : TmrState} (h : Keeps s mid) (h' : Keeps mid s') : Keeps s s' :=
  ⟨fun p hp => h.refs p (h'.refs p hp), fun p l hl => h.label p l (h'.label p l hl),
    h'.nextTimer.trans h.nextTimer⟩

theorem refs_congr {s s' : TmrState} (hroot : s'.root = s.root) (hexpd : s'.expdTmrs = s.expdTmrs) :
    s'.refs = s.refs := by
  unfold TmrState.refs TmrState.apps TmrState.placed
  rw [hroot, hexpd]

theorem keeps_of_eq {s s' : TmrState} (hroot : s'.root = s.root)
    (hexpd : s'.expdTmrs = s.expdTmrs) (htimers : s'.timers = s.timers)
    (hnext : s'.nextTimer = s.nextTimer) : Keeps s s' where
  refs p hp := by rwa [refs_congr hroot hexpd] at hp
  label p l hl := by
    unfold TmrState.label at hl ⊢
    rwa [htimers] at hl
  nextTimer := hnext

theorem keeps_indx (s : TmrState) (i : U32) : Keeps s { s with indx := i } :=
  keeps_of_eq rfl rfl rfl rfl

theorem label_setTimer_same {s : TmrState} {p : TimerId} {t tmr : Timer}
    (htmr : s.timers p = some tmr) (hlabel : t.label = tmr.label) (q : TimerId) :
    (s.setTimer p t).label q = s.label q := by
  unfold TmrState.label
  by_cases hq : q = p
  · rw [hq, setTimer_timers_self, htmr, Option.map_some, Option.map_some, hlabel]
  · rw [setTimer_timers_of_ne _ _ _ hq]

theorem keeps_setTimer {s : TmrState} {p : TimerId} {t tmr : Timer}
    (htmr : s.timers p = some tmr) (hlabel : t.label = tmr.label) : Keeps s (s.setTimer p t) where
  refs _ hp := hp
  label q l hl := by rwa [label_setTimer_same htmr hlabel] at hl
  nextTimer := rfl

theorem label_freeTimer_self (s : TmrState) (p : TimerId) : (freeTimer s p).label p = none := by
  unfold TmrState.label freeTimer
  simp only [Function.update_self, Option.map_none]

theorem keeps_freeTimer (s : TmrState) (p : TimerId) : Keeps s (freeTimer s p) where
  refs _ hq := hq
  label q l hl := by
    by_cases hq : q = p
    · rw [hq, label_freeTimer_self] at hl
      cases hl
    · unfold TmrState.label freeTimer at hl
      simp only [Function.update_of_ne hq] at hl
      exact hl
  nextTimer := rfl

/-- A tree is replaced by one with more or fewer nodes. -/
theorem mem_placed_setRoot {s : TmrState} {w : Wheel} {r : RBTree AppTimer} {x : AppTimer} :
    x ∈ (s.setRoot w r).placed ↔ x ∈ r.toList ∨ ∃ v, v ≠ w ∧ x ∈ (s.root v).toList := by
  rw [mem_placed]
  unfold TmrState.setRoot
  constructor
  · rintro ⟨v, hx⟩
    by_cases hv : v = w
    · simp only [hv, Function.update_self] at hx
      exact .inl hx
    · simp only [Function.update_of_ne hv] at hx
      exact .inr ⟨v, hv, hx⟩
  · rintro (hx | ⟨v, hv, hx⟩)
    · refine ⟨w, ?_⟩
      simp only [Function.update_self]
      exact hx
    · refine ⟨v, ?_⟩
      simp only [Function.update_of_ne hv]
      exact hx

theorem placed_setRoot_timerDel {s : TmrState} {w : Wheel} {a : AppId} {r : RBTree AppTimer}
    (hdel : timerDel a (s.root w) = some r) {x : AppTimer} (hx : x ∈ (s.setRoot w r).placed) :
    x ∈ s.placed := by
  obtain ⟨y, -, hperm⟩ := erase_perm _ _ _ hdel
  rcases mem_placed_setRoot.mp hx with hr | ⟨v, -, hold⟩
  · exact mem_placed.mpr ⟨w, hperm.mem_iff.mpr (List.mem_cons_of_mem y hr)⟩
  · exact mem_placed.mpr ⟨v, hold⟩

theorem keeps_setRoot_timerDel {s : TmrState} {w : Wheel} {a : AppId} {r : RBTree AppTimer}
    (hdel : timerDel a (s.root w) = some r) : Keeps s (s.setRoot w r) where
  refs p hp := by
    obtain ⟨x, hx, hxp⟩ := mem_refs.mp hp
    refine mem_refs.mpr ⟨x, ?_, hxp⟩
    exact mem_apps.mpr ((mem_apps.mp hx).imp_left (placed_setRoot_timerDel hdel))
  label _ _ hl := hl
  nextTimer := rfl

theorem mem_placed_attach {s : TmrState} {p : TimerId} {tmr : Timer} {x y : AppTimer}
    {q : Pending} :
    y ∈ (s.attach p tmr x q).placed ↔ y = { x with rt := q.rt } ∨ y ∈ s.placed := by
  unfold TmrState.attach timerAdd
  rw [mem_placed_setRoot, (insert_perm _ _ _).mem_iff, List.mem_cons, mem_placed, or_assoc]
  refine or_congr_right ⟨?_, ?_⟩
  · rintro (hy | ⟨v, -, hy⟩)
    · exact ⟨q.wheel, hy⟩
    · exact ⟨v, hy⟩
  · rintro ⟨v, hy⟩
    by_cases hv : v = q.wheel
    · exact .inl (hv ▸ hy)
    · exact .inr ⟨v, hv, hy⟩

/-- Linking a node adds a reference to its own timer only. -/
theorem refs_attach {s : TmrState} {p : TimerId} {tmr : Timer} {x : AppTimer} {q : Pending}
    {p' : TimerId} (hp' : p' ∈ (s.attach p tmr x q).refs) :
    p' ∈ s.refs ∨ x.timer = some p' := by
  obtain ⟨y, hy, hyp⟩ := mem_refs.mp hp'
  rcases mem_apps.mp hy with hplaced | hexpd
  · rcases mem_placed_attach.mp hplaced with rfl | hold
    · exact .inr hyp
    · exact .inl (mem_refs.mpr ⟨y, mem_apps.mpr (.inl hold), hyp⟩)
  · exact .inl (mem_refs.mpr ⟨y, mem_apps.mpr (.inr hexpd), hyp⟩)

theorem label_attach {s : TmrState} {p : TimerId} {tmr : Timer} (htmr : s.timers p = some tmr)
    (x : AppTimer) (q : Pending) (p' : TimerId) : (s.attach p tmr x q).label p' = s.label p' :=
  label_setTimer_same (t := { tmr with wheel := some q.wheel, isRunning := true }) htmr rfl p'

theorem label_lapse {s : TmrState} {p : TimerId} {tmr : Timer} (htmr : s.timers p = some tmr)
    (x : AppTimer) (p' : TimerId) : (s.lapse p tmr x).label p' = s.label p' :=
  label_setTimer_same (t := { tmr with isRunning := false }) htmr rfl p'

theorem refs_lapse {s : TmrState} {p : TimerId} {tmr : Timer} {x : AppTimer} {p' : TimerId}
    (hp' : p' ∈ (s.lapse p tmr x).refs) : p' ∈ s.refs ∨ x.timer = some p' := by
  obtain ⟨y, hy, hyp⟩ := mem_refs.mp hp'
  rcases mem_apps.mp hy with hy | hy
  · exact .inl (mem_refs.mpr ⟨y, mem_apps.mpr (.inl hy), hyp⟩)
  · rcases List.mem_append.mp hy with hold | hnew
    · exact .inl (mem_refs.mpr ⟨y, mem_apps.mpr (.inr hold), hyp⟩)
    · rw [List.mem_singleton.mp hnew] at hyp
      exact .inr hyp

theorem label_processOne {s s' : TmrState} {w : Wheel} {x : AppTimer}
    (h : processOne s w x = some s') (p : TimerId) : s'.label p = s.label p := by
  obtain ⟨p', tmr, v, r, -, htmr, -, -, hcase⟩ := processOne_cases h
  rcases hcase with ⟨-, rfl⟩ | ⟨q, -, rfl⟩
  · exact label_lapse (s := s.setRoot w r) htmr _ p
  · exact label_attach (s := s.setRoot w r) htmr _ _ p

theorem keeps_processOne {s s' : TmrState} {w : Wheel} {x : AppTimer}
    (hx : x ∈ (s.root w).toList) (h : processOne s w x = some s') : Keeps s s' := by
  have hlabel := label_processOne h
  obtain ⟨p, tmr, v, r, hp, htmr, -, hr, hcase⟩ := processOne_cases h
  have hdel := keeps_setRoot_timerDel hr
  have hself {p' : TimerId} (hp' : x.timer = some p') : p' ∈ s.refs :=
    mem_refs.mpr ⟨x, mem_apps.mpr (.inl (mem_placed.mpr ⟨w, hx⟩)), hp'⟩
  rcases hcase with ⟨-, rfl⟩ | ⟨q, -, rfl⟩
  · exact ⟨fun p' hp' => (refs_lapse hp').elim (hdel.refs p') hself,
      fun p' l hl => (hlabel p').symm.trans hl, rfl⟩
  · exact ⟨fun p' hp' => (refs_attach hp').elim (hdel.refs p') hself,
      fun p' l hl => (hlabel p').symm.trans hl, rfl⟩

theorem keeps_tmProcess {b : Build} {s : TmrState} {r : TmrState × Nat}
    (h : tmProcessTickAndUpdateTimers b s = some r) : Keeps s r.1 := by
  refine tmProcess_invariant (I := Keeps s) ?_ (Keeps.refl s) h
  intro w mid x next hmid hx hone
  exact hmid.trans (keeps_processOne hx hone)

theorem keeps_updateTimes {b : Build} {s s' : TmrState} (h : updateTimes b s = some s') :
    Keeps s s' := by
  rcases updateTimes_cases h with ⟨-, rfl⟩ | ⟨-, rfl⟩ | ⟨r, -, hproc, rfl⟩
  · exact keeps_of_eq rfl rfl rfl rfl
  · exact keeps_of_eq rfl rfl rfl rfl
  · have hclk : Keeps s { s with clk := s.clk.advance b } := keeps_of_eq rfl rfl rfl rfl
    exact (hclk.trans (keeps_tmProcess hproc)).trans (keeps_of_eq rfl rfl rfl rfl)

theorem keeps_bottomHalf {b : Build} {s s' : TmrState} (h : step b s .bottomHalf = some s') :
    Keeps s s' := by
  rcases step_bottomHalf_cases h with ⟨-, r, hproc, rfl⟩ | ⟨-, rfl⟩
  · exact (keeps_tmProcess hproc).trans (keeps_of_eq rfl rfl rfl rfl)
  · exact keeps_of_eq rfl rfl rfl rfl

theorem keeps_finishExpd {b : Build} {s s' : TmrState} {appOk : Bool}
    (h : finishExpd b s appOk = some s') : Keeps s s' := by
  obtain ⟨x, rest, p, tmr, hlist, -, htmr, hs'⟩ := finishExpd_cases h
  have htail : Keeps s { s with expdTmrs := rest } := by
    refine ⟨fun q hq => ?_, fun _ _ hl => hl, rfl⟩
    obtain ⟨y, hy, hyq⟩ := mem_refs.mp hq
    refine mem_refs.mpr ⟨y, ?_, hyq⟩
    rw [mem_apps] at hy ⊢
    refine hy.imp_right fun hrest => ?_
    rw [hlist]
    exact List.mem_cons_of_mem x hrest
  rcases hs' with rfl | rfl
  · exact htail.trans (keeps_freeTimer _ p)
  · exact htail.trans (keeps_setTimer htmr rfl)

/-- A timer that is not to be used again is freed once its handler has been called. -/
theorem label_finishExpd {b : Build} {s s' : TmrState} {appOk : Bool} {x : AppTimer}
    {rest : List AppTimer} {p : TimerId} {l : Label} (hlist : s.expdTmrs = x :: rest)
    (hp : x.timer = some p) (hl : s.label p = some l) (honce : l.flags &&& timerOnce ≠ 0)
    (h : finishExpd b s appOk = some s') : s'.label p = none := by
  obtain ⟨tmr, htmr, rfl⟩ := Option.map_eq_some_iff.mp hl
  replace honce : tmr.flags &&& timerOnce ≠ 0 := honce
  simp only [finishExpd, hlist, hp, htmr, Option.bind_eq_bind, Option.bind_some] at h
  rw [if_pos honce] at h
  cases h
  exact label_freeTimer_self _ p

theorem keeps_stopTimer {s s' : TmrState} {p : TimerId} (h : stopTimer s p = some s') :
    Keeps s s' := by
  obtain ⟨tmr, w, a, r, htmr, -, -, hr, rfl⟩ := stopTimer_cases h
  have hset : Keeps (s.setRoot w r) ((s.setRoot w r).setTimer p { tmr with isRunning := false }) :=
    keeps_setTimer htmr rfl
  exact ((keeps_setRoot_timerDel hr).trans hset).trans (keeps_of_eq rfl rfl rfl rfl)

/-! ## Arming -/

/-- Arming adds a reference to the timer that is armed. -/
theorem calcAndPlace_refs {b : Build} {s s' : TmrState} {x : AppTimer} (hzero : x.ctime = 0)
    (h : calcAndPlace b s x = some s') :
    (∀ p ∈ s'.refs, p ∈ s.refs ∨ x.timer = some p) ∧ (∀ p, s'.label p = s.label p) ∧
      s'.nextTimer = s.nextTimer := by
  obtain ⟨p, tmr, mid, hp, htmr, hfind, rfl⟩ := calcAndPlace_cases hzero h
  have hset := label_setTimer_same (t := { tmr with exp := tmr.rmt + s.clk.tick }) htmr rfl
  rcases findTmrSlotAndPlace_cases hfind with ⟨-, rfl⟩ | ⟨q, p', tmr', -, hp', htmr', rfl⟩
  · exact ⟨fun _ hq => .inl hq, hset, rfl⟩
  · have hattach := label_attach htmr' { x with ctime := packCtime b tmr.rmt } q
    refine ⟨fun q' hq' => ?_, fun q' => (hattach q').trans (hset q'), rfl⟩
    have hmem := refs_attach (s := s.setTimer p { tmr with exp := tmr.rmt + s.clk.tick })
      (p := p') (x := { x with ctime := packCtime b tmr.rmt }) (q := q) hq'
    exact hmem

/-- A node is placed unless the time word is empty. -/
theorem calcAndPlace_placed {b : Build} {s s' : TmrState} {x : AppTimer} {p : TimerId}
    {tmr : Timer} (hzero : x.ctime = 0) (hp : x.timer = some p) (htmr : s.timers p = some tmr)
    (h : calcAndPlace b s x = some s') :
    (packCtime b tmr.rmt = 0 ∧ s'.placed = s.placed) ∨
      (packCtime b tmr.rmt ≠ 0 ∧ ∃ y, y.timer = some p ∧
        ∀ z, z ∈ s'.placed ↔ z = y ∨ z ∈ s.placed) := by
  obtain ⟨p', tmr', mid, hp', htmr', hfind, rfl⟩ := calcAndPlace_cases hzero h
  obtain rfl : p = p' := Option.some.inj (hp.symm.trans hp')
  obtain rfl : tmr = tmr' := Option.some.inj (htmr.symm.trans htmr')
  rcases findTmrSlotAndPlace_cases hfind with ⟨hplace, rfl⟩ | ⟨q, p', tmr', hplace, -, -, rfl⟩
  · exact .inl ⟨(place_eq_none_iff _ _).mp hplace, rfl⟩
  · refine .inr ⟨fun hempty => ?_, { x with ctime := packCtime b tmr.rmt, rt := q.rt }, hp,
      fun z => mem_placed_attach⟩
    have hnone := (place_eq_none_iff s.clk (packCtime b tmr.rmt)).mpr hempty
    exact Option.some_ne_none q (hplace.symm.trans hnone)

theorem calcAndPlace_isSome {b : Build} {s : TmrState} {x : AppTimer} {p : TimerId} {tmr : Timer}
    (hp : x.timer = some p) (htmr : s.timers p = some tmr) :
    (calcAndPlace b s x).isSome := by
  unfold calcAndPlace calcTime findTmrSlotAndPlace
  simp only [hp, htmr, Option.bind_eq_bind, Option.bind_some, setTimer_timers_self]
  split <;> rfl

/-- `start_timer` always comes to an end. -/
theorem startTimer_isSome (b : Build) (s : TmrState) (ticks : U32) (data : Nat)
    (handler : Option Nat) (flags : U32) (timerOk appOk : Bool) :
    (startTimer b s ticks data handler flags timerOk appOk).isSome := by
  unfold startTimer
  generalize allocTimerId s = r
  obtain ⟨mid, idx⟩ := r
  dsimp only
  split
  · rfl
  · split
    · rfl
    · simp only [Option.bind_eq_bind, Option.isSome_bind, Option.isSome_some, Option.any_true]
      exact calcAndPlace_isSome rfl (setTimer_timers_self ..)

/-- The timer that a step may arm. -/
def Op.arms (s : TmrState) : Op → Option TimerId
  | .call (.startTimer ..) => some s.nextTimer
  | .call (.modTimer p _ _) => p
  | _ => none

/-- What the timer that a step allocates is set up for. -/
def Op.label : Op → Option Label
  | .call (.startTimer _ data handler flags _ _) =>
      some ⟨handler, data, if flags ≠ 0 then flags else timerOnce⟩
  | .call (.setupTimer handler data _) => some ⟨handler, data, timerForever⟩
  | _ => none

/-- What a step can do to references and labels. -/
structure Evolves (s : TmrState) (op : Op) (s' : TmrState) : Prop where
  refs : ∀ p ∈ s'.refs, p ∈ s.refs ∨ (op.arms s = some p ∧ (s'.label p).isSome)
  label : ∀ p l, s'.label p = some l → s.label p = some l ∨
    (p = s.nextTimer ∧ p < s'.nextTimer ∧ op.label = some l)
  nextTimer : s.nextTimer ≤ s'.nextTimer

theorem Keeps.evolves {s s' : TmrState} (h : Keeps s s') (op : Op) : Evolves s op s' where
  refs p hp := .inl (h.refs p hp)
  label p l hl := .inl (h.label p l hl)
  nextTimer := h.nextTimer.ge

theorem label_grow {s : TmrState} {i : U32} {u : Option Timer} {apps : Nat} {p : TimerId}
    {l : Label} (h : (s.grow i u apps).label p = some l) :
    s.label p = some l ∨ (p = s.nextTimer ∧ u.map Timer.label = some l) := by
  unfold TmrState.label TmrState.grow at h
  by_cases hp : p = s.nextTimer
  · simp only [hp, Function.update_self] at h
    exact .inr ⟨hp, h⟩
  · simp only [Function.update_of_ne hp] at h
    exact .inl h

theorem label_grow_of_lt {s : TmrState} {i : U32} {u : Option Timer} {apps : Nat} {p : TimerId}
    (hp : p < s.nextTimer) : (s.grow i u apps).label p = s.label p := by
  unfold TmrState.label TmrState.grow
  simp only [Function.update_of_ne hp.ne]

theorem evolves_startTimer {b : Build} {s s' : TmrState} {ticks : U32} {data : Nat}
    {handler : Option Nat} {flags : U32} {timerOk appOk : Bool} {res : Option TimerId}
    (h : startTimer b s ticks data handler flags timerOk appOk = some (s', res)) :
    Evolves s (.call (.startTimer ticks data handler flags timerOk appOk)) s' := by
  rcases startTimer_cases h with ⟨-, -, i, rfl | rfl⟩ | ⟨-, -, harm⟩
  · exact (keeps_indx s i).evolves _
  · refine ⟨fun p hp => .inl hp, fun p l hl => ?_, Nat.le_succ _⟩
    rcases label_grow hl with hold | ⟨-, hnone⟩
    · exact .inl hold
    · cases hnone
  · obtain ⟨hrefs, hlabel, hnext⟩ := calcAndPlace_refs rfl harm
    refine ⟨fun p hp => ?_, fun p l hl => ?_, ?_⟩
    · refine (hrefs p hp).imp_right fun hnew => ⟨hnew, ?_⟩
      cases hnew
      rw [hlabel]
      simp [TmrState.label, TmrState.grow]
    · rw [hlabel] at hl
      refine (label_grow hl).imp_right fun hnew => ⟨hnew.1, ?_, hnew.2⟩
      rw [hnew.1, hnext]
      exact Nat.lt_succ_self _
    · rw [hnext]
      exact Nat.le_succ _

theorem evolves_setupTimer (s : TmrState) (handler : Option Nat) (data : Nat) (timerOk : Bool) :
    Evolves s (.call (.setupTimer handler data timerOk))
      (setupTimer s handler data timerOk).1 := by
  obtain ⟨i, hs' | ⟨t, -, -, hlabel, hs'⟩⟩ := setupTimer_cases s handler data timerOk
  · rw [hs']
    exact (keeps_indx s i).evolves _
  · rw [hs']
    refine ⟨fun p hp => .inl hp, fun p l hl => ?_, Nat.le_succ _⟩
    refine (label_grow hl).imp_right fun ⟨hp, hnew⟩ => ⟨hp, hp ▸ Nat.lt_succ_self _, ?_⟩
    rw [Option.map_some, hlabel] at hnew
    exact hnew

theorem label_rearm {s : TmrState} {p : TimerId} {t : Timer} (ht : s.timers p = some t)
    (rmt : U32) (p' : TimerId) :
    (TmrState.setTimer { s with nextApp := s.nextApp + 1 } p
      { t with rmt := rmt, apptimer := some s.nextApp }).label p' = s.label p' :=
  label_setTimer_same (s := { s with nextApp := s.nextApp + 1 })
    (t := { t with rmt := rmt, apptimer := some s.nextApp }) ht rfl p'

theorem evolves_modTimer {b : Build} {s s' : TmrState} {p : Option TimerId} {secs : U32}
    {appOk : Bool} (h : modTimer b s p secs appOk = some s') :
    Evolves s (.call (.modTimer p secs appOk)) s' := by
  rcases modTimer_cases h with rfl | ⟨q, t, rfl, ht, harm⟩
  · exact (Keeps.refl s').evolves _
  · obtain ⟨hrefs, hlabel, hnext⟩ := calcAndPlace_refs rfl harm
    have hset (p' : TimerId) : s'.label p' = s.label p' :=
      (hlabel p').trans (label_rearm ht (secs * tmGetTicksPerSecond b) p')
    refine ⟨fun p' hp' => ?_, fun p' l hl => .inl (hset p' ▸ hl), hnext.ge⟩
    refine (hrefs p' hp').imp_right fun hnew => ⟨hnew, ?_⟩
    cases hnew
    rw [hset, TmrState.label, ht]
    rfl

theorem evolves_of_step {b : Build} {s s' : TmrState} {op : Op} (h : step b s op = some s') :
    Evolves s op s' := by
  cases op with
  | call c =>
      cases c with
      | startTimer ticks data handler flags timerOk appOk =>
          obtain ⟨⟨r, res⟩, hstart, rfl⟩ := Option.map_eq_some_iff.mp h
          exact evolves_startTimer hstart
      | setupTimer handler data timerOk =>
          cases h
          exact evolves_setupTimer s handler data timerOk
      | modTimer p secs appOk => exact evolves_modTimer h
      | timerRestart p appOk =>
          rw [timerRestart_cases h]
          exact (Keeps.refl s).evolves _
      | stopTimer p => exact (keeps_stopTimer h).evolves _
      | delTimer p =>
          rcases delTimer_cases h with rfl | hstop
          · exact (Keeps.refl s').evolves _
          · exact (keeps_stopTimer hstop).evolves _
  | tick => exact (keeps_updateTimes h).evolves _
  | bottomHalf => exact (keeps_bottomHalf h).evolves _
  | finishExpd appOk => exact (keeps_finishExpd h).evolves _

/-! ## What calls leave alone -/

theorem calcAndPlace_expdTmrs {b : Build} {s s' : TmrState} {x : AppTimer} (hzero : x.ctime = 0)
    (h : calcAndPlace b s x = some s') : s'.expdTmrs = s.expdTmrs ∧ s'.raised = s.raised := by
  obtain ⟨p, tmr, mid, -, -, hfind, rfl⟩ := calcAndPlace_cases hzero h
  rcases findTmrSlotAndPlace_cases hfind with ⟨-, rfl⟩ | ⟨q, p', tmr', -, -, -, rfl⟩
  · exact ⟨rfl, rfl⟩
  · exact ⟨rfl, rfl⟩

/-- The list, the event and what the timers were set up for. -/
structure SameWork (s s' : TmrState) : Prop where
  expdTmrs : s'.expdTmrs = s.expdTmrs
  raised : s'.raised = s.raised
  label : ∀ p < s.nextTimer, s'.label p = s.label p

theorem SameWork.refl (s : TmrState) : SameWork s s := ⟨rfl, rfl, fun _ _ => rfl⟩

theorem sameWork_grow (s : TmrState) (i : U32) (u : Option Timer) (apps : Nat) :
    SameWork s (s.grow i u apps) :=
  ⟨rfl, rfl, fun _ hp => label_grow_of_lt hp⟩

theorem SameWork.of_calcAndPlace {b : Build} {s mid s' : TmrState} {x : AppTimer}
    (h : SameWork s mid) (hzero : x.ctime = 0) (harm : calcAndPlace b mid x = some s') :
    SameWork s s' := by
  obtain ⟨hexpd, hraised⟩ := calcAndPlace_expdTmrs hzero harm
  obtain ⟨-, hlabel, -⟩ := calcAndPlace_refs hzero harm
  exact ⟨hexpd.trans h.expdTmrs, hraised.trans h.raised,
    fun p hp => (hlabel p).trans (h.label p hp)⟩

theorem sameWork_stopTimer {s s' : TmrState} {p : TimerId} (h : stopTimer s p = some s') :
    SameWork s s' := by
  obtain ⟨tmr, w, a, r, htmr, -, -, -, rfl⟩ := stopTimer_cases h
  refine ⟨rfl, rfl, fun p' _ => ?_⟩
  exact label_setTimer_same (s := s.setRoot w r) (t := { tmr with isRunning := false }) htmr rfl p'

theorem sameWork_of_exec {b : Build} {s s' : TmrState} {c : Call} (h : c.exec b s = some s') :
    SameWork s s' := by
  cases c with
  | startTimer ticks data handler flags timerOk appOk =>
      obtain ⟨⟨r, res⟩, hstart, rfl⟩ := Option.map_eq_some_iff.mp h
      rcases startTimer_cases hstart with ⟨-, -, i, rfl | rfl⟩ | ⟨-, -, harm⟩
      · exact ⟨rfl, rfl, fun _ _ => rfl⟩
      · exact sameWork_grow s i none 0
      · exact (sameWork_grow s _ _ 1).of_calcAndPlace rfl harm
  | setupTimer handler data timerOk =>
      cases h
      obtain ⟨i, hs' | ⟨t, -, -, -, hs'⟩⟩ := setupTimer_cases s handler data timerOk
      · rw [hs']
        exact ⟨rfl, rfl, fun _ _ => rfl⟩
      · rw [hs']
        exact sameWork_grow s i (some t) 0
  | modTimer p secs appOk =>
      rcases modTimer_cases h with rfl | ⟨q, t, rfl, ht, harm⟩
      · exact .refl s'
      · refine SameWork.of_calcAndPlace ?_ rfl harm
        exact ⟨rfl, rfl, fun p' _ => label_rearm ht _ p'⟩
  | timerRestart p appOk =>
      rw [timerRestart_cases h]
      exact .refl s
  | stopTimer p => exact sameWork_stopTimer h
  | delTimer p =>
      rcases delTimer_cases h with rfl | hstop
      · exact .refl s'
      · exact sameWork_stopTimer hstop

/-! ## Handles are not used before they are allocated -/

structure Numbered (s : TmrState) : Prop where
  refs : ∀ p ∈ s.refs, p < s.nextTimer
  label : ∀ p, (s.label p).isSome → p < s.nextTimer

theorem numbered_initTimerMgr : Numbered initTimerMgr := by
  constructor
  · intro p hp
    cases hp
  · intro p hp
    cases hp

theorem Numbered.of_evolves {s s' : TmrState} {op : Op} (h : Numbered s) (he : Evolves s op s') :
    Numbered s' := by
  have hlabel (p : TimerId) (hp : (s'.label p).isSome) : p < s'.nextTimer := by
    obtain ⟨l, hl⟩ := Option.isSome_iff_exists.mp hp
    rcases he.label p l hl with hold | ⟨-, hlt, -⟩
    · exact (h.label p (Option.isSome_of_eq_some hold)).trans_le he.nextTimer
    · exact hlt
  refine ⟨fun p hp => ?_, hlabel⟩
  rcases he.refs p hp with hold | ⟨-, hsome⟩
  · exact (h.refs p hold).trans_le he.nextTimer
  · exact hlabel p hsome

theorem numbered_of_run {b : Build} {ops : List Op} {s : TmrState}
    (hrun : PartialSteps.run (step b) initTimerMgr ops = some s) : Numbered s :=
  PartialSteps.run_invariant_always (step b)
    (fun _ _ _ hs hstep => hs.of_evolves (evolves_of_step hstep)) numbered_initTimerMgr hrun

/-! ## Steps that allocate nothing -/

/-- No timer and no node is allocated, and the entries of `expd_tmrs` are nodes that were
there. -/
structure SameBlocks (s s' : TmrState) : Prop where
  label : ∀ p l, s'.label p = some l → s.label p = some l
  nextTimer : s'.nextTimer = s.nextTimer
  nextApp : s'.nextApp = s.nextApp
  expd : ∀ x ∈ s'.expdTmrs, x ∈ s.expdTmrs ∨ x.addr < s.nextApp

theorem SameBlocks.trans {s mid s' : TmrState} (h : SameBlocks s mid) (h' : SameBlocks mid s') :
    SameBlocks s s' where
  label p l hl := h.label p l (h'.label p l hl)
  nextTimer := h'.nextTimer.trans h.nextTimer
  nextApp := h'.nextApp.trans h.nextApp
  expd x hx := by
    rcases h'.expd x hx with hmid | hlt
    · exact h.expd x hmid
    · rw [h.nextApp] at hlt
      exact .inr hlt

theorem sameBlocks_of_eq {s s' : TmrState} (htimers : s'.timers = s.timers)
    (hnext : s'.nextTimer = s.nextTimer) (happ : s'.nextApp = s.nextApp)
    (hexpd : s'.expdTmrs = s.expdTmrs) : SameBlocks s s' where
  label p l hl := by
    unfold TmrState.label at hl ⊢
    rwa [htimers] at hl
  nextTimer := hnext
  nextApp := happ
  expd x hx := .inl (hexpd ▸ hx)

theorem sameBlocks_processOne {s s' : TmrState} {w : Wheel} {x : AppTimer}
    (hl : Linked s) (hx : x ∈ (s.root w).toList)
    (hone : processOne s w x = some s') : SameBlocks s s' := by
  have hlabel := label_processOne hone
  have haddr : x.addr < s.nextApp := hl.addr_lt _ (node_mem_nodes hx)
  obtain ⟨p, tmr, v, r, -, -, -, -, hcase⟩ := processOne_cases hone
  rcases hcase with ⟨-, rfl⟩ | ⟨q, -, rfl⟩
  · refine ⟨fun p l hl => (hlabel p).symm.trans hl, rfl, rfl, fun y hy => ?_⟩
    rcases List.mem_append.mp hy with hold | hnew
    · exact .inl hold
    · rw [List.mem_singleton.mp hnew]
      exact .inr haddr
  · exact ⟨fun p l hl => (hlabel p).symm.trans hl, rfl, rfl, fun y hy => .inl hy⟩

theorem sameBlocks_tmProcess {b : Build} {s : TmrState} {r : TmrState × Nat}
    (hl : Linked s) (hproc : tmProcessTickAndUpdateTimers b s = some r) :
    SameBlocks s r.1 := by
  have hboth : Linked r.1 ∧ SameBlocks s r.1 := by
    refine tmProcess_invariant (I := fun m => Linked m ∧ SameBlocks s m) ?_
      ⟨hl, sameBlocks_of_eq rfl rfl rfl rfl⟩ hproc
    rintro w mid x next ⟨hlm, hsame⟩ hx hone
    exact ⟨(processOne_nodes hlm hx hone).2.1,
      hsame.trans (sameBlocks_processOne hlm hx hone)⟩
  exact hboth.2

theorem sameBlocks_updateTimes {b : Build} {s s' : TmrState} (hl : Linked s)
    (htick : updateTimes b s = some s') : SameBlocks s s' := by
  rcases updateTimes_cases htick with ⟨-, rfl⟩ | ⟨-, rfl⟩ | ⟨r, -, hproc, rfl⟩
  · exact sameBlocks_of_eq rfl rfl rfl rfl
  · exact sameBlocks_of_eq rfl rfl rfl rfl
  · have hclk : SameBlocks s { s with clk := s.clk.advance b } := sameBlocks_of_eq rfl rfl rfl rfl
    have hlclk : Linked { s with clk := s.clk.advance b } := hl.of_eq rfl le_rfl
    exact (hclk.trans (sameBlocks_tmProcess hlclk hproc)).trans (sameBlocks_of_eq rfl rfl rfl rfl)

theorem sameBlocks_bottomHalf {b : Build} {s s' : TmrState} (hl : Linked s)
    (hstep : step b s .bottomHalf = some s') : SameBlocks s s' := by
  rcases step_bottomHalf_cases hstep with ⟨-, r, hproc, rfl⟩ | ⟨-, rfl⟩
  · exact (sameBlocks_tmProcess hl hproc).trans (sameBlocks_of_eq rfl rfl rfl rfl)
  · exact sameBlocks_of_eq rfl rfl rfl rfl

theorem sameBlocks_calcAndPlace {b : Build} {s s' : TmrState} {x : AppTimer}
    (hzero : x.ctime = 0) (harm : calcAndPlace b s x = some s') : SameBlocks s s' := by
  obtain ⟨-, hlabel, hnext⟩ := calcAndPlace_refs hzero harm
  have hexpd := (calcAndPlace_expdTmrs hzero harm).1
  refine ⟨fun p l hl => (hlabel p).symm.trans hl, hnext, ?_, fun y hy => .inl (hexpd ▸ hy)⟩
  obtain ⟨p, tmr, mid, -, -, hfind, rfl⟩ := calcAndPlace_cases hzero harm
  rcases findTmrSlotAndPlace_cases hfind with ⟨-, rfl⟩ | ⟨q, p', tmr', -, -, -, rfl⟩
  · rfl
  · rfl

end Timers
end TmULThreads
