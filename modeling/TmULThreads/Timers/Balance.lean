import TmULThreads.Lib.RedBlackBalance
import TmULThreads.Timers.Steps

/-!
# The cost of the wheels

`timer_add` and `timer_del` rebalance the tree of a wheel with `rb_insert_color` and
`rb_erase`.  They are all that ever changes a tree (`roots_of_step`), so in every state that
the timer manager can get into the trees are red-black, and the walks down a tree that the
tick interrupt makes are short.
-/

namespace TmULThreads
namespace Timers

open RedBlackTree

/-! ## What changes a tree -/

section Roots

variable {P : RBTree AppTimer → Prop} (hadd : ∀ x r, P r → P (timerAdd x r))
  (hdel : ∀ a r r', P r → timerDel a r = some r' → P r')
include hadd

theorem roots_of_attach {s : TmrState} (hs : ∀ w, P (s.root w)) (p : TimerId) (tmr : Timer)
    (x : AppTimer) (q : Pending) : ∀ w, P ((s.attach p tmr x q).root w) := by
  intro w
  by_cases hw : w = q.wheel
  · subst hw
    simp only [TmrState.attach, TmrState.setRoot, Function.update_self]
    exact hadd _ _ (hs q.wheel)
  · simp only [TmrState.attach, TmrState.setRoot, Function.update_of_ne hw]
    exact hs w

theorem roots_of_calcAndPlace {b : Build} {s s' : TmrState} {x : AppTimer}
    (h : calcAndPlace b s x = some s') (hzero : x.ctime = 0) (hs : ∀ w, P (s.root w)) :
    ∀ w, P (s'.root w) := by
  obtain ⟨p, tmr, mid, -, -, hfind, rfl⟩ := calcAndPlace_cases hzero h
  rcases findTmrSlotAndPlace_cases hfind with ⟨-, rfl⟩ | ⟨q, p', tmr', -, -, -, rfl⟩
  · exact hs
  · exact roots_of_attach hadd hs p' tmr' _ q

include hdel

omit hadd in
theorem roots_of_setRoot {s : TmrState} (hs : ∀ w, P (s.root w)) {a : AppId} {w : Wheel}
    {r : RBTree AppTimer} (hr : timerDel a (s.root w) = some r) :
    ∀ v, P ((s.setRoot w r).root v) := by
  intro v
  by_cases hv : v = w
  · subst hv
    simp only [TmrState.setRoot, Function.update_self]
    exact hdel a _ r (hs v) hr
  · simp only [TmrState.setRoot, Function.update_of_ne hv]
    exact hs v

theorem roots_of_exec {b : Build} {s s' : TmrState} {c : Call} (hs : ∀ w, P (s.root w))
    (hexec : c.exec b s = some s') : ∀ w, P (s'.root w) := by
  have hstop {p : TimerId} (h : stopTimer s p = some s') : ∀ w, P (s'.root w) := by
    obtain ⟨tmr, w, a, r, -, -, -, hr, rfl⟩ := stopTimer_cases h
    exact roots_of_setRoot hdel hs hr
  cases c with
  | startTimer ticks data handler flags timerOk appOk =>
      obtain ⟨⟨r, res⟩, hstart, rfl⟩ := Option.map_eq_some_iff.mp hexec
      rcases startTimer_cases hstart with ⟨-, -, i, rfl | rfl⟩ | ⟨-, -, harm⟩
      · exact hs
      · exact hs
      · exact roots_of_calcAndPlace hadd harm rfl hs
  | setupTimer handler data timerOk =>
      cases hexec
      obtain ⟨i, hs' | ⟨t, -, -, -, hs'⟩⟩ := setupTimer_cases s handler data timerOk
      · rw [hs']
        exact hs
      · rw [hs']
        exact hs
  | modTimer p secs appOk =>
      rcases modTimer_cases hexec with rfl | ⟨q, t, -, -, harm⟩
      · exact hs
      · exact roots_of_calcAndPlace hadd harm rfl hs
  | timerRestart p appOk =>
      rw [timerRestart_cases hexec]
      exact hs
  | stopTimer p => exact hstop hexec
  | delTimer p =>
      rcases delTimer_cases hexec with rfl | h
      · exact hs
      · exact hstop h

theorem roots_of_tmProcess {b : Build} {s : TmrState} {r : TmrState × Nat}
    (h : tmProcessTickAndUpdateTimers b s = some r) (hs : ∀ w, P (s.root w)) :
    ∀ w, P (r.1.root w) := by
  refine tmProcess_invariant (I := fun m => ∀ w, P (m.root w)) ?_ hs h
  intro w m x m' hm _ hone
  obtain ⟨p, tmr, v, r, -, -, -, hr, ⟨-, rfl⟩ | ⟨q, -, rfl⟩⟩ := processOne_cases hone
  · exact roots_of_setRoot hdel hm hr
  · exact roots_of_attach hadd (roots_of_setRoot hdel hm hr) p tmr _ q

/-- What `timer_add` and `timer_del` preserve of a tree, every step preserves of every wheel. -/
theorem roots_of_step {b : Build} {s s' : TmrState} {op : Op} (hs : ∀ w, P (s.root w))
    (h : step b s op = some s') : ∀ w, P (s'.root w) := by
  cases op with
  | call c => exact roots_of_exec hadd hdel hs h
  | tick =>
      rcases updateTimes_cases h with ⟨-, rfl⟩ | ⟨-, rfl⟩ | ⟨r, -, hproc, rfl⟩
      · exact hs
      · exact hs
      · exact roots_of_tmProcess hadd hdel hproc hs
  | bottomHalf =>
      rcases step_bottomHalf_cases h with ⟨-, r, hproc, rfl⟩ | ⟨-, rfl⟩
      · exact roots_of_tmProcess hadd hdel hproc hs
      · exact hs
  | finishExpd appOk =>
      obtain ⟨x, rest, p, tmr, -, -, -, rfl | rfl⟩ := finishExpd_cases h
      · exact hs
      · exact hs

end Roots

/-! ## Walks -/

/-- The nodes that `timer_tree_walk` compares with the key. -/
def walkPath (root : RBTree AppTimer) (key : U32) : List AppTimer :=
  descend (searchDir (fun x => x.rt.toNat) key.toNat) root

/-- The nodes that `timer_add` compares with the new one. -/
def addPath (n : AppTimer) (root : RBTree AppTimer) : List AppTimer :=
  descend (fun x => some (if n.rt.toNat < x.rt.toNat then .left else .right)) root

/-- The walk answers with the last node it has looked at, or with nothing. -/
theorem timerTreeWalk_eq_walkPath (root : RBTree AppTimer) (key : U32) :
    timerTreeWalk root key = (walkPath root key).getLast?.filter (·.rt.toNat = key.toNat) :=
  search_eq_descend ..

/-- A red-black tree, and what that means for the functions that walk down. -/
structure WheelLaw (root : RBTree AppTimer) : Prop where
  redBlack : RedBlack root
  walk : ∀ key, (walkPath root key).length ≤ 2 * Nat.log 2 (root.size + 1)
  add : ∀ n, (addPath n root).length ≤ 2 * Nat.log 2 (root.size + 1)

theorem wheelLaw_of_redBlack {root : RBTree AppTimer} (h : RedBlack root) : WheelLaw root where
  redBlack := h
  walk := fun _ => (length_descend_le _ _).trans h.height_le
  add := fun _ => (length_descend_le _ _).trans h.height_le

end Timers
end TmULThreads
