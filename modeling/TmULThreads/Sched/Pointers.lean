import TmULThreads.Lib.CircularList
import TmULThreads.Sched.Regular

/-!
# The pointers of the queues

In `Sched.Model` a queue is a list of tasks.  Here it is what it is in the source: the
`next` and `prev` pointers of `struct list_head`, as `cmn/list.h` writes them.  A `list_head`
is the head of a queue, the `hd` of a task, or one of those that belong to neither.

`wake_io_task` walks along a list of waiting tasks and takes every task out of it that it
comes to; `wakeup_task` then takes the same task out once more, although the pointers left in
it are those of the list it is no longer in.  They still name the two neighbours that the
first `list_del` has joined, so the second one joins them again and writes nothing new
(`listDel_unlinked`).

`Queues` says which tasks the pointers put into which queue.  `turn_eq` is a turn of the
loop, `wakeIoLoop_eq` all of it; `Represents.wakeIoTask` compares the function with the one
of `Sched.Model`.
-/

namespace TmULThreads
namespace Sched
namespace Pointers

open CircularList
open CircularList.Links

/-! ## Memory -/

/-- The objects of type `struct list_head`. -/
inductive Node where
  | head (h : Head)
  /-- The `hd` of a task. -/
  | task (t : TaskId)
  | other (n : Nat)
  deriving DecidableEq, Repr

/-- What `wakeup_task` reads and writes of a `struct tsk`. -/
structure TskFields where
  prio : Int
  onrq : Bool
  stime : Int
  deriving DecidableEq, Repr

structure Memory where
  links : Links Node
  tsk : TaskId → TskFields
  current : TaskId
  nxtImmTask : Option TaskId
  nrp : Int
  nwp : Int
  schedNeed : Bool

def Memory.setTsk (s : Memory) (p : TaskId) (t : TskFields) : Memory :=
  { s with tsk := Function.update s.tsk p t }

/-! ## `cmn/list.h` -/

def _listAdd (m : Links Node) (new prev next : Node) : Links Node :=
  -- `next->prev` and `new->next`, then `new->prev` and `prev->next`
  (m.join new next).join prev new

def listAdd (m : Links Node) (new head : Node) : Option (Links Node) := do
  let next ← m.next head
  some (_listAdd m new head next)

def _listDel (m : Links Node) (prev next : Node) : Links Node := m.join prev next

def listDel (m : Links Node) (entry : Node) : Option (Links Node) := do
  let prev ← m.prev entry
  let next ← m.next entry
  some (_listDel m prev next)

def listEmpty (m : Links Node) (head : Node) : Bool := m.next head = some head

/-! ## Waking -/

/-- `rq.hd[prio]`, for an index within the array. -/
def rqHd (prio : Int) : Option Head :=
  if h : 0 ≤ prio ∧ prio < maxPrio then some (.rq ⟨prio.toNat, toNat_lt_maxPrio h⟩) else none

def requestSched (s : Memory) (p : TaskId) : Memory :=
  { s with
    schedNeed := if (s.tsk s.current).prio > (s.tsk p).prio then true else s.schedNeed }

def cacheTask (s : Memory) (p : TaskId) : Memory :=
  { s with
    nxtImmTask :=
      match s.nxtImmTask with
      | some c => if (s.tsk c).prio > (s.tsk p).prio then some p else some c
      | none => some p }

/-- What `wakeup_task` does to a task on any queue. -/
def announce (s : Memory) (p : TaskId) (now : Int) : Memory :=
  let s := cacheTask (requestSched s p) p
  s.setTsk p { s.tsk p with stime := now - (s.tsk p).stime }

def countWoken (s : Memory) (p : TaskId) : Memory :=
  { s.setTsk p { s.tsk p with onrq := true } with nrp := s.nrp + 1, nwp := s.nwp - 1 }

def wakeupTask (s : Memory) (p : TaskId) (now : Int) : Option Memory :=
  if (s.tsk p).onrq then some (announce s p now)
  else do
    let head ← rqHd (s.tsk p).prio
    let links ← listDel s.links (.task p)
    let links ← listAdd links (.task p) (.head head)
    some (announce (countWoken { s with links := links } p) p now)

/-- The body of the loop; `now` is the reading of `times (NULL)`. -/
def turn (s : Memory) (p : TaskId) (now : Int) : Option Memory := do
  let links ← listDel s.links (.task p)
  wakeupTask { s with links := links } p now

/-- The `list_for_each_safe` of `wake_io_task`.  A `list_entry` of a node that is not the
`hd` of a task has no defined outcome. -/
def wakeIoLoop (head : Node) (now : TaskId → Int) : Nat → Memory → Node → Node → Option Memory
  | 0, _, _, _ => none
  | fuel + 1, s, pos, n =>
      if pos = head then some s
      else
        match pos with
        | .task p => do
            let s ← turn s p (now p)
            -- `pos = n, n = pos->next`, with the pointers that the body has left
            let next ← s.links.next n
            wakeIoLoop head now fuel s n next
        | _ => none

def wakeIoTask (fuel : Nat) (s : Memory) (fd : Fin maxFds) (now : TaskId → Int) :
    Option Memory :=
  let head := Node.head (.io fd)
  if listEmpty s.links head then some s
  else do
    let pos ← s.links.next head
    let n ← s.links.next pos
    wakeIoLoop head now fuel s pos n

/-! ## Well-formed queues -/

/-- The nodes of a queue with the tasks `l`. -/
def nodes (h : Head) (l : List TaskId) : List Node := .head h :: l.map .task

/-- The pointers make a circular list of each queue with a head in `H`; `L` are the tasks in
it. -/
def Queues (m : Links Node) (H : Set Head) (L : Head → List TaskId) : Prop :=
  ∀ h ∈ H, Ring m (.head h) ((L h).map .task)

variable {m m' : Links Node} {H : Set Head} {L : Head → List TaskId} {h h' : Head}
  {t : TaskId} {l rest : List TaskId} {k : Fin maxPrio} {fd : Fin maxFds} {x : Node}

theorem head_not_mem_tasks (h : Head) (l : List TaskId) : Node.head h ∉ l.map Node.task := by
  simp

theorem task_mem_nodes : Node.task t ∈ nodes h l ↔ t ∈ l := by
  simp [nodes]

theorem head_mem_nodes : Node.head h ∈ nodes h' l ↔ h = h' := by
  simp [nodes]

theorem Queues.nodup (hq : Queues m H L) (hh : h ∈ H) : (L h).Nodup :=
  (List.nodup_cons.mp (hq h hh).nodup).2.of_map

/-- No `list_head` is in two queues. -/
theorem Queues.eq_of_mem (hq : Queues m H L) (hh : h ∈ H) (hh' : h' ∈ H)
    (hx : x ∈ nodes h (L h)) (hx' : x ∈ nodes h' (L h')) : h = h' := by
  cases x with
  | head g => exact (head_mem_nodes.mp hx).symm.trans (head_mem_nodes.mp hx')
  | task t =>
      have hmem : Node.task t ∈ (L h).map Node.task := List.mem_map_of_mem (task_mem_nodes.mp hx)
      have hmem' : Node.task t ∈ (L h').map Node.task :=
        List.mem_map_of_mem (task_mem_nodes.mp hx')
      have hheads := (hq h hh).head_eq (hq h' hh') hmem hmem' (head_not_mem_tasks h (L h'))
        (head_not_mem_tasks h' (L h))
      exact Node.head.inj hheads
  | other n => simp [nodes] at hx

/-! ## Unlinking twice -/

/-- The first node of a queue, which is its head if there is no task in it. -/
def firstNode (h : Head) (l : List TaskId) : Node := (l.map Node.task).head?.getD (.head h)

theorem firstNode_mem (h : Head) (l : List TaskId) : firstNode h l ∈ nodes h l := by
  cases l with
  | nil => exact List.mem_cons_self
  | cons t l => exact List.mem_cons_of_mem _ List.mem_cons_self

/-- The pointers of the task at the front of a queue. -/
theorem front_links (hr : Ring m (.head h) ((t :: rest).map .task)) :
    m.prev (.task t) = some (.head h) ∧ m.next (.task t) = some (firstNode h rest) := by
  have hfront : Ring m (.head h) ([] ++ .task t :: rest.map .task) := hr
  obtain ⟨-, -, hleft, hright⟩ := hfront.sides
  have hfirst : (rest.map Node.task ++ [Node.head h]).head? = some (firstNode h rest) := by
    cases rest <;> rfl
  exact ⟨(hleft _ rfl).2, (hright _ hfirst).1⟩

/-- The pointers without the task at the front, of which `rest` are the followers. -/
def unlinked (m : Links Node) (h : Head) (rest : List TaskId) : Links Node :=
  m.join (.head h) (firstNode h rest)

theorem listDel_front (hr : Ring m (.head h) ((t :: rest).map .task)) :
    listDel m (.task t) = some (unlinked m h rest) := by
  obtain ⟨hprev, hnext⟩ := front_links hr
  rw [listDel, hprev, hnext]
  rfl

theorem ring_unlinked (hr : Ring m (.head h) ((t :: rest).map .task)) :
    Ring (unlinked m h rest) (.head h) (rest.map .task) := by
  have hfront : Ring m (.head h) ([] ++ .task t :: rest.map .task) := hr
  refine hfront.remove rfl ?_
  cases rest <;> rfl

theorem not_mem_rest (hr : Ring m (.head h) ((t :: rest).map .task)) : t ∉ rest := by
  have hnodup : ((t :: rest).map Node.task).Nodup := (List.nodup_cons.mp hr.nodup).2
  exact (List.nodup_cons.mp hnodup.of_map).1

/-- A task that has been taken out still points to its neighbours, and they are what the
first `list_del` has joined. -/
theorem listDel_unlinked (hr : Ring m (.head h) ((t :: rest).map .task)) :
    listDel (unlinked m h rest) (.task t) = some (unlinked m h rest) := by
  obtain ⟨hprev, hnext⟩ := front_links hr
  have hfirst : Node.task t ≠ firstNode h rest := by
    intro heq
    have hmem : Node.task t ∈ nodes h rest := heq ▸ firstNode_mem h rest
    exact not_mem_rest hr (task_mem_nodes.mp hmem)
  obtain ⟨hnext', hprev'⟩ : SameAt m (unlinked m h rest) (.task t) :=
    sameAt_join nofun hfirst
  rw [listDel, hprev', hprev, hnext', hnext]
  exact congrArg some (join_join ..)

/-! ## A turn of the loop -/

theorem sameAt_listAdd {new prev next : Node} (hnew : x ≠ new) (hprev : x ≠ prev)
    (hnext : x ≠ next) : SameAt m (_listAdd m new prev next) x :=
  (sameAt_join hnew hnext).trans (sameAt_join hprev hnew)

theorem ne_of_not_mem {y : Node} {l : List Node} (hx : x ∉ l) (hy : y ∈ l) : x ≠ y :=
  fun heq => hx (heq ▸ hy)

theorem not_mem_nodes_rest (hx : x ∉ nodes h (t :: rest)) : x ∉ nodes h rest :=
  fun hmem => hx (List.cons_subset_cons _ (List.subset_cons_self ..) hmem)

theorem sameAt_unlinked (hx : x ∉ nodes h (t :: rest)) : SameAt m (unlinked m h rest) x := by
  have hrest := not_mem_nodes_rest hx
  exact sameAt_join (ne_of_not_mem hrest List.mem_cons_self)
    (ne_of_not_mem hrest (firstNode_mem ..))

/-- The pointers with the task `t` in front of the tasks `l`. -/
def linked (m : Links Node) (h : Head) (l : List TaskId) (t : TaskId) : Links Node :=
  _listAdd m (.task t) (.head h) (firstNode h l)

theorem sameAt_linked (htask : x ≠ .task t) (hx : x ∉ nodes h l) :
    SameAt m (linked m h l t) x :=
  sameAt_listAdd htask (ne_of_not_mem hx List.mem_cons_self)
    (ne_of_not_mem hx (firstNode_mem ..))

theorem listAdd_head (hr : Ring m (.head h) (l.map .task)) :
    listAdd m (.task t) (.head h) = some (linked m h l t) := by
  rw [listAdd, hr.next_head]
  rfl

namespace Queues

theorem front (hq : Queues m H L) (hh : h ∈ H) (hl : L h = t :: rest) :
    Ring m (.head h) ((t :: rest).map .task) :=
  hl ▸ hq h hh

/-- Taking out the first task of a queue leaves the others alone. -/
theorem unlink (hq : Queues m H L) (hh : h ∈ H) (hl : L h = t :: rest) :
    Queues (unlinked m h rest) H (Function.update L h rest) := by
  intro h' hh'
  by_cases heq : h' = h
  · subst heq
    rw [Function.update_self]
    exact ring_unlinked (hq.front hh hl)
  · rw [Function.update_of_ne heq]
    refine (hq h' hh').congr fun x hx => ?_
    have hout : x ∉ nodes h (t :: rest) := fun hmem =>
      heq (hq.eq_of_mem hh' hh hx (hl.symm ▸ hmem))
    exact sameAt_unlinked hout

/-- A task that is in no queue is put in front of one. -/
theorem link (hq : Queues m H L) (hh : h ∈ H) (ht : ∀ h' ∈ H, t ∉ L h') :
    Queues (linked m h (L h) t) H (Function.update L h (t :: L h)) := by
  intro h' hh'
  have htask : Node.task t ∉ nodes h' (L h') := mt task_mem_nodes.mp (ht h' hh')
  by_cases heq : h' = h
  · subst heq
    rw [Function.update_self]
    exact (hq h' hh').insert htask (hq h' hh').next_head
  · rw [Function.update_of_ne heq]
    refine (hq h' hh').congr fun x hx => sameAt_linked ?_ fun hmem => ?_
    · rintro rfl
      exact htask hx
    · exact heq (hq.eq_of_mem hh' hh hx hmem)

theorem not_mem_unlink (hq : Queues m H L) (hh : h ∈ H) (hl : L h = t :: rest) :
    ∀ h' ∈ H, t ∉ Function.update L h rest h' := by
  intro h' hh' hmem
  by_cases heq : h' = h
  · subst heq
    rw [Function.update_self] at hmem
    exact not_mem_rest (hq.front hh hl) hmem
  · rw [Function.update_of_ne heq] at hmem
    have hfirst : t ∈ L h := hl.symm ▸ List.mem_cons_self
    exact heq (hq.eq_of_mem hh' hh (task_mem_nodes.mpr hmem) (task_mem_nodes.mpr hfirst))

end Queues

/-- The queues after the task `t`, which `rest` followed, has gone to the run list `k`. -/
def moved (L : Head → List TaskId) (fd : Fin maxFds) (rest : List TaskId) (t : TaskId)
    (k : Fin maxPrio) : Head → List TaskId :=
  Function.update (Function.update L (.io fd) rest) (.rq k) (t :: L (.rq k))

/-- The pointers after a turn. -/
def relinked (m : Links Node) (L : Head → List TaskId) (fd : Fin maxFds) (rest : List TaskId)
    (t : TaskId) (k : Fin maxPrio) : Links Node :=
  linked (unlinked m (.io fd) rest) (.rq k) (L (.rq k)) t

theorem update_io_run : Function.update L (.io fd) rest (.rq k) = L (.rq k) := by
  have hne : Head.rq k ≠ .io fd := nofun
  exact Function.update_of_ne hne ..

/-- A turn writes to the nodes of two queues only. -/
theorem sameAt_relinked (hx : x ∉ nodes (.io fd) (t :: rest))
    (hx' : x ∉ nodes (.rq k) (L (.rq k))) : SameAt m (relinked m L fd rest t k) x := by
  have htask : x ≠ .task t := ne_of_not_mem hx (task_mem_nodes.mpr List.mem_cons_self)
  exact (sameAt_unlinked hx).trans (sameAt_linked htask hx')

theorem Queues.relink (hq : Queues m H L) (hio : .io fd ∈ H) (hrq : .rq k ∈ H)
    (hl : L (.io fd) = t :: rest) :
    Queues (relinked m L fd rest t k) H (moved L fd rest t k) := by
  have hlink := (hq.unlink hio hl).link hrq (hq.not_mem_unlink hio hl)
  rwa [update_io_run] at hlink

/-- What waking a task that is on no run list does apart from its pointers. -/
def wake (s : Memory) (p : TaskId) (now : Int) : Memory := announce (countWoken s p) p now

theorem turn_eq {s : Memory} (hq : Queues s.links H L) (hio : .io fd ∈ H) (hrq : .rq k ∈ H)
    (hl : L (.io fd) = t :: rest) (honrq : (s.tsk t).onrq = false)
    (hprio : rqHd (s.tsk t).prio = some (.rq k)) (now : Int) :
    turn s t now = some { wake s t now with links := relinked s.links L fd rest t k } := by
  have hfront := hq.front hio hl
  rw [turn, listDel_front hfront, Option.bind_eq_bind, Option.bind_some, wakeupTask]
  have hrun : Ring (unlinked s.links (.io fd) rest) (.head (.rq k)) ((L (.rq k)).map .task) := by
    have hring := hq.unlink hio hl _ hrq
    rwa [update_io_run] at hring
  simp only [honrq, Bool.false_eq_true, if_false, hprio, listDel_unlinked hfront,
    listAdd_head hrun, Option.bind_eq_bind, Option.bind_some]
  rfl

/-! ## The loop -/

/-- A task on a list of `io_wait_task`, as `wakeup_task` needs it. -/
structure Waits (s : Memory) (t : TaskId) : Prop where
  onrq : (s.tsk t).onrq = false
  prio : 0 ≤ (s.tsk t).prio ∧ (s.tsk t).prio < maxPrio

def wakeAll (now : TaskId → Int) (s : Memory) (l : List TaskId) : Memory :=
  l.foldl (fun s t => wake s t (now t)) s

/-- The queues after all tasks that wait for `fd` have been woken, each put in front of the
tasks of its priority. -/
def wokenLists (prio : TaskId → Int) (fd : Fin maxFds) (L : Head → List TaskId) :
    Head → List TaskId
  | .rq k => ((L (.io fd)).filter fun t => prio t = k).reverse ++ L (.rq k)
  | .io i => if i = fd then [] else L (.io i)
  | h => L h

/-- The node is in none of the queues that are written to. -/
def Apart (L : Head → List TaskId) (fd : Fin maxFds) (x : Node) : Prop :=
  ∀ h, h = .io fd ∨ h.isRq = true → x ∉ nodes h (L h)

theorem moved_io : moved L fd rest t k (.io fd) = rest := by
  rw [moved, Function.update_of_ne (by nofun), Function.update_self]

theorem moved_run : moved L fd rest t k (.rq k) = t :: L (.rq k) :=
  Function.update_self ..

theorem moved_of_ne (hio : h ≠ .io fd) (hrq : h ≠ .rq k) : moved L fd rest t k h = L h := by
  rw [moved, Function.update_of_ne hrq, Function.update_of_ne hio]

theorem wokenLists_moved {prio : TaskId → Int} (hl : L (.io fd) = t :: rest) (hk : prio t = k) :
    wokenLists prio fd (moved L fd rest t k) = wokenLists prio fd L := by
  ext1 h
  cases h with
  | rq j =>
      simp only [wokenLists, moved_io, hl]
      by_cases hj : j = k
      · subst hj
        simp [moved_run, hk]
      · have hne : ¬ prio t = j := by
          rw [hk]
          omega
        have hrun : moved L fd rest t k (.rq j) = L (.rq j) :=
          moved_of_ne nofun (mt Head.rq.inj hj)
        simp [hrun, hne]
  | io i =>
      simp only [wokenLists]
      split
      · rfl
      · rename_i hi
        exact moved_of_ne (mt Head.io.inj hi) nofun
  | wq => exact moved_of_ne nofun nofun
  | lock l => exact moved_of_ne nofun nofun

theorem wokenLists_of_nil {prio : TaskId → Int} (hl : L (.io fd) = []) :
    wokenLists prio fd L = L := by
  ext1 h
  cases h with
  | rq k => simp [wokenLists, hl]
  | io i =>
      simp only [wokenLists]
      split
      · rename_i hi
        rw [hi, hl]
      · rfl
  | wq => rfl
  | lock l => rfl

theorem Apart.moved (hx : Apart L fd x) (hl : L (.io fd) = t :: rest) :
    Apart (moved L fd rest t k) fd x := by
  have hfront : x ∉ nodes (.io fd) (t :: rest) := hl ▸ hx _ (.inl rfl)
  have htask : x ≠ .task t := ne_of_not_mem hfront (task_mem_nodes.mpr List.mem_cons_self)
  intro h hh hmem
  by_cases hio : h = .io fd
  · subst hio
    rw [moved_io] at hmem
    exact not_mem_nodes_rest hfront hmem
  by_cases hrq : h = .rq k
  · subst hrq
    rw [moved_run, nodes, List.map_cons] at hmem
    simp only [List.mem_cons, htask, false_or] at hmem
    exact hx _ hh (List.mem_cons.mpr hmem)
  · rw [moved_of_ne hio hrq] at hmem
    exact hx h hh hmem

theorem rqHd_eq {prio : Int} (hprio : 0 ≤ prio ∧ prio < maxPrio) :
    ∃ k : Fin maxPrio, prio = k ∧ rqHd prio = some (.rq k) := by
  refine ⟨⟨prio.toNat, toNat_lt_maxPrio hprio⟩, ?_, dif_pos hprio⟩
  exact (Int.toNat_of_nonneg hprio.1).symm

theorem tsk_wake (s : Memory) (p : TaskId) (now : Int) :
    (wake s p now).tsk = Function.update s.tsk p
      { s.tsk p with onrq := true, stime := now - (s.tsk p).stime } := by
  simp [wake, announce, countWoken, Memory.setTsk, cacheTask, requestSched]

theorem prio_wake (s : Memory) (p : TaskId) (now : Int) (q : TaskId) :
    ((wake s p now).tsk q).prio = (s.tsk q).prio := by
  rw [tsk_wake, Function.update_apply]
  split
  · rename_i heq
    rw [heq]
  · rfl

theorem tsk_wake_of_ne (s : Memory) {p q : TaskId} (now : Int) (hne : q ≠ p) :
    (wake s p now).tsk q = s.tsk q := by
  rw [tsk_wake, Function.update_of_ne hne]

theorem onrq_wake_self (s : Memory) (p : TaskId) (now : Int) :
    ((wake s p now).tsk p).onrq = true := by
  rw [tsk_wake, Function.update_self]

/-- The pointers play no part in the rest of a wakeup. -/
theorem wakeAll_links (now : TaskId → Int) (s : Memory) (l : List TaskId) :
    { wakeAll now { s with links := m } l with links := m' } =
      { wakeAll now s l with links := m' } := by
  induction l generalizing s with
  | nil => rfl
  | cons t l ih => exact ih (wake s t (now t))

/-- The loop comes to the tasks in their order, each time with a `pos` that is the first node
of what is left of the list. -/
theorem wakeIoLoop_eq {s : Memory} {n : Node} {fuel : Nat} (now : TaskId → Int)
    (hq : Queues s.links H L) (hio : .io fd ∈ H) (hrq : ∀ k, .rq k ∈ H) (hl : L (.io fd) = l)
    (hwait : ∀ t ∈ l, Waits s t) (hn : s.links.next (firstNode (.io fd) l) = some n)
    (hfuel : l.length < fuel) :
    ∃ m, wakeIoLoop (.head (.io fd)) now fuel s (firstNode (.io fd) l) n =
        some { wakeAll now s l with links := m } ∧
      Queues m H (wokenLists (fun t => (s.tsk t).prio) fd L) ∧
      ∀ x, Apart L fd x → SameAt s.links m x := by
  induction l generalizing s L n fuel with
  | nil =>
      obtain ⟨fuel, rfl⟩ := Nat.exists_eq_add_of_lt hfuel
      refine ⟨s.links, ?_, ?_, fun x _ => .refl ..⟩
      · exact if_pos rfl
      · rw [wokenLists_of_nil hl]
        exact hq
  | cons t rest ih =>
      obtain ⟨fuel, rfl⟩ : ∃ f, fuel = f + 1 := ⟨fuel - 1, by omega⟩
      obtain ⟨honrq, hprio⟩ := hwait t List.mem_cons_self
      obtain ⟨k, hk, hhead⟩ := rqHd_eq hprio
      have hfront := hq.front hio hl
      -- `n` has been read before the turn
      obtain rfl : n = firstNode (.io fd) rest :=
        Option.some.inj (hn.symm.trans (front_links hfront).2)
      have hturn := turn_eq hq hio (hrq k) hl honrq hhead (now t)
      let s₁ : Memory := { wake s t (now t) with links := relinked s.links L fd rest t k }
      have hq₁ : Queues s₁.links H (moved L fd rest t k) := hq.relink hio (hrq k) hl
      have hring₁ : Ring s₁.links (.head (.io fd)) (rest.map .task) := by
        have hring := hq₁ _ hio
        rwa [moved_io] at hring
      obtain ⟨n₁, hn₁⟩ := hring₁.exists_next (firstNode_mem (.io fd) rest)
      have hwait₁ (q : TaskId) (hmem : q ∈ rest) : Waits s₁ q := by
        have hne : q ≠ t := fun heq => not_mem_rest hfront (heq ▸ hmem)
        have htsk : s₁.tsk q = s.tsk q := tsk_wake_of_ne s (now t) hne
        obtain ⟨honrq', hprio'⟩ := hwait q (List.mem_cons_of_mem t hmem)
        exact ⟨htsk ▸ honrq', htsk ▸ hprio'⟩
      obtain ⟨m, hloop, hqm, hsame⟩ :=
        ih (s := s₁) hq₁ moved_io hwait₁ hn₁ (by simpa using hfuel)
      refine ⟨m, ?_, ?_, fun x hx => ?_⟩
      · have hpos : firstNode (.io fd) (t :: rest) = .task t := rfl
        rw [hpos, wakeIoLoop, if_neg (by nofun)]
        have hnext : (relinked s.links L fd rest t k).next (firstNode (.io fd) rest) = some n₁ :=
          hn₁
        simp only [hturn, hnext, Option.bind_eq_bind, Option.bind_some]
        rw [hloop, wakeAll_links]
        rfl
      · have hprio₁ : (fun q => (s₁.tsk q).prio) = fun q => (s.tsk q).prio :=
          funext (prio_wake s t (now t))
        rwa [hprio₁, wokenLists_moved hl hk] at hqm
      · have hnot : SameAt s.links s₁.links x :=
          sameAt_relinked (hl ▸ hx _ (.inl rfl)) (hx _ (.inr rfl))
        exact hnot.trans (hsame x (hx.moved hl))

theorem wakeIoTask_eq {s : Memory} {fuel : Nat} (now : TaskId → Int) (hq : Queues s.links H L)
    (hio : .io fd ∈ H) (hrq : ∀ k, .rq k ∈ H) (hwait : ∀ t ∈ L (.io fd), Waits s t)
    (hfuel : (L (.io fd)).length < fuel) :
    ∃ m, wakeIoTask fuel s fd now = some { wakeAll now s (L (.io fd)) with links := m } ∧
      Queues m H (wokenLists (fun t => (s.tsk t).prio) fd L) ∧
      ∀ x, Apart L fd x → SameAt s.links m x := by
  have hhead : s.links.next (.head (.io fd)) = some (firstNode (.io fd) (L (.io fd))) :=
    (hq _ hio).next_head
  cases hl : L (.io fd) with
  | nil =>
      rw [hl] at hhead
      have hempty : listEmpty s.links (.head (.io fd)) = true := decide_eq_true hhead
      refine ⟨s.links, if_pos hempty, ?_, fun x _ => .refl ..⟩
      rw [wokenLists_of_nil hl]
      exact hq
  | cons t rest =>
      rw [hl] at hhead hwait hfuel
      have hempty : ¬ listEmpty s.links (.head (.io fd)) = true := by
        simp [listEmpty, hhead, firstNode]
      have hn := (front_links (hq.front hio hl)).2
      have hn' : s.links.next (firstNode (.io fd) (t :: rest)) =
        some (firstNode (.io fd) rest) := hn
      have hloop := wakeIoLoop_eq now hq hio hrq hl hwait hn hfuel
      rw [wakeIoTask, if_neg hempty]
      simp only [hhead, hn', Option.bind_eq_bind, Option.bind_some]
      exact hloop

/-! ## The outcome of `wake_io_task` -/

theorem prio_wakeAll (now : TaskId → Int) (s : Memory) (l : List TaskId) (q : TaskId) :
    ((wakeAll now s l).tsk q).prio = (s.tsk q).prio := by
  induction l generalizing s with
  | nil => rfl
  | cons t l ih => exact (ih _).trans (prio_wake s t (now t) q)

theorem tsk_wakeAll_of_not_mem (now : TaskId → Int) {s : Memory} {q : TaskId} (hq : q ∉ l) :
    (wakeAll now s l).tsk q = s.tsk q := by
  induction l generalizing s with
  | nil => rfl
  | cons t l ih =>
      obtain ⟨hne, hrest⟩ := not_or.mp (mt List.mem_cons.mpr hq)
      exact (ih hrest).trans (tsk_wake_of_ne s (now t) hne)

theorem onrq_wakeAll (now : TaskId → Int) {s : Memory} {q : TaskId}
    (hq : q ∈ l ∨ (s.tsk q).onrq = true) : ((wakeAll now s l).tsk q).onrq = true := by
  induction l generalizing s with
  | nil => exact hq.resolve_left List.not_mem_nil
  | cons t l ih =>
      refine ih ?_
      by_cases hne : q = t
      · subst hne
        exact .inr (onrq_wake_self s q (now q))
      · rw [tsk_wake_of_ne s (now t) hne]
        exact hq.imp_left fun hmem => (List.mem_cons.mp hmem).resolve_left hne

theorem counts_wakeAll (now : TaskId → Int) (s : Memory) (l : List TaskId) :
    (wakeAll now s l).nrp = s.nrp + l.length ∧ (wakeAll now s l).nwp = s.nwp - l.length := by
  induction l generalizing s with
  | nil => simp [wakeAll]
  | cons t l ih =>
      obtain ⟨hnrp, hnwp⟩ := ih (wake s t (now t))
      have hnrp₁ : (wake s t (now t)).nrp = s.nrp + 1 := rfl
      have hnwp₁ : (wake s t (now t)).nwp = s.nwp - 1 := rfl
      rw [List.length_cons]
      change (wakeAll now (wake s t (now t)) l).nrp = _ ∧
        (wakeAll now (wake s t (now t)) l).nwp = _
      omega

/-- What `wake_io_task` makes of the queues `L` and the memory `s`. -/
structure IoWoken (H : Set Head) (fd : Fin maxFds) (L L' : Head → List TaskId) (s s' : Memory) :
    Prop where
  queues : Queues s'.links H L'
  empty : L' (.io fd) = []
  /-- The run lists have their old tasks in their old order, behind those that were woken. -/
  run : ∀ k, L' (.rq k) =
    ((L (.io fd)).filter fun t => (s.tsk t).prio = (k : Int)).reverse ++ L (.rq k)
  other : ∀ h, h ≠ .io fd → h.isRq = false → L' h = L h
  linked : ∀ t ∈ L (.io fd), ∃ k : Fin maxPrio, (s.tsk t).prio = k ∧
    (L' (.rq k)).count t = 1 ∧ ∀ h ∈ H, t ∈ L' h → h = .rq k
  onrq : ∀ t ∈ L (.io fd), (s'.tsk t).onrq = true
  prio : ∀ t, (s'.tsk t).prio = (s.tsk t).prio
  tsk : ∀ t, t ∉ L (.io fd) → s'.tsk t = s.tsk t
  nrp : s'.nrp = s.nrp + (L (.io fd)).length
  nwp : s'.nwp = s.nwp - (L (.io fd)).length
  /-- No pointer of a node of any other list is written. -/
  frame : ∀ x, Apart L fd x → SameAt s.links s'.links x

/-- `wake_io_task` ends, and every task that waited for `fd` is on its run list. -/
theorem wakeIoTask_relinks {s : Memory} {fuel : Nat} (now : TaskId → Int)
    (hq : Queues s.links H L) (hio : .io fd ∈ H) (hrq : ∀ k, .rq k ∈ H)
    (hwait : ∀ t ∈ L (.io fd), Waits s t) (hfuel : (L (.io fd)).length < fuel) :
    ∃ s' L', wakeIoTask fuel s fd now = some s' ∧ IoWoken H fd L L' s s' := by
  obtain ⟨m, hrun, hqm, hsame⟩ := wakeIoTask_eq now hq hio hrq hwait hfuel
  obtain ⟨hnrp, hnwp⟩ := counts_wakeAll now s (L (.io fd))
  refine ⟨_, wokenLists (fun t => (s.tsk t).prio) fd L, hrun, ?_⟩
  exact {
    queues := hqm
    empty := if_pos rfl
    run := fun k => rfl
    other := by
      intro h hne hnot
      cases h with
      | rq k => cases hnot
      | io i => exact if_neg (mt (congrArg Head.io) hne)
      | wq => rfl
      | lock l => rfl
    linked := by
      intro t ht
      obtain ⟨k, hk, -⟩ := rqHd_eq (hwait t ht).prio
      have hmem : t ∈ wokenLists (fun t => (s.tsk t).prio) fd L (.rq k) := by
        simp [wokenLists, ht, hk]
      refine ⟨k, hk, List.count_eq_one_of_mem (hqm.nodup (hrq k)) hmem, fun h hh hmem' => ?_⟩
      exact hqm.eq_of_mem hh (hrq k) (task_mem_nodes.mpr hmem') (task_mem_nodes.mpr hmem)
    onrq := fun t ht => onrq_wakeAll now (.inl ht)
    prio := prio_wakeAll now s (L (.io fd))
    tsk := fun t ht => tsk_wakeAll_of_not_mem now ht
    nrp := hnrp
    nwp := hnwp
    frame := hsame }

/-- The pointers after `INIT_LIST_HEAD` of everything. -/
def initLinks : Links Node := ⟨some, some⟩

theorem queues_initLinks (H : Set Head) : Queues initLinks H fun _ => [] :=
  fun _ _ => ⟨List.isChain_pair.mpr ⟨rfl, rfl⟩, List.nodup_singleton _⟩

/-- The tasks 1 and 2 wait for the descriptor `fd`; the task 7 runs and has the priority of
the task 1. -/
def twoReaders (fd : Fin maxFds) : Memory where
  links := linked (linked (linked initLinks (.rq 5) [] 7) (.io fd) [] 2) (.io fd) [2] 1
  tsk := fun t => { prio := if t = 2 then 9 else 5, onrq := t = 7, stime := 0 }
  current := 7
  nxtImmTask := none
  nrp := 1
  nwp := 2
  schedNeed := false

def twoReadersLists (fd : Fin maxFds) : Head → List TaskId :=
  Function.update (Function.update (fun _ => []) (.rq 5) [7]) (.io fd) [1, 2]

theorem queues_twoReaders (fd : Fin maxFds) :
    Queues (twoReaders fd).links Set.univ (twoReadersLists fd) := by
  have hrun : Queues (linked initLinks (.rq 5) [] 7) Set.univ
      (Function.update (fun _ => []) (.rq 5) [7]) :=
    (queues_initLinks Set.univ).link trivial fun _ _ => List.not_mem_nil
  have hlast : Queues (linked (linked initLinks (.rq 5) [] 7) (.io fd) [] 2) Set.univ
      (Function.update (Function.update (fun _ => []) (.rq 5) [7]) (.io fd) [2]) :=
    hrun.link trivial fun h _ => by
      simp only [Function.update_apply]
      split <;> simp
  have hfirst := hlast.link (h := .io fd) (t := 1) trivial fun h _ => by
    simp only [Function.update_apply]
    split_ifs <;> simp
  rw [Function.update_idem, Function.update_self] at hfirst
  exact hfirst

theorem wakeIoTask_twoReaders : ∃ s' L', wakeIoTask 3 (twoReaders 3) 3 (fun _ => 40) = some s' ∧
    IoWoken Set.univ 3 (twoReadersLists 3) L' (twoReaders 3) s' := by
  refine wakeIoTask_relinks _ (queues_twoReaders 3) trivial (fun _ => trivial) ?_ (by decide)
  intro t ht
  have hcases : t = 1 ∨ t = 2 := by simpa [twoReadersLists] using ht
  rcases hcases with rfl | rfl
  · exact ⟨by decide, by decide⟩
  · exact ⟨by decide, by decide⟩

/-! ## The queues as lists -/

/-- The fields of the memory are those of the state. -/
structure SameFields (s : SchedState) (m : Memory) : Prop where
  tsk : ∀ t, m.tsk t =
    { prio := (s.tsk t).prio, onrq := (s.tsk t).onrq, stime := (s.tsk t).stime }
  current : m.current = s.current
  nxtImmTask : m.nxtImmTask = s.nxtImmTask
  nrp : m.nrp = s.nrp
  nwp : m.nwp = s.nwp
  schedNeed : m.schedNeed = s.schedNeed

/-- The pointers of the memory make up the lists of the state. -/
structure Represents (s : SchedState) (m : Memory) : Prop extends SameFields s m where
  queues : Queues m.links Set.univ s.hd

namespace SameFields

variable {s : SchedState} {m : Memory} {p : TaskId}

theorem prio_lt_iff (h : SameFields s m) (p q : TaskId) :
    (m.tsk q).prio > (m.tsk p).prio ↔ (s.tsk p).prio < (s.tsk q).prio := by
  rw [h.tsk, h.tsk, Fin.lt_def]
  exact Int.ofNat_lt

theorem setTsk (h : SameFields s m) {t : Tsk} {f : TskFields}
    (hf : f = { prio := t.prio, onrq := t.onrq, stime := t.stime }) :
    SameFields (s.setTsk p t) (m.setTsk p f) where
  tsk := by
    intro q
    by_cases hq : q = p
    · subst hq
      simp [Memory.setTsk, hf]
    · simp only [Memory.setTsk, setTsk_tsk_of_ne s t hq, Function.update_of_ne hq, h.tsk]
  current := h.current
  nxtImmTask := h.nxtImmTask
  nrp := h.nrp
  nwp := h.nwp
  schedNeed := h.schedNeed

theorem requestSched (h : SameFields s m) :
    SameFields (Sched.requestSched s p) (Pointers.requestSched m p) := by
  have hiff : (m.tsk m.current).prio > (m.tsk p).prio ↔
      (s.tsk p).prio < (s.tsk s.current).prio := h.current ▸ h.prio_lt_iff p m.current
  unfold Sched.requestSched Pointers.requestSched
  by_cases hlt : (s.tsk p).prio < (s.tsk s.current).prio
  · rw [if_pos hlt, if_pos (hiff.mpr hlt)]
    exact { h with schedNeed := rfl }
  · rw [if_neg hlt, if_neg (mt hiff.mp hlt)]
    exact { h with }

theorem cacheTask (h : SameFields s m) :
    SameFields (Sched.cacheTask s p) (Pointers.cacheTask m p) := by
  unfold Sched.cacheTask Pointers.cacheTask
  rw [h.nxtImmTask]
  cases hc : s.nxtImmTask with
  | none => exact { h with nxtImmTask := rfl }
  | some c =>
      have hiff := h.prio_lt_iff p c
      by_cases hlt : (s.tsk p).prio < (s.tsk c).prio
      · simp only [if_pos hlt, if_pos (hiff.mpr hlt)]
        exact { h with nxtImmTask := rfl }
      · simp only [if_neg hlt, if_neg (mt hiff.mp hlt)]
        exact { h with nxtImmTask := hc.symm }

theorem announce (h : SameFields s m) (now : Int) :
    SameFields
      (let s := Sched.cacheTask (Sched.requestSched s p) p
       s.setTsk p { s.tsk p with stime := now - (s.tsk p).stime })
      (Pointers.announce m p now) := by
  have hcache := h.requestSched (p := p).cacheTask (p := p)
  refine hcache.setTsk ?_
  rw [hcache.tsk]

theorem wake (h : SameFields s m) (honrq : (s.tsk p).onrq = false) (now : Int) :
    SameFields (Sched.wakeupTask (Sched.listDel s p) p now) (Pointers.wake m p now) := by
  rw [wakeupTask_listDel honrq, Sched.wakeupTask]
  simp only [honrq, Bool.false_eq_true, if_false]
  refine announce ?_ now
  have hdel : SameFields (Sched.listAdd (Sched.listDel s p) p (.rq (s.tsk p).prio)) m := { h with }
  have hset := hdel.setTsk (p := p) (t := { s.tsk p with onrq := true })
    (f := { m.tsk p with onrq := true }) (by rw [h.tsk])
  exact { hset with
    nrp := congrArg (· + 1) h.nrp
    nwp := congrArg (· - 1) h.nwp }

end SameFields

theorem hd_wakeupTask {s : SchedState} {p : TaskId} (honrq : (s.tsk p).onrq = false) (now : Int) :
    (Sched.wakeupTask s p now).hd =
      Function.update (fun h => (s.hd h).filter (· ≠ p)) (.rq (s.tsk p).prio)
        (p :: (s.hd (.rq (s.tsk p).prio)).filter (· ≠ p)) := by
  rw [Sched.wakeupTask]
  simp only [honrq, Bool.false_eq_true, if_false]
  exact (announced_cacheTask _ p).hd.trans (announced_requestSched _ p).hd

theorem filter_ne_of_not_mem (ht : t ∉ l) : l.filter (· ≠ t) = l :=
  List.filter_eq_self.mpr fun _ hq => decide_eq_true fun heq => ht (heq ▸ hq)

/-- No task on the list of `fd` is on another list as well. -/
def OnlyWaiting (L : Head → List TaskId) (fd : Fin maxFds) (l : List TaskId) : Prop :=
  ∀ t ∈ l, ∀ h, h ≠ .io fd → t ∉ L h

theorem OnlyWaiting.moved (hout : OnlyWaiting L fd (t :: rest)) (ht : t ∉ rest) :
    OnlyWaiting (moved L fd rest t k) fd rest := by
  intro q hq h hne hmem
  have hold := hout q (List.mem_cons_of_mem t hq) h hne
  by_cases hrq : h = .rq k
  · subst hrq
    rw [moved_run] at hmem
    rcases List.mem_cons.mp hmem with rfl | hmem
    · exact ht hq
    · exact hold hmem
  · rw [moved_of_ne hne hrq] at hmem
    exact hold hmem

/-- `list_del` on lists and on pointers is the same if the task is on one list only. -/
theorem hd_turn {s : SchedState} (hl : s.hd (.io fd) = t :: rest) (ht : t ∉ rest)
    (hout : OnlyWaiting s.hd fd (t :: rest)) (honrq : (s.tsk t).onrq = false) (now : Int) :
    (Sched.wakeupTask (Sched.listDel s t) t now).hd = moved s.hd fd rest t (s.tsk t).prio := by
  have hold (h : Head) (hne : h ≠ .io fd) : (s.hd h).filter (· ≠ t) = s.hd h :=
    filter_ne_of_not_mem (hout t List.mem_cons_self h hne)
  rw [wakeupTask_listDel honrq, hd_wakeupTask honrq]
  ext1 h
  by_cases hrq : h = .rq (s.tsk t).prio
  · subst hrq
    rw [moved_run, Function.update_self, hold (.rq (s.tsk t).prio) nofun]
  rw [Function.update_of_ne hrq]
  by_cases hio : h = .io fd
  · subst hio
    rw [moved_io, hl, List.filter_cons_of_neg (by simp), filter_ne_of_not_mem ht]
  · rw [moved_of_ne hio hrq, hold h hio]

theorem wakeIoTask_foldl {s : SchedState} {m : Memory} (now : Int) (h : SameFields s m)
    (hl : s.hd (.io fd) = l) (hnodup : l.Nodup) (hout : OnlyWaiting s.hd fd l)
    (honrq : ∀ t ∈ l, (s.tsk t).onrq = false) :
    let s' := l.foldl (fun s p => Sched.wakeupTask (Sched.listDel s p) p now) s
    SameFields s' (wakeAll (fun _ => now) m l) ∧
      s'.hd = wokenLists (fun t => (s.tsk t).prio) fd s.hd := by
  induction l generalizing s m with
  | nil => exact ⟨h, (wokenLists_of_nil hl).symm⟩
  | cons t rest ih =>
      obtain ⟨hnot, hrest⟩ := List.nodup_cons.mp hnodup
      have hon := honrq t List.mem_cons_self
      have h₁ := h.wake hon now
      have hhd := hd_turn hl hnot hout hon now
      have hprio : ∀ q, ((Sched.wakeupTask (Sched.listDel s t) t now).tsk q).prio =
          (s.tsk q).prio := by
        rw [wakeupTask_listDel hon]
        exact (woken_wakeupTask s t now).prio
      have honrq₁ (q : TaskId) (hq : q ∈ rest) :
          ((Sched.wakeupTask (Sched.listDel s t) t now).tsk q).onrq = false := by
        have hne : q ≠ t := fun heq => hnot (heq ▸ hq)
        have hsame := tsk_wake_of_ne m now hne
        rw [h₁.tsk, h.tsk] at hsame
        exact (congrArg TskFields.onrq hsame).trans (honrq q (List.mem_cons_of_mem t hq))
      have hl₁ : (Sched.wakeupTask (Sched.listDel s t) t now).hd (.io fd) = rest := by
        rw [hhd, moved_io]
      obtain ⟨hfields, hlists⟩ := ih h₁ hl₁ hrest (hhd ▸ hout.moved hnot) honrq₁
      refine ⟨hfields, hlists.trans ?_⟩
      simp only [hprio, hhd]
      exact wokenLists_moved hl rfl

/-- On pointers `wake_io_task` does what it does on lists. -/
theorem Represents.wakeIoTask {s : SchedState} {m : Memory} (h : Represents s m) {fuel : Nat}
    (honrq : ∀ t ∈ s.hd (.io fd), (s.tsk t).onrq = false)
    (hfuel : (s.hd (.io fd)).length < fuel) (now : Int) :
    ∃ m', Pointers.wakeIoTask fuel m fd (fun _ => now) = some m' ∧
      Represents (Sched.wakeIoTask s fd now) m' := by
  have hwait (t : TaskId) (ht : t ∈ s.hd (.io fd)) : Waits m t := by
    refine ⟨?_, ?_⟩
    · rw [h.tsk]
      exact honrq t ht
    · rw [h.tsk]
      have hlt := (s.tsk t).prio.isLt
      dsimp only
      omega
  have hprio : (fun t => (m.tsk t).prio) = fun t => ((s.tsk t).prio : Int) := by
    ext1 t
    rw [h.tsk]
  obtain ⟨links, hrun, hq, -⟩ :=
    wakeIoTask_eq (fun _ => now) h.queues trivial (fun _ => trivial) hwait hfuel
  have hout : OnlyWaiting s.hd fd (s.hd (.io fd)) := by
    intro t ht g hne hmem
    exact hne (h.queues.eq_of_mem trivial trivial (task_mem_nodes.mpr hmem)
      (task_mem_nodes.mpr ht))
  obtain ⟨hfields, hlists⟩ :=
    wakeIoTask_foldl now h.toSameFields rfl (h.queues.nodup trivial) hout honrq
  refine ⟨_, hrun, { hfields with queues := ?_ }⟩
  rw [Sched.wakeIoTask, hlists, ← hprio]
  exact hq

end Pointers
end Sched
end TmULThreads
