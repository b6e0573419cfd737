import Pebbles.Lib.Runs
import Pebbles.ProcessTree

/-!
# Lives of tasks

Runs of whole system calls: fork, thread_fork, set_status, vanish and wait, by
any thread that is not asleep. The tree of tasks stays well formed and every
exit is reported once. A thread of `init` can be left asleep beside dead
children, when a task dies that has dead children of its own.
-/

namespace Pebbles

open Words Ring Kernel

/-- What a run reports: a task vanished with a status; `do_wait` of the task
`reaper` returned an id and a status, when `parent` was the parent of the task. -/
inductive Event where
  | exited (id status : Word)
  | reaped (id status reaper parent : Word)
  deriving DecidableEq

namespace Event

def exitedId : Event → Option Word
  | exited id _ => some id
  | reaped _ _ _ _ => none

def reapedId : Event → Option Word
  | exited _ _ => none
  | reaped id _ _ _ => some id

end Event

/-- `vanished` are the tasks that vanished and were not reaped; `wait` gives the
status pointer of a thread that is in `do_wait`. -/
structure Life where
  kernel : Kernel
  vanished : Finset Word
  wait : Word → Option Word
  log : List Event

def Kernel.switchToThread (thr : Word) (k : Kernel) : Kernel :=
  { k.setThread thr fun s => { s with status := .running } with
    vm := k.vm.setCurPd (k.task (k.thread thr).parentTask).pdbr
    currThread := thr }

namespace Life

def Ready (x : Life) (thr : Word) : Prop := thr ∈ x.kernel.threads ∧ (x.kernel.thread thr).status ≠ .waiting

def taskOf (x : Life) (thr : Word) : Word := (x.kernel.thread thr).parentTask

def Last (x : Life) (thr : Word) : Prop := ∀ y ∈ x.kernel.threads, x.taskOf y = x.taskOf thr → y = thr

def settle (x : Life) (thr statusPtr : Word) (k : Kernel) : WaitEnd → Life
  | .blocked => { x with kernel := k, wait := Function.update x.wait thr (some statusPtr) }
  | .returned _ => { x with kernel := k, wait := Function.update x.wait thr none }
  | .reaped c id status => {
    kernel := k
    vanished := x.vanished.erase c
    wait := Function.update x.wait thr none
    log := x.log ++ [.reaped id status (x.taskOf thr) (x.kernel.task c).parent] }

/-- The atomic steps. A fork succeeds or fails for want of memory for the
structures. Tasks vanish only in states that are `ok` for them. -/
inductive Step (ok : Life → Word → Prop) : Life → Life → Prop
  | fork {x thr taskMem thrMem r k'} : x.Ready thr → x.wait thr = none → Heap x.kernel taskMem thrMem →
      (x.kernel.switchToThread thr).doFork taskMem thrMem = some (r, k') → r ≠ ERR_FAILURE →
      Step ok x { x with kernel := k' }
  | threadFork {x thr thrMem r k'} : x.Ready thr → x.wait thr = none → Heap x.kernel none thrMem →
      (x.kernel.switchToThread thr).doThreadFork thrMem = some (r, k') → Step ok x { x with kernel := k' }
  | setStatus {x thr} (status : Word) : x.Ready thr → x.wait thr = none →
      Step ok x { x with kernel := (x.kernel.switchToThread thr).setStatus status }
  | leave {x thr k'} : x.Ready thr → x.wait thr = none → ¬ x.Last thr →
      (x.kernel.switchToThread thr).doVanish = some k' → Step ok x { x with kernel := k' }
  | vanish {x thr k'} : x.Ready thr → x.wait thr = none → x.Last thr → x.taskOf thr ≠ x.kernel.initTask →
      x.taskOf thr ≠ x.kernel.idleTask → ok x (x.taskOf thr) → (x.kernel.switchToThread thr).doVanish = some k' →
      Step ok x { x with
        kernel := k'
        vanished := insert (x.taskOf thr) x.vanished
        log := x.log ++ [.exited (x.kernel.task (x.taskOf thr)).id (x.kernel.task (x.taskOf thr)).exitStatus] }
  | wait {x thr p e k'} : x.Ready thr → x.wait thr = none → (x.kernel.switchToThread thr).doWait p = some (e, k') →
      Step ok x (x.settle thr p k' e)
  | resume {x thr p e k'} : x.Ready thr → x.wait thr = some p →
      (x.kernel.switchToThread thr).resumeWait p = some (e, k') → Step ok x (x.settle thr p k' e)

/-- The state after boot: `load_init_task` and `load_bootstrap_task` have created
the two tasks without a parent, and nobody waits. Before, there was no task, no
thread, and `kernel_threads_init` had run. -/
structure Booted (x : Life) : Prop where
  created : ∃ k₀ k₁ k₂ initThr idleThr, k₀.tasks = ∅ ∧ k₀.threads = ∅ ∧ k₀.nextTid = 0#32 ∧
    (∀ i, 0 ≤ i → i < HASHMAP_SIZE → IsRing k₀.links (.threadMap i) []) ∧
    Heap k₀ (some x.kernel.initTask) (some initThr) ∧
    k₀.createTask 0#32 (some x.kernel.initTask) (some initThr) = some (some x.kernel.initTask, k₁) ∧
    Heap k₁ (some x.kernel.idleTask) (some idleThr) ∧
    k₁.createTask 0#32 (some x.kernel.idleTask) (some idleThr) = some (some x.kernel.idleTask, k₂) ∧
    x.kernel.view = { k₂.view with initTask := x.kernel.initTask, idleTask := x.kernel.idleTask }
  vanished : x.vanished = ∅
  wait : ∀ thr, x.wait thr = none
  log : x.log = []

/-! ## The calls on the view -/

section
variable {k k' : Kernel} {live dead : Finset Word} {ls : Node → List Node} {thr t thr' : Word} {r : Int}

theorem view_switchToThread (hs : (k.thread thr).status ≠ .waiting) : (k.switchToThread thr).view = k.view := by
  have howner : ∀ y, ((k.switchToThread thr).thread y).parentTask = (k.thread y).parentTask := by
    intro y
    by_cases e : y = thr <;> simp [switchToThread, setThread, e]
  have hid : ∀ y, ((k.switchToThread thr).thread y).id = (k.thread y).id := by
    intro y
    by_cases e : y = thr <;> simp [switchToThread, setThread, e]
  have hstatus : ∀ y, (((k.switchToThread thr).thread y).status = .waiting) = ((k.thread y).status = .waiting) := by
    intro y
    by_cases e : y = thr
    · subst e
      simp [switchToThread, setThread, hs]
    · simp [switchToThread, setThread, e]
  unfold Kernel.view
  simp only [howner, hid, hstatus]
  rfl

theorem currTask_switchToThread : (k.switchToThread thr).currTask = (k.thread thr).parentTask := by
  simp [currTask, switchToThread, setThread]

theorem view_cloneKStack (child src : Word) (k : Kernel) : (k.cloneKStack child src).view = k.view := by
  apply View.ext <;> first
    | rfl
    | (funext y; by_cases e : y = child <;> simp [Kernel.view, cloneKStack, setThread, e])

theorem view_newTask {p : Word} : (newTask p t thr k).view = k.view.fork p t thr (newTask p t thr k).links := by
  have htask : ∀ y, y ≠ t → (newTask p t thr k).task y = k.task y := fun y hy => Function.update_of_ne hy ..
  have hthread : ∀ y, y ≠ thr → (newTask p t thr k).thread y = k.thread y := fun y hy => Function.update_of_ne hy ..
  have htask' : (newTask p t thr k).task t = _ := Function.update_self ..
  have hthread' : (newTask p t thr k).thread thr = _ := Function.update_self ..
  apply View.ext
  case parent | taskId =>
    funext y
    by_cases e : y = t
    · subst e
      simp [Kernel.view, View.fork, htask']
    · simp [Kernel.view, View.fork, View.addThread, e, htask y e]
  case owner | threadId | asleep =>
    funext y
    by_cases e : y = thr
    · subst e
      simp [Kernel.view, View.fork, View.addThread, hthread']
    · simp [Kernel.view, View.fork, View.addThread, e, hthread y e]
  all_goals rfl

theorem view_attached {p : Word} : (attached p t thr k).view = k.view.fork p t thr (attached p t thr k).links :=
  congrArg (fun v => { v with links := (attached p t thr k).links }) view_newTask

theorem view_cloned {p newPd : Word} {vm : Vm} : (cloned p t newPd vm k).view = k.view := by
  refine Eq.trans ?_ (view_cloneKStack (k.task t).thr (k.task p).thr k)
  apply View.ext <;> first
    | rfl
    | (funext y; by_cases e : y = t <;> simp [Kernel.view, cloned, cloneKStack, setThread, setTask, e])

theorem view_newThread : (newThread t thr k).view = k.view.addThread t thr (newThread t thr k).links := by
  apply View.ext <;> first
    | rfl
    | (funext y; by_cases e : y = thr <;> simp [Kernel.view, newThread, View.addThread, e])

theorem view_setStatus (status : Word) : (k.setStatus status).view = k.view := by
  apply View.ext <;> first
    | rfl
    | (funext y; by_cases e : y = k.currTask <;> simp [Kernel.view, setStatus, setTask, e])

theorem view_slept : (slept t thr k).view =
    k.view.sleep thr (addToTail (.condWaitLink thr) (.exitCondVar t) k.links) := by
  apply View.ext <;> first
    | rfl
    | (funext y; by_cases e : y = thr <;> simp [Kernel.view, slept, View.sleep, e])

theorem view_reaped {c : Word} {vm : Vm} : (reaped t c vm k).view = k.view.reap c (delEntry (.deadChildLink c) k.links) := rfl

/-! ## What each call does to the tree -/

def Tree (k : Kernel) (live dead : Finset Word) : Prop :=
  (∃ ls, View.Listed k.view live live dead ls) ∧ View.Facts k.view live dead

theorem Tree.congr (h : Tree k live dead) (hv : k'.view = k.view) : Tree k' live dead := by
  unfold Tree
  rw [hv]
  exact h

theorem Tree.owner_ne_zero (h : Tree k live dead) (hthr : thr ∈ k.threads) : (k.thread thr).parentTask ≠ 0#32 := by
  intro h0
  exact h.2.zero (h.2.mem_tasks.mpr (Or.inl (h0 ▸ h.2.owner thr hthr)))

theorem Tree.fork (h : Tree k live dead) (hthr : k.currThread ∈ k.threads) (hheap : Heap k (some t) (some thr'))
    (hf : k.doFork (some t) (some thr') = some (r, k')) (hr : r ≠ ERR_FAILURE) :
    Tree k' (insert t live) dead ∧ t ∉ k.tasks ∧ k'.view = k.view.fork k.currTask t thr' k'.links ∧
      k.nextTid ≠ MAX_TID ∧ ∀ c ≠ t, (k'.task c).exitStatus = (k.task c).exitStatus := by
  obtain ⟨⟨ls, hl⟩, hfacts⟩ := h
  obtain ⟨ht0, ht⟩ := hheap.task t rfl
  have hthr' := hheap.thread thr' rfl
  have hp : k.currTask ∈ live := hfacts.owner k.currThread hthr
  have hpt : k.currTask ≠ t := fun e => ht (e ▸ hfacts.mem_tasks.mpr (Or.inl hp))
  obtain ⟨hmax, hcase⟩ := doFork_some hf ht0 hpt
  rcases hcase with ⟨vm, -, rfl, -⟩ | ⟨newPd, vm, -, -, rfl⟩
  · exact absurd rfl hr
  · have hsucc := tid_succ hfacts.next hmax
    have hrings := fork_rings (hl.lists hfacts.tasks) hp ht hthr' (hsucc.1 ▸ hsucc.2)
    have hview : (cloned k.currTask t newPd vm (attached k.currTask t thr' k)).view =
        k.view.fork k.currTask t thr' (attached k.currTask t thr' k).links := view_cloned.trans view_attached
    refine ⟨?_, ht, hview, hmax, ?_⟩
    · unfold Tree
      rw [hview]
      exact ⟨⟨_, hl.fork hfacts hp ht ht0 hthr' hrings⟩, hfacts.fork hp ht ht0 hmax⟩
    · intro c hc
      simp [cloned, cloneKStack, setThread, setTask, attached, withLinks, newTask, hc]

theorem Tree.forkFails {taskMem thrMem : Option Word} (h : Tree k live dead) (hthr : k.currThread ∈ k.threads)
    (hheap : Heap k taskMem thrMem) (hnone : taskMem = none ∨ thrMem = none)
    (hf : k.doFork taskMem thrMem = some (r, k')) :
    Tree k' live dead ∧ View.Same k.view k'.view ∧ ∀ c ∈ dead, (k'.task c).exitStatus = (k.task c).exitStatus := by
  have hfacts := h.2
  have hp : k.currTask ∈ k.tasks := hfacts.mem_tasks.mpr (Or.inl (hfacts.owner k.currThread hthr))
  rcases doFork_none hf hnone hp (fun t ht => (hheap.task t ht).2) with rfl | ⟨t, ht, rfl⟩
  · exact ⟨h, View.Same.refl _, fun _ _ => rfl⟩
  · have htn := (hheap.task t ht).2
    have hsame : View.Same k.view (Kernel.view { blankTask k.currTask t k with tasks := k.tasks }) := by
      refine { View.Same.refl k.view with task := fun c hc => ?_ }
      have hne : c ≠ t := fun e => htn (e ▸ hc)
      simp [Kernel.view, blankTask, hne]
    refine ⟨?_, hsame, ?_⟩
    · obtain ⟨⟨ls, hl⟩, -⟩ := h
      exact ⟨⟨ls, hsame.listed hl hfacts (blank_rings (hl.lists hfacts.tasks) htn)⟩, hsame.facts hfacts⟩
    · intro c hc
      have hne : c ≠ t := fun e => htn (e ▸ hfacts.mem_tasks.mpr (Or.inr hc))
      simp [blankTask, hne]

theorem Tree.threadFork (h : Tree k live dead) (hthr : k.currThread ∈ k.threads) (hnew : thr' ∉ k.threads)
    (hf : k.doThreadFork (some thr') = some (r, k')) :
    Tree k' live dead ∧ k'.view = k.view.addThread k.currTask thr' k'.links ∧ k'.task = k.task ∧
      k.nextTid ≠ MAX_TID := by
  have h0 := h.owner_ne_zero hthr
  obtain ⟨⟨ls, hl⟩, hfacts⟩ := h
  have hp : k.currTask ∈ live := hfacts.owner k.currThread hthr
  obtain ⟨hmax, -, rfl⟩ := doThreadFork_some hf h0
  have hsucc := tid_succ hfacts.next hmax
  have hlists := hl.lists hfacts.tasks
  have hrings := newThread_rings thr' hl.rings hp (hsucc.1 ▸ hsucc.2)
    (fun h hh => hlists.head_notMem hh hnew) (fun h hh => hlists.head_notMem hh hnew)
  have hview : (((newThread k.currTask thr' k).cloneKStack thr' k.currThread).runqAddThread thr').view =
      k.view.addThread k.currTask thr' (newThread k.currTask thr' k).links :=
    (view_cloneKStack thr' k.currThread (newThread k.currTask thr' k)).trans view_newThread
  refine ⟨?_, hview, rfl, hmax⟩
  unfold Tree
  rw [hview]
  exact ⟨⟨_, hl.addThread hnew hrings⟩, hfacts.addThread hp hmax⟩

theorem Tree.bucket {ls : Node → List Node} (hl : View.Listed k.view live live dead ls)
    (hf : View.Facts k.view live dead)
    (hthr : thr ∈ k.threads) : ∃ ts : List Word,
      IsRing k.links (.threadMap (mapIndex (k.thread thr).id)) (ts.map .threadMapLink) ∧ thr ∈ ts ∧
      ∀ y ∈ ts, (k.thread y).id = (k.thread thr).id → y = thr := by
  have hid : (k.thread thr).id.toNat < 2 ^ 31 := lt_of_le_of_lt (hf.threadIds thr hthr) hf.next
  obtain ⟨ts, hts, hmem⟩ := hl.bucket (mapIndex_range hid)
  refine ⟨ts, ?_, (hmem thr).mpr ⟨hthr, rfl⟩, ?_⟩
  · rw [← hts]
    exact hl.rings.ring (.threadMap _) (mapIndex_range hid)
  · intro y hy he
    exact hf.threadId_inj y ((hmem y).mp hy).1 thr hthr he

theorem Tree.dropThread (h : Tree k live dead) (hthr : k.currThread ∈ k.threads)
    (hawake : (k.thread k.currThread).status ≠ .waiting) :
    ∃ ls, View.Listed (k.view.dropThread k.currThread) live live dead ls := by
  obtain ⟨⟨ls, hl⟩, hf⟩ := h
  have hid : (k.thread k.currThread).id.toNat < 2 ^ 31 := lt_of_le_of_lt (hf.threadIds _ hthr) hf.next
  exact ⟨_, hl.dropThread (hf.owner _ hthr) hthr (mapIndex_range hid) (by simpa [Kernel.view] using hawake)⟩

theorem Tree.threadHead (h : Tree k live dead) (hthr : k.currThread ∈ k.threads)
    (hawake : (k.thread k.currThread).status ≠ .waiting) :
    getFirst (.threadHead k.currTask) (threadGone k.currThread k.links) = none ↔
      ¬ ∃ y ∈ k.threads, (k.thread y).parentTask = k.currTask ∧ y ≠ k.currThread := by
  obtain ⟨ls, hdrop⟩ := h.dropThread hthr hawake
  have hthead : .threadHead k.currTask ∈ heads live := h.2.owner _ hthr
  have hfirst : getFirst (.threadHead k.currTask) (threadGone k.currThread k.links) = _ :=
    getFirst_eq (hdrop.rings.ring _ hthead)
  rw [hfirst, List.head?_eq_none_iff]
  constructor
  · rintro hnil ⟨y, hy, howner, hne⟩
    have hmem := (hdrop.mem _ hthead (.taskThreadLink y)).mpr ⟨Finset.mem_erase.mpr ⟨hne, hy⟩, howner⟩
    rw [hnil] at hmem
    cases hmem
  · intro hlast
    rw [List.eq_nil_iff_forall_not_mem]
    intro n hn
    have hb := (hdrop.mem _ hthead n).mp hn
    cases n with
    | taskThreadLink y =>
      obtain ⟨hy, howner⟩ := hb
      exact hlast ⟨y, Finset.mem_of_mem_erase hy, howner, Finset.ne_of_mem_erase hy⟩
    | _ => exact hb.elim

theorem Tree.leave (h : Tree k live dead) (hthr : k.currThread ∈ k.threads)
    (hawake : (k.thread k.currThread).status ≠ .waiting)
    (hmore : ∃ y ∈ k.threads, (k.thread y).parentTask = k.currTask ∧ y ≠ k.currThread) (hv : k.doVanish = some k') :
    Tree k' live dead ∧ k'.view = k.view.dropThread k.currThread ∧ k'.task = k.task := by
  have hdrop := h.dropThread hthr hawake
  have hhead := h.threadHead hthr hawake
  obtain ⟨⟨ls, hl⟩, hf⟩ := h
  obtain ⟨ts, hring, hm, hone⟩ := Tree.bucket hl hf hthr
  rcases doVanish_cases hring hm hone hv with ⟨-, rfl⟩ | ⟨hnone, -⟩
  · have hview : (freeThread k.currThread { k with links := threadGone k.currThread k.links }).view =
        k.view.dropThread k.currThread := rfl
    refine ⟨?_, hview, rfl⟩
    unfold Tree
    rw [hview]
    exact ⟨hdrop, hf.dropThread⟩
  · exact absurd hmore (hhead.mp hnone)

def vanishView (t thr : Word) (cs woken : List Word) (L : Links Node) (v : View) : View :=
  ((v.dropThread thr).give t cs).exit woken L

def gone (t thr : Word) (cs woken : List Word) (L : Links Node) (k : Kernel) : Kernel :=
  freeThread thr (wakeAll woken { leaveSpace t (given t cs { k with links := threadGone thr k.links }) with links := L })

section
variable {cs woken : List Word} {L : Links Node}

theorem gone_task (c : Word) : ((gone t thr cs woken L k).task c).parent = (if c ∈ cs then k.initTask else (k.task c).parent) ∧
    ((gone t thr cs woken L k).task c).id = (k.task c).id ∧
    ((gone t thr cs woken L k).task c).exitStatus = (k.task c).exitStatus := by
  have hadopt : adopt k.initTask cs k.task c = { k.task c with parent := if c ∈ cs then k.initTask else (k.task c).parent } := by
    by_cases hm : c ∈ cs <;> simp [adopt, hm]
  have htask : (gone t thr cs woken L k).task c = (leaveSpace t
    (given t cs { k with links := threadGone thr k.links })).task c := rfl
  rw [htask]
  by_cases e : c = t
  · subst e
    simp [leaveSpace, given, setTask, hadopt]
  · simp [leaveSpace, given, setTask, e, hadopt]

theorem view_gone : (gone t thr cs woken L k).view = vanishView t thr cs woken (gone t thr cs woken L k).links k.view := by
  have hthread : ∀ y, (gone t thr cs woken L k).thread y =
      if y ∈ woken then { k.thread y with status := .runnable } else k.thread y := fun y => rfl
  apply View.ext
  case parent =>
    funext c
    exact (gone_task c).1
  case taskId =>
    funext c
    exact (gone_task c).2.1
  case owner | threadId | asleep =>
    funext y
    by_cases hm : y ∈ woken <;> simp [vanishView, View.exit, View.give, View.dropThread, Kernel.view, hthread, hm]
  all_goals rfl

end

structure Vanished (k k' : Kernel) (t : Word) (live dead : Finset Word) (cs woken : List Word) : Prop where
  children : ∀ c, c ∈ cs ↔ (c ∈ live ∨ c ∈ dead) ∧ (k.task c).parent = t
  wasAsleep : ∀ y ∈ woken, y ∈ k.threads ∧ (k.thread y).parentTask = (k.task t).parent ∧ (k.thread y).status = .waiting
  someone : ∀ y ∈ k.threads, (k.thread y).parentTask = (k.task t).parent → (k.thread y).status = .waiting → woken ≠ []
  exitStatus : ∀ c, (k'.task c).exitStatus = (k.task c).exitStatus

def handedOver (cs : List Word) (k : Kernel) : Kernel :=
  leaveSpace k.currTask (given k.currTask cs { k with links := threadGone k.currThread k.links })

theorem Tree.handOver (h : Tree k live dead) (hthr : k.currThread ∈ k.threads)
    (hawake : (k.thread k.currThread).status ≠ .waiting) (hi : k.currTask ≠ k.initTask) : ∃ as ds ls,
      IsRing (threadGone k.currThread k.links) (.childTaskHead k.currTask) (as.map .childTaskLink) ∧
      IsRing (threadGone k.currThread k.links) (.deadChildHead k.currTask) (ds.map .deadChildLink) ∧
      (∀ c, c ∈ as ++ ds ↔ (c ∈ live ∨ c ∈ dead) ∧ (k.task c).parent = k.currTask) ∧
      View.Listed (View.give k.currTask (as ++ ds) (k.view.dropThread k.currThread))
      (live.erase k.currTask) live dead ls := by
  obtain ⟨ls, hdrop⟩ := h.dropThread hthr hawake
  have hf := h.2
  have ht : k.currTask ∈ live := hf.owner _ hthr
  obtain ⟨as, has, hasmem⟩ := hdrop.alive ht
  obtain ⟨ds, hds, hdsmem⟩ := hdrop.deadChildren ht
  have hcs : ∀ c, c ∈ as ++ ds ↔ (c ∈ live ∨ c ∈ dead) ∧ (k.task c).parent = k.currTask := by
    intro c
    rw [List.mem_append, hasmem, hdsmem, or_and_right]
    rfl
  refine ⟨as, ds, _, ?_, ?_, hcs, hdrop.give ht hf.init (Ne.symm hi) hcs⟩
  · rw [← has]
    exact hdrop.rings.ring (.childTaskHead k.currTask) ht
  · rw [← hds]
    exact hdrop.rings.ring (.deadChildHead k.currTask) ht

theorem Tree.report {cs : List Word} (h : Tree k live dead) (hthr : k.currThread ∈ k.threads)
    (hawake : (k.thread k.currThread).status ≠ .waiting) (hi : k.currTask ≠ k.initTask) (hd : k.currTask ≠ k.idleTask)
    (hcs : ∀ c, c ∈ cs ↔ (c ∈ live ∨ c ∈ dead) ∧ (k.task c).parent = k.currTask)
    (hgive : View.Listed (View.give k.currTask cs (k.view.dropThread k.currThread)) (live.erase k.currTask) live dead ls) :
    ∃ woken rest, ls (.exitCondVar (k.task k.currTask).parent) = (woken ++ rest).map .condWaitLink ∧
      getFirst (.exitCondVar (k.task k.currTask).parent) (exitLinks k.currTask (k.task k.currTask).parent
        (handedOver cs k).links) = ((woken ++ rest).map Node.condWaitLink).head? ∧
      (∀ y, y ∈ woken ++ rest ↔ y ∈ k.threads ∧ (k.thread y).parentTask = (k.task k.currTask).parent ∧
        (k.thread y).status = .waiting) ∧ (woken ++ rest ≠ [] → woken ≠ []) ∧
      (handedOver cs k).reportExit k.currTask = some (wakeAll woken { handedOver cs k with
        links := exitLinks k.currTask (k.task k.currTask).parent (handedOver cs k).links }) ∧
      Rings (wakeAll woken { handedOver cs k with
        links := exitLinks k.currTask (k.task k.currTask).parent (handedOver cs k).links }).links
        (heads (live.erase k.currTask)) (exitLists k.currTask (k.task k.currTask).parent rest ls) := by
  have hf := h.2
  have ht : k.currTask ∈ live := hf.owner _ hthr
  have htd : k.currTask ∉ dead := Finset.disjoint_left.mp hf.disjoint ht
  have hparent := hf.parent k.currTask (hf.mem_tasks.mpr (Or.inl ht)) hi hd
  -- the parent of the task is not one of its children
  have hself : k.currTask ∉ cs := fun hm => hparent.2 ((hcs _).mp hm).2
  have hp : (View.give k.currTask cs (k.view.dropThread k.currThread)).parent k.currTask =
      (k.task k.currTask).parent := if_neg hself
  have hpl : (k.task k.currTask).parent ∈ live.erase k.currTask := Finset.mem_erase.mpr ⟨hparent.2, hparent.1⟩
  obtain ⟨ts, hts, htsmem⟩ := hgive.waiting hpl
  have hc : .childTaskLink k.currTask ∈ ls (.childTaskHead (k.task k.currTask).parent) :=
    (hgive.mem (.childTaskHead _) hpl _).mpr ⟨ht, hp⟩
  have hnew : .deadChildLink k.currTask ∉ heads (live.erase k.currTask) ∧ ∀ h ∈ heads (live.erase k.currTask),
      .deadChildLink k.currTask ∉ ls h := by
    refine ⟨id, fun h hh hm => ?_⟩
    have hb := (hgive.mem h hh _).mp hm
    cases h with
    | deadChildHead q => exact htd hb.1
    | _ => exact hb.elim
  have hparent' : ((handedOver cs k).task k.currTask).parent = (k.task k.currTask).parent := by
    simp [handedOver, leaveSpace, given, setTask, adopt, hself]
  obtain ⟨woken, rest, rfl, hsome, heq, hrings⟩ :=
    reportExit_eq (k := handedOver cs k) hgive.rings ⟨hpl, hpl, hpl⟩ hparent' hc hnew hts
  have hfirst := getFirst_eq ((exitLinks_rings (k := handedOver cs k) hgive.rings ⟨hpl, hpl, hpl⟩ hc hnew).ring
    (.exitCondVar (k.task k.currTask).parent) hpl)
  rw [Function.update_of_ne (by simp), Function.update_of_ne (by simp), hts] at hfirst
  refine ⟨woken, rest, hts, hfirst, ?_, hsome, heq, hrings⟩
  intro y
  have hne : (k.thread y).status = .waiting → y ≠ k.currThread := fun hs e => hawake (e ▸ hs)
  rw [htsmem y]
  simp only [View.give, View.dropThread, Kernel.view, Finset.mem_erase, decide_eq_true_eq]
  grind

theorem Tree.vanish (h : Tree k live dead) (hthr : k.currThread ∈ k.threads)
    (hawake : (k.thread k.currThread).status ≠ .waiting)
    (hlast : ∀ y ∈ k.threads, (k.thread y).parentTask = k.currTask → y = k.currThread) (hi : k.currTask ≠ k.initTask)
    (hd : k.currTask ≠ k.idleTask) (hv : k.doVanish = some k') :
    Tree k' (live.erase k.currTask) (insert k.currTask dead) ∧ ∃ cs woken,
      k'.view = vanishView k.currTask k.currThread cs woken k'.links k.view ∧
      Vanished k k' k.currTask live dead cs woken := by
  obtain ⟨as, ds, ls', has, hds, hcs, hgive⟩ := h.handOver hthr hawake hi
  obtain ⟨woken, rest, hts, -, hwait, hsome, heq, hrings⟩ := h.report hthr hawake hi hd hcs hgive
  have hhead := (h.threadHead hthr hawake).mpr (by rintro ⟨y, hy, howner, hne⟩; exact hne (hlast y hy howner))
  obtain ⟨⟨ls, hl⟩, hf⟩ := h
  obtain ⟨ts, hring, hm, hone⟩ := Tree.bucket hl hf hthr
  have ht : k.currTask ∈ live := hf.owner _ hthr
  have htd : k.currTask ∉ dead := Finset.disjoint_left.mp hf.disjoint ht
  have hparent := hf.parent k.currTask (hf.mem_tasks.mpr (Or.inl ht)) hi hd
  have hself : k.currTask ∉ as ++ ds := fun hm => hparent.2 ((hcs _).mp hm).2
  have hp : (View.give k.currTask (as ++ ds) (k.view.dropThread k.currThread)).parent k.currTask =
      (k.task k.currTask).parent := if_neg hself
  have hpl : (k.task k.currTask).parent ∈ live.erase k.currTask := Finset.mem_erase.mpr ⟨hparent.2, hparent.1⟩
  rcases doVanish_cases hring hm hone hv with ⟨hne, -⟩ | ⟨-, k₁, k₂, hgiven, hreport, rfl⟩
  · exact absurd hhead hne
  · rw [giveChildren_some (k := { k with links := threadGone k.currThread k.links }) has hds hgiven] at hreport
    obtain rfl : wakeAll woken _ = k₂ := Option.some.inj (heq.symm.trans hreport)
    let L := exitLinks k.currTask (k.task k.currTask).parent (handedOver (as ++ ds) k).links
    have hview : (freeThread k.currThread (wakeAll woken { handedOver (as ++ ds) k with links := L })).view =
        vanishView k.currTask k.currThread (as ++ ds) woken
        (gone k.currTask k.currThread (as ++ ds) woken L k).links k.view :=
      view_gone
    refine ⟨?_, as ++ ds, woken, hview, hcs, ?_, ?_, fun c => (gone_task c).2.2⟩
    · unfold Tree
      rw [hview]
      refine ⟨⟨_, hgive.exit (t := k.currTask) (by rw [hp]; exact hpl) (by rw [hp]; exact hts)
        (by rw [hp]; exact hrings)⟩, ?_⟩
      refine View.Facts.vanish (v := k.view.dropThread k.currThread) hf.dropThread ht (Ne.symm hi) (Ne.symm hd) ?_ hcs
      intro y hy howner
      exact Finset.ne_of_mem_erase hy (hlast y (Finset.mem_of_mem_erase hy) howner)
    · exact fun y hy => (hwait y).mp (List.mem_append_left rest hy)
    · intro y hy howner hs
      exact hsome (List.ne_nil_of_mem ((hwait y).mpr ⟨hy, howner, hs⟩))

theorem Tree.vanish_returns (h : Tree k live dead) (hthr : k.currThread ∈ k.threads)
    (hawake : (k.thread k.currThread).status ≠ .waiting) (hthreads : k.locks (.threadListMutex k.currTask) = .valid)
    (hvanish : k.locks (.vanishMutex k.currTask) = .valid) (hinit : k.locks (.childListMutex k.initTask) = .valid)
    (hroot : (k.currTask = k.initTask ∨ k.currTask = k.idleTask) →
      ∃ y ∈ k.threads, (k.thread y).parentTask = k.currTask ∧ y ≠ k.currThread) : ∃ k', k.doVanish = some k' := by
  have hhead := h.threadHead hthr hawake
  obtain ⟨ls, hl⟩ := h.1
  obtain ⟨ts, hring, hm, hone⟩ := Tree.bucket hl h.2 hthr
  have hlock : k.mutexLock (.threadListMutex k.currTask) = some (k.setLock (.threadListMutex k.currTask) .locked) :=
    if_pos hthreads
  have hrem : removeThreadFromTask k.currThread (k.setLock (.threadListMutex k.currTask) .locked) =
      some { k.setLock (.threadListMutex k.currTask) .locked with links := threadGone k.currThread k.links } :=
    removeThreadFromTask_eq (k := k.setLock (.threadListMutex k.currTask) .locked) hring hm hone
  have hun : mutexUnlock (.threadListMutex k.currTask) { k.setLock (.threadListMutex k.currTask) .locked with
      links := threadGone k.currThread k.links } = some { k with links := threadGone k.currThread k.links } := by
    rw [mutexUnlock, if_neg (by simp [setLock])]
    exact congrArg (fun x : Kernel => some (x.withLinks (threadGone k.currThread))) (unlock_lock hthreads)
  unfold doVanish
  simp only [Option.bind_eq_bind, hlock, hrem, hun, Option.bind_some]
  by_cases hmore : ∃ y ∈ k.threads, (k.thread y).parentTask = k.currTask ∧ y ≠ k.currThread
  · obtain ⟨n, hn⟩ := Option.ne_none_iff_exists'.mp (fun hnone => hhead.mp hnone hmore)
    rw [hn]
    exact ⟨_, rfl⟩
  · have hi : k.currTask ≠ k.initTask := fun e => hmore (hroot (Or.inl e))
    have hd : k.currTask ≠ k.idleTask := fun e => hmore (hroot (Or.inr e))
    obtain ⟨as, ds, ls', has, hds, hcs, hgive⟩ := h.handOver hthr hawake hi
    obtain ⟨woken, rest, -, -, -, -, heq, -⟩ := h.report hthr hawake hi hd hcs hgive
    rw [hhead.mpr hmore]
    dsimp only
    rw [giveChildren_eq (k := { k with links := threadGone k.currThread k.links }) has hds hvanish hinit,
      Option.bind_some,
      show (leaveSpace _ (given _ _ _)) = handedOver (as ++ ds) k from rfl, heq]
    exact ⟨_, rfl⟩

/-! ## Waiting -/

theorem Tree.children (h : Tree k live dead) (ht : t ∈ live) : ∃ (ds : List Word) (as : List Node),
    IsRing k.links (.deadChildHead t) (ds.map .deadChildLink) ∧ (∀ c, c ∈ ds ↔ c ∈ dead ∧ (k.task c).parent = t) ∧
      IsRing k.links (.childTaskHead t) as := by
  obtain ⟨⟨ls, hl⟩, -⟩ := h
  obtain ⟨ds, hds, hmem⟩ := hl.deadChildren ht
  refine ⟨ds, ls (.childTaskHead t), ?_, hmem, hl.rings.ring (.childTaskHead t) ht⟩
  rw [← hds]
  exact hl.rings.ring (.deadChildHead t) ht

theorem Tree.sleep (h : Tree k live dead) (hthr : thr ∈ k.threads) (howner : (k.thread thr).parentTask = t)
    (hawake : (k.thread thr).status ≠ .waiting) : Tree (slept t thr k) live dead := by
  obtain ⟨⟨ls, hl⟩, hf⟩ := h
  have ht : t ∈ live := howner ▸ hf.owner thr hthr
  unfold Tree
  rw [view_slept]
  exact ⟨⟨_, hl.sleep ht hthr howner (by simpa [Kernel.view] using hawake)⟩, hf.sleep⟩

theorem Tree.reap {c : Word} {vm : Vm} (h : Tree k live dead) (ht : t ∈ live) (hc : c ∈ dead)
    (hp : (k.task c).parent = t) :
    Tree (reaped t c vm k) live (dead.erase c) := by
  obtain ⟨⟨ls, hl⟩, hf⟩ := h
  exact ⟨⟨_, hl.reap ht hc hp⟩, hf.reap hc⟩

/-! ## Boot -/

theorem Booted.tree {x : Life} (h : Booted x) : Tree x.kernel {x.kernel.idleTask, x.kernel.initTask} x.vanished := by
  obtain ⟨k₀, k₁, k₂, initThr, idleThr, htasks, hthreads, hnext, hmap, hheap₁, hc₁, hheap₂, hc₂, hview⟩ := h.created
  obtain ⟨hi0, hi⟩ := hheap₁.task _ rfl
  obtain ⟨hd0, hd⟩ := hheap₂.task _ rfl
  obtain ⟨hmax₁, -, rfl⟩ := createTask_some hi0 hc₁
  obtain ⟨hmax₂, -, rfl⟩ := createTask_some hd0 hc₂
  generalize x.kernel.initTask = init at *
  generalize x.kernel.idleTask = idle at *
  have hne : idle ≠ init := fun e => hd (by simp [newTask, e])
  have hrings₀ : Rings k₀.links (heads ∅) fun _ => [] := by
    refine ⟨?_, fun _ _ _ _ => List.not_mem_nil⟩
    intro h hh
    cases h with
    | threadMap i => exact hmap i hh.1 hh.2
    | _ => first | exact (Finset.notMem_empty _ hh).elim | exact hh.elim
  have hl₀ : View.Listed k₀.view ∅ ∅ ∅ fun _ => [] := by
    refine ⟨hrings₀, ?_⟩
    intro h hh n
    cases h <;> cases n <;> simp [View.Belongs, Kernel.view, hthreads]
  have hl₁ := hl₀.root (Finset.notMem_empty init) hi0 (Finset.notMem_empty _) (by simp [Kernel.view, hthreads])
    (by simp)
    (by simp [Kernel.view, hthreads])
    (newTask_rings 0#32 (hl₀.lists (by simp [htasks])) hi (hheap₁.thread initThr rfl) (by rw [hnext]; decide))
  rw [← view_newTask] at hl₁
  have htasks₁ : (newTask 0#32 init initThr k₀).tasks = insert init ∅ ∪ ∅ := by simp [newTask, htasks]
  have hl₂ := hl₁.root (t := idle) (by simpa using hne) hd0 (by simpa using hi0.symm)
    (hheap₂.thread idleThr rfl) (by simp [Kernel.view, newTask]) (by simp [Kernel.view, newTask, newThread, hthreads])
    (newTask_rings 0#32 (hl₁.lists htasks₁) hd (hheap₂.thread idleThr rfl) (by simp [newTask, newThread, hnext]))
  rw [← view_newTask] at hl₂
  have hne' : initThr ≠ idleThr := fun e => hheap₂.thread idleThr rfl (by simp [newTask, newThread, e])
  have htask : ∀ c ∈ (newTask 0#32 idle idleThr (newTask 0#32 init initThr k₀)).tasks, c = idle ∨ c = init := by
    simp [newTask, htasks]
  have hthr : ∀ y ∈ (newTask 0#32 idle idleThr (newTask 0#32 init initThr k₀)).threads, y = idleThr ∨ y = initThr := by
    simp [newTask, newThread, hthreads]
  unfold Tree
  rw [hview, h.vanished]
  refine ⟨⟨_, hl₂.rings, hl₂.mem⟩, ?_⟩
  constructor
  case tasks => simp [Kernel.view, newTask, htasks]
  case disjoint => exact Finset.disjoint_empty_right _
  case zero => simp [Kernel.view, newTask, htasks, hi0.symm, hd0.symm]
  case init => simp
  case idle => simp
  case roots => simp [Kernel.view, newTask, hne.symm]
  case parent =>
    intro c hc hci hcd
    exact ((htask c hc).elim hcd hci).elim
  case owner =>
    intro y hy
    rcases hthr y hy with rfl | rfl <;> simp [Kernel.view, newTask, newThread, hne']
  case next => simp [Kernel.view, newTask, newThread, hnext]
  case threadIds =>
    intro y hy
    rcases hthr y hy with rfl | rfl <;> simp [Kernel.view, newTask, newThread, hne', hnext]
  case threadId_inj =>
    intro y hy z hz
    rcases hthr y hy with rfl | rfl <;> rcases hthr z hz with rfl | rfl <;>
      simp [Kernel.view, newTask, newThread, hne', hnext]
  case taskIds =>
    intro c hc
    rcases htask c hc with rfl | rfl <;> simp [Kernel.view, newTask, newThread, hne.symm, hnext]
  case taskId_inj =>
    intro c hc d hd
    rcases htask c hc with rfl | rfl <;> rcases htask d hd with rfl | rfl <;>
      simp [Kernel.view, newTask, newThread, hne.symm, hnext]

theorem Booted.awake {x : Life} (h : Booted x) (hthr : thr ∈ x.kernel.threads) : x.kernel.view.asleep thr = false := by
  obtain ⟨k₀, k₁, k₂, initThr, idleThr, -, hthreads, -, -, hheap₁, hc₁, hheap₂, hc₂, hview⟩ := h.created
  obtain ⟨-, -, rfl⟩ := createTask_some (hheap₁.task _ rfl).1 hc₁
  obtain ⟨-, -, rfl⟩ := createTask_some (hheap₂.task _ rfl).1 hc₂
  change thr ∈ x.kernel.view.threads at hthr
  rw [hview] at hthr ⊢
  simp only [Kernel.view, newTask, newThread, hthreads, Finset.mem_insert, Finset.notMem_empty, or_false] at hthr
  by_cases e : thr = idleThr
  · simp [Kernel.view, newTask, newThread, e]
  · simp [Kernel.view, newTask, newThread, hthr.resolve_left e, hthr.resolve_left e ▸ e]

end

end Life

end Pebbles
