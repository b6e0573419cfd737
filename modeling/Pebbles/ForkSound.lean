import Pebbles.Fork
import Pebbles.KernelSound
import Pebbles.RefCount

/-!
# What a failed fork leaves behind

By the time the address space cannot be cloned, the child is in the list of its
parent and its thread in the thread map, and `do_fork` frees both without taking
them out. A failed fork leaves no trace exactly when `create_task` failed.
-/

namespace Pebbles

open Words Ring

namespace Kernel

def forkLists (p t thr : Word) (i : Int) (ls : Node → List Node) : Node → List Node :=
  Function.update (taskLists t thr i ls) (.childTaskHead p) (ls (.childTaskHead p) ++ [.childTaskLink t])

section
variable {k k' : Kernel} {live : Finset Word} {ls : Node → List Node} {p t thr : Word} {i : Int} {h n : Node}

theorem taskLists_of_ne (h₁ : h ∉ taskHeads t) (h₂ : h ≠ .threadMap i) : taskLists t thr i ls h = ls h := by
  simp only [taskHeads, List.mem_cons, List.not_mem_nil, or_false, not_or] at h₁
  obtain ⟨ha, hb, hc, hd⟩ := h₁
  simp only [taskLists, threadLists, emptyLists, Function.update_apply, ha, hb, hc, hd, h₂, if_false]

theorem mem_taskLists (hn : n ∈ taskLists t thr i ls h) :
    (n ∈ ls h ∧ h ∉ taskHeads t) ∨ n = .taskThreadLink thr ∨ n = .threadMapLink thr := by
  by_cases hm : h = .threadMap i
  · subst hm
    simp only [taskLists, threadLists, emptyLists, Function.update_self, ne_eq, reduceCtorEq, not_false_eq_true,
      Function.update_of_ne, List.mem_append, List.mem_singleton] at hn
    cases hn with
    | inl hn => exact Or.inl ⟨hn, by simp [taskHeads]⟩
    | inr he => exact Or.inr (Or.inr he)
  · by_cases ht : h ∈ taskHeads t
    · simp only [taskHeads, List.mem_cons, List.not_mem_nil, or_false] at ht
      rcases ht with rfl | rfl | rfl | rfl <;> simp_all [taskLists, threadLists, emptyLists]
    · rw [taskLists_of_ne ht hm] at hn
      exact Or.inl ⟨hn, ht⟩

theorem mem_heads_insert (hh : h ∈ heads (insert t live)) : h ∈ heads live ∨ h ∈ taskHeads t := by
  rw [heads_insert] at hh
  simp only [Set.mem_insert_iff] at hh
  simp only [taskHeads, List.mem_cons, List.not_mem_nil, or_false]
  tauto

theorem fork_rings (hl : Lists k live ls) (hp : p ∈ live) (ht : t ∉ k.tasks) (hthr : thr ∉ k.threads)
    (hid : (k.nextTid + 1#32).toNat < 2 ^ 31) :
    Rings (addToTail (.childTaskLink t) (.childTaskHead p) (newTask p t thr k).links) (heads (insert t live))
      (forkLists p t thr (mapIndex (k.nextTid + 1#32)) ls) := by
  have hpt : p ≠ t := fun e => ht (e ▸ hl.sub hp)
  have hold : taskLists t thr (mapIndex (k.nextTid + 1#32)) ls (.childTaskHead p) = ls (.childTaskHead p) :=
    taskLists_of_ne (by simp [taskHeads, hpt]) (by simp)
  have hr : Rings (newTask p t thr k).links _ _ := newTask_rings p hl ht hthr hid
  have hr' := addToTail_rings hr (h := .childTaskHead p) (n := .childTaskLink t) (by simp [hp]) (by simp) ?_
  · rw [hold] at hr'
    exact hr'
  · intro h hh hm
    cases mem_taskLists hm with
    | inr he => simp at he
    | inl hm => exact hl.head_notMem (n := .childTaskLink t) ((mem_heads_insert hh).resolve_right hm.2) ht hm.1

/-! ## What a call does -/

def attached (p t thr : Word) (k : Kernel) : Kernel :=
  (newTask p t thr k).withLinks (addToTail (.childTaskLink t) (.childTaskHead p))

theorem initLocks_update {f : Lock → Mutex} {l : Lock} {m : Mutex} (hl : l.task ≠ t) :
    initLocks t (Function.update f l m) = Function.update (initLocks t f) l m := by
  funext x
  simp only [initLocks, Function.update_apply]
  by_cases he : x = l
  · subst he
    simp [hl]
  · simp [he]

theorem newTask_setLock {l : Lock} {m : Mutex} (hl : l.task ≠ t) :
    newTask p t thr (k.setLock l m) = (newTask p t thr k).setLock l m := by
  simp only [newTask, newThread, setLock, initLocks_update hl]

theorem blankTask_setLock {l : Lock} {m : Mutex} (hl : l.task ≠ t) :
    blankTask p t (k.setLock l m) = (blankTask p t k).setLock l m := by
  simp only [blankTask, setLock, initLocks_update hl]

theorem doFork_none {taskMem thrMem : Option Word} {r : Int} (h : k.doFork taskMem thrMem = some (r, k'))
    (hnone : taskMem = none ∨ thrMem = none) (hp : k.currTask ∈ k.tasks) (ht : ∀ t, taskMem = some t → t ∉ k.tasks) :
    k' = k ∨ ∃ t, taskMem = some t ∧ k' = { blankTask k.currTask t k with tasks := k.tasks } := by
  unfold doFork at h
  simp only [Option.bind_eq_bind, Option.bind_eq_some_iff] at h
  obtain ⟨k₁, hlock, ⟨o, k₂⟩, hcreate, h⟩ := h
  obtain ⟨hv, rfl⟩ := mutexLock_some hlock
  cases taskMem with
  | none =>
    simp only [createTask, Option.some.injEq, Prod.mk.injEq] at hcreate
    obtain ⟨rfl, rfl⟩ := hcreate
    simp only [Option.bind_eq_some_iff] at h
    obtain ⟨k₃, hun, h⟩ := h
    simp only [Option.pure_def, Option.some.injEq, Prod.mk.injEq] at h
    left
    rw [← h.2, mutexUnlock_some hun, unlock_lock hv]
  | some t =>
    obtain rfl : thrMem = none := by simpa using hnone
    have hpt : k.currTask ≠ t := fun e => ht t rfl (e ▸ hp)
    obtain ⟨rfl, rfl⟩ := createTask_none (k := k.setLock (.forkMutex k.currTask) .locked) (ht t rfl) hcreate
    simp only [Option.bind_eq_some_iff] at h
    obtain ⟨k₃, hun, h⟩ := h
    simp only [Option.pure_def, Option.some.injEq, Prod.mk.injEq] at h
    right
    refine ⟨t, rfl, ?_⟩
    have hback := unlock_lock (k := blankTask k.currTask t k) (l := .forkMutex k.currTask) ?_
    · rw [← h.2, mutexUnlock_some hun, blankTask_setLock (l := .forkMutex k.currTask) hpt]
      exact congrArg (fun x : Kernel => { x with tasks := k.tasks }) hback
    · simp only [blankTask, initLocks, Lock.task, hpt, if_false, hv]

def cloned (p t newPd : Word) (vm : Vm) (k : Kernel) : Kernel :=
  let curr := k.task p
  { (k.setTask t fun s => { s with
      pdbr := newPd, eip := curr.eip, swexnArgs := curr.swexnArgs, swexnEsp := curr.swexnEsp }).cloneKStack
        (k.task t).thr curr.thr with
    vm := vm.setCurPd curr.pdbr
    runq := k.runq ++ [(k.task t).thr] }

def uncloned (t : Word) (vm : Vm) (k : Kernel) : Kernel :=
  { k with vm := vm, threads := k.threads.erase (k.task t).thr, tasks := k.tasks.erase t }

theorem cloneTask_cases {r : Int} (hpt : p ≠ t) (h : cloneTask p t k = some (r, k')) :
    (∃ vm, k.vm.clonePagingInfo (k.task p).pdbr = (none, vm) ∧ r = ERR_FAILURE ∧
      k' = (uncloned t vm k).setLock (.forkMutex p) .valid) ∨
    ∃ newPd vm, k.vm.clonePagingInfo (k.task p).pdbr = (some newPd, vm) ∧ r = (k.task t).id.toInt ∧
      k' = (cloned p t newPd vm k).setLock (.forkMutex p) .valid := by
  unfold cloneTask at h
  split at h
  · rename_i vm hc
    rw [Option.map_eq_some_iff] at h
    obtain ⟨k₁, hun, h⟩ := h
    rw [Prod.mk.injEq] at h
    obtain ⟨rfl, rfl⟩ := h
    exact Or.inl ⟨vm, hc, rfl, mutexUnlock_some hun⟩
  · rename_i newPd vm hc
    rw [Option.map_eq_some_iff] at h
    obtain ⟨k₁, hun, h⟩ := h
    rw [Prod.mk.injEq] at h
    obtain ⟨hr, rfl⟩ := h
    have he := mutexUnlock_some hun
    refine Or.inr ⟨newPd, vm, hc, ?_, ?_⟩
    · rw [← hr, he]
      simp [runqAddThread, cloneKStack, setThread, setTask, setLock]
    · rw [he]
      simp [runqAddThread, cloneKStack, setThread, setTask, cloned, hpt]

theorem cloneTask_locked {r : Int} (hpt : p ≠ t) (hv : k.locks (.forkMutex p) = .valid)
    (h : cloneTask p t (k.setLock (.forkMutex p) .locked) = some (r, k')) :
    (∃ vm, k.vm.clonePagingInfo (k.task p).pdbr = (none, vm) ∧ r = ERR_FAILURE ∧ k' = uncloned t vm k) ∨
    ∃ newPd vm, k.vm.clonePagingInfo (k.task p).pdbr = (some newPd, vm) ∧ r = (k.task t).id.toInt ∧
      k' = cloned p t newPd vm k := by
  cases cloneTask_cases hpt h with
  | inl hc =>
    obtain ⟨vm, hc, hr, rfl⟩ := hc
    exact Or.inl ⟨vm, hc, hr, congrArg (uncloned t vm) (unlock_lock hv)⟩
  | inr hc =>
    obtain ⟨newPd, vm, hc, hr, rfl⟩ := hc
    exact Or.inr ⟨newPd, vm, hc, hr, congrArg (cloned p t newPd vm) (unlock_lock hv)⟩

theorem doFork_attached {r : Int} (h : k.doFork (some t) (some thr) = some (r, k')) (ht : t ≠ 0#32)
    (hpt : k.currTask ≠ t) :
    k.nextTid ≠ MAX_TID ∧ k.locks (.forkMutex k.currTask) = .valid ∧
      cloneTask k.currTask t ((attached k.currTask t thr k).setLock (.forkMutex k.currTask) .locked) = some
      (r, k') := by
  unfold doFork at h
  simp only [Option.bind_eq_bind, Option.bind_eq_some_iff] at h
  obtain ⟨k₁, hlock, ⟨o, k₂⟩, hcreate, h⟩ := h
  obtain ⟨hv, rfl⟩ := mutexLock_some hlock
  obtain ⟨hid, rfl, rfl⟩ := createTask_some ht hcreate
  refine ⟨hid, hv, ?_⟩
  rw [newTask_setLock (l := .forkMutex k.currTask) hpt] at h
  simp only [Option.bind_eq_some_iff] at h
  obtain ⟨k₃, hlock₂, k₄, hun₂, h⟩ := h
  obtain ⟨hv₂, rfl⟩ := mutexLock_some hlock₂
  have hk₄ : k₄ = (attached k.currTask t thr k).setLock (.forkMutex k.currTask) .locked := by
    rw [mutexUnlock_some hun₂]
    exact congrArg (withLinks (addToTail (.childTaskLink t) (.childTaskHead k.currTask))) (unlock_lock hv₂)
  rw [← hk₄]
  exact h

theorem doFork_some {r : Int} (h : k.doFork (some t) (some thr) = some (r, k')) (ht : t ≠ 0#32) (hpt : k.currTask ≠ t) :
    k.nextTid ≠ MAX_TID ∧
    ((∃ vm, k.vm.clonePagingInfo (k.task k.currTask).pdbr = (none, vm) ∧ r = ERR_FAILURE ∧
        k' = uncloned t vm (attached k.currTask t thr k)) ∨
      ∃ newPd vm, k.vm.clonePagingInfo (k.task k.currTask).pdbr = (some newPd, vm) ∧
        r = (k.nextTid + 1#32).toInt ∧ k' = cloned k.currTask t newPd vm (attached k.currTask t thr k)) := by
  obtain ⟨hid, hv, h⟩ := doFork_attached h ht hpt
  have hfork : (attached k.currTask t thr k).locks (.forkMutex k.currTask) = .valid := by
    simp only [attached, withLinks, newTask, initLocks, Lock.task, hpt, if_false, hv]
  have hpd : (attached k.currTask t thr k).task k.currTask = k.task k.currTask :=
    Function.update_of_ne hpt ..
  have hid' : ((attached k.currTask t thr k).task t).id = k.nextTid + 1#32 := by
    simp [attached, newTask, withLinks]
  have hcase := cloneTask_locked hpt hfork h
  rw [hpd, hid'] at hcase
  exact ⟨hid, hcase⟩

theorem doFork_returns (ht : t ≠ 0#32) (hpt : k.currTask ≠ t) (hid : k.nextTid ≠ MAX_TID)
    (hfork : k.locks (.forkMutex k.currTask) = .valid) (hvan : k.locks (.vanishMutex k.currTask) = .valid) :
    ∃ r k', k.doFork (some t) (some thr) = some (r, k') := by
  have hlocks : ∀ l : Lock, l.task = k.currTask → (newTask k.currTask t thr k).locks l = k.locks l := by
    intro l hl
    simp [newTask, initLocks, hl, hpt]
  unfold doFork
  simp only [Option.bind_eq_bind, mutexLock, hfork, if_true, Option.bind_some]
  rw [createTask_eq (k := k.setLock _ _) ht hid, newTask_setLock (l := .forkMutex k.currTask) hpt]
  have hvan' : ((newTask k.currTask t thr k).setLock (.forkMutex k.currTask) .locked).locks (.vanishMutex k.currTask) =
      .valid :=
    (hlocks (.vanishMutex k.currTask) rfl).trans hvan
  simp only [Option.bind_some, hvan', if_true]
  unfold cloneTask mutexUnlock
  simp only [setLock, withLinks, Function.update_self, reduceCtorEq, if_false, Option.bind_some]
  split <;> simp [threadFreeResources, setTask, cloneKStack, setThread, runqAddThread]

theorem doFork_eq (thr : Word) {newPd : Word} {vm : Vm} (ht : t ≠ 0#32) (hpt : k.currTask ≠ t)
    (hid : k.nextTid ≠ MAX_TID)
    (hfork : k.locks (.forkMutex k.currTask) = .valid) (hvan : k.locks (.vanishMutex k.currTask) = .valid)
    (hc : k.vm.clonePagingInfo (k.task k.currTask).pdbr = (some newPd, vm)) :
    k.doFork (some t) (some thr) =
      some ((k.nextTid + 1#32).toInt, cloned k.currTask t newPd vm (attached k.currTask t thr k)) := by
  obtain ⟨r, k', h⟩ := doFork_returns ht hpt hid hfork hvan
  rcases (doFork_some h ht hpt).2 with ⟨vm', hc', -⟩ | ⟨newPd', vm', hc', rfl, rfl⟩
  · rw [hc] at hc'
    cases hc'
  · rw [hc] at hc'
    cases hc'
    exact h

theorem doThreadFork_none {r : Int} (h : k.doThreadFork none = some (r, k')) : k' = k := by
  unfold doThreadFork at h
  rw [createThread_none] at h
  simp only [Option.bind_eq_bind, Option.bind_some, Option.pure_def, Option.some.injEq, Prod.mk.injEq] at h
  exact h.2.symm

theorem doThreadFork_some {r : Int} (h : k.doThreadFork (some thr) = some (r, k')) (ht : k.currTask ≠ 0#32) :
    k.nextTid ≠ MAX_TID ∧ r = (k.nextTid + 1#32).toInt ∧
      k' = ((newThread k.currTask thr k).cloneKStack thr k.currThread).runqAddThread thr := by
  unfold doThreadFork at h
  simp only [Option.bind_eq_bind, Option.bind_eq_some_iff] at h
  obtain ⟨⟨o, k₁⟩, hcreate, h⟩ := h
  obtain ⟨hid, rfl, rfl⟩ := createThread_some ht hcreate
  simp only [Option.pure_def, Option.some.injEq, Prod.mk.injEq] at h
  refine ⟨hid, ?_, h.2.symm⟩
  rw [← h.1]
  simp [runqAddThread, cloneKStack, setThread, newThread]

end

structure NoTrace (live : Finset Word) (k k' : Kernel) : Prop where
  children : ∀ l, IsRing k.links (.childTaskHead k.currTask) l → IsRing k'.links (.childTaskHead k.currTask) l
  threadList : ∀ l, IsRing k.links (.threadHead k.currTask) l → IsRing k'.links (.threadHead k.currTask) l
  threadMap : ∀ id, (∃ thr, getThreadFromId id k' = some (some thr)) ↔ ∃ thr, getThreadFromId id k = some (some thr)
  dir : k'.vm.kmem (k.task k.currTask).pdbr = k.vm.kmem (k.task k.currTask).pdbr
  entries : ∀ i j, k'.vm.entry (k.task k.currTask).pdbr i j = k.vm.entry (k.task k.currTask).pdbr i j
  counts : k'.vm.fr.frameRefCount = k.vm.fr.frameRefCount
  free : ∀ f, OnFreeList k'.vm.fr f ↔ OnFreeList k.vm.fr f
  allocated : ∀ h ∈ heads live, ∀ l, IsRing k'.links h l → ∀ n ∈ l, k'.Allocated n

section
variable {k k' : Kernel} {live : Finset Word} {ls : Node → List Node} {taskMem thrMem : Option Word} {r : Int}

structure Heap (k : Kernel) (taskMem thrMem : Option Word) : Prop where
  task : ∀ t, taskMem = some t → t ≠ 0#32 ∧ t ∉ k.tasks
  thread : ∀ thr, thrMem = some thr → thr ∉ k.threads

theorem findThread_congr {b : Node} {id : Word} (hthr : k'.thread = k.thread)
    (hnext : ∀ thr, k'.links.next (.threadMapLink thr) = k.links.next (.threadMapLink thr)) :
    ∀ n node, findThread k' b id n node = findThread k b id n node := by
  intro n
  induction n with
  | zero => intro node; cases node <;> simp [findThread]
  | succ n ih =>
    intro node
    cases node <;> simp [findThread, ih, hthr, hnext]

theorem getThreadFromId_congr (hthr : k'.thread = k.thread)
    (hnext : ∀ thr, k'.links.next (.threadMapLink thr) = k.links.next (.threadMapLink thr))
    (hhead : ∀ i, k'.links.next (.threadMap i) = k.links.next (.threadMap i)) (id : Word) :
    getThreadFromId id k' = getThreadFromId id k := by
  unfold getThreadFromId getFirst
  simp only [hhead, findThread_congr hthr hnext]

theorem noTrace_refl (hl : Lists k live ls) : NoTrace live k k where
  children _ := id
  threadList _ := id
  threadMap _ := Iff.rfl
  dir := rfl
  entries _ _ := rfl
  counts := rfl
  free _ := Iff.rfl
  allocated h hh l hr := by
    rw [hr.unique (hl.rings.ring h hh)]
    exact hl.allocated h hh

theorem blank_rings {t : Word} (hl : Lists k live ls) (ht : t ∉ k.tasks) :
    Rings (initHeads t k.links) (heads live) ls := by
  refine ⟨?_, hl.rings.apart⟩
  intro h hh
  refine (hl.rings.ring h hh).sameOff (initHeads_sameOff t k.links) ?_
  intro n hn hm
  simp only [taskHeads, List.mem_cons, List.not_mem_nil, or_false] at hm
  cases List.mem_cons.mp hn with
  | inl he =>
    subst he
    rcases hm with rfl | rfl | rfl | rfl <;> exact ht (hl.sub hh)
  | inr hn =>
    have ha := hl.allocated h hh n hn
    rcases hm with rfl | rfl | rfl | rfl <;> exact ha

theorem noTrace_blank {t : Word} (hl : Lists k live ls) (hp : k.currTask ∈ live) (ht : t ∉ k.tasks) :
    NoTrace live k { blankTask k.currTask t k with tasks := k.tasks } := by
  have hs := initHeads_sameOff t k.links
  have hring := (blank_rings hl ht).ring
  have hsame : ∀ h ∈ heads live, ∀ l, IsRing k.links h l → IsRing (initHeads t k.links) h l := by
    intro h hh l hr
    rw [hr.unique (hl.rings.ring h hh)]
    exact hring h hh
  have hmap : ∀ id, getThreadFromId id { blankTask k.currTask t k with tasks := k.tasks } = getThreadFromId id k :=
    getThreadFromId_congr rfl (fun thr => (hs _ (by simp [taskHeads])).1) fun i => (hs _ (by simp [taskHeads])).1
  exact {
    children := hsame (.childTaskHead k.currTask) hp
    threadList := hsame (.threadHead k.currTask) hp
    threadMap := fun id => by rw [hmap]
    dir := rfl
    entries := fun _ _ => rfl
    counts := rfl
    free := fun _ => Iff.rfl
    allocated := by
      intro h hh l hr n hn
      rw [hr.unique (hring h hh)] at hn
      have ha := hl.allocated h hh n hn
      cases n <;> exact ha }

/-- A failed fork leaves no trace exactly when `create_task` failed. -/
theorem failed_fork_no_trace_iff (hl : Lists k live ls) (hp : k.currTask ∈ live) (hid : k.nextTid.toNat < 2 ^ 31)
    (hheap : Heap k taskMem thrMem) (h : k.doFork taskMem thrMem = some (r, k')) (_ : r < 0) :
    NoTrace live k k' ↔ taskMem = none ∨ thrMem = none := by
  constructor
  · intro hno
    by_contra hmem
    rw [not_or, ← ne_eq, Option.ne_none_iff_exists', ← ne_eq, Option.ne_none_iff_exists'] at hmem
    obtain ⟨⟨t, rfl⟩, thr, rfl⟩ := hmem
    obtain ⟨ht0, ht⟩ := hheap.task t rfl
    have hpt : k.currTask ≠ t := fun e => ht (e ▸ hl.sub hp)
    obtain ⟨hmax, hcase⟩ := doFork_some h ht0 hpt
    have hlinks : k'.links = (attached k.currTask t thr k).links := by
      rcases hcase with ⟨vm, -, -, rfl⟩ | ⟨newPd, vm, -, -, rfl⟩ <;> rfl
    have hsucc := tid_succ hid hmax
    -- the child is at the end of the list of its parent
    have hrings := fork_rings hl hp ht (hheap.thread thr rfl) (by omega)
    have hnew := hrings.ring (.childTaskHead k.currTask) (by simp [hp])
    have hold := hno.children _ (hl.rings.ring (.childTaskHead k.currTask) hp)
    rw [hlinks] at hold
    have he := hold.unique hnew
    simp [forkLists] at he
  · intro hnone
    rcases doFork_none h hnone (hl.sub hp) (fun t ht => (hheap.task t ht).2) with rfl | ⟨t, ht, rfl⟩
    · exact noTrace_refl hl
    · exact noTrace_blank hl hp (hheap.task t ht).2

end

def lastPage : Kernel := loneKernel { Vm.mappedVm with avail := [0x7000#32] } 0x5000#32

theorem doFork_lastPage (taskMem thrMem : Option Word) (r : Int)
    (h : (lastPage.doFork taskMem thrMem).map Prod.fst = some r) :
    ∃ k', lastPage.doFork taskMem thrMem = some (r, k') := by
  obtain ⟨⟨r, k'⟩, hx, rfl⟩ := Option.map_eq_some_iff.mp h
  exact ⟨k', hx⟩

theorem failed_fork_no_trace_thread : ∃ k', lastPage.doFork (some 0x300#32) none = some (ERR_NOMEM, k') ∧
    NoTrace {0x100#32} lastPage k' := by
  obtain ⟨k', h⟩ := doFork_lastPage (some 0x300#32) none ERR_NOMEM (by decide +kernel)
  have hheap : Heap lastPage (some 0x300#32) none :=
    ⟨by rintro t ⟨⟩; decide +kernel, by rintro thr ⟨⟩⟩
  exact ⟨k', h, (failed_fork_no_trace_iff (loneKernel_lists _ _) (by decide +kernel) (by decide +kernel) hheap h
    (by decide)).mpr (Or.inr rfl)⟩

/-- The page tables of the parent cannot be cloned: the child stays in the list
of its parent and its thread in the thread map, and both are freed. -/
theorem failed_fork_keeps_child : ∃ k', lastPage.doFork (some 0x300#32) (some 0x400#32) = some (ERR_FAILURE, k') ∧
    lastPage.links.next (.childTaskHead 0x100#32) = .childTaskHead 0x100#32 ∧
    k'.links.next (.childTaskHead 0x100#32) = .childTaskLink 0x300#32 ∧ 0x300#32 ∉ k'.tasks ∧
    getThreadFromId 2#32 lastPage = some none ∧ getThreadFromId 2#32 k' = some (some 0x400#32) ∧
      0x400#32 ∉ k'.threads := by
  obtain ⟨k', hx⟩ := doFork_lastPage (some 0x300#32) (some 0x400#32) ERR_FAILURE (by decide +kernel)
  have hchild : (lastPage.doFork (some 0x300#32) (some 0x400#32)).map
      (fun x => (x.2.links.next (.childTaskHead 0x100#32), decide (0x300#32 ∈ x.2.tasks))) =
        some (.childTaskLink 0x300#32, false) := by decide +kernel
  have hthr : (lastPage.doFork (some 0x300#32) (some 0x400#32)).map
      (fun x => (getThreadFromId 2#32 x.2, decide (0x400#32 ∈ x.2.threads))) =
        some (some (some 0x400#32), false) := by decide +kernel
  simp only [hx, Option.map_some, Option.some.injEq, Prod.mk.injEq, decide_eq_false_iff_not] at hchild hthr
  exact ⟨k', hx, by decide +kernel, hchild.1, hchild.2, by decide +kernel, hthr.1, hthr.2⟩

end Kernel

end Pebbles
