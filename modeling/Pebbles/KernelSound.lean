import Pebbles.Kernel

/-!
# The lists of tasks and threads

The heads of the tasks that have not vanished and of the thread map form a
family of rings. Creating a task or a thread adds its heads and puts its links
at the end of their lists.
-/

namespace Pebbles

open Words Ring

namespace Kernel

/-! ## Mutexes -/

section
variable {k k' : Kernel} {l l' : Lock} {m m' : Mutex}

theorem mutexLock_some (h : k.mutexLock l = some k') : k.locks l = .valid ∧ k' = k.setLock l .locked := by
  unfold mutexLock at h
  split at h
  · rename_i hv
    rw [Option.some.injEq] at h
    exact ⟨hv, h.symm⟩
  · cases h

theorem mutexUnlock_some (h : k.mutexUnlock l = some k') : k' = k.setLock l .valid := by
  unfold mutexUnlock at h
  split at h
  · cases h
  · rw [Option.some.injEq] at h
    exact h.symm

theorem setLock_setLock : (k.setLock l m).setLock l m' = k.setLock l m' := by
  simp [setLock]

theorem setLock_self (h : k.locks l = m) : k.setLock l m = k := by
  subst h
  simp [setLock]

theorem unlock_lock (hv : k.locks l = .valid) : (k.setLock l .locked).setLock l .valid = k := by
  rw [setLock_setLock, setLock_self hv]

end

/-! ## Heads and links -/

def IsHead (live : Finset Word) : Node → Prop
  | .childTaskHead t => t ∈ live
  | .deadChildHead t => t ∈ live
  | .threadHead t => t ∈ live
  | .exitCondVar t => t ∈ live
  | .threadMap i => 0 ≤ i ∧ i < HASHMAP_SIZE
  | _ => False

def heads (live : Finset Word) : Set Node := { n | IsHead live n }

def Allocated (k : Kernel) : Node → Prop
  | .childTaskLink t => t ∈ k.tasks
  | .deadChildLink t => t ∈ k.tasks
  | .taskThreadLink thr => thr ∈ k.threads
  | .threadMapLink thr => thr ∈ k.threads
  | .condWaitLink thr => thr ∈ k.threads
  | _ => False

structure Lists (k : Kernel) (live : Finset Word) (ls : Node → List Node) : Prop where
  rings : Rings k.links (heads live) ls
  sub : live ⊆ k.tasks
  allocated : ∀ h ∈ heads live, ∀ n ∈ ls h, k.Allocated n

section
variable {k k' : Kernel} {live : Finset Word} {ls : Node → List Node} {t thr : Word} {i : Int}

@[simp] theorem childTaskHead_mem : .childTaskHead t ∈ heads live ↔ t ∈ live := Iff.rfl

@[simp] theorem deadChildHead_mem : .deadChildHead t ∈ heads live ↔ t ∈ live := Iff.rfl

@[simp] theorem threadHead_mem : .threadHead t ∈ heads live ↔ t ∈ live := Iff.rfl

@[simp] theorem exitCondVar_mem : .exitCondVar t ∈ heads live ↔ t ∈ live := Iff.rfl

@[simp] theorem threadMap_mem : .threadMap i ∈ heads live ↔ 0 ≤ i ∧ i < HASHMAP_SIZE := Iff.rfl

@[simp] theorem childTaskLink_notMem : .childTaskLink t ∉ heads live := id

@[simp] theorem deadChildLink_notMem : .deadChildLink t ∉ heads live := id

@[simp] theorem taskThreadLink_notMem : .taskThreadLink thr ∉ heads live := id

@[simp] theorem threadMapLink_notMem : .threadMapLink thr ∉ heads live := id

@[simp] theorem condWaitLink_notMem : .condWaitLink thr ∉ heads live := id

theorem heads_insert : heads (insert t live) =
    insert (.exitCondVar t) (insert (.deadChildHead t) (insert (.childTaskHead t) (insert (.threadHead t) (heads live)))) := by
  ext n
  cases n <;> simp

def emptyLists (t : Word) (ls : Node → List Node) : Node → List Node :=
  Function.update (Function.update (Function.update (Function.update ls (.threadHead t) []) (.childTaskHead t) [])
    (.deadChildHead t) []) (.exitCondVar t) []

def taskHeads (t : Word) : List Node := [.threadHead t, .childTaskHead t, .deadChildHead t, .exitCondVar t]

theorem Lists.head_notMem (hl : Lists k live ls) {h n : Node} (hh : h ∈ heads live) (hn : ¬ k.Allocated n) : n ∉ ls h :=
  fun hm => hn (hl.allocated h hh n hm)

def initHeads (t : Word) (L : Links Node) : Links Node :=
  initHead (.exitCondVar t) (initHead (.deadChildHead t) (initHead (.childTaskHead t) (initHead (.threadHead t) L)))

theorem initHeads_rings {L : Links Node} (hr : Rings L (heads live) ls)
    (hn : ∀ h ∈ heads live, ∀ n ∈ taskHeads t, n ∉ ls h) :
    Rings (initHeads t L) (heads (insert t live)) (emptyLists t ls) := by
  rw [heads_insert]
  have h₁ := initHead_rings hr (h := .threadHead t) fun h hh => hn h hh _ (by simp [taskHeads])
  have h₂ := initHead_rings h₁ (h := .childTaskHead t) ?_
  have h₃ := initHead_rings h₂ (h := .deadChildHead t) ?_
  have h₄ := initHead_rings h₃ (h := .exitCondVar t) ?_
  · exact h₄
  all_goals
    intro h hh
    simp only [Function.update_apply]
    split_ifs <;> try exact List.not_mem_nil
    simp only [Set.mem_insert_iff, *, false_or] at hh
    exact hn h hh _ (by simp [taskHeads])

theorem initHeads_sameOff (t : Word) (L : Links Node) : SameOff (taskHeads t) L (initHeads t L) := by
  have hstep : ∀ n ∈ taskHeads t, ∀ L : Links Node, SameOff (taskHeads t) L (initHead n L) := fun n hn L =>
    (initHead_sameOff n L).mono (by simpa using hn)
  have h₁ := hstep (.threadHead t) (by simp [taskHeads])
  have h₂ := hstep (.childTaskHead t) (by simp [taskHeads])
  have h₃ := hstep (.deadChildHead t) (by simp [taskHeads])
  have h₄ := hstep (.exitCondVar t) (by simp [taskHeads])
  exact (((h₁ L).trans (h₂ _)).trans (h₃ _)).trans (h₄ _)

def initLocks (t : Word) (locks : Lock → Mutex) (l : Lock) : Mutex := if l.task = t then .valid else locks l

theorem initTaskStructures_eq (t : Word) (k : Kernel) :
    k.initTaskStructures t = { k with
      links := initHeads t k.links
      locks := initLocks t k.locks
      task := Function.update k.task t { k.task t with eip := 0#32, swexnArgs := 0#32 } } := by
  have hlocks : initLocks t k.locks = Function.update (Function.update (Function.update (Function.update (Function.update
      k.locks (.childListMutex t) .valid) (.threadListMutex t) .valid) (.vanishMutex t) .valid) (.forkMutex t) .valid)
      (.execMutex t) .valid := by
    funext l
    cases l <;> rename_i x <;> by_cases h : x = t <;> simp [initLocks, Lock.task, h]
  rw [hlocks]
  simp only [initTaskStructures, withLinks, mutexInit, setLock, setTask, initHeads]

/-! ## New threads and tasks -/

theorem tid_succ {a : Word} (h : a.toNat < 2 ^ 31) (hne : a ≠ MAX_TID) :
    (a + 1#32).toNat = a.toNat + 1 ∧ a.toNat + 1 < 2 ^ 31 := by
  have : a.toNat ≠ MAX_TID.toNat := fun e => hne (BitVec.eq_of_toNat_eq e)
  have hm : MAX_TID.toNat = 2 ^ 31 - 1 := by decide
  rw [BitVec.toNat_add]
  simp only [BitVec.toNat_ofNat]
  omega

theorem mapIndex_range {a : Word} (h : a.toNat < 2 ^ 31) : 0 ≤ mapIndex a ∧ mapIndex a < HASHMAP_SIZE := by
  have hi : a.toInt = a.toNat := BitVec.toInt_eq_toNat_of_lt (by omega)
  have hs : HASHMAP_SIZE = 8192 := by decide
  unfold mapIndex
  rw [hi, hs, Int.tmod_eq_emod_of_nonneg (by omega)]
  omega

def newThread (task thr : Word) (k : Kernel) : Kernel :=
  let kStackBase := thr + 8#32 + BitVec.ofNat 32 KERNEL_STACK_SIZE
  { k with
    threads := insert thr k.threads
    nextTid := k.nextTid + 1#32
    thread := Function.update k.thread thr { k.thread thr with
      id := k.nextTid + 1#32, parentTask := task, kStackBase := kStackBase, curEsp := kStackBase, curEbp := kStackBase
      status := .runnable }
    links := addToTail (.threadMapLink thr) (.threadMap (mapIndex (k.nextTid + 1#32)))
      (addToTail (.taskThreadLink thr) (.threadHead task) k.links) }

theorem createThread_eq (ht : t ≠ 0#32) (hid : k.nextTid ≠ MAX_TID) :
    createThread t (some thr) k = some (some thr, newThread t thr k) := by
  unfold createThread newThread
  rw [if_neg ht]
  simp only [if_neg hid, setThread, addThreadToMap, withLinks, Function.update_self, Function.update_idem]

theorem createThread_some {o : Option Word} (ht : t ≠ 0#32) (h : createThread t (some thr) k = some (o, k')) :
    k.nextTid ≠ MAX_TID ∧ o = some thr ∧ k' = newThread t thr k := by
  by_cases hid : k.nextTid = MAX_TID
  · -- the increment of `next_tid` overflows
    unfold createThread at h
    rw [if_neg ht] at h
    dsimp only at h
    rw [if_pos hid] at h
    cases h
  · rw [createThread_eq ht hid, Option.some.injEq, Prod.mk.injEq] at h
    exact ⟨hid, h.1.symm, h.2.symm⟩

theorem createThread_none (t : Word) (k : Kernel) : createThread t none k = some (none, k) := by
  unfold createThread
  split <;> rfl

def threadLists (task thr : Word) (i : Int) (ls : Node → List Node) : Node → List Node :=
  Function.update (Function.update ls (.threadHead task) (ls (.threadHead task) ++ [.taskThreadLink thr]))
    (.threadMap i) (ls (.threadMap i) ++ [.threadMapLink thr])

theorem newThread_rings (thr : Word) (hr : Rings k.links (heads live) ls) (ht : t ∈ live)
    (hid : (k.nextTid + 1#32).toNat < 2 ^ 31)
    (h₁ : ∀ h ∈ heads live, .taskThreadLink thr ∉ ls h) (h₂ : ∀ h ∈ heads live, .threadMapLink thr ∉ ls h) :
    Rings (newThread t thr k).links (heads live) (threadLists t thr (mapIndex (k.nextTid + 1#32)) ls) := by
  have hr₁ := addToTail_rings hr (h := .threadHead t) (n := .taskThreadLink thr) ht (by simp) h₁
  have hr₂ := addToTail_rings hr₁ (h := .threadMap (mapIndex (k.nextTid + 1#32))) (n := .threadMapLink thr)
    (mapIndex_range hid) (by simp) ?_
  · exact hr₂
  · intro h hh
    rw [Function.update_apply]
    split_ifs
    · simpa using h₂ _ ht
    · exact h₂ h hh

def blankTask (parent t : Word) (k : Kernel) : Kernel :=
  { k with
    tasks := insert t k.tasks
    links := initHeads t k.links
    locks := initLocks t k.locks
    task := Function.update k.task t { k.task t with parent := parent, eip := 0#32, swexnArgs := 0#32 } }

def newTask (parent t thr : Word) (k : Kernel) : Kernel :=
  { newThread t thr { k with links := initHeads t k.links } with
    tasks := insert t k.tasks
    locks := initLocks t k.locks
    task := Function.update k.task t { k.task t with
      id := k.nextTid + 1#32, thr := thr, parent := parent, eip := 0#32, swexnArgs := 0#32 } }

theorem createTask_blank (parent t : Word) (thrMem : Option Word) (k : Kernel) :
    createTask parent (some t) thrMem k =
      match createThread t thrMem (blankTask parent t k) with
      | none => none
      | some (none, k) => some (none, { k with tasks := k.tasks.erase t })
      | some (some thr, k) => some (some t, k.setTask t fun s => { s with thr := thr, id := (k.thread thr).id }) := by
  unfold createTask
  dsimp only
  rw [initTaskStructures_eq]
  simp only [setTask, Function.update_self, Function.update_idem]
  rfl

theorem createTask_eq {parent : Word} (ht : t ≠ 0#32) (hid : k.nextTid ≠ MAX_TID) :
    createTask parent (some t) (some thr) k = some (some t, newTask parent t thr k) := by
  rw [createTask_blank, createThread_eq (k := blankTask parent t k) ht hid]
  simp only [setTask, newThread, newTask, blankTask, Function.update_self, Function.update_idem]

theorem createTask_some {parent : Word} {o : Option Word} (ht : t ≠ 0#32)
    (h : createTask parent (some t) (some thr) k = some (o, k')) :
    k.nextTid ≠ MAX_TID ∧ o = some t ∧ k' = newTask parent t thr k := by
  have hid : k.nextTid ≠ MAX_TID := by
    rw [createTask_blank] at h
    cases hc : createThread t (some thr) (blankTask parent t k) with
    | none =>
      rw [hc] at h
      cases h
    | some x => exact (createThread_some (k := blankTask parent t k) ht hc).1
  rw [createTask_eq ht hid, Option.some.injEq, Prod.mk.injEq] at h
  exact ⟨hid, h.1.symm, h.2.symm⟩

theorem createTask_none {parent : Word} {o : Option Word} (ht : t ∉ k.tasks)
    (h : createTask parent (some t) none k = some (o, k')) :
    o = none ∧ k' = { blankTask parent t k with tasks := k.tasks } := by
  rw [createTask_blank, createThread_none] at h
  simp only [Option.some.injEq, Prod.mk.injEq] at h
  obtain ⟨rfl, rfl⟩ := h
  refine ⟨rfl, ?_⟩
  simp only [blankTask, Finset.erase_insert ht]

def taskLists (t thr : Word) (i : Int) (ls : Node → List Node) : Node → List Node :=
  threadLists t thr i (emptyLists t ls)

theorem newTask_rings (parent : Word) (hl : Lists k live ls) (ht : t ∉ k.tasks) (hthr : thr ∉ k.threads)
    (hid : (k.nextTid + 1#32).toNat < 2 ^ 31) :
    Rings (newTask parent t thr k).links (heads (insert t live))
    (taskLists t thr (mapIndex (k.nextTid + 1#32)) ls) := by
  have htl : t ∉ live := fun hm => ht (hl.sub hm)
  have h₁ : Rings (initHeads t k.links) (heads (insert t live)) (emptyLists t ls) := initHeads_rings hl.rings ?_
  · refine newThread_rings thr (k := { k with links := initHeads t k.links }) h₁ (Finset.mem_insert_self t live) hid ?_ ?_
    all_goals
      intro h hh
      simp only [emptyLists, Function.update_apply]
      split_ifs <;> try exact List.not_mem_nil
      rw [heads_insert] at hh
      simp only [Set.mem_insert_iff, *, false_or] at hh
      exact hl.head_notMem hh hthr
  · intro h hh n hn
    simp only [taskHeads, List.mem_cons, List.not_mem_nil, or_false] at hn
    exact hl.head_notMem hh (by rcases hn with rfl | rfl | rfl | rfl <;> exact id)

end

/-! ## A kernel with one task -/

def loneKernel (vm : Vm) (pdbr : Word) : Kernel where
  vm := vm
  task _ := ⟨1#32, pdbr, 0x200#32, 0#32, 0#32, 0#32, 0#32, 0#32⟩
  tasks := {0x100#32}
  thread _ := ⟨1#32, 0x100#32, fun _ => 0#32, 0#32, 0#32, 0#32, .running⟩
  threads := {0x200#32}
  links := addToTail (.threadMapLink 0x200#32) (.threadMap 1) (addToTail (.taskThreadLink 0x200#32) (.threadHead 0x100#32) ⟨id, id⟩)
  locks _ := .valid
  runq := []
  nextTid := 1#32
  currThread := 0x200#32
  initTask := 0x100#32
  idleTask := 0x100#32
  kernelPd := 0#32
  iretFun := 0#32

theorem rings_id (live : Finset Word) : Rings (⟨id, id⟩ : Links Node) (heads live) fun _ => [] where
  ring _ _ := isRing_nil.mpr ⟨rfl, rfl⟩
  apart _ _ _ _ := List.not_mem_nil

theorem loneKernel_lists (vm : Vm) (pdbr : Word) :
    Lists (loneKernel vm pdbr) {0x100#32} (threadLists 0x100#32 0x200#32 1 fun _ => []) where
  rings := by
    have hr thr := newThread_rings thr (k := { loneKernel vm pdbr with links := ⟨id, id⟩, nextTid := 0#32 })
      (t := 0x100#32) (rings_id {0x100#32}) (by simp) (by simp) (by simp) (by simp)
    exact hr 0x200#32
  sub := by simp [loneKernel]
  allocated := by
    intro h _ n hn
    simp only [threadLists, Function.update_apply] at hn
    split_ifs at hn <;> simp_all [Allocated, loneKernel]

end Kernel

end Pebbles
