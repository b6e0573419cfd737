import Pebbles.Exec
import Pebbles.LifeSound
import Pebbles.Lib.Runs

/-!
# The first thread of a task

`thr` of a task is set when the task is created, and `do_fork` and `load_task` use the
stack of that thread. The thread can vanish before the others of its task.

A fork that fails leaves links to freed structures, so of the other lists only a set of
nodes is known that their pointers stay in.
-/

namespace Pebbles

open Words Ring Runs Kernel

def Node.ofThreads : Node → Prop
  | .threadHead _ | .taskThreadLink _ => True
  | _ => False

namespace Kernel

def Alone (k : Kernel) : Prop := ∀ y ∈ k.threads, (k.thread y).parentTask = k.currTask → y = k.currThread

/-- The calling thread is not the first of its task, or it is the only one left; the last
threads of `init` and of the idle task stay. -/
def Careful (k : Kernel) : Prop :=
  (k.currThread ≠ (k.task k.currTask).thr ∨ k.Alone) ∧ (k.Alone → k.currTask ≠ k.initTask ∧ k.currTask ≠ k.idleTask)

/-- A switch to a thread, or a call of the current one. `do_vanish` is called only where
it is `ok`. -/
inductive CallStep (ok : Kernel → Prop) : Kernel → Kernel → Prop
  | switch {k thr} : thr ∈ k.threads → CallStep ok k (k.switchToThread thr)
  | fork {k taskMem thrMem r k'} : k.currThread ∈ k.threads → Heap k taskMem thrMem →
      k.doFork taskMem thrMem = some (r, k') → CallStep ok k k'
  | threadFork {k thrMem r k'} : k.currThread ∈ k.threads → Heap k none thrMem →
      k.doThreadFork thrMem = some (r, k') → CallStep ok k k'
  | exec {k toc heap eflags argPacket r k'} : k.currThread ∈ k.threads →
      k.doExec toc heap eflags argPacket = some (r, k') → CallStep ok k k'
  | vanish {k k'} : k.currThread ∈ k.threads → ok k → k.doVanish = some k' → CallStep ok k k'

def Started (k : Kernel) : Prop :=
  ∃ k₀ k₁ k₂ initThr idleThr, k₀.tasks = ∅ ∧ k₀.threads = ∅ ∧ k₀.nextTid = 0#32 ∧
    (∀ i, 0 ≤ i → i < HASHMAP_SIZE → IsRing k₀.links (.threadMap i) []) ∧
    Heap k₀ (some k.initTask) (some initThr) ∧
    k₀.createTask 0#32 (some k.initTask) (some initThr) = some (some k.initTask, k₁) ∧
    Heap k₁ (some k.idleTask) (some idleThr) ∧
    k₁.createTask 0#32 (some k.idleTask) (some idleThr) = some (some k.idleTask, k₂) ∧
    k.view = { k₂.view with initTask := k.initTask, idleTask := k.idleTask } ∧
    ∀ t, (k.task t).thr = (k₂.task t).thr

def FirstLive (k : Kernel) : Prop :=
  ∀ t ∈ k.tasks, ∃ l, IsRing k.links (.threadHead t) (l.map .taskThreadLink) ∧
    (∀ y, y ∈ l ↔ y ∈ k.threads ∧ (k.thread y).parentTask = t) ∧ (l ≠ [] → (k.task t).thr ∈ l)

end Kernel

/-! ## Changes beside the lists of threads -/

structure Beside (S : Set Node) (k k' : Kernel) : Prop where
  links : Within S k.links k'.links
  tasks : k'.tasks = k.tasks
  threads : k'.threads = k.threads
  thr : ∀ t, (k'.task t).thr = (k.task t).thr
  handler : ∀ t, (k'.task t).handler = (k.task t).handler
  parent : ∀ t, (k'.task t).parent = (k.task t).parent ∨ (k'.task t).parent = k.initTask
  owner : ∀ y, (k'.thread y).parentTask = (k.thread y).parentTask
  id : ∀ y, (k'.thread y).id = (k.thread y).id
  nextTid : k'.nextTid = k.nextTid
  initTask : k'.initTask = k.initTask
  idleTask : k'.idleTask = k.idleTask

section
variable {S T : Set Node} {k k' k'' : Kernel} {t thr : Word} {l : Lock} {n h : Node}

theorem Beside.refl (hc : Closed S k.links) : Beside S k k :=
  ⟨.refl hc, rfl, rfl, fun _ => rfl, fun _ => rfl, fun _ => .inl rfl, fun _ => rfl, fun _ => rfl, rfl, rfl, rfl⟩

theorem Beside.setLock {m : Mutex} (hb : Beside S k k') : Beside S k (k'.setLock l m) :=
  ⟨hb.links, hb.tasks, hb.threads, hb.thr, hb.handler, hb.parent, hb.owner, hb.id, hb.nextTid, hb.initTask, hb.idleTask⟩

theorem Beside.mutexLock (hb : Beside S k k') (hl : k'.mutexLock l = some k'') : Beside S k k'' := by
  rw [(mutexLock_some hl).2]
  exact hb.setLock

theorem Beside.mutexUnlock (hb : Beside S k k') (hl : k'.mutexUnlock l = some k'') : Beside S k k'' := by
  rw [mutexUnlock_some hl]
  exact hb.setLock

theorem Beside.withVm (vm : Vm) (hb : Beside S k k') : Beside S k { k' with vm := vm } :=
  ⟨hb.links, hb.tasks, hb.threads, hb.thr, hb.handler, hb.parent, hb.owner, hb.id, hb.nextTid, hb.initTask, hb.idleTask⟩

theorem Beside.withLinks {f : Links Node → Links Node} (hb : Beside S k k') (hw : Within T k'.links (f k'.links))
    (hst : S ⊆ T) :
    Beside T k (k'.withLinks f) :=
  ⟨hb.links.trans hw hst, hb.tasks, hb.threads, hb.thr, hb.handler, hb.parent, hb.owner, hb.id, hb.nextTid, hb.initTask,
    hb.idleTask⟩

theorem Beside.setThread {g : Thread → Thread} (hb : Beside S k k') (howner : ∀ s, (g s).parentTask = s.parentTask)
    (hid : ∀ s, (g s).id = s.id) : Beside S k (k'.setThread thr g) := by
  refine ⟨hb.links, hb.tasks, hb.threads, hb.thr, hb.handler, hb.parent, fun y => ?_, fun y => ?_, hb.nextTid, hb.initTask, hb.idleTask⟩
  · rw [← hb.owner y]
    by_cases e : y = thr <;> simp [Kernel.setThread, e, howner]
  · rw [← hb.id y]
    by_cases e : y = thr <;> simp [Kernel.setThread, e, hid]

theorem Beside.setTask {g : Task → Task} (hb : Beside S k k') (hthr : ∀ s, (g s).thr = s.thr)
    (hhandler : ∀ s, (g s).handler = s.handler)
    (hparent : ∀ s, (g s).parent = s.parent ∨ (g s).parent = k.initTask) : Beside S k (k'.setTask t g) := by
  refine ⟨hb.links, hb.tasks, hb.threads, fun y => ?_, fun y => ?_, fun y => ?_, hb.owner, hb.id, hb.nextTid, hb.initTask, hb.idleTask⟩
  · rw [← hb.thr y]
    by_cases e : y = t <;> simp [Kernel.setTask, e, hthr]
  · rw [← hb.handler y]
    by_cases e : y = t <;> simp [Kernel.setTask, e, hhandler]
  · by_cases e : y = t
    · rcases hparent (k'.task t) with h | h
      · simpa [Kernel.setTask, e, h] using hb.parent t
      · simp [Kernel.setTask, e, h]
    · simpa [Kernel.setTask, e] using hb.parent y

/-! ### Parts of do_vanish -/

theorem findThread_mem {id : Word} (hc : Closed S k.links) : ∀ m node, node ∈ S →
    findThread k h id m node = some (some thr) → .threadMapLink thr ∈ S := by
  intro m
  induction m with
  | zero =>
    intro node _ hf
    unfold findThread at hf
    split at hf
    · cases hf
    · cases node <;> cases hf
  | succ m ih =>
    intro node hn hf
    cases node with
    | threadMapLink y =>
      simp only [findThread] at hf
      split at hf
      · cases hf
      · split at hf
        · cases hf
          exact hn
        · exact ih _ (hc _ hn).1 hf
    | childTaskHead | childTaskLink | deadChildHead | deadChildLink | threadHead | taskThreadLink | threadMap | exitCondVar |
      condWaitLink =>
      simp only [findThread] at hf
      split at hf <;> cases hf

theorem Beside.removeThreadFromMap {id : Word} (hb : Beside S k k') (hm : .threadMap (mapIndex id) ∈ S)
    (hr : k'.removeThreadFromMap id = some k'') : Beside S k k'' := by
  unfold Kernel.removeThreadFromMap at hr
  split at hr
  · cases hr
  · cases hr
    exact hb
  · rename_i y hy
    cases hr
    refine hb.withLinks (delEntry_within hb.links.closed ?_) le_rfl
    unfold getThreadFromId at hy
    dsimp only at hy
    split at hy
    · cases hy
    · rename_i node hn
      exact findThread_mem hb.links.closed _ _ (getFirst_mem hb.links.closed hm hn) hy

theorem Beside.reparentToInit (hb : Beside S k k') (hh : h ∈ S) (hr : k'.reparentToInit h = some k'') :
    Beside S k k'' := by
  unfold Kernel.reparentToInit at hr
  split at hr
  · cases hr
    exact hb
  · rename_i node hn
    refine forEach_closed Kernel.links (P := fun x => Beside S k x) (fun x hx => hx.links.closed) ?_ _ _ _ _
      (getFirst_mem hb.links.closed hh hn) hb hr
    intro node x x' _ hx he
    obtain ⟨c, -, rfl⟩ := Option.map_eq_some_iff.mp he
    exact hx.setTask (fun _ => rfl) (fun _ => rfl) fun _ => .inr hx.initTask

structure HasLists (S : Set Node) (t : Word) : Prop where
  alive : .childTaskHead t ∈ S
  dead : .deadChildHead t ∈ S
  waiting : .exitCondVar t ∈ S

theorem Beside.giveChildren (hb : Beside S k k') (ht : HasLists S t) (hi : HasLists S k.initTask)
    (hg : k'.giveChildren t = some k'') : Beside S k k'' := by
  unfold Kernel.giveChildren at hg
  simp only [Option.bind_eq_bind, Option.bind_eq_some_iff] at hg
  obtain ⟨k₁, h₁, k₂, h₂, k₃, h₃, k₄, h₄, k₅, h₅, hg⟩ := hg
  have b₁ := hb.mutexLock h₁
  have b₂ := b₁.reparentToInit ht.alive h₂
  have b₃ := b₂.reparentToInit ht.dead h₃
  have b₄ := b₃.mutexLock h₄
  have b₅ := b₄.withLinks (concatLists_within b₄.links.closed (b₄.initTask ▸ hi.alive) ht.alive) le_rfl
  have b₆ := b₅.withLinks (concatLists_within b₅.links.closed (b₅.initTask ▸ hi.dead) ht.dead) le_rfl
  exact (b₆.mutexUnlock h₅).mutexUnlock hg

theorem Beside.wakeLink (hb : Beside S k k') (hn : n ∈ S) (hw : Kernel.wakeLink n k' = some k'') : Beside S k k'' := by
  cases n with
  | condWaitLink thr =>
    cases hw
    have b₁ : Beside S k (k'.setThread thr fun s => { s with status := .runnable }) := hb.setThread (fun _ => rfl) fun _ => rfl
    have b₂ : Beside S k ((k'.setThread thr fun s => { s with status := .runnable }).runqAddThread thr) :=
      ⟨b₁.links, b₁.tasks, b₁.threads, b₁.thr, b₁.handler, b₁.parent, b₁.owner, b₁.id, b₁.nextTid, b₁.initTask, b₁.idleTask⟩
    exact b₂.withLinks (delEntry_within b₂.links.closed hn) le_rfl
  | childTaskHead | childTaskLink | deadChildHead | deadChildLink | threadHead | taskThreadLink | threadMap | threadMapLink |
    exitCondVar => cases hw

theorem Beside.condSignal (hb : Beside S k k') (hq : .exitCondVar t ∈ S) (hs : k'.condSignal t = some k'') :
    Beside S k k'' := by
  unfold Kernel.condSignal at hs
  split at hs
  · cases hs
    exact hb
  · rename_i node hn
    exact hb.wakeLink (getFirst_mem hb.links.closed hq hn) hs

theorem Beside.condBroadcast (hb : Beside S k k') (hq : .exitCondVar t ∈ S) (hs : k'.condBroadcast t = some k'') :
    Beside S k k'' := by
  unfold Kernel.condBroadcast at hs
  split at hs
  · cases hs
    exact hb
  · rename_i node hn
    exact forEach_closed Kernel.links (P := fun x => Beside S k x) (fun x hx => hx.links.closed)
      (fun node x x' hm hx hw => hx.wakeLink hm hw) _ _ _ _ (getFirst_mem hb.links.closed hq hn) hb hs

theorem Beside.reportExit (hb : Beside S k k') (hc : .childTaskLink t ∈ S) (hp : HasLists S (k'.task t).parent)
    (hr : k'.reportExit t = some k'') : Beside (insert (.deadChildLink t) S) k k'' := by
  unfold Kernel.reportExit at hr
  dsimp only at hr
  have b₁ := hb.withLinks (delEntry_within hb.links.closed hc) le_rfl
  have b₂ := b₁.withLinks (addToTail_within (n := .deadChildLink t) b₁.links.closed hp.dead) (Set.subset_insert _ S)
  split at hr
  · exact b₂.condBroadcast (.inr hp.waiting) hr
  · exact b₂.condSignal (.inr hp.waiting) hr

end

/-! ## The lists of threads -/

structure Shape where
  roots : Finset Word
  threads : Finset Word
  nodes : Set Node
  lists : Word → List Word

structure Threaded (k : Kernel) (g : Shape) : Prop where
  closed : Closed g.nodes k.links
  apart : ∀ n ∈ g.nodes, ¬ n.ofThreads
  map : ∀ i, 0 ≤ i → i < HASHMAP_SIZE → .threadMap i ∈ g.nodes
  heads : ∀ t ∈ k.tasks, HasLists g.nodes t
  child : ∀ t ∈ k.tasks, t ∉ g.roots → .childTaskLink t ∈ g.nodes ∧ HasLists g.nodes (k.task t).parent
  tid : k.nextTid.toNat < 2 ^ 31
  ids : ∀ y ∈ g.threads, (k.thread y).id.toNat < 2 ^ 31
  zero : 0#32 ∉ k.tasks
  ring : ∀ t ∈ k.tasks, IsRing k.links (.threadHead t) ((g.lists t).map .taskThreadLink)
  mem : ∀ t ∈ k.tasks, ∀ y, y ∈ g.lists t ↔ y ∈ g.threads ∧ (k.thread y).parentTask = t
  owner : ∀ y ∈ g.threads, (k.thread y).parentTask ∈ k.tasks
  first : ∀ t ∈ k.tasks, g.lists t ≠ [] → (k.task t).thr ∈ g.lists t

section
variable {S T : Set Node} {k k' : Kernel} {g : Shape} {t thr p : Word} {r : Int}

theorem HasLists.mono (hl : HasLists S t) (hst : S ⊆ T) : HasLists T t := ⟨hst hl.alive, hst hl.dead, hst hl.waiting⟩

theorem ofThreads_of_mem {l : List Word} {n : Node} (hn : n ∈ Node.threadHead t :: l.map .taskThreadLink) :
    n.ofThreads := by
  rcases List.mem_cons.mp hn with rfl | hn
  · trivial
  · obtain ⟨y, -, rfl⟩ := List.mem_map.mp hn
    trivial

theorem Threaded.beside (h : Threaded k g) (hb : Beside S k k') (hsub : g.nodes ⊆ S) (hS : ∀ n ∈ S, ¬ n.ofThreads)
    (hi : HasLists g.nodes k.initTask) : Threaded k' { g with nodes := S } where
  closed := hb.links.closed
  apart := hS
  map i h₀ h₁ := hsub (h.map i h₀ h₁)
  heads t ht := (h.heads t (hb.tasks ▸ ht)).mono hsub
  child t ht hr := by
    obtain ⟨hc, hp⟩ := h.child t (hb.tasks ▸ ht) hr
    refine ⟨hsub hc, ?_⟩
    rcases hb.parent t with e | e
    · rw [e]
      exact hp.mono hsub
    · rw [e]
      exact hi.mono hsub
  tid := hb.nextTid ▸ h.tid
  ids y hy := by
    rw [hb.id]
    exact h.ids y hy
  zero := hb.tasks ▸ h.zero
  ring t ht := hb.links.ring (h.ring t (hb.tasks ▸ ht)) fun y hy hm => hS y hm (ofThreads_of_mem hy)
  mem t ht y := by
    rw [hb.owner]
    exact h.mem t (hb.tasks ▸ ht) y
  owner y hy := by
    rw [hb.owner, hb.tasks]
    exact h.owner y hy
  first t ht hne := by
    rw [hb.thr]
    exact h.first t (hb.tasks ▸ ht) hne

theorem Threaded.newThread (thr : Word) (h : Threaded k g) (ht : t ∈ k.tasks) (hthr : thr ∉ g.threads)
    (hid : k.nextTid ≠ MAX_TID)
    (hfirst : (k.task t).thr ∈ g.lists t ++ [thr]) :
    Threaded (newThread t thr k) { g with
      threads := insert thr g.threads
      nodes := insert (.threadMapLink thr) g.nodes
      lists := Function.update g.lists t (g.lists t ++ [thr]) } := by
  obtain ⟨hsucc, hlt⟩ := tid_succ h.tid hid
  have hrange := mapIndex_range (a := k.nextTid + 1#32) (by omega)
  have hold : ∀ {u}, u ∈ k.tasks → thr ∉ g.lists u := fun hu hm => hthr ((h.mem _ hu thr).mp hm).1
  have hnot : Node.taskThreadLink thr ∉ Node.threadHead t :: (g.lists t).map .taskThreadLink := by
    simpa using hold ht
  have hring := addToTail_ring (h.ring t ht) hnot
  have hoff := addToTail_sameOff (h.ring t ht) hnot
  have hclosed : Closed g.nodes (addToTail (.taskThreadLink thr) (.threadHead t) k.links) := by
    refine h.closed.sameOff hoff fun n hn hm => h.apart n hm ?_
    rcases List.mem_cons.mp hn with rfl | hn
    · trivial
    · exact ofThreads_of_mem hn
  have hw := addToTail_within (n := .threadMapLink thr) hclosed (h.map _ hrange.1 hrange.2)
  have hapart : ∀ n ∈ insert (Node.threadMapLink thr) g.nodes, ¬ n.ofThreads := by
    rintro n (rfl | hn)
    · exact id
    · exact h.apart n hn
  have hthread : ∀ y, y ≠ thr → (Kernel.newThread t thr k).thread y = k.thread y := fun y e => Function.update_of_ne e ..
  have hself : ((Kernel.newThread t thr k).thread thr).parentTask = t ∧
      ((Kernel.newThread t thr k).thread thr).id = k.nextTid + 1#32 := by
    simp [Kernel.newThread]
  refine ⟨hw.closed, hapart, fun i h₀ h₁ => .inr (h.map i h₀ h₁), fun u hu => (h.heads u hu).mono (Set.subset_insert ..),
    fun u hu hr => ⟨.inr (h.child u hu hr).1, (h.child u hu hr).2.mono (Set.subset_insert ..)⟩, hsucc ▸ hlt, fun y hy => ?_, h.zero,
    fun u hu => ?_, fun u hu y => ?_, fun y hy => ?_, fun u hu hne => ?_⟩
  · by_cases e : y = thr
    · rw [e, hself.2, hsucc]
      exact hlt
    · rw [hthread y e]
      exact h.ids y ((Finset.mem_insert.mp hy).resolve_left e)
  · refine hw.ring ?_ fun n hn hm => hapart n hm (ofThreads_of_mem hn)
    by_cases e : u = t
    · subst e
      simpa using hring
    · simp only [Function.update_of_ne e]
      refine (h.ring u hu).sameOff hoff fun n hn hm => ?_
      -- the lists of different tasks have no node in common
      rcases List.mem_cons.mp hn with rfl | hn
      · simp [e] at hm
      · obtain ⟨y, hy, rfl⟩ := List.mem_map.mp hn
        simp only [List.mem_cons, Node.taskThreadLink.injEq, reduceCtorEq, List.mem_map, false_or, exists_eq_right] at hm
        rcases hm with rfl | hm
        · exact hold hu hy
        · exact e (((h.mem u hu y).mp hy).2.symm.trans ((h.mem t ht y).mp hm).2)
  · by_cases e : y = thr
    · rw [e, hself.1]
      by_cases eu : u = t
      · simp [eu]
      · simp [eu, Ne.symm eu, hold hu]
    · rw [hthread y e]
      by_cases eu : u = t
      · simpa [eu, e] using h.mem t ht y
      · simpa [eu, e] using h.mem u hu y
  · by_cases e : y = thr
    · rw [e, hself.1]
      exact ht
    · rw [hthread y e]
      exact h.owner y ((Finset.mem_insert.mp hy).resolve_left e)
  · by_cases e : u = t
    · subst e
      have hfirst : ((Kernel.newThread u thr k).task u).thr ∈ g.lists u ++ [thr] := hfirst
      simpa using hfirst
    · simp only [Function.update_of_ne e] at hne ⊢
      exact h.first u hu hne

theorem Threaded.blank (tt : Task) (locks : Lock → Mutex) (h : Threaded k g) (ht : t ∉ k.tasks) (h0 : t ≠ 0#32) :
    Threaded { k with
        tasks := insert t k.tasks
        links := initHeads t k.links
        locks := locks
        task := Function.update k.task t tt }
      { g with
        roots := insert t g.roots
        nodes := g.nodes ∪ {.childTaskHead t, .deadChildHead t, .exitCondVar t}
        lists := Function.update g.lists t [] } := by
  have hheads : ∀ n ∈ taskHeads t, n ∈ ({.childTaskHead t, .deadChildHead t, .exitCondVar t} : Set Node) ∨ n.ofThreads := by
    intro n hn
    simp only [taskHeads, List.mem_cons, List.not_mem_nil, or_false] at hn
    rcases hn with rfl | rfl | rfl | rfl
    · exact .inr trivial
    all_goals simp
  have hoff := initHeads_sameOff t k.links
  have hapart : ∀ n ∈ g.nodes ∪ {.childTaskHead t, .deadChildHead t, .exitCondVar t}, ¬ n.ofThreads := by
    rintro n (hn | rfl | rfl | rfl)
    · exact h.apart n hn
    all_goals exact id
  have hsub : g.nodes ⊆ g.nodes ∪ {.childTaskHead t, .deadChildHead t, .exitCondVar t} := Set.subset_union_left
  have hne : ∀ {u}, u ∈ k.tasks → u ≠ t := by
    rintro u hu rfl
    exact ht hu
  have howner : ∀ {y}, y ∈ g.threads → (k.thread y).parentTask ≠ t := fun hy e => ht (e ▸ h.owner _ hy)
  refine ⟨fun n hn => ?_, hapart, fun i h₀ h₁ => hsub (h.map i h₀ h₁), fun u hu => ?_, fun u hu hr => ?_, h.tid, h.ids, ?_,
    fun u hu => ?_, fun u hu y => ?_, fun y hy => Finset.mem_insert_of_mem (h.owner y hy), fun u hu hl => ?_⟩
  · by_cases hm : n ∈ taskHeads t
    · -- an initialised head points to itself
      have hself : (initHeads t k.links).next n = n ∧ (initHeads t k.links).prev n = n := by
        simp only [taskHeads, List.mem_cons, List.not_mem_nil, or_false] at hm
        rcases hm with rfl | rfl | rfl | rfl <;> simp [initHeads, initHead, setNext, setPrev]
      rw [hself.1, hself.2]
      exact ⟨hn, hn⟩
    · obtain ⟨hnext, hprev⟩ := hoff n hm
      have hg : n ∈ g.nodes := by
        rcases hn with hn | hn
        · exact hn
        · refine absurd ?_ hm
          rcases hn with rfl | rfl | rfl <;> simp [taskHeads]
      simp only [hnext, hprev]
      exact ⟨hsub (h.closed n hg).1, hsub (h.closed n hg).2⟩
  · rcases Finset.mem_insert.mp hu with rfl | hu
    · exact ⟨by simp, by simp, by simp⟩
    · exact (h.heads u hu).mono hsub
  · have e : u ≠ t := by
      rintro rfl
      exact hr (Finset.mem_insert_self ..)
    have hu := (Finset.mem_insert.mp hu).resolve_left e
    obtain ⟨hc, hp⟩ := h.child u hu fun hm => hr (Finset.mem_insert_of_mem hm)
    refine ⟨hsub hc, ?_⟩
    simp only [Function.update_of_ne e]
    exact hp.mono hsub
  · simp [Ne.symm h0, h.zero]
  · rcases Finset.mem_insert.mp hu with rfl | hu
    · simp only [Function.update_self]
      refine isRing_nil.mpr ?_
      simp [initHeads, initHead, setNext, setPrev]
    · simp only [Function.update_of_ne (hne hu)]
      refine (h.ring u hu).sameOff hoff fun n hn hm => ?_
      rcases List.mem_cons.mp hn with rfl | hn
      · simp [taskHeads, hne hu] at hm
      · obtain ⟨y, -, rfl⟩ := List.mem_map.mp hn
        simp [taskHeads] at hm
  · rcases Finset.mem_insert.mp hu with rfl | hu
    · simp only [Function.update_self, List.not_mem_nil, false_iff, not_and]
      exact fun hy => howner hy
    · simpa [hne hu] using h.mem u hu y
  · rcases Finset.mem_insert.mp hu with rfl | hu
    · simp at hl
    · simp only [Function.update_of_ne (hne hu)] at hl ⊢
      exact h.first u hu hl

theorem Threaded.attach (h : Threaded k g) (hp : p ∈ k.tasks) (hparent : (k.task t).parent = p) :
    Threaded (k.withLinks (addToTail (.childTaskLink t) (.childTaskHead p)))
      { g with roots := g.roots.erase t, nodes := insert (.childTaskLink t) g.nodes } := by
  have hw := addToTail_within (n := .childTaskLink t) h.closed (h.heads p hp).alive
  have hapart : ∀ n ∈ insert (Node.childTaskLink t) g.nodes, ¬ n.ofThreads := by
    rintro n (rfl | hn)
    · exact id
    · exact h.apart n hn
  refine ⟨hw.closed, hapart, fun i h₀ h₁ => .inr (h.map i h₀ h₁), fun u hu => (h.heads u hu).mono (Set.subset_insert ..),
    fun u hu hr => ?_, h.tid, h.ids, h.zero, fun u hu => hw.ring (h.ring u hu) fun n hn hm => hapart n hm (ofThreads_of_mem hn), h.mem, h.owner,
    h.first⟩
  by_cases e : u = t
  · subst e
    refine ⟨.inl rfl, ?_⟩
    rw [show (Kernel.withLinks _ k).task u = k.task u from rfl, hparent]
    exact (h.heads p hp).mono (Set.subset_insert ..)
  · obtain ⟨hc, hl⟩ := h.child u hu fun hm => hr (Finset.mem_erase.mpr ⟨e, hm⟩)
    exact ⟨.inr hc, hl.mono (Set.subset_insert ..)⟩

theorem Threaded.drop (tasks threads roots : Finset Word) (h : Threaded k g) (htasks : tasks ⊆ k.tasks)
    (hthreads : ∀ y, y ∈ threads ↔ y ∈ g.threads ∧ (k.thread y).parentTask ∈ tasks)
    (hroots : ∀ u ∈ tasks, u ∉ roots → u ∉ g.roots) :
    Threaded { k with tasks := tasks } { g with roots := roots, threads := threads } where
  closed := h.closed
  apart := h.apart
  map := h.map
  heads t ht := h.heads t (htasks ht)
  child t ht hr := h.child t (htasks ht) (hroots t ht hr)
  tid := h.tid
  ids y hy := h.ids y ((hthreads y).mp hy).1
  zero hm := h.zero (htasks hm)
  ring t ht := h.ring t (htasks ht)
  mem t ht y := by
    refine (h.mem t (htasks ht) y).trans ⟨fun hy => ⟨(hthreads y).mpr ⟨hy.1, hy.2 ▸ ht⟩, hy.2⟩, fun hy => ⟨((hthreads y).mp hy.1).1, hy.2⟩⟩
  owner y hy := ((hthreads y).mp hy).2
  first t ht := h.first t (htasks ht)

theorem Threaded.unlink (h : Threaded k g) (hthr : thr ∈ g.threads) (ht : (k.thread thr).parentTask = t)
    (hfirst : thr ≠ (k.task t).thr ∨ ∀ y ∈ g.threads, (k.thread y).parentTask = t → y = thr) :
    Threaded (k.withLinks (delEntry (.taskThreadLink thr))) { g with
      threads := g.threads.erase thr
      lists := Function.update g.lists t ((g.lists t).erase thr) } := by
  have htask : t ∈ k.tasks := ht ▸ h.owner thr hthr
  have hmem : thr ∈ g.lists t := (h.mem t htask thr).mpr ⟨hthr, ht⟩
  have hr := h.ring t htask
  have hnode : Node.taskThreadLink thr ∈ (g.lists t).map Node.taskThreadLink := List.mem_map.mpr ⟨thr, hmem, rfl⟩
  have hoff := delEntry_sameOff hr hnode
  have hnodup : (g.lists t).Nodup := (List.nodup_cons.mp hr.nodup).2.of_map _
  have hring : IsRing (delEntry (.taskThreadLink thr) k.links) (.threadHead t) (((g.lists t).erase thr).map .taskThreadLink) := by
    obtain ⟨l₁, l₂, he⟩ := List.append_of_mem hmem
    have hnot : thr ∉ l₁ := by
      rw [he] at hnodup
      exact fun hm => (List.nodup_append.mp hnodup).2.2 thr hm thr (List.mem_cons_self ..) rfl
    rw [he, List.map_append, List.map_cons] at hr
    rw [he, List.erase_append_right _ hnot, List.erase_cons_head, List.map_append]
    exact delEntry_ring hr
  have hclosed : Closed g.nodes (delEntry (.taskThreadLink thr) k.links) :=
    h.closed.sameOff hoff fun n hn hm => h.apart n hm (ofThreads_of_mem hn)
  refine ⟨hclosed, h.apart, h.map, h.heads, h.child, h.tid, fun y hy => h.ids y (Finset.mem_of_mem_erase hy), h.zero, fun u hu => ?_,
    fun u hu y => ?_, fun y hy => h.owner y (Finset.mem_of_mem_erase hy), fun u hu hne => ?_⟩
  · by_cases e : u = t
    · subst e
      simpa [withLinks] using hring
    · simp only [Function.update_of_ne e]
      refine (h.ring u hu).sameOff hoff fun n hn hm => ?_
      rcases List.mem_cons.mp hn with rfl | hn
      · simp [e] at hm
      · obtain ⟨y, hy, rfl⟩ := List.mem_map.mp hn
        simp only [List.mem_cons, reduceCtorEq, List.mem_map, Node.taskThreadLink.injEq, exists_eq_right, false_or] at hm
        exact e (((h.mem u hu y).mp hy).2.symm.trans ((h.mem t htask y).mp hm).2)
  · by_cases e : u = t
    · subst e
      simp only [Function.update_self, hnodup.mem_erase_iff, Finset.mem_erase, h.mem u hu y, and_assoc]
      rfl
    · simp only [Function.update_of_ne e, h.mem u hu y, Finset.mem_erase]
      refine ⟨fun hy => ⟨⟨fun ey => ?_, hy.1⟩, hy.2⟩, fun hy => ⟨hy.1.2, hy.2⟩⟩
      exact e (hy.2.symm.trans (ey ▸ ht))
  · by_cases e : u = t
    · subst e
      simp only [Function.update_self] at hne ⊢
      rcases hfirst with hf | hf
      · have hl : g.lists u ≠ [] := List.ne_nil_of_mem hmem
        exact (List.mem_erase_of_ne (Ne.symm hf)).mpr (h.first u hu hl)
      · -- no thread is left
        obtain ⟨y, hy⟩ := List.exists_mem_of_ne_nil _ hne
        obtain ⟨hyne, hy⟩ := hnodup.mem_erase_iff.mp hy
        obtain ⟨hyt, hyo⟩ := (h.mem u hu y).mp hy
        exact absurd (hf y hyt hyo) hyne
    · simp only [Function.update_of_ne e] at hne ⊢
      exact h.first u hu hne

/-! ## The calls -/

def Sound (k : Kernel) : Prop :=
  ∃ g, Threaded k g ∧ g.threads = k.threads ∧ g.roots = {k.initTask, k.idleTask} ∧ k.initTask ∈ k.tasks ∧ k.idleTask ∈ k.tasks

theorem Sound.of_beside (hs : Sound k) (hb : ∀ S, Closed S k.links → Beside S k k') : Sound k' := by
  obtain ⟨g, h, hthr, hroots, hi, hd⟩ := hs
  have hb := hb g.nodes h.closed
  refine ⟨_, h.beside hb le_rfl h.apart (h.heads _ hi), hthr.trans hb.threads.symm, ?_, ?_, ?_⟩
  · rw [hb.initTask, hb.idleTask]
    exact hroots
  · rw [hb.initTask, hb.tasks]
    exact hi
  · rw [hb.idleTask, hb.tasks]
    exact hd

theorem Sound.switchToThread (hs : Sound k) : Sound (k.switchToThread thr) := by
  refine hs.of_beside fun S hc => ?_
  have hb : Beside S k (k.setThread thr fun s => { s with status := .running }) := (Beside.refl hc).setThread (fun _ => rfl) fun _ => rfl
  exact ⟨hb.links, hb.tasks, hb.threads, hb.thr, hb.handler, hb.parent, hb.owner, hb.id, hb.nextTid, hb.initTask, hb.idleTask⟩

theorem Sound.setTask {f : Task → Task} (hs : Sound k) (hthr : ∀ s, (f s).thr = s.thr)
    (hparent : ∀ s, (f s).parent = s.parent) :
    Sound (k.setTask t f) := by
  obtain ⟨g, h, hthreads, hroots, hi, hd⟩ := hs
  have hthr' : ∀ u, ((k.setTask t f).task u).thr = (k.task u).thr := by
    intro u
    by_cases e : u = t <;> simp [Kernel.setTask, e, hthr]
  have hparent' : ∀ u, ((k.setTask t f).task u).parent = (k.task u).parent := by
    intro u
    by_cases e : u = t <;> simp [Kernel.setTask, e, hparent]
  refine ⟨g, ⟨h.closed, h.apart, h.map, h.heads, fun u hu hr => ?_, h.tid, h.ids, h.zero, h.ring, h.mem, h.owner, fun u hu hne => ?_⟩,
    hthreads, hroots, hi, hd⟩
  · rw [hparent']
    exact h.child u hu hr
  · rw [hthr']
    exact h.first u hu hne

theorem loadTask_beside {toc : Toc} {heap : ExecHeap} {e : Word} {name : List Byte} {args : List (List Byte)}
    {k₀ : Kernel}
    (hb : Beside S k₀ k) (h : k.loadTask toc heap e name args t = some (r, k')) : Beside S k₀ k' := by
  unfold loadTask at h
  split at h
  · cases h
    exact hb.withVm _
  · rename_i pdAddr vm _
    have b₁ : Beside S k₀ (Kernel.setTask t (fun s => { s with pdbr := pdAddr }) { k with vm := vm.setCurPd pdAddr }) :=
      (hb.withVm (vm.setCurPd pdAddr)).setTask (fun _ => rfl) (fun _ => rfl) fun _ => .inl rfl
    dsimp only at h
    generalize Kernel.setTask t _ _ = k₁ at h b₁
    split at h
    · cases h
    · split_ifs at h
      · cases h
        exact b₁.withVm _
      · split at h
        · cases h
        · split_ifs at h
          · cases h
            exact b₁.withVm _
          · split at h
            · cases h
            · cases h
              exact b₁.withVm _
            · cases h
              exact (b₁.withVm _).setThread (fun _ => rfl) fun _ => rfl

theorem doExec_beside {toc : Toc} {heap : ExecHeap} {e argPacket : Word} (hc : Closed S k.links)
    (h : k.doExec toc heap e argPacket = some (r, k')) : Beside S k k' := by
  unfold doExec at h
  simp only [Option.bind_eq_bind, Option.bind_eq_some_iff] at h
  obtain ⟨k₁, hlock, x, -, h⟩ := h
  have b₁ := (Beside.refl hc).mutexLock hlock
  cases x with
  | error e =>
    simp only [Option.bind_eq_some_iff] at h
    obtain ⟨k₂, hun, h⟩ := h
    cases h
    exact b₁.mutexUnlock hun
  | ok x =>
    simp only [Option.bind_eq_some_iff] at h
    obtain ⟨⟨r₁, k₂⟩, hload, h⟩ := h
    have b₂ := loadTask_beside b₁ hload
    dsimp only at h
    split_ifs at h
    all_goals
      simp only [Option.bind_eq_some_iff] at h
      obtain ⟨k₃, hun, h⟩ := h
      cases h
      exact (b₂.withVm _).mutexUnlock hun

theorem Beside.cloneKStack {src : Word} (hb : Beside S k k') : Beside S k (k'.cloneKStack thr src) :=
  hb.setThread (fun _ => rfl) fun _ => rfl

theorem Beside.withRunq {runq : List Word} (hb : Beside S k k') : Beside S k { k' with runq := runq } :=
  ⟨hb.links, hb.tasks, hb.threads, hb.thr, hb.handler, hb.parent, hb.owner, hb.id, hb.nextTid, hb.initTask, hb.idleTask⟩

theorem Sound.threadFork {thrMem : Option Word} (hs : Sound k) (hcurr : k.currThread ∈ k.threads)
    (hh : Heap k none thrMem)
    (hf : k.doThreadFork thrMem = some (r, k')) : Sound k' := by
  cases thrMem with
  | none =>
    rw [doThreadFork_none hf]
    exact hs
  | some thr =>
    obtain ⟨g, h, hthr, hroots, hi, hd⟩ := hs
    have ht := h.owner k.currThread (hthr ▸ hcurr)
    have h0 : k.currTask ≠ 0#32 := fun e => h.zero (e ▸ ht)
    obtain ⟨hid, -, rfl⟩ := doThreadFork_some hf h0
    have hl : g.lists k.currTask ≠ [] := List.ne_nil_of_mem ((h.mem _ ht k.currThread).mpr ⟨hthr ▸ hcurr, rfl⟩)
    have hn := h.newThread thr ht (hthr ▸ hh.thread thr rfl) hid (List.mem_append_left _ (h.first _ ht hl))
    have hnew : Sound (newThread k.currTask thr k) := by
      refine ⟨_, hn, ?_, hroots, hi, hd⟩
      rw [hthr]
      rfl
    exact hnew.of_beside fun S hc => (Beside.refl hc).cloneKStack.withRunq

theorem Threaded.attached (h : Threaded k g) (hp : p ∈ k.tasks) (ht : t ∉ k.tasks) (h0 : t ≠ 0#32)
    (hthr : thr ∉ g.threads)
    (hid : k.nextTid ≠ MAX_TID) (hroots : t ∉ g.roots) : ∃ g', Threaded (attached p t thr k) g' ∧
      g'.threads = insert thr g.threads ∧ g'.roots = g.roots := by
  have hb := h.blank { k.task t with id := k.nextTid + 1#32, thr := thr, parent := p, eip := 0#32, swexnArgs := 0#32 }
    (initLocks t k.locks) ht h0
  have hn := hb.newThread (t := t) thr (Finset.mem_insert_self ..) hthr hid (by simp)
  refine ⟨_, hn.attach (t := t) (Finset.mem_insert_of_mem hp) ?_, rfl, Finset.erase_insert hroots⟩
  simp [Kernel.newThread]

theorem Sound.fork {taskMem thrMem : Option Word} (hs : Sound k) (hcurr : k.currThread ∈ k.threads)
    (hh : Heap k taskMem thrMem)
    (hf : k.doFork taskMem thrMem = some (r, k')) : Sound k' := by
  obtain ⟨g, h, hthr, hroots, hi, hd⟩ := hs
  have hp : k.currTask ∈ k.tasks := h.owner k.currThread (hthr ▸ hcurr)
  have hnew : ∀ {t}, t ∉ k.tasks → t ∉ g.roots := by
    intro t ht hm
    rw [hroots] at hm
    rcases Finset.mem_insert.mp hm with rfl | hm
    · exact ht hi
    · exact ht (Finset.mem_singleton.mp hm ▸ hd)
  by_cases hnone : taskMem = none ∨ thrMem = none
  · rcases doFork_none hf hnone hp fun t ht => (hh.task t ht).2 with rfl | ⟨t, ht, rfl⟩
    · exact ⟨g, h, hthr, hroots, hi, hd⟩
    · -- the structure of the task was written before it was freed
      obtain ⟨h0, htt⟩ := hh.task t ht
      have hb := h.blank { k.task t with parent := k.currTask, eip := 0#32, swexnArgs := 0#32 }
        (initLocks t k.locks) htt h0
      refine ⟨_, hb.drop k.tasks g.threads g.roots (Finset.subset_insert ..) (fun y => ?_)
        fun u hu hr hm => ?_, hthr, hroots, hi, hd⟩
      · exact ⟨fun hy => ⟨hy, h.owner y hy⟩, fun hy => hy.1⟩
      · rcases Finset.mem_insert.mp hm with rfl | hm
        · exact htt hu
        · exact hr hm
  · rw [not_or] at hnone
    obtain ⟨t, rfl⟩ := Option.ne_none_iff_exists'.mp hnone.1
    obtain ⟨thr, rfl⟩ := Option.ne_none_iff_exists'.mp hnone.2
    obtain ⟨h0, htt⟩ := hh.task t rfl
    have hpt : k.currTask ≠ t := fun e => htt (e ▸ hp)
    have hthr' : thr ∉ g.threads := hthr ▸ hh.thread thr rfl
    obtain ⟨hid, hcase⟩ := doFork_some hf h0 hpt
    obtain ⟨g', ha, hgt, hgr⟩ := h.attached hp htt h0 hthr' hid (hnew htt)
    have hown : ∀ y, y ≠ thr → ((Kernel.attached k.currTask t thr k).thread y).parentTask = (k.thread y).parentTask := by
      intro y e
      simp [Kernel.attached, withLinks, Kernel.newTask, Kernel.newThread, e]
    rcases hcase with ⟨vm, -, -, rfl⟩ | ⟨newPd, vm, -, -, rfl⟩
    · -- the child and its thread are freed again
      have hself : ((Kernel.attached k.currTask t thr k).thread thr).parentTask = t := by
        simp [Kernel.attached, withLinks, Kernel.newTask, Kernel.newThread]
      have hthrOf : ((Kernel.attached k.currTask t thr k).task t).thr = thr := by
        simp [Kernel.attached, withLinks, Kernel.newTask]
      have hd' := ha.drop k.tasks g.threads g.roots (Finset.subset_insert ..) (fun y => ?_)
        fun u _ hr => hgr ▸ hr
      · have hsound : Sound (uncloned t vm (Kernel.attached k.currTask t thr k)) := by
          have htasks : (uncloned t vm (Kernel.attached k.currTask t thr k)).tasks = k.tasks := Finset.erase_insert htt
          refine ⟨_, ⟨hd'.closed, hd'.apart, hd'.map, ?_, ?_, hd'.tid, hd'.ids, ?_, ?_, ?_, ?_, ?_⟩, ?_, hroots, ?_, ?_⟩
          all_goals try rw [htasks]
          · exact hd'.heads
          · exact hd'.child
          · exact h.zero
          · exact hd'.ring
          · exact hd'.mem
          · exact hd'.owner
          · exact hd'.first
          · show g.threads = (insert thr k.threads).erase ((Kernel.attached k.currTask t thr k).task t).thr
            rw [hthrOf, hthr, Finset.erase_insert (hthr ▸ hthr')]
          · exact hi
          · exact hd
        exact hsound
      · rw [hgt]
        by_cases e : y = thr
        · simp [e, hself, hthr', htt]
        · rw [hown y e]
          simp only [Finset.mem_insert, e, false_or]
          exact ⟨fun hy => ⟨hy, h.owner y hy⟩, fun hy => hy.1⟩
    · have hsound : Sound (Kernel.attached k.currTask t thr k) := by
        refine ⟨g', ha, ?_, hgr.trans hroots, Finset.mem_insert_of_mem hi, Finset.mem_insert_of_mem hd⟩
        rw [hgt, hthr]
        rfl
      have hset : Sound (Kernel.setTask t (fun s => { s with
          pdbr := newPd, eip := ((Kernel.attached k.currTask t thr k).task k.currTask).eip
          swexnArgs := ((Kernel.attached k.currTask t thr k).task k.currTask).swexnArgs
          swexnEsp := ((Kernel.attached k.currTask t thr k).task k.currTask).swexnEsp }) (Kernel.attached k.currTask t thr k)) :=
        hsound.setTask (fun _ => rfl) fun _ => rfl
      exact hset.of_beside fun S hc => ((Beside.refl hc).cloneKStack.withVm _).withRunq

end

section
variable {S : Set Node} {k k' : Kernel} {g : Shape} {t thr : Word}

theorem Threaded.freeThread (h : Threaded k g) : Threaded (k.freeThread thr) g :=
  ⟨h.closed, h.apart, h.map, h.heads, h.child, h.tid, h.ids, h.zero, h.ring, h.mem, h.owner, h.first⟩

theorem Beside.leaveSpace (hb : Beside S k k') : Beside S k (k'.leaveSpace t) := by
  have b₁ : Beside S k (k'.setTask t fun s => { s with pdbr := k'.kernelPd }) := hb.setTask (fun _ => rfl) (fun _ => rfl) fun _ => .inl rfl
  exact b₁.withVm _

theorem Sound.vanish (hs : Sound k) (hcurr : k.currThread ∈ k.threads) (hok : k.Careful) (hv : k.doVanish = some k') :
    Sound k' := by
  obtain ⟨g, h, hthr, hroots, hi, hd⟩ := hs
  have hmem : k.currThread ∈ g.threads := hthr ▸ hcurr
  have ht : k.currTask ∈ k.tasks := h.owner k.currThread hmem
  have hrange := mapIndex_range (h.ids k.currThread hmem)
  unfold doVanish at hv
  simp only [Option.bind_eq_bind, Option.bind_eq_some_iff] at hv
  obtain ⟨k₁, hlock, k₂, hrem, k₃, hun, hv⟩ := hv
  have b₁ := (Beside.refl h.closed).mutexLock hlock
  obtain ⟨k₂', hmap, rfl⟩ := Option.map_eq_some_iff.mp hrem
  rw [b₁.id] at hmap
  have b₂ := b₁.removeThreadFromMap (h.map _ hrange.1 hrange.2) hmap
  have h₂ := h.beside b₂ le_rfl h.apart (h.heads _ hi)
  have hfirst : k.currThread ≠ (k₂'.task k.currTask).thr ∨
      ∀ y ∈ g.threads, (k₂'.thread y).parentTask = k.currTask → y = k.currThread := by
    refine hok.1.imp (fun hne => ?_) fun hall y hy ho => ?_
    · rw [b₂.thr]
      exact hne
    · rw [b₂.owner] at ho
      exact hall y (hthr ▸ hy) ho
  have h₃ := h₂.unlink hmem (b₂.owner k.currThread) hfirst
  have hi₃ : HasLists g.nodes (k₂'.withLinks (delEntry (.taskThreadLink k.currThread))).initTask := b₂.initTask ▸ h.heads _ hi
  have b₄ := (Beside.refl h₃.closed).mutexUnlock hun
  have h₄ := h₃.beside b₄ le_rfl h.apart hi₃
  have hthreads : ∀ {k₅ : Kernel}, k₅.threads = k₃.threads → g.threads.erase k.currThread = (k₅.freeThread k.currThread).threads := by
    intro k₅ he
    show _ = k₅.threads.erase k.currThread
    rw [he, b₄.threads, hthr]
    exact congrArg (Finset.erase · k.currThread) b₂.threads.symm
  have hinit : k₃.initTask = k.initTask := b₄.initTask.trans b₂.initTask
  have hidle : k₃.idleTask = k.idleTask := b₄.idleTask.trans b₂.idleTask
  have htasks : k₃.tasks = k.tasks := b₄.tasks.trans b₂.tasks
  split at hv
  · cases hv
    refine ⟨_, h₄.freeThread, hthreads rfl, ?_, ?_, ?_⟩
    · exact hroots.trans (by rw [show (k₃.freeThread _).initTask = _ from hinit, show (k₃.freeThread _).idleTask = _ from hidle])
    · rw [show (k₃.freeThread _).initTask = _ from hinit, show (k₃.freeThread _).tasks = _ from htasks]
      exact hi
    · rw [show (k₃.freeThread _).idleTask = _ from hidle, show (k₃.freeThread _).tasks = _ from htasks]
      exact hd
  · -- the last thread of its task
    rename_i hempty
    have hnil : Function.update g.lists k.currTask ((g.lists k.currTask).erase k.currThread) k.currTask = [] := by
      rw [getFirst_eq (h₃.ring k.currTask (b₂.tasks ▸ ht)), List.head?_eq_none_iff, List.map_eq_nil_iff] at hempty
      exact hempty
    have halone : k.Alone := by
      intro y hy ho
      by_contra hne
      have hin : y ∈ Function.update g.lists k.currTask ((g.lists k.currTask).erase k.currThread) k.currTask :=
        (h₃.mem k.currTask (b₂.tasks ▸ ht) y).mpr ⟨Finset.mem_erase.mpr ⟨hne, hthr ▸ hy⟩, (b₂.owner y).trans ho⟩
      rw [hnil] at hin
      cases hin
    have hroot : k.currTask ∉ g.roots := by
      rw [hroots]
      simpa using hok.2 halone
    simp only [Option.bind_eq_some_iff] at hv
    obtain ⟨k₄, hgive, k₅, hrep, hv⟩ := hv
    cases hv
    have hi₄ : HasLists g.nodes k₃.initTask := hinit ▸ h.heads _ hi
    have b₅ := ((Beside.refl h₄.closed).giveChildren (h₄.heads k.currTask (htasks ▸ ht)) hi₄ hgive).leaveSpace (t := k.currTask)
    have h₅ := h₄.beside b₅ le_rfl h.apart hi₄
    obtain ⟨hc, hp⟩ := h₅.child k.currTask (b₅.tasks.trans htasks ▸ ht) hroot
    have b₆ := (Beside.refl h₅.closed).reportExit hc hp hrep
    have hi₆ : HasLists g.nodes (k₄.leaveSpace k.currTask).initTask := b₅.initTask.trans hinit ▸ h.heads _ hi
    have h₆ := h₅.beside b₆ (Set.subset_insert ..) (by
      rintro n (rfl | hn)
      · exact id
      · exact h.apart n hn) hi₆
    have hinit₆ : k₅.initTask = k.initTask := b₆.initTask.trans (b₅.initTask.trans hinit)
    have hidle₆ : k₅.idleTask = k.idleTask := b₆.idleTask.trans (b₅.idleTask.trans hidle)
    have htasks₆ : k₅.tasks = k.tasks := b₆.tasks.trans (b₅.tasks.trans htasks)
    refine ⟨_, h₆.freeThread, hthreads (b₆.threads.trans b₅.threads), ?_, ?_, ?_⟩
    · exact hroots.trans (by rw [show (k₅.freeThread _).initTask = _ from hinit₆, show (k₅.freeThread _).idleTask = _ from hidle₆])
    · rw [show (k₅.freeThread _).initTask = _ from hinit₆, show (k₅.freeThread _).tasks = _ from htasks₆]
      exact hi
    · rw [show (k₅.freeThread _).idleTask = _ from hidle₆, show (k₅.freeThread _).tasks = _ from htasks₆]
      exact hd

theorem Sound.step (hs : Sound k) (hstep : CallStep Careful k k') : Sound k' := by
  cases hstep with
  | switch => exact hs.switchToThread
  | fork hc hh hf => exact hs.fork hc hh hf
  | threadFork hc hh hf => exact hs.threadFork hc hh hf
  | exec _ hx => exact hs.of_beside fun S hc => doExec_beside hc hx
  | vanish hc hok hv => exact hs.vanish hc hok hv

theorem Threaded.root {o : Option Word} (h : Threaded k g) (hh : Heap k (some t) (some thr))
    (hthr : g.threads = k.threads)
    (hc : k.createTask 0#32 (some t) (some thr) = some (o, k')) : ∃ g', Threaded k' g' ∧ g'.threads = k'.threads ∧
      g'.roots = insert t g.roots ∧ k'.tasks = insert t k.tasks := by
  obtain ⟨h0, htt⟩ := hh.task t rfl
  obtain ⟨hid, -, rfl⟩ := createTask_some h0 hc
  have hb := h.blank { k.task t with id := k.nextTid + 1#32, thr := thr, parent := 0#32, eip := 0#32, swexnArgs := 0#32 }
    (initLocks t k.locks) htt h0
  refine ⟨_, hb.newThread (t := t) thr (Finset.mem_insert_self ..) (hthr ▸ hh.thread thr rfl) hid (by simp), ?_, rfl, rfl⟩
  exact congrArg (insert thr) hthr

theorem Kernel.Started.sound (hk : k.Started) : Sound k := by
  obtain ⟨k₀, k₁, k₂, initThr, idleThr, htasks, hthreads, htid, hmap, hh₁, hc₁, hh₂, hc₂, hview, hthr⟩ := hk
  have h₀ : Threaded k₀ ⟨∅, ∅, { n | ∃ i, 0 ≤ i ∧ i < HASHMAP_SIZE ∧ n = .threadMap i }, fun _ => []⟩ := by
    refine ⟨?_, ?_, fun i h₀ h₁ => ⟨i, h₀, h₁, rfl⟩, ?_, ?_, ?_, ?_, ?_, ?_, ?_, ?_, ?_⟩
    · rintro n ⟨i, hi₀, hi₁, rfl⟩
      obtain ⟨hn, hp⟩ := isRing_nil.mp (hmap i hi₀ hi₁)
      rw [hn, hp]
      exact ⟨⟨i, hi₀, hi₁, rfl⟩, i, hi₀, hi₁, rfl⟩
    · rintro n ⟨i, -, -, rfl⟩
      exact id
    · simp [htasks]
    · simp [htasks]
    · simp [htid]
    · simp
    · simp [htasks]
    · simp [htasks]
    · simp [htasks]
    · simp
    · simp [htasks]
  obtain ⟨g₁, h₁, ht₁, hr₁, hk₁⟩ := h₀.root hh₁ hthreads.symm hc₁
  obtain ⟨g₂, h₂, ht₂, hr₂, hk₂⟩ := h₁.root hh₂ ht₁ hc₂
  have htasks' : k.tasks = k₂.tasks := congrArg View.tasks hview
  have hlinks : k.links = k₂.links := congrArg View.links hview
  have hthreads' : k.threads = k₂.threads := congrArg View.threads hview
  have htid' : k.nextTid = k₂.nextTid := congrArg View.nextTid hview
  have hparent : ∀ t, (k.task t).parent = (k₂.task t).parent := congrFun (congrArg View.parent hview)
  have howner : ∀ y, (k.thread y).parentTask = (k₂.thread y).parentTask := congrFun (congrArg View.owner hview)
  have hid : ∀ y, (k.thread y).id = (k₂.thread y).id := congrFun (congrArg View.threadId hview)
  refine ⟨g₂, ⟨hlinks ▸ h₂.closed, h₂.apart, h₂.map, htasks' ▸ h₂.heads, ?_, htid' ▸ h₂.tid, ?_, htasks' ▸ h₂.zero, ?_, ?_, ?_, ?_⟩,
    ht₂.trans hthreads'.symm, ?_, ?_, ?_⟩
  · intro t ht hr
    rw [hparent]
    exact h₂.child t (htasks' ▸ ht) hr
  · intro y hy
    rw [hid]
    exact h₂.ids y hy
  · intro t ht
    rw [hlinks]
    exact h₂.ring t (htasks' ▸ ht)
  · intro t ht y
    rw [howner]
    exact h₂.mem t (htasks' ▸ ht) y
  · intro y hy
    rw [howner, htasks']
    exact h₂.owner y hy
  · intro t ht hne
    rw [hthr]
    exact h₂.first t (htasks' ▸ ht) hne
  · rw [hr₂, hr₁, Finset.pair_comm]
    rfl
  · simp [htasks', hk₂, hk₁]
  · simp [htasks', hk₂]

theorem Sound.firstLive (hs : Sound k) : k.FirstLive := by
  obtain ⟨g, h, hthr, -⟩ := hs
  intro t ht
  refine ⟨g.lists t, h.ring t ht, fun y => ?_, h.first t ht⟩
  rw [← hthr]
  exact h.mem t ht y

/-- In every run in which a task's first thread vanishes last, `thr` of a task with threads is one of them. -/
theorem first_thread_live (h : Reach Started (CallStep Careful) k) : k.FirstLive :=
  (h.invariant (P := Sound) (fun _ hk => hk.sound) fun _ _ hs hstep => hs.step hstep).firstLive

end

/-! ## Runs -/

namespace Kernel

inductive CallAct where
  | switch (thr : Word)
  | threadFork (thr : Word)
  | vanish

def callAct (ok : Kernel → Prop) [DecidablePred ok] (k : Kernel) : CallAct → Option Kernel
  | .switch thr => if thr ∈ k.threads then some (k.switchToThread thr) else none
  | .threadFork thr =>
    if k.currThread ∈ k.threads ∧ thr ∉ k.threads then (k.doThreadFork (some thr)).map Prod.snd else none
  | .vanish => if k.currThread ∈ k.threads ∧ ok k then k.doVanish else none

theorem callAct_step {ok : Kernel → Prop} [DecidablePred ok] (k : Kernel) (a : CallAct) (k' : Kernel)
    (h : k.callAct ok a = some k') : CallStep ok k k' := by
  cases a with
  | switch thr =>
    obtain ⟨hm, ⟨⟩⟩ := Option.ite_none_right_eq_some.mp h
    exact .switch hm
  | threadFork thr =>
    obtain ⟨⟨hc, hthr⟩, h⟩ := Option.ite_none_right_eq_some.mp h
    obtain ⟨⟨r, k''⟩, hf, rfl⟩ := Option.map_eq_some_iff.mp h
    refine .threadFork hc ⟨by simp, fun y hy => ?_⟩ hf
    cases hy
    exact hthr
  | vanish =>
    obtain ⟨⟨hc, hok⟩, h⟩ := Option.ite_none_right_eq_some.mp h
    exact .vanish hc hok h

instance (k : Kernel) : Decidable k.Alone := Finset.decidableDforallFinset

instance : DecidablePred Careful := fun k =>
  inferInstanceAs (Decidable ((k.currThread ≠ (k.task k.currTask).thr ∨ k.Alone) ∧
    (k.Alone → k.currTask ≠ k.initTask ∧ k.currTask ≠ k.idleTask)))

theorem bootLife_started : Started Life.bootLife.kernel :=
  ⟨Life.emptyKernel, _, _, 0x200#32, 0x400#32, rfl, rfl, rfl, fun _ _ _ => isRing_nil.mpr ⟨rfl, rfl⟩,
    Life.heap_of (by decide) (by decide) (by decide), createTask_eq (by decide) (by decide),
    Life.heap_of (by decide) (by decide) (by decide), createTask_eq (by decide) (by decide), rfl, fun _ => rfl⟩

end Kernel

/-- A second thread of `init` comes and goes. -/
theorem first_thread_live_second : ∃ k : Kernel, 0x600#32 ∉ k.threads ∧ k.nextTid = 3#32 ∧ k.FirstLive := by
  have h₀ : Reach Started (CallStep Careful) Life.bootLife.kernel := .start bootLife_started
  obtain ⟨k, hk, hp⟩ := h₀.script (l := [.switch 0x200#32, .threadFork 0x600#32, .switch 0x600#32, .vanish])
    (p := fun k => 0x600#32 ∉ k.threads ∧ k.nextTid = 3#32) callAct_step (by decide +kernel)
  simp only [decide_eq_true_eq] at hp
  exact ⟨k, hp.1, hp.2, first_thread_live hk⟩

/-- The first thread of `init` vanishes while a second one runs, which then is the current thread of a task
whose `thr` is freed. -/
theorem first_thread_freed : ∃ k : Kernel, Reach Started (CallStep fun _ => True) k ∧ k.currThread = 0x600#32 ∧
    k.currTask = 0x100#32 ∧ (k.task 0x100#32).thr ∉ k.threads ∧ ¬ k.FirstLive := by
  have h₀ : Reach Started (CallStep fun _ => True) Life.bootLife.kernel := .start bootLife_started
  obtain ⟨k, hk, hp⟩ := h₀.script (l := [.switch 0x200#32, .threadFork 0x600#32, .vanish, .switch 0x600#32])
    (p := fun k => k.currThread = 0x600#32 ∧ k.currTask = 0x100#32 ∧ (k.task 0x100#32).thr ∉ k.threads ∧
      0x100#32 ∈ k.tasks ∧ 0x600#32 ∈ k.threads ∧ (k.thread 0x600#32).parentTask = 0x100#32) callAct_step (by decide +kernel)
  simp only [decide_eq_true_eq] at hp
  obtain ⟨hc, ht, hthr, htask, hmem, howner⟩ := hp
  refine ⟨k, hk, hc, ht, hthr, fun hf => ?_⟩
  obtain ⟨l, -, hl, hfirst⟩ := hf _ htask
  have hin := hfirst (List.ne_nil_of_mem ((hl _).mpr ⟨hmem, howner⟩))
  exact hthr ((hl _).mp hin).1

end Pebbles
