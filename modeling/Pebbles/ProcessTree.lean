import Pebbles.WaitVanishSound

/-!
# The process tree

What the lists hold and what the structures say about parents, threads and ids,
and how far the two agree. Each operation on the lists keeps the agreement.
-/

namespace Pebbles

open Words Ring Kernel

@[ext]
structure View where
  links : Links Node
  tasks : Finset Word
  threads : Finset Word
  parent : Word → Word
  taskId : Word → Word
  owner : Word → Word
  threadId : Word → Word
  asleep : Word → Bool
  nextTid : Word
  initTask : Word
  idleTask : Word

def Kernel.view (k : Kernel) : View where
  links := k.links
  tasks := k.tasks
  threads := k.threads
  parent t := (k.task t).parent
  taskId t := (k.task t).id
  owner thr := (k.thread thr).parentTask
  threadId thr := (k.thread thr).id
  asleep thr := (k.thread thr).status = .waiting
  nextTid := k.nextTid
  initTask := k.initTask
  idleTask := k.idleTask

namespace View

def Belongs (v : View) (live dead : Finset Word) : Node → Node → Prop
  | .childTaskHead t, .childTaskLink c => c ∈ live ∧ v.parent c = t
  | .deadChildHead t, .deadChildLink c => c ∈ dead ∧ v.parent c = t
  | .threadHead t, .taskThreadLink thr => thr ∈ v.threads ∧ v.owner thr = t
  | .threadMap i, .threadMapLink thr => thr ∈ v.threads ∧ mapIndex (v.threadId thr) = i
  | .exitCondVar t, .condWaitLink thr => thr ∈ v.threads ∧ v.owner thr = t ∧ v.asleep thr
  | _, _ => False

structure Listed (v : View) (tracked live dead : Finset Word) (ls : Node → List Node) : Prop where
  rings : Rings v.links (heads tracked) ls
  mem : ∀ h ∈ heads tracked, ∀ n, n ∈ ls h ↔ v.Belongs live dead h n

structure Facts (v : View) (live dead : Finset Word) : Prop where
  tasks : v.tasks = live ∪ dead
  disjoint : Disjoint live dead
  zero : 0#32 ∉ v.tasks
  init : v.initTask ∈ live
  idle : v.idleTask ∈ live
  roots : v.parent v.initTask = 0#32 ∧ v.parent v.idleTask = 0#32
  parent : ∀ c ∈ v.tasks, c ≠ v.initTask → c ≠ v.idleTask → v.parent c ∈ live ∧ v.parent c ≠ c
  owner : ∀ thr ∈ v.threads, v.owner thr ∈ live
  next : v.nextTid.toNat < 2 ^ 31
  threadIds : ∀ thr ∈ v.threads, (v.threadId thr).toNat ≤ v.nextTid.toNat
  threadId_inj : ∀ x ∈ v.threads, ∀ y ∈ v.threads, v.threadId x = v.threadId y → x = y
  taskIds : ∀ c ∈ v.tasks, (v.taskId c).toNat ≤ v.nextTid.toNat
  taskId_inj : ∀ x ∈ v.tasks, ∀ y ∈ v.tasks, v.taskId x = v.taskId y → x = y

section
variable {v v' : View} {tracked live dead : Finset Word} {ls : Node → List Node} {t p c thr : Word} {h n : Node}

theorem exists_map {α β : Type} {f : α → β} {l : List β} (hl : ∀ n ∈ l, ∃ a, n = f a) : ∃ as : List α, l = as.map f := by
  induction l with
  | nil => exact ⟨[], rfl⟩
  | cons n l ih =>
    obtain ⟨a, ha⟩ := hl n (by simp)
    obtain ⟨as, has⟩ := ih fun m hm => hl m (by simp [hm])
    exact ⟨a :: as, by rw [ha, has, List.map_cons]⟩

/-! ## Reading the lists -/

theorem Listed.nodes {f : Word → Node} (hl : Listed v tracked live dead ls) (hh : h ∈ heads tracked)
    (hkind : ∀ n, v.Belongs live dead h n → ∃ a, n = f a) (hinj : Function.Injective f) :
    ∃ as : List Word, ls h = as.map f ∧ ∀ a, a ∈ as ↔ v.Belongs live dead h (f a) := by
  obtain ⟨as, has⟩ := exists_map fun n hn => hkind n ((hl.mem h hh n).mp hn)
  refine ⟨as, has, fun a => ?_⟩
  rw [← hl.mem h hh, has]
  exact (List.mem_map_of_injective hinj).symm

theorem Listed.alive (hl : Listed v tracked live dead ls) (ht : t ∈ tracked) :
    ∃ cs : List Word, ls (.childTaskHead t) = cs.map .childTaskLink ∧ ∀ c, c ∈ cs ↔ c ∈ live ∧ v.parent c = t :=
  hl.nodes (h := .childTaskHead t) ht
    (fun n hb => by cases n with | childTaskLink c => exact ⟨c, rfl⟩ | _ => exact hb.elim) fun _ _ => Node.childTaskLink.inj

theorem Listed.deadChildren (hl : Listed v tracked live dead ls) (ht : t ∈ tracked) :
    ∃ cs : List Word, ls (.deadChildHead t) = cs.map .deadChildLink ∧ ∀ c, c ∈ cs ↔ c ∈ dead ∧ v.parent c = t :=
  hl.nodes (h := .deadChildHead t) ht
    (fun n hb => by cases n with | deadChildLink c => exact ⟨c, rfl⟩ | _ => exact hb.elim) fun _ _ => Node.deadChildLink.inj

theorem Listed.waiting (hl : Listed v tracked live dead ls) (ht : t ∈ tracked) :
    ∃ ts : List Word, ls (.exitCondVar t) = ts.map .condWaitLink ∧
      ∀ thr, thr ∈ ts ↔ thr ∈ v.threads ∧ v.owner thr = t ∧ v.asleep thr :=
  hl.nodes (h := .exitCondVar t) ht
    (fun n hb => by cases n with | condWaitLink c => exact ⟨c, rfl⟩ | _ => exact hb.elim) fun _ _ => Node.condWaitLink.inj

theorem Listed.bucket {i : Int} (hl : Listed v tracked live dead ls) (hi : 0 ≤ i ∧ i < HASHMAP_SIZE) :
    ∃ ts : List Word, ls (.threadMap i) = ts.map .threadMapLink ∧
      ∀ thr, thr ∈ ts ↔ thr ∈ v.threads ∧ mapIndex (v.threadId thr) = i :=
  hl.nodes (h := .threadMap i) hi
    (fun n hb => by cases n with | threadMapLink c => exact ⟨c, rfl⟩ | _ => exact hb.elim) fun _ _ => Node.threadMapLink.inj

theorem Listed.lists {k : Kernel} (hl : Listed k.view live live dead ls) (htasks : k.tasks = live ∪ dead) : Lists k live ls := by
  have hsub : ∀ c, c ∈ live ∨ c ∈ dead → c ∈ k.tasks := by
    intro c hc
    rw [htasks]
    exact Finset.mem_union.mpr hc
  refine ⟨hl.rings, fun c hc => hsub c (Or.inl hc), ?_⟩
  intro h hh n hn
  have hb := (hl.mem h hh n).mp hn
  cases h <;> cases n <;> first | exact hb.elim | skip
  · exact hsub _ (Or.inl hb.1)
  · exact hsub _ (Or.inr hb.1)
  · exact hb.1
  · exact hb.1
  · exact hb.1

theorem Facts.parent_mem (hf : Facts v live dead) (hc : c ∈ v.tasks) : v.parent c ∈ live ∨ v.parent c = 0#32 := by
  by_cases h₁ : c = v.initTask
  · exact Or.inr (h₁ ▸ hf.roots.1)
  · by_cases h₂ : c = v.idleTask
    · exact Or.inr (h₂ ▸ hf.roots.2)
    · exact Or.inl (hf.parent c hc h₁ h₂).1

theorem Facts.mem_tasks (hf : Facts v live dead) : c ∈ v.tasks ↔ c ∈ live ∨ c ∈ dead := by
  rw [hf.tasks, Finset.mem_union]

theorem Facts.parent_ne_self (hf : Facts v live dead) (hc : c ∈ v.tasks) : v.parent c ≠ c := by
  intro e
  by_cases h₁ : c = v.initTask
  · exact hf.zero (hf.roots.1 ▸ h₁ ▸ e.symm ▸ hc)
  · by_cases h₂ : c = v.idleTask
    · exact hf.zero (hf.roots.2 ▸ h₂ ▸ e.symm ▸ hc)
    · exact (hf.parent c hc h₁ h₂).2 e

theorem Facts.parent_ne (hf : Facts v live dead) (hc : c ∈ v.tasks) (ht : t ∉ v.tasks) (ht0 : t ≠ 0#32) : v.parent c ≠ t := by
  rintro rfl
  cases hf.parent_mem hc with
  | inl hl => exact ht (hf.mem_tasks.mpr (Or.inl hl))
  | inr h0 => exact ht0 h0

structure Same (v v' : View) : Prop where
  tasks : v'.tasks = v.tasks
  threads : v'.threads = v.threads
  task : ∀ c ∈ v.tasks, v'.parent c = v.parent c ∧ v'.taskId c = v.taskId c
  owner : v'.owner = v.owner
  threadId : v'.threadId = v.threadId
  asleep : v'.asleep = v.asleep
  nextTid : v'.nextTid = v.nextTid
  initTask : v'.initTask = v.initTask
  idleTask : v'.idleTask = v.idleTask

theorem Same.refl (v : View) : Same v v := ⟨rfl, rfl, fun _ _ => ⟨rfl, rfl⟩, rfl, rfl, rfl, rfl, rfl, rfl⟩

theorem Same.listed (hs : Same v v') (hl : Listed v tracked live dead ls) (hf : Facts v live dead)
    (hr : Rings v'.links (heads tracked) ls) : Listed v' tracked live dead ls := by
  refine ⟨hr, ?_⟩
  intro h hh n
  have hlive : ∀ c ∈ live, v'.parent c = v.parent c := fun c hc => (hs.task c (hf.mem_tasks.mpr (Or.inl hc))).1
  have hdead : ∀ c ∈ dead, v'.parent c = v.parent c := fun c hc => (hs.task c (hf.mem_tasks.mpr (Or.inr hc))).1
  rw [hl.mem h hh n]
  cases h <;> cases n <;> simp only [Belongs, hs.threads, hs.owner, hs.threadId, hs.asleep]
  case childTaskHead.childTaskLink q c =>
    apply and_congr_right
    intro hc
    rw [hlive c hc]
  case deadChildHead.deadChildLink q c =>
    apply and_congr_right
    intro hc
    rw [hdead c hc]

theorem Same.facts (hs : Same v v') (hf : Facts v live dead) : Facts v' live dead := by
  have hi := (hs.task v.initTask (hf.mem_tasks.mpr (Or.inl hf.init))).1
  have hd := (hs.task v.idleTask (hf.mem_tasks.mpr (Or.inl hf.idle))).1
  refine ⟨hs.tasks.trans hf.tasks, hf.disjoint, ?_, ?_, ?_, ?_, ?_, ?_, ?_, ?_, ?_, ?_, ?_⟩
  all_goals simp only [hs.tasks, hs.threads, hs.owner, hs.threadId, hs.nextTid, hs.initTask, hs.idleTask, hi, hd]
  · exact hf.zero
  · exact hf.init
  · exact hf.idle
  · exact hf.roots
  · intro c hc
    rw [(hs.task c hc).1]
    exact hf.parent c hc
  · exact hf.owner
  · exact hf.next
  · exact hf.threadIds
  · exact hf.threadId_inj
  · intro c hc
    rw [(hs.task c hc).2]
    exact hf.taskIds c hc
  · intro x hx y hy
    rw [(hs.task x hx).2, (hs.task y hy).2]
    exact hf.taskId_inj x hx y hy

/-! ## New threads and tasks -/

theorem mem_threadLists {i : Int} : n ∈ threadLists t thr i ls h ↔
    n ∈ ls h ∨ (h = .threadHead t ∧ n = .taskThreadLink thr) ∨ (h = .threadMap i ∧ n = .threadMapLink thr) := by
  unfold threadLists
  by_cases h₁ : h = .threadMap i
  · subst h₁
    simp
  · by_cases h₂ : h = .threadHead t
    · subst h₂
      simp
    · simp [h₁, h₂]

theorem mem_emptyLists : n ∈ emptyLists t ls h ↔ h ∉ taskHeads t ∧ n ∈ ls h := by
  simp only [emptyLists, taskHeads, Function.update_apply, List.mem_cons, List.not_mem_nil, or_false]
  split_ifs <;> simp_all

theorem mem_forkLists {i : Int} (hpt : p ≠ t) : n ∈ forkLists p t thr i ls h ↔
    (h ∉ taskHeads t ∧ n ∈ ls h) ∨ (h = .threadHead t ∧ n = .taskThreadLink thr) ∨ (h = .threadMap i ∧ n = .threadMapLink thr) ∨
      (h = .childTaskHead p ∧ n = .childTaskLink t) := by
  unfold forkLists
  by_cases h₁ : h = .childTaskHead p
  · subst h₁
    simp [taskHeads, hpt]
  · rw [Function.update_of_ne h₁]
    unfold taskLists
    rw [mem_threadLists, mem_emptyLists]
    simp [h₁]

def addThread (t thr : Word) (L : Links Node) (v : View) : View :=
  { v with
    links := L
    threads := insert thr v.threads
    owner := Function.update v.owner thr t
    threadId := Function.update v.threadId thr (v.nextTid + 1#32)
    asleep := Function.update v.asleep thr false
    nextTid := v.nextTid + 1#32 }

theorem Listed.addThread {L : Links Node} (hl : Listed v tracked live dead ls) (hthr : thr ∉ v.threads)
    (hr : Rings L (heads tracked) (threadLists t thr (mapIndex (v.nextTid + 1#32)) ls)) :
    Listed (v.addThread t thr L) tracked live dead (threadLists t thr (mapIndex (v.nextTid + 1#32)) ls) := by
  refine ⟨hr, ?_⟩
  intro h hh n
  rw [mem_threadLists, hl.mem h hh n]
  cases h <;> cases n <;> simp only [Belongs, View.addThread, reduceCtorEq, false_and, and_false, or_false, false_or,
    Node.threadHead.injEq, Node.taskThreadLink.injEq, Node.threadMap.injEq, Node.threadMapLink.injEq]
  all_goals
    rename_i x y
    by_cases e : y = thr
    · subst e
      simp [hthr, @eq_comm _ x]
    · simp [e]

theorem id_ne_of_le {a b : Word} (hb : b.toNat < 2 ^ 31) (hmax : b ≠ MAX_TID) (ha : a.toNat ≤ b.toNat) : a ≠ b + 1#32 := by
  rintro rfl
  have := tid_succ hb hmax
  omega

theorem Facts.addThread {L : Links Node} (hf : Facts v live dead) (ht : t ∈ live) (hmax : v.nextTid ≠ MAX_TID) :
    Facts (v.addThread t thr L) live dead := by
  have hsucc := tid_succ hf.next hmax
  refine { hf with next := hsucc.1 ▸ hsucc.2, owner := ?_, threadIds := ?_, threadId_inj := ?_, taskIds := ?_ }
  · intro y hy
    by_cases e : y = thr
    · subst e
      simpa [View.addThread] using ht
    · simpa [View.addThread, e] using hf.owner y (by simpa [View.addThread, e] using hy)
  · intro y hy
    by_cases e : y = thr
    · subst e
      simp [View.addThread]
    · have := hf.threadIds y (by simpa [View.addThread, e] using hy)
      simp only [View.addThread, ne_eq, e, not_false_eq_true, Function.update_of_ne]
      omega
  · intro x hx y hy
    have hnew : ∀ z ∈ v.threads, v.threadId z ≠ v.nextTid + 1#32 := fun z hz => id_ne_of_le hf.next hmax (hf.threadIds z hz)
    simp only [View.addThread, Finset.mem_insert] at hx hy ⊢
    by_cases ex : x = thr <;> by_cases ey : y = thr <;> simp only [ex, ey, false_or, true_or, Function.update_self,
      ne_eq, not_false_eq_true, Function.update_of_ne, forall_const] at hx hy ⊢
    · exact fun e => absurd e.symm (hnew y hy)
    · exact fun e => absurd e (hnew x hx)
    · exact hf.threadId_inj x hx y hy
  · intro c hc
    have := hf.taskIds c hc
    simp only [View.addThread]
    omega

def fork (p t thr : Word) (L : Links Node) (v : View) : View :=
  { v.addThread t thr L with
    tasks := insert t v.tasks
    parent := Function.update v.parent t p
    taskId := Function.update v.taskId t (v.nextTid + 1#32) }

theorem belongs_fork {L : Links Node} (htl : t ∉ live) (htd : t ∉ dead) (hthr : thr ∉ v.threads)
    (hpl : ∀ c ∈ live, v.parent c ≠ t) (hpd : ∀ c ∈ dead, v.parent c ≠ t) (hown : ∀ y ∈ v.threads, v.owner y ≠ t) :
    (v.fork p t thr L).Belongs (insert t live) dead h n ↔
      (h ∉ taskHeads t ∧ v.Belongs live dead h n) ∨ (h = .threadHead t ∧ n = .taskThreadLink thr) ∨
        (h = .threadMap (mapIndex (v.nextTid + 1#32)) ∧ n = .threadMapLink thr) ∨
        (h = .childTaskHead p ∧ n = .childTaskLink t) := by
  cases h <;> cases n <;> simp only [Belongs, View.fork, View.addThread, taskHeads, reduceCtorEq, false_and, and_false,
    or_false, false_or, List.mem_cons, List.not_mem_nil, Node.threadHead.injEq, Node.taskThreadLink.injEq,
    Node.threadMap.injEq, Node.threadMapLink.injEq, Node.childTaskHead.injEq, Node.childTaskLink.injEq,
    Node.deadChildHead.injEq, Node.exitCondVar.injEq, not_false_eq_true, true_and]
  case childTaskHead.childTaskLink q c =>
    by_cases e : c = t
    · subst e
      simp [htl, @eq_comm _ q]
    · have := hpl c
      simp only [e, Finset.mem_insert, false_or, ne_eq, not_false_eq_true, Function.update_of_ne]
      grind
  case deadChildHead.deadChildLink q c =>
    by_cases e : c = t
    · subst e
      simp [htd]
    · have := hpd c
      simp only [ne_eq, e, not_false_eq_true, Function.update_of_ne]
      grind
  case threadHead.taskThreadLink q y =>
    by_cases e : y = thr
    · subst e
      simp [hthr, @eq_comm _ q]
    · have := hown y
      simp only [e, Finset.mem_insert, and_false, or_false, false_or, ne_eq, not_false_eq_true, Function.update_of_ne]
      grind
  case threadMap.threadMapLink i y =>
    by_cases e : y = thr
    · subst e
      simp [hthr, @eq_comm _ i]
    · simp [e]
  case exitCondVar.condWaitLink q y =>
    by_cases e : y = thr
    · subst e
      simp [hthr]
    · have := hown y
      simp only [e, Finset.mem_insert, false_or, ne_eq, not_false_eq_true, Function.update_of_ne]
      grind

theorem Listed.fork {L : Links Node} (hl : Listed v live live dead ls) (hf : Facts v live dead) (hp : p ∈ live)
    (ht : t ∉ v.tasks) (ht0 : t ≠ 0#32) (hthr : thr ∉ v.threads)
    (hr : Rings L (heads (insert t live)) (forkLists p t thr (mapIndex (v.nextTid + 1#32)) ls)) :
    Listed (v.fork p t thr L) (insert t live) (insert t live) dead (forkLists p t thr (mapIndex (v.nextTid + 1#32)) ls) := by
  have hpt : p ≠ t := fun e => ht (e ▸ hf.mem_tasks.mpr (Or.inl hp))
  have htl : t ∉ live := fun hm => ht (hf.mem_tasks.mpr (Or.inl hm))
  refine ⟨hr, ?_⟩
  intro h hh n
  have hold : (h ∉ taskHeads t ∧ n ∈ ls h) ↔ (h ∉ taskHeads t ∧ v.Belongs live dead h n) :=
    and_congr_right fun hn => hl.mem h ((mem_heads_insert hh).resolve_right hn) n
  rw [mem_forkLists hpt, hold]
  refine (belongs_fork htl (fun hm => ht (hf.mem_tasks.mpr (Or.inr hm))) hthr ?_ ?_ ?_).symm
  · exact fun c hc => hf.parent_ne (hf.mem_tasks.mpr (Or.inl hc)) ht ht0
  · exact fun c hc => hf.parent_ne (hf.mem_tasks.mpr (Or.inr hc)) ht ht0
  · exact fun y hy e => htl (e ▸ hf.owner y hy)

theorem Listed.root {L : Links Node} (hl : Listed v live live ∅ ls) (ht : t ∉ live) (ht0 : t ≠ 0#32) (h0 : 0#32 ∉ live)
    (hthr : thr ∉ v.threads) (hroots : ∀ c ∈ live, v.parent c = 0#32) (hown : ∀ y ∈ v.threads, v.owner y ∈ live)
    (hr : Rings L (heads (insert t live)) (taskLists t thr (mapIndex (v.nextTid + 1#32)) ls)) :
    Listed (v.fork 0#32 t thr L) (insert t live) (insert t live) ∅ (taskLists t thr (mapIndex (v.nextTid + 1#32)) ls) := by
  refine ⟨hr, ?_⟩
  intro h hh n
  have hold : (h ∉ taskHeads t ∧ n ∈ ls h) ↔ (h ∉ taskHeads t ∧ v.Belongs live ∅ h n) :=
    and_congr_right fun hn => hl.mem h ((mem_heads_insert hh).resolve_right hn) n
  have hnone : ¬ (h = .childTaskHead 0#32 ∧ n = .childTaskLink t) := by
    rintro ⟨rfl, -⟩
    rw [childTaskHead_mem, Finset.mem_insert] at hh
    exact hh.elim (fun e => ht0 e.symm) h0
  rw [belongs_fork ht (Finset.notMem_empty t) hthr (fun c hc => by rw [hroots c hc]; exact ht0.symm) (by simp)
    (fun y hy e => ht (e ▸ hown y hy))]
  unfold taskLists
  rw [mem_threadLists, mem_emptyLists, hold]
  simp only [hnone, or_false]

theorem Facts.fork {L : Links Node} (hf : Facts v live dead) (hp : p ∈ live) (ht : t ∉ v.tasks) (ht0 : t ≠ 0#32)
    (hmax : v.nextTid ≠ MAX_TID) : Facts (v.fork p t thr L) (insert t live) dead := by
  have hpt : p ≠ t := fun e => ht (e ▸ hf.mem_tasks.mpr (Or.inl hp))
  have hne : ∀ c ∈ v.tasks, c ≠ t := fun c hc e => ht (e ▸ hc)
  have hit : v.initTask ≠ t := hne _ (hf.mem_tasks.mpr (Or.inl hf.init))
  have hdt : v.idleTask ≠ t := hne _ (hf.mem_tasks.mpr (Or.inl hf.idle))
  have hsucc := tid_succ hf.next hmax
  have hmem : ∀ c ∈ insert t v.tasks, c = t ∨ (c ≠ t ∧ c ∈ v.tasks) := by
    intro c hc
    by_cases e : c = t
    · exact Or.inl e
    · exact Or.inr ⟨e, Finset.mem_of_mem_insert_of_ne hc e⟩
  have hthread : ∀ y ∈ insert thr v.threads, y = thr ∨ (y ≠ thr ∧ y ∈ v.threads) := by
    intro y hy
    by_cases e : y = thr
    · exact Or.inl e
    · exact Or.inr ⟨e, Finset.mem_of_mem_insert_of_ne hy e⟩
  have hold : ∀ c ∈ v.tasks, v.taskId c ≠ v.nextTid + 1#32 := fun c hc => id_ne_of_le hf.next hmax (hf.taskIds c hc)
  have hthr : Facts (v.addThread v.initTask thr L) live dead := hf.addThread hf.init hmax
  constructor
  case tasks =>
    simp only [View.fork]
    rw [hf.tasks, Finset.insert_union]
  case disjoint =>
    exact Finset.disjoint_insert_left.mpr ⟨fun hm => ht (hf.mem_tasks.mpr (Or.inr hm)), hf.disjoint⟩
  case zero => simpa [View.fork, ht0.symm] using hf.zero
  case init => exact Finset.mem_insert_of_mem hf.init
  case idle => exact Finset.mem_insert_of_mem hf.idle
  case roots => simpa [View.fork, View.addThread, hit, hdt] using hf.roots
  case parent =>
    intro c hc hci hcd
    rcases hmem c hc with rfl | ⟨e, hc⟩
    · simp [View.fork, hp, hpt]
    · have := hf.parent c hc hci hcd
      simp [View.fork, e, this]
  case owner =>
    intro y hy
    rcases hthread y hy with rfl | ⟨e, hy⟩
    · simp [View.fork, View.addThread]
    · simp [View.fork, View.addThread, e, hf.owner y hy]
  case next => exact hthr.next
  case threadIds => exact hthr.threadIds
  case threadId_inj => exact hthr.threadId_inj
  case taskIds =>
    intro c hc
    rcases hmem c hc with rfl | ⟨e, hc⟩
    · simp [View.fork, View.addThread]
    · have := hf.taskIds c hc
      simp only [View.fork, View.addThread, ne_eq, e, not_false_eq_true, Function.update_of_ne]
      omega
  case taskId_inj =>
    intro x hx y hy he
    rcases hmem x hx with rfl | ⟨ex, hx'⟩ <;> rcases hmem y hy with rfl | ⟨ey, hy'⟩
    · rfl
    · simp only [View.fork, Function.update_self, ne_eq, ey, not_false_eq_true, Function.update_of_ne] at he
      exact absurd he.symm (hold y hy')
    · simp only [View.fork, Function.update_self, ne_eq, ex, not_false_eq_true, Function.update_of_ne] at he
      exact absurd he (hold x hx')
    · simp only [View.fork, ne_eq, ex, ey, not_false_eq_true, Function.update_of_ne] at he
      exact hf.taskId_inj x hx' y hy' he

/-! ## A thread sleeps, a child is reaped, a thread is gone -/

def sleep (thr : Word) (L : Links Node) (v : View) : View :=
  { v with links := L, asleep := Function.update v.asleep thr true }

theorem Listed.sleep (hl : Listed v tracked live dead ls) (ht : t ∈ tracked) (hthr : thr ∈ v.threads)
    (howner : v.owner thr = t) (hawake : v.asleep thr = false) :
    Listed (v.sleep thr (addToTail (.condWaitLink thr) (.exitCondVar t) v.links)) tracked live dead
      (Function.update ls (.exitCondVar t) (ls (.exitCondVar t) ++ [.condWaitLink thr])) := by
  have hr := addToTail_rings hl.rings (h := .exitCondVar t) (n := .condWaitLink thr) ht (by simp) ?_
  · refine ⟨hr, ?_⟩
    intro h hh n
    have hmem : n ∈ Function.update ls (.exitCondVar t) (ls (.exitCondVar t) ++ [.condWaitLink thr]) h ↔
        v.Belongs live dead h n ∨ (h = .exitCondVar t ∧ n = .condWaitLink thr) := by
      rw [← hl.mem h hh, Function.update_apply]
      split_ifs with e <;> simp [e]
    rw [hmem]
    cases h <;> cases n <;> simp only [Belongs, View.sleep, reduceCtorEq, false_and, and_false, or_false,
      Node.exitCondVar.injEq, Node.condWaitLink.injEq]
    case exitCondVar.condWaitLink q y =>
      by_cases e : y = thr
      · subst e
        simp [hthr, howner, hawake, @eq_comm _ q]
      · simp [e]
  · intro h hh hm
    have hb := (hl.mem h hh _).mp hm
    cases h <;> first | exact hb.elim | simp [Belongs, hawake] at hb

theorem Facts.sleep {L : Links Node} (hf : Facts v live dead) : Facts (v.sleep thr L) live dead := { hf with }

def reap (c : Word) (L : Links Node) (v : View) : View := { v with links := L, tasks := v.tasks.erase c }

theorem Listed.reap (hl : Listed v tracked live dead ls) (ht : t ∈ tracked) (hc : c ∈ dead) (hp : v.parent c = t) :
    Listed (v.reap c (delEntry (.deadChildLink c) v.links)) tracked live (dead.erase c)
      (Function.update ls (.deadChildHead t) ((ls (.deadChildHead t)).erase (.deadChildLink c))) := by
  have hm : .deadChildLink c ∈ ls (.deadChildHead t) := (hl.mem (.deadChildHead t) ht _).mpr ⟨hc, hp⟩
  have hnd := (List.nodup_cons.mp (hl.rings.ring (.deadChildHead t) ht).nodup).2
  have hr := delEntry_rings hl.rings (h := .deadChildHead t) ht hm
  refine ⟨hr, ?_⟩
  intro h hh n
  have hmem : n ∈ Function.update ls (.deadChildHead t) ((ls (.deadChildHead t)).erase (.deadChildLink c)) h ↔
      v.Belongs live dead h n ∧ (h = .deadChildHead t → n ≠ .deadChildLink c) := by
    rw [← hl.mem h hh, Function.update_apply]
    split_ifs with e
    · subst e
      rw [hnd.mem_erase_iff]
      simp [and_comm]
    · simp [e]
  rw [hmem]
  cases h <;> cases n <;> simp only [Belongs, View.reap, reduceCtorEq, IsEmpty.forall_iff, and_true, ne_eq,
    Node.deadChildHead.injEq, Node.deadChildLink.injEq, not_false_eq_true, implies_true, Finset.mem_erase]
  case deadChildHead.deadChildLink q b =>
    by_cases e : b = c
    · subst e
      simp [hp, @eq_comm _ q]
    · simp [e]

theorem Facts.reap {L : Links Node} (hf : Facts v live dead) (hc : c ∈ dead) : Facts (v.reap c L) live (dead.erase c) := by
  have hcl : c ∉ live := fun hm => Finset.disjoint_left.mp hf.disjoint hm hc
  refine { hf with tasks := ?_, disjoint := ?_, zero := ?_, parent := ?_, taskIds := ?_, taskId_inj := ?_ }
  · simp only [View.reap]
    rw [hf.tasks, Finset.erase_union_distrib, Finset.erase_eq_of_notMem hcl]
  · exact hf.disjoint.mono_right (Finset.erase_subset c dead)
  · exact fun hm => hf.zero (Finset.mem_of_mem_erase hm)
  · exact fun b hb => hf.parent b (Finset.mem_of_mem_erase hb)
  · exact fun b hb => hf.taskIds b (Finset.mem_of_mem_erase hb)
  · exact fun x hx y hy => hf.taskId_inj x (Finset.mem_of_mem_erase hx) y (Finset.mem_of_mem_erase hy)

def dropThread (thr : Word) (v : View) : View := { v with links := threadGone thr v.links, threads := v.threads.erase thr }

def goneLists (t thr : Word) (i : Int) (ls : Node → List Node) : Node → List Node :=
  Function.update (Function.update ls (.threadMap i) ((ls (.threadMap i)).erase (.threadMapLink thr)))
    (.threadHead t) ((ls (.threadHead t)).erase (.taskThreadLink thr))

theorem Listed.dropThread (hl : Listed v tracked live dead ls) (ht : v.owner thr ∈ tracked) (hthr : thr ∈ v.threads)
    (hi : 0 ≤ mapIndex (v.threadId thr) ∧ mapIndex (v.threadId thr) < HASHMAP_SIZE) (hawake : v.asleep thr = false) :
    Listed (v.dropThread thr) tracked live dead (goneLists (v.owner thr) thr (mapIndex (v.threadId thr)) ls) := by
  have hm₁ : .threadMapLink thr ∈ ls (.threadMap (mapIndex (v.threadId thr))) := (hl.mem (.threadMap _) hi _).mpr ⟨hthr, rfl⟩
  have hm₂ : .taskThreadLink thr ∈ ls (.threadHead (v.owner thr)) := (hl.mem (.threadHead _) ht _).mpr ⟨hthr, rfl⟩
  have hnd₁ := (List.nodup_cons.mp (hl.rings.ring (.threadMap _) hi).nodup).2
  have hnd₂ := (List.nodup_cons.mp (hl.rings.ring (.threadHead _) ht).nodup).2
  have hr₁ := delEntry_rings hl.rings (h := .threadMap _) hi hm₁
  have hr₂ := delEntry_rings hr₁ (h := .threadHead (v.owner thr)) (n := .taskThreadLink thr) ht
    (by rwa [Function.update_of_ne (by simp)])
  rw [Function.update_of_ne (by simp : Node.threadHead (v.owner thr) ≠ _)] at hr₂
  refine ⟨hr₂, ?_⟩
  intro h hh n
  have hmem : n ∈ goneLists (v.owner thr) thr (mapIndex (v.threadId thr)) ls h ↔ v.Belongs live dead h n ∧
      (h = .threadMap (mapIndex (v.threadId thr)) → n ≠ .threadMapLink thr) ∧
      (h = .threadHead (v.owner thr) → n ≠ .taskThreadLink thr) := by
    rw [← hl.mem h hh]
    unfold goneLists
    by_cases e₂ : h = .threadHead (v.owner thr)
    · subst e₂
      rw [Function.update_self, hnd₂.mem_erase_iff]
      simp [and_comm]
    · rw [Function.update_of_ne e₂]
      by_cases e₁ : h = .threadMap (mapIndex (v.threadId thr))
      · subst e₁
        rw [Function.update_self, hnd₁.mem_erase_iff]
        simp [and_comm]
      · simp [e₁, e₂]
  rw [hmem]
  cases h <;> cases n <;> simp only [Belongs, View.dropThread, reduceCtorEq, IsEmpty.forall_iff, and_true, ne_eq,
    Node.threadMap.injEq, Node.threadMapLink.injEq, Node.threadHead.injEq, Node.taskThreadLink.injEq, not_false_eq_true,
    implies_true, Finset.mem_erase, true_and]
  case threadMap.threadMapLink i y =>
    by_cases e : y = thr
    · subst e
      simp [@eq_comm _ i]
    · simp [e]
  case threadHead.taskThreadLink q y =>
    by_cases e : y = thr
    · subst e
      simp [@eq_comm _ q]
    · simp [e]
  case exitCondVar.condWaitLink q y =>
    by_cases e : y = thr
    · subst e
      simp [hawake]
    · simp [e]

theorem Facts.dropThread (hf : Facts v live dead) : Facts (v.dropThread thr) live dead :=
  { hf with
    owner := fun y hy => hf.owner y (Finset.mem_of_mem_erase hy)
    threadIds := fun y hy => hf.threadIds y (Finset.mem_of_mem_erase hy)
    threadId_inj := fun x hx y hy => hf.threadId_inj x (Finset.mem_of_mem_erase hx) y (Finset.mem_of_mem_erase hy) }

/-! ## A task vanishes -/

def give (t : Word) (cs : List Word) (v : View) : View :=
  { v with
    parent := fun c => if c ∈ cs then v.initTask else v.parent c
    links := concatLists (.deadChildHead v.initTask) (.deadChildHead t)
      (concatLists (.childTaskHead v.initTask) (.childTaskHead t) v.links) }

def giveLists (t init : Word) (ls : Node → List Node) : Node → List Node :=
  Function.update (Function.update ls (.childTaskHead init) (ls (.childTaskHead init) ++ ls (.childTaskHead t)))
    (.deadChildHead init) (ls (.deadChildHead init) ++ ls (.deadChildHead t))

theorem give_rings {init : Word} {L : Links Node} (hr : Rings L (heads live) ls) (ht : t ∈ live) (hi : init ∈ live)
    (hne : init ≠ t) : Rings (concatLists (.deadChildHead init) (.deadChildHead t)
      (concatLists (.childTaskHead init) (.childTaskHead t) L)) (heads (live.erase t)) (giveLists t init ls) := by
  have h₁ := concatLists_rings hr (show .childTaskHead init ∈ heads live from hi)
    (show .childTaskHead t ∈ heads live from ht) (by simpa)
  have h₂ := concatLists_rings h₁ (show .deadChildHead init ∈ heads live \ {.childTaskHead t} from ⟨hi, by simp⟩)
    (show .deadChildHead t ∈ heads live \ {.childTaskHead t} from ⟨ht, by simp⟩) (by simpa)
  rw [Function.update_of_ne (by simp), Function.update_of_ne (by simp)] at h₂
  refine h₂.mono ?_
  intro h hh
  cases h <;> simp_all

theorem mem_giveLists {init : Word} : n ∈ giveLists t init ls h ↔ n ∈ ls h ∨
    (h = .childTaskHead init ∧ n ∈ ls (.childTaskHead t)) ∨ (h = .deadChildHead init ∧ n ∈ ls (.deadChildHead t)) := by
  unfold giveLists
  by_cases e₁ : h = .deadChildHead init
  · subst e₁
    simp
  · by_cases e₂ : h = .childTaskHead init
    · subst e₂
      simp
    · simp [e₁, e₂]

theorem Listed.give {cs : List Word} (hl : Listed v live live dead ls) (ht : t ∈ live) (hi : v.initTask ∈ live)
    (hne : v.initTask ≠ t) (hcs : ∀ c, c ∈ cs ↔ (c ∈ live ∨ c ∈ dead) ∧ v.parent c = t) :
    Listed (v.give t cs) (live.erase t) live dead (giveLists t v.initTask ls) := by
  refine ⟨give_rings hl.rings ht hi hne, ?_⟩
  intro h hh n
  have hhl : h ∈ heads live := by cases h <;> simp_all
  rw [mem_giveLists, hl.mem h hhl, hl.mem (.childTaskHead t) ht, hl.mem (.deadChildHead t) ht]
  cases h <;> cases n <;> simp only [Belongs, View.give, reduceCtorEq, false_and, and_false, or_false, or_self,
    Node.childTaskHead.injEq, Node.deadChildHead.injEq]
  case childTaskHead.childTaskLink q c =>
    have hq : q ≠ t := (Finset.mem_erase.mp hh).1
    have := hcs c
    grind
  case deadChildHead.deadChildLink q c =>
    have hq : q ≠ t := (Finset.mem_erase.mp hh).1
    have := hcs c
    grind

def exit (woken : List Word) (L : Links Node) (v : View) : View :=
  { v with links := L, asleep := fun y => if y ∈ woken then false else v.asleep y }

theorem mem_exitLists {ts : List Word} (hnd : (ls (.childTaskHead p)).Nodup) : n ∈ exitLists t p ts ls h ↔
    (h ≠ .exitCondVar p ∧ n ∈ ls h ∧ (h = .childTaskHead p → n ≠ .childTaskLink t)) ∨
      (h = .deadChildHead p ∧ n = .deadChildLink t) ∨ (h = .exitCondVar p ∧ n ∈ ts.map Node.condWaitLink) := by
  by_cases e₁ : h = .exitCondVar p
  · subst e₁
    simp
  · by_cases e₂ : h = .deadChildHead p
    · subst e₂
      simp
    · by_cases e₃ : h = .childTaskHead p
      · subst e₃
        rw [exitLists_alive, hnd.mem_erase_iff]
        simp [and_comm]
      · simp [exitLists, e₁, e₂, e₃]

theorem Listed.exit {woken rest : List Word} {L : Links Node} (hl : Listed v tracked live dead ls) (hp : v.parent t ∈ tracked)
    (hq : ls (.exitCondVar (v.parent t)) = (woken ++ rest).map .condWaitLink)
    (hr : Rings L (heads tracked) (exitLists t (v.parent t) rest ls)) :
    Listed (v.exit woken L) tracked (live.erase t) (insert t dead) (exitLists t (v.parent t) rest ls) := by
  refine ⟨hr, ?_⟩
  intro h hh n
  rw [mem_exitLists (List.nodup_cons.mp (hl.rings.ring (.childTaskHead _) hp).nodup).2, hl.mem h hh]
  have hwait : ∀ y, y ∈ woken ++ rest ↔ y ∈ v.threads ∧ v.owner y = v.parent t ∧ v.asleep y := by
    intro y
    have hy := hl.mem (.exitCondVar (v.parent t)) hp (.condWaitLink y)
    rw [hq, List.mem_map_of_injective (fun _ _ => Node.condWaitLink.inj)] at hy
    exact hy
  have hnd : (woken ++ rest).Nodup := by
    have := (List.nodup_cons.mp (hl.rings.ring (.exitCondVar (v.parent t)) hp).nodup).2
    rw [hq] at this
    exact this.of_map
  cases h <;> cases n <;> simp only [Belongs, View.exit, reduceCtorEq, false_and, and_false, or_false, false_or, or_self, ne_eq,
    Node.childTaskHead.injEq, Node.childTaskLink.injEq, Node.deadChildHead.injEq, Node.deadChildLink.injEq,
    Node.exitCondVar.injEq, not_false_eq_true, true_and, and_true, IsEmpty.forall_iff, implies_true, List.mem_map,
    Node.condWaitLink.injEq, exists_eq_right, Finset.mem_erase, Finset.mem_insert, exists_false]
  case childTaskHead.childTaskLink q c => grind
  case deadChildHead.deadChildLink q c => grind
  case exitCondVar.condWaitLink q y =>
    have hy := hwait y
    have hdisj : y ∈ woken → y ∉ rest := fun hw hr => (List.nodup_append.mp hnd).2.2 y hw y hr rfl
    rw [List.mem_append] at hy
    by_cases hw : y ∈ woken
    · have := hy.mp (Or.inl hw)
      simp only [hw, if_true]
      grind
    · simp only [hw, if_false]
      grind

theorem Facts.vanish {cs woken : List Word} {L : Links Node} (hf : Facts v live dead) (ht : t ∈ live) (hi : v.initTask ≠ t)
    (hd : v.idleTask ≠ t) (hlast : ∀ y ∈ v.threads, v.owner y ≠ t)
    (hcs : ∀ c, c ∈ cs ↔ (c ∈ live ∨ c ∈ dead) ∧ v.parent c = t) :
    Facts ((v.give t cs).exit woken L) (live.erase t) (insert t dead) := by
  have ht0 : t ≠ 0#32 := fun e => hf.zero (e ▸ hf.mem_tasks.mpr (Or.inl ht))
  have hroot : ∀ c, v.parent c = 0#32 → c ∉ cs := fun c h0 hm => ht0 (((hcs c).mp hm).2.symm.trans h0)
  refine { hf with tasks := ?_, disjoint := ?_, init := ?_, idle := ?_, roots := ?_, parent := ?_, owner := ?_ }
  · simp only [View.exit, View.give]
    rw [hf.tasks, Finset.erase_union_of_mem (Finset.mem_insert_self t dead), Finset.union_insert,
      Finset.insert_eq_of_mem (Finset.mem_union_left dead ht)]
  · refine Finset.disjoint_insert_right.mpr ⟨Finset.notMem_erase t live, ?_⟩
    exact hf.disjoint.mono_left (Finset.erase_subset t live)
  · exact Finset.mem_erase.mpr ⟨hi, hf.init⟩
  · exact Finset.mem_erase.mpr ⟨hd, hf.idle⟩
  · simp only [View.exit, View.give, hroot _ hf.roots.1, hroot _ hf.roots.2, if_false]
    exact hf.roots
  · intro c hc hci hcd
    have hcm : c ∈ live ∨ c ∈ dead := hf.mem_tasks.mp hc
    simp only [View.exit, View.give]
    split_ifs with hm
    · exact ⟨Finset.mem_erase.mpr ⟨hi, hf.init⟩, fun e => hci e.symm⟩
    · have hpar := hf.parent c hc hci hcd
      refine ⟨Finset.mem_erase.mpr ⟨?_, hpar.1⟩, hpar.2⟩
      exact fun e => hm ((hcs c).mpr ⟨hcm, e⟩)
  · intro y hy
    exact Finset.mem_erase.mpr ⟨hlast y hy, hf.owner y hy⟩

end

end View

end Pebbles
