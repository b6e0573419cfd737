import Pebbles.Args
import Pebbles.FirstThread
import Pebbles.ReadOnly
import Pebbles.Swexn

/-!
# Whose handler a task has

A handler for exceptions should belong to the program that registered it. Every load of a
program has a number; a task has the number of its program, and with its handler goes the
number of the program that registered it. `do_exec` leaves the handler of the old program.
-/

namespace Pebbles

open Words Runs Kernel Ring

/-- `program t` is the number of the load that gave the task its program, and `registered t`
is the last handler that `swexn` installed for it, with the program that did. -/
structure Handlers where
  kernel : Kernel
  program : Word → Nat
  registered : Word → Nat × Word × Word × Word
  loads : Nat

namespace Handlers

def fork (taskMem : Option Word) (k : Kernel) (x : Handlers) : Handlers :=
  match taskMem with
  | none => { x with kernel := k }
  | some t => { x with
      kernel := k
      program := Function.update x.program t (x.program x.kernel.currTask)
      registered := Function.update x.registered t (x.registered x.kernel.currTask) }

def exec (r : Int) (k : Kernel) (x : Handlers) : Handlers :=
  if r < 0 then { x with kernel := k }
  else { x with
    kernel := k
    program := Function.update x.program x.kernel.currTask (x.loads + 1)
    loads := x.loads + 1 }

def installs (argPacket : Word) (k : Kernel) : Option (Word × Word × Word) :=
  match k.swexnArgs argPacket with
  | some (.ok (esp3, eip, arg, _)) => if esp3 = 0#32 ∨ eip = 0#32 then none else some (eip, arg, esp3)
  | _ => none

def swexn (argPacket : Word) (k : Kernel) (x : Handlers) : Handlers :=
  match installs argPacket x.kernel with
  | none => { x with kernel := k }
  | some h => { x with
      kernel := k
      registered := Function.update x.registered x.kernel.currTask (x.program x.kernel.currTask, h) }

/-- A switch to a thread, or what the current one does. `do_exec` is called only where it is
`ok`. A fault of a thread without a handler ends in `kill`. -/
inductive Step (ok : Kernel → Prop) : Handlers → Handlers → Prop
  | switch {x thr} : thr ∈ x.kernel.threads → Step ok x { x with kernel := x.kernel.switchToThread thr }
  | fork {x taskMem thrMem r k'} : x.kernel.currThread ∈ x.kernel.threads → Heap x.kernel taskMem thrMem →
      x.kernel.doFork taskMem thrMem = some (r, k') → Step ok x (x.fork taskMem k')
  | threadFork {x thrMem r k'} : x.kernel.currThread ∈ x.kernel.threads → Heap x.kernel none thrMem →
      x.kernel.doThreadFork thrMem = some (r, k') → Step ok x { x with kernel := k' }
  | exec {x toc heap eflags argPacket r k'} : x.kernel.currThread ∈ x.kernel.threads → ok x.kernel →
      x.kernel.doExec toc heap eflags argPacket = some (r, k') → Step ok x (x.exec r k')
  | swexn {x argPacket r k'} : x.kernel.currThread ∈ x.kernel.threads →
      x.kernel.swexnHandlerC argPacket = some (r, k') → Step ok x (x.swexn argPacket k')
  | fault {x errorCode} (r : Regs) : x.kernel.currThread ∈ x.kernel.threads →
      Step ok x { x with kernel := x.kernel.enterFault r errorCode }
  | deliver {x cause cr2 r k'} : x.kernel.currThread ∈ x.kernel.threads →
      x.kernel.invokeSwexnHandler cause cr2 = some (r, k') → Step ok x { x with kernel := k' }
  | kill {x k'} (status : Word) : x.kernel.currThread ∈ x.kernel.threads →
      (x.kernel.setStatus status).doVanish = some k' → Step ok x { x with kernel := k' }

structure Booted (x : Handlers) : Prop where
  zero : 0#32 ∉ x.kernel.tasks
  owner : ∀ thr ∈ x.kernel.threads, (x.kernel.thread thr).parentTask ∈ x.kernel.tasks
  none : ∀ t ∈ x.kernel.tasks, (x.kernel.task t).eip = 0#32

def Own (x : Handlers) : Prop :=
  ∀ t ∈ x.kernel.tasks, (x.kernel.task t).eip ≠ 0#32 → x.registered t = (x.program t, (x.kernel.task t).handler)

structure Inv (x : Handlers) : Prop where
  zero : 0#32 ∉ x.kernel.tasks
  owner : ∀ thr ∈ x.kernel.threads, (x.kernel.thread thr).parentTask ∈ x.kernel.tasks
  own : x.Own

def NoHandler (k : Kernel) : Prop := (k.task k.currTask).eip = 0#32

section
variable {x : Handlers} {k k' : Kernel} {t thr : Word} {r : Int}

structure Keeps (k k' : Kernel) : Prop where
  tasks : k'.tasks = k.tasks
  threads : k'.threads ⊆ k.threads
  owner : ∀ y, (k'.thread y).parentTask = (k.thread y).parentTask
  handler : ∀ t, (k'.task t).handler = (k.task t).handler

theorem eip_of_handler {a b : Task} (h : a.handler = b.handler) : a.eip = b.eip := congrArg Prod.fst h

theorem Keeps.of_beside {S : Set Node} (h : Beside S k k') :
    Keeps k k' := ⟨h.tasks, h.threads.subset, h.owner, h.handler⟩

theorem Inv.keeps (h : x.Inv) (hk : Keeps x.kernel k') : Inv { x with kernel := k' } := by
  refine ⟨?_, fun y hy => ?_, fun t ht hne => ?_⟩
  · rw [hk.tasks]
    exact h.zero
  · rw [hk.owner, hk.tasks]
    exact h.owner y (hk.threads hy)
  · dsimp only at ht hne ⊢
    rw [hk.tasks] at ht
    rw [eip_of_handler (hk.handler t)] at hne
    rw [hk.handler t]
    exact h.own t ht hne

theorem Inv.task (h : x.Inv) (hc : x.kernel.currThread ∈ x.kernel.threads) :
    x.kernel.currTask ∈ x.kernel.tasks := h.owner _ hc

theorem closed_univ (l : Links Node) : Closed Set.univ l := fun _ _ => ⟨trivial, trivial⟩

theorem hasLists_univ (t : Word) : HasLists Set.univ t := ⟨trivial, trivial, trivial⟩

theorem switchToThread_keeps : Keeps k (k.switchToThread thr) := by
  have hb : Beside Set.univ k (k.setThread thr fun s => { s with status := .running }) :=
    (Beside.refl (closed_univ _)).setThread (fun _ => rfl) fun _ => rfl
  exact ⟨hb.tasks, hb.threads.subset, hb.owner, hb.handler⟩

theorem Keeps.freeThread (h : Keeps k k') : Keeps k (k'.freeThread thr) :=
  ⟨h.tasks, (Finset.erase_subset ..).trans h.threads, h.owner, h.handler⟩

theorem Keeps.trans {k'' : Kernel} (h : Keeps k k') (h' : Keeps k' k'') : Keeps k k'' :=
  ⟨h'.tasks.trans h.tasks, h'.threads.trans h.threads, fun y => (h'.owner y).trans (h.owner y),
    fun t => (h'.handler t).trans (h.handler t)⟩

theorem doVanish_keeps (h : k.doVanish = some k') : Keeps k k' := by
  unfold doVanish at h
  simp only [Option.bind_eq_bind, Option.bind_eq_some_iff] at h
  obtain ⟨k₁, hlock, k₂, hrem, k₃, hun, h⟩ := h
  obtain ⟨k₂', hmap, rfl⟩ := Option.map_eq_some_iff.mp hrem
  have b₂ := ((Beside.refl (closed_univ _)).mutexLock hlock).removeThreadFromMap trivial hmap
  have b₃ := (b₂.withLinks (delEntry_within (closed_univ _) trivial) le_rfl).mutexUnlock hun
  split at h
  · cases h
    exact (Keeps.of_beside b₃).freeThread
  · simp only [Option.bind_eq_some_iff] at h
    obtain ⟨k₄, hgive, k₅, hrep, h⟩ := h
    cases h
    have b₄ := (b₃.giveChildren (hasLists_univ _) (hasLists_univ _) hgive).leaveSpace (t := k.currTask)
    exact ((Keeps.of_beside b₄).trans
      (Keeps.of_beside ((Beside.refl (closed_univ _)).reportExit trivial (hasLists_univ _) hrep))).freeThread

theorem setStatus_keeps (status : Word) : Keeps k (k.setStatus status) :=
  .of_beside ((Beside.refl (closed_univ _)).setTask (fun _ => rfl) (fun _ => rfl) fun _ => .inl rfl)

theorem enterFault_keeps {e : Option Word} (regs : Regs) : Keeps k (k.enterFault regs e) :=
  .of_beside ((Beside.refl (closed_univ _)).setThread (fun _ => rfl) fun _ => rfl)

/-! ## The calls that change handlers -/

structure KeepsOthers (k k' : Kernel) : Prop where
  tasks : k'.tasks = k.tasks
  threads : k'.threads = k.threads
  owner : ∀ y, (k'.thread y).parentTask = (k.thread y).parentTask
  others : ∀ t, t ≠ k.currTask → k'.task t = k.task t

theorem KeepsOthers.refl : KeepsOthers k k := ⟨rfl, rfl, fun _ => rfl, fun _ _ => rfl⟩

theorem KeepsOthers.setTask {f : Task → Task} (h : KeepsOthers k k') : KeepsOthers k (k'.setTask k.currTask f) :=
  ⟨h.tasks, h.threads, h.owner, fun t ht => (Function.update_of_ne ht ..).trans (h.others t ht)⟩

theorem KeepsOthers.setStack (thr : Word) (f : (Nat → Word) → Nat → Word) (h : KeepsOthers k k') :
    KeepsOthers k (k'.setThread thr fun s => { s with kStack := f s.kStack }) := by
  refine ⟨h.tasks, h.threads, fun y => ?_, h.others⟩
  rw [← h.owner y]
  by_cases e : y = thr <;> simp [setThread, e]

theorem currTask_setStack (k : Kernel) (thr : Word) (f : (Nat → Word) → Nat → Word) :
    (k.setThread thr fun s => { s with kStack := f s.kStack }).currTask = k.currTask := by
  by_cases e : k.currThread = thr <;> simp [currTask, setThread, e]

theorem Inv.keepsOthers (registered : Word → Nat × Word × Word × Word) (h : x.Inv) (hk : KeepsOthers x.kernel k')
    (hothers : ∀ t, t ≠ x.kernel.currTask → registered t = x.registered t)
    (hcurr : (k'.task x.kernel.currTask).eip ≠ 0#32 → x.kernel.currTask ∈ x.kernel.tasks →
      registered x.kernel.currTask = (x.program x.kernel.currTask, (k'.task x.kernel.currTask).handler)) :
    Inv { x with kernel := k', registered := registered } := by
  refine ⟨?_, fun y hy => ?_, fun t ht hne => ?_⟩
  · rw [hk.tasks]
    exact h.zero
  · dsimp only at hy ⊢
    rw [hk.owner, hk.tasks]
    exact h.owner y (hk.threads ▸ hy)
  · dsimp only at ht hne ⊢
    rw [hk.tasks] at ht
    by_cases e : t = x.kernel.currTask
    · rw [e] at hne ht ⊢
      exact hcurr hne ht
    · rw [hk.others t e] at hne ⊢
      rw [hothers t e]
      exact h.own t ht hne

theorem Inv.deliver {cause cr2 : Word} (h : x.Inv) (hd : x.kernel.invokeSwexnHandler cause cr2 = some (r, k')) :
    Inv { x with kernel := k' } := by
  unfold invokeSwexnHandler at hd
  dsimp only at hd
  split_ifs at hd
  · cases hd
    exact h
  · simp only [Option.bind_eq_bind, Option.bind_eq_some_iff] at hd
    obtain ⟨⟨esp, vm⟩, -, hd⟩ := hd
    cases hd
    have hk : KeepsOthers x.kernel { x.kernel with vm := vm } := ⟨rfl, rfl, fun _ => rfl, fun _ _ => rfl⟩
    have ho := hk.setStack x.kernel.currThread (updateFaultStack esp (x.kernel.task x.kernel.currTask).eip)
    have hc := currTask_setStack { x.kernel with vm := vm } x.kernel.currThread
      (updateFaultStack esp (x.kernel.task x.kernel.currTask).eip)
    dsimp only at ho hc ⊢
    generalize setThread x.kernel.currThread _ _ = k₁ at ho hc ⊢
    rw [hc]
    refine h.keepsOthers x.registered ho.setTask (fun _ _ => rfl) fun hne _ => absurd ?_ hne
    simp [setTask, currTask]

theorem swexnHandlerC_handler {argPacket : Word} (h : k.swexnHandlerC argPacket = some (r, k')) : KeepsOthers k k' ∧
    ((installs argPacket k = none ∧ ((k'.task k.currTask).handler = (k.task k.currTask).handler ∨
        (k'.task k.currTask).eip = 0#32)) ∨
      ∃ c, installs argPacket k = some c ∧ (k'.task k.currTask).handler = c) := by
  rw [swexnHandlerC_eq, Option.bind_eq_some_iff] at h
  obtain ⟨a, ha, h⟩ := h
  rcases a with e | ⟨esp3, eip, arg, newureg⟩
  · cases h
    exact ⟨.refl, .inl ⟨by simp [installs, ha], .inl rfl⟩⟩
  · dsimp only at h
    by_cases hz : esp3 = 0#32 ∨ eip = 0#32
    · rw [installHandler_remove hz] at h
      cases h
      exact ⟨KeepsOthers.refl.setTask, .inl ⟨by simp [installs, ha, hz], .inr (by simp [setTask])⟩⟩
    · have hi : installs argPacket k = some (eip, arg, esp3) := by simp [installs, ha, hz]
      have hset : KeepsOthers k (k.setHandler esp3 eip arg) := KeepsOthers.refl.setTask
      by_cases hn : newureg = 0#32
      · subst hn
        rw [installHandler_null hz] at h
        cases h
        exact ⟨hset, .inr ⟨_, hi, handler_setHandler⟩⟩
      · rw [installHandler_read hz hn] at h
        obtain ⟨u, -, h⟩ := Option.map_eq_some_iff.mp h
        split_ifs at h
        · cases h
          exact ⟨hset, .inr ⟨_, hi, handler_setHandler⟩⟩
        · cases h
          exact ⟨hset.setStack k.currThread fun stack => (u.setupKernelStack stack).2, .inr ⟨_, hi, handler_setHandler⟩⟩

theorem Inv.swexn {argPacket : Word} (h : x.Inv) (hs : x.kernel.swexnHandlerC argPacket = some (r, k')) :
    (x.swexn argPacket k').Inv := by
  obtain ⟨hk, ⟨hi, hh⟩ | ⟨c, hi, hh⟩⟩ := swexnHandlerC_handler hs
  · simp only [Handlers.swexn, hi]
    refine h.keepsOthers x.registered hk (fun _ _ => rfl) fun hne ht => ?_
    rcases hh with hh | hh
    · rw [eip_of_handler hh] at hne
      rw [hh]
      exact h.own _ ht hne
    · exact absurd hh hne
  · simp only [Handlers.swexn, hi]
    refine h.keepsOthers _ hk (fun t ht => Function.update_of_ne ht ..) fun _ _ => ?_
    rw [Function.update_self, hh]

theorem Inv.exec {toc : Toc} {heap : ExecHeap} {eflags argPacket : Word} (h : x.Inv) (hok : NoHandler x.kernel)
    (hx : x.kernel.doExec toc heap eflags argPacket = some (r, k')) : (x.exec r k').Inv := by
  have hk := Keeps.of_beside (doExec_beside (closed_univ _) hx)
  have hi := h.keeps hk
  unfold Handlers.exec
  split_ifs
  · exact hi
  · refine ⟨hi.zero, hi.owner, fun t ht hne => ?_⟩
    have e : t ≠ x.kernel.currTask := by
      rintro rfl
      exact hne ((eip_of_handler (hk.handler _)).trans hok)
    dsimp only
    rw [Function.update_of_ne e]
    exact hi.own t ht hne

theorem Inv.threadFork {thrMem : Option Word} (h : x.Inv) (hc : x.kernel.currThread ∈ x.kernel.threads)
    (hf : x.kernel.doThreadFork thrMem = some (r, k')) : Inv { x with kernel := k' } := by
  cases thrMem with
  | none =>
    rw [doThreadFork_none hf]
    exact h
  | some thr =>
    have ht := h.task hc
    obtain ⟨-, -, rfl⟩ := doThreadFork_some hf fun e => h.zero (e ▸ ht)
    refine ⟨h.zero, fun y hy => ?_, h.own⟩
    by_cases e : y = thr
    · simpa [runqAddThread, cloneKStack, setThread, newThread, e] using ht
    · have hy : y ∈ x.kernel.threads := Finset.mem_of_mem_insert_of_ne hy e
      simpa [runqAddThread, cloneKStack, setThread, newThread, e] using h.owner y hy

theorem Inv.child (h : x.Inv) (hp : x.kernel.currTask ∈ x.kernel.tasks) (ht : t ∉ x.kernel.tasks) (h0 : t ≠ 0#32)
    (howner : ∀ y ∈ k'.threads, (k'.thread y).parentTask ∈ k'.tasks)
    (htasks : ∀ u ∈ k'.tasks, (u ∈ x.kernel.tasks ∧ (k'.task u).handler = (x.kernel.task u).handler) ∨
      (u = t ∧ (k'.task u).handler = (x.kernel.task x.kernel.currTask).handler)) : (x.fork (some t) k').Inv := by
  refine ⟨fun hz => ?_, howner, fun u hu hne => ?_⟩
  · rcases htasks _ hz with ⟨hz, -⟩ | ⟨hz, -⟩
    · exact h.zero hz
    · exact h0 hz.symm
  · simp only [Handlers.fork] at hne ⊢
    rcases htasks u hu with ⟨hu, hh⟩ | ⟨rfl, hh⟩
    · have e : u ≠ t := fun e => ht (e ▸ hu)
      rw [Function.update_of_ne e, Function.update_of_ne e, hh]
      exact h.own u hu (eip_of_handler hh ▸ hne)
    · rw [Function.update_self, Function.update_self, hh]
      exact h.own _ hp (eip_of_handler hh ▸ hne)

theorem attached_task (p t thr : Word) (k : Kernel) : ((attached p t thr k).task t).thr = thr ∧
    ∀ u, u ≠ t → (attached p t thr k).task u = k.task u :=
  ⟨by simp [attached, withLinks, newTask], fun u hu => by simp [attached, withLinks, newTask, hu]⟩

theorem attached_owner (p t thr : Word) (k : Kernel) : ((attached p t thr k).thread thr).parentTask = t ∧
    ∀ y, y ≠ thr → ((attached p t thr k).thread y).parentTask = (k.thread y).parentTask :=
  ⟨by simp [attached, withLinks, newTask, newThread], fun y hy => by simp [attached, withLinks, newTask, newThread, hy]⟩

theorem Inv.fork {taskMem thrMem : Option Word} (h : x.Inv) (hc : x.kernel.currThread ∈ x.kernel.threads)
    (hh : Heap x.kernel taskMem thrMem) (hf : x.kernel.doFork taskMem thrMem = some (r, k')) :
    (x.fork taskMem k').Inv := by
  have hp := h.task hc
  cases taskMem with
  | none =>
    rcases doFork_none hf (.inl rfl) hp (by simp) with rfl | ⟨t, ht, -⟩
    · exact h
    · cases ht
  | some t =>
    obtain ⟨h0, htt⟩ := hh.task t rfl
    have hpt : x.kernel.currTask ≠ t := fun e => htt (e ▸ hp)
    cases thrMem with
    | none =>
      rcases doFork_none hf (.inr rfl) hp (fun u hu => (hh.task u hu).2) with rfl | ⟨u, hu, rfl⟩
      · exact h.child hp htt h0 h.owner fun u hu => .inl ⟨hu, rfl⟩
      · cases hu
        refine h.child hp htt h0 h.owner fun u hu => .inl ⟨hu, ?_⟩
        have e : u ≠ t := fun e => htt (e ▸ hu)
        simp [blankTask, e]
    | some thr =>
      have hthr := hh.thread thr rfl
      obtain ⟨hself, hother⟩ := attached_task x.kernel.currTask t thr x.kernel
      obtain ⟨hnew, hold⟩ := attached_owner x.kernel.currTask t thr x.kernel
      rcases (doFork_some hf h0 hpt).2 with ⟨vm, -, -, rfl⟩ | ⟨newPd, vm, -, -, rfl⟩
      · -- the child and its thread are freed again
        have htasks : (uncloned t vm (attached x.kernel.currTask t thr x.kernel)).tasks = x.kernel.tasks :=
          Finset.erase_insert htt
        have hthreads : (uncloned t vm (attached x.kernel.currTask t thr x.kernel)).threads = x.kernel.threads := by
          show (insert thr x.kernel.threads).erase _ = _
          rw [hself, Finset.erase_insert hthr]
        refine h.child hp htt h0 (fun y hy => ?_) fun u hu => ?_
        · rw [hthreads] at hy
          rw [htasks]
          exact (hold y fun e => hthr (e ▸ hy)) ▸ h.owner y hy
        · rw [htasks] at hu
          exact .inl ⟨hu, congrArg Task.handler (hother u fun e => htt (e ▸ hu))⟩
      · refine h.child hp htt h0 (fun y hy => ?_) fun u hu => ?_
        · have hown : ((cloned x.kernel.currTask t newPd vm
            (attached x.kernel.currTask t thr x.kernel)).thread y).parentTask =
              ((attached x.kernel.currTask t thr x.kernel).thread y).parentTask := by
            by_cases e : y = ((attached x.kernel.currTask t thr x.kernel).task t).thr <;>
              simp [cloned, cloneKStack, setThread, setTask, e]
          rw [hown]
          rcases Finset.mem_insert.mp hy with rfl | hy
          · rw [hnew]
            exact Finset.mem_insert_self ..
          · rw [hold y fun e => hthr (e ▸ hy)]
            exact Finset.mem_insert_of_mem (h.owner y hy)
        · by_cases e : u = t
          · right
            subst e
            refine ⟨rfl, ?_⟩
            rw [← hother _ hpt]
            simp [cloned, cloneKStack, setThread, setTask, Task.handler]
          · left
            refine ⟨Finset.mem_of_mem_insert_of_ne hu e, ?_⟩
            rw [← hother u e]
            simp [cloned, cloneKStack, setThread, setTask, e]

theorem Inv.step {x' : Handlers} (h : x.Inv) (hs : Step NoHandler x x') : x'.Inv := by
  cases hs with
  | switch _ => exact h.keeps switchToThread_keeps
  | fork hc hh hf => exact h.fork hc hh hf
  | threadFork hc _ hf => exact h.threadFork hc hf
  | exec _ hok hx => exact h.exec hok hx
  | swexn _ hs => exact h.swexn hs
  | fault r _ => exact h.keeps (enterFault_keeps r)
  | deliver _ hd => exact h.deliver hd
  | kill status _ hv => exact h.keeps ((setStatus_keeps status).trans (doVanish_keeps hv))

/-- In every run in which only tasks without a handler call `do_exec`, the handler of a task was registered by its program. -/
theorem handler_of_program (h : Reach Booted (Step NoHandler) x) : x.Own :=
  (h.invariant (P := Inv) (fun _ hb => ⟨hb.zero, hb.owner, fun t ht hne => absurd (hb.none t ht) hne⟩)
    fun _ _ hi hs => hi.step hs).own

end

end Handlers

/-! ## A handler that outlives its program -/

section
variable {s : Vm} {k : Kernel} {pd t : Word}

def emptyElf : SimpleElf := { (default : SimpleElf) with eFname := some [0x61#8] }

theorem elfLoadHelper_empty : (elfLoadHelper headerOnly [0x61#8]).2 = emptyElf := by decide +kernel

theorem setupPageTable_empty (h : s.Inv) (hpd : pd ∈ s.pds) (sp : Vm.Spare 588 s) :
    ∃ s', s.setupPageTable emptyElf pd = some (0, s') ∧
      ∀ x : Word, 0xbfe00000 ≤ x.toNat → x.toNat < 0xc0000000 → s'.MayRead x := by
  obtain ⟨s₁, h₁, sp⟩ := Vm.Spare.mapSegment 0#32 0#32 (k := 0) (m := 588) sp pd Vm.TEXT_FLAGS (by decide) (by decide)
  obtain ⟨s₂, h₂, sp⟩ := Vm.Spare.mapSegment 0#32 0#32 (k := 0) (m := 588) sp pd Vm.DATA_FLAGS (by decide) (by decide)
  obtain ⟨s₃, h₃, sp⟩ := Vm.Spare.mapSegment 0#32 0#32 (k := 0) (m := 588) sp pd Vm.TEXT_FLAGS (by decide) (by decide)
  obtain ⟨s₄, h₄, sp⟩ := Vm.Spare.mapSegment 0#32 0#32 (k := 0) (m := 588) sp pd Vm.DATA_FLAGS (by decide) (by decide)
  obtain ⟨s₅, h₅, sp⟩ := Vm.Spare.mapSegment (STACK_START - BitVec.ofNat 32 DEFAULT_STACK_SIZE + 1#32)
    (BitVec.ofNat 32 DEFAULT_STACK_SIZE) (k := 587) (m := 1) sp pd Vm.DATA_FLAGS (by decide) (by decide)
  obtain ⟨i₁, l₁, -⟩ := Vm.mapSegment_inv h hpd mapFlags_text h₁
  obtain ⟨i₂, l₂, -⟩ := Vm.mapSegment_inv i₁ l₁ mapFlags_data h₂
  obtain ⟨i₃, l₃, -⟩ := Vm.mapSegment_inv i₂ l₂ mapFlags_text h₃
  obtain ⟨i₄, l₄, -⟩ := Vm.mapSegment_inv i₃ l₃ mapFlags_data h₄
  obtain ⟨i₅, l₅, hcr⟩ := Vm.mapSegment_inv i₄ l₄ mapFlags_data h₅
  obtain ⟨use, ho⟩ := h.owned
  refine ⟨s₅, ?_, fun x hx₁ hx₂ => ?_⟩
  · unfold Vm.setupPageTable Vm.mapTextSegment Vm.mapDataSegment Vm.mapRodataSegment Vm.mapBssSegment Vm.mapStackSegment
    rw [if_neg (ho.pd_ne_zero hpd), show s.mapSegment emptyElf.eTxtstart emptyElf.eTxtlen pd Vm.TEXT_FLAGS = _ from h₁,
      Vm.andThen_ok,
      show s₁.mapSegment emptyElf.eDatstart emptyElf.eDatlen pd Vm.DATA_FLAGS = _ from h₂, Vm.andThen_ok,
      show s₂.mapSegment emptyElf.eRodatstart emptyElf.eRodatlen pd Vm.TEXT_FLAGS = _ from h₃, Vm.andThen_ok,
      show s₃.mapSegment emptyElf.eBssstart emptyElf.eBsslen pd Vm.DATA_FLAGS = _ from h₄, Vm.andThen_ok, h₅,
        Vm.andThen_ok]
  · have hu : USER_MEM_START ≤ x.toNat := by
      show 0x01000000 ≤ _
      omega
    have hstart : (STACK_START - BitVec.ofNat 32 DEFAULT_STACK_SIZE + 1#32).toNat = 0xbfe00001 := by decide
    have hsize : (BitVec.ofNat 32 DEFAULT_STACK_SIZE).toNat = 0x200000 := by decide
    obtain ⟨-, hne⟩ := Vm.mapSegment_all x i₄ l₄ mapFlags_data (by decide) (by decide) h₅ (by decide)
      (by rw [hstart]; omega)
      (by rw [hstart, hsize]; omega)
    exact ⟨hu, Vm.present_of_mapped i₅ (hcr ▸ l₅) hu (hcr ▸ hne)⟩

theorem loadTask_empty (h : k.vm.Inv) (sp : Vm.Spare 589 k.vm) (eflags : Word) :
    ∃ k', k.loadTask headerOnly fullHeap eflags [0x61#8] [] t = some (0, k') ∧ k'.locks = k.locks := by
  obtain ⟨a, ha⟩ : ∃ a, k.vm.avail.head? = some a := by
    have := sp.pages
    cases hav : k.vm.avail with
    | nil => simp [hav] at this
    | cons a rest => exact ⟨a, rfl⟩
  have hsp : Vm.Spare 588 ({ k.vm with toTables := k.vm.toTables.newDirectory a } : Vm) := by
    refine ⟨?_, sp.frames.mono (by decide)⟩
    show 588 ≤ k.vm.avail.tail.length
    have := sp.pages
    rw [List.length_tail]
    omega
  obtain ⟨s₁, hs₁, hstack⟩ := setupPageTable_empty
    (s := ({ k.vm with toTables := k.vm.toTables.newDirectory a } : Vm).setCurPd a)
    (h.newDirectory ha) (Finset.mem_insert_self ..) ⟨hsp.pages, hsp.frames⟩
  obtain ⟨umem, hc⟩ : ∃ umem, s₁.copyUserArgs fullHeap [] = some (some _, { s₁ with umem := umem }) :=
    Vm.copyUserArgs_some (Vm.argLayout (by decide) (by simp)) rfl hstack
  have hload : s₁.loadProgram headerOnly fullHeap.segments emptyElf = some (0, s₁) := rfl
  unfold loadTask
  rw [Vm.createPageDirectory_cons ha]
  dsimp only
  simp only [elfLoadHelper_empty, setTask, hs₁, lt_irrefl, if_false, hload, hc]
  exact ⟨_, rfl, rfl⟩

theorem doExec_empty {argPacket : Word} (h : k.vm.Inv) (sp : Vm.Spare 589 k.vm) (eflags : Word)
    (hl : k.locks (.execMutex k.currTask) = .valid)
    (ha : k.vm.execArgs headerOnly fullHeap argPacket = some (.ok ([0x61#8], []))) :
    ∃ k', k.doExec headerOnly fullHeap eflags argPacket = some (0, k') := by
  obtain ⟨k₁, hk₁, hlocks⟩ := loadTask_empty (k := k.setLock (.execMutex k.currTask) .locked)
    (t := k.currTask) h sp eflags
  have hun : ({ k₁ with vm := k₁.vm.freePagingInfo k.vm.cr3 } : Kernel).locks (.execMutex k.currTask) ≠ .invalid := by
    show k₁.locks _ ≠ _
    rw [hlocks]
    simp [setLock]
  refine ⟨({ k₁ with vm := k₁.vm.freePagingInfo k.vm.cr3 } : Kernel).setLock (.execMutex k.currTask) .valid, ?_⟩
  unfold doExec mutexLock mutexUnlock
  simp only [hl, if_true, Option.bind_eq_bind, Option.bind_some]
  rw [show (k.setLock (.execMutex k.currTask) .locked).vm = k.vm from rfl, ha]
  simp only [Option.bind_some, hk₁, lt_irrefl, if_false, hun]
  rfl

end

def handlerPage (o : Offset) : Byte :=
  if o.val < 64 then packetPage o
  else [0x00#8, 0x08#8, 0x00#8, 0x01#8, 0x00#8, 0x04#8, 0x00#8, 0x01#8].getD (o.val - 64) 0#8

@[irreducible]
def roomyVm : Vm :=
  ((Vm.mapSegment 0x01000000#32 1#32 0x5000#32 Vm.DATA_FLAGS (Vm.vmInit 600 Vm.roomyBoot)).getD (0, Vm.roomyBoot)).2

def handlerKernel : Kernel := loneKernel { roomyVm with umem := fun _ => handlerPage } 0x5000#32

theorem roomyVm_ready : roomyVm.Inv ∧ Vm.Spare 589 roomyVm := by
  obtain ⟨s, hm, sp⟩ := Vm.Spare.mapSegment 0x01000000#32 1#32 (k := 1)
    (m := 589) Vm.roomyBoot_spare 0x5000#32 Vm.DATA_FLAGS
    (by decide) (by decide)
  have hs : roomyVm = s := by
    unfold roomyVm
    rw [hm]
    rfl
  rw [hs]
  exact ⟨(Vm.mapSegment_inv Vm.roomyBoot_booted.inv (by decide +kernel) mapFlags_data hm).1, sp⟩

theorem handlerKernel_args : handlerKernel.vm.execArgs headerOnly fullHeap 0x01000000#32 = some (.ok ([0x61#8],
    [])) := by
  decide +kernel

theorem handlerKernel_swexn : handlerKernel.swexnArgs 0x01000040#32 = some (.ok (0x01000800#32, 0x01000400#32, 0#32,
    0#32)) := by
  decide +kernel

namespace Handlers

def bootHandlers : Handlers := ⟨handlerKernel, fun _ => 0, fun _ => (0, 0#32, 0#32, 0#32), 0⟩

theorem bootHandlers_booted : Booted bootHandlers :=
  ⟨by simp [bootHandlers, handlerKernel, loneKernel], by simp [bootHandlers, handlerKernel, loneKernel],
    fun _ _ => rfl⟩

theorem handlerKernel_install : handlerKernel.swexnHandlerC 0x01000040#32 =
    some (0, handlerKernel.setHandler 0x01000800#32 0x01000400#32 0#32) := by
  rw [swexnHandlerC_eq, handlerKernel_swexn, Option.bind_some]
  dsimp only
  exact installHandler_null (by decide)

theorem handlerKernel_curr : handlerKernel.currThread ∈ handlerKernel.threads ∧ handlerKernel.currTask = 0x100#32 :=
  ⟨Finset.mem_singleton_self _, rfl⟩

def installed : Handlers := {
  kernel := handlerKernel.setHandler 0x01000800#32 0x01000400#32 0#32
  program := fun _ => 0
  registered := Function.update (fun _ => (0, 0#32, 0#32, 0#32)) 0x100#32 (0, 0x01000400#32, 0#32, 0x01000800#32)
  loads := 0 }

theorem installed_step {ok : Kernel → Prop} : Step ok bootHandlers installed := by
  have hi : installs 0x01000040#32 handlerKernel = some (0x01000400#32, 0#32, 0x01000800#32) := by
    simp [installs, handlerKernel_swexn]
  have hx : bootHandlers.swexn 0x01000040#32 (handlerKernel.setHandler 0x01000800#32 0x01000400#32 0#32) = installed := by
    unfold swexn
    rw [show bootHandlers.kernel = handlerKernel from rfl, hi]
    rfl
  rw [← hx]
  exact .swexn handlerKernel_curr.1 handlerKernel_install

theorem installed_curr : installed.kernel.currThread ∈ installed.kernel.threads := by
  unfold installed setHandler setTask
  exact handlerKernel_curr.1

theorem installed_eip : (installed.kernel.task 0x100#32).eip = 0x01000400#32 := rfl

theorem handler_of_program_installed : (installed.kernel.task 0x100#32).eip ≠ 0#32 ∧ installed.Own := by
  refine ⟨by rw [installed_eip]; decide, handler_of_program ?_⟩
  exact (Reach.start bootHandlers_booted).tail installed_step

/-- The task loads another program, and the handler of the first one is still there. -/
theorem handler_outlives_program : ∃ x, Reach Booted (Step fun _ => True) x ∧ x.program 0x100#32 = 1 ∧
    (x.kernel.task 0x100#32).eip = 0x01000400#32 ∧ x.registered 0x100#32 = (0, 0x01000400#32, 0#32, 0x01000800#32) ∧
    ¬ x.Own := by
  obtain ⟨hinv, hsp⟩ := roomyVm_ready
  obtain ⟨k', hk⟩ := doExec_empty (k := installed.kernel) hinv ⟨hsp.pages, hsp.frames⟩ 0#32 rfl handlerKernel_args
  have hkeep : Keeps installed.kernel k' := .of_beside (doExec_beside (closed_univ _) hk)
  have heip : (k'.task 0x100#32).eip = 0x01000400#32 := (eip_of_handler (hkeep.handler _)).trans installed_eip
  have hstep : Step (fun _ => True) installed (installed.exec 0 k') := .exec installed_curr trivial hk
  refine ⟨installed.exec 0 k', ((Reach.start bootHandlers_booted).tail installed_step).tail hstep, rfl, heip, rfl,
    fun hown => ?_⟩
  have ht : 0x100#32 ∈ k'.tasks := by
    rw [hkeep.tasks]
    unfold installed setHandler setTask
    exact Finset.mem_singleton_self _
  have hreg := congrArg Prod.fst (hown 0x100#32 ht (by show (k'.task 0x100#32).eip ≠ _; rw [heip]; decide))
  change (0 : Nat) = 1 at hreg
  cases hreg

end Handlers

end Pebbles
