import Pebbles.TrapSound

/-!
# Privilege on return to user mode

The words at the base of a kernel stack decide with which privilege its thread
returns to user mode. All writers but one keep them; `swexn` copies the segment
selectors and the I/O privilege level that the user asks for.
-/

namespace Pebbles

open Words Kernel

/-- A return with these words leads to user mode with interrupts on and no
privilege for I/O. -/
structure UserFrame (stack : Nat → Word) : Prop where
  ss : stack 1 = SEGSEL_USER_DS
  eflagsIf : stack 3 &&& EFLAGS_IF = EFLAGS_IF
  eflagsIopl : stack 3 &&& EFLAGS_IOPL = 0#32
  cs : stack 4 = SEGSEL_USER_CS

def Ureg.Unprivileged (u : Ureg) : Prop :=
  u.ds = SEGSEL_USER_DS ∧ u.cs = SEGSEL_USER_CS ∧ u.eflags &&& EFLAGS_IOPL = 0#32

/-- The processor and the kernel; `eflags` is the register while in the kernel. -/
structure Machine where
  kernel : Kernel
  eflags : Word

namespace Kernel

def appliedUreg (argPacket : Word) (k : Kernel) : Option Ureg := do
  let esp3 ← k.vm.readWord argPacket
  let eip ← k.vm.readWord (argPacket + 4#32)
  let newureg ← k.vm.readWord (argPacket + 12#32)
  if esp3 = 0#32 ∨ eip = 0#32 ∨ newureg = 0#32 then none
  else do
    let u ← Ureg.read newureg k.vm
    if u.validateUregs < 0 then none else some u

end Kernel

namespace Machine

/-- The steps: a switch, the entry of the current thread into the kernel by a
system call or a fault, and the calls. In user mode a thread with a user frame
cannot change its segments, `IF` or the I/O privilege level. Calls of `swexn`
apply only values that are `ok`. -/
inductive Step (ok : Ureg → Prop) : Machine → Machine → Prop
  | switch {m thr} : thr ∈ m.kernel.threads → Step ok m { m with kernel := m.kernel.switchToThread thr }
  | systemCall {m r e} :
      (UserFrame (m.kernel.thread m.kernel.currThread).kStack →
      UserFrame (Regs.push r (m.kernel.thread m.kernel.currThread).kStack)) →
      e &&& EFLAGS_IOPL = r.eflags &&& EFLAGS_IOPL → Step ok m ⟨m.kernel.enter r, e⟩
  | fault {m r errorCode e} :
      (UserFrame (m.kernel.thread m.kernel.currThread).kStack →
      UserFrame (Regs.push r (m.kernel.thread m.kernel.currThread).kStack)) →
      e &&& EFLAGS_IOPL = r.eflags &&& EFLAGS_IOPL → Step ok m ⟨m.kernel.enterFault r errorCode, e⟩
  | fork {m taskMem thrMem rv k'} : Heap m.kernel taskMem thrMem → m.kernel.doFork taskMem thrMem = some (rv, k') →
      Step ok m { m with kernel := k' }
  | threadFork {m thrMem rv k'} : Heap m.kernel none thrMem → m.kernel.doThreadFork thrMem = some (rv, k') →
      Step ok m { m with kernel := k' }
  | exec {m toc heap argPacket rv k'} : m.kernel.doExec toc heap m.eflags argPacket = some (rv, k') →
      Step ok m { m with kernel := k' }
  | swexn {m argPacket rv k'} : m.kernel.swexnHandlerC argPacket = some (rv, k') →
      (∀ u, m.kernel.appliedUreg argPacket = some u → ok u) → Step ok m { m with kernel := k' }
  | deliver {m cause cr2 rv k'} : m.kernel.invokeSwexnHandler cause cr2 = some (rv, k') →
      Step ok m { m with kernel := k' }

/-- The tasks that boot loads. `set_task_stack` has written the stack of every
thread, with an I/O privilege level of 0 in the flags. -/
structure Booted (m : Machine) : Prop where
  eflags : m.eflags &&& EFLAGS_IOPL = 0#32
  zero : 0#32 ∉ m.kernel.tasks
  curr : m.kernel.currThread ∈ m.kernel.threads
  first : ∀ t ∈ m.kernel.tasks, (m.kernel.task t).thr ∈ m.kernel.threads
  owner : ∀ thr ∈ m.kernel.threads, (m.kernel.thread thr).parentTask ∈ m.kernel.tasks
  loaded : ∀ thr ∈ m.kernel.threads, ∃ e entryAddr userStackTop stack, e &&& EFLAGS_IOPL = 0#32 ∧
    (m.kernel.thread thr).kStack = setTaskStack e m.kernel.iretFun entryAddr userStackTop stack

structure Guarded (m : Machine) : Prop where
  eflags : m.eflags &&& EFLAGS_IOPL = 0#32
  zero : 0#32 ∉ m.kernel.tasks
  curr : m.kernel.currThread ∈ m.kernel.threads
  first : ∀ t ∈ m.kernel.tasks, (m.kernel.task t).thr ∈ m.kernel.threads
  owner : ∀ thr ∈ m.kernel.threads, (m.kernel.thread thr).parentTask ∈ m.kernel.tasks
  frames : ∀ thr ∈ m.kernel.threads, UserFrame (m.kernel.thread thr).kStack

/-! ## The writers -/

section
variable {stack : Nat → Word} {r : Regs} {u : Ureg}

theorem userFrame_congr {stack' : Nat → Word} (h : ∀ i < 6, stack' i = stack i) :
    UserFrame stack' ↔ UserFrame stack := by
  constructor <;> rintro ⟨h₁, h₂, h₃, h₄⟩
  · exact ⟨h 1 (by decide) ▸ h₁, h 3 (by decide) ▸ h₂, h 3 (by decide) ▸ h₃, h 4 (by decide) ▸ h₄⟩
  · rw [← h 1 (by decide)] at h₁
    rw [← h 3 (by decide)] at h₂ h₃
    rw [← h 4 (by decide)] at h₄
    exact ⟨h₁, h₂, h₃, h₄⟩

theorem userFrame_setSlot {n : Nat} {w : Word} (hn : 6 ≤ n) : UserFrame (setSlot n w stack) ↔ UserFrame stack :=
  userFrame_congr fun i hi => Function.update_of_ne (by omega) ..

theorem userFrame_saveRegs {base : Word} : UserFrame (r.saveRegs base stack) ↔ UserFrame stack := by
  simp [Regs.saveRegs, userFrame_setSlot]

theorem userFrame_pusha {n : Nat} {base : Word} (hn : 5 ≤ n) : UserFrame (r.pusha n base stack) ↔ UserFrame stack := by
  unfold Regs.pusha
  simp only [userFrame_setSlot (show 6 ≤ n + 1 by omega), userFrame_setSlot (show 6 ≤ n + 2 by omega),
    userFrame_setSlot (show 6 ≤ n + 3 by omega), userFrame_setSlot (show 6 ≤ n + 4 by omega),
    userFrame_setSlot (show 6 ≤ n + 5 by omega), userFrame_setSlot (show 6 ≤ n + 6 by omega),
    userFrame_setSlot (show 6 ≤ n + 7 by omega), userFrame_setSlot (show 6 ≤ n + 8 by omega)]

theorem userFrame_updateFaultStack {esp eip : Word} : UserFrame (updateFaultStack esp eip stack) ↔ UserFrame stack := by
  constructor <;> rintro ⟨h₁, h₂, h₃, h₄⟩ <;> exact ⟨h₁, h₂, h₃, h₄⟩

theorem and_setupUserEflags (e mask : Word) (h : EFLAGS_ALIGNMENT_CHECK &&& mask = mask) :
    setupUserEflags e &&& mask = mask &&& e ||| mask &&& EFLAGS_RESERVED ||| mask &&& EFLAGS_IF := by
  unfold setupUserEflags
  rw [BitVec.and_assoc, h, BitVec.and_comm, BitVec.and_or_distrib_left, BitVec.and_or_distrib_left]

theorem setupUserEflags_if (e : Word) : setupUserEflags e &&& EFLAGS_IF = EFLAGS_IF := by
  rw [and_setupUserEflags e EFLAGS_IF rfl]
  grind

theorem setupUserEflags_iopl (e : Word) : setupUserEflags e &&& EFLAGS_IOPL = e &&& EFLAGS_IOPL := by
  have h₁ : EFLAGS_IOPL &&& EFLAGS_RESERVED = 0#32 := rfl
  have h₂ : EFLAGS_IOPL &&& EFLAGS_IF = 0#32 := rfl
  rw [and_setupUserEflags e EFLAGS_IOPL rfl, h₁, h₂, BitVec.or_zero, BitVec.or_zero, BitVec.and_comm]

theorem userFrame_setTaskStack {e iretFun entryAddr userStackTop : Word} (he : e &&& EFLAGS_IOPL = 0#32) :
    UserFrame (setTaskStack e iretFun entryAddr userStackTop stack) := by
  refine ⟨rfl, setupUserEflags_if e, ?_, rfl⟩
  exact (setupUserEflags_iopl e).trans he

theorem userFrame_setupKernelStack (hv : ¬ u.validateUregs < 0) :
    UserFrame (u.setupKernelStack stack).2 ↔ u.Unprivileged := by
  have hif : u.eflags &&& EFLAGS_IF = EFLAGS_IF := by
    unfold Ureg.validateUregs at hv
    split_ifs at hv with h₁ h₂
    · exact absurd (by decide) hv
    · exact absurd (by decide) hv
    · exact not_not.mp h₂
  have hstack : (u.setupKernelStack stack).2 = _ := congrArg Prod.snd (if_neg hv)
  rw [hstack]
  constructor
  · rintro ⟨h₁, -, h₃, h₄⟩
    exact ⟨h₁, h₄, h₃⟩
  · rintro ⟨h₁, h₂, h₃⟩
    exact ⟨h₁, hif, h₃, h₂⟩

end

/-! ## Steps that write one stack -/

structure Restacks (k k' : Kernel) (thr : Word) (f : (Nat → Word) → Nat → Word) : Prop where
  tasks : k'.tasks = k.tasks
  threads : k'.threads = k.threads
  curr : k'.currThread = k.currThread
  first : ∀ t, (k'.task t).thr = (k.task t).thr
  owner : ∀ y, (k'.thread y).parentTask = (k.thread y).parentTask
  stack : ∀ y, (k'.thread y).kStack = if y = thr then f (k.thread y).kStack else (k.thread y).kStack

section
variable {k k' : Kernel} {thr t : Word} {f : (Nat → Word) → Nat → Word} {m : Machine} {rv : Int} {e : Word}

theorem Restacks.refl (k : Kernel) (thr : Word) : Restacks k k thr id :=
  ⟨rfl, rfl, rfl, fun _ => rfl, fun _ => rfl, fun y => by split <;> rfl⟩

theorem Restacks.setThread {k₁ : Kernel} (vm : Vm) (hr : Restacks k k₁ thr id) (g : Thread → Thread)
    (hg : (g (k₁.thread thr)).parentTask = (k₁.thread thr).parentTask ∧
      (g (k₁.thread thr)).kStack = f (k₁.thread thr).kStack) :
    Restacks k (Kernel.setThread thr g { k₁ with vm := vm }) thr f := by
  have hstack : ∀ y, (k₁.thread y).kStack = (k.thread y).kStack := by
    intro y
    rw [hr.stack]
    split <;> rfl
  refine ⟨hr.tasks, hr.threads, hr.curr, hr.first, ?_, ?_⟩ <;> intro y <;> by_cases h : y = thr
  · simp [Kernel.setThread, h, hg, hr.owner]
  · simp [Kernel.setThread, h, hr.owner]
  · simp [Kernel.setThread, h, hg, hstack]
  · simp [Kernel.setThread, h, hstack]

theorem Restacks.withVm {vm : Vm} (hr : Restacks k k' thr f) : Restacks k { k' with vm := vm } thr f :=
  ⟨hr.tasks, hr.threads, hr.curr, hr.first, hr.owner, hr.stack⟩

theorem Guarded.restacks (h : Guarded m) (hr : Restacks m.kernel k' thr f) (he : e &&& EFLAGS_IOPL = 0#32)
    (hf : thr ∈ m.kernel.threads → UserFrame (m.kernel.thread thr).kStack →
      UserFrame (f (m.kernel.thread thr).kStack)) :
    Guarded ⟨k', e⟩ := by
  refine ⟨he, ?_, ?_, ?_, ?_, ?_⟩ <;> dsimp only
  · rw [hr.tasks]
    exact h.zero
  · rw [hr.curr, hr.threads]
    exact h.curr
  · intro t ht
    rw [hr.tasks] at ht
    rw [hr.first, hr.threads]
    exact h.first t ht
  · intro y hy
    rw [hr.threads] at hy
    rw [hr.owner, hr.tasks]
    exact h.owner y hy
  · intro y hy
    rw [hr.threads] at hy
    rw [hr.stack]
    split_ifs with hyt
    · subst hyt
      exact hf hy (h.frames y hy)
    · exact h.frames y hy

theorem Restacks.setTask (vm : Vm) (thr : Word) (g : Task → Task) (hg : ∀ s, (g s).thr = s.thr) :
    Restacks k (Kernel.setTask t g { k with vm := vm }) thr id := by
  refine ⟨rfl, rfl, rfl, ?_, fun _ => rfl, fun y => by split <;> rfl⟩
  intro y
  by_cases h : y = t <;> simp [Kernel.setTask, h, hg]

def LoadWrites (e iretFun : Word) (f : (Nat → Word) → Nat → Word) : Prop :=
  f = id ∨ ∃ entryAddr userStackTop, f = setTaskStack e iretFun entryAddr userStackTop

theorem loadTask_restacks {toc : Toc} {heap : ExecHeap} {name : List Byte} {args : List (List Byte)}
    (h : k.loadTask toc heap e name args t = some (rv, k')) :
    ∃ f, Restacks k k' (k.task t).thr f ∧ LoadWrites e k.iretFun f := by
  unfold loadTask at h
  split at h
  · simp only [Option.some.injEq, Prod.mk.injEq] at h
    obtain ⟨-, rfl⟩ := h
    exact ⟨id, (Restacks.refl k _).withVm, Or.inl rfl⟩
  · rename_i pdAddr vm _
    have hr := Restacks.setTask (k := k) (t := t) (vm.setCurPd pdAddr) (k.task t).thr
      (fun s => { s with pdbr := pdAddr }) fun _ => rfl
    have hiret : (Kernel.setTask t (fun s => { s with pdbr := pdAddr }) { k with vm := vm.setCurPd pdAddr }).iretFun =
      k.iretFun := rfl
    have hfirst := hr.first t
    dsimp only at h
    generalize Kernel.setTask t _ _ = k₁ at h hr hiret hfirst
    rw [hfirst] at h
    rw [← hiret]
    split at h
    · cases h
    · split_ifs at h
      · simp only [Option.some.injEq, Prod.mk.injEq] at h
        obtain ⟨-, rfl⟩ := h
        exact ⟨id, hr.withVm, Or.inl rfl⟩
      · split at h
        · cases h
        · split_ifs at h
          · simp only [Option.some.injEq, Prod.mk.injEq] at h
            obtain ⟨-, rfl⟩ := h
            exact ⟨id, hr.withVm, Or.inl rfl⟩
          · split at h
            · cases h
            · simp only [Option.some.injEq, Prod.mk.injEq] at h
              obtain ⟨-, rfl⟩ := h
              exact ⟨id, hr.withVm, Or.inl rfl⟩
            · rename_i userStackTop _ _
              simp only [Option.some.injEq, Prod.mk.injEq] at h
              obtain ⟨-, rfl⟩ := h
              exact ⟨_, hr.setThread _ _ ⟨rfl, rfl⟩, Or.inr ⟨_, userStackTop, rfl⟩⟩

theorem doExec_restacks {toc : Toc} {heap : ExecHeap} {argPacket : Word}
    (h : k.doExec toc heap e argPacket = some (rv, k')) :
    ∃ f, Restacks k k' (k.task k.currTask).thr f ∧ LoadWrites e k.iretFun f := by
  unfold doExec at h
  simp only [Option.bind_eq_bind, Option.bind_eq_some_iff] at h
  obtain ⟨k₁, hlock, x, -, h⟩ := h
  obtain ⟨-, rfl⟩ := mutexLock_some hlock
  cases x with
  | error e =>
    simp only [Option.bind_eq_some_iff] at h
    obtain ⟨k₂, hun, h⟩ := h
    simp only [Option.pure_def, Option.some.injEq, Prod.mk.injEq] at h
    obtain ⟨-, rfl⟩ := h
    rw [mutexUnlock_some hun]
    have hr := Restacks.refl k (k.task k.currTask).thr
    exact ⟨id, ⟨hr.tasks, hr.threads, hr.curr, hr.first, hr.owner, hr.stack⟩, Or.inl rfl⟩
  | ok x =>
    simp only [Option.bind_eq_some_iff] at h
    obtain ⟨⟨r₁, k₂⟩, hload, h⟩ := h
    obtain ⟨f, hr, hf⟩ := loadTask_restacks hload
    refine ⟨f, ?_, hf⟩
    dsimp only at h
    split_ifs at h
    all_goals
      simp only [Option.bind_eq_some_iff] at h
      obtain ⟨k₃, hun, h⟩ := h
      simp only [Option.pure_def, Option.some.injEq, Prod.mk.injEq] at h
      obtain ⟨-, rfl⟩ := h
      rw [mutexUnlock_some hun]
      exact ⟨hr.tasks, hr.threads, hr.curr, hr.first, hr.owner, hr.stack⟩

theorem invokeSwexnHandler_restacks {cause cr2 : Word} (h : k.invokeSwexnHandler cause cr2 = some (rv, k')) :
    ∃ f, Restacks k k' k.currThread f ∧ (f = id ∨ ∃ esp eip, f = updateFaultStack esp eip) := by
  unfold invokeSwexnHandler at h
  dsimp only at h
  split_ifs at h
  · simp only [Option.some.injEq, Prod.mk.injEq] at h
    obtain ⟨-, rfl⟩ := h
    exact ⟨id, Restacks.refl k _, Or.inl rfl⟩
  · simp only [Option.bind_eq_bind, Option.bind_eq_some_iff, Option.pure_def, Option.some.injEq, Prod.mk.injEq] at h
    obtain ⟨⟨esp, vm⟩, -, -, rfl⟩ := h
    have hr := (Restacks.refl k k.currThread).setThread vm (f := updateFaultStack esp (k.task k.currTask).eip)
      (fun s => { s with kStack := updateFaultStack esp (k.task k.currTask).eip s.kStack }) ⟨rfl, rfl⟩
    refine ⟨_, ⟨hr.tasks, hr.threads, hr.curr, ?_, hr.owner, hr.stack⟩, Or.inr ⟨esp, _, rfl⟩⟩
    intro y
    simp only [Kernel.setTask, Function.update_apply]
    split_ifs with e
    · rw [e]
      rfl
    · rfl

theorem installHandler_restacks {esp3 eip arg newureg : Word}
    (h : k.installHandler esp3 eip arg newureg = some (rv, k')) :
    ∃ f, Restacks k k' k.currThread f ∧ (f = id ∨ ∃ u, ¬ (esp3 = 0#32 ∨ eip = 0#32 ∨ newureg = 0#32) ∧
      Ureg.read newureg k.vm = some u ∧ ¬ u.validateUregs < 0 ∧ f = fun stack => (u.setupKernelStack stack).2) := by
  unfold installHandler at h
  split_ifs at h with h₁ h₂
  · simp only [Option.some.injEq, Prod.mk.injEq] at h
    obtain ⟨-, rfl⟩ := h
    exact ⟨id, Restacks.setTask k.vm _ _ fun _ => rfl, Or.inl rfl⟩
  · simp only [Option.some.injEq, Prod.mk.injEq] at h
    obtain ⟨-, rfl⟩ := h
    exact ⟨id, Restacks.setTask k.vm _ _ fun _ => rfl, Or.inl rfl⟩
  · dsimp only at h
    have hr := Restacks.setTask (k := k) (t := k.currTask) k.vm k.currThread
      (fun s => { s with eip := eip, swexnArgs := arg, swexnEsp := esp3 }) fun _ => rfl
    split at h
    · cases h
    · rename_i u hu
      have hu' : Ureg.read newureg k.vm = some u := hu
      have hall : ¬ (esp3 = 0#32 ∨ eip = 0#32 ∨ newureg = 0#32) := by
        rw [← or_assoc, not_or]
        exact ⟨h₁, h₂⟩
      split_ifs at h with hv
      · simp only [Option.some.injEq, Prod.mk.injEq] at h
        obtain ⟨-, rfl⟩ := h
        exact ⟨id, hr, Or.inl rfl⟩
      · have hv' : ¬ u.validateUregs < 0 := by
          intro hlt
          exact hv (by rw [Ureg.setupKernelStack, if_pos hlt]; exact hlt)
        simp only [Option.some.injEq, Prod.mk.injEq] at h
        obtain ⟨-, rfl⟩ := h
        exact ⟨_, hr.setThread _ _ ⟨rfl, rfl⟩, Or.inr ⟨u, hall, hu', hv', rfl⟩⟩

theorem swexnHandlerC_restacks {argPacket : Word} (h : k.swexnHandlerC argPacket = some (rv, k')) :
    ∃ f, Restacks k k' k.currThread f ∧ (f = id ∨ ∃ u, k.appliedUreg argPacket = some u ∧ ¬ u.validateUregs < 0 ∧
      f = fun stack => (u.setupKernelStack stack).2) := by
  have hsame : ∀ rv', some (rv', k) = some (rv, k') → ∃ f, Restacks k k' k.currThread f ∧ (f = id ∨ ∃ u,
      k.appliedUreg argPacket = some u ∧ ¬ u.validateUregs < 0 ∧ f = fun stack => (u.setupKernelStack stack).2) := by
    intro rv' he
    simp only [Option.some.injEq, Prod.mk.injEq] at he
    obtain ⟨-, rfl⟩ := he
    exact ⟨id, Restacks.refl k _, Or.inl rfl⟩
  unfold swexnHandlerC at h
  simp only [Option.bind_eq_bind, Option.bind_eq_some_iff] at h
  obtain ⟨esp3, hesp, b₁, -, h⟩ := h
  split_ifs at h
  · exact hsame _ h
  · simp only [Option.bind_eq_some_iff] at h
    obtain ⟨eip, heip, b₂, -, h⟩ := h
    split_ifs at h
    · exact hsame _ h
    · simp only [Option.bind_eq_some_iff] at h
      obtain ⟨arg, -, newureg, hnew, b₃, -, h⟩ := h
      split_ifs at h
      · exact hsame _ h
      · obtain ⟨f, hr, hf⟩ := installHandler_restacks h
        refine ⟨f, hr, hf.imp_right ?_⟩
        rintro ⟨u, hne, hu, hv, rfl⟩
        refine ⟨u, ?_, hv, rfl⟩
        simp [appliedUreg, hesp, heip, hnew, hne, hu, hv]

/-! ## Forks -/

theorem Guarded.grow (h : Guarded m) (hcurr : k'.currThread = m.kernel.currThread) (htasks : m.kernel.tasks ⊆ k'.tasks)
    (hthreads : m.kernel.threads ⊆ k'.threads)
    (htask : ∀ c ∈ k'.tasks, (c ∈ m.kernel.tasks ∧ (k'.task c).thr = (m.kernel.task c).thr) ∨
      (c ≠ 0#32 ∧ (k'.task c).thr ∈ k'.threads))
    (hthread : ∀ y ∈ k'.threads, (y ∈ m.kernel.threads ∧ k'.thread y = m.kernel.thread y) ∨
      ((k'.thread y).parentTask ∈ k'.tasks ∧ UserFrame (k'.thread y).kStack)) :
    Guarded { m with kernel := k' } := by
  refine ⟨h.eflags, ?_, ?_, ?_, ?_, ?_⟩ <;> dsimp only
  · intro h0
    rcases htask _ h0 with ⟨h0, -⟩ | ⟨hne, -⟩
    · exact h.zero h0
    · exact hne rfl
  · rw [hcurr]
    exact hthreads h.curr
  · intro t ht
    rcases htask t ht with ⟨ht, he⟩ | ⟨-, hm⟩
    · rw [he]
      exact hthreads (h.first t ht)
    · exact hm
  · intro y hy
    rcases hthread y hy with ⟨hy, he⟩ | ⟨hm, -⟩
    · rw [he]
      exact htasks (h.owner y hy)
    · exact hm
  · intro y hy
    rcases hthread y hy with ⟨hy, he⟩ | ⟨-, hu⟩
    · rw [he]
      exact h.frames y hy
    · exact hu

theorem Guarded.fork {taskMem thrMem : Option Word} (h : Guarded m) (hheap : Heap m.kernel taskMem thrMem)
    (hf : m.kernel.doFork taskMem thrMem = some (rv, k')) : Guarded { m with kernel := k' } := by
  have hp : m.kernel.currTask ∈ m.kernel.tasks := h.owner _ h.curr
  by_cases hnone : taskMem = none ∨ thrMem = none
  · rcases doFork_none hf hnone hp (fun t ht => (hheap.task t ht).2) with rfl | ⟨t, ht, rfl⟩
    · exact h
    · refine h.grow rfl (Finset.Subset.refl _) (Finset.Subset.refl _) ?_ fun y hy => Or.inl ⟨hy, rfl⟩
      intro c hc
      have hne : c ≠ t := fun e => (hheap.task t ht).2 (e ▸ hc)
      exact Or.inl ⟨hc, by simp [blankTask, hne]⟩
  · rw [not_or] at hnone
    obtain ⟨t, rfl⟩ := Option.ne_none_iff_exists'.mp hnone.1
    obtain ⟨thr, rfl⟩ := Option.ne_none_iff_exists'.mp hnone.2
    obtain ⟨ht0, ht⟩ := hheap.task t rfl
    have hthr := hheap.thread thr rfl
    have hpt : m.kernel.currTask ≠ t := fun e => ht (e ▸ hp)
    have hfirst : ((attached m.kernel.currTask t thr m.kernel).task t).thr = thr := by
      simp [attached, withLinks, newTask]
    rcases (doFork_some hf ht0 hpt).2 with ⟨vm, -, -, rfl⟩ | ⟨newPd, vm, -, -, rfl⟩
    · -- the new structures are freed again
      have htasks : (uncloned t vm (attached m.kernel.currTask t thr m.kernel)).tasks = m.kernel.tasks :=
        Finset.erase_insert ht
      have hthreads : (uncloned t vm (attached m.kernel.currTask t thr m.kernel)).threads = m.kernel.threads := by
        simp only [uncloned]
        rw [hfirst]
        exact Finset.erase_insert hthr
      refine h.grow rfl htasks.ge hthreads.ge ?_ ?_
      · intro c hc
        rw [htasks] at hc
        have hne : c ≠ t := fun e => ht (e ▸ hc)
        exact Or.inl ⟨hc, by simp [uncloned, attached, withLinks, newTask, hne]⟩
      · intro y hy
        rw [hthreads] at hy
        have hne : y ≠ thr := fun e => hthr (e ▸ hy)
        exact Or.inl ⟨hy, by simp [uncloned, attached, withLinks, newTask, newThread, hne]⟩
    · have hpar : (attached m.kernel.currTask t thr m.kernel).task m.kernel.currTask = m.kernel.task m.kernel.currTask :=
        Function.update_of_ne hpt ..
      have hsrc : (m.kernel.task m.kernel.currTask).thr ≠ thr := fun e => hthr (e ▸ h.first _ hp)
      refine h.grow rfl (Finset.subset_insert ..) (Finset.subset_insert ..) ?_ ?_
      · intro c hc
        by_cases e : c = t
        · right
          rw [e]
          refine ⟨ht0, ?_⟩
          simp [cloned, cloneKStack, setThread, Kernel.setTask, attached, withLinks, newTask, newThread]
        · left
          refine ⟨Finset.mem_of_mem_insert_of_ne hc e, ?_⟩
          simp [cloned, cloneKStack, setThread, Kernel.setTask, attached, withLinks, newTask, e]
      · intro y hy
        by_cases e : y = thr
        · right
          subst e
          have hframe : UserFrame (setSlot IRET_FUN_OFFSET m.kernel.iretFun
              (m.kernel.thread (m.kernel.task m.kernel.currTask).thr).kStack) :=
            (userFrame_setSlot (by decide)).mpr (h.frames _ (h.first _ hp))
          simp only [cloned, cloneKStack, setThread, Kernel.setTask, hfirst, hpar, Function.update_self]
          simp only [attached, withLinks, newTask, newThread, ne_eq, hsrc, not_false_eq_true, Function.update_of_ne,
            Function.update_self]
          exact ⟨Finset.mem_insert_self .., hframe⟩
        · left
          refine ⟨Finset.mem_of_mem_insert_of_ne hy e, ?_⟩
          simp [cloned, cloneKStack, setThread, Kernel.setTask, attached, withLinks, newTask, newThread, e]

theorem Guarded.threadFork {thrMem : Option Word} (h : Guarded m) (hheap : Heap m.kernel none thrMem)
    (hf : m.kernel.doThreadFork thrMem = some (rv, k')) : Guarded { m with kernel := k' } := by
  have hp : m.kernel.currTask ∈ m.kernel.tasks := h.owner _ h.curr
  cases thrMem with
  | none =>
    rw [doThreadFork_none hf]
    exact h
  | some thr =>
    have hthr := hheap.thread thr rfl
    have hne : m.kernel.currThread ≠ thr := fun e => hthr (e ▸ h.curr)
    obtain ⟨-, -, rfl⟩ := doThreadFork_some hf fun e => h.zero (e ▸ hp)
    refine h.grow rfl (Finset.Subset.refl _) (Finset.subset_insert ..) (fun c hc => Or.inl ⟨hc, rfl⟩) ?_
    intro y hy
    by_cases e : y = thr
    · right
      subst e
      have hframe : UserFrame (setSlot IRET_FUN_OFFSET m.kernel.iretFun (m.kernel.thread m.kernel.currThread).kStack) :=
        (userFrame_setSlot (by decide)).mpr (h.frames _ h.curr)
      simp only [runqAddThread, cloneKStack, setThread, newThread, Function.update_self, ne_eq, hne, not_false_eq_true,
        Function.update_of_ne]
      exact ⟨hp, hframe⟩
    · left
      refine ⟨Finset.mem_of_mem_insert_of_ne hy e, ?_⟩
      simp [runqAddThread, cloneKStack, setThread, newThread, e]

theorem Guarded.step {m' : Machine} (h : Guarded m) (hs : Step Ureg.Unprivileged m m') : Guarded m' := by
  cases hs with
  | @switch thr hthr =>
    have hthread : ∀ y, ((m.kernel.switchToThread thr).thread y).parentTask = (m.kernel.thread y).parentTask ∧
        ((m.kernel.switchToThread thr).thread y).kStack = (m.kernel.thread y).kStack := by
      intro y
      by_cases e : y = thr <;> simp [switchToThread, setThread, e]
    refine ⟨h.eflags, h.zero, hthr, h.first, fun y hy => ?_, fun y hy => ?_⟩ <;> dsimp only
    · rw [(hthread y).1]
      exact h.owner y hy
    · rw [(hthread y).2]
      exact h.frames y hy
  | @systemCall r e hcpu he =>
    have hr := (Restacks.refl m.kernel m.kernel.currThread).setThread m.kernel.vm
      (fun s => { s with kStack := r.saveRegs s.kStackBase (r.push s.kStack) })
      (f := r.saveRegs (m.kernel.thread m.kernel.currThread).kStackBase ∘ r.push) ⟨rfl, rfl⟩
    have hu := hcpu (h.frames _ h.curr)
    exact h.restacks hr (he.trans hu.eflagsIopl) fun _ _ => userFrame_saveRegs.mpr hu
  | @fault r errorCode e hcpu he =>
    have hu := hcpu (h.frames _ h.curr)
    cases errorCode with
    | none =>
      have hr := (Restacks.refl m.kernel m.kernel.currThread).setThread m.kernel.vm
        (fun s => { s with kStack := r.pusha 5 s.kStackBase (r.push s.kStack) })
        (f := r.pusha 5 (m.kernel.thread m.kernel.currThread).kStackBase ∘ r.push) ⟨rfl, rfl⟩
      exact h.restacks hr (he.trans hu.eflagsIopl) fun _ _ => (userFrame_pusha (by decide)).mpr hu
    | some w =>
      have hr := (Restacks.refl m.kernel m.kernel.currThread).setThread m.kernel.vm
        (fun s => { s with kStack := r.pusha 6 s.kStackBase (setSlot 6 w (r.push s.kStack)) })
        (f := r.pusha 6 (m.kernel.thread m.kernel.currThread).kStackBase ∘ setSlot 6 w ∘ r.push) ⟨rfl, rfl⟩
      exact h.restacks hr (he.trans hu.eflagsIopl) fun _ _ =>
        (userFrame_pusha (by decide)).mpr ((userFrame_setSlot (by decide)).mpr hu)
  | fork hheap hf => exact h.fork hheap hf
  | threadFork hheap hf => exact h.threadFork hheap hf
  | exec hx =>
    obtain ⟨f, hr, rfl | ⟨entryAddr, userStackTop, rfl⟩⟩ := doExec_restacks hx
    · exact h.restacks hr h.eflags fun _ hu => hu
    · exact h.restacks hr h.eflags fun _ _ => userFrame_setTaskStack h.eflags
  | swexn hx hok =>
    obtain ⟨f, hr, rfl | ⟨u, hu, hv, rfl⟩⟩ := swexnHandlerC_restacks hx
    · exact h.restacks hr h.eflags fun _ hu => hu
    · exact h.restacks hr h.eflags fun _ _ => (userFrame_setupKernelStack hv).mpr (hok u hu)
  | deliver hx =>
    obtain ⟨f, hr, rfl | ⟨esp, eip, rfl⟩⟩ := invokeSwexnHandler_restacks hx
    · exact h.restacks hr h.eflags fun _ hu => hu
    · exact h.restacks hr h.eflags fun _ hu => userFrame_updateFaultStack.mpr hu

def swexnPage (cs : Word) (i : Nat) : Word :=
  if i = 0 then 0x01000800#32
  else if i = 1 then 0x01000010#32
  else if i = 3 then 0x01000100#32
  else if i = 64 + 2 then SEGSEL_USER_DS
  else if i = 64 + 16 then cs
  else if i = 64 + 17 then EFLAGS_IF
  else 0#32

def swexnVm (cs : Word) : Vm where
  kmem pd i := if pd = 0x5000#32 ∧ i.val = 4 then 0x6007#32 else if pd = 0x6000#32 ∧ i.val = 0 then 0x01000007#32
    else PAGE_TABLE_ENTRY_DEFAULT
  directMap _ := 0#32
  pds := {0x5000#32}
  avail := []
  cr3 := 0x5000#32
  fr := initFreeList 1
  umem _ i := (swexnPage cs (i.val / 4)).extractLsb' (8 * (i.val % 4)) 8

end

end Machine

end Pebbles
