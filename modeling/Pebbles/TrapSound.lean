import Pebbles.ForkSound
import Pebbles.LifeSound
import Pebbles.Trap

/-!
# The registers of a forked child

`SAVE_REGS` stores the registers in an order of its own, while a new thread
starts with `popa` in `iret_fun`. The child has its creator's registers exactly
when the words that change places are equal.
-/

namespace Pebbles

open Words Kernel

def Regs.ofChild (r : Regs) : Regs := { r with eax := 0#32 }

/-- The saved words of a stack are those from which `iret_fun` restores `r`. -/
structure Regs.Restored (r : Regs) (stack : Nat → Word) : Prop where
  ss : stack 1 = r.ss
  esp : stack 2 = r.esp
  eflags : stack 3 = r.eflags
  cs : stack 4 = r.cs
  eip : stack 5 = r.eip
  ecx : stack 7 = r.ecx
  edx : stack 8 = r.edx
  ebx : stack 9 = r.ebx
  ebp : stack 11 = r.ebp
  esi : stack 12 = r.esi
  edi : stack 13 = r.edi

section
variable {r : Regs} {k k' : Kernel} {t thr src : Word} {rv : Int}

theorem iretFun_eq_iff {stack : Nat → Word} : Regs.iretFun 13 stack = r.ofChild ↔ r.Restored stack := by
  constructor
  · intro h
    simp only [Regs.iretFun, Regs.ofChild, Regs.mk.injEq] at h
    obtain ⟨h₁, h₂, h₃, h₄, h₅, -, h₆, h₇, h₈, h₉, h₁₀, h₁₁⟩ := h
    exact ⟨h₅, h₄, h₃, h₂, h₁, h₇, h₈, h₆, h₁₁, h₉, h₁₀⟩
  · rintro ⟨h₁, h₂, h₃, h₄, h₅, h₆, h₇, h₈, h₉, h₁₀, h₁₁⟩
    simp [Regs.iretFun, Regs.ofChild, h₁, h₂, h₃, h₄, h₅, h₆, h₇, h₈, h₉, h₁₀, h₁₁]

theorem restored_saveRegs {base : Word} {stack : Nat → Word} :
    r.Restored (r.saveRegs base (r.push stack)) ↔ r.esi = r.edi ∧ r.eax = r.ecx := by
  constructor
  · intro h
    have hedi := h.edi
    have hecx := h.ecx
    simp only [Regs.saveRegs, setSlot, Function.update_apply] at hedi hecx
    exact ⟨by simpa using hedi, by simpa using hecx⟩
  · rintro ⟨h₁, h₂⟩
    constructor <;> simp [Regs.saveRegs, Regs.push, setSlot, h₁, h₂]

theorem restored_setSlot {w : Word} {stack : Nat → Word} :
    r.Restored (setSlot IRET_FUN_OFFSET w stack) ↔ r.Restored stack := by
  have hne : ∀ i < 14, setSlot IRET_FUN_OFFSET w stack i = stack i := by
    intro i hi
    exact Function.update_of_ne (by simp only [IRET_FUN_OFFSET]; omega) ..
  constructor
  · rintro ⟨h₁, h₂, h₃, h₄, h₅, h₆, h₇, h₈, h₉, h₁₀, h₁₁⟩
    constructor <;> (rw [← hne _ (by decide)]; assumption)
  · rintro ⟨h₁, h₂, h₃, h₄, h₅, h₆, h₇, h₈, h₉, h₁₀, h₁₁⟩
    constructor <;> (rw [hne _ (by decide)]; assumption)

theorem firstResume_iff {stack : Nat → Word} (hs : (k'.thread thr).kStack = setSlot IRET_FUN_OFFSET k'.iretFun stack)
    (he : (k'.thread thr).curEsp = (k'.thread thr).kStackBase - DEFAULT_STACK_OFFSET) :
    firstResume thr k' = some r.ofChild ↔ r.Restored stack := by
  have hi : ((k'.thread thr).kStackBase - (k'.thread thr).curEsp).toNat / 4 = IRET_FUN_OFFSET := by
    rw [he, sub_sub_cancel]
    rfl
  have hret : setSlot IRET_FUN_OFFSET k'.iretFun stack IRET_FUN_OFFSET = k'.iretFun := Function.update_self ..
  unfold firstResume
  dsimp only
  rw [hi, hs, if_pos hret, Option.some.injEq, show IRET_FUN_OFFSET - 1 = 13 from rfl, iretFun_eq_iff, restored_setSlot]

theorem doFork_firstResume (ht : t ≠ 0#32) (hpt : k.currTask ≠ t) (hf : k.doFork (some t) (some thr) = some (rv, k'))
    (hr : rv ≠ ERR_FAILURE) :
    firstResume thr k' = some r.ofChild ↔ r.Restored (k.thread (k.task k.currTask).thr).kStack := by
  rcases (doFork_some hf ht hpt).2 with ⟨vm, -, rfl, -⟩ | ⟨newPd, vm, -, -, rfl⟩
  · exact absurd rfl hr
  · have hsrc : ((attached k.currTask t thr k).thread (k.task k.currTask).thr).kStack =
        (k.thread (k.task k.currTask).thr).kStack := by
      by_cases e : (k.task k.currTask).thr = thr <;> simp [attached, withLinks, newTask, newThread, e]
    have hthr : ((attached k.currTask t thr k).task t).thr = thr := by
      simp [attached, withLinks, newTask]
    have hpar : (attached k.currTask t thr k).task k.currTask = k.task k.currTask := Function.update_of_ne hpt ..
    rw [← hsrc]
    apply firstResume_iff
    · simp [cloned, cloneKStack, setThread, setTask, hthr, hpar]
    · simp [cloned, cloneKStack, setThread, setTask, hthr, hpar]

theorem doThreadFork_firstResume (ht : k.currTask ≠ 0#32) (hf : k.doThreadFork (some thr) = some (rv, k')) :
    firstResume thr k' = some r.ofChild ↔ r.Restored (k.thread k.currThread).kStack := by
  obtain ⟨-, -, rfl⟩ := doThreadFork_some hf ht
  have hsrc : ((newThread k.currTask thr k).thread k.currThread).kStack = (k.thread k.currThread).kStack := by
    by_cases e : k.currThread = thr <;> simp [newThread, e]
  rw [← hsrc]
  apply firstResume_iff <;> simp [runqAddThread, cloneKStack, setThread, newThread]

theorem currTask_enter : (k.enter r).currTask = k.currTask := by
  simp [enter, currTask, setThread]

theorem thread_enter : ((k.enter r).thread k.currThread).kStack =
    r.saveRegs (k.thread k.currThread).kStackBase (r.push (k.thread k.currThread).kStack) := by
  simp [enter, setThread]

/-- A forked child and its creator's registers: for a fork by the first thread
of a task, for one by another thread, and for a new thread. -/
theorem child_registers_iff {r : Regs} {k : Kernel} (ht : k.currTask ∈ k.tasks) (ht0 : k.currTask ≠ 0#32) :
    (∀ t thr rv k', Heap k (some t) (some thr) → (k.enter r).doFork (some t) (some thr) = some (rv, k') →
      rv ≠ ERR_FAILURE →
      if (k.task k.currTask).thr = k.currThread then
        firstResume thr k' = some r.ofChild ↔ r.esi = r.edi ∧ r.eax = r.ecx
      else firstResume thr k' = some r.ofChild ↔ r.Restored (k.thread (k.task k.currTask).thr).kStack) ∧
    ∀ thr rv k', Heap k none (some thr) → (k.enter r).doThreadFork (some thr) = some (rv, k') →
      (firstResume thr k' = some r.ofChild ↔ r.esi = r.edi ∧ r.eax = r.ecx) := by
  constructor
  · intro t thr rv k' hheap hf hrv
    obtain ⟨htask0, htask⟩ := hheap.task t rfl
    have hne : k.currTask ≠ t := fun e => htask (e ▸ ht)
    have h := doFork_firstResume (r := r) htask0 (by rwa [currTask_enter]) hf hrv
    rw [currTask_enter] at h
    change _ ↔ r.Restored ((k.enter r).thread (k.task k.currTask).thr).kStack at h
    split_ifs with e
    · rw [h, e, thread_enter, restored_saveRegs]
    · rw [h]
      simp [enter, setThread, e]
  · intro thr rv k' hheap hf
    have h := doThreadFork_firstResume (r := r) (by rwa [currTask_enter]) hf
    change _ ↔ r.Restored ((k.enter r).thread k.currThread).kStack at h
    rw [h, thread_enter, restored_saveRegs]

def forkingKernel : Kernel := loneKernel Life.bareVm 0x5000#32

def callerRegs (esi edi : Word) : Regs :=
  ⟨0x01000000#32, SEGSEL_USER_CS, 0x202#32, 0xc0000000#32, SEGSEL_USER_DS, 7#32, 8#32, 7#32, 9#32, esi, edi, 10#32⟩

theorem forkingKernel_doFork : (forkingKernel.enter r).doFork (some 0x300#32) (some 0x400#32) =
    some (2, cloned 0x100#32 0x300#32 0x6000#32 (Life.bareVm.withDirectory 0x6000#32)
      (attached 0x100#32 0x300#32 0x400#32 (forkingKernel.enter r))) := by
  have hcurr : (forkingKernel.enter r).currTask = 0x100#32 := currTask_enter
  have hclone : Vm.clonePagingInfo 0x5000#32 Life.bareVm = (some 0x6000#32, Life.bareVm.withDirectory 0x6000#32) :=
    Vm.clonePagingInfo_bare (by decide) rfl fun _ _ _ => rfl
  have h := doFork_eq 0x400#32 (k := forkingKernel.enter r) (t := 0x300#32)
    (by decide) (by rw [hcurr]; decide) (by simp [enter, setThread, forkingKernel, loneKernel, MAX_TID]) rfl rfl hclone
  rw [hcurr] at h
  exact h

theorem forkingKernel_heap : Heap forkingKernel (some 0x300#32) (some 0x400#32) :=
  Life.heap_of (by decide) (by decide) (by decide)

/-- A caller whose `%esi` and `%edi` are equal gets a child with its registers. -/
theorem child_registers_iff_equal : ∃ k',
    (forkingKernel.enter (callerRegs 3#32 3#32)).doFork (some 0x300#32) (some 0x400#32) = some (2, k') ∧
      firstResume 0x400#32 k' = some (callerRegs 3#32 3#32).ofChild := by
  have h := (child_registers_iff (r := callerRegs 3#32 3#32) (k := forkingKernel) (by decide)
    (by decide)).1 0x300#32 0x400#32 2 _
    forkingKernel_heap forkingKernel_doFork (by decide)
  rw [if_pos (by decide)] at h
  exact ⟨_, forkingKernel_doFork, h.mpr ⟨rfl, rfl⟩⟩

/-- The child has the two registers of its creator exchanged. -/
theorem child_registers_exchanged : ∃ k' r',
    (forkingKernel.enter (callerRegs 3#32 4#32)).doFork (some 0x300#32) (some 0x400#32) = some (2, k') ∧
      firstResume 0x400#32 k' = some r' ∧ r'.esi = 4#32 ∧ r'.edi = 3#32 ∧ r' ≠ (callerRegs 3#32 4#32).ofChild := by
  refine ⟨_, (callerRegs 4#32 3#32).ofChild, forkingKernel_doFork, ?_, rfl, rfl, by decide⟩
  decide +kernel

end

end Pebbles
