import Pebbles.Swexn

/-!
# Delivery of faults

`populate_ureg` and the stubs of the faults take it that the processor has pushed an error
code. For the faults that have none, every word is one off.
-/

namespace Pebbles

open Words X86 Kernel

inductive Fault where
  | divideError
  | debugException
  | breakpoint
  | overflow
  | boundRange
  | undefinedOpcode
  | snp
  | ssf
  | gpf
  | pageFault
  | alignmentCheck
  | floatingPointExp
  deriving DecidableEq

namespace Fault

def cause : Fault → Word
  | divideError => 0x00
  | debugException => 0x01
  | breakpoint => 0x03
  | overflow => 0x04
  | boundRange => 0x05
  | undefinedOpcode => 0x06
  | snp => 0x0b
  | ssf => 0x0c
  | gpf => 0x0d
  | pageFault => 0x0e
  | alignmentCheck => 0x11
  | floatingPointExp => 0x10

def hasErrorCode : Fault → Bool
  | snp | ssf | gpf | pageFault | alignmentCheck => true
  | _ => false

end Fault

section
variable {k k' : Kernel} {f : Fault} {r : Regs} {e : Option Word} {cause cr2 rv : Word} {c : Cpu}

def faultCpu (r : Regs) (e : Option Word) (k : Kernel) : Cpu :=
  r.fault e (k.thread k.currThread).kStackBase (k.thread k.currThread).kStack

theorem enterFault_stack : ((k.enterFault r e).thread k.currThread).kStack = (faultCpu r e k).stack := by
  cases e <;> simp [faultCpu, enterFault, setThread, fault_none, fault_some]

theorem invokeSwexnHandler_some (h : k.invokeSwexnHandler cause cr2 = some (0, k')) :
    ∃ esp vm, k.vm.setupSwexnStack (k.task k.currTask).swexnEsp (Ureg.populate cause cr2 (k.thread k.currThread).kStack)
        (k.task k.currTask).swexnArgs = some (esp, vm) ∧
      (k'.thread k.currThread).kStack = updateFaultStack esp (k.task k.currTask).eip
      (k.thread k.currThread).kStack := by
  unfold invokeSwexnHandler at h
  dsimp only at h
  split_ifs at h
  · cases h
  · simp only [Option.bind_eq_bind, Option.bind_eq_some_iff] at h
    obtain ⟨⟨esp, vm⟩, hs, h⟩ := h
    cases h
    exact ⟨esp, vm, hs, by simp [setThread, setTask]⟩

variable {esp eip : Word} {w : Word} {x : Context}

theorem faultReturn_some (hcs : r.cs = SEGSEL_USER_CS) (hss : r.ss = SEGSEL_USER_DS)
    (hc : (faultCpu r (some w) k).Called rv (updateFaultStack esp eip (faultCpu r (some w) k).stack) c) :
    ∃ x, faultReturn c = some x ∧ x.eip = eip ∧ x.esp = esp := by
  obtain ⟨reg, hrun⟩ := run_faultReturn (n := 6) (c := c) hc.depth
  have hslot : ∀ i ≤ 5, c.stack i = updateFaultStack esp eip (faultCpu r (some w) k).stack i :=
    fun i hi => hc.stack i (hi.trans (by decide : 5 ≤ 14))
  have h4 : c.stack 4 = SEGSEL_USER_CS := (hslot 4 (by decide)).trans hcs
  have h1 : c.stack 1 = SEGSEL_USER_DS := (hslot 1 (by decide)).trans hss
  refine ⟨⟨reg, c.stack 5, c.stack 4, c.stack 3, c.stack 2, c.stack 1⟩, ?_, hslot 5 (by decide), hslot 2 (by decide)⟩
  simp only [faultReturn, hrun, Cpu.iret, Nat.reduceSub, h4, h1]
  rfl

theorem faultReturn_none (hc : (faultCpu r none k).Called rv (updateFaultStack esp eip (faultCpu r none k).stack) c)
    (h : faultReturn c = some x) : x.eip = r.cs := by
  obtain ⟨reg, hrun⟩ := run_faultReturn (n := 5) (c := c) hc.depth
  simp only [faultReturn, hrun, Cpu.iret, Nat.reduceSub] at h
  split_ifs at h
  cases h
  exact hc.stack 4 (by decide : 4 ≤ 13)

/-- The handler of the task is told the registers, and the thread goes on in it with the
stack pointer at its frame. -/
structure FaultDelivered (f : Fault) (r : Regs) (e : Option Word) (cr2 : Word) (k : Kernel) (c : Cpu) : Prop where
  reports : (Ureg.populate f.cause cr2 (faultCpu r e k).stack).Reports r
  resumes : ∃ x, faultReturn c = some x ∧ x.eip = (k.task k.currTask).eip ∧
    (k.vm.setupSwexnStack (k.task k.currTask).swexnEsp (Ureg.populate f.cause cr2 (faultCpu r e k).stack)
      (k.task k.currTask).swexnArgs).map Prod.fst = some x.esp

theorem fault_delivered_iff (he : e.isSome = f.hasErrorCode) (hcs : r.cs = SEGSEL_USER_CS) (hss : r.ss = SEGSEL_USER_DS)
    (heip : USER_MEM_START ≤ (k.task k.currTask).eip)
    (h : (k.enterFault r e).invokeSwexnHandler f.cause cr2 = some (0, k'))
    (hc : (faultCpu r e k).Called rv (k'.thread k.currThread).kStack c) :
    FaultDelivered f r e cr2 k c ↔ f.hasErrorCode = true := by
  have hcurr : (k.enterFault r e).currTask = k.currTask := by simp [enterFault, currTask, setThread]
  obtain ⟨esp, vm, hs, hst⟩ := invokeSwexnHandler_some h
  rw [hcurr] at hs hst
  change (k'.thread k.currThread).kStack = _ at hst
  change k.vm.setupSwexnStack _ (Ureg.populate _ _ ((k.enterFault r e).thread k.currThread).kStack) _ = _ at hs
  change (k'.thread k.currThread).kStack = updateFaultStack _ _ ((k.enterFault r e).thread k.currThread).kStack at hst
  rw [enterFault_stack] at hs hst
  rw [hst] at hc
  cases e with
  | some w =>
    obtain ⟨x, hx, hxe, hxs⟩ := faultReturn_some hcs hss hc
    refine iff_of_true ⟨reports_fault .., x, hx, hxe, ?_⟩ he.symm
    rw [hxs]
    exact congrArg (Option.map Prod.fst) hs
  | none =>
    refine iff_of_false (fun hd => ?_) (by rw [← he]; decide)
    obtain ⟨x, hx, hxe, -⟩ := hd.resumes
    rw [faultReturn_none hc hx, hcs] at hxe
    rw [← hxe] at heip
    exact absurd heip (by decide)

end

/-! ## A page fault and a division by zero -/

def faultKernel : Kernel :=
  (uregKernel 0#32 SEGSEL_USER_CS EFLAGS_IF).setTask 0x100#32 fun s =>
    { s with eip := 0x01000010#32, swexnEsp := 0x01000800#32 }

def returned (stack : Nat → Word) (c : Cpu) : Cpu := { c with stack := stack }

theorem called_returned (c : Cpu) (stack : Nat → Word) : c.Called (c.reg .eax) stack (returned stack c) :=
  ⟨rfl, rfl, rfl, rfl, rfl, rfl, rfl, fun _ _ => rfl⟩

theorem fault_delivered_page : ∃ k', (faultKernel.enterFault packetRegs (some 4#32)).invokeSwexnHandler
      Fault.pageFault.cause 0#32 = some (0, k') ∧
    FaultDelivered .pageFault packetRegs (some 4#32) 0#32 faultKernel
      (returned (k'.thread 0x200#32).kStack (faultCpu packetRegs (some 4#32) faultKernel)) := by
  have h : ((faultKernel.enterFault packetRegs (some 4#32)).invokeSwexnHandler Fault.pageFault.cause 0#32).map Prod.fst =
      some 0 := by decide +kernel
  obtain ⟨⟨rv, k'⟩, hx, rfl⟩ := Option.map_eq_some_iff.mp h
  refine ⟨k', hx, (fault_delivered_iff rfl rfl rfl (by decide +kernel) hx (called_returned _ _)).mpr rfl⟩

/-- The thread does not come back from a division by zero. -/
theorem divide_error_not_delivered : ∃ k', (faultKernel.enterFault packetRegs none).invokeSwexnHandler
      Fault.divideError.cause 0#32 = some (0, k') ∧
    faultReturn (returned (k'.thread 0x200#32).kStack (faultCpu packetRegs none faultKernel)) = none ∧
    ¬ FaultDelivered .divideError packetRegs none 0#32 faultKernel
      (returned (k'.thread 0x200#32).kStack (faultCpu packetRegs none faultKernel)) := by
  have h : ((faultKernel.enterFault packetRegs none).invokeSwexnHandler Fault.divideError.cause 0#32).map
      (fun x => (x.1, (x.2.thread 0x200#32).kStack 3)) = some (0, EFLAGS_IF) := by decide +kernel
  obtain ⟨⟨rv, k'⟩, hx, he⟩ := Option.map_eq_some_iff.mp h
  obtain ⟨rfl, hflags⟩ := Prod.mk.inj he
  have hret : faultReturn (returned (k'.thread 0x200#32).kStack (faultCpu packetRegs none faultKernel)) = none := by
    obtain ⟨reg, hrun⟩ := run_faultReturn (n := 5)
      (c := returned (k'.thread 0x200#32).kStack (faultCpu packetRegs none faultKernel)) rfl
    unfold faultReturn
    rw [hrun]
    refine if_neg fun hsel => ?_
    have hcs : ((k'.thread 0x200#32).kStack 3).extractLsb' 0 16 = userSegments.cs := hsel.1
    rw [hflags] at hcs
    exact absurd hcs (by decide)
  refine ⟨k', hx, hret, fun hd => ?_⟩
  obtain ⟨x, hx, -⟩ := hd.resumes
  rw [hret] at hx
  cases hx

end Pebbles
