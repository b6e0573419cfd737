import Pebbles.KernelSound
import Pebbles.Privilege
import Pebbles.Stubs

/-!
# swexn

One call of `swexn` installs or removes a handler and replaces the registers of the caller.
The handler is installed before the registers are tested, and a call that removes it does
not look at them. Which segments the registers ask for is not tested.
-/

namespace Pebbles

open Words X86 Kernel

namespace Kernel

def swexnArgs (argPacket : Word) (k : Kernel) : Option (Except Int (Word × Word × Word × Word)) := do
  let esp3 ← k.vm.readWord argPacket
  if !(← k.vm.nullOrWritable esp3) then return .error ERR_INVAL
  let eip ← k.vm.readWord (argPacket + 4#32)
  if !(← k.vm.nullOrValid eip) then return .error ERR_INVAL
  let arg ← k.vm.readWord (argPacket + 8#32)
  let newureg ← k.vm.readWord (argPacket + 12#32)
  if !(← k.vm.nullOrValid newureg) then return .error ERR_INVAL
  return .ok (esp3, eip, arg, newureg)

def setHandler (esp3 eip arg : Word) (k : Kernel) : Kernel :=
  k.setTask k.currTask fun s => { s with eip := eip, swexnArgs := arg, swexnEsp := esp3 }

section
variable {k k' : Kernel} {argPacket esp3 eip arg newureg : Word} {rv : Int} {u : Ureg}

theorem swexnHandlerC_eq : k.swexnHandlerC argPacket = (k.swexnArgs argPacket).bind fun
    | .error e => some (e, k)
    | .ok (esp3, eip, arg, newureg) => k.installHandler esp3 eip arg newureg := by
  unfold swexnHandlerC swexnArgs
  simp only [Option.bind_eq_bind, Option.bind_assoc, Option.pure_def]
  refine Option.bind_congr fun esp3 _ => Option.bind_congr fun b₁ _ => ?_
  cases b₁ with
  | false => rfl
  | true =>
    simp only [Bool.not_true, Bool.false_eq_true, if_false, Option.bind_assoc]
    refine Option.bind_congr fun eip _ => Option.bind_congr fun b₂ _ => ?_
    cases b₂ with
    | false => rfl
    | true =>
      simp only [Bool.not_true, Bool.false_eq_true, if_false, Option.bind_assoc]
      refine Option.bind_congr fun arg _ => Option.bind_congr fun newureg _ => Option.bind_congr fun b₃ _ => ?_
      cases b₃ <;> rfl

theorem installHandler_remove (h : esp3 = 0#32 ∨ eip = 0#32) :
    k.installHandler esp3 eip arg newureg = some (0, k.setTask k.currTask fun s => { s with eip := 0#32 }) := if_pos h

theorem installHandler_null (h : ¬ (esp3 = 0#32 ∨ eip = 0#32)) :
    k.installHandler esp3 eip arg 0#32 = some (0, k.setHandler esp3 eip arg) := by
  unfold installHandler
  rw [if_neg h]
  exact if_pos rfl

theorem installHandler_read (h : ¬ (esp3 = 0#32 ∨ eip = 0#32)) (hn : newureg ≠ 0#32) :
    k.installHandler esp3 eip arg newureg = (Ureg.read newureg k.vm).map fun u =>
      if u.validateUregs < 0 then (ERR_FAILURE, k.setHandler esp3 eip arg)
      else (u.eax.toInt, (k.setHandler esp3 eip arg).setThread k.currThread fun s => { s with
        kStack := (u.setupKernelStack s.kStack).2 }) := by
  unfold installHandler
  rw [if_neg h]
  dsimp only
  rw [if_neg hn]
  cases hu : Ureg.read newureg k.vm with
  | none =>
    rw [show (k.setTask k.currTask _).vm = k.vm from rfl, hu]
    rfl
  | some u =>
    rw [show (k.setTask k.currTask _).vm = k.vm from rfl, hu]
    simp only [Option.map_some, Ureg.setupKernelStack]
    by_cases hv : u.validateUregs < 0
    · simp only [hv, if_true]
      rfl
    · simp only [hv, if_false]
      rfl

end

/-! ## All or nothing -/

structure SwexnUntouched (k k' : Kernel) : Prop where
  handler : (k'.task k.currTask).handler = (k.task k.currTask).handler
  frame : (k'.thread k.currThread).kStack = (k.thread k.currThread).kStack

end Kernel

/-- The saved words of a thread are those that `u` asks for. There is one word for the data
segment, and `setup_kernel_stack` takes it from `ds`. -/
structure Ureg.Describes (u : Ureg) (stack : Nat → Word) : Prop where
  ds : stack 1 = u.ds
  esp : stack 2 = u.esp
  eflags : stack 3 = u.eflags
  cs : stack 4 = u.cs
  eip : stack 5 = u.eip
  ecx : stack 6 = u.ecx
  eax : stack 7 = u.eax
  edx : stack 8 = u.edx
  ebx : stack 9 = u.ebx
  ebp : stack 11 = u.ebp
  edi : stack 12 = u.edi
  esi : stack 13 = u.esi

namespace Kernel

def RegsRefused (esp3 eip newureg : Word) (k : Kernel) : Prop :=
  ¬ (esp3 = 0#32 ∨ eip = 0#32) ∧ newureg ≠ 0#32 ∧ ∃ u, Ureg.read newureg k.vm = some u ∧ u.validateUregs < 0

/-- A call that is refused changes nothing; another one sets the handler and, with values
for the registers, the saved words. -/
def SwexnAllOrNothing (argPacket : Word) (k k' : Kernel) : Prop :=
  (∀ e, k.swexnArgs argPacket = some (.error e) → SwexnUntouched k k') ∧
  ∀ esp3 eip arg newureg, k.swexnArgs argPacket = some (.ok (esp3, eip, arg, newureg)) →
    (k.RegsRefused esp3 eip newureg → SwexnUntouched k k') ∧
    (¬ k.RegsRefused esp3 eip newureg →
      (if esp3 = 0#32 ∨ eip = 0#32 then (k'.task k.currTask).eip = 0#32
        else (k'.task k.currTask).handler = (eip, arg, esp3)) ∧
      (newureg ≠ 0#32 → ∀ u, Ureg.read newureg k.vm = some u → u.Describes (k'.thread k.currThread).kStack))

/-- A call that removes the handler has no values for the registers, or the thread has them
already; a call with refused values asks for the handler that the task has. -/
def SwexnSafe (argPacket : Word) (k : Kernel) : Prop :=
  ∀ esp3 eip arg newureg u, k.swexnArgs argPacket = some (.ok (esp3, eip, arg, newureg)) → newureg ≠ 0#32 →
    Ureg.read newureg k.vm = some u →
    if esp3 = 0#32 ∨ eip = 0#32 then u.Describes (k.thread k.currThread).kStack
    else u.validateUregs < 0 → (k.task k.currTask).handler = (eip, arg, esp3)

end Kernel

section
variable {k k' : Kernel} {argPacket esp3 eip arg newureg : Word} {rv : Int} {u : Ureg} {stack : Nat → Word}

theorem describes_setupKernelStack (hv : ¬ u.validateUregs < 0) : u.Describes (u.setupKernelStack stack).2 := by
  simp only [Ureg.setupKernelStack, hv, if_false]
  constructor <;> simp [setSlot]

theorem handler_setHandler : ((k.setHandler esp3 eip arg).task k.currTask).handler = (eip, arg, esp3) := by
  simp [setHandler, setTask, Task.handler]

theorem allOrNothing_ok (ha : k.swexnArgs argPacket = some (.ok (esp3, eip, arg, newureg)))
    (h : k.installHandler esp3 eip arg newureg = some (rv, k')) :
    SwexnAllOrNothing argPacket k k' ↔ SwexnSafe argPacket k := by
  have hprop : SwexnAllOrNothing argPacket k k' ↔
      (k.RegsRefused esp3 eip newureg → SwexnUntouched k k') ∧
      (¬ k.RegsRefused esp3 eip newureg →
        (if esp3 = 0#32 ∨ eip = 0#32 then (k'.task k.currTask).eip = 0#32
          else (k'.task k.currTask).handler = (eip, arg, esp3)) ∧
        (newureg ≠ 0#32 → ∀ u, Ureg.read newureg k.vm = some u → u.Describes (k'.thread k.currThread).kStack)) := by
    simp only [SwexnAllOrNothing, ha, Option.some.injEq, reduceCtorEq, false_implies, implies_true, true_and,
      Except.ok.injEq,
      Prod.mk.injEq]
    exact ⟨fun hp => hp _ _ _ _ ⟨rfl, rfl, rfl, rfl⟩, by rintro hp _ _ _ _ ⟨rfl, rfl, rfl, rfl⟩; exact hp⟩
  have hsafe : SwexnSafe argPacket k ↔ ∀ u, newureg ≠ 0#32 → Ureg.read newureg k.vm = some u →
      if esp3 = 0#32 ∨ eip = 0#32 then u.Describes (k.thread k.currThread).kStack
      else u.validateUregs < 0 → (k.task k.currTask).handler = (eip, arg, esp3) := by
    simp only [SwexnSafe, ha, Option.some.injEq, Except.ok.injEq, Prod.mk.injEq]
    exact ⟨fun hp u => hp _ _ _ _ u ⟨rfl, rfl, rfl, rfl⟩, by rintro hp _ _ _ _ u ⟨rfl, rfl, rfl, rfl⟩; exact hp u⟩
  rw [hprop, hsafe]
  by_cases hz : esp3 = 0#32 ∨ eip = 0#32
  · -- the handler is removed, and the registers are left
    rw [installHandler_remove hz] at h
    cases h
    have hno : ¬ k.RegsRefused esp3 eip newureg := fun hr => hr.1 hz
    simp only [hno, hz, if_true, false_implies, true_and, not_false_eq_true, forall_const]
    refine ⟨fun hp u hn hu => hp.2 hn u hu, fun hp => ⟨by simp [setTask], fun hn u hu => hp u hn hu⟩⟩
  · by_cases hn : newureg = 0#32
    · subst hn
      rw [installHandler_null hz] at h
      cases h
      have hno : ¬ k.RegsRefused esp3 eip 0#32 := fun hr => hr.2.1 rfl
      simp only [hno, hz, if_false, false_implies, true_and, not_false_eq_true, forall_const]
      exact ⟨fun _ _ hne => absurd rfl hne, fun _ => ⟨handler_setHandler, fun hne => absurd rfl hne⟩⟩
    · rw [installHandler_read hz hn] at h
      obtain ⟨u, hu, h⟩ := Option.map_eq_some_iff.mp h
      by_cases hv : u.validateUregs < 0
      · -- the handler is there already when the registers are refused
        rw [if_pos hv] at h
        cases h
        have hyes : k.RegsRefused esp3 eip newureg := ⟨hz, hn, u, hu, hv⟩
        simp only [hyes, hz, if_false, hu, Option.some.injEq, not_true_eq_false, false_implies, and_true, forall_const]
        constructor
        · rintro hp _ - rfl -
          rw [← hp.handler, handler_setHandler]
        · intro hp
          exact ⟨handler_setHandler.trans (hp u hn rfl hv).symm, rfl⟩
      · rw [if_neg hv] at h
        cases h
        have hno : ¬ k.RegsRefused esp3 eip newureg := by
          rintro ⟨-, -, u', hu', hv'⟩
          rw [hu] at hu'
          cases hu'
          exact hv hv'
        simp only [hno, hz, if_false, hu, Option.some.injEq, false_implies, true_and, not_false_eq_true, forall_const]
        constructor
        · rintro - _ - rfl hv'
          exact absurd hv' hv
        · refine fun _ => ⟨handler_setHandler, ?_⟩
          rintro - _ rfl
          rw [show ((k.setHandler esp3 eip arg).setThread k.currThread _).thread k.currThread = _ from Function.update_self ..]
          exact describes_setupKernelStack hv

/-- `swexn` takes effect entirely or not at all exactly for safe arguments. -/
theorem swexn_all_or_nothing_iff (h : k.swexnHandlerC argPacket = some (rv, k')) :
    SwexnAllOrNothing argPacket k k' ↔ SwexnSafe argPacket k := by
  rw [swexnHandlerC_eq, Option.bind_eq_some_iff] at h
  obtain ⟨x, ha, h⟩ := h
  cases x with
  | ok x => exact allOrNothing_ok ha h
  | error e =>
    cases h
    simp only [SwexnAllOrNothing, SwexnSafe, ha, Option.some.injEq, reduceCtorEq, false_implies, implies_true,
      and_true, iff_true]
    exact fun _ _ => ⟨rfl, rfl⟩

end

/-! ### Calls with refused values -/

def uregPage (esp3 cs eflags : Word) (i : Nat) : Word :=
  if i = 0 then esp3 else if i = 64 + 17 then eflags else Machine.swexnPage cs i

def uregKernel (esp3 cs eflags : Word) : Kernel :=
  loneKernel { Machine.swexnVm cs with
    umem := fun _ i => (uregPage esp3 cs eflags (i.val / 4)).extractLsb' (8 * (i.val % 4)) 8 } 0x5000#32

theorem swexn_all_or_nothing_installed : ∃ k', (uregKernel 0x01000800#32 SEGSEL_USER_CS EFLAGS_IF).swexnHandlerC 0x01000000#32 =
    some (0, k') ∧ SwexnAllOrNothing 0x01000000#32 (uregKernel 0x01000800#32 SEGSEL_USER_CS EFLAGS_IF) k' := by
  have h : ((uregKernel 0x01000800#32 SEGSEL_USER_CS EFLAGS_IF).swexnHandlerC 0x01000000#32).map Prod.fst = some 0 := by
    decide +kernel
  obtain ⟨⟨rv, k'⟩, hx, rfl⟩ := Option.map_eq_some_iff.mp h
  refine ⟨k', hx, (swexn_all_or_nothing_iff hx).mpr ?_⟩
  have hu : ((Ureg.read 0x01000100#32 (uregKernel 0x01000800#32 SEGSEL_USER_CS EFLAGS_IF).vm).map
      fun u => u.validateUregs) = some 0 := by decide +kernel
  have ha : (uregKernel 0x01000800#32 SEGSEL_USER_CS EFLAGS_IF).swexnArgs 0x01000000#32 =
      some (.ok (0x01000800#32, 0x01000010#32, 0#32, 0x01000100#32)) := by decide +kernel
  intro esp3 eip arg newureg u hargs hn hread
  rw [ha] at hargs
  simp only [Option.some.injEq, Except.ok.injEq, Prod.mk.injEq] at hargs
  obtain ⟨rfl, rfl, rfl, rfl⟩ := hargs
  rw [hread, Option.map_some, Option.some.injEq] at hu
  rw [if_neg (by decide), hu]
  exact fun hlt => absurd hlt (by decide)

/-- Values without interrupts are refused, but the handler is installed; a call without a stack for the handler removes
it and leaves the registers, though it has values for them. -/
theorem swexn_half_done :
    (∃ k', (uregKernel 0x01000800#32 SEGSEL_USER_CS 0#32).swexnHandlerC 0x01000000#32 = some (ERR_FAILURE, k') ∧
      ¬ SwexnAllOrNothing 0x01000000#32 (uregKernel 0x01000800#32 SEGSEL_USER_CS 0#32) k') ∧
    ∃ k', (uregKernel 0#32 SEGSEL_USER_CS EFLAGS_IF).swexnHandlerC 0x01000000#32 = some (0, k') ∧
      ¬ SwexnAllOrNothing 0x01000000#32 (uregKernel 0#32 SEGSEL_USER_CS EFLAGS_IF) k' := by
  constructor
  · have h : ((uregKernel 0x01000800#32 SEGSEL_USER_CS 0#32).swexnHandlerC 0x01000000#32).map
        (fun x => (x.1, (x.2.task 0x100#32).handler)) = some (ERR_FAILURE, 0x01000010#32, 0#32, 0x01000800#32) := by
      decide +kernel
    obtain ⟨⟨rv, k'⟩, hx, he⟩ := Option.map_eq_some_iff.mp h
    obtain ⟨rfl, hh⟩ := Prod.mk.inj he
    refine ⟨k', hx, fun hp => ?_⟩
    have hu : ((Ureg.read 0x01000100#32 (uregKernel 0x01000800#32 SEGSEL_USER_CS 0#32).vm).map
        fun u => u.validateUregs) = some ERR_INVAL := by decide +kernel
    obtain ⟨u, hread, hv⟩ := Option.map_eq_some_iff.mp hu
    have hsame := (hp.2 0x01000800#32 0x01000010#32 0#32 0x01000100#32 (by decide +kernel)).1
      ⟨by decide, by decide, u, hread, by rw [hv]; decide⟩
    have hold := hsame.handler
    rw [show (uregKernel 0x01000800#32 SEGSEL_USER_CS 0#32).currTask = 0x100#32 from rfl, hh] at hold
    exact absurd hold (by decide)
  · have h : ((uregKernel 0#32 SEGSEL_USER_CS EFLAGS_IF).swexnHandlerC 0x01000000#32).map
        (fun x => (x.1, (x.2.thread 0x200#32).kStack 4)) = some (0, 0#32) := by decide +kernel
    obtain ⟨⟨rv, k'⟩, hx, he⟩ := Option.map_eq_some_iff.mp h
    obtain ⟨rfl, hcs⟩ := Prod.mk.inj he
    refine ⟨k', hx, fun hp => ?_⟩
    have hu : ((Ureg.read 0x01000100#32 (uregKernel 0#32 SEGSEL_USER_CS EFLAGS_IF).vm).map
        fun u => u.cs) = some SEGSEL_USER_CS := by decide +kernel
    obtain ⟨u, hread, hucs⟩ := Option.map_eq_some_iff.mp hu
    have hdone := (hp.2 0#32 0x01000010#32 0#32 0x01000100#32 (by decide +kernel)).2 fun hr => hr.1 (Or.inl rfl)
    have hframe := (hdone.2 (by decide) u hread).cs
    rw [show (uregKernel 0#32 SEGSEL_USER_CS EFLAGS_IF).currThread = 0x200#32 from rfl, hcs, hucs] at hframe
    exact absurd hframe (by decide)

/-! ## The registers after the call -/

structure Ureg.Loaded (u : Ureg) (x : Context) : Prop where
  reg : x.reg = u.reg
  eip : x.eip = u.eip
  eflags : x.eflags = u.eflags
  esp : x.esp = u.esp

section
variable {k : Kernel} {r : Regs} {esp3 eip arg newureg base : Word} {u : Ureg} {stack : Nat → Word} {c : Cpu}

end

def packetRegs : Regs := ⟨0x01000010#32, SEGSEL_USER_CS, EFLAGS_IF, 0x01001000#32, SEGSEL_USER_DS, 0#32, 0#32, 0#32,
    0#32,
  0x01000000#32, 0#32, 0#32⟩

end Pebbles
