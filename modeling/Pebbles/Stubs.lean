import Pebbles.Lib.X86
import Pebbles.Trap

/-!
# The entry and exit code of traps

The macros of `syscall_util_asm.h` and the stubs of `fault_handlers_asm.S` as instructions,
and the words that they leave on the kernel stack.
-/

namespace Pebbles

open Words X86

def SAVE_REGS : List Insn :=
  [.push .ecx, .push .eax, .push .edx, .push .ebx, .pushEsp, .push .ebp, .push .edi, .push .esi]

def FAULT_RETURN : List Insn := [.popa, .pop .ecx]

def userSegments : UserSegments := ⟨SEGSEL_USER_CS.extractLsb' 0 16, SEGSEL_USER_DS.extractLsb' 0 16⟩

namespace Regs

def reg (r : Regs) : Reg → Word
  | .eax => r.eax
  | .ecx => r.ecx
  | .edx => r.edx
  | .ebx => r.ebx
  | .ebp => r.ebp
  | .esi => r.esi
  | .edi => r.edi

def systemCall (r : Regs) (base : Word) (stack : Nat → Word) :
    Cpu := (⟨base, 5, r.reg, r.push stack⟩ : Cpu).run SAVE_REGS

def fault (r : Regs) (errorCode : Option Word) (base : Word) (stack : Nat → Word) : Cpu :=
  match errorCode with
  | none => (⟨base, 5, r.reg, r.push stack⟩ : Cpu).run [.pusha]
  | some e => (⟨base, 6, r.reg, Kernel.setSlot 6 e (r.push stack)⟩ : Cpu).run [.pusha]

end Regs

def faultReturn (c : Cpu) : Option Context := (c.run FAULT_RETURN).iret userSegments

section
variable {r : Regs} {base w : Word} {stack : Nat → Word} {c : Cpu}

theorem fault_none : r.fault none base stack = ⟨base, 13, r.reg, r.pusha 5 base (r.push stack)⟩ := rfl

theorem fault_some : r.fault (some w) base stack = ⟨base, 14, r.reg,
    r.pusha 6 base (Kernel.setSlot 6 w (r.push stack))⟩ := rfl

theorem run_faultReturn {n : Nat} (hd : c.depth = n + 8) :
    ∃ reg, c.run FAULT_RETURN = ⟨c.base, n - 1, reg, c.stack⟩ := by
  obtain ⟨base, depth, reg, stack⟩ := c
  dsimp only at hd
  subst hd
  exact ⟨_, rfl⟩

end

/-! ## What a fault reports -/

def Ureg.reg (u : Ureg) : Reg → Word
  | .eax => u.eax
  | .ecx => u.ecx
  | .edx => u.edx
  | .ebx => u.ebx
  | .ebp => u.ebp
  | .esi => u.esi
  | .edi => u.edi

structure Ureg.Reports (u : Ureg) (r : Regs) : Prop where
  reg : u.reg = r.reg
  eip : u.eip = r.eip
  cs : u.cs = r.cs
  eflags : u.eflags = r.eflags
  esp : u.esp = r.esp
  ss : u.ss = r.ss

theorem reports_fault (r : Regs) (e cause cr2 base : Word) (stack : Nat → Word) :
    (Ureg.populate cause cr2 (r.fault (some e) base stack).stack).Reports r := by
  refine ⟨?_, rfl, rfl, rfl, rfl, rfl⟩
  funext x
  cases x <;> rfl

end Pebbles
