import Mathlib

/-!
# Stack instructions

The instructions with which the entry and exit code of an interrupt moves registers to
and from a stack that grows down from its base. Words are counted from the base: word 1
is the first one pushed, and `depth` words are on the stack.
-/

namespace X86

inductive Reg where
  | eax
  | ecx
  | edx
  | ebx
  | ebp
  | esi
  | edi
  deriving DecidableEq

inductive Insn where
  | push (r : Reg)
  | pushEsp
  | pop (r : Reg)
  | popEsp
  | pusha
  | popa
  deriving DecidableEq

structure Cpu where
  base : BitVec 32
  depth : Nat
  reg : Reg → BitVec 32
  stack : Nat → BitVec 32

namespace Cpu

def esp (c : Cpu) : BitVec 32 := c.base - BitVec.ofNat 32 (4 * c.depth)

def setReg (r : Reg) (w : BitVec 32) (c : Cpu) : Cpu := { c with reg := Function.update c.reg r w }

def pushWord (w : BitVec 32) (c : Cpu) : Cpu :=
  { c with depth := c.depth + 1, stack := Function.update c.stack (c.depth + 1) w }

def pop (r : Reg) (c : Cpu) : Cpu := { c.setReg r (c.stack c.depth) with depth := c.depth - 1 }

def popEsp (c : Cpu) : Cpu := { c with depth := (c.base - c.stack c.depth).toNat / 4 }

/-- The stack pointer that is pushed is the one before the instruction. -/
def pusha (c : Cpu) : Cpu :=
  let esp := c.esp
  let c := (((c.pushWord (c.reg .eax)).pushWord (c.reg .ecx)).pushWord (c.reg .edx)).pushWord (c.reg .ebx)
  (((c.pushWord esp).pushWord (c.reg .ebp)).pushWord (c.reg .esi)).pushWord (c.reg .edi)

/-- The word of the stack pointer is skipped. -/
def popa (c : Cpu) : Cpu :=
  let c := ((c.pop .edi).pop .esi).pop .ebp
  let c := { c with depth := c.depth - 1 }
  (((c.pop .ebx).pop .edx).pop .ecx).pop .eax

def step (c : Cpu) : Insn → Cpu
  | .push r => c.pushWord (c.reg r)
  | .pushEsp => c.pushWord c.esp
  | .pop r => c.pop r
  | .popEsp => c.popEsp
  | .pusha => c.pusha
  | .popa => c.popa

def run (c : Cpu) (l : List Insn) : Cpu := l.foldl step c

/-- A function of the C convention was called. It returned with `eax`, may have changed
`ecx` and `edx`, and left the words `stack` on the stack. -/
structure Called (c : Cpu) (eax : BitVec 32) (stack : Nat → BitVec 32) (c' : Cpu) : Prop where
  base : c'.base = c.base
  depth : c'.depth = c.depth
  eax : c'.reg .eax = eax
  ebx : c'.reg .ebx = c.reg .ebx
  ebp : c'.reg .ebp = c.reg .ebp
  esi : c'.reg .esi = c.reg .esi
  edi : c'.reg .edi = c.reg .edi
  stack : ∀ i ≤ c.depth, c'.stack i = stack i

end Cpu

structure UserSegments where
  cs : BitVec 16
  ss : BitVec 16

structure Context where
  reg : Reg → BitVec 32
  eip : BitVec 32
  cs : BitVec 32
  eflags : BitVec 32
  esp : BitVec 32
  ss : BitVec 32

/-- The instruction `iret` in the kernel. `none`: the selectors are not those of user mode,
so that the processor stays in the kernel or faults. -/
def Cpu.iret (u : UserSegments) (c : Cpu) : Option Context :=
  let cs := c.stack (c.depth - 1)
  let ss := c.stack (c.depth - 4)
  if cs.extractLsb' 0 16 = u.cs ∧ ss.extractLsb' 0 16 = u.ss then
    some ⟨c.reg, c.stack c.depth, cs, c.stack (c.depth - 2), c.stack (c.depth - 3), ss⟩
  else none

end X86
