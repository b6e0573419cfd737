import Pebbles.Access
import Pebbles.Exec
import Pebbles.Fork

/-!
# Kernel entry and exit

The words that a trap leaves at the base of the kernel stack of a thread, the
first return of a new thread, and software exceptions. Word `i` of a stack is
`i` words below its base.
-/

namespace Pebbles

open Words

structure Regs where
  eip : Word
  cs : Word
  eflags : Word
  esp : Word
  ss : Word
  eax : Word
  ebx : Word
  ecx : Word
  edx : Word
  esi : Word
  edi : Word
  ebp : Word
  deriving DecidableEq

namespace Regs

def push (r : Regs) (stack : Nat → Word) : Nat → Word :=
  let stack := Kernel.setSlot 1 r.ss stack
  let stack := Kernel.setSlot 2 r.esp stack
  let stack := Kernel.setSlot 3 r.eflags stack
  let stack := Kernel.setSlot 4 r.cs stack
  Kernel.setSlot 5 r.eip stack

/-- `SAVE_REGS`, after the words of the trap. The stack pointer that it pushes
is the one in the kernel. -/
def saveRegs (r : Regs) (kStackBase : Word) (stack : Nat → Word) : Nat → Word :=
  let stack := Kernel.setSlot 6 r.ecx stack
  let stack := Kernel.setSlot 7 r.eax stack
  let stack := Kernel.setSlot 8 r.edx stack
  let stack := Kernel.setSlot 9 r.ebx stack
  let stack := Kernel.setSlot 10 (kStackBase - 36#32) stack
  let stack := Kernel.setSlot 11 r.ebp stack
  let stack := Kernel.setSlot 12 r.edi stack
  Kernel.setSlot 13 r.esi stack

def pusha (n : Nat) (r : Regs) (kStackBase : Word) (stack : Nat → Word) : Nat → Word :=
  let stack := Kernel.setSlot (n + 1) r.eax stack
  let stack := Kernel.setSlot (n + 2) r.ecx stack
  let stack := Kernel.setSlot (n + 3) r.edx stack
  let stack := Kernel.setSlot (n + 4) r.ebx stack
  let stack := Kernel.setSlot (n + 5) (kStackBase - BitVec.ofNat 32 (4 * n)) stack
  let stack := Kernel.setSlot (n + 6) r.ebp stack
  let stack := Kernel.setSlot (n + 7) r.esi stack
  Kernel.setSlot (n + 8) r.edi stack

/-- `iret_fun` with the stack pointer at word `i`: `popa`, then `%eax` is
cleared, then `iret`. -/
def iretFun (i : Nat) (stack : Nat → Word) : Regs where
  edi := stack i
  esi := stack (i - 1)
  ebp := stack (i - 2)
  ebx := stack (i - 4)
  edx := stack (i - 5)
  ecx := stack (i - 6)
  eax := 0#32
  eip := stack (i - 8)
  cs := stack (i - 9)
  eflags := stack (i - 10)
  esp := stack (i - 11)
  ss := stack (i - 12)

end Regs

namespace Kernel

def enter (r : Regs) (k : Kernel) : Kernel :=
  k.setThread k.currThread fun s => { s with kStack := r.saveRegs s.kStackBase (r.push s.kStack) }

def enterFault (r : Regs) (errorCode : Option Word) (k : Kernel) : Kernel :=
  k.setThread k.currThread fun s => { s with
    kStack :=
      match errorCode with
      | none => r.pusha 5 s.kStackBase (r.push s.kStack)
      | some e => r.pusha 6 s.kStackBase (setSlot 6 e (r.push s.kStack)) }

/-- The registers with which a thread comes to user mode when it is switched to
and its saved stack pointer is at a return to `iret_fun`. -/
def firstResume (thr : Word) (k : Kernel) : Option Regs :=
  let s := k.thread thr
  let i := (s.kStackBase - s.curEsp).toNat / 4
  if s.kStack i = k.iretFun then some (Regs.iretFun (i - 1) s.kStack) else none

end Kernel

/-! ## Software exceptions -/

structure Ureg where
  cause : Word
  cr2 : Word
  ds : Word
  es : Word
  fs : Word
  gs : Word
  edi : Word
  esi : Word
  ebp : Word
  zero : Word
  ebx : Word
  edx : Word
  ecx : Word
  eax : Word
  errorCode : Word
  eip : Word
  cs : Word
  eflags : Word
  esp : Word
  ss : Word
  deriving DecidableEq

def EFLAGS_IOPL : Word := 0x00003000

def UREG_SIZE : Word := 80

namespace Ureg

def words (u : Ureg) : List Word :=
  [u.cause, u.cr2, u.ds, u.es, u.fs, u.gs, u.edi, u.esi, u.ebp, u.zero, u.ebx, u.edx, u.ecx, u.eax, u.errorCode, u.eip,
  u.cs,
    u.eflags, u.esp, u.ss]

def read (ptr : Word) (s : Vm) : Option Ureg := do
  let eflags ← s.readWord (ptr + 68#32)
  let ds ← s.readWord (ptr + 8#32)
  let esp ← s.readWord (ptr + 72#32)
  let cs ← s.readWord (ptr + 64#32)
  let eip ← s.readWord (ptr + 60#32)
  let ecx ← s.readWord (ptr + 48#32)
  let eax ← s.readWord (ptr + 52#32)
  let edx ← s.readWord (ptr + 44#32)
  let ebx ← s.readWord (ptr + 40#32)
  let ebp ← s.readWord (ptr + 32#32)
  let edi ← s.readWord (ptr + 24#32)
  let esi ← s.readWord (ptr + 28#32)
  return ⟨0, 0, ds, 0, 0, 0, edi, esi, ebp, 0, ebx, edx, ecx, eax, 0, eip, cs, eflags, esp, 0⟩

def validateUregs (u : Ureg) : Int :=
  if u.eflags &&& EFLAGS_IOPL = EFLAGS_IOPL then ERR_INVAL
  else if u.eflags &&& EFLAGS_IF ≠ EFLAGS_IF then ERR_INVAL
  else 0

def setupKernelStack (u : Ureg) (stack : Nat → Word) : Int × (Nat → Word) :=
  let retval := u.validateUregs
  if retval < 0 then (retval, stack)
  else
    let stack := Kernel.setSlot 1 u.ds stack
    let stack := Kernel.setSlot 2 u.esp stack
    let stack := Kernel.setSlot 3 u.eflags stack
    let stack := Kernel.setSlot 4 u.cs stack
    let stack := Kernel.setSlot 5 u.eip stack
    let stack := Kernel.setSlot 6 u.ecx stack
    let stack := Kernel.setSlot 7 u.eax stack
    let stack := Kernel.setSlot 8 u.edx stack
    let stack := Kernel.setSlot 9 u.ebx stack
    let stack := Kernel.setSlot 11 u.ebp stack
    let stack := Kernel.setSlot 12 u.edi stack
    (0, Kernel.setSlot 13 u.esi stack)

def populate (cause cr2 : Word) (stack : Nat → Word) : Ureg where
  cause := cause
  cr2 := cr2
  ds := SEGSEL_USER_DS
  es := SEGSEL_USER_DS
  fs := SEGSEL_USER_DS
  gs := SEGSEL_USER_DS
  eax := stack 7
  ecx := stack 8
  edx := stack 9
  ebx := stack 10
  zero := 0#32
  ebp := stack 12
  esi := stack 13
  edi := stack 14
  errorCode := stack 6
  eip := stack 5
  cs := stack 4
  eflags := stack 3
  esp := stack 2
  ss := stack 1

end Ureg

namespace Vm

/-- The result is the stack pointer for the handler. -/
def setupSwexnStack (esp3 : Word) (ureg : Ureg) (arg : Word) (s : Vm) : Option (Word × Vm) := do
  let stackBottom := esp3 - UREG_SIZE
  let s ← s.writeBytes stackBottom (ureg.words.flatMap wordBytes)
  let s ← s.writeWord (stackBottom - 4#32) stackBottom
  let s ← s.writeWord (stackBottom - 8#32) arg
  let s ← s.writeWord (stackBottom - 12#32) ureg.eip
  return (stackBottom - 12#32, s)

def nullOrValid (ptr : Word) (s : Vm) : Option Bool :=
  if ptr = 0#32 then some true else (s.isPointerValid ptr 4#32).map fun r => !(r < 0)

def nullOrWritable (ptr : Word) (s : Vm) : Option Bool :=
  if ptr = 0#32 then some true
  else (s.isPointerValid ptr 4#32).map fun r => !(r < 0 || s.isMemoryWritable ptr < 0)

end Vm

namespace Kernel

def updateFaultStack (esp eip : Word) (stack : Nat → Word) : Nat → Word := setSlot 5 eip (setSlot 2 esp stack)

def invokeSwexnHandler (cause cr2 : Word) (k : Kernel) : Option (Int × Kernel) :=
  let task := k.task k.currTask
  if task.eip = 0#32 then some (ERR_FAILURE, k)
  else do
    let ureg := Ureg.populate cause cr2 (k.thread k.currThread).kStack
    let (esp, vm) ← k.vm.setupSwexnStack task.swexnEsp ureg task.swexnArgs
    let k := { k with vm := vm }
    let k := k.setThread k.currThread fun s => { s with kStack := updateFaultStack esp task.eip s.kStack }
    return (0, k.setTask k.currTask fun s => { s with eip := 0#32 })

def installHandler (esp3 eip arg newureg : Word) (k : Kernel) : Option (Int × Kernel) :=
  if esp3 = 0#32 ∨ eip = 0#32 then some (0, k.setTask k.currTask fun s => { s with eip := 0#32 })
  else
    let k := k.setTask k.currTask fun s => { s with eip := eip, swexnArgs := arg, swexnEsp := esp3 }
    if newureg = 0#32 then some (0, k)
    else
      match Ureg.read newureg k.vm with
      | none => none
      | some u =>
        match u.setupKernelStack (k.thread k.currThread).kStack with
        | (retval, stack) =>
          if retval < 0 then some (ERR_FAILURE, k)
          else some (u.eax.toInt, k.setThread k.currThread fun s => { s with kStack := stack })

def swexnHandlerC (argPacket : Word) (k : Kernel) : Option (Int × Kernel) := do
  let esp3 ← k.vm.readWord argPacket
  if !(← k.vm.nullOrWritable esp3) then return (ERR_INVAL, k)
  let eip ← k.vm.readWord (argPacket + 4#32)
  if !(← k.vm.nullOrValid eip) then return (ERR_INVAL, k)
  let arg ← k.vm.readWord (argPacket + 8#32)
  let newureg ← k.vm.readWord (argPacket + 12#32)
  if !(← k.vm.nullOrValid newureg) then return (ERR_INVAL, k)
  k.installHandler esp3 eip arg newureg

end Kernel

end Pebbles
