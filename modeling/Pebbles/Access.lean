import Pebbles.Vm

/-!
# The kernel's accesses to user memory

Kernel code follows user pointers through the current directory. It may read and
write every present page, since the write-protect bit of `%cr0` is not set. An
access to an absent page faults in the kernel and the call does not go on.
-/

namespace Pebbles

open Words

namespace Vm

def present (s : Vm) (va : Word) : Bool := bit (s.kmem s.cr3 (getPdIndex va)) 0 && bit (s.pte s.cr3 va) 0

def readByte (s : Vm) (va : Word) : Option Byte :=
  if s.present va then some (s.readPage va (pageOffset va)) else none

def writeByte (va : Word) (b : Byte) (s : Vm) : Option Vm := if s.present va then some (s.putByte va b) else none

def readWord (s : Vm) (va : Word) : Option Word := do
  let b₀ ← s.readByte va
  let b₁ ← s.readByte (va + 1#32)
  let b₂ ← s.readByte (va + 2#32)
  let b₃ ← s.readByte (va + 3#32)
  return b₃ ++ b₂ ++ b₁ ++ b₀

def writeBytes : Word → List Byte → Vm → Option Vm
  | _, [], s => some s
  | va, b :: bs, s =>
    match s.writeByte va b with
    | none => none
    | some s => writeBytes (va + 1#32) bs s

def wordBytes (w : Word) : List Byte :=
  [w.extractLsb' 0 8, w.extractLsb' 8 8, w.extractLsb' 16 8, w.extractLsb' 24 8]

def writeWord (va w : Word) (s : Vm) : Option Vm := s.writeBytes va (wordBytes w)

/-! ## syscall_util.c -/

def isPointerValid (ptr bytes : Word) (s : Vm) : Option Int :=
  if ptr.toNat < USER_MEM_START then some ERR_INVAL
  else
    match isMemoryRangeMapped ptr bytes s with
    | none => none
    | some r => if r = MEMORY_REGION_UNMAPPED then some ERR_INVAL else some 0

/-- The loop of `copy_user_data`, with `n` bytes of room left. The second
component is the string in the buffer. -/
def copyString (s : Vm) : Nat → Word → List Byte → Option (Int × List Byte)
  | 0, _, buf => some (ERR_BIG, buf)
  | n + 1, ptr, buf =>
    match isPointerValid ptr 1#32 s with
    | none => none
    | some r =>
      if r < 0 then some (ERR_INVAL, buf)
      else
        match s.readByte ptr with
        | none => none
        | some b => if b = 0#8 then some (buf.length + 1, buf) else copyString s n (ptr + 1#32) (buf ++ [b])

def copyUserData (ptr : Word) (maxSize : Nat) (s : Vm) : Option (Int × List Byte) :=
  if ptr = 0#32 ∨ maxSize = 0 then some (ERR_INVAL, []) else copyString s maxSize ptr []

end Vm

end Pebbles
