import Pebbles.Kernel
import Pebbles.Loader

/-!
# exec

`do_exec` and the loading of a task. What the heap gives for the buffers of one
call is an input; the pages for directories and tables are those of `avail`.
-/

namespace Pebbles

open Words

def EXECNAME_MAX : Nat := 255
def NUM_ARGS_MAX : Nat := 16
def ARGNAME_MAX : Nat := 255

def SEGSEL_USER_CS : Word := 0x23
def SEGSEL_USER_DS : Word := 0x2b

def EFLAGS_RESERVED : Word := 0x00000002
def EFLAGS_IF : Word := 0x00000200
def EFLAGS_ALIGNMENT_CHECK : Word := 0xFFFbFFFF

structure ExecHeap where
  argvecKern : Bool
  arg : Nat → Bool
  argEnd : Bool
  segments : Vm.SegmentBuffers
  argvecCopy : Bool

namespace Vm

/-! ## The arguments -/

/-- The loop of `get_num_args` after `count` arguments, with `n` rounds left
before there are too many. -/
def countArgs (s : Vm) (argvec : Word) : Nat → Nat → Option Int
  | n, count =>
    match s.readWord (argvec + BitVec.ofNat 32 (4 * count)) with
    | none => none
    | some arg =>
      match isPointerValid arg 4#32 s with
      | none => none
      | some r =>
        if r = 0 ∧ arg ≠ 0#32 then
          match n with
          | 0 => some ERR_BIG
          | n + 1 => countArgs s argvec n (count + 1)
        else some count

def getNumArgs (argvec : Word) (s : Vm) : Option Int :=
  match isPointerValid argvec 4#32 s with
  | none => none
  | some r => if r < 0 then some ERR_INVAL else countArgs s argvec NUM_ARGS_MAX 0

/-- The loop of `copy_args` from argument `i` on, with `n` left. The inner
`none` is the result `NULL`. -/
def copyArgStrings (heap : ExecHeap) (argvec : Word) (s : Vm) : Nat → Nat → Option (Option (List (List Byte)))
  | 0, _ => some (some [])
  | n + 1, i =>
    if heap.arg i then
      match s.readWord (argvec + BitVec.ofNat 32 (4 * i)) with
      | none => none
      | some ptr =>
        match s.copyUserData ptr ARGNAME_MAX with
        | none => none
        | some (r, arg) =>
          if r < 0 then some none
          else
            match copyArgStrings heap argvec s n (i + 1) with
            | some (some args) => some (some (arg :: args))
            | r => r
    else some none

/-- The strings that `copy_args` puts into kernel memory, without the empty one
it adds at the end. -/
def copyArgs (heap : ExecHeap) (numArgs : Nat) (argvec : Word) (s : Vm) : Option (Option (List (List Byte))) :=
  if heap.argvecKern then
    match copyArgStrings heap argvec s numArgs 0 with
    | some (some args) => if heap.argEnd then some (some args) else some none
    | r => r
  else some none

def execArgs (toc : Toc) (heap : ExecHeap) (argPacket : Word) (s : Vm) :
    Option (Except Int (List Byte × List (List Byte))) := do
  let execname ← s.readWord argPacket
  let argvec ← s.readWord (argPacket + 4#32)
  let (retval, execnameKern) ← s.copyUserData execname EXECNAME_MAX
  if retval < 0 then return .error ERR_INVAL
  if checkProgram toc execnameKern = PROG_ABSENT_INVALID then return .error ERR_FAILURE
  let numArgs ← s.getNumArgs argvec
  if numArgs < 0 then return .error ERR_FAILURE
  match ← s.copyArgs heap numArgs.toNat argvec with
  | none => return .error ERR_FAILURE
  | some argvecKern => return .ok (execnameKern, argvecKern)

def pushStrings : List (List Byte) → Word → List Word → Vm → Option (Word × List Word × Vm)
  | [], top, ptrs, s => some (top, ptrs, s)
  | arg :: args, top, ptrs, s =>
    let top := top - BitVec.ofNat 32 (arg.length + 1)
    match s.writeBytes top (arg ++ [0#8]) with
    | none => none
    | some s => pushStrings args top (ptrs ++ [top]) s

/-- `copy_user_args`. The inner `none` is the result `NULL`. The count and the
last word are stored through a `char *`, so one byte of each is written. -/
def copyUserArgs (heap : ExecHeap) (argvec : List (List Byte)) (s : Vm) : Option (Option Word × Vm) :=
  if heap.argvecCopy then do
    let (top, ptrs, s) ← pushStrings argvec STACK_START [] s
    let top := top - 1#32
    let s ← s.writeByte top 0#8
    let ptrs := ptrs ++ [top]
    let top := top - BitVec.ofNat 32 (4 * (argvec.length + 1))
    let s ← s.writeBytes top (ptrs.flatMap wordBytes)
    let argvecUsr := top
    let s ← s.writeWord (top - 4#32) STACK_END
    let s ← s.writeWord (top - 8#32) STACK_START
    let s ← s.writeWord (top - 12#32) argvecUsr
    let s ← s.writeByte (top - 16#32) (BitVec.ofNat 8 argvec.length)
    let s ← s.writeByte (top - 20#32) 0#8
    return (some (top - 20#32), s)
  else some (none, s)

end Vm

namespace Kernel

/-! ## Loading -/

def setupUserEflags (eflags : Word) : Word := (eflags ||| EFLAGS_RESERVED ||| EFLAGS_IF) &&& EFLAGS_ALIGNMENT_CHECK

def setTaskStack (eflags iretFun entryAddr userStackTop : Word) (stack : Nat → Word) : Nat → Word :=
  let stack := setSlot DS_OFFSET SEGSEL_USER_DS stack
  let stack := setSlot STACK_OFFSET userStackTop stack
  let stack := setSlot EFLAGS_OFFSET (setupUserEflags eflags) stack
  let stack := setSlot CS_OFFSET SEGSEL_USER_CS stack
  let stack := setSlot EIP_OFFSET entryAddr stack
  let stack := fun i => if PUSHA_OFFSET < i + PUSHA_SIZE / 4 ∧ i ≤ PUSHA_OFFSET then 0#32 else stack i
  setSlot IRET_FUN_OFFSET iretFun stack

def loadTask (toc : Toc) (heap : ExecHeap) (eflags : Word) (progName : List Byte) (argvec : List (List Byte)) (t : Word)
    (k : Kernel) : Option (Int × Kernel) :=
  match k.vm.createPageDirectory with
  | (none, vm) => some (ERR_NOMEM, { k with vm := vm })
  | (some pdAddr, vm) =>
    let k := { k with vm := vm.setCurPd pdAddr }
    let k := k.setTask t fun s => { s with pdbr := pdAddr }
    let seHdr := (elfLoadHelper toc progName).2
    match k.vm.setupPageTable seHdr pdAddr with
    | none => none
    | some (retval, vm) =>
      let k := { k with vm := vm }
      if retval < 0 then some (retval, k)
      else
        match k.vm.loadProgram toc heap.segments seHdr with
        | none => none
        | some (retval, vm) =>
          let k := { k with vm := vm }
          if retval < 0 then some (retval, k)
          else
            match k.vm.copyUserArgs heap argvec with
            | none => none
            | some (none, vm) => some (ERR_FAILURE, { k with vm := vm })
            | some (some userStackTop, vm) =>
              let k := { k with vm := vm }
              some (0, k.setThread (k.task t).thr fun s => { s with
                kStack := setTaskStack eflags k.iretFun seHdr.eEntry userStackTop s.kStack
                curEsp := s.kStackBase - DEFAULT_STACK_OFFSET })

/-- `free_args` only gives memory back to the heap. -/
def doExec (toc : Toc) (heap : ExecHeap) (eflags argPacket : Word) (k : Kernel) : Option (Int × Kernel) := do
  let t := k.currTask
  let k ← k.mutexLock (.execMutex t)
  match ← k.vm.execArgs toc heap argPacket with
  | .error e =>
    let k ← k.mutexUnlock (.execMutex t)
    return (e, k)
  | .ok (execnameKern, argvecKern) =>
    let oldPd := k.vm.cr3
    let (retval, k) ← k.loadTask toc heap eflags execnameKern argvecKern t
    if retval < 0 then
      let k ← { k with vm := k.vm.setCurPd oldPd }.mutexUnlock (.execMutex t)
      return (retval, k)
    let k ← { k with vm := k.vm.freePagingInfo oldPd }.mutexUnlock (.execMutex t)
    return (0, k)

end Kernel

end Pebbles
