import Pebbles.Trap
import Pebbles.WaitVanish
import Pebbles.Loader
import Pebbles.Keyboard
import Pebbles.Lib.Traced

/-!
# What the system calls read and write in user memory

The calls that follow pointers of the user, with the addresses that they touch:
`print`, `readfile`, `readline` and `get_cursor_pos`, the status of `wait`, and
the frame for a software exception handler.
-/

namespace Pebbles

open Words Traced

def MAX_FILE_NAME : Nat := 128

def span (va : Word) : Nat → List Word
  | 0 => []
  | n + 1 => va :: span (va + 1#32) n

namespace Vm

def loadByte (va : Word) (s : Vm) : Run Word Byte := .read va (s.readByte va)

def loadWord (va : Word) (s : Vm) : Run Word Word := do
  let b₀ ← s.loadByte va
  let b₁ ← s.loadByte (va + 1#32)
  let b₂ ← s.loadByte (va + 2#32)
  let b₃ ← s.loadByte (va + 3#32)
  return b₃ ++ b₂ ++ b₁ ++ b₀

def loadBytes (s : Vm) : Nat → Word → Run Word (List Byte)
  | 0, _ => return []
  | n + 1, va => do
    let b ← s.loadByte va
    let bs ← loadBytes s n (va + 1#32)
    return b :: bs

def storeByte (va : Word) (b : Byte) (s : Vm) : Run Word Vm := .write va (s.writeByte va b)

def storeBytes : Word → List Byte → Vm → Run Word Vm
  | _, [], s => return s
  | va, b :: bs, s => s.storeByte va b >>= storeBytes (va + 1#32) bs

def storeWord (va w : Word) (s : Vm) : Run Word Vm := s.storeBytes va (wordBytes w)

/-! ## The console -/

def putbytes (buf len : Word) (s : Vm) : Run Word (List Byte) :=
  if buf = 0#32 ∨ len.toInt ≤ 0 then return [] else s.loadBytes len.toNat buf

def printHandlerC (argPacket : Word) (s : Vm) : Run Word (Int × List Byte) := do
  let len ← s.loadWord argPacket
  let buf ← s.loadWord (argPacket + 4#32)
  let r ← .lift (s.isPointerValid buf len)
  if r < 0 then return (ERR_INVAL, [])
  else do
    let text ← s.putbytes buf len
    return (0, text)

def isRangeWritable (ptr len : Word) (s : Vm) : Option Bool :=
  (s.isPointerValid ptr len).map fun r => !(r < 0 || s.isMemoryWritable ptr < 0)

inductive ReadEnd where
  | returned (r : Int)
  | blocked
  deriving DecidableEq

def readlineRound (buf len : Word) (kb : KeyBuf) (s : Vm) : Run Word (ReadEnd × KeyBuf × Vm) := do
  let line ← .lift (kb.getNextline buf len.toInt)
  if line.1.1 = ERR_NOTAVAIL then return (.blocked, line.2, s)
  else do
    let s ← s.storeBytes buf line.1.2
    return (.returned line.1.1, line.2, s)

/-- `readline_handler_c`, up to its return or until the thread waits for a line. -/
def readlineHandlerC (argPacket : Word) (kb : KeyBuf) (s : Vm) : Run Word (ReadEnd × KeyBuf × Vm) := do
  let len ← s.loadWord argPacket
  if len.toInt ≤ 0 then return (.returned ERR_INVAL, kb, s)
  else do
    let buf ← s.loadWord (argPacket + 4#32)
    let ok ← .lift (s.isRangeWritable buf len)
    if ok then s.readlineRound buf len kb else return (.returned ERR_INVAL, kb, s)

/-- The position of the cursor is `(cursorRow, cursorCol)`. -/
def getCursorPosHandlerC (argPacket cursorRow cursorCol : Word) (s : Vm) : Run Word (Int × Vm) := do
  let row ← s.loadWord argPacket
  let ok ← .lift (s.isRangeWritable row 4#32)
  if !ok then return (ERR_INVAL, s)
  else do
    let col ← s.loadWord (argPacket + 4#32)
    let ok ← .lift (s.isRangeWritable col 4#32)
    if !ok then return (ERR_INVAL, s)
    else do
      let s ← s.storeWord row cursorRow
      let s ← s.storeWord col cursorCol
      return (0, s)

/-! ## Files -/

/-- The loop over the name, with `n` bytes to go. The value is the name, or
`none` where a pointer is not valid. -/
def scanName (s : Vm) : Nat → Word → List Byte → Run Word (Option (List Byte))
  | 0, _, name => return some name
  | n + 1, ptr, name => do
    let r ← .lift (s.isPointerValid ptr 1#32)
    if r < 0 then return none
    else do
      let c ← s.loadByte ptr
      if c = 0#8 then return some name else scanName s n (ptr + 1#32) (name ++ [c])

def readfileBytes (toc : Toc) (name : List Byte) (argPacket : Word) (s : Vm) : Run Word (Int × Vm) := do
  let buf ← s.loadWord (argPacket + 4#32)
  let size ← s.loadWord (argPacket + 8#32)
  let offset ← s.loadWord (argPacket + 12#32)
  if buf = 0#32 then return (ERR_FAILURE, s)
  else do
    let s ← s.storeBytes buf (getbytes toc (some name) offset size).2
    return ((getbytes toc (some name) offset size).1, s)

def readfileHandlerC (toc : Toc) (argPacket : Word) (s : Vm) : Run Word (Int × Vm) := do
  let filename ← s.loadWord argPacket
  let name ← s.scanName MAX_FILE_NAME filename []
  match name with
  | none => return (ERR_INVAL, s)
  | some name =>
    if name.length = 0 ∨ name.length = MAX_FILE_NAME then return (ERR_FAILURE, s)
    else s.readfileBytes toc name argPacket

/-! ## Exception frames -/

def storeSwexnFrame (esp3 : Word) (ureg : Ureg) (arg : Word) (s : Vm) : Run Word (Word × Vm) := do
  let stackBottom := esp3 - UREG_SIZE
  let s ← s.storeBytes stackBottom (ureg.words.flatMap wordBytes)
  let s ← s.storeWord (stackBottom - 4#32) stackBottom
  let s ← s.storeWord (stackBottom - 8#32) arg
  let s ← s.storeWord (stackBottom - 12#32) ureg.eip
  return (stackBottom - 12#32, s)

def storeExitStatus (statusPtr exitStatus : Word) (s : Vm) : Run Word Vm :=
  if statusPtr = 0#32 then return s else s.storeWord statusPtr exitStatus

/-! ## The addresses do not change the results -/

@[simp]
theorem value_loadByte (va : Word) (s : Vm) : (s.loadByte va).value = s.readByte va := rfl

@[simp]
theorem value_loadWord (va : Word) (s : Vm) : (s.loadWord va).value = s.readWord va := by
  simp only [loadWord, readWord, Run.value_bind, value_loadByte, Run.value_pure]
  rfl

@[simp]
theorem value_storeByte (va : Word) (b : Byte) (s : Vm) : (s.storeByte va b).value = s.writeByte va b := rfl

@[simp]
theorem value_storeBytes (va : Word) (bs : List Byte) (s : Vm) : (s.storeBytes va bs).value = s.writeBytes va bs := by
  induction bs generalizing va s with
  | nil => rfl
  | cons b bs ih =>
    simp only [storeBytes, Run.value_bind, value_storeByte, ih, writeBytes]
    cases s.writeByte va b <;> rfl

@[simp]
theorem value_storeWord (va w : Word) (s : Vm) : (s.storeWord va w).value = s.writeWord va w := value_storeBytes ..

theorem value_storeExitStatus (p w : Word) (s : Vm) : (s.storeExitStatus p w).value = Kernel.storeStatus p w s := by
  unfold storeExitStatus Kernel.storeStatus
  split <;> simp

theorem value_storeSwexnFrame (esp3 : Word) (u : Ureg) (arg : Word) (s : Vm) :
    (s.storeSwexnFrame esp3 u arg).value = s.setupSwexnStack esp3 u arg := by
  simp only [storeSwexnFrame, setupSwexnStack, Run.value_bind, value_storeBytes, value_storeWord, Run.value_pure]
  rfl

end Vm

namespace Kernel

def tracedFinishWait (t statusPtr : Word) (deadHead : Option Node) (k : Kernel) : Run Word (WaitEnd × Kernel) :=
  match deadHead with
  | none => .lift ((k.mutexUnlock (.childListMutex t)).map fun k => (.returned ERR_FAILURE, k))
  | some deadHead => do
    let k := k.withLinks (delEntry deadHead)
    let k ← .lift (k.mutexUnlock (.childListMutex t))
    let deadTask ← .lift (entryTask deadHead)
    let dead := k.task deadTask
    let vm ← k.vm.storeExitStatus statusPtr dead.exitStatus
    let k ← .lift ({ k with vm := vm }.freeTask deadTask)
    return (.reaped deadTask dead.id dead.exitStatus, k)

def tracedWaitRound (statusPtr : Word) (k : Kernel) : Run Word (WaitEnd × Kernel) :=
  let t := k.currTask
  let deadHead := getFirst (.deadChildHead t) k.links
  let aliveHead := getFirst (.childTaskHead t) k.links
  if mustBlock deadHead aliveHead then
    .lift (((k.condWait t k.currThread).sleep t k.currThread).map fun k => (.blocked, k))
  else k.tracedFinishWait t statusPtr deadHead

def tracedResumeWait (statusPtr : Word) (k : Kernel) : Run Word (WaitEnd × Kernel) :=
  .lift (k.mutexLock (.childListMutex k.currTask)) >>= tracedWaitRound statusPtr

def tracedDoWait (statusPtr : Word) (k : Kernel) : Run Word (WaitEnd × Kernel) := do
  let ok ← .lift (statusPtrValid statusPtr k.vm)
  if ok then k.tracedResumeWait statusPtr else return (.returned ERR_INVAL, k)

def tracedInvokeSwexnHandler (cause cr2 : Word) (k : Kernel) : Run Word (Int × Kernel) :=
  let task := k.task k.currTask
  if task.eip = 0#32 then return (ERR_FAILURE, k)
  else do
    let ureg := Ureg.populate cause cr2 (k.thread k.currThread).kStack
    let frame ← k.vm.storeSwexnFrame task.swexnEsp ureg task.swexnArgs
    let k := { k with vm := frame.2 }
    let k := k.setThread k.currThread fun s => { s with kStack := updateFaultStack frame.1 task.eip s.kStack }
    return (0, k.setTask k.currTask fun s => { s with eip := 0#32 })

theorem value_tracedFinishWait (t p : Word) (d : Option Node) (k : Kernel) :
    (k.tracedFinishWait t p d).value = k.finishWait t p d := by
  unfold tracedFinishWait finishWait
  cases d with
  | none => rfl
  | some d =>
    simp only [Run.value_bind, Run.value_lift, Vm.value_storeExitStatus, Run.value_pure]
    rfl

theorem value_tracedResumeWait (p : Word) (k : Kernel) : (k.tracedResumeWait p).value = k.resumeWait p := by
  unfold tracedResumeWait resumeWait
  rw [Run.value_bind, Run.value_lift]
  congr 1
  funext k
  unfold tracedWaitRound waitRound
  dsimp only
  split
  · rfl
  · exact value_tracedFinishWait ..

theorem value_tracedDoWait (p : Word) (k : Kernel) : (k.tracedDoWait p).value = k.doWait p := by
  unfold tracedDoWait doWait
  rw [Run.value_bind, Run.value_lift]
  cases statusPtrValid p k.vm with
  | none => rfl
  | some ok =>
    cases ok with
    | false => rfl
    | true => exact value_tracedResumeWait p k

theorem value_tracedInvokeSwexnHandler (cause cr2 : Word) (k : Kernel) :
    (k.tracedInvokeSwexnHandler cause cr2).value = k.invokeSwexnHandler cause cr2 := by
  unfold tracedInvokeSwexnHandler invokeSwexnHandler
  dsimp only
  split
  · rfl
  · rw [Run.value_bind, Vm.value_storeSwexnFrame]
    rfl

end Kernel

end Pebbles
