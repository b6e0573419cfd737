import Pebbles.Access
import Pebbles.Fork

/-!
# wait, vanish and set_status

`do_wait` and `do_vanish` are cut where interrupts are off or a mutex is held,
so that the parts can be put together as one step or run between the steps of
other threads.
-/

namespace Pebbles

open Words Ring

namespace Kernel

/-! ## The condition variable `exit_cond_var` of a task -/

def wake (thr : Word) (k : Kernel) : Kernel :=
  let k := k.setThread thr fun s => { s with status := .runnable }
  let k := k.runqAddThread thr
  k.withLinks (delEntry (.condWaitLink thr))

def wakeLink (waitingThread : Node) (k : Kernel) : Option Kernel :=
  match waitingThread with
  | .condWaitLink thr => some (k.wake thr)
  | _ => none

def condSignal (t : Word) (k : Kernel) : Option Kernel :=
  match getFirst (.exitCondVar t) k.links with
  | none => some k
  | some waitingThread => wakeLink waitingThread k

def condBroadcast (t : Word) (k : Kernel) : Option Kernel :=
  match getFirst (.exitCondVar t) k.links with
  | none => some k
  | some waitingThread => forEach Kernel.links (.exitCondVar t) wakeLink ADDRESSES waitingThread k

def condWait (t thr : Word) (k : Kernel) : Kernel :=
  k.withLinks (addToTail (.condWaitLink thr) (.exitCondVar t))

def sleep (t thr : Word) (k : Kernel) : Option Kernel :=
  (k.setThread thr fun s => { s with status := .waiting }).mutexUnlock (.childListMutex t)

/-! ## do_vanish -/

def entryTask : Node → Option Word
  | .childTaskLink t => some t
  | .deadChildLink t => some t
  | _ => none

def reparentToInit (taskList : Node) (k : Kernel) : Option Kernel :=
  match getFirst taskList k.links with
  | none => some k
  | some taskNode =>
    forEach Kernel.links taskList
      (fun node k => (entryTask node).map fun t => k.setTask t fun s =>
      { s with parent := k.initTask }) ADDRESSES taskNode k

def removeThreadFromTask (thr : Word) (k : Kernel) : Option Kernel :=
  (k.removeThreadFromMap (k.thread thr).id).map fun k => k.withLinks (delEntry (.taskThreadLink thr))

def giveChildren (t : Word) (k : Kernel) : Option Kernel := do
  let k ← k.mutexLock (.vanishMutex t)
  let k ← k.reparentToInit (.childTaskHead t)
  let k ← k.reparentToInit (.deadChildHead t)
  let k ← k.mutexLock (.childListMutex k.initTask)
  let k := k.withLinks (concatLists (.childTaskHead k.initTask) (.childTaskHead t))
  let k := k.withLinks (concatLists (.deadChildHead k.initTask) (.deadChildHead t))
  let k ← k.mutexUnlock (.childListMutex k.initTask)
  k.mutexUnlock (.vanishMutex t)

def leaveSpace (t : Word) (k : Kernel) : Kernel :=
  let currPdbr := (k.task t).pdbr
  let k := k.setTask t fun s => { s with pdbr := k.kernelPd }
  { k with vm := (k.vm.setCurPd k.kernelPd).freePagingInfo currPdbr }

def reportExit (t : Word) (k : Kernel) : Option Kernel :=
  let parentTask := (k.task t).parent
  let k := k.withLinks (delEntry (.childTaskLink t))
  let k := k.withLinks (addToTail (.deadChildLink t) (.deadChildHead parentTask))
  match getFirst (.childTaskHead parentTask) k.links with
  | none => k.condBroadcast parentTask
  | some _ => k.condSignal parentTask

def freeThread (thr : Word) (k : Kernel) : Kernel := { k.threadFreeResources thr with currThread := 0#32 }

def doVanish (k : Kernel) : Option Kernel := do
  let currTask := k.currTask
  let currThread := k.currThread
  let k ← k.mutexLock (.threadListMutex currTask)
  let k ← k.removeThreadFromTask currThread
  let threadHead := getFirst (.threadHead currTask) k.links
  let k ← k.mutexUnlock (.threadListMutex currTask)
  match threadHead with
  | some _ => return k.freeThread currThread
  | none =>
    let k ← k.giveChildren currTask
    let k := k.leaveSpace currTask
    let k ← k.reportExit currTask
    return k.freeThread currThread

def setStatus (status : Word) (k : Kernel) : Kernel := k.setTask k.currTask fun s => { s with exitStatus := status }

/-! ## do_wait -/

inductive WaitEnd where
  | returned (r : Int)
  | reaped (deadTask deadTaskId exitStatus : Word)
  | blocked
  deriving DecidableEq

def mustBlock (deadHead aliveHead : Option Node) : Bool := deadHead.isNone && aliveHead.isSome

def freeTask (t : Word) (k : Kernel) : Option Kernel := do
  let k ← k.mutexDestroy (.childListMutex t)
  let k ← k.mutexDestroy (.threadListMutex t)
  let k ← k.mutexDestroy (.vanishMutex t)
  let k ← k.mutexDestroy (.forkMutex t)
  let k ← k.mutexDestroy (.execMutex t)
  return { k with tasks := k.tasks.erase t }

def storeStatus (statusPtr exitStatus : Word) (vm : Vm) : Option Vm :=
  if statusPtr = 0#32 then some vm else vm.writeWord statusPtr exitStatus

def finishWait (t statusPtr : Word) (deadHead : Option Node) (k : Kernel) : Option (WaitEnd × Kernel) :=
  match deadHead with
  | none => (k.mutexUnlock (.childListMutex t)).map fun k => (.returned ERR_FAILURE, k)
  | some deadHead => do
    let k := k.withLinks (delEntry deadHead)
    let k ← k.mutexUnlock (.childListMutex t)
    let deadTask ← entryTask deadHead
    let dead := k.task deadTask
    let vm ← storeStatus statusPtr dead.exitStatus k.vm
    let k ← { k with vm := vm }.freeTask deadTask
    return (.reaped deadTask dead.id dead.exitStatus, k)

def waitRound (statusPtr : Word) (k : Kernel) : Option (WaitEnd × Kernel) :=
  let t := k.currTask
  let deadHead := getFirst (.deadChildHead t) k.links
  let aliveHead := getFirst (.childTaskHead t) k.links
  if mustBlock deadHead aliveHead then
    ((k.condWait t k.currThread).sleep t k.currThread).map fun k => (.blocked, k)
  else k.finishWait t statusPtr deadHead

def statusPtrValid (statusPtr : Word) (vm : Vm) : Option Bool :=
  if statusPtr = 0#32 then some true
  else (vm.isPointerValid statusPtr 4#32).map fun r => !(r < 0 || vm.isMemoryWritable statusPtr < 0)

def doWait (argPacket : Word) (k : Kernel) : Option (WaitEnd × Kernel) :=
  match statusPtrValid argPacket k.vm with
  | none => none
  | some false => some (.returned ERR_INVAL, k)
  | some true => (k.mutexLock (.childListMutex k.currTask)).bind (waitRound argPacket)

def resumeWait (statusPtr : Word) (k : Kernel) : Option (WaitEnd × Kernel) :=
  (k.mutexLock (.childListMutex k.currTask)).bind (waitRound statusPtr)

end Kernel

end Pebbles
