import Pebbles.Kernel

/-! # fork and thread_fork -/

namespace Pebbles

open Words

namespace Kernel

def threadFreeResources (thr : Word) (k : Kernel) : Kernel := { k with threads := k.threads.erase thr }

def cloneKStack (child src : Word) (k : Kernel) : Kernel :=
  k.setThread child fun s => { s with
    kStack := setSlot IRET_FUN_OFFSET k.iretFun (k.thread src).kStack
    curEsp := s.kStackBase - DEFAULT_STACK_OFFSET }

def cloneTask (currTask childTask : Word) (k : Kernel) : Option (Int × Kernel) :=
  match k.vm.clonePagingInfo (k.task currTask).pdbr with
  | (none, vm) =>
    let k := { k with vm := vm }
    let k := k.threadFreeResources (k.task childTask).thr
    let k := { k with tasks := k.tasks.erase childTask }
    (k.mutexUnlock (.forkMutex currTask)).map fun k => (ERR_FAILURE, k)
  | (some newPdAddr, vm) =>
    let k := { k with vm := vm }
    let curr := k.task currTask
    let k := k.setTask childTask fun s => { s with
      pdbr := newPdAddr, eip := curr.eip, swexnArgs := curr.swexnArgs, swexnEsp := curr.swexnEsp }
    -- the stack of the first thread of the task, whichever thread calls
    let k := k.cloneKStack (k.task childTask).thr curr.thr
    let k := k.runqAddThread (k.task childTask).thr
    let k := { k with vm := k.vm.setCurPd (k.task currTask).pdbr }
    (k.mutexUnlock (.forkMutex currTask)).map fun k => ((k.task childTask).id.toInt, k)

def doFork (taskMem thrMem : Option Word) (k : Kernel) : Option (Int × Kernel) := do
  let currTask := k.currTask
  let k ← k.mutexLock (.forkMutex currTask)
  let (childTask, k) ← k.createTask currTask taskMem thrMem
  match childTask with
  | none =>
    let k ← k.mutexUnlock (.forkMutex currTask)
    return (ERR_NOMEM, k)
  | some childTask =>
    let k ← k.mutexLock (.vanishMutex currTask)
    let k := k.withLinks (addToTail (.childTaskLink childTask) (.childTaskHead currTask))
    let k ← k.mutexUnlock (.vanishMutex currTask)
    k.cloneTask currTask childTask

def doThreadFork (thrMem : Option Word) (k : Kernel) : Option (Int × Kernel) := do
  let currThread := k.currThread
  let (childThread, k) ← k.createThread k.currTask thrMem
  match childThread with
  | none => return (ERR_FAILURE, k)
  | some childThread =>
    let k := k.cloneKStack childThread currThread
    let k := k.runqAddThread childThread
    return ((k.thread childThread).id.toInt, k)

end Kernel

end Pebbles
