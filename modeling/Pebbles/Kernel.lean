import Pebbles.Lists
import Pebbles.Vm

/-!
# Tasks and threads

The structures of `task.h` and `thread.h` and the functions that create them.
Structures are at addresses; the links of the intrusive lists in them are nodes
named by the field and the structure. A system call runs to its end or, where
it would wait or an assertion fails, has no result.
-/

namespace Pebbles

open Words Ring

def KERNEL_STACK_SIZE : Nat := PAGE_SIZE * 3
def HASHMAP_SIZE : Int := PAGE_SIZE * 2

def DS_OFFSET : Nat := 1
def STACK_OFFSET : Nat := 2
def EFLAGS_OFFSET : Nat := 3
def CS_OFFSET : Nat := 4
def EIP_OFFSET : Nat := 5
def PUSHA_OFFSET : Nat := 13
def PUSHA_SIZE : Nat := 32
def IRET_FUN_OFFSET : Nat := 14
def DEFAULT_STACK_OFFSET : Word := 56

inductive Node where
  | childTaskHead (t : Word)
  | childTaskLink (t : Word)
  | deadChildHead (t : Word)
  | deadChildLink (t : Word)
  | threadHead (t : Word)
  | taskThreadLink (thr : Word)
  | threadMap (index : Int)
  | threadMapLink (thr : Word)
  | exitCondVar (t : Word)
  | condWaitLink (thr : Word)
  deriving DecidableEq

inductive Lock where
  | childListMutex (t : Word)
  | threadListMutex (t : Word)
  | vanishMutex (t : Word)
  | forkMutex (t : Word)
  | execMutex (t : Word)
  deriving DecidableEq

def Lock.task : Lock → Word
  | childListMutex t => t
  | threadListMutex t => t
  | vanishMutex t => t
  | forkMutex t => t
  | execMutex t => t

inductive Mutex where
  | valid
  | locked
  | invalid
  deriving DecidableEq

inductive Status where
  | running
  | runnable
  | waiting
  | exited
  | descheduled
  deriving DecidableEq

structure Task where
  id : Word
  pdbr : Word
  thr : Word
  exitStatus : Word
  parent : Word
  eip : Word
  swexnArgs : Word
  swexnEsp : Word
  deriving DecidableEq

def Task.handler (s : Task) : Word × Word × Word := (s.eip, s.swexnArgs, s.swexnEsp)

/-- `kStack i` is the word `i` words below `kStackBase`. -/
structure Thread where
  id : Word
  parentTask : Word
  kStack : Nat → Word
  kStackBase : Word
  curEsp : Word
  curEbp : Word
  status : Status

/-- `tasks` and `threads` are the structures that are allocated. A structure
that was freed keeps its contents until it is written again. -/
structure Kernel where
  vm : Vm
  task : Word → Task
  tasks : Finset Word
  thread : Word → Thread
  threads : Finset Word
  links : Links Node
  locks : Lock → Mutex
  runq : List Word
  nextTid : Word
  currThread : Word
  initTask : Word
  idleTask : Word
  kernelPd : Word
  /-- Where `iret_fun` is in the kernel image. -/
  iretFun : Word

namespace Kernel

def currTask (k : Kernel) : Word := (k.thread k.currThread).parentTask

def setTask (t : Word) (f : Task → Task) (k : Kernel) : Kernel :=
  { k with task := Function.update k.task t (f (k.task t)) }

def setThread (thr : Word) (f : Thread → Thread) (k : Kernel) : Kernel :=
  { k with thread := Function.update k.thread thr (f (k.thread thr)) }

def withLinks (f : Links Node → Links Node) (k : Kernel) : Kernel := { k with links := f k.links }

def setSlot (i : Nat) (w : Word) (stack : Nat → Word) : Nat → Word := Function.update stack i w

def setLock (l : Lock) (m : Mutex) (k : Kernel) : Kernel := { k with locks := Function.update k.locks l m }

def mutexInit (l : Lock) (k : Kernel) : Kernel := k.setLock l .valid

def mutexLock (l : Lock) (k : Kernel) : Option Kernel := if k.locks l = .valid then some (k.setLock l .locked) else none

def mutexUnlock (l : Lock) (k : Kernel) : Option Kernel :=
    if k.locks l = .invalid then none else some (k.setLock l .valid)

def mutexDestroy (l : Lock) (k : Kernel) : Option Kernel :=
    if k.locks l = .invalid then none else some (k.setLock l .invalid)

/-! ## thread.c -/

def mapIndex (id : Word) : Int := id.toInt.tmod HASHMAP_SIZE

def addThreadToMap (thr : Word) (k : Kernel) : Kernel :=
  k.withLinks (addToTail (.threadMapLink thr) (.threadMap (mapIndex (k.thread thr).id)))

/-- The first thread with an id on the way from `node` to the head of its
bucket. `none`: the walk does not come back to the head. -/
def findThread (k : Kernel) (bucketHead : Node) (id : Word) : Nat → Node → Option (Option Word)
  | n, node =>
    if node = bucketHead then some none
    else
      match node, n with
      | .threadMapLink thr, n + 1 =>
        if (k.thread thr).id = id then some (some thr) else findThread k bucketHead id n (k.links.next node)
      | _, _ => none

def ADDRESSES : Nat := 2 ^ 32

def getThreadFromId (id : Word) (k : Kernel) : Option (Option Word) :=
  let bucketHead := Node.threadMap (mapIndex id)
  match getFirst bucketHead k.links with
  | none => some none
  | some node => findThread k bucketHead id ADDRESSES node

def removeThreadFromMap (id : Word) (k : Kernel) : Option Kernel :=
  match getThreadFromId id k with
  | none => none
  | some none => some k
  | some (some thr) => some (k.withLinks (delEntry (.threadMapLink thr)))

def MAX_TID : Word := 0x7fffffff

/-- `mem` is what `smalloc` returns for the structure. The increment of
`next_tid` has no result when it overflows. -/
def createThread (task : Word) (mem : Option Word) (k : Kernel) : Option (Option Word × Kernel) :=
  if task = 0#32 then some (none, k)
  else
    match mem with
    | none => some (none, k)
    | some thr =>
      if k.nextTid = MAX_TID then none
      else
        let k := { k with threads := insert thr k.threads, nextTid := k.nextTid + 1#32 }
        let k := k.setThread thr fun s => { s with id := k.nextTid }
        let k := k.withLinks (addToTail (.taskThreadLink thr) (.threadHead task))
        let k := k.addThreadToMap thr
        let kStackBase := thr + 8#32 + BitVec.ofNat 32 KERNEL_STACK_SIZE
        some (some thr, k.setThread thr fun s => { s with
          parentTask := task, kStackBase := kStackBase, curEsp := kStackBase, curEbp := kStackBase
          status := .runnable })

/-! ## task.c -/

def initTaskStructures (t : Word) (k : Kernel) : Kernel :=
  let k := k.withLinks (initHead (.threadHead t))
  let k := k.withLinks (initHead (.childTaskHead t))
  let k := k.withLinks (initHead (.deadChildHead t))
  let k := k.mutexInit (.childListMutex t)
  let k := k.mutexInit (.threadListMutex t)
  let k := k.mutexInit (.vanishMutex t)
  let k := k.withLinks (initHead (.exitCondVar t))
  let k := k.setTask t fun s => { s with eip := 0#32, swexnArgs := 0#32 }
  let k := k.mutexInit (.forkMutex t)
  k.mutexInit (.execMutex t)

def createTask (parent : Word) (taskMem thrMem : Option Word) (k : Kernel) : Option (Option Word × Kernel) :=
  match taskMem with
  | none => some (none, k)
  | some t =>
    let k := { k with tasks := insert t k.tasks }
    let k := k.setTask t fun s => { s with parent := parent }
    let k := k.initTaskStructures t
    match createThread t thrMem k with
    | none => none
    | some (none, k) => some (none, { k with tasks := k.tasks.erase t })
    | some (some thr, k) => some (some t, k.setTask t fun s => { s with thr := thr, id := (k.thread thr).id })

/-! ## scheduler.c -/

def runqAddThread (thr : Word) (k : Kernel) : Kernel := { k with runq := k.runq ++ [thr] }

end Kernel

end Pebbles
