import Pebbles.UserCond
import Pebbles.Lib.Words

/-!
# Threads of the thread library

`thr_create`, `thr_join` and `thr_exit` of `libthread/thread.c`, each cut at its mutex and
condition variable operations and at its accesses to a TCB. Memory that is freed is not
given out again, so a TCB stays one object from `init_tcb` to `remove_tcb`.
-/

namespace Pebbles.User

open Runs Function Words

def TRUE : Int := 1
def FALSE : Int := 0
def ERR_INVAL : Int := -1

structure Tcb where
  id : Int
  exited : Int
  stackBase : Word
  status : Word
  waitingThreads : Cond Int
  tcbMutex : Int

/-- `id` and `status` keep what the memory held. -/
def initTcb (stackBase : Word) (tcb : Tcb) : Tcb :=
  { tcb with stackBase := stackBase, exited := FALSE, waitingThreads := condInit, tcbMutex := MUTEX_VALID }

inductive Cell where
  | unused
  | created
  | linked
  | unlinked
  | freed
  deriving DecidableEq

inductive CreateAt where
  | lock (a : Nat)
  | fork (a : Nat)
  | add (a : Nat) (tid : Int)
  | unlock
  deriving DecidableEq

/-- `a` is the TCB that was found, `s` what has been written through `statusp`. -/
inductive JoinAt where
  | lock
  | find
  | unlock (r : Option Nat)
  | mutex (a : Nat)
  | test (a : Nat)
  | wait (a : Nat)
  | status (a : Nat)
  | lockList (a : Nat) (s : Option Word)
  | del (a : Nat) (s : Option Word)
  | destroyMutex (a : Nat) (s : Option Word)
  | destroyCond (a : Nat) (s : Option Word)
  | free (a : Nat) (s : Option Word)
  | unlockList (s : Option Word)
  deriving DecidableEq

inductive ExitAt where
  | lock
  | find
  | unlock (r : Option Nat)
  | mutex (a : Nat)
  | exited (a : Nat)
  | status (a : Nat)
  | signal (a : Nat)
  | unlockMutex (a : Nat)
  | stack (a : Nat)
  | vanish
  deriving DecidableEq

/-- Where a thread is; `run` is the program's own code. A call of `thr_join` remembers its
arguments (`statusp` is whether the pointer is not `NULL`), a call of `thr_exit` the status. -/
inductive ThrAt where
  | none
  | run
  | creating (pos : CreateAt)
  | joining (tid : Int) (statusp : Bool) (pos : JoinAt)
  | exiting (status : Word) (pos : ExitAt)
  | gone
  deriving DecidableEq

structure Joined where
  thread : Int
  tid : Int
  statusp : Bool
  ret : Int
  status : Option Word
  deriving DecidableEq

/-- The library's memory and its threads, which are named by their ids. `cell`, `exits`
(the statuses that `thr_exit` was called with), `called` (the ids that `thr_join` was called
with) and `joins` are kept for the statements only. -/
structure ThrRun where
  tcb : Nat → Tcb
  list : List Nat
  tcbLock : Int
  reject : Int → Int
  sleeping : Int → Bool
  pc : Int → ThrAt
  cond : Int → CondAt Int
  cell : Nat → Cell
  exits : Int → Option Word
  called : List Int
  joins : List Joined

namespace ThrRun

def goto (t : Int) (pos : ThrAt) (x : ThrRun) : ThrRun := { x with pc := update x.pc t pos }

def setTcb (a : Nat) (f : Tcb → Tcb) (x : ThrRun) : ThrRun := { x with tcb := update x.tcb a (f (x.tcb a)) }

def setCell (a : Nat) (c : Cell) (x : ThrRun) : ThrRun := { x with cell := update x.cell a c }

def lockList (t : Int) (pos : ThrAt) (x : ThrRun) : Option ThrRun :=
  (mutexLock x.tcbLock).map fun v => { x.goto t pos with tcbLock := v }

def unlockList (x : ThrRun) : ThrRun := { x with tcbLock := mutexUnlock x.tcbLock }

def lockTcb (t : Int) (a : Nat) (pos : ThrAt) (x : ThrRun) : Option ThrRun :=
  (mutexLock (x.tcb a).tcbMutex).map fun v => (x.setTcb a fun tcb => { tcb with tcbMutex := v }).goto t pos

def findTcb (tid : Int) (x : ThrRun) : Option Nat := x.list.find? fun a => (x.tcb a).id = tid

def returns (t tid : Int) (statusp : Bool) (ret : Int) (s : Option Word) (x : ThrRun) : ThrRun :=
  { x.goto t .run with joins := ⟨t, tid, statusp, ret, s⟩ :: x.joins }

def view (a : Nat) (x : ThrRun) : CondMem Int Nat where
  cv := (x.tcb a).waitingThreads
  reject := x.reject
  sleeping := x.sleeping
  mutex b := (x.tcb b).tcbMutex

def setView (a : Nat) (m : CondMem Int Nat) (x : ThrRun) : ThrRun :=
  { x with
    tcb := fun b => { x.tcb b with
      waitingThreads := if b = a then m.cv else (x.tcb b).waitingThreads
      tcbMutex := m.mutex b }
    reject := m.reject
    sleeping := m.sleeping }

def callCond (t : Int) (pos : CondAt Int) (x : ThrRun) : ThrRun := { x with cond := update x.cond t pos }

def execCond (t : Int) (a : Nat) (x : ThrRun) : Option ThrRun :=
  if x.sleeping t then none
  else ((x.view a).exec t a (x.cond t)).map fun r => (x.setView a r.2).callCond t r.1

def execCreate (t : Int) (x : ThrRun) : CreateAt → Option ThrRun
  | .lock a => x.lockList t (.creating (.fork a))
  | .fork _ => none
  | .add a tid =>
    some { ((x.setTcb a fun tcb => { tcb with id := tid }).setCell a .linked).goto t (.creating .unlock) with
      list := x.list ++ [a] }
  | .unlock => some (x.unlockList.goto t .run)

def execJoin (t tid : Int) (statusp : Bool) (x : ThrRun) : JoinAt → Option ThrRun
  | .lock => x.lockList t (.joining tid statusp .find)
  | .find => some (x.goto t (.joining tid statusp (.unlock (x.findTcb tid))))
  | .unlock none => some (x.unlockList.returns t tid statusp ERR_INVAL none)
  | .unlock (some a) => some (x.unlockList.goto t (.joining tid statusp (.mutex a)))
  | .mutex a => x.lockTcb t a (.joining tid statusp (.test a))
  | .test a =>
    if (x.tcb a).exited ≠ TRUE then some ((x.callCond t .wait).goto t (.joining tid statusp (.wait a)))
    else some (x.goto t (.joining tid statusp (.status a)))
  | .wait a =>
    if x.cond t = .done then some (x.goto t (.joining tid statusp (.test a))) else x.execCond t a
  | .status a =>
    some (x.goto t (.joining tid statusp (.lockList a (if statusp then some (x.tcb a).status else none))))
  | .lockList a s => x.lockList t (.joining tid statusp (.del a s))
  | .del a s =>
    some { (x.setCell a .unlinked).goto t (.joining tid statusp (.destroyMutex a s)) with list := x.list.erase a }
  | .destroyMutex a s =>
    some ((x.setTcb a fun tcb => { tcb with tcbMutex := MUTEX_INVALID }).goto t
    (.joining tid statusp (.destroyCond a s)))
  | .destroyCond a s =>
    some ((x.setTcb a fun tcb => { tcb with waitingThreads := condDestroy tcb.waitingThreads }).goto t
      (.joining tid statusp (.free a s)))
  | .free a s => some ((x.setCell a .freed).goto t (.joining tid statusp (.unlockList s)))
  | .unlockList s => some (x.unlockList.returns t tid statusp 0 s)

/-- `init_tcb` is always passed `NULL`, so `stack` has nothing to free. -/
def execExit (t : Int) (status : Word) (x : ThrRun) : ExitAt → Option ThrRun
  | .lock => x.lockList t (.exiting status .find)
  | .find => some (x.goto t (.exiting status (.unlock (x.findTcb t))))
  | .unlock none => some (x.unlockList.goto t (.exiting status .vanish))
  | .unlock (some a) => some (x.unlockList.goto t (.exiting status (.mutex a)))
  | .mutex a => x.lockTcb t a (.exiting status (.exited a))
  | .exited a => some ((x.setTcb a fun tcb => { tcb with exited := TRUE }).goto t (.exiting status (.status a)))
  | .status a =>
    some (((x.setTcb a fun tcb => { tcb with status := status }).callCond t .signal).goto t
    (.exiting status (.signal a)))
  | .signal a =>
    if x.cond t = .done then some (x.goto t (.exiting status (.unlockMutex a))) else x.execCond t a
  | .unlockMutex a =>
    some ((x.setTcb a fun tcb => { tcb with tcbMutex := mutexUnlock tcb.tcbMutex }).goto t (.exiting status (.stack a)))
  | .stack _ => some (x.goto t (.exiting status .vanish))
  | .vanish => some (x.goto t .gone)

def exec (t : Int) (x : ThrRun) : Option ThrRun :=
  match x.pc t with
  | .creating pos => x.execCreate t pos
  | .joining tid statusp pos => x.execJoin t tid statusp pos
  | .exiting status pos => x.execExit t status pos
  | .none | .run | .gone => none

end ThrRun

/-- What can happen next: a call from the program, an answer of `thread_fork`, or an access
of a thread. -/
inductive ThrAct where
  | create (t : Int) (a : Nat)
  | fork (t tid : Int)
  | join (t tid : Int) (statusp : Bool)
  | exit (t : Int) (status : Word)
  | exec (t : Int)

namespace ThrRun

/-- `malloc` returns unused memory; `thread_fork` fails or starts a new thread. -/
def act (x : ThrRun) : ThrAct → Option ThrRun
  | .create t a =>
    if x.pc t = .run ∧ x.cell a = .unused then
      some (((x.setTcb a (initTcb 0#32)).setCell a .created).goto t (.creating (.lock a)))
    else none
  | .fork t tid => match x.pc t with
    | .creating (.fork a) =>
      if tid < 0 then some (x.goto t (.creating (.add a tid)))
      else if 0 < tid ∧ x.pc tid = .none then some ((x.goto tid .run).goto t (.creating (.add a tid)))
      else none
    | _ => none
  | .join t tid statusp =>
    if x.pc t = .run then
      if tid < 0 then some { x.returns t tid statusp ERR_INVAL none with called := tid :: x.called }
      else some { x.goto t (.joining tid statusp .lock) with called := tid :: x.called }
    else none
  | .exit t status =>
    if x.pc t = .run then some { x.goto t (.exiting status .lock) with exits := update x.exits t (some status) }
    else none
  | .exec t => x.exec t

def Step (ok : ThrRun → ThrAct → Prop) (x y : ThrRun) : Prop := ∃ a, ok x a ∧ x.act a = some y

structure Init (x : ThrRun) : Prop where
  first : ∃ t a, 0 < t ∧ x.list = [a] ∧ (x.tcb a).id = t ∧ (x.tcb a).exited = FALSE ∧
    (x.tcb a).waitingThreads = condInit ∧ (x.tcb a).tcbMutex = MUTEX_VALID ∧ x.pc = update (fun _ => .none) t .run ∧
    x.cell = update (fun _ => .unused) a .linked
  tcbLock : x.tcbLock = MUTEX_VALID
  sleeping : ∀ t, x.sleeping t = false
  cond : ∀ t, x.cond t = .done
  exits : ∀ t, x.exits t = none
  called : x.called = []
  joins : x.joins = []

end ThrRun

end Pebbles.User
