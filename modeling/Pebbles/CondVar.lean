import Pebbles.Scheduler

/-!
# Condition variables

`cond_var.c` in sections: a section runs with interrupts off or is one access, and
timer ticks and keyboard interrupts come between sections. A keyboard interrupt
runs `cond_signal` on the stack of the current thread. `runq_add_thread` turns
interrupts on, so a signal can be preempted before it unlinks the thread that it
has woken.
-/

namespace Pebbles

open Words

inductive WaitAt where
  | lockQueue
  | link
  | unlockQueue
  /-- The status changes and the mutex is released. -/
  | release
  | switch
  | relock
  deriving DecidableEq

inductive SignalAt where
  | lockQueue
  | first
  | wake (thr : Word)
  | add (thr : Word)
  | unlink (thr : Word)
  | unlockQueue
  deriving DecidableEq

/-- A call in progress. `all`: the signal is a broadcast. -/
inductive Frame where
  | lock (mp : Word)
  | unlock (mp : Word)
  | yield
  | wait (cv mp : Word) (status : Status) (pos : WaitAt)
  | signal (all : Bool) (cv : Word) (pos : SignalAt)
  deriving DecidableEq

def queueMutex (cv : Word) : Word := cv + 12#32

namespace Sched

def SwitchedOut (s : Sched) (thr : Word) : Prop :=
  s.currThread ≠ some thr ∧ ∀ h, (∀ cv, h ≠ .cond cv) → thr ∉ s.list h

def Unlinked (s : Sched) (thr : Word) : Prop := ∀ cv, thr ∉ s.list (.cond cv)

end Sched

structure CondRun where
  sched : Sched
  value : Word → Int
  stack : Word → List Frame

namespace CondRun

def goto (thr : Word) (st : List Frame) (s : Sched) (x : CondRun) : CondRun :=
  { x with sched := s, stack := Function.update x.stack thr st }

def mutexLock (mp thr : Word) (st : List Frame) (x : CondRun) : CondRun :=
  if x.value mp = 0 then { x with sched := (x.sched.block (.mutex mp) .waiting thr).contextSwitch }
  else { x with value := Function.update x.value mp 0, stack := Function.update x.stack thr st }

def mutexUnlock (mp thr : Word) (st : List Frame) (x : CondRun) : CondRun where
  sched := x.sched.mutexUnlock mp
  value := Function.update x.value mp 1
  stack := Function.update x.stack thr st

def nextEntry (thr : Word) (l : List Word) : Option Word := ((l.dropWhile (· ≠ thr)).drop 1).head?

def found : Option Word → SignalAt
  | none => .unlockQueue
  | some thr => .wake thr

def exec (thr : Word) (st : List Frame) (x : CondRun) : Frame → CondRun
  | .lock mp => x.mutexLock mp thr st
  | .unlock mp => x.mutexUnlock mp thr st
  | .yield => x.goto thr st x.sched.contextSwitch
  | .wait cv mp status pos =>
    match pos with
    | .lockQueue => x.mutexLock (queueMutex cv) thr (.wait cv mp status .link :: st)
    | .link => x.goto thr (.wait cv mp status .unlockQueue :: st) (x.sched.addToTail (.cond cv) thr)
    | .unlockQueue => x.mutexUnlock (queueMutex cv) thr (.wait cv mp status .release :: st)
    | .release =>
      { x with sched := x.sched.setStatus thr status }.mutexUnlock mp thr (.wait cv mp status .switch :: st)
    | .switch => x.goto thr (.wait cv mp status .relock :: st) x.sched.contextSwitch
    | .relock => x.mutexLock mp thr st
  | .signal all cv pos =>
    match pos with
    | .lockQueue => x.mutexLock (queueMutex cv) thr (.signal all cv .first :: st)
    | .first => x.goto thr (.signal all cv (found (x.sched.list (.cond cv)).head?) :: st) x.sched
    | .wake w => x.goto thr (.signal all cv (.add w) :: st) (x.sched.setStatus w .runnable)
    | .add w => x.goto thr (.signal all cv (.unlink w) :: st) (x.sched.runqAddThread w)
    | .unlink w =>
      x.goto thr (.signal all cv (found (if all then nextEntry w (x.sched.list (.cond cv)) else none)) :: st)
        (x.sched.delEntry (.cond cv) w)
    | .unlockQueue => x.mutexUnlock (queueMutex cv) thr st

def Plain (cvs : Finset Word) (mp : Word) : Prop := ∀ cv ∈ cvs, mp ≠ queueMutex cv

def Entry (cvs : Finset Word) : Frame → Prop
  | .lock mp | .unlock mp => Plain cvs mp
  | .yield => True
  | .wait cv mp status pos =>
    cv ∈ cvs ∧ Plain cvs mp ∧ (status = .waiting ∨ status = .descheduled) ∧ pos = .lockQueue
  | .signal _ cv pos => cv ∈ cvs ∧ pos = .lockQueue

/-- Sections run, and threads vanish, in states that are `ok`. -/
inductive Step (ok : CondRun → Prop) (cvs : Finset Word) : CondRun → CondRun → Prop
  | tick {x} : Step ok cvs x { x with sched := { x.sched with ticks := x.sched.ticks + 1#32 }.contextSwitch }
  | keyboard {x thr cv} : x.sched.currThread = some thr → cv ∈ cvs →
    Step ok cvs x (x.goto thr (.signal false cv .lockQueue :: x.stack thr) x.sched)
  | call {x thr f} : x.sched.currThread = some thr → thr ≠ x.sched.idle → x.stack thr = [] → Entry cvs f →
    Step ok cvs x (x.goto thr [f] x.sched)
  | run {x thr f st} : x.sched.currThread = some thr → x.stack thr = f :: st → ok x → Step ok cvs x (x.exec thr st f)
  | create {x thr} : thr ∉ x.sched.live → Step ok cvs x (x.goto thr [] (x.sched.createThread thr))
  | vanish {x thr} : x.sched.currThread = some thr → thr ≠ x.sched.idle → x.stack thr = [] → ok x →
    Step ok cvs x { x with sched := (x.sched.freeThread thr).contextSwitch }

structure Booted (x : CondRun) : Prop where
  sched : x.sched.Booted
  value : ∀ mp, x.value mp = 1
  stack : ∀ thr, x.stack thr = []

/-! ## Adding to the run queue -/

/-- A signal finds only threads that have been switched out. A woken thread is
unlinked before it waits again or vanishes. The idle thread is not interrupted
while the queue is locked. -/
def Careful (x : CondRun) : Prop :=
  ∀ thr, x.sched.currThread = some thr →
    match x.stack thr with
    | [] | .wait _ _ _ .link :: _ => x.sched.Unlinked thr
    | .signal _ cv .lockQueue :: _ => thr = x.sched.idle → x.value (queueMutex cv) ≠ 0
    | .signal _ cv .first :: _ => ∀ w, (x.sched.list (.cond cv)).head? = some w → x.sched.SwitchedOut w
    | .signal true cv (.unlink w) :: _ => ∀ v, nextEntry w (x.sched.list (.cond cv)) = some v → x.sched.SwitchedOut v
    | _ => True

end CondRun

end Pebbles
