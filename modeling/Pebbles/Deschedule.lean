import Pebbles.CondVarSound

/-!
# Deschedule and make_runnable

A thread `t` calls `deschedule` any number of times, and other threads set its
`reject` and call `make_runnable`. The calls run in sections as those on condition
variables do, with timer ticks between them.
-/

namespace Pebbles

open Words Queues Runs

inductive DescAt where
  | out
  | lock
  | test
  | lockQueue
  | link
  | unlockQueue
  /-- The status changes and the mutex is released. -/
  | release
  | switch
  | relock
  | unlock
  /-- The thread has set `reject`. -/
  | armed
  | mkLock
  | mkTest
  /-- Returns `ERR_INVAL`. -/
  | mkFail
  | sigLockQueue
  | sigFirst
  | sigWake (w : Word)
  | sigAdd (w : Word)
  | sigUnlink (w : Word)
  | sigUnlockQueue
  /-- Returns 0. -/
  | mkUnlock
  deriving DecidableEq

structure Target where
  thr : Word
  mutex : Word
  cv : Word
  apart : mutex ≠ queueMutex cv

/-- For each caller of `make_runnable`, `adds` and `unlinks` count what its call
does to the target, and `stillSet` is true while its `reject` was not reset.
`answered`: a call has returned since the target last called `deschedule`;
`served`: one whose `reject` was still set. -/
structure DescRun where
  sched : Sched
  value : Word → Int
  pc : Word → DescAt
  reject : Int
  stillSet : Word → Bool
  adds : Word → Nat
  unlinks : Word → Nat
  answered : Bool
  served : Bool

namespace DescRun

def goto (thr : Word) (pos : DescAt) (s : Sched) (x : DescRun) : DescRun :=
  { x with sched := s, pc := Function.update x.pc thr pos }

def mutexLock (mp thr : Word) (pos : DescAt) (x : DescRun) : DescRun :=
  if x.value mp = 0 then { x with sched := (x.sched.block (.mutex mp) .waiting thr).contextSwitch }
  else { x with value := Function.update x.value mp 0, pc := Function.update x.pc thr pos }

def mutexUnlock (mp thr : Word) (pos : DescAt) (x : DescRun) : DescRun :=
  { x with
    sched := x.sched.mutexUnlock mp
    value := Function.update x.value mp 1
    pc := Function.update x.pc thr pos }

def returned (thr : Word) (x : DescRun) : DescRun :=
  { x with answered := true, served := x.served || x.stillSet thr }

def exec (T : Target) (thr : Word) (x : DescRun) : DescAt → DescRun
  | .out | .armed => x
  | .lock => x.mutexLock T.mutex thr .test
  | .test => x.goto thr (if x.reject ≠ 0 then .unlock else .lockQueue) x.sched
  | .lockQueue => x.mutexLock (queueMutex T.cv) thr .link
  | .link => x.goto thr .unlockQueue (x.sched.addToTail (.cond T.cv) thr)
  | .unlockQueue => x.mutexUnlock (queueMutex T.cv) thr .release
  | .release => { x with sched := x.sched.setStatus thr .descheduled }.mutexUnlock T.mutex thr .switch
  | .switch => x.goto thr .relock x.sched.contextSwitch
  | .relock => x.mutexLock T.mutex thr .unlock
  | .unlock => x.mutexUnlock T.mutex thr .out
  | .mkLock => x.mutexLock T.mutex thr .mkTest
  | .mkTest => x.goto thr (if x.sched.status T.thr ≠ .descheduled then .mkFail else .sigLockQueue) x.sched
  | .mkFail => (x.mutexUnlock T.mutex thr .out).returned thr
  | .sigLockQueue => x.mutexLock (queueMutex T.cv) thr .sigFirst
  | .sigFirst =>
    match x.sched.list (.cond T.cv) with
    | [] => x.goto thr .sigUnlockQueue x.sched
    | w :: _ => x.goto thr (.sigWake w) x.sched
  | .sigWake w => x.goto thr (.sigAdd w) (x.sched.setStatus w .runnable)
  | .sigAdd w =>
    { x.goto thr (.sigUnlink w) (x.sched.runqAddThread w) with adds := Function.update x.adds thr (x.adds thr + 1) }
  | .sigUnlink w =>
    { x.goto thr .sigUnlockQueue (x.sched.delEntry (.cond T.cv) w) with
      unlinks := Function.update x.unlinks thr (x.unlinks thr + (x.sched.list (.cond T.cv)).count w) }
  | .sigUnlockQueue => x.mutexUnlock (queueMutex T.cv) thr .mkUnlock
  | .mkUnlock => (x.mutexUnlock T.mutex thr .out).returned thr

inductive Step (T : Target) : DescRun → DescRun → Prop
  | tick {x} : Step T x { x with sched := { x.sched with ticks := x.sched.ticks + 1#32 }.contextSwitch }
  | create {x thr} : thr ∉ x.sched.live → Step T x { x with sched := x.sched.createThread thr }
  /-- Only the target resets `reject`, and not during a call. -/
  | reset {x} : x.sched.currThread = some T.thr → x.pc T.thr = .out →
    Step T x { x with reject := 0, stillSet := fun _ => false }
  | deschedule {x} : x.sched.currThread = some T.thr → x.pc T.thr = .out →
    Step T x { x.goto T.thr .lock x.sched with answered := false, served := false }
  | set {x thr v} : x.sched.currThread = some thr → thr ≠ T.thr → thr ≠ x.sched.idle → x.pc thr = .out → v ≠ 0 →
    Step T x { x.goto thr .armed x.sched with reject := v, stillSet := Function.update x.stillSet thr true }
  | makeRunnable {x thr} : x.sched.currThread = some thr → x.pc thr = .armed →
    Step T x { x.goto thr .mkLock x.sched with
      adds := Function.update x.adds thr 0
      unlinks := Function.update x.unlinks thr 0 }
  | run {x thr} : x.sched.currThread = some thr → x.pc thr ≠ .out → x.pc thr ≠ .armed →
    Step T x (x.exec T thr (x.pc thr))

structure Init (T : Target) (x : DescRun) : Prop where
  reached : x.sched.Reached
  live : T.thr ∈ x.sched.live
  ne_idle : T.thr ≠ x.sched.idle
  status : x.sched.status T.thr ≠ .descheduled
  conds : x.sched.list (.cond T.cv) = []
  value : ∀ mp, x.value mp = 1
  pc : ∀ thr, x.pc thr = .out
  stillSet : ∀ thr, x.stillSet thr = false
  served : x.served = false
  answered : x.answered = false

end DescRun

end Pebbles
