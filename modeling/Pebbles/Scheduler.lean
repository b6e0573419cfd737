import Pebbles.Kernel

/-!
# The scheduler

`scheduler.c`, `context.c`, `sleep.c` and what `mutex.c` and `cond_var.c` do to
the threads: the lists that a thread can be linked on, the current thread, and
the switch to another one. Each operation runs with interrupts off up to its
context switch.
-/

namespace Pebbles

open Words

inductive Head where
  | runnable
  | sleeping
  | mutex (mp : Word)
  | cond (cv : Word)
  deriving DecidableEq

/-- The threads by the addresses of their structures. `entered` and `left` record
who was put on the run queue and who was taken from it. -/
structure Sched where
  live : Finset Word
  status : Word → Status
  currThread : Option Word
  idle : Word
  list : Head → List Word
  wakeTime : Word → Word
  ticks : Word
  entered : List Word
  left : List Word

namespace Sched

def setStatus (thr : Word) (status : Status) (s : Sched) : Sched :=
  { s with status := Function.update s.status thr status }

def setList (h : Head) (l : List Word) (s : Sched) : Sched := { s with list := Function.update s.list h l }

def addToTail (h : Head) (thr : Word) (s : Sched) : Sched := s.setList h (s.list h ++ [thr])

def delEntry (h : Head) (thr : Word) (s : Sched) : Sched := s.setList h ((s.list h).erase thr)

/-! ## The run queue -/

def runqAddThread (thr : Word) (s : Sched) : Sched :=
  { s.addToTail .runnable thr with entered := s.entered ++ [thr] }

def runqGetHead (s : Sched) : Option Word × Sched :=
  match s.list .runnable with
  | [] => (none, s)
  | thr :: rest => (some thr, { s.setList .runnable rest with left := s.left ++ [thr] })

def due (s : Sched) : Option Word :=
  match s.list .sleeping with
  | [] => none
  | thr :: _ => if (s.wakeTime thr).toInt < s.ticks.toInt then some thr else none

def getSleepingThread (s : Sched) : Option Word × Sched :=
  match s.due with
  | none => (none, s)
  | some thr => (some thr, s.setList .sleeping (s.list .sleeping).tail)

def nextThread (s : Sched) : Option Word × Sched :=
  match s.getSleepingThread with
  | (some thr, s) => (some thr, s)
  | (none, s) => s.runqGetHead

/-! ## Context switch -/

def staysOn (s : Sched) : Bool :=
  match s.currThread with
  | none => false
  | some thr => thr = s.idle || s.status thr = .running

def requeue (s : Sched) : Sched :=
  match s.currThread with
  | none => s
  | some thr =>
    if s.status thr = .running ∧ thr ≠ s.idle then (s.setStatus thr .runnable).runqAddThread thr else s

def switchToThread (thr : Word) (s : Sched) : Sched := { s.setStatus thr .running with currThread := some thr }

def contextSwitch (s : Sched) : Sched :=
  match s.nextThread with
  | (none, s) => if s.staysOn then s else s.requeue.switchToThread s.idle
  | (some thr, s) => s.requeue.switchToThread thr

/-! ## Waking -/

def wake (h : Head) (thr : Word) (s : Sched) : Sched := ((s.setStatus thr .runnable).runqAddThread thr).delEntry h thr

def wakeFirst (h : Head) (s : Sched) : Sched :=
  match s.list h with
  | [] => s
  | thr :: _ => s.wake h thr

def mutexUnlock (mp : Word) (s : Sched) : Sched := s.wakeFirst (.mutex mp)

def condSignal (cv : Word) (s : Sched) : Sched := s.wakeFirst (.cond cv)

def condBroadcast (cv : Word) (s : Sched) : Sched :=
  (s.list (.cond cv)).foldl (fun s thr => s.wake (.cond cv) thr) s

/-! ## Blocking -/

def block (h : Head) (status : Status) (thr : Word) (s : Sched) : Sched := (s.addToTail h thr).setStatus thr status

def insertSleeper (wakeTime : Word → Word) (thr : Word) : List Word → List Word
  | [] => [thr]
  | u :: us =>
    if (wakeTime thr).toInt < (wakeTime u).toInt then thr :: u :: us else u :: insertSleeper wakeTime thr us

def scheduleSleep (ticks thr : Word) (s : Sched) : Sched :=
  let s := { s with wakeTime := Function.update s.wakeTime thr (s.ticks + ticks) }
  (s.setList .sleeping (insertSleeper s.wakeTime thr (s.list .sleeping))).setStatus thr .waiting

def createThread (thr : Word) (s : Sched) : Sched :=
  ({ s with live := insert thr s.live }.setStatus thr .runnable).runqAddThread thr

def freeThread (thr : Word) (s : Sched) : Sched := { s with live := s.live.erase thr, currThread := none }

/-! ## Steps -/

inductive Act where
  | tick
  | yield
  | lock (mp : Word)
  | unlock (mp : Word)
  | wait (cv mp : Word) (status : Status)
  | signal (cv : Word)
  | broadcast (cv : Word)
  | sleep (ticks : Word)
  | create (thr : Word)
  | vanish

/-- What an operation does before its context switch. The idle thread makes no
system call. -/
inductive Prepare : Act → Sched → Sched → Prop
  | tick {s} : Prepare .tick s { s with ticks := s.ticks + 1#32 }
  | yield {s thr} : s.currThread = some thr → thr ≠ s.idle → Prepare .yield s s
  | lock {s mp thr} : s.currThread = some thr → thr ≠ s.idle →
    Prepare (.lock mp) s (s.block (.mutex mp) .waiting thr)
  | wait {s cv mp status thr} : s.currThread = some thr → thr ≠ s.idle → status = .waiting ∨ status = .descheduled →
    Prepare (.wait cv mp status) s ((s.block (.cond cv) status thr).mutexUnlock mp)
  | sleep {s ticks thr} : s.currThread = some thr → thr ≠ s.idle → 0 < ticks.toInt →
    s.ticks.toInt ≤ (s.ticks + ticks).toInt → Prepare (.sleep ticks) s (s.scheduleSleep ticks thr)
  | vanish {s thr} : s.currThread = some thr → thr ≠ s.idle → Prepare .vanish s (s.freeThread thr)

inductive Step : Act → Sched → Sched → Prop
  | switch {a s mid} : Prepare a s mid → Step a s mid.contextSwitch
  | unlock {s mp} : Step (.unlock mp) s (s.mutexUnlock mp)
  | signal {s cv} : Step (.signal cv) s (s.condSignal cv)
  | broadcast {s cv} : Step (.broadcast cv) s (s.condBroadcast cv)
  | create {s thr} : thr ∉ s.live → Step (.create thr) s (s.createThread thr)

/-- The idle thread runs, and the first thread of the first task is on the run
queue. -/
structure Booted (s : Sched) : Prop where
  curr : s.currThread = some s.idle
  running : s.status s.idle = .running
  first : ∃ thr, thr ≠ s.idle ∧ s.live = {s.idle, thr} ∧ s.status thr = .runnable ∧ s.list .runnable = [thr] ∧
    s.entered = [thr]
  rest : ∀ h, h ≠ .runnable → s.list h = []
  left : s.left = []

end Sched

end Pebbles
