import Pebbles.Lists
import Pebbles.Page
import Pebbles.SchedulerSound

/-!
# Sleeping threads

`sleep.c` on the pointers of its list. `schedule_sleep` is cut into sections at the
accesses that a timer interrupt can come between; the mutex operations are one section
each, and so is what runs with interrupts off. A thread is named by the address of its
`sleepq_link`.
-/

namespace Pebbles

open Words Ring

inductive AddAt where
  | newNext
  | newPrev
  | prevNext
  | nextPrev
  deriving DecidableEq

namespace AddAt

def write (newNode prev next : Word) (L : Links Word) : AddAt → Links Word
  | .newNext => setNext newNode next L
  | .newPrev => setPrev newNode prev L
  | .prevNext => setNext prev newNode L
  | .nextPrev => setPrev next newNode L

def after : AddAt → Option AddAt
  | .newNext => some .newPrev
  | .newPrev => some .prevNext
  | .prevNext => some .nextPrev
  | .nextPrev => none

def rest (newNode prev next : Word) (L : Links Word) : AddAt → Links Word
  | .newNext => addToList newNode prev next L
  | .newPrev => setPrev next newNode (setNext prev newNode (setPrev newNode prev L))
  | .prevNext => setPrev next newNode (setNext prev newNode L)
  | .nextPrev => setPrev next newNode L

end AddAt

/-- Sections of `schedule_sleep`; `head` is `temp_head`. -/
inductive SleepAt where
  | out
  | lock
  | take
  | hide (head : Option Word)
  | first (head : Option Word)
  | loop (head : Word) (entry : Option Word)
  | link (head prev next : Word) (pos : AddAt)
  | unlock (head : Word)
  /-- Interrupts are disabled, and the thread switches to another one. -/
  | putBack (head : Word)
  | asleep
  deriving DecidableEq

/-- `owner` holds `sleep_list_mutex`. `arrived` records the threads that have put
themselves on the list and were not returned, in the order in which they came. -/
structure SleepRun where
  sleepingThreads : Option Word
  links : Links Word
  wakeTime : Word → Word
  status : Word → Status
  tickCounter : Word
  owner : Option Word
  pc : Word → SleepAt
  arrived : List Word

def wakeDue (wakeTime currTicks : Word) : Bool := wakeTime.toInt < currTicks.toInt

namespace SleepRun

def goto (thr : Word) (pos : SleepAt) (s : SleepRun) : SleepRun := { s with pc := Function.update s.pc thr pos }

/-- Up to `mutex_lock`. A value is what `do_sleep` returns without having slept. -/
def scheduleSleep (ticks thr : Word) (s : SleepRun) : Option Int × SleepRun :=
  if (s.tickCounter + ticks).toInt < s.tickCounter.toInt then (some 0, s)
  else (none, { s.goto thr .lock with wakeTime := Function.update s.wakeTime thr (s.tickCounter + ticks) })

def doSleep (ticks thr : Word) (s : SleepRun) : Option Int × SleepRun :=
  if ticks = 0#32 then (some 0, s)
  else if ticks.toInt < 0 then (some ERR_INVAL, s)
  else s.scheduleSleep ticks thr

def linkStep (thr head prev next : Word) (pos : AddAt) (s : SleepRun) : SleepRun :=
  let s := { s with links := pos.write thr prev next s.links }
  match pos.after with
  | some pos => s.goto thr (.link head prev next pos)
  | none => { s.goto thr (.unlock head) with arrived := s.arrived ++ [thr] }

/-- A thread runs its section. `none`: it is not in the function, waits for the
mutex or takes the first node of `NULL`. -/
def exec (thr : Word) (s : SleepRun) : Option SleepRun :=
  match s.pc thr with
  | .out | .asleep => none
  | .lock => if s.owner = none then some { s.goto thr .take with owner := some thr } else none
  | .take => some (s.goto thr (.hide s.sleepingThreads))
  | .hide head => some { s.goto thr (.first head) with sleepingThreads := none }
  | .first none => none
  | .first (some head) => some (s.goto thr (.loop head (getFirst head s.links)))
  | .loop head none => some (s.goto thr (.link head (s.links.prev head) head .newNext))
  | .loop head (some entry) =>
    if entry ≠ head ∧ ¬ (s.wakeTime thr).toInt < (s.wakeTime entry).toInt then
      some (s.goto thr (.loop head (some (s.links.next entry))))
    else some (s.goto thr (.link head (s.links.prev entry) entry .newNext))
  | .link head prev next pos => some (s.linkStep thr head prev next pos)
  | .unlock head => some { s.goto thr (.putBack head) with owner := none }
  | .putBack head =>
    some { s.goto thr .asleep with
      sleepingThreads := some head
      status := Function.update s.status thr .waiting }

def getSleepingThread (s : SleepRun) : Option Word × SleepRun :=
  match s.sleepingThreads with
  | none => (none, s)
  | some head =>
    match getFirst head s.links with
    | none => (none, s)
    | some thr =>
      if wakeDue (s.wakeTime thr) s.tickCounter then (some thr, { s with links := delEntry thr s.links }) else (none, s)

/-- `next_thread` looks for a sleeper, and a context switch goes to it. -/
def wake (s : SleepRun) : SleepRun :=
  match s.getSleepingThread with
  | (none, s) => s
  | (some thr, s) =>
    { s.goto thr .out with
      status := Function.update s.status thr .running
      arrived := s.arrived.erase thr }

/-- `head` is the node that `init_sleeping_threads` allocates. -/
inductive Step (head : Word) : SleepRun → SleepRun → Prop
  | tick {s} : Step head s { s with tickCounter := s.tickCounter + 1#32 }
  | call {s thr ticks} : thr ≠ head → s.pc thr = .out → Step head s (s.doSleep ticks thr).2
  | run {s s' thr} : s.exec thr = some s' → Step head s s'
  | wake {s} : Step head s s.wake

structure Booted (head : Word) (s : SleepRun) : Prop where
  sleepingThreads : s.sleepingThreads = some head
  links : IsRing s.links head []
  owner : s.owner = none
  pc : ∀ thr, s.pc thr = .out
  arrived : s.arrived = []

def complete (thr : Word) : Nat → SleepRun → Option SleepRun
  | n, s =>
    if s.pc thr = .out ∨ s.pc thr = .asleep then some s
    else
      match n with
      | 0 => none
      | n + 1 => (s.exec thr).bind (complete thr n)

inductive SerialStep (head : Word) : SleepRun → SleepRun → Prop
  | tick {s} : SerialStep head s { s with tickCounter := s.tickCounter + 1#32 }
  | sleep {s s' thr ticks n} : thr ≠ head → s.pc thr = .out → (s.doSleep ticks thr).2.complete thr n = some s' →
    SerialStep head s s'
  | wake {s} : SerialStep head s s.wake

end SleepRun

end Pebbles
