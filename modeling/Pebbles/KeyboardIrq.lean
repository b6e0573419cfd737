import Pebbles.CondVar
import Pebbles.Readline

/-!
# Keyboard interrupts and the locks of the readers

The gate of the keyboard handler leaves interrupts on, and the handler runs
`cond_signal` on the stack of the thread that it interrupts. Threads are in
`readline_handler_c`, `getchar_handler_c` and `cond_wait`, in the sections of these
functions; a thread on the waiting list of a mutex does not run. A thread that has
been switched away goes on when a signal has put it on the run queue.
-/

namespace Pebbles

open Words Runs Function

inductive ReadLock where
  | readline
  | queue
  deriving DecidableEq

inductive ReadAt where
  | out
  | lock (req : Request)
  | test (req : Request)
  | wait (req : Request) (pos : WaitAt)
  | unlock
  deriving DecidableEq

/-- `owner` is the thread that has locked a mutex; `irq` are the calls of `cond_signal`
by handlers on the stack of a thread, the last one first. -/
structure IrqRun where
  keys : KeyBuf
  owner : ReadLock → Option Word
  waiting : ReadLock → List Word
  condWaiting : List Word
  queued : Word → Bool
  pc : Word → ReadAt
  irq : Word → List SignalAt

namespace IrqRun

def goto (thr : Word) (pos : ReadAt) (x : IrqRun) : IrqRun := { x with pc := update x.pc thr pos }

def setIrq (thr : Word) (st : List SignalAt) (x : IrqRun) : IrqRun := { x with irq := update x.irq thr st }

def mutexLock (m : ReadLock) (thr : Word) (got : IrqRun → IrqRun) (x : IrqRun) : IrqRun :=
  if x.owner m = none then got { x with owner := update x.owner m (some thr) }
  else { x with waiting := update x.waiting m (x.waiting m ++ [thr]) }

def mutexUnlock (m : ReadLock) (x : IrqRun) : IrqRun :=
  { x with
    owner := update x.owner m none
    waiting := update x.waiting m (x.waiting m).tail }

def execSignal (thr : Word) (st : List SignalAt) (x : IrqRun) : SignalAt → IrqRun
  | .lockQueue => x.mutexLock .queue thr fun x => x.setIrq thr (.first :: st)
  | .first => x.setIrq thr (CondRun.found x.condWaiting.head? :: st)
  | .wake w => x.setIrq thr (.add w :: st)
  | .add w => { x.setIrq thr (.unlink w :: st) with queued := update x.queued w true }
  | .unlink w => { x.setIrq thr (.unlockQueue :: st) with condWaiting := x.condWaiting.erase w }
  | .unlockQueue => (x.mutexUnlock .queue).setIrq thr st

def execWait (thr : Word) (req : Request) (x : IrqRun) : WaitAt → Option IrqRun
  | .lockQueue => some (x.mutexLock .queue thr fun x => x.goto thr (.wait req .link))
  | .link => some { x.goto thr (.wait req .unlockQueue) with condWaiting := x.condWaiting ++ [thr] }
  | .unlockQueue => some ((x.mutexUnlock .queue).goto thr (.wait req .release))
  | .release => some ((x.mutexUnlock .readline).goto thr (.wait req .switch))
  | .switch =>
    if x.queued thr then some { x.goto thr (.wait req .relock) with queued := update x.queued thr false } else none
  | .relock => some (x.mutexLock .readline thr fun x => x.goto thr (.test req))

def execReader (thr : Word) (x : IrqRun) : ReadAt → Option IrqRun
  | .out => none
  | .lock req => some (x.mutexLock .readline thr fun x => x.goto thr (.test req))
  | .test req => (Readers.read x.keys req).map fun r =>
    { x.goto thr (if r.1 = ERR_NOTAVAIL then .wait req .lockQueue else .unlock) with keys := r.2 }
  | .wait req pos => x.execWait thr req pos
  | .unlock => some ((x.mutexUnlock .readline).goto thr .out)

def Blocked (x : IrqRun) (thr : Word) : Prop := thr ∈ x.waiting .readline ∨ thr ∈ x.waiting .queue

instance (x : IrqRun) (thr : Word) : Decidable (x.Blocked thr) := inferInstanceAs (Decidable (_ ∨ _))

def exec (thr : Word) (x : IrqRun) : Option IrqRun :=
  if x.Blocked thr then none
  else
    match x.irq thr with
    | pos :: st => some (x.execSignal thr st pos)
    | [] => x.execReader thr (x.pc thr)

def enqueueScancode (c : Byte) (thr : Word) (x : IrqRun) : IrqRun :=
  let x := { x with keys := (x.keys.addKeystroke c).1 }
  if c = newline then x.setIrq thr (.lockQueue :: x.irq thr) else x

inductive Step (ok : Byte → Word → IrqRun → Prop) : IrqRun → IrqRun → Prop
  | call {x thr req} : x.pc thr = .out → x.irq thr = [] → Step ok x (x.goto thr (.lock req))
  | run {x y thr} : x.exec thr = some y → Step ok x y
  | key {x thr c} : ¬ x.Blocked thr → ok c thr x → Step ok x (x.enqueueScancode c thr)

def start : IrqRun := ⟨.init, fun _ => none, fun _ => [], [], fun _ => false, fun _ => .out, fun _ => []⟩

def NoSelfWait (x : IrqRun) : Prop := ∀ m thr, thr ∈ x.waiting m → x.owner m ≠ some thr

def Careful (c : Byte) (thr : Word) (x : IrqRun) : Prop := c = newline → x.owner .queue ≠ some thr

/-! ## What a place in the code says about the locks -/

def wants : List SignalAt → ReadAt → Option ReadLock
  | .lockQueue :: _, _ => some .queue
  | _ :: _, _ => none
  | [], .lock _ => some .readline
  | [], .wait _ .relock => some .readline
  | [], .wait _ .lockQueue => some .queue
  | [], _ => none

def holdsQueue : List SignalAt → ReadAt → Bool
  | .lockQueue :: _, _ => false
  | _ :: _, _ => true
  | [], .wait _ .link => true
  | [], .wait _ .unlockQueue => true
  | [], _ => false

def holdsReadline : ReadAt → Bool
  | .test _ | .unlock => true
  | .wait _ .lockQueue | .wait _ .link | .wait _ .unlockQueue | .wait _ .release => true
  | _ => false

structure Inv (x : IrqRun) : Prop where
  waits : ∀ m thr, thr ∈ x.waiting m → wants (x.irq thr) (x.pc thr) = some m
  queue : ∀ thr, x.owner .queue = some thr → holdsQueue (x.irq thr) (x.pc thr) = true
  readline : ∀ thr, x.owner .readline = some thr → holdsReadline (x.pc thr) = true

section
variable {x y : IrqRun} {thr : Word} {m : ReadLock}

theorem Inv.noSelfWait (h : Inv x) : NoSelfWait x := by
  intro m thr hw ho
  have hwants := h.waits m thr hw
  cases m with
  | queue =>
    have hq := h.queue thr ho
    revert hwants hq
    cases x.irq thr with
    | nil =>
      cases x.pc thr with
      | wait req pos => cases pos <;> simp [wants, holdsQueue]
      | out | lock | test | unlock => simp [holdsQueue]
    | cons pos st => cases pos <;> simp [wants, holdsQueue]
  | readline =>
    have hr := h.readline thr ho
    revert hwants hr
    cases x.irq thr with
    | nil =>
      cases x.pc thr with
      | wait req pos => cases pos <;> simp [wants, holdsReadline]
      | out | lock | test | unlock => simp [wants, holdsReadline]
    | cons pos st => cases pos <;> simp [wants]

theorem Inv.move (thr : Word) (h : Inv x) (hpc : ∀ u, u ≠ thr → y.pc u = x.pc u) (hirq : ∀ u, u ≠ thr → y.irq u = x.irq u)
    (hw : ∀ m, ∀ u ∈ y.waiting m, u ≠ thr ∧ u ∈ x.waiting m ∨ u = thr ∧ wants (y.irq thr) (y.pc thr) = some m)
    (ho : ∀ m u, y.owner m = some u → u ≠ thr → x.owner m = some u)
    (hq : y.owner .queue = some thr → holdsQueue (y.irq thr) (y.pc thr) = true)
    (hr : y.owner .readline = some thr → holdsReadline (y.pc thr) = true) : Inv y := by
  refine ⟨fun m u hu => ?_, fun u hu => ?_, fun u hu => ?_⟩
  · rcases hw m u hu with ⟨hne, hu⟩ | ⟨rfl, hu⟩
    · rw [hpc u hne, hirq u hne]
      exact h.waits m u hu
    · exact hu
  · by_cases e : u = thr
    · subst e
      exact hq hu
    · rw [hpc u e, hirq u e]
      exact h.queue u (ho _ u hu e)
  · by_cases e : u = thr
    · subst e
      exact hr hu
    · rw [hpc u e]
      exact h.readline u (ho _ u hu e)

theorem ne_of_waiting (hb : ¬ x.Blocked thr) {u : Word} (hu : u ∈ x.waiting m) : u ≠ thr := by
  rintro rfl
  cases m with
  | readline => exact hb (.inl hu)
  | queue => exact hb (.inr hu)

theorem Inv.block (h : Inv x) (hb : ¬ x.Blocked thr) (hw : wants (x.irq thr) (x.pc thr) = some m) :
    Inv { x with waiting := update x.waiting m (x.waiting m ++ [thr]) } := by
  refine h.move thr (fun _ _ => rfl) (fun _ _ => rfl) (fun m' u hu => ?_) (fun _ _ ho _ => ho) (h.queue thr) (h.readline thr)
  by_cases e : m' = m
  · subst e
    simp only [update_self, List.mem_append, List.mem_singleton] at hu
    rcases hu with hu | rfl
    · exact .inl ⟨ne_of_waiting hb hu, hu⟩
    · exact .inr ⟨rfl, hw⟩
  · simp only [update_of_ne e] at hu
    exact .inl ⟨ne_of_waiting hb hu, hu⟩

theorem Inv.lock (pos : ReadAt) (st : List SignalAt) {got : IrqRun → IrqRun} (h : Inv x) (hb : ¬ x.Blocked thr)
    (hw : wants (x.irq thr) (x.pc thr) = some m)
    (hgot : ∀ o, got { x with owner := o } = { x with owner := o, pc := update x.pc thr pos, irq := update x.irq thr st })
    (hq : m = .queue ∨ x.owner .queue = some thr → holdsQueue st pos = true)
    (hr : m = .readline ∨ x.owner .readline = some thr → holdsReadline pos = true) : Inv (x.mutexLock m thr got) := by
  unfold mutexLock
  split
  · rw [hgot]
    have howner : ∀ m', update x.owner m (some thr) m' = some thr → m = m' ∨ x.owner m' = some thr := fun m' he => by
      by_cases e : m' = m
      · exact .inl e.symm
      · exact .inr (by rwa [update_of_ne e] at he)
    refine h.move thr (fun u hu => update_of_ne hu ..) (fun u hu => update_of_ne hu ..)
      (fun m u hu => .inl ⟨ne_of_waiting hb hu, hu⟩) (fun m' u ho hu => ?_) (fun ho => ?_) fun ho => ?_
    · by_cases e : m' = m
      · simp [e, hu.symm] at ho
      · simpa [e] using ho
    · simpa using hq (howner .queue ho)
    · simpa using hr (howner .readline ho)
  · exact h.block hb hw

theorem Inv.unlock (m : ReadLock) (pos : ReadAt) (st : List SignalAt) (h : Inv x) (hb : ¬ x.Blocked thr)
    (hq : m ≠ .queue → x.owner .queue = some thr → holdsQueue st pos = true)
    (hr : m ≠ .readline → x.owner .readline = some thr → holdsReadline pos = true) :
    Inv { x.mutexUnlock m with pc := update x.pc thr pos, irq := update x.irq thr st } := by
  have howner : ∀ {m' u}, update x.owner m none m' = some u → m ≠ m' ∧ x.owner m' = some u := fun {m' u} he => by
    by_cases e : m' = m
    · simp [e] at he
    · exact ⟨fun e' => e e'.symm, by rwa [update_of_ne e] at he⟩
  refine h.move thr (fun u hu => update_of_ne hu ..) (fun u hu => update_of_ne hu ..) (fun m' u hu => ?_)
    (fun m' u ho _ => (howner ho).2) (fun ho => ?_) fun ho => ?_
  · have hu' : u ∈ x.waiting m' := by
      by_cases e : m' = m
      · subst e
        simp only [mutexUnlock, update_self] at hu
        exact List.mem_of_mem_tail hu
      · simpa only [mutexUnlock, update_of_ne e] using hu
    exact .inl ⟨ne_of_waiting hb hu', hu'⟩
  · simpa using hq (howner ho).1 (howner ho).2
  · simpa using hr (howner ho).1 (howner ho).2

theorem Inv.pass (pos : ReadAt) (st : List SignalAt) {y : IrqRun} (h : Inv x) (hb : ¬ x.Blocked thr)
    (hpc : y.pc = update x.pc thr pos) (hirq : y.irq = update x.irq thr st) (ho : y.owner = x.owner)
    (hw : y.waiting = x.waiting) (hq : x.owner .queue = some thr → holdsQueue st pos = true)
    (hr : x.owner .readline = some thr → holdsReadline pos = true) : Inv y := by
  refine h.move thr (fun u hu => ?_) (fun u hu => ?_) (fun m u hu => ?_) (fun m u hu _ => ?_) (fun hu => ?_)
    fun hu => ?_
  · rw [hpc, update_of_ne hu]
  · rw [hirq, update_of_ne hu]
  · rw [hw] at hu
    exact .inl ⟨ne_of_waiting hb hu, hu⟩
  · rwa [ho] at hu
  · rw [ho] at hu
    rw [hpc, hirq, update_self, update_self]
    exact hq hu
  · rw [ho] at hu
    rw [hpc, update_self]
    exact hr hu

theorem Inv.signal {st : List SignalAt} {pos : SignalAt} (h : Inv x) (hb : ¬ x.Blocked thr) (hi : x.irq thr = pos :: st) :
    Inv (x.execSignal thr st pos) := by
  have hread := h.readline thr
  have hpc : x.pc = update x.pc thr (x.pc thr) := (update_eq_self ..).symm
  cases pos with
  | lockQueue =>
    refine h.lock (x.pc thr) (.first :: st) hb (by rw [hi]; rfl) (fun o => ?_) (fun _ => rfl) fun hr => ?_
    · rw [← hpc]
      rfl
    · exact hread (hr.resolve_left (by decide))
  | first =>
    refine h.pass _ (CondRun.found x.condWaiting.head? :: st) hb hpc rfl rfl rfl (fun _ => ?_) hread
    cases x.condWaiting.head? <;> rfl
  | wake w => exact h.pass _ (.add w :: st) hb hpc rfl rfl rfl (fun _ => rfl) hread
  | add w => exact h.pass _ (.unlink w :: st) hb hpc rfl rfl rfl (fun _ => rfl) hread
  | unlink w => exact h.pass _ (.unlockQueue :: st) hb hpc rfl rfl rfl (fun _ => rfl) hread
  | unlockQueue =>
    have hu := h.unlock .queue (x.pc thr) (st) hb (fun e => absurd rfl e) fun _ => hread
    rw [← hpc] at hu
    exact hu

theorem Inv.wait {req : Request} {pos : WaitAt} (h : Inv x) (hb : ¬ x.Blocked thr) (hi : x.irq thr = [])
    (hp : x.pc thr = .wait req pos) (he : x.execWait thr req pos = some y) : Inv y := by
  have hq := h.queue thr
  have hr := h.readline thr
  have hirq : x.irq = update x.irq thr [] := by rw [← hi, update_eq_self]
  rw [hi, hp] at hq
  rw [hp] at hr
  cases pos with
  | lockQueue =>
    cases he
    refine h.lock (.wait req .link) [] hb (by rw [hi, hp]; rfl) (fun o => ?_) (fun _ => rfl) fun _ => rfl
    rw [← hirq]
    rfl
  | link =>
    cases he
    exact h.pass (.wait req .unlockQueue) [] hb rfl hirq rfl rfl (fun _ => rfl) fun _ => rfl
  | unlockQueue =>
    cases he
    have hu := h.unlock .queue (.wait req .release) [] hb (fun e => absurd rfl e) fun _ _ => rfl
    rwa [← hirq] at hu
  | release =>
    cases he
    have hu := h.unlock .readline (.wait req .switch) [] hb (fun _ => hq) fun e => absurd rfl e
    rwa [← hirq] at hu
  | switch =>
    obtain ⟨-, ⟨⟩⟩ := Option.ite_none_right_eq_some.mp he
    exact h.pass (.wait req .relock) [] hb rfl hirq rfl rfl hq hr
  | relock =>
    cases he
    refine h.lock (.test req) [] hb (by rw [hi, hp]; rfl) (fun o => ?_) (fun ho => ?_) fun _ => rfl
    · rw [← hirq]
      rfl
    · exact hq (ho.resolve_left (by decide))

theorem Inv.reader (h : Inv x) (hb : ¬ x.Blocked thr) (hi : x.irq thr = []) (he : x.execReader thr (x.pc thr) = some y) :
    Inv y := by
  have hq := h.queue thr
  have hirq : x.irq = update x.irq thr [] := by rw [← hi, update_eq_self]
  rw [hi] at hq
  cases hp : x.pc thr with
  | out =>
    rw [hp] at he
    cases he
  | lock req =>
    rw [hp] at he hq
    cases he
    refine h.lock (.test req) [] hb (by rw [hi, hp]; rfl) (fun o => ?_) (fun ho => ?_) fun _ => rfl
    · rw [← hirq]
      rfl
    · exact hq (ho.resolve_left (by decide))
  | test req =>
    rw [hp] at he hq
    obtain ⟨r, -, rfl⟩ := Option.map_eq_some_iff.mp he
    refine h.pass _ [] hb rfl hirq rfl rfl (fun ho => ?_) fun _ => ?_
    · cases hq ho
    · split <;> rfl
  | wait req pos =>
    rw [hp] at he
    exact h.wait hb hi hp he
  | unlock =>
    rw [hp] at he hq
    cases he
    have hu := h.unlock .readline (.out) [] hb (fun _ => hq) fun e => absurd rfl e
    rwa [← hirq] at hu

theorem Inv.exec (h : Inv x) (he : x.exec thr = some y) : Inv y := by
  unfold IrqRun.exec at he
  split at he
  · cases he
  rename_i hb
  split at he
  · rename_i pos st hi
    cases he
    exact h.signal hb hi
  · rename_i hi
    exact h.reader hb hi he

theorem Inv.key {c : Byte} (h : Inv x) (hb : ¬ x.Blocked thr) (hok : Careful c thr x) : Inv (x.enqueueScancode c thr) := by
  have hpc : x.pc = update x.pc thr (x.pc thr) := (update_eq_self ..).symm
  unfold enqueueScancode
  split
  · rename_i hc
    exact h.pass _ (.lockQueue :: x.irq thr) hb hpc rfl rfl rfl (fun ho => absurd ho (hok hc)) (h.readline thr)
  · exact ⟨h.waits, h.queue, h.readline⟩

theorem Inv.step (h : Inv x) (hs : Step Careful x y) : Inv y := by
  cases hs with
  | @call thr req hp hi =>
    have hq := h.queue thr
    have hr := h.readline thr
    rw [hi, hp] at hq
    rw [hp] at hr
    refine h.move thr (fun u hu => update_of_ne hu ..) (fun _ _ => rfl) (fun m u hu => .inl ⟨?_, hu⟩)
      (fun _ _ ho _ => ho) (fun ho => absurd (hq ho) (by decide)) fun ho => absurd (hr ho) (by decide)
    rintro rfl
    have := h.waits m u hu
    rw [hi, hp] at this
    cases this
  | run he => exact h.exec he
  | key hb hok => exact h.key hb hok

end

/-! ## Runs -/

inductive Act where
  | call (thr : Word)
  | run (thr : Word)
  | key (c : Byte) (thr : Word)

instance (c : Byte) (thr : Word) (x : IrqRun) : Decidable (Careful c thr x) := inferInstanceAs (Decidable (_ → _))

def act (ok : Byte → Word → IrqRun → Prop) [∀ c thr x, Decidable (ok c thr x)] (x : IrqRun) : Act → Option IrqRun
  | .call thr => if x.pc thr = .out ∧ x.irq thr = [] then some (x.goto thr (.lock .char)) else none
  | .run thr => x.exec thr
  | .key c thr => if ¬ x.Blocked thr ∧ ok c thr x then some (x.enqueueScancode c thr) else none

theorem act_step (ok : Byte → Word → IrqRun → Prop) [∀ c thr x, Decidable (ok c thr x)] (x : IrqRun) (a : Act) (y : IrqRun)
    (h : x.act ok a = some y) : Step ok x y := by
  cases a with
  | call thr =>
    obtain ⟨⟨hp, hi⟩, ⟨⟩⟩ := Option.ite_none_right_eq_some.mp h
    exact .call hp hi
  | run thr => exact .run h
  | key c thr =>
    obtain ⟨⟨hb, hok⟩, ⟨⟩⟩ := Option.ite_none_right_eq_some.mp h
    exact .key hb hok

/-- Keys that come while the interrupted thread does not hold the queue's mutex make no
thread wait for itself. -/
theorem keyboard_no_self_wait {x : IrqRun} (h : Reach (· = start) (Step Careful) x) : NoSelfWait x := by
  have hi : Inv x := by
    refine h.invariant (fun x hx => ?_) fun _ _ hi hs => hi.step hs
    subst hx
    exact ⟨fun m thr hm => absurd hm List.not_mem_nil, fun thr ho => absurd ho (by simp [start]),
      fun thr ho => absurd ho (by simp [start])⟩
  exact hi.noSelfWait

/-- A reader is interrupted after it has left the queue. -/
theorem keyboard_no_self_wait_signal : ∃ x, Reach (· = start) (Step Careful) x ∧ x.owner .queue = some 1#32 ∧
    NoSelfWait x := by
  have h : ([.call 1#32, .run 1#32, .run 1#32, .run 1#32, .run 1#32, .run 1#32, .key newline 1#32, .run 1#32].foldlM
      (act Careful) start).any fun x => x.owner .queue = some 1#32 := by decide +kernel
  have h₀ : Reach (· = start) (Step Careful) start := .start rfl
  obtain ⟨x, hx, ho⟩ := h₀.script (act_step Careful) h
  exact ⟨x, hx, by simpa using ho, keyboard_no_self_wait hx⟩

/-- A newline comes while a reader puts itself on the queue. -/
theorem keyboard_self_wait : ∃ x, Reach (· = start) (Step fun _ _ _ => True) x ∧ ¬ NoSelfWait x := by
  have h : ([.call 1#32, .run 1#32, .run 1#32, .run 1#32, .key newline 1#32, .run 1#32].foldlM
      (act fun _ _ _ => True) start).any fun x => 1#32 ∈ x.waiting .queue ∧ x.owner .queue = some 1#32 := by
    decide +kernel
  have h₀ : Reach (· = start) (Step fun _ _ _ => True) start := .start rfl
  obtain ⟨x, hx, hp⟩ := h₀.script (act_step fun _ _ _ => True) h
  have hp : 1#32 ∈ x.waiting .queue ∧ x.owner .queue = some 1#32 := by simpa using hp
  exact ⟨x, hx, fun hn => hn .queue 1#32 hp.1 hp.2⟩

end IrqRun

end Pebbles
