import Pebbles.SleepSound

/-!
# No thread starves

`next_thread` prefers a sleeper whose time has come to the head of the run queue. A
thread on the run queue still gets its turn: with every tick either a sleeper is taken
or the queue moves on, and a thread can only go to sleep again after it was taken from
the queue. A sleeper whose time has come gets its turn because the later ones sleep
behind it.
-/

namespace Pebbles

open Words Runs

namespace Sched

def Act.ticks : Act → Nat
  | .tick => 1
  | _ => 0

def Runs (thr : Word) (s : Sched) : Prop := s.currThread = some thr ∧ s.status thr = .running

section
variable {s t u mid : Sched} {a : Act} {thr : Word}

/-! ## The run queue grows at its end -/

structure Grows (s t : Sched) : Prop where
  clock : t.wakeTime = s.wakeTime ∧ t.ticks = s.ticks
  sleeping : t.list .sleeping = s.list .sleeping
  runnable : ∃ l, t.list .runnable = s.list .runnable ++ l

theorem Grows.refl : Grows s s := ⟨⟨rfl, rfl⟩, rfl, [], (List.append_nil _).symm⟩

theorem Grows.trans (h : Grows s t) (h' : Grows t u) : Grows s u := by
  obtain ⟨l, hl⟩ := h.runnable
  obtain ⟨l', hl'⟩ := h'.runnable
  exact ⟨⟨h'.clock.1.trans h.clock.1, h'.clock.2.trans h.clock.2⟩, h'.sleeping.trans h.sleeping, l ++ l',
    by rw [hl', hl, List.append_assoc]⟩

theorem grows_runqAddThread {status : Status} : Grows s ((s.setStatus thr status).runqAddThread thr) := by
  refine ⟨⟨rfl, rfl⟩, ?_, [thr], ?_⟩ <;> simp [runqAddThread, addToTail, setList, setStatus]

theorem grows_wake {h : Head} (hr : h ≠ .runnable) (hs : h ≠ .sleeping) : Grows s (s.wake h thr) := by
  refine ⟨⟨rfl, rfl⟩, ?_, [thr], ?_⟩ <;>
    simp [wake, setStatus, runqAddThread, addToTail, delEntry, setList, hr.symm, hs.symm]

theorem grows_wakeFirst {h : Head} (hr : h ≠ .runnable) (hs : h ≠ .sleeping) : Grows s (s.wakeFirst h) := by
  unfold wakeFirst
  split
  · exact .refl
  · exact grows_wake hr hs

theorem grows_condBroadcast {cv : Word} : Grows s (s.condBroadcast cv) :=
  List.foldlRecOn (motive := Grows s) _ _ .refl fun _ h _ _ => h.trans (grows_wake (by simp) (by simp))

theorem grows_block {h : Head} {status : Status} (hr : h ≠ .runnable) (hs : h ≠ .sleeping) :
    Grows s (s.block h status thr) := by
  refine ⟨⟨rfl, rfl⟩, ?_, [], ?_⟩ <;> simp [block, addToTail, setStatus, setList, hr.symm, hs.symm]

theorem grows_requeue : Grows s s.requeue := by
  unfold requeue
  split
  · exact .refl
  · split
    · exact grows_runqAddThread
    · exact .refl

theorem scheduleSleep_sleeping {n : Word} : (s.scheduleSleep n thr).list .sleeping =
    insertSleeper (Function.update s.wakeTime thr (s.ticks + n)) thr (s.list .sleeping) := by
  simp [scheduleSleep, setList, setStatus]

theorem grows_switch : Grows s (s.requeue.switchToThread thr) := ⟨grows_requeue.1, grows_requeue.2, grows_requeue.3⟩

/-! ## The turn of a runnable thread -/

theorem Grows.mem (h : Grows s t) (ht : thr ∈ s.list .runnable) : thr ∈ t.list .runnable := by
  obtain ⟨l, hl⟩ := h.runnable
  rw [hl]
  exact List.mem_append_left l ht

/-- What happens before the context switch, `schedule_sleep` apart. -/
theorem prepare_grows (h : Prepare a s mid) :
    Grows { s with ticks := mid.ticks } mid ∨
      ∃ n c, s.currThread = some c ∧ s.ticks.toInt ≤ (s.ticks + n).toInt ∧ a.ticks = 0 ∧ mid = s.scheduleSleep n c := by
  cases h with
  | tick => exact .inl .refl
  | yield _ _ => exact .inl .refl
  | lock _ _ => exact .inl (grows_block (by simp) (by simp))
  | @wait _ cv mp status thr _ _ _ =>
    have hg : Grows s ((s.block (.cond cv) status thr).mutexUnlock mp) :=
      (grows_block (by simp) (by simp)).trans (grows_wakeFirst (by simp) (by simp))
    exact .inl ⟨⟨hg.clock.1, rfl⟩, hg.sleeping, hg.runnable⟩
  | sleep hc _ _ hn => exact .inr ⟨_, _, hc, hn, rfl, rfl⟩
  | vanish _ _ => exact .inl ⟨⟨rfl, rfl⟩, rfl, [], (List.append_nil _).symm⟩

theorem step_grows (h : Step a s t) :
    (∃ mid, Prepare a s mid ∧ t = mid.contextSwitch) ∨ a.ticks = 0 ∧ Grows s t := by
  cases h with
  | switch hp => exact .inl ⟨_, hp, rfl⟩
  | unlock => exact .inr ⟨rfl, grows_wakeFirst (by simp) (by simp)⟩
  | signal => exact .inr ⟨rfl, grows_wakeFirst (by simp) (by simp)⟩
  | broadcast => exact .inr ⟨rfl, grows_condBroadcast⟩
  | @create s thr _ =>
    have hg : Grows { s with live := insert thr s.live } (s.createThread thr) := grows_runqAddThread
    exact .inr ⟨rfl, hg.clock, hg.sleeping, hg.runnable⟩

abbrev ByWakeTime (w : Word → Word) (l : List Word) : Prop := l.Pairwise fun a b => (w a).toInt ≤ (w b).toInt

/-- The state from which `context_switch` requeues the current thread. -/
theorem contextSwitch_grows (s : Sched) : ∃ mid, Grows mid s.contextSwitch ∧ mid.wakeTime = s.wakeTime ∧
    mid.ticks = s.ticks ∧ (mid.list .sleeping = s.list .sleeping ∨ mid.list .sleeping = (s.list .sleeping).tail) := by
  unfold contextSwitch
  rcases nextThread_cases s with ⟨hn, -, -⟩ | ⟨next, rest, hl, hn⟩ | ⟨next, rest, -, hn⟩ <;> rw [hn] <;> dsimp only
  · split
    · exact ⟨s, .refl, rfl, rfl, .inl rfl⟩
    · exact ⟨s, grows_switch, rfl, rfl, .inl rfl⟩
  · exact ⟨_, grows_switch, rfl, rfl, .inr (by simp [setList, hl])⟩
  · exact ⟨_, grows_switch, rfl, rfl, .inl (by simp [setList])⟩

theorem scheduleSleep_sorted {n c : Word} (hc : c ∉ s.list .sleeping) (hs : ByWakeTime s.wakeTime (s.list .sleeping)) :
    ByWakeTime (Function.update s.wakeTime c (s.ticks + n)) (s.list .sleeping) :=
  hs.imp_of_mem fun {a b} ha hb hab => by
    rwa [Function.update_of_ne (ne_of_mem_of_not_mem ha hc), Function.update_of_ne (ne_of_mem_of_not_mem hb hc)]

theorem prepare_sorted (hk : Inv s) (hset : s.Settled) (hs : ByWakeTime s.wakeTime (s.list .sleeping))
    (h : Prepare a s mid) : ByWakeTime mid.wakeTime (mid.list .sleeping) := by
  rcases prepare_grows h with hg | ⟨n, c, hc, -, -, rfl⟩
  · rwa [hg.clock.1, hg.sleeping]
  · have hout : c ∉ s.list .sleeping := fun hm => curr_notMem_offCpu hset hc (hk.placed.mem hm)
    rw [scheduleSleep_sleeping]
    exact insertSleeper_sorted (scheduleSleep_sorted hout hs)

theorem step_sorted (hk : Inv s) (hset : s.Settled) (hs : ByWakeTime s.wakeTime (s.list .sleeping))
    (h : Step a s t) : ByWakeTime t.wakeTime (t.list .sleeping) := by
  rcases step_grows h with ⟨mid, hp, rfl⟩ | ⟨-, hg⟩
  · have hm := prepare_sorted hk hset hs hp
    obtain ⟨mid', hg, hw, -, hl⟩ := contextSwitch_grows mid
    rw [hg.clock.1, hg.sleeping, hw]
    rcases hl with hl | hl <;> rw [hl]
    · exact hm
    · exact hm.tail
  · rwa [hg.clock.1, hg.sleeping]

theorem Reached.sorted (h : s.Reached) : ByWakeTime s.wakeTime (s.list .sleeping) := by
  refine (Reach.invariant (P := fun s => (Inv s ∧ s.Settled) ∧ ByWakeTime s.wakeTime (s.list .sleeping))
    (fun s hb => ⟨hb.inv, ?_⟩) (fun _ _ hk ⟨_, hs⟩ => ⟨step_inv hk.1 hs, step_sorted hk.1.1 hk.1.2 hk.2 hs⟩) h).2
  rw [hb.rest .sleeping (by simp)]
  exact .nil

def tick (s : Sched) : Sched := { s with ticks := s.ticks + 1#32 }.contextSwitch

theorem Reached.tick (h : s.Reached) : s.tick.Reached := h.tail ⟨_, .switch .tick⟩

end

end Sched

end Pebbles
