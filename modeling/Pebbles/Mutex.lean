import Pebbles.SchedulerSound

/-!
# Mutexes

`mutex.c` over the scheduler: threads lock and unlock one mutex while the rest of
the kernel goes on. `mutex_unlock` frees the mutex and wakes the first waiter,
which tests `value` again when it runs. `mutex_lock_int_save` and
`mutex_unlock_int_save` have the same bodies.
-/

namespace Pebbles

open Words Queues Runs

/-- Where a thread is with respect to the mutex. `woken`: `mutex_unlock` took it
from the waiting list, and it has not tested `value` since. -/
inductive Phase where
  | out
  | waiting
  | woken
  | holding
  deriving DecidableEq

structure MutexRun where
  sched : Sched
  value : Int
  phase : Word → Phase

def Sched.Act.Apart (mp : Word) : Sched.Act → Prop
  | .lock m | .unlock m | .wait _ m _ => m ≠ mp
  | _ => True

def Sched.Act.Leaves : Sched.Act → Prop
  | .lock _ | .wait _ _ _ | .sleep _ | .vanish => True
  | _ => False

namespace MutexRun

def mutexLock (mp thr : Word) (r : MutexRun) : MutexRun :=
  if r.value = 0 then
    { r with
      sched := (r.sched.block (.mutex mp) .waiting thr).contextSwitch
      phase := Function.update r.phase thr .waiting }
  else { r with value := 0, phase := Function.update r.phase thr .holding }

def mutexUnlock (mp thr : Word) (r : MutexRun) : MutexRun where
  sched := r.sched.mutexUnlock mp
  value := 1
  phase :=
    match r.sched.list (.mutex mp) with
    | [] => Function.update r.phase thr .out
    | w :: _ => Function.update (Function.update r.phase thr .out) w .woken

def condWait (cv mp : Word) (status : Status) (thr : Word) (r : MutexRun) : MutexRun :=
  { r.mutexUnlock mp thr with
    sched := ((r.sched.block (.cond cv) status thr).mutexUnlock mp).contextSwitch }

structure Initialised (mp : Word) (r : MutexRun) : Prop where
  reached : r.sched.Reached
  waiting : r.sched.list (.mutex mp) = []
  value : r.value = 1
  phase : ∀ thr, r.phase thr = .out

/-- A thread that was woken goes on to its test: it does nothing else that would
take it off the processor, though it can be preempted. -/
inductive Step (mp : Word) : MutexRun → MutexRun → Prop
  | lock {r thr} : r.sched.currThread = some thr → thr ≠ r.sched.idle → r.phase thr = .out ∨ r.phase thr = .woken →
    Step mp r (r.mutexLock mp thr)
  | unlock {r thr} : r.sched.currThread = some thr → r.phase thr = .holding → Step mp r (r.mutexUnlock mp thr)
  | condWait {r thr cv status} : r.sched.currThread = some thr → thr ≠ r.sched.idle → r.phase thr = .holding →
    status = .waiting ∨ status = .descheduled → Step mp r (r.condWait cv mp status thr)
  | other {r a sched} : Sched.Step a r.sched sched → a.Apart mp →
    (a.Leaves → ∀ thr, r.sched.currThread = some thr → r.phase thr ≠ .woken) → Step mp r { r with sched := sched }

end MutexRun

namespace Sched

def Ready (s : Sched) (thr : Word) : Prop :=
  thr ∈ s.list .runnable ∨ s.currThread = some thr ∧ s.status thr = .running

section
variable {s s' mid : Sched} {h : Head} {thr t mp : Word} {a : Act}

/-! ## The other lists -/

theorem requeue_list (hh : h ≠ .runnable) : s.requeue.list h = s.list h := by
  unfold requeue
  split
  · rfl
  · split
    · simp [setStatus, runqAddThread, addToTail, setList, hh]
    · rfl

theorem contextSwitch_list (hr : h ≠ .runnable) (hs : h ≠ .sleeping) : s.contextSwitch.list h = s.list h := by
  unfold contextSwitch
  rcases nextThread_cases s with ⟨hn, -, -⟩ | ⟨thr, rest, -, hn⟩ | ⟨thr, rest, -, hn⟩ <;> rw [hn] <;> dsimp only
  · split
    · rfl
    · exact requeue_list hr
  · exact (requeue_list hr).trans (Function.update_of_ne hs ..)
  · exact (requeue_list hr).trans (Function.update_of_ne hr ..)

theorem wake_list_of_ne {h' : Head} (hr : h' ≠ .runnable) (hh : h' ≠ h) : (s.wake h thr).list h' = s.list h' := by
  simp [wake, setStatus, runqAddThread, addToTail, delEntry, setList, hr, hh]

theorem wakeFirst_list_of_ne {h' : Head} (hr : h' ≠ .runnable) (hh : h' ≠ h) : (s.wakeFirst h).list h' = s.list h' := by
  unfold wakeFirst
  split
  · rfl
  · exact wake_list_of_ne hr hh

theorem wakeFirst_list (hh : h ≠ .runnable) : (s.wakeFirst h).list h = (s.list h).tail := by
  unfold wakeFirst
  split
  · rename_i hl
    simp [hl]
  · rename_i hl
    simp [wake_list hh, hl]

theorem condBroadcast_list {cv : Word} (hr : h ≠ .runnable) (hh : h ≠ .cond cv) :
    (s.condBroadcast cv).list h = s.list h := by
  unfold condBroadcast
  generalize s.list (.cond cv) = l
  induction l generalizing s with
  | nil => rfl
  | cons thr l ih => exact ih.trans (wake_list_of_ne hr hh)

theorem prepare_list_mutex (hp : Prepare a s mid) (ha : a.Apart mp) : mid.list (.mutex mp) = s.list (.mutex mp) := by
  cases hp with
  | tick => rfl
  | yield _ _ => rfl
  | lock _ _ => exact Function.update_of_ne (by simpa [Act.Apart, eq_comm] using ha) ..
  | wait _ _ _ =>
    refine (wakeFirst_list_of_ne (by simp) (by simpa [Act.Apart, eq_comm] using ha)).trans ?_
    simp [block, addToTail, setStatus, setList]
  | sleep _ _ _ _ => simp [scheduleSleep, setStatus, setList]
  | vanish _ _ => rfl

theorem step_list_mutex (hs : Step a s s') (ha : a.Apart mp) : s'.list (.mutex mp) = s.list (.mutex mp) := by
  cases hs with
  | switch hp => exact (contextSwitch_list (by simp) (by simp)).trans (prepare_list_mutex hp ha)
  | unlock => exact wakeFirst_list_of_ne (by simp) (by simpa [Act.Apart, eq_comm] using ha)
  | signal => exact wakeFirst_list_of_ne (by simp) (by simp)
  | broadcast => exact condBroadcast_list (by simp) (by simp)
  | create _ => simp [createThread, setStatus, runqAddThread, addToTail, setList]

/-! ## Threads that can run -/

theorem requeue_ready (hi : t ≠ s.idle) (h : s.Ready t) : t ∈ s.requeue.list .runnable := by
  unfold requeue
  rcases h with hm | ⟨hc, hr⟩
  · cases hc : s.currThread with
    | none => exact hm
    | some c =>
      dsimp only
      split
      · simp [setStatus, runqAddThread, addToTail, setList, hm]
      · exact hm
  · simp [hc, hr, hi, setStatus, runqAddThread, addToTail, setList]

theorem contextSwitch_ready (hi : t ≠ s.idle) (h : s.Ready t) : s.contextSwitch.Ready t := by
  unfold contextSwitch
  rcases nextThread_cases s with ⟨hn, -, hl⟩ | ⟨thr, rest, hl, hn⟩ | ⟨thr, rest, hl, hn⟩ <;> rw [hn] <;> dsimp only
  · obtain ⟨hc, hr⟩ : s.currThread = some t ∧ s.status t = .running := by simpa [Ready, hl] using h
    rw [if_pos (by simp [staysOn, hc, hr])]
    exact h
  · refine .inl (requeue_ready (s := s.setList .sleeping rest) hi ?_)
    simpa [Ready, setList] using h
  · by_cases ht : t = thr
    · subst ht
      exact .inr ⟨rfl, by simp [switchToThread, setStatus]⟩
    · refine .inl (requeue_ready (s := { s.setList .runnable rest with left := s.left ++ [thr] }) hi ?_)
      simpa [Ready, setList, hl, ht] using h

theorem wake_ready (hk : Inv s) (hh : h ≠ .runnable) (hm : thr ∈ s.list h) (ht : s.Ready t) :
    (s.wake h thr).Ready t := by
  rcases ht with ht | ⟨hc, hr⟩
  · exact .inl (by simp [wake, setStatus, runqAddThread, addToTail, delEntry, setList, hh.symm, ht])
  · have hne : t ≠ thr := fun e => (mem_offCpu.mp (hk.placed.mem hm)).2.2 ⟨e ▸ hc, e ▸ hr⟩
    exact .inr ⟨hc, by simpa [wake, setStatus, runqAddThread, addToTail, delEntry, setList, hne] using hr⟩

theorem wakeFirst_ready (hk : Inv s) (hh : h ≠ .runnable) (ht : s.Ready t) : (s.wakeFirst h).Ready t := by
  unfold wakeFirst
  split
  · exact ht
  · rename_i hl
    exact wake_ready hk hh (by simp [hl]) ht

theorem wakeFirst_ready_head {w : Word} (hh : h ≠ .runnable) (hw : (s.list h).head? = some w) :
    (s.wakeFirst h).Ready w := by
  unfold wakeFirst
  cases hl : s.list h with
  | nil => simp [hl] at hw
  | cons v vs =>
    rw [hl] at hw
    cases hw
    exact .inl (by simp [wake, setStatus, runqAddThread, addToTail, delEntry, setList, hh.symm])

theorem condBroadcast_ready {cv : Word} (hk : Inv s) (ht : s.Ready t) : (s.condBroadcast cv).Ready t := by
  suffices ∀ (l : List Word) (s : Sched), Inv s → s.Ready t → s.list (.cond cv) = l →
      (l.foldl (fun s thr => s.wake (.cond cv) thr) s).Ready t from this _ s hk ht rfl
  intro l
  induction l with
  | nil => exact fun s _ ht _ => ht
  | cons thr l ih =>
    intro s hk ht hl
    have hm : thr ∈ s.list (.cond cv) := by simp [hl]
    exact ih _ (wake_inv hk (by simp) hm) (wake_ready hk (by simp) hm ht) (by simp [wake_list, hl])

theorem prepare_ready (hk : Inv s) (hs : s.Settled) (hp : Prepare a s mid) (ha : a.Leaves → s.currThread ≠ some t)
    (ht : s.Ready t) : mid.Ready t := by
  have hq : a.Leaves → t ∈ s.list .runnable := fun h => ht.resolve_right fun hc => ha h hc.1
  cases hp with
  | tick => exact ht
  | yield _ _ => exact ht
  | lock _ _ => exact .inl (by simpa [block, addToTail, setStatus, setList] using hq trivial)
  | wait hc hi hst =>
    refine wakeFirst_ready (block_inv hk hs hc hi (by simp) hst ?_) (by simp) (.inl ?_)
    · rcases hst with rfl | rfl <;> decide
    · simpa [block, addToTail, setStatus, setList] using hq trivial
  | sleep _ _ _ _ => exact .inl (by simpa [scheduleSleep, setStatus, setList] using hq trivial)
  | vanish _ _ => exact .inl (hq trivial)

theorem step_ready (hk : Inv s) (hs : s.Settled) (hst : Step a s s') (ha : a.Leaves → s.currThread ≠ some t)
    (hi : t ≠ s.idle) (ht : s.Ready t) : s'.Ready t := by
  cases hst with
  | switch hp => exact contextSwitch_ready (prepare_idle hp ▸ hi) (prepare_ready hk hs hp ha ht)
  | unlock => exact wakeFirst_ready hk (by simp) ht
  | signal => exact wakeFirst_ready hk (by simp) ht
  | broadcast => exact condBroadcast_ready hk ht
  | @create _ thr hn =>
    rcases ht with ht | ⟨hc, hr⟩
    · exact .inl (by simp [createThread, setStatus, runqAddThread, addToTail, setList, ht])
    · have hne : t ≠ thr := fun e => hn (e ▸ hk.curr_live hc)
      exact .inr ⟨hc, by simpa [createThread, setStatus, runqAddThread, addToTail, setList, hne] using hr⟩

theorem contextSwitch_idle_eq : s.contextSwitch.idle = s.idle := by
  unfold contextSwitch
  rcases nextThread_cases s with ⟨hn, -, -⟩ | ⟨thr, rest, -, hn⟩ | ⟨thr, rest, -, hn⟩ <;> rw [hn] <;> dsimp only
  · split
    · rfl
    · exact requeue_idle
  · exact requeue_idle
  · exact requeue_idle

theorem wakeFirst_idle : (s.wakeFirst h).idle = s.idle := by
  unfold wakeFirst
  split <;> rfl

theorem condBroadcast_idle {cv : Word} : (s.condBroadcast cv).idle = s.idle := by
  unfold condBroadcast
  generalize s.list (.cond cv) = l
  induction l generalizing s with
  | nil => rfl
  | cons thr l ih => exact ih

theorem step_idle (hs : Step a s s') : s'.idle = s.idle := by
  cases hs with
  | switch hp => exact contextSwitch_idle_eq.trans (prepare_idle hp)
  | unlock => exact wakeFirst_idle
  | signal => exact wakeFirst_idle
  | broadcast => exact condBroadcast_idle
  | create _ => rfl

end

end Sched

namespace MutexRun

structure Inv (mp : Word) (r : MutexRun) : Prop where
  sched : r.sched.Inv ∧ r.sched.Settled
  waiting : ∀ thr, r.phase thr = .waiting ↔ thr ∈ r.sched.list (.mutex mp)
  value : r.value = 0 ∧ (∃ thr, r.phase thr = .holding) ∨ r.value = 1 ∧ ∀ thr, r.phase thr ≠ .holding
  unique : ∀ {t u}, r.phase t = .holding → r.phase u = .holding → t = u
  ready : ∀ {thr}, r.phase thr = .woken → thr ≠ r.sched.idle ∧ r.sched.Ready thr
  woken : r.value = 1 → r.sched.list (.mutex mp) ≠ [] → ∃ thr, r.phase thr = .woken

theorem Initialised.inv {mp : Word} {r : MutexRun} (h : r.Initialised mp) : Inv mp r where
  sched := h.reached.inv
  waiting thr := by simp [h.phase, h.waiting]
  value := .inr ⟨h.value, fun thr => by simp [h.phase]⟩
  unique ht := by simp [h.phase] at ht
  ready ht := by simp [h.phase] at ht
  woken _ hl := absurd h.waiting hl

theorem phase_of_update {phase : Word → Phase} {thr t : Word} {p q : Phase} (hpq : p ≠ q)
    (h : Function.update phase thr q t = p) : phase t = p ∧ t ≠ thr := by
  by_cases ht : t = thr
  · subst ht
    exact absurd (by simpa using h.symm) hpq
  · exact ⟨by simpa [ht] using h, ht⟩

section
variable {mp thr : Word} {r : MutexRun} (hinv : Inv mp r)
include hinv

theorem mutexLock_inv (hc : r.sched.currThread = some thr) (hi : thr ≠ r.sched.idle)
    (hp : r.phase thr = .out ∨ r.phase thr = .woken) : Inv mp (r.mutexLock mp thr) := by
  have hph : r.phase thr ≠ .holding ∧ r.phase thr ≠ .waiting := by rcases hp with h | h <;> simp [h]
  unfold mutexLock
  rcases hinv.value with ⟨hv, u, hu⟩ | ⟨hv, hn⟩
  · rw [if_pos hv]
    have hst : Sched.Step (.lock mp) r.sched (r.sched.block (.mutex mp) .waiting thr).contextSwitch :=
      .switch (.lock hc hi)
    have hlist : (r.sched.block (.mutex mp) .waiting thr).contextSwitch.list (.mutex mp) =
        r.sched.list (.mutex mp) ++ [thr] := by
      rw [Sched.contextSwitch_list (by simp) (by simp)]
      simp [Sched.block, Sched.addToTail, Sched.setStatus, Sched.setList]
    refine ⟨Sched.step_inv hinv.sched hst, fun t => ?_, .inl ⟨hv, u, ?_⟩, fun ht hu => ?_, fun {t} ht => ?_, ?_⟩
    · rw [hlist]
      by_cases ht : t = thr
      · simp [ht]
      · simp [ht, hinv.waiting]
    · simpa [show u ≠ thr from fun e => hph.1 (e ▸ hu)] using hu
    · exact hinv.unique (phase_of_update (by decide) ht).1 (phase_of_update (by decide) hu).1
    · obtain ⟨ht, hne⟩ := phase_of_update (by decide) ht
      obtain ⟨hti, hr⟩ := hinv.ready ht
      refine ⟨Sched.step_idle hst ▸ hti, Sched.step_ready hinv.sched.1 hinv.sched.2 hst (fun _ h => hne ?_) hti hr⟩
      exact Option.some.inj (h.symm.trans hc)
    · exact fun h => absurd (hv.symm.trans h) (by decide)
  · rw [if_neg (by simp [hv])]
    have heq : ∀ {t}, Function.update r.phase thr .holding t = .holding → t = thr := by
      intro t h
      by_contra ht
      exact hn t (by simpa [ht] using h)
    refine ⟨hinv.sched, fun t => ?_, .inl ⟨rfl, thr, by simp⟩, fun ht hu => (heq ht).trans (heq hu).symm,
      fun ht => hinv.ready (phase_of_update (by decide) ht).1, fun h => by cases h⟩
    by_cases ht : t = thr
    · subst ht
      have := mt (hinv.waiting t).mpr hph.2
      simpa using this
    · simp [ht, hinv.waiting]

theorem mutexUnlock_phase (hp : r.phase thr = .holding) {t : Word} :
    (r.mutexUnlock mp thr).phase t =
      if t = thr then .out else if (r.sched.list (.mutex mp)).head? = some t then .woken else r.phase t := by
  unfold mutexUnlock
  cases hl : r.sched.list (.mutex mp) with
  | nil =>
    by_cases ht : t = thr <;> simp [ht]
  | cons w ws =>
    have hw : r.phase w = .waiting := (hinv.waiting w).mpr (by simp [hl])
    have hne : w ≠ thr := fun e => by rw [e, hp] at hw; cases hw
    by_cases ht : t = thr
    · subst ht
      simp [hne.symm]
    · by_cases htw : t = w
      · simp [htw, hne]
      · simp [ht, htw, Ne.symm htw]

structure Released (mp : Word) (s s' : Sched) : Prop where
  inv : s'.Inv ∧ s'.Settled
  list : s'.list (.mutex mp) = (s.list (.mutex mp)).tail
  idle : s'.idle = s.idle
  head : ∀ {t}, (s.list (.mutex mp)).head? = some t → s'.Ready t

theorem released_inv (hp : r.phase thr = .holding) {s' : Sched} (hs : Released mp r.sched s')
    (hready : ∀ {t}, r.phase t = .woken → r.sched.Ready t → s'.Ready t) :
    Inv mp { r.mutexUnlock mp thr with sched := s' } := by
  have hnd : (r.sched.list (.mutex mp)).Nodup := hinv.sched.1.placed.nodup _
  have hthr : thr ∉ r.sched.list (.mutex mp) := fun hm => by
    have := (hinv.waiting thr).mpr hm
    rw [hp] at this
    cases this
  have hholding : ∀ t, (r.mutexUnlock mp thr).phase t ≠ .holding := by
    intro t h
    rw [mutexUnlock_phase hinv hp] at h
    split at h
    · cases h
    · rename_i ht
      split at h
      · cases h
      · exact ht (hinv.unique h hp)
  refine ⟨hs.inv, fun t => ?_, .inr ⟨rfl, hholding⟩, fun ht => absurd ht (hholding _), fun {t} ht => ?_, fun _ hl => ?_⟩
  · show (r.mutexUnlock mp thr).phase t = .waiting ↔ t ∈ s'.list (.mutex mp)
    rw [mutexUnlock_phase hinv hp, hs.list]
    have := hinv.waiting t
    cases hl : r.sched.list (.mutex mp) with
    | nil =>
      rw [hl] at this
      by_cases ht : t = thr <;> simp_all
    | cons w ws =>
      rw [hl] at this hnd hthr
      by_cases ht : t = thr
      · subst ht
        simpa using fun h => hthr (List.mem_cons_of_mem _ h)
      · by_cases htw : t = w
        · subst htw
          simpa [ht] using (List.nodup_cons.mp hnd).1
        · simpa [ht, htw, Ne.symm htw] using this
  · replace ht : (r.mutexUnlock mp thr).phase t = .woken := ht
    show t ≠ s'.idle ∧ s'.Ready t
    rw [mutexUnlock_phase hinv hp] at ht
    rw [hs.idle]
    split at ht
    · cases ht
    · split at ht
      · rename_i hw
        have hm := hinv.sched.1.placed.mem (List.mem_of_mem_head? hw)
        exact ⟨(Sched.mem_offCpu.mp hm).2.1, hs.head hw⟩
      · exact ⟨(hinv.ready ht).1, hready ht (hinv.ready ht).2⟩
  · replace hl : s'.list (.mutex mp) ≠ [] := hl
    rw [hs.list] at hl
    cases hl' : r.sched.list (.mutex mp) with
    | nil => simp [hl'] at hl
    | cons w ws =>
      refine ⟨w, ?_⟩
      rw [hl'] at hthr
      have hne : w ≠ thr := fun e => hthr (by simp [e])
      show (r.mutexUnlock mp thr).phase w = .woken
      simp [mutexUnlock_phase hinv hp, hne, hl']

theorem mutexUnlock_inv (hp : r.phase thr = .holding) : Inv mp (r.mutexUnlock mp thr) :=
  released_inv hinv hp
    { inv := Sched.step_inv hinv.sched .unlock
      list := Sched.wakeFirst_list (by simp)
      idle := Sched.wakeFirst_idle
      head := Sched.wakeFirst_ready_head (by simp) }
    fun _ hr => Sched.wakeFirst_ready hinv.sched.1 (by simp) hr

theorem condWait_inv {cv : Word} {status : Status} (hc : r.sched.currThread = some thr) (hi : thr ≠ r.sched.idle)
    (hp : r.phase thr = .holding) (hst : status = .waiting ∨ status = .descheduled) :
    Inv mp (r.condWait cv mp status thr) := by
  have hstep : Sched.Step (.wait cv mp status) r.sched (r.condWait cv mp status thr).sched := .switch (.wait hc hi hst)
  have hlist : (r.sched.block (.cond cv) status thr).list (.mutex mp) = r.sched.list (.mutex mp) := by
    simp [Sched.block, Sched.addToTail, Sched.setStatus, Sched.setList]
  refine released_inv hinv hp ⟨Sched.step_inv hinv.sched hstep, ?_, Sched.step_idle hstep, fun {w} hw => ?_⟩
    fun {t} ht hr => ?_
  · rw [Sched.contextSwitch_list (by simp) (by simp), Sched.mutexUnlock, Sched.wakeFirst_list (by simp), hlist]
  · have hm := hinv.sched.1.placed.mem (List.mem_of_mem_head? hw)
    refine Sched.contextSwitch_ready ?_ (Sched.wakeFirst_ready_head (by simp) (hlist.symm ▸ hw))
    rw [Sched.mutexUnlock, Sched.wakeFirst_idle]
    exact (Sched.mem_offCpu.mp hm).2.1
  · refine Sched.step_ready hinv.sched.1 hinv.sched.2 hstep (fun _ h => ?_) (hinv.ready ht).1 hr
    cases Option.some.inj (h.symm.trans hc)
    rw [hp] at ht
    cases ht

theorem step_inv {r' : MutexRun} (h : Step mp r r') : Inv mp r' := by
  cases h with
  | lock hc hi hp => exact mutexLock_inv hinv hc hi hp
  | unlock _ hp => exact mutexUnlock_inv hinv hp
  | condWait hc hi hp hst => exact condWait_inv hinv hc hi hp hst
  | other hst ha hl =>
    have hlist := Sched.step_list_mutex hst ha
    refine ⟨Sched.step_inv hinv.sched hst, fun t => ?_, hinv.value, hinv.unique, fun {t} ht => ?_, fun hv hne => ?_⟩
    · rw [hlist]
      exact hinv.waiting t
    · obtain ⟨hti, hr⟩ := hinv.ready ht
      refine ⟨Sched.step_idle hst ▸ hti, Sched.step_ready hinv.sched.1 hinv.sched.2 hst (fun h hc => ?_) hti hr⟩
      exact hl h t hc ht
    · rw [hlist] at hne
      exact hinv.woken hv hne

end

theorem mutex_excludes {mp : Word} {r : MutexRun} (h : Reach (Initialised mp) (Step mp) r) :
    (∀ t u, r.phase t = .holding → r.phase u = .holding → t = u) ∧
    (r.value = 0 ↔ ∃ thr, r.phase thr = .holding) ∧
    (r.sched.list (.mutex mp)).Nodup ∧
    (∀ thr ∈ r.sched.list (.mutex mp), r.sched.status thr = .waiting) ∧
    (r.value = 1 → r.sched.list (.mutex mp) ≠ [] → ∃ thr, r.phase thr = .woken ∧ thr ∉ r.sched.list (.mutex mp) ∧
      (thr ∈ r.sched.list .runnable ∧ r.sched.status thr = .runnable ∨
        r.sched.currThread = some thr ∧ r.sched.status thr = .running)) := by
  have hinv : Inv mp r := Reach.invariant (P := Inv mp) (fun _ => Initialised.inv) (fun _ _ hi hs => step_inv hi hs) h
  refine ⟨fun _ _ => hinv.unique, ?_, hinv.sched.1.placed.nodup _, fun _ => hinv.sched.1.status, fun hv hl => ?_⟩
  · rcases hinv.value with ⟨hv, hh⟩ | ⟨hv, hn⟩
    · simp [hv, hh]
    · simp [hv, hn]
  · obtain ⟨thr, ht⟩ := hinv.woken hv hl
    refine ⟨thr, ht, fun hm => ?_, (hinv.ready ht).2.imp_left fun hm => ⟨hm, hinv.sched.1.status hm⟩⟩
    have := (hinv.waiting thr).mpr hm
    rw [ht] at this
    cases this

def firstLock : MutexRun :=
  MutexRun.mutexLock 64#32 2#32
    { sched := { Sched.bootSched with ticks := 1#32 }.contextSwitch, value := 1, phase := fun _ => .out }

theorem mutex_excludes_locked : firstLock.phase 2#32 = .holding ∧ ∀ t, firstLock.phase t = .holding → t = 2#32 := by
  have hr : Reach (Initialised 64#32) (Step 64#32) firstLock :=
    ((Reach.start (s := ⟨Sched.bootSched, 1, fun _ => .out⟩)
    ⟨.start Sched.bootSched_booted, rfl, rfl, fun _ => rfl⟩).tail
      (.other (.switch .tick) trivial (fun h => h.elim))).tail
      (.lock (by decide +kernel) (by decide +kernel) (.inl rfl))
  have hp : firstLock.phase 2#32 = .holding := by decide +kernel
  exact ⟨hp, fun t ht => (mutex_excludes hr).1 t 2#32 ht hp⟩

end MutexRun

end Pebbles
