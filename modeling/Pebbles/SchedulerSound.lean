import Pebbles.Lib.Queues
import Pebbles.Lib.Runs
import Pebbles.Scheduler

/-!
# Every thread has one place

Threads that do not run are on exactly one list, with the status that belongs to
it. During a context switch the next thread is on no list, and a thread that
blocks is already on its list while it is still current.
-/

namespace Pebbles

open Words Queues Runs

def Head.Holds : Head → Status → Prop
  | .runnable, status => status = .runnable
  | .sleeping, status => status = .waiting
  | .mutex _, status => status = .waiting
  | .cond _, status => status = .waiting ∨ status = .descheduled

namespace Sched

def offCpu (s : Sched) : Finset Word :=
  (s.live.erase s.idle).filter fun thr => ¬ (s.currThread = some thr ∧ s.status thr = .running)

structure Keeps (S : Finset Word) (s : Sched) : Prop where
  placed : Placed S s.list
  status : ∀ {h thr}, thr ∈ s.list h → h.Holds (s.status thr)
  idle_live : s.idle ∈ s.live
  curr_live : ∀ {thr}, s.currThread = some thr → thr ∈ s.live
  idle_running : s.currThread = some s.idle → s.status s.idle = .running
  fifo : s.entered = s.left ++ s.list .runnable

abbrev Inv (s : Sched) : Prop := Keeps s.offCpu s

def Settled (s : Sched) : Prop := ∃ thr, s.currThread = some thr ∧ s.status thr = .running

theorem mem_offCpu {s : Sched} {thr : Word} : thr ∈ s.offCpu ↔
    thr ∈ s.live ∧ thr ≠ s.idle ∧ ¬ (s.currThread = some thr ∧ s.status thr = .running) := by
  simp only [offCpu, Finset.mem_filter, Finset.mem_erase]
  tauto

theorem idle_notMem_offCpu {s : Sched} : s.idle ∉ s.offCpu := fun h => (mem_offCpu.mp h).2.1 rfl

section
variable {S : Finset Word} {s : Sched} {h : Head} {thr : Word} {l : List Word}

/-! ## Taking a thread from a list and putting it on one -/

theorem Keeps.take (hk : Keeps S s) (hl : (s.list h).Perm (thr :: l)) {left : List Word}
    (hleft : s.left ++ s.list .runnable = left ++ Function.update s.list h l .runnable) :
    Keeps (S.erase thr) { s.setList h l with left := left } := by
  refine ⟨hk.placed.take hl, fun {h' t} ht => hk.status (h := h') ?_, hk.idle_live, hk.curr_live,
    hk.idle_running, hk.fifo.trans hleft⟩
  by_cases hh : h' = h
  · subst hh
    simp only [setList, Function.update_self] at ht
    exact hl.mem_iff.mpr (List.mem_cons_of_mem _ ht)
  · simpa only [setList, Function.update_of_ne hh] using ht

theorem Keeps.put {status : Status} (hk : Keeps S s) (ht : thr ∉ S) (hi : thr ≠ s.idle)
    (hl : l.Perm (thr :: s.list h)) (hh : h.Holds status) {entered : List Word}
    (hentered : entered = s.left ++ Function.update s.list h l .runnable) :
    Keeps (insert thr S) { (s.setList h l).setStatus thr status with entered := entered } := by
  refine ⟨hk.placed.put ht hl, fun {h' t} hm => ?_, hk.idle_live, hk.curr_live, fun hc => ?_, hentered⟩
  · have hmem : (t = thr ∧ h' = h) ∨ t ∈ s.list h' := by
      by_cases hh' : h' = h
      · subst hh'
        simp only [setStatus, setList, Function.update_self, hl.mem_iff, List.mem_cons] at hm
        exact hm.imp_left fun e => ⟨e, rfl⟩
      · simp only [setStatus, setList, Function.update_of_ne hh'] at hm
        exact .inr hm
    rcases hmem with ⟨rfl, rfl⟩ | hm
    · simpa [setStatus] using hh
    · have hne : t ≠ thr := fun e => ht (e ▸ hk.placed.mem hm)
      simpa [setStatus, setList, hne] using hk.status hm
  · have := hk.idle_running hc
    simpa [setStatus, setList, hi.symm] using this

theorem Keeps.enqueue (hk : Keeps S s) (ht : thr ∉ S) (hi : thr ≠ s.idle) :
    Keeps (insert thr S) ((s.setStatus thr .runnable).runqAddThread thr) := by
  have hp := List.perm_append_singleton thr (s.list .runnable)
  exact hk.put ht hi hp rfl (by simp [hk.fifo, setStatus])

/-! ## The context switch -/

theorem nextThread_cases (s : Sched) :
    (s.nextThread = (none, s) ∧ s.due = none ∧ s.list .runnable = []) ∨
    (∃ thr rest, s.list .sleeping = thr :: rest ∧ s.nextThread = (some thr, s.setList .sleeping rest)) ∨
    ∃ thr rest, s.list .runnable = thr :: rest ∧
      s.nextThread = (some thr, { s.setList .runnable rest with left := s.left ++ [thr] }) := by
  unfold nextThread getSleepingThread
  cases hd : s.due with
  | some thr =>
    refine .inr (.inl ?_)
    unfold due at hd
    cases hl : s.list .sleeping with
    | nil => simp [hl] at hd
    | cons t rest =>
      rw [hl] at hd
      dsimp only at hd
      split at hd
      · cases hd
        exact ⟨thr, rest, rfl, rfl⟩
      · cases hd
  | none =>
    dsimp only
    unfold runqGetHead
    cases hl : s.list .runnable with
    | nil => exact .inl ⟨rfl, rfl, rfl⟩
    | cons t rest => exact .inr (.inr ⟨t, rest, rfl, rfl⟩)

def Parked (s : Sched) : Prop := ∀ thr, s.currThread = some thr → thr = s.idle ∨ s.status thr ≠ .running

theorem requeue_live : s.requeue.live = s.live := by
  unfold requeue
  split
  · rfl
  · split <;> rfl

theorem requeue_idle : s.requeue.idle = s.idle := by
  unfold requeue
  split
  · rfl
  · split <;> rfl

theorem Keeps.requeue (hk : Keeps (s.offCpu.erase thr) s) (ht : thr ∈ s.offCpu ∨ thr = s.idle) :
    Keeps (s.requeue.offCpu.erase thr) s.requeue ∧ s.requeue.Parked := by
  unfold Sched.requeue
  cases hc : s.currThread with
  | none => exact ⟨hk, fun _ h => by simp [hc] at h⟩
  | some c =>
    dsimp only
    split
    · rename_i hr
      have hoff : c ∉ s.offCpu := fun h => (mem_offCpu.mp h).2.2 ⟨hc, hr.1⟩
      have hne : c ≠ thr := by
        rintro rfl
        exact ht.elim hoff hr.2
      have hnew : ((s.setStatus c .runnable).runqAddThread c).offCpu = insert c s.offCpu := by
        ext t
        rw [Finset.mem_insert, mem_offCpu, mem_offCpu]
        by_cases htc : t = c
        · subst htc
          simp [setStatus, runqAddThread, addToTail, setList, hk.curr_live hc, hr.2]
        · simp [setStatus, runqAddThread, addToTail, setList, htc]
      refine ⟨?_, fun t h => .inr ?_⟩
      · rw [hnew, Finset.erase_insert_of_ne hne]
        exact hk.enqueue (fun h => hoff (Finset.mem_of_mem_erase h)) hr.2
      · have : t = c := Option.some.inj (h.symm.trans hc)
        subst this
        simp [setStatus, runqAddThread, addToTail, setList]
    · rename_i hr
      refine ⟨hk, fun t h => ?_⟩
      have : t = c := Option.some.inj (h.symm.trans hc)
      subst this
      tauto

theorem Keeps.switchTo (hk : Keeps (s.offCpu.erase thr) s) (hp : s.Parked) (hl : thr ∈ s.live) :
    Inv (s.switchToThread thr) := by
  have hoff : (s.switchToThread thr).offCpu = s.offCpu.erase thr := by
    ext t
    rw [Finset.mem_erase, mem_offCpu, mem_offCpu]
    by_cases htt : t = thr
    · subst htt
      simp [switchToThread, setStatus]
    · have : t ≠ s.idle → ¬ (s.currThread = some t ∧ s.status t = .running) := fun hi hr =>
        (hp t hr.1).elim hi fun h => h hr.2
      simp only [switchToThread, setStatus, Option.some.injEq, Function.update_of_ne htt]
      tauto
  rw [Inv, hoff]
  refine ⟨hk.placed, fun {h t} ht => ?_, hk.idle_live, fun hc => ?_, fun hc => ?_, hk.fifo⟩
  · have hne : t ≠ thr := Finset.ne_of_mem_erase (hk.placed.mem ht)
    simpa [switchToThread, setStatus, hne] using hk.status ht
  · cases hc
    exact hl
  · have : thr = s.idle := Option.some.inj hc
    simp [switchToThread, setStatus, this]

theorem settled_switchToThread : (s.switchToThread thr).Settled :=
  ⟨thr, rfl, by simp [switchToThread, setStatus]⟩

theorem Keeps.resume (hk : Keeps (s.offCpu.erase thr) s) (ht : thr ∈ s.offCpu ∨ thr = s.idle) :
    Inv (s.requeue.switchToThread thr) := by
  obtain ⟨hk', hp⟩ := hk.requeue ht
  refine hk'.switchTo hp ?_
  rw [requeue_live]
  rcases ht with ht | rfl
  · exact (mem_offCpu.mp ht).1
  · exact hk.idle_live

theorem staysOn_settled (hk : Keeps S s) (h : s.staysOn = true) : s.Settled := by
  unfold staysOn at h
  cases hc : s.currThread with
  | none => simp [hc] at h
  | some c =>
    refine ⟨c, hc, ?_⟩
    rcases (by simpa [hc] using h : c = s.idle ∨ s.status c = .running) with rfl | hr
    · exact hk.idle_running hc
    · exact hr

theorem contextSwitch_inv (hk : Inv s) : Inv s.contextSwitch ∧ s.contextSwitch.Settled := by
  unfold contextSwitch
  rcases nextThread_cases s with ⟨hn, -, -⟩ | ⟨thr, rest, hl, hn⟩ | ⟨thr, rest, hl, hn⟩ <;> rw [hn] <;> dsimp only
  · split
    · rename_i hs
      exact ⟨hk, staysOn_settled hk hs⟩
    · have : s.offCpu.erase s.idle = s.offCpu := Finset.erase_eq_of_notMem idle_notMem_offCpu
      exact ⟨Keeps.resume (this.symm ▸ hk) (.inr rfl), settled_switchToThread⟩
  · have hm : thr ∈ s.offCpu := hk.placed.mem (i := .sleeping) (by simp [hl])
    have ht : Keeps (s.offCpu.erase thr) (s.setList .sleeping rest) := hk.take (hl ▸ .refl _) (by simp)
    exact ⟨Keeps.resume ht (.inl hm), settled_switchToThread⟩
  · have hm : thr ∈ s.offCpu := hk.placed.mem (i := .runnable) (by simp [hl])
    have ht : Keeps (s.offCpu.erase thr) { s.setList .runnable rest with left := s.left ++ [thr] } :=
      hk.take (hl ▸ .refl _) (by simp [hl])
    exact ⟨Keeps.resume ht (.inl hm), settled_switchToThread⟩

/-! ## Waking -/

theorem wake_eq (hh : h ≠ .runnable) :
    s.wake h thr = ((s.delEntry h thr).setStatus thr .runnable).runqAddThread thr := by
  simp [wake, setStatus, runqAddThread, addToTail, delEntry, setList, hh, hh.symm, Function.update_comm hh]

theorem Keeps.wake (hk : Keeps S s) (hh : h ≠ .runnable) (hm : thr ∈ s.list h) (hi : thr ≠ s.idle) :
    Keeps S (s.wake h thr) := by
  rw [wake_eq hh, ← Finset.insert_erase (hk.placed.mem hm)]
  have hd : Keeps (S.erase thr) (s.delEntry h thr) :=
    hk.take (List.perm_cons_erase hm) (by rw [Function.update_of_ne hh.symm])
  exact hd.enqueue (Finset.notMem_erase thr S) hi

theorem wake_offCpu (hm : thr ∈ s.offCpu) : (s.wake h thr).offCpu = s.offCpu := by
  ext t
  by_cases ht : t = thr
  · subst ht
    simp only [hm, iff_true]
    have := mem_offCpu.mp hm
    exact mem_offCpu.mpr ⟨this.1, this.2.1, by simp [Sched.wake, setStatus, runqAddThread, addToTail, delEntry, setList]⟩
  · rw [mem_offCpu, mem_offCpu]
    simp [Sched.wake, setStatus, runqAddThread, addToTail, delEntry, setList, ht]

theorem wake_inv (hk : Inv s) (hh : h ≠ .runnable) (hm : thr ∈ s.list h) : Inv (s.wake h thr) := by
  have ho := hk.placed.mem hm
  rw [Inv, wake_offCpu ho]
  exact hk.wake hh hm (mem_offCpu.mp ho).2.1

theorem wake_settled (hk : Inv s) (hs : s.Settled) (hm : thr ∈ s.list h) : (s.wake h thr).Settled := by
  obtain ⟨c, hc, hr⟩ := hs
  have hne : c ≠ thr := fun e => (mem_offCpu.mp (hk.placed.mem hm)).2.2 ⟨e ▸ hc, e ▸ hr⟩
  exact ⟨c, hc, by simpa [Sched.wake, setStatus, runqAddThread, addToTail, delEntry, setList, hne] using hr⟩

theorem wakeFirst_inv (hk : Inv s) (hh : h ≠ .runnable) : Inv (s.wakeFirst h) := by
  unfold wakeFirst
  split
  · exact hk
  · rename_i hl
    exact wake_inv hk hh (by simp [hl])

theorem wakeFirst_settled (hk : Inv s) (hs : s.Settled) : (s.wakeFirst h).Settled := by
  unfold wakeFirst
  split
  · exact hs
  · rename_i hl
    exact wake_settled hk hs (by simp [hl])

theorem wake_list (hh : h ≠ .runnable) : (s.wake h thr).list h = (s.list h).erase thr := by
  simp [Sched.wake, setStatus, runqAddThread, addToTail, delEntry, setList, hh]

theorem condBroadcast_inv {cv : Word} (hk : Inv s) (hs : s.Settled) :
    Inv (s.condBroadcast cv) ∧ (s.condBroadcast cv).Settled := by
  suffices ∀ (l : List Word) (s : Sched), Inv s → s.Settled → s.list (.cond cv) = l →
      Inv (l.foldl (fun s thr => s.wake (.cond cv) thr) s) ∧
      (l.foldl (fun s thr => s.wake (.cond cv) thr) s).Settled from
    this _ s hk hs rfl
  intro l
  induction l with
  | nil => exact fun s hk hs _ => ⟨hk, hs⟩
  | cons thr l ih =>
    intro s hk hs hl
    have hm : thr ∈ s.list (.cond cv) := by simp [hl]
    exact ih _ (wake_inv hk (by simp) hm) (wake_settled hk hs hm) (by simp [wake_list, hl])

/-! ## Blocking -/

theorem offCpu_update {c : Word} (status : Status) {s' : Sched} (hc : s.currThread = some c)
    (hr : s.status c = .running) (hl : c ∈ s.live) (hi : c ≠ s.idle) (hstatus : status ≠ .running)
    (hlive : s'.live = s.live)
    (hidle : s'.idle = s.idle) (hcurr : s'.currThread = s.currThread)
    (hs : s'.status = Function.update s.status c status) : s'.offCpu = insert c s.offCpu := by
  ext t
  rw [Finset.mem_insert, mem_offCpu, mem_offCpu, hlive, hidle, hcurr, hs]
  by_cases ht : t = c
  · subst ht
    simp [hl, hi, hstatus]
  · simp [ht]

theorem insertSleeper_perm (w : Word → Word) (thr : Word) (l : List Word) :
    (insertSleeper w thr l).Perm (thr :: l) := by
  induction l with
  | nil => exact .refl _
  | cons u us ih =>
    unfold insertSleeper
    split
    · exact .refl _
    · exact (ih.cons u).trans (.swap thr u us)

section
variable (hk : Inv s) (hs : s.Settled) (hc : s.currThread = some thr) (hi : thr ≠ s.idle)
include hk hs hc hi

omit hk hi in
theorem Settled.running : s.status thr = .running := by
  obtain ⟨c, hc', hr⟩ := hs
  rw [hc] at hc'
  cases hc'
  exact hr

omit hk hi in
theorem curr_notMem_offCpu : thr ∉ s.offCpu := fun hm => (mem_offCpu.mp hm).2.2 ⟨hc, Settled.running hs hc⟩

theorem block_inv {status : Status} (hh : h ≠ .runnable) (hst : h.Holds status) (hne : status ≠ .running) :
    Inv (s.block h status thr) := by
  have hoff : (s.block h status thr).offCpu = insert thr s.offCpu :=
    offCpu_update status hc (Settled.running hs hc) (hk.curr_live hc) hi hne rfl rfl rfl rfl
  rw [Inv, hoff]
  exact hk.put (curr_notMem_offCpu hs hc) hi (List.perm_append_singleton thr (s.list h)) hst
    (by rw [Function.update_of_ne hh.symm]; exact hk.fifo)

theorem scheduleSleep_inv {ticks : Word} : Inv (s.scheduleSleep ticks thr) := by
  have hoff : (s.scheduleSleep ticks thr).offCpu = insert thr s.offCpu :=
    offCpu_update .waiting hc (Settled.running hs hc) (hk.curr_live hc) hi (by decide) rfl rfl rfl rfl
  rw [Inv, hoff]
  have hw : Keeps s.offCpu { s with wakeTime := Function.update s.wakeTime thr (s.ticks + ticks) } :=
    ⟨hk.placed, hk.status, hk.idle_live, hk.curr_live, hk.idle_running, hk.fifo⟩
  exact hw.put (curr_notMem_offCpu hs hc) hi (insertSleeper_perm ..)
    (show Head.sleeping.Holds .waiting from rfl) hk.fifo

theorem freeThread_inv : Inv (s.freeThread thr) := by
  have hoff : (s.freeThread thr).offCpu = s.offCpu := by
    ext t
    have hne : t ∈ s.offCpu → t ≠ thr := fun hm e => curr_notMem_offCpu hs hc (e ▸ hm)
    rw [mem_offCpu] at hne ⊢
    rw [mem_offCpu]
    simp only [freeThread, Finset.mem_erase, reduceCtorEq, false_and, not_false_eq_true, and_true]
    constructor
    · rintro ⟨⟨ht, hl⟩, hi⟩
      exact ⟨hl, hi, fun h => ht (Option.some.inj (h.1.symm.trans hc))⟩
    · intro hm
      exact ⟨⟨hne hm, hm.1⟩, hm.2.1⟩
  rw [Inv, hoff]
  exact ⟨hk.placed, hk.status, Finset.mem_erase.mpr ⟨hi.symm, hk.idle_live⟩, nofun, nofun, hk.fifo⟩

end

theorem createThread_inv (hk : Inv s) (hs : s.Settled) (hn : thr ∉ s.live) :
    Inv (s.createThread thr) ∧ (s.createThread thr).Settled := by
  have hi : thr ≠ s.idle := fun e => hn (e ▸ hk.idle_live)
  have hcurr : s.currThread ≠ some thr := fun hc => hn (hk.curr_live hc)
  have hoff : (s.createThread thr).offCpu = insert thr s.offCpu := by
    ext t
    rw [Finset.mem_insert, mem_offCpu, mem_offCpu]
    by_cases ht : t = thr
    · subst ht
      simp [createThread, setStatus, runqAddThread, addToTail, setList, hi, hcurr]
    · simp [createThread, setStatus, runqAddThread, addToTail, setList, ht]
  have hlive : Keeps s.offCpu { s with live := insert thr s.live } :=
    ⟨hk.placed, hk.status, Finset.mem_insert_of_mem hk.idle_live, fun hc => Finset.mem_insert_of_mem (hk.curr_live hc),
      hk.idle_running, hk.fifo⟩
  constructor
  · rw [Inv, hoff]
    exact hlive.enqueue (fun hm => hn (mem_offCpu.mp hm).1) hi
  · obtain ⟨c, hc, hr⟩ := hs
    have hne : c ≠ thr := fun e => hcurr (e ▸ hc)
    exact ⟨c, hc, by simpa [createThread, setStatus, runqAddThread, addToTail, setList, hne] using hr⟩

end

/-! ## Runs -/

theorem prepare_inv {a : Act} {s mid : Sched} (hk : Inv s) (hs : s.Settled) (h : Prepare a s mid) : Inv mid := by
  cases h with
  | tick => exact ⟨hk.placed, hk.status, hk.idle_live, hk.curr_live, hk.idle_running, hk.fifo⟩
  | yield _ _ => exact hk
  | lock hc hi => exact block_inv hk hs hc hi (by simp) rfl (by decide)
  | wait hc hi hst =>
    refine wakeFirst_inv (block_inv hk hs hc hi (by simp) hst ?_) (by simp)
    rcases hst with rfl | rfl <;> decide
  | sleep hc hi _ _ => exact scheduleSleep_inv hk hs hc hi
  | vanish hc hi => exact freeThread_inv hk hs hc hi

theorem step_inv {a : Act} {s s' : Sched} (hk : Inv s ∧ s.Settled) (h : Step a s s') : Inv s' ∧ s'.Settled := by
  cases h with
  | switch hp => exact contextSwitch_inv (prepare_inv hk.1 hk.2 hp)
  | unlock => exact ⟨wakeFirst_inv hk.1 (by simp), wakeFirst_settled hk.1 hk.2⟩
  | signal => exact ⟨wakeFirst_inv hk.1 (by simp), wakeFirst_settled hk.1 hk.2⟩
  | broadcast => exact condBroadcast_inv hk.1 hk.2
  | create hn => exact createThread_inv hk.1 hk.2 hn

theorem Booted.inv {s : Sched} (h : s.Booted) : Inv s ∧ s.Settled := by
  obtain ⟨thr, hne, hlive, hst, hl, he⟩ := h.first
  refine ⟨⟨?_, fun {hd t} ht => ?_, ?_, fun hc => ?_, fun _ => h.running, ?_⟩, _, h.curr, h.running⟩
  · have hoff : s.offCpu = insert thr ∅ := by
      ext t
      rw [mem_offCpu, hlive, h.curr]
      by_cases ht : t = s.idle
      · subst ht
        simp [hne.symm]
      · simp [ht, Ne.symm ht]
    have hlist : s.list = Function.update (fun _ => []) .runnable ((fun _ : Head => []) .runnable ++ [thr]) := by
      funext hd
      by_cases hh : hd = .runnable
      · simp [hh, hl]
      · simp [hh, h.rest hd hh]
    rw [hoff, hlist]
    exact Placed.empty.put_tail (Finset.notMem_empty thr)
  · by_cases hh : hd = .runnable
    · subst hh
      rw [hl, List.mem_singleton] at ht
      exact ht ▸ hst
    · simp [h.rest hd hh] at ht
  · simp [hlive]
  · rw [h.curr] at hc
    cases hc
    simp [hlive]
  · simp [he, h.left, hl]

abbrev Reached (s : Sched) : Prop := Reach Booted (fun s s' => ∃ a, Step a s s') s

theorem Reached.inv {s : Sched} (h : s.Reached) : Inv s ∧ s.Settled :=
  Reach.invariant (P := fun s => Inv s ∧ s.Settled) (fun _ hb => hb.inv) (fun _ _ hk ⟨_, hs⟩ => step_inv hk hs) h

theorem contextSwitch_idle {s : Sched} (hk : Inv s) (h : s.contextSwitch.currThread = some s.idle) :
    s.list .runnable = [] ∧ s.due = none ∧ ∀ thr, thr ≠ s.idle →
      ¬ (s.currThread = some thr ∧ s.status thr = .running) := by
  unfold contextSwitch at h
  rcases nextThread_cases s with ⟨hn, hd, hl⟩ | ⟨thr, rest, hl, hn⟩ | ⟨thr, rest, hl, hn⟩ <;> rw [hn] at h <;>
    dsimp only at h
  · refine ⟨hl, hd, fun thr hi hr => ?_⟩
    have : s.staysOn = true := by simp [staysOn, hr.1, hr.2]
    rw [if_pos this, hr.1] at h
    exact hi (Option.some.inj h)
  all_goals
    have hm := hk.placed.mem (show thr ∈ s.list _ by rw [hl]; exact List.mem_cons_self)
    exact absurd (Option.some.inj h) (mem_offCpu.mp hm).2.1

theorem prepare_idle {a : Act} {s mid : Sched} (h : Prepare a s mid) : mid.idle = s.idle := by
  cases h with
  | wait _ _ _ =>
    unfold mutexUnlock wakeFirst
    split <;> rfl
  | _ => rfl

theorem threads_in_one_place {s : Sched} (h : s.Reached) :
    (∀ thr ∈ s.live, thr ≠ s.idle →
      (s.currThread = some thr ∧ s.status thr = .running ∧ ∀ h, thr ∉ s.list h) ∨
      (s.currThread ≠ some thr ∧ (∃! h, thr ∈ s.list h) ∧
        ∀ h, thr ∈ s.list h → (s.list h).count thr = 1 ∧ h.Holds (s.status thr))) ∧
    (∀ h, s.idle ∉ s.list h) ∧
    (∀ a mid, Prepare a s mid → mid.contextSwitch.currThread = some s.idle → mid.list .runnable = [] ∧ mid.due = none ∧
      ∀ thr, thr ≠ s.idle → ¬ (mid.currThread = some thr ∧ mid.status thr = .running)) ∧
    s.entered = s.left ++ s.list .runnable := by
  obtain ⟨hk, hs⟩ := h.inv
  refine ⟨fun thr hlive hi => ?_, fun h hm => idle_notMem_offCpu (hk.placed.mem hm), fun a mid hp hc => ?_, hk.fifo⟩
  · by_cases hc : s.currThread = some thr
    · have hoff := curr_notMem_offCpu hs hc
      exact .inl ⟨hc, Settled.running hs hc, fun h hm => hoff (hk.placed.mem hm)⟩
    · have hm : thr ∈ s.offCpu := mem_offCpu.mpr ⟨hlive, hi, fun hr => hc hr.1⟩
      refine .inr ⟨hc, hk.placed.place hm, fun h hh => ⟨?_, hk.status hh⟩⟩
      exact List.count_eq_one_of_mem (hk.placed.nodup h) hh
  · rw [← prepare_idle hp] at hc ⊢
    exact contextSwitch_idle (prepare_inv hk hs hp) hc

def bootSched : Sched where
  live := {1#32, 2#32}
  status := fun thr => if thr = 1#32 then .running else .runnable
  currThread := some 1#32
  idle := 1#32
  list := Function.update (fun _ => []) .runnable [2#32]
  wakeTime := fun _ => 0#32
  ticks := 0#32
  entered := [2#32]
  left := []

theorem bootSched_booted : bootSched.Booted where
  curr := rfl
  running := rfl
  first := ⟨2#32, by decide, rfl, rfl, rfl, rfl⟩
  rest := fun _ hh => by simp [bootSched, hh]
  left := rfl

/-- At the first tick the first thread runs. -/
theorem threads_in_one_place_tick :
    { bootSched with ticks := 1#32 }.contextSwitch.currThread = some 2#32 ∧
      ∀ h, 1#32 ∉ { bootSched with ticks := 1#32 }.contextSwitch.list h := by
  have hr : { bootSched with ticks := 1#32 }.contextSwitch.Reached :=
    (Reach.start bootSched_booted).tail ⟨.tick, .switch .tick⟩
  exact ⟨by decide +kernel, (threads_in_one_place hr).2.1⟩

end Sched

end Pebbles
