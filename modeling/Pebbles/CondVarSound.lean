import Pebbles.CondVar
import Pebbles.Lib.Sums
import Pebbles.Mutex

/-!
# The run queue takes no thread twice

Apart from the lists of condition variables, a thread is in one place: it runs or
is on one list. A thread that waits on a condition variable can be there as well,
until it has been switched out. A signal that finds only threads that have been
switched out keeps this, since it holds `queue_mutex` until it has added the
thread.
-/

namespace Pebbles

open Words Queues Runs

abbrev Own : Type := { h : Head // ∀ cv, h ≠ .cond cv }

namespace Own

def runnable : Own := ⟨.runnable, by simp⟩

def sleeping : Own := ⟨.sleeping, by simp⟩

def mutex (mp : Word) : Own := ⟨.mutex mp, by simp⟩

end Own

namespace Sched

def queues (s : Sched) : Own → List Word := fun i => s.list i

def conds (s : Sched) : Word → List Word := fun cv => s.list (.cond cv)

section
variable {s s' : Sched} {S : Finset Word} {thr w : Word} {l : List Word}

theorem queues_update {f : Head → List Word} (i : Own) :
    (fun j : Own => Function.update f i l j) = Function.update (fun j : Own => f j) i l := by
  funext j
  by_cases h : j = i
  · simp [h]
  · simp [h, Subtype.val_injective.ne h]

theorem queues_update_cond {f : Head → List Word} {cv : Word} :
    (fun j : Own => Function.update f (.cond cv) l j) = fun j : Own => f j := by
  funext j
  exact Function.update_of_ne (j.2 cv) ..

theorem conds_update {f : Head → List Word} {cv : Word} :
    (fun c => Function.update f (.cond cv) l (.cond c)) = Function.update (fun c => f (.cond c)) cv l := by
  funext c
  by_cases h : c = cv
  · simp [h]
  · simp [h]

theorem conds_update_own {f : Head → List Word} (i : Own) :
    (fun c => Function.update f i l (.cond c)) = fun c => f (.cond c) := by
  funext c
  exact Function.update_of_ne (i.2 c).symm ..

/-! ## Places -/

structure Spread (S : Finset Word) (s : Sched) : Prop where
  placed : Placed S s.queues
  live : S ⊆ s.live
  idle_notMem : s.idle ∉ S
  idle_live : s.idle ∈ s.live

theorem Spread.take (hS : Spread S s) {i : Own} (hl : (s.queues i).Perm (thr :: l))
    (hq : s'.queues = Function.update s.queues i l) (hlive : s'.live = s.live) (hidle : s'.idle = s.idle) :
    Spread (S.erase thr) s' where
  placed := hq ▸ hS.placed.take hl
  live := hlive ▸ (Finset.erase_subset thr S).trans hS.live
  idle_notMem h := hS.idle_notMem (hidle ▸ Finset.mem_of_mem_erase h)
  idle_live := hidle ▸ hlive ▸ hS.idle_live

theorem Spread.put (hS : Spread S s) {i : Own} (ht : thr ∉ S) (hi : thr ≠ s.idle) (hl : l.Perm (thr :: s.queues i))
    (hq : s'.queues = Function.update s.queues i l) (hlive : s.live ⊆ s'.live) (htl : thr ∈ s'.live)
    (hidle : s'.idle = s.idle) : Spread (insert thr S) s' where
  placed := hq ▸ hS.placed.put ht hl
  live := Finset.insert_subset htl (hS.live.trans hlive)
  idle_notMem h := by
    rw [hidle, Finset.mem_insert] at h
    exact h.elim (fun e => hi e.symm) hS.idle_notMem
  idle_live := hidle ▸ hlive hS.idle_live

theorem Spread.congr (hS : Spread S s) (hq : s'.queues = s.queues) (hlive : s'.live = s.live)
    (hidle : s'.idle = s.idle) :
    Spread S s' :=
  ⟨hq ▸ hS.placed, hlive ▸ hS.live, hidle ▸ hS.idle_notMem, hidle ▸ hlive ▸ hS.idle_live⟩

theorem Spread.switchedOut_iff (hS : Spread S s) : s.SwitchedOut w ↔ s.currThread ≠ some w ∧ w ∉ S := by
  rw [hS.placed.mem_iff, not_exists]
  exact and_congr_right fun _ => ⟨fun h i => h i.1 i.2, fun h hd hh => h ⟨hd, hh⟩⟩

def Off (S : Finset Word) (s : Sched) : Prop := ∀ c, s.currThread = some c → c ∈ s.live ∧ c ∉ S

def OffIfRunning (S : Finset Word) (s : Sched) : Prop :=
  ∀ c, s.currThread = some c → c ∈ s.live ∧ (s.status c = .running → c ∉ S)

theorem Off.offIfRunning (h : Off S s) : OffIfRunning S s := fun c hc => ⟨(h c hc).1, fun _ => (h c hc).2⟩

theorem runqAddThread_queues : (s.runqAddThread thr).queues =
    Function.update s.queues .runnable (s.queues .runnable ++ [thr]) :=
  queues_update .runnable

theorem Spread.requeue (hS : Spread S s) (ho : OffIfRunning S s) :
    ∃ S', Spread S' s.requeue ∧ ∀ w, w ∈ S' ↔ w ∈ S ∨
      s.currThread = some w ∧ s.status w = .running ∧ w ≠ s.idle := by
  unfold Sched.requeue
  cases hc : s.currThread with
  | none => exact ⟨S, hS, by simp⟩
  | some c =>
    dsimp only
    split
    · rename_i hr
      have hput : Spread (insert c S) ((s.setStatus c .runnable).runqAddThread c) :=
        hS.put (i := .runnable) ((ho c hc).2 hr.1) hr.2
        (List.perm_append_singleton c _) runqAddThread_queues subset_rfl (ho c hc).1 rfl
      refine ⟨_, hput, fun w => ?_⟩
      rw [Finset.mem_insert, Option.some.injEq]
      constructor
      · rintro (rfl | h)
        · exact .inr ⟨rfl, hr⟩
        · exact .inl h
      · rintro (h | ⟨rfl, -⟩)
        · exact .inr h
        · exact .inl rfl
    · rename_i hr
      refine ⟨S, hS, fun w => ⟨.inl, fun h => h.elim id fun ⟨hw, h⟩ => ?_⟩⟩
      cases hw
      exact absurd h hr

theorem Spread.resume (hS : Spread S s) (ho : OffIfRunning S s) (ht : thr ∉ S) (hlive : thr ∈ s.live)
    (hne : s.currThread = some thr → s.status thr = .running → thr = s.idle) :
    ∃ S', Spread S' (s.requeue.switchToThread thr) ∧ Off S' (s.requeue.switchToThread thr) := by
  obtain ⟨S', hS', hmem⟩ := hS.requeue ho
  refine ⟨S', hS'.congr rfl rfl rfl, fun c hc => ?_⟩
  have : thr = c := Option.some.inj hc
  subst this
  refine ⟨?_, fun hm => ?_⟩
  · rw [← requeue_live] at hlive
    exact hlive
  · rcases (hmem _).mp hm with h | ⟨hcur, hr, hi⟩
    · exact ht h
    · exact hi (hne hcur hr)

theorem Spread.resume_taken (hS : Spread S s) (ho : OffIfRunning S s) {i : Own} (hl : s.queues i = thr :: l)
    (hq : s'.queues = Function.update s.queues i l) (hlive : s'.live = s.live) (hidle : s'.idle = s.idle)
    (hcurr : s'.currThread = s.currThread) (hstatus : s'.status = s.status) :
    ∃ S', Spread S' (s'.requeue.switchToThread thr) ∧ Off S' (s'.requeue.switchToThread thr) := by
  have hm : thr ∈ S := hS.placed.mem (i := i) (by simp [hl])
  have hS' : Spread (S.erase thr) s' := hS.take (hl ▸ .refl _) hq hlive hidle
  refine hS'.resume (fun c hc => ?_) (Finset.notMem_erase thr S) (hlive ▸ hS.live hm) fun hc hr => ?_
  · rw [hcurr] at hc
    rw [hlive, hstatus]
    exact ⟨(ho c hc).1, fun hr h => (ho c hc).2 hr (Finset.mem_of_mem_erase h)⟩
  · rw [hcurr] at hc
    rw [hstatus] at hr
    exact absurd hm ((ho thr hc).2 hr)

theorem Spread.contextSwitch (hS : Spread S s) (ho : OffIfRunning S s) :
    ∃ S', Spread S' s.contextSwitch ∧ Off S' s.contextSwitch := by
  unfold Sched.contextSwitch
  rcases nextThread_cases s with ⟨hn, -, -⟩ | ⟨thr, rest, hl, hn⟩ | ⟨thr, rest, hl, hn⟩ <;> rw [hn] <;> dsimp only
  · split
    · rename_i hs
      refine ⟨S, hS, fun c hc => ⟨(ho c hc).1, ?_⟩⟩
      rcases (by simpa [staysOn, hc] using hs : c = s.idle ∨ s.status c = .running) with rfl | hr
      · exact hS.idle_notMem
      · exact (ho c hc).2 hr
    · exact hS.resume ho hS.idle_notMem hS.idle_live fun _ _ => rfl
  · exact hS.resume_taken (i := .sleeping) ho hl (queues_update .sleeping) rfl rfl rfl rfl
  · exact hS.resume_taken (i := .runnable) ho hl (queues_update .runnable) rfl rfl rfl rfl

theorem Spread.wakeFirst (hS : Spread S s) {i : Own} (hi : i.1 ≠ .runnable) : Spread S (s.wakeFirst i) := by
  unfold Sched.wakeFirst
  split
  · exact hS
  · rename_i thr rest hl
    have hl' : s.queues i = thr :: rest := hl
    have hm : thr ∈ S := hS.placed.mem (i := i) (by simp [hl'])
    have hdel : Spread (S.erase thr) (s.delEntry i thr) :=
      hS.take (i := i) (List.perm_cons_erase (by simp [hl'])) (queues_update i) rfl rfl
    rw [wake_eq hi, ← Finset.insert_erase hm]
    have hne : thr ≠ s.idle := fun e => hS.idle_notMem (e ▸ hm)
    exact hdel.put (i := .runnable) (Finset.notMem_erase thr S) hne (List.perm_append_singleton thr _)
      runqAddThread_queues subset_rfl (hS.live hm) rfl

/-! ## Threads that have been switched out -/

theorem requeue_curr : s.requeue.currThread = s.currThread := by
  unfold Sched.requeue
  split
  · rfl
  · split <;> rfl

theorem mem_requeue {hd : Head} {v : Word} (hm : v ∈ s.requeue.list hd) :
    v ∈ s.list hd ∨ s.currThread = some v ∧ s.status v = .running := by
  unfold Sched.requeue at hm
  split at hm
  · exact .inl hm
  · rename_i c hc
    split at hm
    · rename_i hr
      by_cases hh : hd = .runnable
      · subst hh
        have : v ∈ s.list .runnable ∨ v = c := by simpa [setStatus, runqAddThread, addToTail, setList] using hm
        exact this.imp_right fun (e : v = c) => e ▸ ⟨hc, hr.1⟩
      · exact .inl (by simpa [setStatus, runqAddThread, addToTail, setList, hh] using hm)
    · exact .inl hm

theorem SwitchedOut.requeue (h : SwitchedOut s w) : SwitchedOut s.requeue w :=
  ⟨by rw [requeue_curr]; exact h.1, fun hd hh hm => (mem_requeue hm).elim (h.2 hd hh) fun hc => h.1 hc.1⟩

theorem SwitchedOut.of_sub (h : SwitchedOut s w) (hcurr : s'.currThread = s.currThread)
    (hlist : ∀ hd, ∀ v ∈ s'.list hd, v ∈ s.list hd) : SwitchedOut s' w :=
  ⟨hcurr ▸ h.1, fun hd hh hm => h.2 hd hh (hlist hd w hm)⟩

theorem SwitchedOut.resume (h : SwitchedOut s w) (hne : w ≠ thr) : SwitchedOut (s.requeue.switchToThread thr) w :=
  ⟨fun hc => hne (Option.some.inj hc).symm, h.requeue.2⟩

theorem mem_of_mem_setList {h hd : Head} {v : Word} (hl : ∀ v ∈ l, v ∈ s.list h) (hv : v ∈ (s.setList h l).list hd) :
    v ∈ s.list hd := by
  by_cases hh : hd = h
  · subst hh
    exact hl v (by simpa [setList] using hv)
  · simpa [setList, hh] using hv

theorem SwitchedOut.contextSwitch (h : SwitchedOut s w) (hi : w ≠ s.idle) : SwitchedOut s.contextSwitch w := by
  unfold Sched.contextSwitch
  rcases nextThread_cases s with ⟨hn, -, -⟩ | ⟨thr, rest, hl, hn⟩ | ⟨thr, rest, hl, hn⟩ <;> rw [hn] <;> dsimp only
  · split
    · exact h
    · exact h.resume hi
  all_goals
    have hm : thr ∈ s.list _ := hl ▸ List.mem_cons_self
    have hne : w ≠ thr := fun e => h.2 _ (by simp) (e ▸ hm)
    refine SwitchedOut.resume (h.of_sub rfl fun hd v hv => ?_) hne
    exact mem_of_mem_setList (fun v hv => hl ▸ List.mem_cons_of_mem _ hv) hv

theorem SwitchedOut.add {v : Word} (h : SwitchedOut s w) (hne : w ≠ v) : SwitchedOut (s.runqAddThread v) w := by
  refine ⟨h.1, fun hd hh hm => ?_⟩
  by_cases hr : hd = .runnable
  · subst hr
    rcases (by simpa [runqAddThread, addToTail, setList] using hm : w ∈ s.list .runnable ∨ w = v) with h' | rfl
    · exact h.2 _ hh h'
    · exact hne rfl
  · exact h.2 hd hh (by simpa [runqAddThread, addToTail, setList, hr] using hm)

theorem SwitchedOut.wakeFirst (h : SwitchedOut s w) {hd : Head} (hh : ∀ cv, hd ≠ .cond cv) :
    SwitchedOut (s.wakeFirst hd) w := by
  unfold Sched.wakeFirst
  split
  · exact h
  · rename_i thr rest hl
    have hne : w ≠ thr := fun e => h.2 hd hh (by simp [hl, e])
    refine SwitchedOut.of_sub (s := (s.setStatus thr .runnable).runqAddThread thr) ?_ rfl fun hd' v hv => ?_
    · exact SwitchedOut.add (s := s.setStatus thr .runnable) h hne
    · exact mem_of_mem_setList (fun v hv => List.mem_of_mem_erase hv) hv

theorem SwitchedOut.block (h : SwitchedOut s w) {hd : Head} {status : Status} (hne : w ≠ thr) :
    SwitchedOut (s.block hd status thr) w := by
  refine ⟨h.1, fun hd' hh hm => h.2 hd' hh ?_⟩
  by_cases he : hd' = hd
  · subst he
    rcases (by simpa [Sched.block, addToTail, setStatus, setList] using hm : w ∈ s.list hd' ∨ w = thr) with h' | h'
    · exact h'
    · exact absurd h' hne
  · simpa [Sched.block, addToTail, setStatus, setList, he] using hm

theorem SwitchedOut.setCond (h : SwitchedOut s w) {cv : Word} : SwitchedOut (s.setList (.cond cv) l) w :=
  ⟨h.1, fun hd hh hm => h.2 hd hh (by simpa [setList, hh cv] using hm)⟩

theorem contextSwitch_live : s.contextSwitch.live = s.live := by
  unfold Sched.contextSwitch
  rcases nextThread_cases s with ⟨hn, -, -⟩ | ⟨thr, rest, -, hn⟩ | ⟨thr, rest, -, hn⟩ <;> rw [hn] <;> dsimp only
  · split
    · rfl
    · exact requeue_live
  · exact requeue_live
  · exact requeue_live

theorem contextSwitch_conds : s.contextSwitch.conds = s.conds :=
  funext fun _ => contextSwitch_list (by simp) (by simp)

theorem wakeFirst_live {h : Head} : (s.wakeFirst h).live = s.live := by
  unfold Sched.wakeFirst
  split <;> rfl

theorem wakeFirst_curr {h : Head} : (s.wakeFirst h).currThread = s.currThread := by
  unfold Sched.wakeFirst
  split <;> rfl

theorem wakeFirst_conds {h : Head} (hh : ∀ cv, h ≠ .cond cv) : (s.wakeFirst h).conds = s.conds :=
  funext fun cv => wakeFirst_list_of_ne (by simp) (hh cv).symm

/-! ## Moves of the threads -/

structure Moves (s s' : Sched) : Prop where
  queues : ∃ S, s'.Spread S ∧ s'.Off S
  conds : s'.conds = s.conds
  live : s.live ⊆ s'.live
  idle : s'.idle = s.idle
  out : ∀ w ∈ s.live, w ≠ s.idle → s.SwitchedOut w → s'.SwitchedOut w

section
variable (hS : Spread S s) (ho : Off S s)
include hS

theorem Spread.moves_contextSwitch {s₀ : Sched} (ho : OffIfRunning S s) (hconds : s.conds = s₀.conds)
    (hlive : s.live = s₀.live)
    (hidle : s.idle = s₀.idle) (hout : ∀ w, w ≠ s₀.idle → s₀.SwitchedOut w → s.SwitchedOut w) :
    s₀.Moves s.contextSwitch where
  queues := hS.contextSwitch ho
  conds := contextSwitch_conds.trans hconds
  live := (contextSwitch_live.trans hlive).symm.subset
  idle := contextSwitch_idle_eq.trans hidle
  out w _ hw h := (hout w hw h).contextSwitch (hidle ▸ hw)

include ho

theorem Spread.moves_tick (ticks : Word) : s.Moves { s with ticks := ticks }.contextSwitch :=
  Spread.moves_contextSwitch (s := { s with ticks := ticks }) (hS.congr rfl rfl rfl) (fun c hc => ho.offIfRunning c hc)
    rfl rfl rfl fun _ _ h => h

theorem Spread.moves_block {mp : Word} (hc : s.currThread = some thr) (hi : thr ≠ s.idle) :
    s.Moves (s.block (.mutex mp) .waiting thr).contextSwitch := by
  have hput : (s.block (.mutex mp) .waiting thr).Spread (insert thr S) :=
    hS.put (i := .mutex mp) (ho thr hc).2 hi (List.perm_append_singleton thr _) (queues_update (.mutex mp)) subset_rfl
      (ho thr hc).1 rfl
  have hconds : (s.block (.mutex mp) .waiting thr).conds = s.conds :=
    conds_update_own (f := s.list) (l := s.list (.mutex mp) ++ [thr]) (.mutex mp)
  refine hput.moves_contextSwitch (fun c hc' => ?_) hconds rfl rfl fun w _ hw => ?_
  · have : c = thr := Option.some.inj (hc'.symm.trans hc)
    subst this
    exact ⟨(ho c hc).1, fun hr => by simp [block, setStatus] at hr⟩
  · exact hw.block fun e => hw.1 (e ▸ hc)

theorem Spread.moves_create (hn : thr ∉ s.live) : s.Moves (s.createThread thr) := by
  have hsub : s.live ⊆ (s.createThread thr).live := Finset.subset_insert thr _
  have hput : (s.createThread thr).Spread (insert thr S) :=
    hS.put (i := .runnable) (fun hm => hn (hS.live hm)) (fun e => hn (e ▸ hS.idle_live))
    (List.perm_append_singleton thr _)
      runqAddThread_queues hsub (Finset.mem_insert_self thr _) rfl
  refine ⟨⟨_, hput, fun c hc => ⟨hsub (ho c hc).1, fun hm => ?_⟩⟩, ?_, hsub, rfl, fun w hw _ hout => ?_⟩
  · rcases Finset.mem_insert.mp hm with rfl | hm
    · exact hn (ho c hc).1
    · exact (ho c hc).2 hm
  · exact conds_update_own (f := s.list) (l := s.list .runnable ++ [thr]) .runnable
  · have hne : w ≠ thr := fun e => hn (e ▸ hw)
    exact SwitchedOut.add (s := { s with live := insert thr s.live }.setStatus thr .runnable) hout hne

theorem Spread.moves_mutexUnlock {mp : Word} (hlist : s'.list = s.list) (hcurr : s'.currThread = s.currThread)
    (hlive : s'.live = s.live) (hidle : s'.idle = s.idle) : s.Moves (s'.mutexUnlock mp) := by
  have hq : s'.queues = s.queues := by unfold queues; rw [hlist]
  have hS' : (s'.mutexUnlock mp).Spread S := (hS.congr hq hlive hidle).wakeFirst (i := .mutex mp) (by simp [Own.mutex])
  refine ⟨⟨S, hS', fun c hc => ?_⟩, ?_, (wakeFirst_live.trans hlive).symm.subset, wakeFirst_idle.trans hidle,
    fun w _ _ hw => ?_⟩
  · rw [mutexUnlock, wakeFirst_curr, hcurr] at hc
    rw [mutexUnlock, wakeFirst_live, hlive]
    exact ho c hc
  · refine (wakeFirst_conds (by simp)).trans ?_
    unfold conds
    rw [hlist]
  · exact (SwitchedOut.of_sub hw hcurr fun hd v hv => hlist ▸ hv).wakeFirst (by simp)

end

end

end Sched

namespace Frame

def holds (cv : Word) : Frame → Bool
  | .wait c _ _ pos => c = cv && (pos = .link || pos = .unlockQueue)
  | .signal _ c pos => c = cv && pos ≠ .lockQueue
  | _ => false

def claim : Frame → Option (Word × Word)
  | .signal _ cv (.wake w) | .signal _ cv (.add w) => some (cv, w)
  | _ => none

def IsSignal : Frame → Prop
  | .signal _ _ _ => True
  | _ => False

def Legal (cvs : Finset Word) (isIdle : Prop) : Frame → Prop
  | .lock mp | .unlock mp => CondRun.Plain cvs mp ∧ ¬ isIdle
  | .yield => ¬ isIdle
  | .wait cv mp status _ =>
    (cv ∈ cvs ∧ CondRun.Plain cvs mp ∧ (status = .waiting ∨ status = .descheduled)) ∧ ¬ isIdle
  | .signal _ cv _ => cv ∈ cvs

end Frame

namespace CondRun

def held (cv : Word) (st : List Frame) : Nat := st.countP (·.holds cv)

def Owed (cvs : Finset Word) (x : CondRun) : Prop :=
  ∀ cv ∈ cvs, ∑ thr, held cv (x.stack thr) ≤ if x.value (queueMutex cv) = 0 then 1 else 0

structure Inv (cvs : Finset Word) (x : CondRun) : Prop where
  queues : ∃ S, x.sched.Spread S ∧ x.sched.Off S
  conds : ∃ L, Placed L x.sched.conds ∧ L ⊆ x.sched.live.erase x.sched.idle
  legal : ∀ thr, ∀ f ∈ x.stack thr, f.Legal cvs (thr = x.sched.idle)
  owed : Owed cvs x
  claims : ∀ thr, ∀ f ∈ x.stack thr, ∀ cv w, f.claim = some (cv, w) → w ∈ x.sched.conds cv ∧ x.sched.SwitchedOut w

theorem queueMutex_inj {c cv : Word} : queueMutex c = queueMutex cv ↔ c = cv := by
  simp [queueMutex]

section
variable {cvs : Finset Word} {x y : CondRun} {thr cv mp : Word} {st : List Frame} {f : Frame}

@[simp] theorem held_cons : held cv (f :: st) = held cv st + if f.holds cv then 1 else 0 := List.countP_cons

/-! ## Who holds the queues -/

theorem sum_held (c : Word) (hstack : y.stack = Function.update x.stack thr st) :
    ∑ t, held c (y.stack t) + held c (x.stack thr) = ∑ t, held c (x.stack t) + held c st := by
  have := Sums.sum_change (S := Finset.univ) (p := thr) (g := fun t => held c (x.stack t))
    (k := fun t => held c (y.stack t)) (Finset.mem_univ thr) fun t _ ht => by simp [hstack, ht]
  simpa [hstack] using this

theorem Owed.same (h : Owed cvs x) (hstack : y.stack = Function.update x.stack thr st)
    (hheld : ∀ c, held c st ≤ held c (x.stack thr)) (hv : ∀ c ∈ cvs, y.value (queueMutex c) = x.value (queueMutex c)) :
    Owed cvs y := by
  intro c hc
  have := sum_held c hstack
  have := h c hc
  have := hheld c
  rw [hv c hc]
  omega

theorem Owed.lock (h : Owed cvs x) (hstack : y.stack = Function.update x.stack thr st)
    (hheld : ∀ c, held c st ≤ held c (x.stack thr) + if c = cv then 1 else 0) (hv0 : x.value (queueMutex cv) ≠ 0)
    (hv : y.value = Function.update x.value (queueMutex cv) 0) : Owed cvs y := by
  intro c hc
  have hsum := sum_held c hstack
  have hle := h c hc
  have hst := hheld c
  by_cases hcv : c = cv
  · subst hcv
    rw [if_neg hv0] at hle
    rw [if_pos rfl] at hst
    rw [hv, Function.update_self, if_pos rfl]
    omega
  · rw [if_neg hcv] at hst
    rw [hv, Function.update_of_ne (mt queueMutex_inj.mp hcv)]
    omega

theorem Owed.unlock (h : Owed cvs x) (hstack : y.stack = Function.update x.stack thr st)
    (hheld : ∀ c, held c st + (if c = cv then 1 else 0) ≤ held c (x.stack thr))
    (hv : y.value = Function.update x.value (queueMutex cv) 1) : Owed cvs y := by
  intro c hc
  have hsum := sum_held c hstack
  have hle := h c hc
  have hst := hheld c
  by_cases hcv : c = cv
  · subst hcv
    rw [if_pos rfl] at hst
    rw [hv, Function.update_self, if_neg (by decide)]
    have : (if x.value (queueMutex c) = 0 then 1 else 0) ≤ 1 := by split <;> simp
    omega
  · rw [if_neg hcv] at hst
    rw [hv, Function.update_of_ne (mt queueMutex_inj.mp hcv)]
    omega

theorem Owed.unique (h : Owed cvs x) (hcv : cv ∈ cvs) {t : Word} {g : Frame} (hx : x.stack thr = f :: st)
    (hf : f.holds cv) (hg : g.holds cv) (hmem : g ∈ x.stack t) : t = thr ∧ g ∉ st := by
  have hle : ∑ t, held cv (x.stack t) ≤ 1 := (h cv hcv).trans (by split <;> simp)
  have hpos : ∀ {st : List Frame}, g ∈ st → 1 ≤ held cv st := fun hm => List.countP_pos_iff.mpr ⟨g, hm, hg⟩
  have hthr : held cv (x.stack thr) = held cv st + 1 := by simp [hx, hf]
  constructor
  · by_contra hne
    have := Sums.two_le_sum (Finset.mem_univ t) (Finset.mem_univ thr) hne (g := fun t => held cv (x.stack t))
      (hpos hmem)
      (by omega)
    omega
  · intro hm
    have : held cv (x.stack thr) ≤ ∑ t, held cv (x.stack t) :=
      Finset.single_le_sum (f := fun t => held cv (x.stack t)) (fun _ _ => Nat.zero_le _) (Finset.mem_univ thr)
    have := hpos hm
    omega

/-! ## Sections that keep the lists of the condition variables -/

def Carried (cvs : Finset Word) (thr : Word) (x : CondRun) (st : List Frame) : Prop :=
  ∀ f ∈ st, f.Legal cvs (thr = x.sched.idle) ∧ ∀ p, f.claim = some p → ∃ g ∈ x.stack thr, g.claim = some p

theorem Inv.carried (h : Inv cvs x) (hsub : ∀ f ∈ st, f ∈ x.stack thr) : Carried cvs thr x st :=
  fun f hf => ⟨h.legal thr f (hsub f hf), fun _ hp => ⟨f, hsub f hf, hp⟩⟩

theorem Carried.cons (h : Carried cvs thr x st) (hl : f.Legal cvs (thr = x.sched.idle))
    (hc : ∀ p, f.claim = some p → ∃ g ∈ x.stack thr, g.claim = some p) : Carried cvs thr x (f :: st) := by
  intro g hg
  rcases List.mem_cons.mp hg with rfl | hg
  · exact ⟨hl, hc⟩
  · exact h g hg

theorem Inv.moves (h : Inv cvs x) (hm : x.sched.Moves y.sched) (hstack : y.stack = Function.update x.stack thr st)
    (hst : Carried cvs thr x st) (ho : Owed cvs y) : Inv cvs y := by
  obtain ⟨L, hL, hlive⟩ := h.conds
  have hclaim : ∀ t, ∀ f ∈ x.stack t, ∀ c w, f.claim = some (c, w) → w ∈ y.sched.conds c ∧ y.sched.SwitchedOut w := by
    intro t f hf c w hcl
    obtain ⟨hw, hout⟩ := h.claims t f hf c w hcl
    rw [hm.conds]
    obtain ⟨hi, hl⟩ := Finset.mem_erase.mp (hlive (hL.mem hw))
    exact ⟨hw, hm.out w hl hi hout⟩
  have hL' : L ⊆ y.sched.live.erase y.sched.idle := hm.idle ▸ hlive.trans (Finset.erase_subset_erase _ hm.live)
  refine ⟨hm.queues, ⟨L, hm.conds ▸ hL, hL'⟩, fun t f hf => ?_, ho, fun t f hf c w hcl => ?_⟩
  · rw [hm.idle]
    by_cases ht : t = thr
    · subst ht
      rw [hstack, Function.update_self] at hf
      exact (hst f hf).1
    · rw [hstack, Function.update_of_ne ht] at hf
      exact h.legal t f hf
  · by_cases ht : t = thr
    · subst ht
      rw [hstack, Function.update_self] at hf
      obtain ⟨g, hg, hgc⟩ := (hst f hf).2 _ hcl
      exact hclaim t g hg c w hgc
    · rw [hstack, Function.update_of_ne ht] at hf
      exact hclaim t f hf c w hcl

theorem Inv.moves_refl (h : Inv cvs x) : x.sched.Moves x.sched := ⟨h.queues, rfl, subset_rfl, rfl, fun _ _ _ h => h⟩

theorem Inv.contextSwitch (h : Inv cvs x) : x.sched.Moves x.sched.contextSwitch := by
  obtain ⟨S, hS, ho⟩ := h.queues
  exact hS.moves_contextSwitch ho.offIfRunning rfl rfl rfl fun _ _ h => h

theorem Inv.block (h : Inv cvs x) (hc : x.sched.currThread = some thr) (hi : thr ≠ x.sched.idle) :
    x.sched.Moves (x.sched.block (.mutex mp) .waiting thr).contextSwitch := by
  obtain ⟨S, hS, ho⟩ := h.queues
  exact hS.moves_block ho hc hi

theorem Inv.wakeFirst (h : Inv cvs x) {s' : Sched} (hlist : s'.list = x.sched.list)
    (hcurr : s'.currThread = x.sched.currThread)
    (hlive : s'.live = x.sched.live) (hidle : s'.idle = x.sched.idle) : x.sched.Moves (s'.mutexUnlock mp) := by
  obtain ⟨S, hS, ho⟩ := h.queues
  exact hS.moves_mutexUnlock ho hlist hcurr hlive hidle

theorem Inv.mutexLock (h : Inv cvs x) (hc : x.sched.currThread = some thr) (hi : thr = x.sched.idle → x.value mp ≠ 0)
    (hst : Carried cvs thr x st) (ho : x.value mp ≠ 0 → Owed cvs (x.mutexLock mp thr st)) :
    Inv cvs (x.mutexLock mp thr st) := by
  by_cases hv : x.value mp = 0
  · have hself : x.stack = Function.update x.stack thr (x.stack thr) := (Function.update_eq_self thr x.stack).symm
    unfold CondRun.mutexLock
    rw [if_pos hv]
    exact h.moves (h.block hc fun e => hi e hv) hself (h.carried fun _ hf => hf) h.owed
  · have hy := ho hv
    unfold CondRun.mutexLock at hy ⊢
    rw [if_neg hv] at hy ⊢
    exact h.moves h.moves_refl rfl hst hy

theorem mutexLock_stack (hv : x.value mp ≠ 0) : (x.mutexLock mp thr st).stack = Function.update x.stack thr st := by
  rw [CondRun.mutexLock, if_neg hv]

theorem mutexLock_value (hv : x.value mp ≠ 0) : (x.mutexLock mp thr st).value = Function.update x.value mp 0 := by
  rw [CondRun.mutexLock, if_neg hv]

theorem Inv.lockPlain (h : Inv cvs x) (hc : x.sched.currThread = some thr) (hi : thr ≠ x.sched.idle)
    (hp : Plain cvs mp) (hx : x.stack thr = f :: st) : Inv cvs (x.mutexLock mp thr st) := by
  refine h.mutexLock hc (fun e => absurd e hi) (h.carried fun g hg => hx ▸ List.mem_cons_of_mem f hg) fun hv => ?_
  refine h.owed.same (mutexLock_stack hv) (fun c => ?_) fun c hcv => ?_
  · rw [hx, held_cons]
    omega
  · rw [mutexLock_value hv, Function.update_of_ne (hp c hcv).symm]

theorem Inv.unlockPlain (h : Inv cvs x) (hp : Plain cvs mp) {s' : Sched} (hm : x.sched.Moves (s'.mutexUnlock mp))
    (hst : Carried cvs thr x st) (hheld : ∀ c, held c st ≤ held c (x.stack thr)) :
    Inv cvs ({ x with sched := s' }.mutexUnlock mp thr st) := by
  refine h.moves hm rfl hst (h.owed.same rfl hheld fun c hcv => ?_)
  exact Function.update_of_ne (hp c hcv).symm ..

theorem Inv.lockQueue {f' : Frame} (h : Inv cvs x) (hc : x.sched.currThread = some thr)
    (hi : thr = x.sched.idle → x.value (queueMutex cv) ≠ 0) (hx : x.stack thr = f :: st)
    (hl : f'.Legal cvs (thr = x.sched.idle)) (hcl : f'.claim = none)
    (hh : ∀ c, f'.holds c = true ↔ c = cv) : Inv cvs (x.mutexLock (queueMutex cv) thr (f' :: st)) := by
  refine h.mutexLock hc hi ((h.carried fun g hg => hx ▸ List.mem_cons_of_mem f hg).cons hl (by simp [hcl])) fun hv => ?_
  refine h.owed.lock (mutexLock_stack hv) (fun c => ?_) hv (mutexLock_value hv)
  rw [hx, held_cons, held_cons]
  simp only [hh]
  omega

theorem Inv.unlockQueue (h : Inv cvs x) (hst : Carried cvs thr x st)
    (hheld : ∀ c, held c st + (if c = cv then 1 else 0) ≤ held c (x.stack thr)) :
    Inv cvs (x.mutexUnlock (queueMutex cv) thr st) :=
  h.moves (h.wakeFirst rfl rfl rfl rfl) rfl hst (h.owed.unlock rfl hheld rfl)

/-! ## Sections that change the lists of the condition variables -/

theorem Inv.goto_top (h : Inv cvs x) (hx : x.stack thr = f :: st) {f' : Frame} {s' : Sched}
    (hq : ∃ S, s'.Spread S ∧ s'.Off S) (hL : ∃ L, Placed L s'.conds ∧ L ⊆ s'.live.erase s'.idle)
    (hidle : s'.idle = x.sched.idle) (hl : f'.Legal cvs (thr = x.sched.idle)) (hheld : ∀ c, f'.holds c = f.holds c)
    (hothers : ∀ t, ∀ g ∈ x.stack t, (t = thr → g ∈ st) → ∀ c w, g.claim = some (c, w) →
      w ∈ s'.conds c ∧ s'.SwitchedOut w)
    (hclaim : ∀ c w, f'.claim = some (c, w) → w ∈ s'.conds c ∧ s'.SwitchedOut w) :
    Inv cvs (x.goto thr (f' :: st) s') := by
  have hmem : ∀ {t g}, g ∈ (x.goto thr (f' :: st) s').stack t → (t = thr ∧ g = f') ∨ g ∈ x.stack t ∧
    (t = thr → g ∈ st) := by
    intro t g hg
    by_cases ht : t = thr
    · subst ht
      rcases List.mem_cons.mp (by simpa [goto] using hg) with rfl | hg
      · exact .inl ⟨rfl, rfl⟩
      · exact .inr ⟨hx ▸ List.mem_cons_of_mem f hg, fun _ => hg⟩
    · exact .inr ⟨by simpa [goto, ht] using hg, fun e => absurd e ht⟩
  refine ⟨hq, hL, fun t g hg => ?_, ?_, fun t g hg c w hcl => ?_⟩
  · show g.Legal cvs (t = s'.idle)
    rw [hidle]
    rcases hmem hg with ⟨rfl, rfl⟩ | ⟨hg, -⟩
    · exact hl
    · exact h.legal t g hg
  · refine h.owed.same rfl (fun c => ?_) fun _ _ => rfl
    rw [hx, held_cons, held_cons, hheld]
  · rcases hmem hg with ⟨rfl, rfl⟩ | ⟨hg, hst⟩
    · exact hclaim c w hcl
    · exact hothers t g hg hst c w hcl

theorem Inv.link {mp : Word} {status : Status} (h : Inv cvs x) (hc : x.sched.currThread = some thr)
    (hx : x.stack thr = .wait cv mp status .link :: st) (hun : x.sched.Unlinked thr) :
    Inv cvs (x.goto thr (.wait cv mp status .unlockQueue :: st) (x.sched.addToTail (.cond cv) thr)) := by
  obtain ⟨S, hS, ho⟩ := h.queues
  obtain ⟨L, hL, hlive⟩ := h.conds
  have hleg := h.legal thr _ (hx ▸ List.mem_cons_self)
  have hconds : (x.sched.addToTail (.cond cv) thr).conds = Function.update x.sched.conds cv
    (x.sched.conds cv ++ [thr]) :=
    Sched.conds_update
  have hnew : thr ∉ L := fun hm => by
    obtain ⟨c, hm⟩ := hL.mem_iff.mp hm
    exact hun c hm
  refine h.goto_top hx ⟨S, hS.congr Sched.queues_update_cond rfl rfl, ho⟩
    ⟨insert thr L, hconds ▸ hL.put_tail hnew, ?_⟩ rfl
    hleg (by simp [Frame.holds]) (fun t g hg _ c w hcl => ?_) (by simp [Frame.claim])
  · exact Finset.insert_subset (Finset.mem_erase.mpr ⟨hleg.2, (ho thr hc).1⟩) hlive
  · obtain ⟨hw, hout⟩ := h.claims t g hg c w hcl
    refine ⟨?_, hout.setCond⟩
    rw [hconds]
    by_cases hcv : c = cv
    · subst hcv
      simp [hw]
    · simpa [hcv] using hw

theorem holds_of_claim {c w : Word} (h : f.claim = some (c, w)) : f.holds c = true := by
  unfold Frame.claim at h
  split at h
  · cases h
    simp [Frame.holds]
  · cases h
    simp [Frame.holds]
  · cases h

theorem Inv.find {all : Bool} {pos : SignalAt} (h : Inv cvs x) (hx : x.stack thr = .signal all cv pos :: st)
    (hpos : pos ≠ .lockQueue) {s' : Sched} (hq : ∃ S, s'.Spread S ∧ s'.Off S)
    (hL : ∃ L, Placed L s'.conds ∧ L ⊆ s'.live.erase s'.idle) (hidle : s'.idle = x.sched.idle) {o : Option Word}
    (hothers : ∀ t, ∀ g ∈ x.stack t, (t = thr → g ∈ st) → ∀ c w, g.claim = some (c, w) →
      w ∈ s'.conds c ∧ s'.SwitchedOut w)
    (hfound : ∀ w, o = some w → w ∈ s'.conds cv ∧ s'.SwitchedOut w) :
    Inv cvs (x.goto thr (.signal all cv (found o) :: st) s') := by
  have hleg := h.legal thr _ (hx ▸ List.mem_cons_self)
  refine h.goto_top hx hq hL hidle hleg (fun c => ?_) hothers fun c w hcl => ?_
  · cases o <;> simp [found, Frame.holds, hpos]
  · cases o with
    | none => cases hcl
    | some v =>
      cases hcl
      exact hfound _ rfl

theorem Inv.first {all : Bool} (h : Inv cvs x) (hx : x.stack thr = .signal all cv .first :: st)
    (hok : ∀ w, (x.sched.list (.cond cv)).head? = some w → x.sched.SwitchedOut w) :
    Inv cvs (x.goto thr (.signal all cv (found (x.sched.list (.cond cv)).head?) :: st) x.sched) :=
  h.find hx (by simp) h.queues h.conds rfl (fun t g hg _ => h.claims t g hg) fun w hw =>
  ⟨List.mem_of_mem_head? hw, hok w hw⟩

theorem Inv.wake {all : Bool} {w : Word} (h : Inv cvs x) (hx : x.stack thr = .signal all cv (.wake w) :: st) :
    Inv cvs (x.goto thr (.signal all cv (.add w) :: st) (x.sched.setStatus w .runnable)) := by
  have hf : Frame.signal all cv (.wake w) ∈ x.stack thr := hx ▸ List.mem_cons_self
  have hcv : cv ∈ cvs := h.legal thr _ hf
  obtain ⟨S, hS, ho⟩ := h.queues
  refine h.goto_top hx ⟨S, hS.congr rfl rfl rfl, ho⟩ h.conds rfl hcv (by simp [Frame.holds])
    (fun t g hg _ => h.claims t g hg) fun c v hcl => ?_
  cases hcl
  exact h.claims thr _ hf cv w rfl

theorem Inv.add {all : Bool} {w : Word} (h : Inv cvs x) (hx : x.stack thr = .signal all cv (.add w) :: st) :
    Inv cvs (x.goto thr (.signal all cv (.unlink w) :: st) (x.sched.runqAddThread w)) := by
  obtain ⟨S, hS, ho⟩ := h.queues
  obtain ⟨L, hL, hlive⟩ := h.conds
  have hf : Frame.signal all cv (.add w) ∈ x.stack thr := hx ▸ List.mem_cons_self
  have hcv : cv ∈ cvs := h.legal thr _ hf
  obtain ⟨hw, hout⟩ := h.claims thr _ hf cv w rfl
  obtain ⟨hi, hwl⟩ := Finset.mem_erase.mp (hlive (hL.mem hw))
  have hput : (x.sched.runqAddThread w).Spread (insert w S) :=
    hS.put (i := .runnable) (hS.switchedOut_iff.mp hout).2 hi
    (List.perm_append_singleton w _) Sched.runqAddThread_queues
      subset_rfl hwl rfl
  have hconds : (x.sched.runqAddThread w).conds = x.sched.conds :=
    Sched.conds_update_own (f := x.sched.list) (l := x.sched.list .runnable ++ [w]) .runnable
  refine h.goto_top hx ⟨_, hput, fun c hc => ?_⟩ ⟨L, hconds ▸ hL, hlive⟩ rfl hcv (by simp [Frame.holds])
    (fun t g hg hst c v hcl => ?_) (by simp [Frame.claim])
  · refine ⟨(ho c hc).1, fun hm => ?_⟩
    rcases Finset.mem_insert.mp hm with rfl | hm
    · exact hout.1 hc
    · exact (ho c hc).2 hm
  · obtain ⟨hv, hvout⟩ := h.claims t g hg c v hcl
    refine ⟨hconds ▸ hv, hvout.add ?_⟩
    -- A second call that has found `w` would hold the same queue.
    rintro rfl
    have : c = cv := hL.unique hv hw
    subst this
    obtain ⟨rfl, hn⟩ := h.owed.unique hcv hx (by simp [Frame.holds]) (holds_of_claim hcl) hg
    exact hn (hst rfl)

theorem mem_of_nextEntry {w v : Word} {l : List Word} (h : nextEntry w l = some v) : v ∈ l.erase w := by
  induction l with
  | nil => cases h
  | cons u us ih =>
    by_cases hu : u = w
    · subst hu
      rw [List.erase_cons_head]
      exact List.mem_of_mem_head? (by simpa [nextEntry] using h)
    · rw [List.erase_cons_tail (by simpa using hu)]
      exact List.mem_cons_of_mem u (ih (by simpa [nextEntry, hu] using h))

theorem Inv.unlink {all : Bool} {w : Word} (h : Inv cvs x) (hx : x.stack thr = .signal all cv (.unlink w) :: st)
    (hok : all = true → ∀ v, nextEntry w (x.sched.list (.cond cv)) = some v → x.sched.SwitchedOut v) :
    Inv cvs (x.goto thr (.signal all cv (found (if all then nextEntry w (x.sched.list (.cond cv)) else none)) :: st)
      (x.sched.delEntry (.cond cv) w)) := by
  obtain ⟨S, hS, ho⟩ := h.queues
  obtain ⟨L, hL, hlive⟩ := h.conds
  have hf : Frame.signal all cv (.unlink w) ∈ x.stack thr := hx ▸ List.mem_cons_self
  have hcv : cv ∈ cvs := h.legal thr _ hf
  have hqueues : (x.sched.delEntry (.cond cv) w).queues = x.sched.queues := Sched.queues_update_cond
  have hconds : (x.sched.delEntry (.cond cv) w).conds = Function.update x.sched.conds cv ((x.sched.conds cv).erase w) :=
    Sched.conds_update
  have hL' : ∃ L, Placed L (x.sched.delEntry (.cond cv) w).conds ∧ L ⊆ x.sched.live.erase x.sched.idle := by
    rw [hconds]
    by_cases hw : w ∈ x.sched.conds cv
    · exact ⟨_, hL.take (List.perm_cons_erase hw), (Finset.erase_subset w L).trans hlive⟩
    · rw [List.erase_of_not_mem hw, Function.update_eq_self]
      exact ⟨L, hL, hlive⟩
  refine h.find hx (by simp) ⟨S, hS.congr hqueues rfl rfl, ho⟩ hL' rfl (fun t g hg hst c v hcl => ?_) fun v hv => ?_
  · obtain ⟨hv, hvout⟩ := h.claims t g hg c v hcl
    refine ⟨?_, hvout.setCond⟩
    rw [hconds]
    by_cases hcc : c = cv
    · subst hcc
      obtain ⟨rfl, hn⟩ := h.owed.unique hcv hx (by simp [Frame.holds]) (holds_of_claim hcl) hg
      exact absurd (hst rfl) hn
    · simpa [hcc] using hv
  · cases all with
    | false => cases hv
    | true =>
      refine ⟨?_, (hok rfl v hv).setCond⟩
      rw [hconds, Function.update_self]
      exact mem_of_nextEntry hv

/-! ## Runs -/

theorem Inv.exec (h : Inv cvs x) (hc : x.sched.currThread = some thr) (hx : x.stack thr = f :: st) (hok : Careful x) :
    Inv cvs (x.exec thr st f) := by
  have hleg := h.legal thr f (hx ▸ List.mem_cons_self)
  have hst : Carried cvs thr x st := h.carried fun g hg => hx ▸ List.mem_cons_of_mem f hg
  have hcare := hok thr hc
  rw [hx] at hcare
  cases f with
  | lock mp => exact h.lockPlain hc hleg.2 hleg.1 hx
  | unlock mp =>
    refine h.unlockPlain hleg.1 (h.wakeFirst rfl rfl rfl rfl) hst fun c => ?_
    rw [hx, held_cons]
    omega
  | yield =>
    refine h.moves h.contextSwitch rfl hst (h.owed.same rfl (fun c => ?_) fun _ _ => rfl)
    rw [hx, held_cons]
    omega
  | wait cv mp status pos =>
    have hcons : ∀ pos', Carried cvs thr x (.wait cv mp status pos' :: st) := fun pos' =>
      hst.cons (show Frame.Legal cvs _ (.wait cv mp status pos') from hleg) (by simp [Frame.claim])
    cases pos with
    | lockQueue =>
      refine h.lockQueue hc (fun e => absurd e hleg.2) hx
        (show Frame.Legal cvs _ (.wait cv mp status .link) from hleg) rfl
        fun c => ?_
      simp [Frame.holds, eq_comm]
    | link => exact h.link hc hx hcare
    | unlockQueue =>
      refine h.unlockQueue (hcons _) fun c => ?_
      simp [hx, Frame.holds, eq_comm]
    | release =>
      refine h.unlockPlain hleg.1.2.1 (h.wakeFirst rfl rfl rfl rfl) (hcons _) fun c => ?_
      simp [hx, Frame.holds]
    | switch =>
      refine h.moves h.contextSwitch rfl (hcons _) (h.owed.same rfl (fun c => ?_) fun _ _ => rfl)
      simp [hx, Frame.holds]
    | relock => exact h.lockPlain hc hleg.2 hleg.1.2.1 hx
  | signal all cv pos =>
    cases pos with
    | lockQueue =>
      refine h.lockQueue hc hcare hx (show Frame.Legal cvs _ (.signal all cv .first) from hleg) rfl fun c => ?_
      simp [Frame.holds, eq_comm]
    | first => exact h.first hx hcare
    | wake w => exact h.wake hx
    | add w => exact h.add hx
    | unlink w =>
      refine h.unlink hx fun hall => ?_
      subst hall
      exact hcare
    | unlockQueue =>
      refine h.unlockQueue hst fun c => ?_
      simp [hx, Frame.holds, eq_comm]

theorem Inv.create (h : Inv cvs x) (hn : thr ∉ x.sched.live) : Inv cvs (x.goto thr [] (x.sched.createThread thr)) := by
  obtain ⟨S, hS, ho⟩ := h.queues
  exact h.moves (hS.moves_create ho hn) rfl (fun _ hf => absurd hf List.not_mem_nil)
    (h.owed.same rfl (fun c => Nat.zero_le _) fun _ _ => rfl)

theorem Inv.vanish (h : Inv cvs x) (hc : x.sched.currThread = some thr) (hi : thr ≠ x.sched.idle)
    (hun : x.sched.Unlinked thr) : Inv cvs { x with sched := (x.sched.freeThread thr).contextSwitch } := by
  obtain ⟨S, hS, ho⟩ := h.queues
  obtain ⟨L, hL, hlive⟩ := h.conds
  have hfree : (x.sched.freeThread thr).Spread S :=
    ⟨hS.placed, fun t ht => Finset.mem_erase.mpr ⟨fun e => (ho thr hc).2 (e ▸ ht), hS.live ht⟩, hS.idle_notMem,
      Finset.mem_erase.mpr ⟨hi.symm, hS.idle_live⟩⟩
  have hL' : L ⊆ (x.sched.freeThread thr).contextSwitch.live.erase (x.sched.freeThread thr).contextSwitch.idle := by
    rw [Sched.contextSwitch_live, Sched.contextSwitch_idle_eq]
    intro t ht
    obtain ⟨cv, hm⟩ := hL.mem_iff.mp ht
    obtain ⟨hti, htl⟩ := Finset.mem_erase.mp (hlive ht)
    exact Finset.mem_erase.mpr ⟨hti, Finset.mem_erase.mpr ⟨fun e => hun cv (e ▸ hm), htl⟩⟩
  refine ⟨hfree.contextSwitch nofun, ⟨L, ?_, hL'⟩, fun t f hf => ?_, h.owed, fun t f hf c w hcl => ?_⟩
  · show Placed L (x.sched.freeThread thr).contextSwitch.conds
    rw [Sched.contextSwitch_conds]
    exact hL
  · show f.Legal cvs (t = (x.sched.freeThread thr).contextSwitch.idle)
    rw [Sched.contextSwitch_idle_eq]
    exact h.legal t f hf
  · obtain ⟨hw, hout⟩ := h.claims t f hf c w hcl
    have hwi : w ≠ x.sched.idle := Finset.ne_of_mem_erase (hlive (hL.mem hw))
    refine ⟨?_, Sched.SwitchedOut.contextSwitch (s := x.sched.freeThread thr) ⟨nofun, hout.2⟩ hwi⟩
    show w ∈ (x.sched.freeThread thr).contextSwitch.conds c
    rw [Sched.contextSwitch_conds]
    exact hw

theorem Inv.tick (h : Inv cvs x) :
    Inv cvs { x with sched := { x.sched with ticks := x.sched.ticks + 1#32 }.contextSwitch } := by
  obtain ⟨S, hS, ho⟩ := h.queues
  have hself : x.stack = Function.update x.stack 0 (x.stack 0) := (Function.update_eq_self 0 x.stack).symm
  exact h.moves (hS.moves_tick ho _) hself (h.carried fun _ hf => hf) h.owed

theorem legal_of_entry {isIdle : Prop} (hf : Entry cvs f) (hi : ¬ isIdle) :
    f.Legal cvs isIdle ∧ f.claim = none ∧ ∀ c, f.holds c = false := by
  cases f with
  | lock mp => exact ⟨⟨hf, hi⟩, rfl, fun _ => rfl⟩
  | unlock mp => exact ⟨⟨hf, hi⟩, rfl, fun _ => rfl⟩
  | yield => exact ⟨hi, rfl, fun _ => rfl⟩
  | wait cv mp status pos =>
    obtain ⟨hcv, hp, hst, rfl⟩ := hf
    exact ⟨⟨⟨hcv, hp, hst⟩, hi⟩, rfl, fun c => by simp [Frame.holds]⟩
  | signal all cv pos =>
    obtain ⟨hcv, rfl⟩ := hf
    exact ⟨hcv, rfl, fun c => by simp [Frame.holds]⟩

theorem Inv.step (h : Inv cvs x) (hs : Step Careful cvs x y) : Inv cvs y := by
  cases hs with
  | tick => exact h.tick
  | @keyboard thr cv hc hcv =>
    refine h.moves h.moves_refl rfl ((h.carried fun _ hf => hf).cons hcv (by simp [Frame.claim])) ?_
    refine h.owed.same rfl (fun c => ?_) fun _ _ => rfl
    simp [Frame.holds]
  | @call thr f hc hi hx hf =>
    obtain ⟨hleg, hcl, hh⟩ := legal_of_entry hf hi
    have hst : Carried cvs thr x [f] := Carried.cons (fun _ hg => absurd hg List.not_mem_nil) hleg (by simp [hcl])
    refine h.moves (y := x.goto thr [f] x.sched) h.moves_refl rfl hst (h.owed.same rfl (fun c => ?_) fun _ _ => rfl)
    simp [hx, held, hh]
  | run hc hx hok => exact h.exec hc hx hok
  | create hn => exact h.create hn
  | @vanish thr hc hi hx hok =>
    have := hok thr hc
    rw [hx] at this
    exact h.vanish hc hi this

theorem Booted.inv (h : x.Booted) : Inv cvs x := by
  obtain ⟨thr, hne, hlive, -, hl, -⟩ := h.sched.first
  have hq : x.sched.queues = Function.update (fun _ => []) .runnable ((fun _ : Own => []) .runnable ++ [thr]) := by
    funext i
    by_cases hi : i = .runnable
    · subst hi
      exact hl.trans (by simp)
    · rw [Function.update_of_ne hi]
      exact h.sched.rest i fun e => hi (Subtype.ext e)
  have hc : x.sched.conds = fun _ => [] := funext fun cv => h.sched.rest _ (by simp)
  refine ⟨⟨insert thr ∅, ⟨hq ▸ Placed.empty.put_tail (Finset.notMem_empty thr), ?_, ?_, ?_⟩, fun c hc => ?_⟩,
    ⟨∅, hc ▸ Placed.empty, Finset.empty_subset _⟩, fun t f hf => ?_, fun c _ => ?_, fun t f hf => ?_⟩
  · simp [hlive]
  · simp [hne.symm]
  · simp [hlive]
  · rw [h.sched.curr] at hc
    cases hc
    simp [hlive, hne.symm]
  · simp [h.stack] at hf
  · simp [h.stack, held]
  · simp [h.stack] at hf

end

/-! ## A waiter that is interrupted -/

section
variable {ok : CondRun → Prop} {cvs : Finset Word} {x : CondRun} (thr : Word)

end

end CondRun

end Pebbles
