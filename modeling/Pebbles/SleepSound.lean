import Pebbles.Sleep

/-!
# Sleepers wake in the order of their deadlines

The list is kept sorted by every thread that puts itself on it, and the scheduler takes
threads from its front only. A thread that waits to put the list back is the one weak
point: nobody may take the mutex then.
-/

namespace Pebbles

open Words Ring Runs
open Sched (insertSleeper insertSleeper_perm)

/-! ## Sorted lists of sleepers -/

/-- `l` is sorted by deadlines, and threads with one deadline stand in the order in
which they arrived. -/
structure ByDeadline (wakeTime : Word → Word) (arrived l : List Word) : Prop where
  sorted : l.Pairwise fun a b => (wakeTime a).toInt ≤ (wakeTime b).toInt
  stable : ∀ w, l.filter (fun a => wakeTime a = w) = arrived.filter fun a => wakeTime a = w

section
variable {w w' : Word → Word} {arrived l l₁ l₂ : List Word} {t x : Word}

theorem ByDeadline.perm (h : ByDeadline w arrived l) : l.Perm arrived := by
  refine List.perm_iff_count.mpr fun a => ?_
  have hc : ∀ l : List Word, (l.filter fun b => w b = w a).count a = l.count a := fun l =>
    List.count_filter (decide_eq_true rfl)
  rw [← hc l, h.stable, hc]

theorem ByDeadline.first (h : ByDeadline w arrived (x :: l)) :
    (∀ u ∈ arrived, (w x).toInt ≤ (w u).toInt) ∧ (arrived.filter fun u => w u = w x).head? = some x := by
  refine ⟨fun u hu => ?_, ?_⟩
  · cases List.mem_cons.mp (h.perm.mem_iff.mpr hu) with
    | inl e => rw [e]
    | inr hu => exact (List.pairwise_cons.mp h.sorted).1 u hu
  · rw [← h.stable, List.filter_cons_of_pos (by simp)]
    rfl

theorem ByDeadline.tail (h : ByDeadline w arrived (x :: l)) : ByDeadline w (arrived.erase x) l := by
  refine ⟨(List.pairwise_cons.mp h.sorted).2, fun v => ?_⟩
  have hl : (x :: l).erase x = l := List.erase_cons_head x l
  rw [← List.erase_filter, ← h.stable v, List.erase_filter, hl]

theorem ByDeadline.congr (h : ByDeadline w arrived l) (hw : ∀ a ∈ arrived, w' a = w a) : ByDeadline w' arrived l := by
  have hl : ∀ a ∈ l, w' a = w a := fun a ha => hw a (h.perm.mem_iff.mp ha)
  refine ⟨h.sorted.imp_of_mem fun ha hb hab => ?_, fun v => ?_⟩
  · rwa [hl _ ha, hl _ hb]
  · calc l.filter (fun a => w' a = v) = l.filter fun a => w a = v := List.filter_congr fun a ha => by rw [hl a ha]
      _ = arrived.filter fun a => w a = v := h.stable v
      _ = arrived.filter fun a => w' a = v := List.filter_congr fun a ha => by rw [hw a ha]

theorem insertSleeper_sorted (h : l.Pairwise fun a b => (w a).toInt ≤ (w b).toInt) :
    (insertSleeper w t l).Pairwise fun a b => (w a).toInt ≤ (w b).toInt := by
  induction l with
  | nil => exact List.pairwise_singleton _ t
  | cons u us ih =>
    obtain ⟨hu, hus⟩ := List.pairwise_cons.mp h
    unfold insertSleeper
    split
    · rename_i hlt
      refine List.pairwise_cons.mpr ⟨fun b hb => ?_, h⟩
      cases List.mem_cons.mp hb with
      | inl e => rw [e]; omega
      | inr hb => exact (hu b hb).trans' (by omega)
    · refine List.pairwise_cons.mpr ⟨fun b hb => ?_, ih hus⟩
      cases List.mem_cons.mp ((insertSleeper_perm w t us).mem_iff.mp hb) with
      | inl e => rw [e]; omega
      | inr hb => exact hu b hb

theorem insertSleeper_filter (h : l.Pairwise fun a b => (w a).toInt ≤ (w b).toInt) (v : Word) :
    (insertSleeper w t l).filter (fun a => w a = v) = l.filter (fun a => w a = v) ++ [t].filter fun a => w a = v := by
  induction l with
  | nil => rfl
  | cons u us ih =>
    obtain ⟨hu, hus⟩ := List.pairwise_cons.mp h
    unfold insertSleeper
    split
    · rename_i hlt
      by_cases hv : w t = v
      · -- all that follow wake later
        have hnil : (u :: us).filter (fun a => w a = v) = [] := by
          refine List.filter_eq_nil_iff.mpr fun a ha => ?_
          have hle : (w u).toInt ≤ (w a).toInt := by
            cases List.mem_cons.mp ha with
            | inl e => rw [e]
            | inr ha => exact hu a ha
          have hne : w a ≠ v := fun e => by rw [e, ← hv] at hle; omega
          simpa using hne
        rw [List.filter_cons, hnil]
        simp [hv]
      · simp [hv]
    · by_cases hv : w u = v
      · simp [hv, ih hus]
      · simp [hv, ih hus]

theorem ByDeadline.insert (h : ByDeadline w arrived l) : ByDeadline w (arrived ++ [t]) (insertSleeper w t l) := by
  refine ⟨insertSleeper_sorted h.sorted, fun v => ?_⟩
  rw [insertSleeper_filter h.sorted, List.filter_append, h.stable]

theorem insertSleeper_append (h₁ : ∀ x ∈ l₁, ¬ (w t).toInt < (w x).toInt)
    (h₂ : ∀ x ∈ l₂.head?, (w t).toInt < (w x).toInt) : insertSleeper w t (l₁ ++ l₂) = l₁ ++ t :: l₂ := by
  induction l₁ with
  | nil =>
    cases l₂ with
    | nil => rfl
    | cons u us => exact if_pos (h₂ u rfl)
  | cons u us ih =>
    have hu := h₁ u List.mem_cons_self
    rw [List.cons_append, insertSleeper, if_neg hu, ih fun x hx => h₁ x (List.mem_cons_of_mem u hx)]
    rfl

theorem insertSleeper_congr (ht : w' t = w t) (hl : ∀ a ∈ l, w' a = w a) :
    insertSleeper w' t l = insertSleeper w t l := by
  induction l with
  | nil => rfl
  | cons u us ih =>
    unfold insertSleeper
    rw [ht, hl u List.mem_cons_self, ih fun a ha => hl a (List.mem_cons_of_mem u ha)]

end

/-! ## The invariant -/

namespace SleepAt

def busy : SleepAt → Bool
  | .out | .lock | .asleep => false
  | _ => true

def linked : SleepAt → Bool
  | .unlock _ | .putBack _ | .asleep => true
  | _ => false

end SleepAt

namespace SleepRun

def Place (head : Word) (w : Word → Word) (l : List Word) (t : Word) : Option Word → Prop
  | none => l = []
  | some entry => ∃ l₁ l₂, l = l₁ ++ l₂ ∧ entry = l₂.headD head ∧ ∀ x ∈ l₁, ¬ (w t).toInt < (w x).toInt

def Held (head : Word) (s : SleepRun) (l : List Word) (t : Word) : SleepAt → Prop
  | .out | .lock | .asleep => False
  | .take => s.owner = some t ∧ s.sleepingThreads = some head ∧ IsRing s.links head l
  | .hide h => h = some head ∧ s.owner = some t ∧ s.sleepingThreads = some head ∧ IsRing s.links head l
  | .first h => h = some head ∧ s.owner = some t ∧ s.sleepingThreads = none ∧ IsRing s.links head l
  | .loop h entry => h = head ∧ s.owner = some t ∧ s.sleepingThreads = none ∧ IsRing s.links head l ∧
    Place head s.wakeTime l t entry
  | .link h prev next pos => h = head ∧ s.owner = some t ∧ s.sleepingThreads = none ∧
    IsRing (pos.rest t prev next s.links) head (insertSleeper s.wakeTime t l)
  | .unlock h => h = head ∧ s.owner = some t ∧ s.sleepingThreads = none ∧ IsRing s.links head l
  | .putBack h => h = head ∧ s.owner = none ∧ s.sleepingThreads = none ∧ IsRing s.links head l

inductive Phase (head : Word) (s : SleepRun) (l : List Word) : Prop
  | idle : (∀ t, (s.pc t).busy = false) → s.owner = none → s.sleepingThreads = some head → IsRing s.links head l →
    Phase head s l
  | busy (t : Word) : (∀ u, u ≠ t → (s.pc u).busy = false) → Held head s l t (s.pc t) → Phase head s l

structure Inv (head : Word) (s : SleepRun) : Prop where
  notHead : ∀ t, s.pc t ≠ .out → t ≠ head
  arrived : ∀ t, t ∈ s.arrived ↔ (s.pc t).linked = true
  list : ∃ l, ByDeadline s.wakeTime s.arrived l ∧ Phase head s l

section
variable {head t u : Word} {s s' : SleepRun} {l : List Word}

theorem Held.isBusy {pos : SleepAt} (h : Held head s l t pos) : pos.busy = true := by
  cases pos <;> first | exact h.elim | rfl

theorem Booted.inv (h : Booted head s) : Inv head s where
  notHead t ht := absurd (h.pc t) ht
  arrived t := by
    have hl : (s.pc t).linked = false := congrArg SleepAt.linked (h.pc t)
    simp [h.arrived, hl]
  list := by
    refine ⟨[], ⟨List.Pairwise.nil, fun w => ?_⟩, ?_⟩
    · rw [h.arrived]
    · exact .idle (fun t => by rw [h.pc t]; rfl) h.owner h.sleepingThreads h.links

theorem Held.loop_stop {entry : Word} {l₁ l₂ : List Word} (ht : t ∉ head :: (l₁ ++ l₂))
    (hr : IsRing s.links head (l₁ ++ l₂))
    (he : entry = l₂.headD head) (h₁ : ∀ x ∈ l₁, ¬ (s.wakeTime t).toInt < (s.wakeTime x).toInt)
    (h₂ : ∀ x ∈ l₂.head?, (s.wakeTime t).toInt < (s.wakeTime x).toInt) :
    IsRing (AddAt.rest t (s.links.prev entry) entry s.links .newNext) head (insertSleeper s.wakeTime t (l₁ ++ l₂)) := by
  rw [insertSleeper_append h₁ h₂, he]
  exact addToList_ring hr ht

theorem Held.exec (h : Held head s l t (s.pc t)) (ht : (s.pc t).linked = false → t ∉ head :: l)
    (he : s.exec t = some s') :
    s'.wakeTime = s.wakeTime ∧ ∃ pos, s'.pc = Function.update s.pc t pos ∧
      (pos.linked = (s.pc t).linked ∧ s'.arrived = s.arrived ∧ Held head s' l t pos ∨
        pos.linked = true ∧ s'.arrived = s.arrived ++ [t] ∧ Held head s' (insertSleeper s.wakeTime t l) t pos ∨
        pos = .asleep ∧ (s.pc t).linked = true ∧ s'.arrived = s.arrived ∧ s'.owner = none ∧
          s'.sleepingThreads = some head ∧ IsRing s'.links head l) := by
  unfold SleepRun.exec at he
  cases hp : s.pc t with
  | out | lock | asleep =>
    rw [hp] at h
    exact h.elim
  | take =>
    rw [hp] at h he
    obtain ⟨ho, hst, hr⟩ := h
    cases he
    exact ⟨rfl, _, rfl, .inl ⟨rfl, rfl, hst, ho, hst, hr⟩⟩
  | hide hd =>
    rw [hp] at h he
    obtain ⟨hh, ho, hst, hr⟩ := h
    cases he
    exact ⟨rfl, _, rfl, .inl ⟨rfl, rfl, hh, ho, rfl, hr⟩⟩
  | first hd =>
    rw [hp] at h he
    obtain ⟨rfl, ho, hst, hr⟩ := h
    cases he
    refine ⟨rfl, _, rfl, .inl ⟨rfl, rfl, rfl, ho, hst, hr, ?_⟩⟩
    rw [getFirst_eq hr]
    cases l with
    | nil => rfl
    | cons x l => exact ⟨[], x :: l, rfl, rfl, by simp⟩
  | loop hd entry =>
    rw [hp] at h he ht
    replace ht := ht rfl
    obtain ⟨rfl, ho, hst, hr, hpl⟩ := h
    cases entry with
    | none =>
      cases he
      obtain rfl : l = [] := hpl
      refine ⟨rfl, _, rfl, .inl ⟨rfl, rfl, rfl, ho, hst, ?_⟩⟩
      have hr' : IsRing s.links hd ([] ++ []) := hr
      exact Held.loop_stop ht hr' rfl (by simp) (by simp)
    | some entry =>
      obtain ⟨l₁, l₂, rfl, hentry, h₁⟩ := hpl
      dsimp only at he
      split at he
      · -- on to the next node
        rename_i hgo
        cases he
        cases l₂ with
        | nil => exact absurd hentry hgo.1
        | cons x l₂ =>
          obtain rfl : entry = x := hentry
          refine ⟨rfl, _, rfl, .inl ⟨rfl, rfl, rfl, ho, hst, hr, l₁ ++ [entry], l₂, by simp, hr.next_mid, ?_⟩⟩
          intro y hy
          cases List.mem_append.mp hy with
          | inl hy => exact h₁ y hy
          | inr hy => rw [List.mem_singleton.mp hy]; exact hgo.2
      · rename_i hstop
        cases he
        refine ⟨rfl, _, rfl, .inl ⟨rfl, rfl, rfl, ho, hst, Held.loop_stop ht hr hentry h₁ ?_⟩⟩
        intro x hx
        cases l₂ with
        | nil => simp at hx
        | cons y l₂ =>
          obtain rfl : y = x := by simpa using hx
          obtain rfl : entry = y := hentry
          have hne : entry ≠ hd := fun e => hr.head_notMem (e ▸ by simp)
          exact not_not.mp fun hlt => hstop ⟨hne, hlt⟩
  | link hd prev next pos =>
    rw [hp] at h he
    obtain ⟨rfl, ho, hst, hr⟩ := h
    cases he
    cases pos with
    | newNext | newPrev | prevNext => exact ⟨rfl, _, rfl, .inl ⟨rfl, rfl, rfl, ho, hst, hr⟩⟩
    | nextPrev => exact ⟨rfl, _, rfl, .inr (.inl ⟨rfl, rfl, rfl, ho, hst, hr⟩)⟩
  | unlock hd =>
    rw [hp] at h he
    obtain ⟨hh, ho, hst, hr⟩ := h
    cases he
    exact ⟨rfl, _, rfl, .inl ⟨rfl, rfl, hh, rfl, hst, hr⟩⟩
  | putBack hd =>
    rw [hp] at h he
    obtain ⟨rfl, ho, hst, hr⟩ := h
    cases he
    exact ⟨rfl, _, rfl, .inr (.inr ⟨rfl, rfl, rfl, ho, rfl, hr⟩)⟩

theorem Held.owner_or {pos : SleepAt} (h : Held head s l t pos) : s.owner = some t ∨ ∃ h, pos = .putBack h := by
  cases pos with
  | out | lock | asleep => exact h.elim
  | take => exact .inl h.1
  | hide | first | loop | link | unlock => exact .inl h.2.1
  | putBack hd => exact .inr ⟨hd, rfl⟩

theorem Held.congr {pos : SleepAt} (h : Held head s l t pos) (ho : s'.owner = s.owner)
    (hst : s'.sleepingThreads = s.sleepingThreads) (hL : s'.links = s.links) (ht : s'.wakeTime t = s.wakeTime t)
    (hl : ∀ a ∈ l, s'.wakeTime a = s.wakeTime a) : Held head s' l t pos := by
  cases pos with
  | out | lock | asleep => exact h.elim
  | take | hide | first | unlock | putBack =>
    simp only [Held, ho, hst, hL] at h ⊢
    exact h
  | loop hd entry =>
    simp only [Held, ho, hst, hL] at h ⊢
    refine ⟨h.1, h.2.1, h.2.2.1, h.2.2.2.1, ?_⟩
    cases entry with
    | none => exact h.2.2.2.2
    | some entry =>
      obtain ⟨l₁, l₂, hs, he, h₁⟩ := h.2.2.2.2
      refine ⟨l₁, l₂, hs, he, fun x hx => ?_⟩
      rw [ht, hl x (by rw [hs]; exact List.mem_append_left l₂ hx)]
      exact h₁ x hx
  | link hd prev next at' =>
    simp only [Held, ho, hst, hL, insertSleeper_congr ht hl] at h ⊢
    exact h

/-- `sleep_list_mutex` is not taken while a thread is between its `mutex_unlock` and
its `disable_interrupts`. -/
def Waits (s s' : SleepRun) : Prop := s.owner = none → s'.owner ≠ none → ∀ u h, s.pc u ≠ .putBack h

theorem busy_of_exec (he : s.exec t = some s') (hl : s.pc t ≠ .lock) : (s.pc t).busy = true := by
  unfold SleepRun.exec at he
  cases hp : s.pc t with
  | out | asleep =>
    rw [hp] at he
    cases he
  | lock => exact absurd hp hl
  | take | hide | first | loop | link | unlock | putBack => rfl

theorem Inv.lock (hi : Inv head s) (hp : s.pc t = .lock) (he : s.exec t = some s') (hw : Waits s s') : Inv head s' := by
  unfold SleepRun.exec at he
  rw [hp] at he
  obtain ⟨ho, ⟨⟩⟩ := Option.ite_none_right_eq_some.mp he
  have hw := hw ho (by simp)
  obtain ⟨l, hd, hph⟩ := hi.list
  refine ⟨fun u hu => ?_, fun u => ?_, l, hd, ?_⟩
  · by_cases e : u = t
    · exact hi.notHead u (by rw [e, hp]; simp)
    · exact hi.notHead u (by simpa [goto, e] using hu)
  · by_cases e : u = t
    · have hn := hi.arrived t
      rw [hp] at hn
      simp only [goto, e, Function.update_self]
      exact hn
    · simpa [goto, e] using hi.arrived u
  · cases hph with
    | idle hpc _ hst hr =>
      refine .busy t (fun u hu => ?_) ?_
      · simpa [goto, hu] using hpc u
      · simpa [goto, Held] using ⟨hst, hr⟩
    | busy u hpc hheld =>
      cases hheld.owner_or with
      | inl h => simp [ho] at h
      | inr h => exact absurd h.choose_spec (hw u _)

theorem Inv.busy (hi : Inv head s) (hb : (s.pc t).busy = true) (he : s.exec t = some s') : Inv head s' := by
  obtain ⟨l, hd, hph⟩ := hi.list
  cases hph with
  | idle hpc =>
    rw [hpc t] at hb
    cases hb
  | busy u hpc hheld =>
    obtain rfl : t = u := by
      by_contra e
      rw [hpc t e] at hb
      cases hb
    have hne : s.pc t ≠ .out := fun e => by
      rw [e] at hb
      cases hb
    have ht : (s.pc t).linked = false → t ∉ head :: l := fun hl hm => by
      cases List.mem_cons.mp hm with
      | inl e => exact hi.notHead t hne e
      | inr hm => exact absurd ((hi.arrived t).mp (hd.perm.mem_iff.mp hm)) (by rw [hl]; simp)
    obtain ⟨hwt, pos, hpos, hcases⟩ := hheld.exec ht he
    have hother : ∀ u, u ≠ t → s'.pc u = s.pc u := fun u hu => by rw [hpos, Function.update_of_ne hu]
    have hself : s'.pc t = pos := by rw [hpos, Function.update_self]
    have hbusy : ∀ u, u ≠ t → (s'.pc u).busy = false := fun u hu => by
      rw [hother u hu]
      exact hpc u hu
    have hnh : ∀ u, s'.pc u ≠ .out → u ≠ head := fun u hu => by
      by_cases e : u = t
      · exact e ▸ hi.notHead t hne
      · exact hi.notHead u (by rwa [← hother u e])
    have harr : ∀ u, u ≠ t → (u ∈ s.arrived ↔ (s'.pc u).linked = true) := fun u hu => by
      rw [hother u hu]
      exact hi.arrived u
    rcases hcases with ⟨hl, ha, hh⟩ | ⟨hl, ha, hh⟩ | ⟨rfl, hl, ha, ho, hst, hr⟩
    · refine ⟨hnh, fun u => ?_, l, by rwa [hwt, ha], .busy t hbusy (by rwa [hself])⟩
      by_cases e : u = t
      · rw [e, ha, hself, hl]
        exact hi.arrived t
      · rw [ha]
        exact harr u e
    · refine ⟨hnh, fun u => ?_, _, by rw [hwt, ha]; exact hd.insert, .busy t hbusy (by rwa [hself])⟩
      rw [ha, List.mem_append, List.mem_singleton]
      by_cases e : u = t
      · simp [e, hself, hl]
      · simpa [e] using harr u e
    · refine ⟨hnh, fun u => ?_, l, by rwa [hwt, ha], .idle (fun u => ?_) ho hst hr⟩
      · rw [ha]
        by_cases e : u = t
        · rw [e, hself, hi.arrived t, hl]
          exact ⟨fun _ => rfl, fun _ => rfl⟩
        · exact harr u e
      · by_cases e : u = t
        · rw [e, hself]
          rfl
        · exact hbusy u e

theorem doSleep_cases (ticks thr : Word) (s : SleepRun) :
    (∃ r, s.doSleep ticks thr = (some r, s)) ∨ 0 < ticks.toInt ∧ s.tickCounter.toInt ≤ (s.tickCounter + ticks).toInt ∧
      s.doSleep ticks thr = (none, { s.goto thr .lock with
        wakeTime := Function.update s.wakeTime thr (s.tickCounter + ticks) }) := by
  unfold doSleep scheduleSleep
  split
  · exact .inl ⟨0, rfl⟩
  · rename_i h0
    split
    · exact .inl ⟨ERR_INVAL, rfl⟩
    · split
      · exact .inl ⟨0, rfl⟩
      · have hne : ticks.toInt ≠ 0 := fun e => h0 (BitVec.eq_of_toInt_eq e)
        exact .inr ⟨by omega, by omega, rfl⟩

theorem Inv.call {ticks : Word} (hi : Inv head s) (ht : t ≠ head) (hp : s.pc t = .out) :
    Inv head (s.doSleep ticks t).2 := by
  rcases doSleep_cases ticks t s with ⟨r, h⟩ | ⟨-, -, h⟩
  · rw [h]
    exact hi
  · rw [h]
    have hna : t ∉ s.arrived := fun hm => by
      have hl := (hi.arrived t).mp hm
      rw [hp] at hl
      cases hl
    have hother : ∀ u, u ≠ t → Function.update s.wakeTime t (s.tickCounter + ticks) u = s.wakeTime u := fun u hu =>
      Function.update_of_ne hu ..
    obtain ⟨l, hd, hph⟩ := hi.list
    have hin : ∀ a ∈ s.arrived, a ≠ t := fun a ha e => hna (e ▸ ha)
    refine ⟨fun u hu => ?_, fun u => ?_, l, hd.congr fun a ha => hother a (hin a ha), ?_⟩
    · by_cases e : u = t
      · exact e ▸ ht
      · exact hi.notHead u (by simpa [goto, e] using hu)
    · by_cases e : u = t
      · have hn := hi.arrived t
        rw [hp] at hn
        simp only [goto, e, Function.update_self]
        exact hn
      · simpa [goto, e] using hi.arrived u
    · have hbusy : ∀ u, (s.pc u).busy = false → (Function.update s.pc t .lock u).busy = false := fun u hu => by
        by_cases e : u = t
        · rw [e, Function.update_self]
          rfl
        · rwa [Function.update_of_ne e]
      cases hph with
      | idle hpc ho hst hr => exact .idle (fun u => hbusy u (hpc u)) ho hst hr
      | busy u hpc hheld =>
        have hut : u ≠ t := fun e => by
          have hb := hheld.isBusy
          rw [e, hp] at hb
          cases hb
        have hheld' : Held head { s.goto t .lock with
            wakeTime := Function.update s.wakeTime t (s.tickCounter + ticks) } l u (s.pc u) :=
          hheld.congr rfl rfl rfl (hother u hut) fun a ha => hother a (hin a (hd.perm.mem_iff.mp ha))
        refine .busy u (fun v hv => hbusy v (hpc v hv)) ?_
        simpa [goto, hut] using hheld'

/-! ## get_sleeping_thread -/

theorem getSleepingThread_hidden (h : s.sleepingThreads = none) : s.getSleepingThread = (none, s) := by
  unfold getSleepingThread
  rw [h]

theorem getSleepingThread_eq (h : s.sleepingThreads = some head) (hr : IsRing s.links head l) :
    s.getSleepingThread = match l with
      | [] => (none, s)
      | x :: _ =>
        if wakeDue (s.wakeTime x) s.tickCounter then (some x, { s with links := delEntry x s.links }) else (none,
          s) := by
  unfold getSleepingThread
  rw [h]
  dsimp only
  rw [getFirst_eq hr]
  cases l <;> rfl

theorem wake_eq (h : s.sleepingThreads = some head) (hr : IsRing s.links head l) :
    s.wake = s ∨ ∃ x l', l = x :: l' ∧
      s.wake = { s.goto x .out with
        links := delEntry x s.links
        status := Function.update s.status x .running
        arrived := s.arrived.erase x } := by
  unfold wake
  rw [getSleepingThread_eq h hr]
  cases l with
  | nil => exact .inl rfl
  | cons x l' =>
    dsimp only
    split
    · rename_i heq
      split at heq
      · cases heq
      · cases heq
        exact .inl rfl
    · rename_i heq
      split at heq
      · cases heq
        exact .inr ⟨x, l', rfl, rfl⟩
      · cases heq

theorem Phase.shown (h : Phase head s l) (hst : s.sleepingThreads ≠ none) :
    s.sleepingThreads = some head ∧ IsRing s.links head l ∧ ∀ t, (s.pc t).linked = true → (s.pc t).busy = false := by
  cases h with
  | idle hpc _ hst' hr => exact ⟨hst', hr, fun t _ => hpc t⟩
  | busy u hpc hheld =>
    have hrest : (s.pc u).linked = false → ∀ t, (s.pc t).linked = true → (s.pc t).busy = false := fun hu t ht => by
      refine hpc t fun e => ?_
      rw [e, hu] at ht
      cases ht
    cases hp : s.pc u with
    | out | lock | asleep =>
      rw [hp] at hheld
      exact hheld.elim
    | take =>
      rw [hp] at hheld hrest
      exact ⟨hheld.2.1, hheld.2.2, hrest rfl⟩
    | hide hd =>
      rw [hp] at hheld hrest
      exact ⟨hheld.2.2.1, hheld.2.2.2, hrest rfl⟩
    | first | loop | link | unlock | putBack =>
      rw [hp] at hheld
      exact absurd hheld.2.2.1 hst

theorem Phase.relink {l' : List Word} (h : Phase head s l) (hst : s.sleepingThreads ≠ none)
    (ho : s'.owner = s.owner) (hst' : s'.sleepingThreads = s.sleepingThreads) (hr : IsRing s'.links head l')
    (hpc : ∀ u, (s'.pc u).busy = true → s'.pc u = s.pc u) (hpc' : ∀ u, (s.pc u).busy = true → s'.pc u = s.pc u) :
    Phase head s' l' := by
  have hkeep : ∀ u, (s.pc u).busy = false → (s'.pc u).busy = false := fun u hu => by
    by_contra hn
    rw [hpc u (by simpa using hn)] at hn
    exact hn hu
  cases h with
  | idle hidle ho' hshown _ => exact .idle (fun u => hkeep u (hidle u)) (ho.trans ho') (hst'.trans hshown) hr
  | busy u hidle hheld =>
    refine .busy u (fun v hv => hkeep v (hidle v hv)) ?_
    rw [hpc' u hheld.isBusy]
    cases hp : s.pc u with
    | out | lock | asleep =>
      rw [hp] at hheld
      exact hheld.elim
    | take =>
      rw [hp] at hheld
      exact ⟨ho.trans hheld.1, hst'.trans hheld.2.1, hr⟩
    | hide hd =>
      rw [hp] at hheld
      exact ⟨hheld.1, ho.trans hheld.2.1, hst'.trans hheld.2.2.1, hr⟩
    | first | loop | link | unlock | putBack =>
      rw [hp] at hheld
      exact absurd hheld.2.2.1 hst

theorem asleep_of_linked {pos : SleepAt} (hl : pos.linked = true) (hb : pos.busy = false) : pos = .asleep := by
  cases pos with
  | asleep => rfl
  | unlock | putBack => cases hb
  | out | lock | take | hide | first | loop | link => cases hl

theorem Inv.wake (hi : Inv head s) : Inv head s.wake := by
  obtain ⟨l, hd, hph⟩ := hi.list
  by_cases hst : s.sleepingThreads = none
  · unfold SleepRun.wake
    rw [getSleepingThread_hidden hst]
    exact hi
  · obtain ⟨hst', hr, hoff⟩ := hph.shown hst
    rcases wake_eq hst' hr with h | ⟨x, l', rfl, h⟩
    · rw [h]
      exact hi
    · rw [h]
      have hx : (s.pc x).linked = true := (hi.arrived x).mp (hd.perm.mem_iff.mp List.mem_cons_self)
      have hasleep : s.pc x = .asleep := asleep_of_linked hx (hoff x hx)
      have hnd : s.arrived.Nodup := hd.perm.nodup_iff.mp (List.nodup_cons.mp hr.nodup).2
      refine ⟨fun u hu => ?_, fun u => ?_, l', hd.tail, hph.relink hst rfl rfl ?_ (fun u hu => ?_) fun u hu => ?_⟩
      · by_cases e : u = x
        · simp [goto, e] at hu
        · exact hi.notHead u (by simpa [goto, e] using hu)
      · rw [hnd.mem_erase_iff]
        by_cases e : u = x
        · simp only [goto, e, Function.update_self]
          exact ⟨fun h => absurd rfl h.1, fun h => by cases h⟩
        · simpa [goto, e] using hi.arrived u
      · exact delEntry_ring (show IsRing s.links head ([] ++ x :: l') from hr)
      · by_cases e : u = x
        · simp only [goto, e, Function.update_self] at hu
          cases hu
        · exact Function.update_of_ne e ..
      · refine Function.update_of_ne (fun e => ?_) ..
        rw [e, hasleep] at hu
        cases hu

theorem Inv.step (hi : Inv head s) (hs : Step head s s') (hw : Waits s s') : Inv head s' := by
  cases hs with
  | tick =>
    obtain ⟨l, hd, hph⟩ := hi.list
    refine ⟨hi.notHead, hi.arrived, l, hd, ?_⟩
    cases hph with
    | idle hpc ho hst hr => exact .idle hpc ho hst hr
    | busy u hpc hheld => exact .busy u hpc (hheld.congr rfl rfl rfl rfl fun _ _ => rfl)
  | call ht hp => exact hi.call ht hp
  | @run _ t he =>
    by_cases hl : s.pc t = .lock
    · exact hi.lock hl he hw
    · exact hi.busy (busy_of_exec he hl) he
  | wake => exact hi.wake

theorem reach_inv (h : Reach (Booted head) (fun s s' => Step head s s' ∧ Waits s s') s) : Inv head s :=
  h.invariant (fun _ => Booted.inv) fun _ _ hi hs => hi.step hs.1 hs.2

end

/-! ## The hidden list -/

def between : SleepAt → Bool
  | .out | .lock | .take | .asleep => false
  | .hide _ | .first _ | .loop _ _ | .link _ _ _ _ | .unlock _ | .putBack _ => true

/-- Nobody takes `NULL` for the list; no sleeper is lost, also while a node is being
linked; and the pointer is there when nobody has taken it. -/
structure HiddenSafely (head : Word) (s : SleepRun) : Prop where
  taken : ∀ t h, s.pc t = .hide h ∨ s.pc t = .first h → h ≠ none
  asleep : ∀ t, s.pc t = .asleep → t ∈ s.arrived
  kept : (∀ t h p n pos, s.pc t ≠ .link h p n pos) → ∃ l, IsRing s.links head l ∧ l.Perm s.arrived
  linking : ∀ t h p n pos, s.pc t = .link h p n pos →
    ∃ l, IsRing (pos.rest t p n s.links) head l ∧ l.Perm (t :: s.arrived)
  shown : (∀ t, between (s.pc t) = false) → s.sleepingThreads = some head

section
variable {head t u : Word} {s s' : SleepRun} {l : List Word}

theorem Phase.held (h : Phase head s l) (hb : (s.pc t).busy = true) : Held head s l t (s.pc t) := by
  cases h with
  | idle hpc =>
    rw [hpc t] at hb
    cases hb
  | busy u hpc hheld =>
    obtain rfl : t = u := by
      by_contra e
      rw [hpc t e] at hb
      cases hb
    exact hheld

theorem Inv.hiddenSafely (hi : Inv head s) : HiddenSafely head s := by
  obtain ⟨l, hd, hph⟩ := hi.list
  refine ⟨fun t h hp => ?_, fun t hp => ?_, fun hn => ?_, fun t h p n pos hp => ?_, fun hn => ?_⟩
  · rcases hp with hp | hp
    · have hh := hph.held (t := t) (by rw [hp]; rfl)
      rw [hp] at hh
      simp [hh.1]
    · have hh := hph.held (t := t) (by rw [hp]; rfl)
      rw [hp] at hh
      simp [hh.1]
  · exact (hi.arrived t).mpr (by rw [hp]; rfl)
  · refine ⟨l, ?_, hd.perm⟩
    cases hph with
    | idle _ _ _ hr => exact hr
    | busy u _ hheld =>
      cases hp : s.pc u with
      | out | lock | asleep =>
        rw [hp] at hheld
        exact hheld.elim
      | take =>
        rw [hp] at hheld
        exact hheld.2.2
      | hide | first | unlock | putBack =>
        rw [hp] at hheld
        exact hheld.2.2.2
      | loop =>
        rw [hp] at hheld
        exact hheld.2.2.2.1
      | link hd p n pos => exact absurd hp (hn u hd p n pos)
  · have hh := hph.held (t := t) (by rw [hp]; rfl)
    rw [hp] at hh
    exact ⟨_, hh.2.2.2, (insertSleeper_perm ..).trans (hd.perm.cons t)⟩
  · cases hph with
    | idle _ _ hst _ => exact hst
    | busy u _ hheld =>
      have hu := hn u
      cases hp : s.pc u with
      | out | lock | asleep =>
        rw [hp] at hheld
        exact hheld.elim
      | take =>
        rw [hp] at hheld
        exact hheld.2.1
      | hide | first | loop | link | unlock | putBack =>
        rw [hp] at hu
        cases hu

/-! ## Calls run to completion -/

theorem exec_pc (he : s.exec t = some s') (hu : u ≠ t) : s'.pc u = s.pc u := by
  unfold SleepRun.exec at he
  split at he
  case h_1 | h_2 | h_6 => cases he
  case h_3 =>
    obtain ⟨-, ⟨⟩⟩ := Option.ite_none_right_eq_some.mp he
    exact Function.update_of_ne hu ..
  case h_9 =>
    split at he
    · cases he
      exact Function.update_of_ne hu ..
    · cases he
      exact Function.update_of_ne hu ..
  case h_10 pos _ =>
    cases he
    cases pos <;> exact Function.update_of_ne hu ..
  all_goals
    cases he
    exact Function.update_of_ne hu ..

theorem exec_owner (he : s.exec t = some s') (ho : s.owner = none) (ho' : s'.owner ≠ none) : s.pc t = .lock := by
  unfold SleepRun.exec at he
  split at he
  case h_1 | h_2 | h_6 => cases he
  case h_3 hp => exact hp
  case h_9 =>
    split at he
    · cases he
      exact absurd ho ho'
    · cases he
      exact absurd ho ho'
  case h_10 pos _ =>
    cases he
    cases pos <;> exact absurd ho ho'
  case h_11 =>
    cases he
    exact absurd rfl ho'
  all_goals
    cases he
    exact absurd ho ho'

theorem complete_reach {n : Nat} (hr : Reach (Booted head) (fun s s' => Step head s s' ∧ Waits s s') s)
    (hoff : ∀ u, u ≠ t → (s.pc u).busy = false) (hc : s.complete t n = some s') :
    Reach (Booted head) (fun s s' => Step head s s' ∧ Waits s s') s' ∧ (∀ u, u ≠ t → s'.pc u = s.pc u) ∧
      (s'.pc t = .out ∨ s'.pc t = .asleep) := by
  induction n generalizing s with
  | zero =>
    unfold complete at hc
    obtain ⟨hp, ⟨⟩⟩ := Option.ite_none_right_eq_some.mp hc
    exact ⟨hr, fun _ _ => rfl, hp⟩
  | succ n ih =>
    unfold complete at hc
    split at hc
    · cases hc
      rename_i hp
      exact ⟨hr, fun _ _ => rfl, hp⟩
    · obtain ⟨s₁, he, hc⟩ := Option.bind_eq_some_iff.mp hc
      have hwaits : Waits s s₁ := fun ho ho' v h hv => by
        by_cases e : v = t
        · rw [e, exec_owner he ho ho'] at hv
          cases hv
        · have hb := hoff v e
          rw [hv] at hb
          cases hb
      have hoff₁ : ∀ u, u ≠ t → (s₁.pc u).busy = false := fun u hu => by
        rw [exec_pc he hu]
        exact hoff u hu
      obtain ⟨h₁, h₂, h₃⟩ := ih (hr.tail ⟨.run he, hwaits⟩) hoff₁ hc
      exact ⟨h₁, fun u hu => (h₂ u hu).trans (exec_pc he hu), h₃⟩

theorem wake_pc (s : SleepRun) (u : Word) : s.wake.pc u = s.pc u ∨ s.wake.pc u = .out := by
  have hg : s.getSleepingThread.2.pc = s.pc := by
    unfold getSleepingThread
    split
    · rfl
    · split
      · rfl
      · split <;> rfl
  unfold wake
  split
  · rename_i s₁ heq
    rw [heq] at hg
    exact .inl (congrFun hg u)
  · rename_i thr s₁ heq
    rw [heq] at hg
    by_cases e : u = thr
    · exact .inr (by simp [goto, e])
    · exact .inl (by simp [goto, e, ← hg])

theorem serial_reach (h : Reach (Booted head) (SerialStep head) s) :
    Reach (Booted head) (fun s s' => Step head s s' ∧ Waits s s') s ∧ ∀ t, s.pc t = .out ∨ s.pc t = .asleep := by
  refine h.invariant (P := fun s => Reach (Booted head) (fun s s' => Step head s s' ∧ Waits s s') s ∧
    ∀ t, s.pc t = .out ∨ s.pc t = .asleep) (fun s hb => ⟨.start hb, fun t => .inl (hb.pc t)⟩) ?_
  intro s s' ⟨hr, hpc⟩ hs
  have hoff : ∀ t h, s.pc t ≠ .putBack h := fun t h e => by
    have := hpc t
    rw [e] at this
    simp at this
  cases hs with
  | tick => exact ⟨hr.tail ⟨.tick, fun _ _ => hoff⟩, hpc⟩
  | @sleep s' thr ticks n ht hp hc =>
    have hcall : Reach (Booted head) (fun s s' => Step head s s' ∧ Waits s s') (s.doSleep ticks thr).2 :=
      hr.tail ⟨.call ht hp, fun _ _ => hoff⟩
    have hother : ∀ u, u ≠ thr → (s.doSleep ticks thr).2.pc u = s.pc u := fun u hu => by
      rcases doSleep_cases ticks thr s with ⟨r, h⟩ | ⟨-, -, h⟩
      · rw [h]
      · rw [h]
        exact Function.update_of_ne hu ..
    obtain ⟨h₁, h₂, h₃⟩ := complete_reach hcall (fun u hu => by
      rw [hother u hu]
      rcases hpc u with e | e <;> rw [e] <;> rfl) hc
    refine ⟨h₁, fun u => ?_⟩
    by_cases e : u = thr
    · exact e ▸ h₃
    · rw [h₂ u e, hother u e]
      exact hpc u
  | wake =>
    refine ⟨hr.tail ⟨.wake, fun _ _ => hoff⟩, fun u => ?_⟩
    cases wake_pc s u with
    | inl h => exact h ▸ hpc u
    | inr h => exact .inl h

def Finishes (t : Word) (s : SleepRun) : Prop := ∃ n s', s.complete t n = some s'

theorem Finishes.done (h : s.pc t = .out ∨ s.pc t = .asleep) : Finishes t s := by
  refine ⟨0, s, ?_⟩
  unfold complete
  exact if_pos h

theorem Finishes.exec (he : s.exec t = some s') (h : Finishes t s') : Finishes t s := by
  by_cases hp : s.pc t = .out ∨ s.pc t = .asleep
  · exact .done hp
  · obtain ⟨n, s₂, hc⟩ := h
    refine ⟨n + 1, s₂, ?_⟩
    unfold complete
    rw [if_neg hp]
    exact Option.bind_eq_some_iff.mpr ⟨s', he, hc⟩

theorem finishes_putBack {h : Word} (hp : s.pc t = .putBack h) : Finishes t s := by
  have he : s.exec t = some { s.goto t .asleep with
      sleepingThreads := some h
      status := Function.update s.status t .waiting } := by
    unfold SleepRun.exec
    rw [hp]
  exact .exec he (.done (.inr (Function.update_self ..)))

theorem finishes_unlock {h : Word} (hp : s.pc t = .unlock h) : Finishes t s := by
  have he : s.exec t = some { s.goto t (.putBack h) with owner := none } := by
    unfold SleepRun.exec
    rw [hp]
  exact .exec he (finishes_putBack (Function.update_self ..))

theorem finishes_link {h p n : Word} {pos : AddAt} (hp : s.pc t = .link h p n pos) : Finishes t s := by
  have he : ∀ {s : SleepRun} {pos}, s.pc t = .link h p n pos → s.exec t = some (s.linkStep t h p n pos) := by
    intro s pos hp
    unfold SleepRun.exec
    rw [hp]
  have h₄ : ∀ {s : SleepRun}, s.pc t = .link h p n .nextPrev → Finishes t s := fun hp =>
    .exec (he hp) (finishes_unlock (h := h) (Function.update_self ..))
  have h₃ : ∀ {s : SleepRun}, s.pc t = .link h p n .prevNext → Finishes t s := fun hp =>
    .exec (he hp) (h₄ (Function.update_self ..))
  have h₂ : ∀ {s : SleepRun}, s.pc t = .link h p n .newPrev → Finishes t s := fun hp =>
    .exec (he hp) (h₃ (Function.update_self ..))
  cases pos with
  | newNext => exact .exec (he hp) (h₂ (Function.update_self ..))
  | newPrev => exact h₂ hp
  | prevNext => exact h₃ hp
  | nextPrev => exact h₄ hp

theorem finishes_loop {entry : Word} {l₁ l₂ : List Word} (hp : s.pc t = .loop head (some entry))
    (hr : IsRing s.links head (l₁ ++ l₂)) (he : entry = l₂.headD head) : Finishes t s := by
  induction l₂ generalizing s l₁ entry with
  | nil =>
    have hstep : s.exec t = some (s.goto t (.link head (s.links.prev entry) entry .newNext)) := by
      unfold SleepRun.exec
      rw [hp]
      exact if_neg fun h => h.1 he
    exact .exec hstep (finishes_link (Function.update_self ..))
  | cons x l₂ ih =>
    by_cases hgo : entry ≠ head ∧ ¬ (s.wakeTime t).toInt < (s.wakeTime entry).toInt
    · have hstep : s.exec t = some (s.goto t (.loop head (some (s.links.next entry)))) := by
        unfold SleepRun.exec
        rw [hp]
        exact if_pos hgo
      have hnext : s.links.next entry = l₂.headD head := by
        rw [he]
        exact hr.next_mid
      have hr' : IsRing s.links head ((l₁ ++ [x]) ++ l₂) := by simpa using hr
      exact .exec hstep (ih (Function.update_self ..) hr' hnext)
    · have hstep : s.exec t = some (s.goto t (.link head (s.links.prev entry) entry .newNext)) := by
        unfold SleepRun.exec
        rw [hp]
        exact if_neg hgo
      exact .exec hstep (finishes_link (Function.update_self ..))

theorem finishes_first (hp : s.pc t = .first (some head)) (hr : IsRing s.links head l) : Finishes t s := by
  have hstep : s.exec t = some (s.goto t (.loop head l.head?)) := by
    unfold SleepRun.exec
    rw [hp, ← getFirst_eq hr]
  refine .exec hstep ?_
  cases l with
  | nil =>
    have hempty : (s.goto t (.loop head none)).exec t =
        some ((s.goto t (.loop head none)).goto t (.link head (s.links.prev head) head .newNext)) := by
      unfold SleepRun.exec
      simp [goto]
    exact .exec hempty (finishes_link (Function.update_self ..))
  | cons x l =>
    have hr' : IsRing s.links head ([] ++ x :: l) := hr
    exact finishes_loop (Function.update_self ..) hr' rfl

theorem finishes_lock (hp : s.pc t = .lock) (ho : s.owner = none) (hst : s.sleepingThreads = some head)
    (hr : IsRing s.links head l) : Finishes t s := by
  have h₁ : s.exec t = some { s.goto t .take with owner := some t } := by
    unfold SleepRun.exec
    rw [hp]
    exact if_pos ho
  have h₂ : { s.goto t .take with owner := some t }.exec t =
      some { s.goto t (.hide (some head)) with owner := some t } := by
    unfold SleepRun.exec
    simp [goto, hst]
  have h₃ : { s.goto t (.hide (some head)) with owner := some t }.exec t =
      some { s.goto t (.first (some head)) with owner := some t, sleepingThreads := none } := by
    unfold SleepRun.exec
    simp [goto]
  exact .exec h₁ (.exec h₂ (.exec h₃ (finishes_first (Function.update_self ..) hr)))

/-! ## Deadlines in order -/

structure FirstDeadline (s : SleepRun) (thr : Word) : Prop where
  mem : thr ∈ s.arrived
  least : ∀ u ∈ s.arrived, (s.wakeTime thr).toInt ≤ (s.wakeTime u).toInt
  first : (s.arrived.filter fun u => s.wakeTime u = s.wakeTime thr).head? = some thr

/-- The sleepers are those that `arrived` records, the list holds them by their deadlines,
`get_sleeping_thread` finds one whenever one is due, and a call of `do_sleep` ends. -/
structure WakesInOrder (head : Word) (s : SleepRun) : Prop where
  sleepers : ∀ t, t ∈ s.arrived ↔ s.pc t = .asleep
  list : ∃ l, s.sleepingThreads = some head ∧ IsRing s.links head l ∧ l.Perm s.arrived ∧
    ByDeadline s.wakeTime s.arrived l
  due : s.getSleepingThread.1 ≠ none ↔ ∃ u ∈ s.arrived, (s.wakeTime u).toInt < s.tickCounter.toInt
  returned : ∀ thr, s.getSleepingThread.1 = some thr → FirstDeadline s thr
  finishes : ∀ thr ticks, thr ≠ head → s.pc thr = .out → Finishes thr (s.doSleep ticks thr).2

theorem sleepers_wake_in_order (h : Reach (Booted head) (SerialStep head) s) : WakesInOrder head s := by
  obtain ⟨hr, hpc⟩ := serial_reach h
  have hi := reach_inv hr
  have hidle : ∀ t, (s.pc t).busy = false := fun t => by
    rcases hpc t with e | e <;> rw [e] <;> rfl
  obtain ⟨l, hd, hph⟩ := hi.list
  obtain ⟨ho, hst, hring⟩ : s.owner = none ∧ s.sleepingThreads = some head ∧ IsRing s.links head l := by
    cases hph with
    | idle _ ho hst hring => exact ⟨ho, hst, hring⟩
    | busy u _ hheld =>
      have hb := hheld.isBusy
      rw [hidle u] at hb
      cases hb
  have hget := getSleepingThread_eq hst hring
  refine ⟨fun t => ?_, ⟨l, hst, hring, hd.perm, hd⟩, ?_, fun thr hthr => ?_, fun thr ticks ht hp => ?_⟩
  · rw [hi.arrived t]
    rcases hpc t with e | e
    · rw [e]
      exact ⟨fun h => absurd h (by decide), fun h => absurd h (by decide)⟩
    · rw [e]
      exact ⟨fun _ => rfl, fun _ => rfl⟩
  · rw [hget]
    cases l with
    | nil =>
      have hnil : s.arrived = [] := hd.perm.symm.eq_nil
      simp [hnil]
    | cons x l =>
      have hx : x ∈ s.arrived := hd.perm.mem_iff.mp List.mem_cons_self
      dsimp only
      unfold wakeDue
      by_cases hdue : (s.wakeTime x).toInt < s.tickCounter.toInt
      · simp only [hdue, decide_true, if_true]
        exact ⟨fun _ => ⟨x, hx, hdue⟩, fun _ => by simp⟩
      · simp only [hdue, decide_false, Bool.false_eq_true, if_false]
        refine ⟨fun h => absurd rfl h, fun ⟨u, hu, hlt⟩ => ?_⟩
        have := hd.first.1 u hu
        omega
  · rw [hget] at hthr
    cases l with
    | nil => cases hthr
    | cons x l =>
      dsimp only at hthr
      split at hthr
      · cases hthr
        exact ⟨hd.perm.mem_iff.mp List.mem_cons_self, hd.first.1, hd.first.2⟩
      · cases hthr
  · rcases doSleep_cases ticks thr s with ⟨r, h⟩ | ⟨-, -, h⟩
    · rw [h]
      exact .done (.inl hp)
    · rw [h]
      exact finishes_lock (Function.update_self ..) ho hst hring

end

/-! ## Runs on a list with head 1 -/

def sleepBoot : SleepRun where
  sleepingThreads := some 1#32
  links := ⟨id, id⟩
  wakeTime _ := 0#32
  status _ := .running
  tickCounter := 0#32
  owner := none
  pc _ := .out
  arrived := []

theorem sleepBoot_booted : Booted 1#32 sleepBoot :=
  ⟨rfl, isRing_nil.mpr ⟨rfl, rfl⟩, rfl, fun _ => rfl, rfl⟩

def act (s : SleepRun) : Word × Option Word → Option SleepRun
  | (thr, some ticks) => if thr ≠ 1#32 ∧ s.pc thr = .out then some (s.doSleep ticks thr).2 else none
  | (thr, none) => s.exec thr

theorem act_step (s : SleepRun) (a : Word × Option Word) (s' : SleepRun) (h : s.act a = some s') : Step 1#32 s s' := by
  obtain ⟨thr, _ | ticks⟩ := a
  · exact .run h
  · obtain ⟨⟨ht, hp⟩, ⟨⟩⟩ := Option.ite_none_right_eq_some.mp h
    exact .call ht hp

def serialAct (s : SleepRun) : Option (Word × Word) → Option SleepRun
  | some (thr, ticks) =>
    if thr ≠ 1#32 ∧ s.pc thr = .out then (s.doSleep ticks thr).2.complete thr 20 else none
  | none => some s.wake

theorem serialAct_step (s : SleepRun) (a : Option (Word × Word)) (s' : SleepRun) (h : s.serialAct a = some s') :
    SerialStep 1#32 s s' := by
  obtain _ | ⟨thr, ticks⟩ := a
  · cases h
    exact .wake
  · obtain ⟨⟨ht, hp⟩, h⟩ := Option.ite_none_right_eq_some.mp h
    exact .sleep ht hp h

theorem sleepBoot_three : ∃ s, Reach (Booted 1#32) (SerialStep 1#32) s ∧ s.arrived = [2#32, 3#32, 4#32] ∧
    s.links.next 1#32 = 3#32 := by
  have h : ([some (2#32, 5#32), some (3#32, 4#32), some (4#32, 5#32)].foldlM serialAct sleepBoot).any fun s =>
      s.arrived = [2#32, 3#32, 4#32] ∧ s.links.next 1#32 = 3#32 := by decide +kernel
  obtain ⟨s, hs, hp⟩ := Reach.script serialAct_step (.start sleepBoot_booted) h
  exact ⟨s, hs, by simpa using hp⟩

theorem sleepers_wake_in_order_three : ∃ s, Reach (Booted 1#32) (SerialStep 1#32) s ∧ s.arrived = [2#32, 3#32, 4#32] ∧
    WakesInOrder 1#32 s := by
  obtain ⟨s, hs, ha, -⟩ := sleepBoot_three
  exact ⟨s, hs, ha, sleepers_wake_in_order hs⟩

/-- While the mutex is not taken before the list is put back, hiding the list is safe. -/
theorem sleep_list_hidden_safely {head : Word} {s : SleepRun}
    (h : Reach (Booted head) (fun s s' => Step head s s' ∧ Waits s s') s) : HiddenSafely head s :=
  (reach_inv h).hiddenSafely

theorem sleep_list_hidden_three : ∃ s, Reach (Booted 1#32) (fun s s' => Step 1#32 s s' ∧ Waits s s') s ∧
    s.arrived = [2#32, 3#32, 4#32] ∧ HiddenSafely 1#32 s := by
  obtain ⟨s, hs, ha, -⟩ := sleepBoot_three
  have hr := (serial_reach hs).1
  exact ⟨s, hr, ha, sleep_list_hidden_safely hr⟩

/-- The second thread takes the mutex before the first one has put the list back. -/
theorem sleep_list_taken_null : ∃ s, Reach (Booted 1#32) (Step 1#32) s ∧ ¬ HiddenSafely 1#32 s := by
  have h : (((2#32, some 5#32) :: List.replicate 10
    (2#32, none) ++ [(3#32, some 5#32), (3#32, none), (3#32, none)]).foldlM
      act sleepBoot).any fun s => s.pc 3#32 = .hide none := by decide +kernel
  obtain ⟨s, hs, hp⟩ := Reach.script act_step (.start sleepBoot_booted) h
  exact ⟨s, hs, fun hsafe => hsafe.taken 3#32 none (.inl (by simpa using hp)) rfl⟩

/-! ## The limits of the tick counter -/

/-- The test of `get_sleeping_thread` fails for the first `ticks` values of the counter
from `t` on and succeeds one past `t + ticks`. -/
def SleepsExactly (wakeTime t ticks : Word) : Prop :=
  (∀ k < ticks.toNat, wakeDue wakeTime (t + BitVec.ofNat 32 k) = false) ∧ wakeDue wakeTime (t + ticks + 1#32) = true

theorem sleep_ends_iff {thr ticks : Word} {s : SleepRun} (hn : 0 < ticks.toInt)
    (ha : (s.scheduleSleep ticks thr).1 = none) :
    SleepsExactly ((s.scheduleSleep ticks thr).2.wakeTime thr) s.tickCounter ticks ↔
      s.tickCounter + ticks ≠ 0x7fffffff#32 := by
  unfold scheduleSleep at ha ⊢
  split at ha
  · cases ha
  rename_i hle
  rw [if_neg hle]
  simp only [Function.update_self]
  -- a sum that leaves the signed range is smaller than the counter
  have hrange : s.tickCounter.toInt + ticks.toInt < 2 ^ 31 := by
    by_contra hge
    have hge := toInt_add_of_ge (Int.not_lt.mp hge)
    have := ticks.toInt_lt
    omega
  have hw := toInt_add_of_lt hn.le hrange
  have hpos : (ticks.toNat : Int) = ticks.toInt := by
    rw [BitVec.toInt_eq_toNat_cond] at hn ⊢
    split at hn <;> omega
  have hbefore : ∀ k < ticks.toNat, wakeDue (s.tickCounter + ticks) (s.tickCounter + BitVec.ofNat 32 k) = false := by
    intro k hk
    have hmax := ticks.toInt_lt
    have hk' : (BitVec.ofNat 32 k).toInt = k := by
      rw [BitVec.toInt_eq_toNat_cond, BitVec.toNat_ofNat]
      split <;> omega
    have hnow := toInt_add_of_lt (a := s.tickCounter) (b := BitVec.ofNat 32 k) (by omega) (by omega)
    refine decide_eq_false ?_
    omega
  have hone : (1#32 : Word).toInt = 1 := by decide
  have hlast : s.tickCounter + ticks = 0x7fffffff#32 ↔ s.tickCounter.toInt + ticks.toInt = 2 ^ 31 - 1 := by
    rw [← hw]
    exact ⟨fun e => by rw [e]; decide, fun e => BitVec.eq_of_toInt_eq (e.trans (by decide))⟩
  rw [SleepsExactly, and_iff_right hbefore, Ne, hlast]
  unfold wakeDue
  rw [decide_eq_true_iff]
  by_cases he : s.tickCounter.toInt + ticks.toInt = 2 ^ 31 - 1
  · have hafter := toInt_add_of_ge (a := s.tickCounter + ticks) (b := 1#32) (by omega)
    constructor <;> omega
  · have hafter := toInt_add_of_lt (a := s.tickCounter + ticks) (b := 1#32) (by omega) (by omega)
    constructor <;> omega

theorem sleep_ends_five :
    SleepsExactly (({ sleepBoot with tickCounter := 7#32 }.scheduleSleep 5#32 2#32).2.wakeTime 2#32) 7#32 5#32 :=
  (sleep_ends_iff (s := { sleepBoot with tickCounter := 7#32 }) (by decide) (by decide)).mpr (by decide)

/-- The largest deadline is never less than the counter. -/
theorem sleep_never_ends : ∃ s : SleepRun, (s.scheduleSleep 1#32 2#32).1 = none ∧
    ¬ SleepsExactly ((s.scheduleSleep 1#32 2#32).2.wakeTime 2#32) s.tickCounter 1#32 :=
  ⟨{ sleepBoot with tickCounter := 0x7ffffffe#32 }, by decide, fun h => absurd h.2 (by decide)⟩

end SleepRun

end Pebbles
