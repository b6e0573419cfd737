import Pebbles.Lib.Runs
import Pebbles.WaitVanishSound

/-!
# Waiting threads and vanishing children

The threads of a task run `do_wait` in small steps, one for each place where
they can be preempted, while children of the task vanish. A vanishing child does
not take `child_list_mutex`: a thread that has found the list of dead children
empty can miss the wakeup before it is on the waiting list. As long as no child
vanishes while a thread is there, no wakeup is lost.
-/

namespace Pebbles

open Words Ring Kernel

/-- Where a thread is in `do_wait`. `signalled`: it was woken in this call and
has not been on the waiting list since. -/
inductive Pc where
  | out
  /-- At `mutex_lock`, on entry or at the end of `cond_wait`. -/
  | lock (signalled : Bool) (statusPtr : Word)
  | readDead (signalled : Bool) (statusPtr : Word)
  | readAlive (signalled : Bool) (statusPtr : Word) (deadHead : Option Node)
  | test (signalled : Bool) (statusPtr : Word) (deadHead aliveHead : Option Node)
  /-- In `cond_wait`, not yet on the waiting list. -/
  | enqueue (statusPtr : Word)
  /-- On the waiting list and still running. -/
  | queued (statusPtr : Word)
  | asleep (statusPtr : Word)
  | finish (signalled : Bool) (statusPtr : Word) (deadHead : Option Node)

namespace Pc

def Holds : Pc → Prop
  | out | lock _ _ | asleep _ => False
  | _ => True

def deadHead : Pc → Option Node
  | readAlive _ _ d | test _ _ d _ | finish _ _ d => d
  | _ => none

def Committed : Pc → Prop
  | readAlive _ _ d | test _ _ d _ => d = none
  | enqueue _ => True
  | _ => False

def Slept : Pc → Prop
  | queued _ | asleep _ => True
  | _ => False

def Signalled (onList : Prop) : Pc → Prop
  | lock s _ | readDead s _ => s
  | readAlive s _ d | test s _ d _ | finish s _ d => s ∧ d ≠ none
  | queued _ | asleep _ => ¬ onList
  | out | enqueue _ => False

def Untested : Pc → Prop
  | lock _ _ | readDead _ _ => True
  | _ => False

theorem Signalled.mono {pc : Pc} {P Q : Prop} (h : pc.Signalled P) (hqp : Q → P) : pc.Signalled Q := by
  cases pc with
  | queued p => exact fun hq => h (hqp hq)
  | asleep p => exact fun hq => h (hqp hq)
  | _ => exact h

theorem signalled_of_slept {pc : Pc} {P : Prop} (h : pc.Slept) (hP : ¬ P) : pc.Signalled P := by
  cases pc with
  | queued p => exact hP
  | asleep p => exact hP
  | _ => exact h.elim

theorem not_signalled_of_slept {pc : Pc} {P : Prop} (h : pc.Slept) (hP : P) : ¬ pc.Signalled P := by
  cases pc with
  | queued p => exact fun hn => hn hP
  | asleep p => exact fun hn => hn hP
  | _ => exact h.elim

theorem holds_of_deadHead {pc : Pc} {d : Node} (h : pc.deadHead = some d) : pc.Holds := by
  cases pc <;> trivial

end Pc

structure Race where
  kernel : Kernel
  pc : Word → Pc

namespace Race

def goto (x : Race) (thr : Word) (pc : Pc) (k : Kernel) : Race := ⟨k, Function.update x.pc thr pc⟩

def OnList (t : Word) (x : Race) (thr : Word) : Prop :=
  ∃ l, IsRing x.kernel.links (.exitCondVar t) l ∧ .condWaitLink thr ∈ l

/-- A thread waits while there is a dead child, and no thread is left that was
signalled or has not tested the lists. -/
def Stranded (t : Word) (ths : Finset Word) (x : Race) : Prop :=
  (∃ thr ∈ ths, x.OnList t thr) ∧ (∃ d, IsRing x.kernel.links (.deadChildHead t) d ∧ d ≠ []) ∧
    ∀ thr ∈ ths, ¬ (x.pc thr).Signalled (x.OnList t thr) ∧ ¬ (x.pc thr).Untested

/-- The steps of the threads `ths` of the task `t` and of its children, which
vanish only in states that are `ok`. -/
inductive Step (ok : Race → Prop) (t : Word) (ths : Finset Word) : Race → Race → Prop
  | call {x thr} (p : Word) : thr ∈ ths → x.pc thr = .out → Step ok t ths x (x.goto thr (.lock false p) x.kernel)
  | acquire {x thr s p k'} : thr ∈ ths → x.pc thr = .lock s p →
      x.kernel.mutexLock (.childListMutex t) = some k' → Step ok t ths x (x.goto thr (.readDead s p) k')
  | readDead {x thr s p} : thr ∈ ths → x.pc thr = .readDead s p →
      Step ok t ths x (x.goto thr (.readAlive s p (getFirst (.deadChildHead t) x.kernel.links)) x.kernel)
  | readAlive {x thr s p d} : thr ∈ ths → x.pc thr = .readAlive s p d →
      Step ok t ths x (x.goto thr (.test s p d (getFirst (.childTaskHead t) x.kernel.links)) x.kernel)
  | test {x thr s p d a} : thr ∈ ths → x.pc thr = .test s p d a →
      Step ok t ths x (x.goto thr (if mustBlock d a then .enqueue p else .finish s p d) x.kernel)
  | enqueue {x thr p} : thr ∈ ths → x.pc thr = .enqueue p →
      Step ok t ths x (x.goto thr (.queued p) (x.kernel.condWait t thr))
  | sleep {x thr p k'} : thr ∈ ths → x.pc thr = .queued p → x.kernel.sleep t thr = some k' →
      Step ok t ths x (x.goto thr (.asleep p) k')
  | resume {x thr p} : thr ∈ ths → x.pc thr = .asleep p → ¬ x.OnList t thr →
      Step ok t ths x (x.goto thr (.lock true p) x.kernel)
  | finish {x thr s p d e k'} : thr ∈ ths → x.pc thr = .finish s p d →
      x.kernel.finishWait t p d = some (e, k') → Step ok t ths x (x.goto thr .out k')
  | vanish {x k'} (c : Word) : ok x → (∃ l, IsRing x.kernel.links (.childTaskHead t) l ∧ .childTaskLink c ∈ l) →
      x.kernel.reportExit c = some k' → Step ok t ths x ⟨k', x.pc⟩

def waitHeads (t : Word) : Set Node := {.childTaskHead t, .deadChildHead t, .exitCondVar t}

structure Children (t : Word) (k : Kernel) (ls : Node → List Node) : Prop where
  rings : Rings k.links (waitHeads t) ls
  alive : ∀ n ∈ ls (.childTaskHead t), ∃ c ≠ t, n = .childTaskLink c ∧ (k.task c).parent = t ∧
    .deadChildLink c ∉ ls (.deadChildHead t)
  dead : ∀ n ∈ ls (.deadChildHead t), ∃ c ≠ t, n = .deadChildLink c

structure Init (t : Word) (x : Race) : Prop where
  pc : ∀ thr, x.pc thr = .out
  mutex : x.kernel.locks (.childListMutex t) = .valid
  lists : ∃ ls, Children t x.kernel ls ∧ ls (.exitCondVar t) = []

section
variable {t : Word} {ths : Finset Word} {x : Race} {ls : Node → List Node} {thr : Word} {pc : Pc} {k' : Kernel}

/-! ## The mutex -/

structure Exclusive (t : Word) (ths : Finset Word) (x : Race) : Prop where
  locked : ∀ thr ∈ ths, (x.pc thr).Holds → x.kernel.locks (.childListMutex t) = .locked
  alone : ∀ thr ∈ ths, ∀ thr' ∈ ths, (x.pc thr).Holds → (x.pc thr').Holds → thr = thr'

theorem goto_self : (x.goto thr pc k').pc thr = pc := Function.update_self ..

theorem goto_of_ne {y : Word} (h : y ≠ thr) : (x.goto thr pc k').pc y = x.pc y := Function.update_of_ne h ..

theorem Exclusive.within (h : Exclusive t ths x) (hpc : pc.Holds → (x.pc thr).Holds)
    (hk : k'.locks (.childListMutex t) = x.kernel.locks (.childListMutex t)) : Exclusive t ths (x.goto thr pc k') := by
  have hold : ∀ y, ((x.goto thr pc k').pc y).Holds → (x.pc y).Holds := by
    intro y hy
    by_cases e : y = thr
    · subst e
      rw [goto_self] at hy
      exact hpc hy
    · rwa [goto_of_ne e] at hy
  constructor
  · intro y hm hy
    exact hk.trans (h.locked y hm (hold y hy))
  · intro y hm y' hm' hy hy'
    exact h.alone y hm y' hm' (hold y hy) (hold y' hy')

theorem Exclusive.acquire (h : Exclusive t ths x) (hk : x.kernel.mutexLock (.childListMutex t) = some k') :
    Exclusive t ths (x.goto thr pc k') := by
  obtain ⟨hv, rfl⟩ := mutexLock_some hk
  have hone : ∀ y ∈ ths, ((x.goto thr pc (x.kernel.setLock (.childListMutex t) .locked)).pc y).Holds → y = thr := by
    intro y hm hy
    by_contra e
    rw [goto_of_ne e] at hy
    rw [h.locked y hm hy] at hv
    cases hv
  constructor
  · intro y _ _
    exact Function.update_self ..
  · intro y hm y' hm' hy hy'
    rw [hone y hm hy, hone y' hm' hy']

theorem Exclusive.release (h : Exclusive t ths x) (hthr : thr ∈ ths) (hold : (x.pc thr).Holds) (hpc : ¬ pc.Holds) :
    Exclusive t ths (x.goto thr pc k') := by
  have hnone : ∀ y ∈ ths, ¬ ((x.goto thr pc k').pc y).Holds := by
    intro y hm hy
    by_cases e : y = thr
    · subst e
      rw [goto_self] at hy
      exact hpc hy
    · rw [goto_of_ne e] at hy
      exact e (h.alone y hm thr hthr hy hold)
  exact ⟨fun y hm hy => absurd hy (hnone y hm), fun y hm _ _ hy => absurd hy (hnone y hm)⟩

theorem Exclusive.vanish (h : Exclusive t ths x)
    (hk : k'.locks (.childListMutex t) = x.kernel.locks (.childListMutex t)) : Exclusive t ths ⟨k', x.pc⟩ :=
  ⟨fun y hm hy => hk.trans (h.locked y hm hy), h.alone⟩

/-! ## The lists -/

open Classical in
noncomputable def signalled (t : Word) (ths : Finset Word) (pc : Word → Pc) (ls : Node → List Node) : Finset Word :=
  ths.filter fun thr => (pc thr).Signalled (.condWaitLink thr ∈ ls (.exitCondVar t))

structure Listed (t : Word) (ths : Finset Word) (x : Race) (ls : Node → List Node) : Prop where
  children : Children t x.kernel ls
  waiting : ∃ ts : List Word, ls (.exitCondVar t) = ts.map .condWaitLink ∧ ∀ thr ∈ ts, thr ∈ ths ∧ (x.pc thr).Slept
  first : ∀ thr ∈ ths, ∀ d, (x.pc thr).deadHead = some d → (ls (.deadChildHead t)).head? = some d
  empty : ∀ thr ∈ ths, (x.pc thr).Committed → ls (.deadChildHead t) = []
  count : ls (.exitCondVar t) ≠ [] → (ls (.deadChildHead t)).length ≤ (signalled t ths x.pc ls).card

theorem mem_signalled {pc : Word → Pc} : thr ∈ signalled t ths pc ls ↔
    thr ∈ ths ∧ (pc thr).Signalled (.condWaitLink thr ∈ ls (.exitCondVar t)) := by
  simp [signalled]

theorem Children.congr (h : Children t x.kernel ls) (hlinks : k'.links = x.kernel.links)
    (htask : k'.task = x.kernel.task) :
    Children t k' ls := by
  refine ⟨hlinks ▸ h.rings, ?_, h.dead⟩
  rw [htask]
  exact h.alive

theorem Listed.goto (h : Listed t ths x ls) (hlinks : k'.links = x.kernel.links) (htask : k'.task = x.kernel.task)
    (hslept : (x.pc thr).Slept → .condWaitLink thr ∈ ls (.exitCondVar t) → pc.Slept)
    (hfirst : ∀ d, pc.deadHead = some d → (ls (.deadChildHead t)).head? = some d)
    (hempty : pc.Committed → ls (.deadChildHead t) = [])
    (hsig : ls (.deadChildHead t) = [] ∨ ∀ P, (x.pc thr).Signalled P → P = (.condWaitLink thr ∈ ls (.exitCondVar t)) →
      pc.Signalled P) : Listed t ths (x.goto thr pc k') ls := by
  obtain ⟨ts, hts, hmem⟩ := h.waiting
  refine ⟨h.children.congr hlinks htask, ⟨ts, hts, ?_⟩, ?_, ?_, ?_⟩
  · intro y hy
    refine ⟨(hmem y hy).1, ?_⟩
    by_cases e : y = thr
    · subst e
      rw [goto_self]
      exact hslept (hmem y hy).2 (by rw [hts]; exact List.mem_map_of_mem hy)
    · rw [goto_of_ne e]
      exact (hmem y hy).2
  · intro y hy
    by_cases e : y = thr
    · subst e
      rw [goto_self]
      exact hfirst
    · rw [goto_of_ne e]
      exact h.first y hy
  · intro y hy
    by_cases e : y = thr
    · subst e
      rw [goto_self]
      exact hempty
    · rw [goto_of_ne e]
      exact h.empty y hy
  · intro hq
    cases hsig with
    | inl he => simp [he]
    | inr hsig =>
      refine (h.count hq).trans (Finset.card_le_card ?_)
      intro y hy
      rw [mem_signalled] at hy ⊢
      refine ⟨hy.1, ?_⟩
      by_cases e : y = thr
      · subst e
        rw [goto_self]
        exact hsig _ hy.2 rfl
      · rw [goto_of_ne e]
        exact hy.2

theorem waitHeads_alive : .childTaskHead t ∈ waitHeads t := by simp [waitHeads]

theorem waitHeads_dead : .deadChildHead t ∈ waitHeads t := by simp [waitHeads]

theorem waitHeads_waiting : .exitCondVar t ∈ waitHeads t := by simp [waitHeads]

theorem hasHeads_waitHeads : HasHeads (waitHeads t) t := ⟨waitHeads_alive, waitHeads_dead, waitHeads_waiting⟩

theorem mem_waitHeads {h : Node} : h ∈ waitHeads t ↔ h = .childTaskHead t ∨ h = .deadChildHead t ∨
    h = .exitCondVar t := by
  simp [waitHeads]

theorem Listed.kinds (h : Listed t ths x ls) {hd n : Node} (hh : hd ∈ waitHeads t) (hn : n ∈ ls hd) :
    (hd = .childTaskHead t ∧ ∃ c, n = .childTaskLink c) ∨ (hd = .deadChildHead t ∧ ∃ c, n = .deadChildLink c) ∨
      (hd = .exitCondVar t ∧ ∃ thr, n = .condWaitLink thr ∧ thr ∈ ths ∧ (x.pc thr).Slept) := by
  rw [mem_waitHeads] at hh
  rcases hh with rfl | rfl | rfl
  · obtain ⟨c, -, hc, -⟩ := h.children.alive n hn
    exact Or.inl ⟨rfl, c, hc⟩
  · obtain ⟨c, -, hc⟩ := h.children.dead n hn
    exact Or.inr (Or.inl ⟨rfl, c, hc⟩)
  · obtain ⟨ts, hts, hmem⟩ := h.waiting
    rw [hts, List.mem_map] at hn
    obtain ⟨y, hy, rfl⟩ := hn
    exact Or.inr (Or.inr ⟨rfl, y, rfl, hmem y hy⟩)

theorem Listed.enqueue {p : Word} (h : Listed t ths x ls) (hthr : thr ∈ ths) (hpc : x.pc thr = .enqueue p) :
    Listed t ths (x.goto thr (.queued p) (x.kernel.condWait t thr))
      (Function.update ls (.exitCondVar t) (ls (.exitCondVar t) ++ [.condWaitLink thr])) := by
  obtain ⟨ts, hts, hmem⟩ := h.waiting
  have hdead : ls (.deadChildHead t) = [] := h.empty thr hthr (by rw [hpc]; trivial)
  have hrings := addToTail_rings h.children.rings waitHeads_waiting (n := .condWaitLink thr) ?_ ?_
  · refine ⟨⟨hrings, ?_, ?_⟩, ⟨ts ++ [thr], ?_, ?_⟩, ?_, ?_, ?_⟩
    · simpa [Race.goto, condWait, withLinks] using h.children.alive
    · simpa using h.children.dead
    · rw [Function.update_self, hts]
      simp
    · intro y hy
      by_cases e : y = thr
      · subst e
        rw [goto_self]
        exact ⟨hthr, trivial⟩
      · rw [goto_of_ne e]
        exact hmem y (by simpa [e] using hy)
    · intro y hy d
      by_cases e : y = thr
      · subst e
        rw [goto_self]
        exact fun h => by cases h
      · rw [goto_of_ne e]
        simpa using h.first y hy d
    · intro _ _ _
      simpa using hdead
    · intro _
      simp [hdead]
  · simp [waitHeads]
  · intro hd hh hn
    obtain ⟨rfl, c, hc⟩ | ⟨rfl, c, hc⟩ | ⟨rfl, y, hy, -, hs⟩ := h.kinds hh hn
    · cases hc
    · cases hc
    · cases hy
      rw [hpc] at hs
      exact hs

theorem Listed.reap {s : Bool} {p c : Word} {vm : Vm} (h : Listed t ths x ls) (he : Exclusive t ths x)
    (hthr : thr ∈ ths)
    (hpc : x.pc thr = .finish s p (some (.deadChildLink c))) :
    Listed t ths (x.goto thr .out (reaped t c vm x.kernel))
      (Function.update ls (.deadChildHead t) ((ls (.deadChildHead t)).erase (.deadChildLink c))) := by
  have hhead : (ls (.deadChildHead t)).head? = some (.deadChildLink c) := h.first thr hthr _ (by rw [hpc]; rfl)
  have hmem : .deadChildLink c ∈ ls (.deadChildHead t) := List.mem_of_mem_head? hhead
  have hwait : (Function.update ls (.deadChildHead t) ((ls (.deadChildHead t)).erase (.deadChildLink c)))
    (.exitCondVar t) =
      ls (.exitCondVar t) := Function.update_of_ne (by simp) ..
  refine ⟨⟨delEntry_rings h.children.rings waitHeads_dead hmem, ?_, ?_⟩, ?_, ?_, ?_, ?_⟩
  · intro n hn
    rw [Function.update_of_ne (by simp)] at hn
    obtain ⟨b, hb, hn, hparent, hdead⟩ := h.children.alive n hn
    refine ⟨b, hb, hn, hparent, ?_⟩
    rw [Function.update_self]
    exact fun hm => hdead (List.mem_of_mem_erase hm)
  · intro n hn
    rw [Function.update_self] at hn
    exact h.children.dead n (List.mem_of_mem_erase hn)
  · obtain ⟨ts, hts, hslept⟩ := h.waiting
    refine ⟨ts, hwait.trans hts, ?_⟩
    intro y hy
    have hne : y ≠ thr := by
      rintro rfl
      have := (hslept y hy).2
      rw [hpc] at this
      exact this
    rw [goto_of_ne hne]
    exact hslept y hy
  · -- no other thread has read a dead child, for it would hold the mutex
    intro y hy d hd
    by_cases e : y = thr
    · subst e
      rw [goto_self] at hd
      cases hd
    · rw [goto_of_ne e] at hd
      exact absurd (he.alone y hy thr hthr (Pc.holds_of_deadHead hd) (by rw [hpc]; trivial)) e
  · intro y hy hc
    by_cases e : y = thr
    · subst e
      rw [goto_self] at hc
      exact hc.elim
    · rw [goto_of_ne e] at hc
      rw [h.empty y hy hc] at hmem
      cases hmem
  · intro hq
    rw [hwait] at hq
    rw [Function.update_self, List.length_erase_of_mem hmem]
    have hle : (signalled t ths x.pc ls).card ≤ (signalled t ths (x.goto thr .out (reaped t c vm x.kernel)).pc
        (Function.update ls (.deadChildHead t) ((ls (.deadChildHead t)).erase (.deadChildLink c)))).card + 1 := by
      refine (Finset.card_le_card (t := insert thr
        (signalled t ths (x.goto thr .out (reaped t c vm x.kernel)).pc _)) ?_).trans
        (Finset.card_insert_le _ _)
      intro y hy
      rw [mem_signalled] at hy
      rw [Finset.mem_insert, mem_signalled, hwait]
      by_cases e : y = thr
      · exact Or.inl e
      · rw [goto_of_ne e]
        exact Or.inr hy
    have := h.count hq
    omega

theorem Listed.vanish {c : Word} (h : Listed t ths x ls) (hok : ∀ thr ∈ ths, ¬ (x.pc thr).Committed)
    (hc : .childTaskLink c ∈ ls (.childTaskHead t)) (hk : x.kernel.reportExit c = some k') :
    k'.locks = x.kernel.locks ∧ ∃ ls', Listed t ths ⟨k', x.pc⟩ ls' := by
  obtain ⟨b, hbt, hbc, hparent, hdead⟩ := h.children.alive _ hc
  cases hbc
  obtain ⟨ts, hts, hslept⟩ := h.waiting
  have hnew : .deadChildLink c ∉ waitHeads t ∧ ∀ hd ∈ waitHeads t, .deadChildLink c ∉ ls hd := by
    refine ⟨by simp [waitHeads], ?_⟩
    intro hd hh hn
    obtain ⟨rfl, b, hb⟩ | ⟨rfl, b, hb⟩ | ⟨rfl, y, hy, -⟩ := h.kinds hh hn
    · cases hb
    · exact hdead hn
    · cases hy
  obtain ⟨woken, rest, hsplit, hone, hrun, hrings⟩ :=
    reportExit_eq h.children.rings hasHeads_waitHeads hparent hc hnew hts
  rw [hrun, Option.some.injEq] at hk
  subst hk
  refine ⟨rfl, exitLists c t rest ls, ⟨hrings, ?_, ?_⟩, ⟨rest, exitLists_waiting, ?_⟩, ?_, ?_, ?_⟩
  · intro n hn
    rw [exitLists_alive] at hn
    obtain ⟨b, hb, rfl, hbp, hbd⟩ := h.children.alive n (List.mem_of_mem_erase hn)
    refine ⟨b, hb, rfl, hbp, ?_⟩
    have hbc : b ≠ c := by
      rintro rfl
      exact (List.nodup_cons.mp (h.children.rings.ring _ waitHeads_alive).nodup).2.not_mem_erase hn
    simpa [hbc] using hbd
  · intro n hn
    rw [exitLists_dead, List.mem_append, List.mem_singleton] at hn
    cases hn with
    | inl hn => exact h.children.dead n hn
    | inr hn => exact ⟨c, hbt, hn⟩
  · intro y hy
    exact hslept y (hsplit ▸ List.mem_append_right woken hy)
  · -- the first dead child stays the first
    intro y hy d hd
    have hfirst := h.first y hy d hd
    rw [exitLists_dead]
    cases hl : ls (.deadChildHead t) with
    | nil => simp [hl] at hfirst
    | cons a l => simpa [hl] using hfirst
  · exact fun y hy hc => absurd hc (hok y hy)
  · intro hrest
    have hts' : ls (.exitCondVar t) ≠ [] := by
      rw [hts, hsplit]
      simp only [exitLists_waiting, ne_eq, List.map_eq_nil_iff] at hrest
      simp [hrest]
    have hwoken : woken ≠ [] := hone (by rintro rfl; exact hts' hts)
    obtain ⟨y, l, rfl⟩ := List.exists_cons_of_ne_nil hwoken
    have hcount := h.count hts'
    have hnd : (y :: l ++ rest).Nodup := by
      have := (List.nodup_cons.mp (h.children.rings.ring _ waitHeads_waiting).nodup).2
      rw [hts, hsplit] at this
      exact this.of_map
    have hys : y ∈ ts := hsplit ▸ List.mem_append_left rest List.mem_cons_self
    -- the woken thread was on the list and is not there any more
    have hlt : (signalled t ths x.pc ls).card < (signalled t ths x.pc (exitLists c t rest ls)).card := by
      refine Finset.card_lt_card (Finset.ssubset_iff_of_subset ?_ |>.mpr ⟨y, ?_, ?_⟩)
      · intro z hz
        rw [mem_signalled] at hz ⊢
        refine ⟨hz.1, Pc.Signalled.mono hz.2 ?_⟩
        rw [exitLists_waiting, hts, hsplit]
        intro hm
        simp only [List.mem_map, Node.condWaitLink.injEq, exists_eq_right] at hm ⊢
        exact List.mem_append_right _ hm
      · rw [mem_signalled]
        refine ⟨(hslept y hys).1, Pc.signalled_of_slept (hslept y hys).2 ?_⟩
        rw [exitLists_waiting]
        simp only [List.mem_map, Node.condWaitLink.injEq, exists_eq_right]
        exact fun hm => (List.nodup_cons.mp hnd).1 (List.mem_append_right l hm)
      · rw [mem_signalled]
        intro hy
        refine Pc.not_signalled_of_slept (hslept y hys).2 ?_ hy.2
        rw [hts]
        exact List.mem_map_of_mem hys
    rw [exitLists_dead, List.length_append]
    simp only [List.length_singleton]
    omega

/-! ## Runs -/

theorem mustBlock_none {d a : Option Node} (h : mustBlock d a = true) : d = none := by
  cases d with
  | none => rfl
  | some d => simp [mustBlock] at h

def Inv (t : Word) (ths : Finset Word) (x : Race) : Prop := Exclusive t ths x ∧ ∃ ls, Listed t ths x ls

def NoneCommitted (ths : Finset Word) (x : Race) : Prop := ∀ thr ∈ ths, ¬ (x.pc thr).Committed

theorem Init.inv (h : Init t x) : Inv t ths x := by
  obtain ⟨ls, hc, hq⟩ := h.lists
  refine ⟨⟨?_, ?_⟩, ls, hc, ⟨[], by simpa using hq, by simp⟩, ?_, ?_, fun hne => absurd hq hne⟩
  · intro thr _ hh
    rw [h.pc] at hh
    exact hh.elim
  · intro thr _ _ _ hh
    rw [h.pc] at hh
    exact hh.elim
  · intro thr _ d hd
    rw [h.pc] at hd
    cases hd
  · intro thr _ hc
    rw [h.pc] at hc
    exact hc.elim

theorem Listed.onList (h : Listed t ths x ls) : x.OnList t thr ↔ .condWaitLink thr ∈ ls (.exitCondVar t) := by
  have hring := h.children.rings.ring _ waitHeads_waiting
  constructor
  · rintro ⟨l, hl, hm⟩
    rwa [hl.unique hring] at hm
  · exact fun hm => ⟨_, hring, hm⟩

theorem Step.inv {y : Race} (hs : Step (NoneCommitted ths) t ths x y) (h : Inv t ths x) : Inv t ths y := by
  obtain ⟨he, ls, hl⟩ := h
  cases hs with
  | call p hthr hpc =>
    refine ⟨he.within (fun h => h.elim) rfl, ls, hl.goto rfl rfl ?_ (fun _ h => nomatch h) (fun h => h.elim)
      (Or.inr ?_)⟩
    · rw [hpc]
      exact fun h => h.elim
    · rw [hpc]
      exact fun _ h => h.elim
  | acquire hthr hpc hk =>
    have hk' := (mutexLock_some hk).2
    refine ⟨he.acquire hk, ls, hl.goto (by rw [hk']; rfl) (by rw [hk']; rfl) ?_ (fun _ h => nomatch h) (fun h => h.elim)
      (Or.inr ?_)⟩
    · rw [hpc]
      exact fun h => h.elim
    · rw [hpc]
      exact fun _ h _ => h
  | readDead hthr hpc =>
    have hfirst := getFirst_eq (hl.children.rings.ring _ waitHeads_dead)
    refine ⟨he.within (fun _ => by rw [hpc]; trivial) rfl, ls, hl.goto rfl rfl ?_ ?_ ?_ ?_⟩
    · rw [hpc]
      exact fun h => h.elim
    · intro d hd
      exact hfirst ▸ hd
    · intro hc
      exact List.head?_eq_none_iff.mp (hfirst ▸ hc)
    · rw [hfirst, hpc]
      cases hd : ls (.deadChildHead t) with
      | nil => exact Or.inl rfl
      | cons a l => exact Or.inr fun _ h _ => ⟨h, by simp⟩
  | readAlive hthr hpc =>
    refine ⟨he.within (fun _ => by rw [hpc]; trivial) rfl, ls, hl.goto rfl rfl ?_ ?_ ?_ ?_⟩
    · rw [hpc]
      exact fun h => h.elim
    · intro d hd
      exact hl.first _ hthr d (by rw [hpc]; exact hd)
    · intro hc
      exact hl.empty _ hthr (by rw [hpc]; exact hc)
    · rw [hpc]
      exact Or.inr fun _ h _ => h
  | test hthr hpc =>
    rename_i thr s p d a
    have hold : (x.pc thr).Holds := by rw [hpc]; trivial
    refine ⟨he.within (fun _ => hold) rfl, ls, hl.goto rfl rfl ?_ ?_ ?_ ?_⟩
    · rw [hpc]
      exact fun h => h.elim
    · intro d' hd
      split at hd
      · cases hd
      · exact hl.first thr hthr d' (by rw [hpc]; exact hd)
    · intro hc
      split at hc
      · rename_i hb
        exact hl.empty thr hthr (by rw [hpc]; exact mustBlock_none hb)
      · exact hc.elim
    · right
      intro P hs _
      rw [hpc] at hs
      split
      · rename_i hb
        exact absurd (mustBlock_none hb) hs.2
      · exact hs
  | enqueue hthr hpc => exact ⟨he.within (fun _ => by rw [hpc]; trivial) rfl, _, hl.enqueue hthr hpc⟩
  | sleep hthr hpc hk =>
    have hk' := mutexUnlock_some hk
    refine ⟨he.release hthr (by rw [hpc]; trivial) id, ls, hl.goto (by rw [hk']; rfl) (by rw [hk']; rfl)
      (fun _ _ => trivial)
      (fun _ h => nomatch h) (fun h => h.elim) ?_⟩
    rw [hpc]
    exact Or.inr fun _ h _ => h
  | resume hthr hpc hoff =>
    rw [hl.onList] at hoff
    refine ⟨he.within (fun h => h.elim) rfl, ls, hl.goto rfl rfl (fun _ h => absurd h hoff) (fun _ h => nomatch h)
      (fun h => h.elim) ?_⟩
    exact Or.inr fun _ _ _ => rfl
  | finish hthr hpc hk =>
    rename_i thr s p d e k'
    have hold : (x.pc thr).Holds := by rw [hpc]; trivial
    refine ⟨he.release hthr hold id, ?_⟩
    cases d with
    | none =>
      obtain ⟨-, rfl⟩ := finishWait_none hk
      refine ⟨ls, hl.goto rfl rfl ?_ (fun _ h => nomatch h) (fun h => h.elim) (Or.inr ?_)⟩
      · rw [hpc]
        exact fun h => h.elim
      · rw [hpc]
        exact fun _ h _ => absurd rfl h.2
    | some d =>
      have hfirst := hl.first thr hthr d (by rw [hpc]; rfl)
      obtain ⟨c, -, rfl⟩ := hl.children.dead d (List.mem_of_mem_head? hfirst)
      obtain ⟨-, vm, rfl⟩ := finishWait_some hk
      exact ⟨_, hl.reap he hthr hpc⟩
  | vanish c hok hc hk =>
    obtain ⟨l, hring, hm⟩ := hc
    rw [hring.unique (hl.children.rings.ring _ waitHeads_alive)] at hm
    obtain ⟨hlocks, ls', hl'⟩ := hl.vanish hok hm hk
    exact ⟨he.vanish (by rw [hlocks]), ls', hl'⟩

end

def oneChild : Race where
  kernel := ((loneKernel Vm.mappedVm 0x5000#32).setTask 0x300#32 fun s => { s with parent := 0x100#32 }).withLinks
    (addToTail (.childTaskLink 0x300#32) (.childTaskHead 0x100#32))
  pc _ := .out

end Race

end Pebbles
