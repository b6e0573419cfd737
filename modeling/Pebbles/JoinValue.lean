import Pebbles.JoinFree
import Pebbles.Semaphore

/-!
# `thr_join` returns the exit value

A thread's TCB is in the list before the thread can look for it, since `thr_create` holds
the lock of the list from `thread_fork` to `add_tcb`; and a joiner reads the status under
the mutex under which `thr_exit` has written it.
-/

namespace Pebbles.User

open Runs Function Words

def JoinAt.seen : JoinAt → Option Nat
  | .status a | .lockList a _ | .del a _ => some a
  | _ => none

def JoinAt.answer : JoinAt → Option (Option Word)
  | .lockList _ s | .del _ s | .destroyMutex _ s | .destroyCond _ s | .free _ s | .unlockList s => some s
  | _ => none

namespace ThrAt

def joins : ThrAt → Option Int
  | .joining tid _ _ => some tid
  | _ => Option.none

def exitValue : ThrAt → Option Word
  | .exiting v _ => some v
  | _ => Option.none

def ended : ThrAt → Bool
  | .exiting _ _ | .gone => true
  | _ => false

def writing : ThrAt → Option Nat
  | .exiting _ (.status a) => some a
  | _ => Option.none

def late : ThrAt → Bool
  | .exiting _ pos => match pos with
    | .status _ | .signal _ | .unlockMutex _ | .stack _ | .vanish => true
    | _ => false
  | .gone => true
  | _ => false

def early : ThrAt → Bool
  | .run | .creating _ | .joining _ _ _ => true
  | .exiting _ pos => match pos with
    | .lock | .find => true
    | _ => false
  | _ => false

def lost : ThrAt → Bool
  | .exiting _ (.unlock r) => r.isNone
  | _ => false

def seen : ThrAt → Option Nat
  | .joining _ _ pos => pos.seen
  | _ => Option.none

def answer : ThrAt → Option (Int × Bool × Option Word)
  | .joining tid p pos => pos.answer.map fun s => (tid, p, s)
  | _ => Option.none

def joinHolds (c : CondAt Int) : ThrAt → Option Nat
  | .joining _ _ pos => match pos with
    | .test a => some a
    | .wait a => if c.holdsMutex then some a else Option.none
    | _ => Option.none
  | _ => Option.none

def exitHolds : ThrAt → Option Nat
  | .exiting _ pos => match pos with
    | .exited a | .status a | .signal a | .unlockMutex a => some a
    | _ => Option.none
  | _ => Option.none

structure Follows (pos pos' : ThrAt) : Prop where
  joins : ∀ tid, pos'.joins = some tid → pos.joins = some tid
  exitValue : ∀ v, pos'.exitValue = some v → pos.exitValue = some v
  ended : pos.ended → pos'.ended
  newTcb : ∀ a, pos'.newTcb = some a → pos.newTcb = some a
  newTid : pos'.newTid = pos.newTid
  late : pos.late → pos'.late
  writing : pos'.writing = pos.writing
  seen : ∀ a, pos'.seen = some a → pos.seen = some a
  answer : ∀ r, pos'.answer = some r → pos.answer = some r
  early : pos'.early → pos.early
  lost : pos'.lost = false

def known (pos : ThrAt) :=
  (pos.joins, pos.exitValue, pos.ended, pos.newTcb, pos.newTid, pos.late, pos.writing, pos.seen, pos.answer, pos.early)

theorem Follows.of_eq {pos pos' : ThrAt} (h : pos'.known = pos.known) (hl : pos'.lost = false) : pos.Follows pos' := by
  simp only [known, Prod.mk.injEq] at h
  obtain ⟨h₁, h₂, h₃, h₄, h₅, h₆, h₇, h₈, h₉, h₁₀⟩ := h
  exact ⟨by simp [h₁], by simp [h₂], by simp [h₃], by simp [h₄], h₅, by simp [h₆], h₇, by simp [h₈], by simp [h₉],
    by simp [h₁₀], hl⟩

theorem not_early_of_late {pos : ThrAt} (h : pos.late) : pos.early ≠ true := by
  cases pos with
  | exiting v pos => cases pos <;> first | (cases h; done) | simp [early]
  | gone => simp [early]
  | none | run | creating | joining => cases h

end ThrAt

namespace ThrRun

def Once (x : ThrRun) : ThrAct → Prop
  | .join _ tid _ => tid ∉ x.called
  | .fork _ tid => 0 < tid
  | _ => True

/-- A thread finds its own TCB, and a join that returns 0 has the value that the thread has
exited with. -/
structure Truthful (x : ThrRun) : Prop where
  found : ∀ t v r, x.pc t = .exiting v (.unlock r) → ∃ a, r = some a ∧ (x.tcb a).id = t
  joined : ∀ r ∈ x.joins, r.ret = 0 → ∃ v, x.exits r.tid = some v ∧ (r.statusp → r.status = some v)

def Exited (x : ThrRun) (a : Nat) : Prop := (x.tcb a).exited = TRUE ∧ x.exits (x.tcb a).id = some (x.tcb a).status

structure Vals (x : ThrRun) : Prop where
  called : ∀ {t tid}, (x.pc t).joins = some tid → tid ∈ x.called
  alone : ∀ {t u tid}, (x.pc t).joins = some tid → (x.pc u).joins = some tid → t = u
  exits : ∀ {t v}, (x.pc t).exitValue = some v → x.exits t = some v
  ended : ∀ {t v}, x.exits t = some v → (x.pc t).ended
  fresh : ∀ {t a}, (x.pc t).newTcb = some a → (x.tcb a).exited ≠ TRUE
  late : ∀ {a}, x.Added a → (x.tcb a).exited = TRUE → (x.pc (x.tcb a).id).late
  value : ∀ {a}, x.Added a → (x.tcb a).exited = TRUE →
    (x.pc (x.tcb a).id).writing = some a ∨ x.exits (x.tcb a).id = some (x.tcb a).status
  seen : ∀ {t a}, (x.pc t).seen = some a → x.Exited a
  answer : ∀ {t tid p s}, (x.pc t).answer = some (tid, p, s) → ∃ v, x.exits tid = some v ∧ (p → s = some v)
  joined : ∀ r ∈ x.joins, r.ret = 0 → ∃ v, x.exits r.tid = some v ∧ (r.statusp → r.status = some v)
  listed : ∀ {t}, (x.pc t).early → (∃ a ∈ x.list, (x.tcb a).id = t) ∨ ∃ u, (x.pc u).newTid = some t
  found : ∀ {t}, (x.pc t).lost = false

section
variable {x y : ThrRun} {t u tid : Int} {pos : ThrAt} {a : Nat}

theorem Vals.goes (h : Vals x) (hpc : y.pc = update x.pc t pos) (hexits : ∀ u, u ≠ t → y.exits u = x.exits u)
    (hmore : ∀ u v, x.exits u = some v → y.exits u = some v) (hcalled : ∀ r ∈ x.called, r ∈ y.called)
    (hdone : ∀ a, y.Added a → (y.tcb a).exited = TRUE →
      (x.Added a ∧ (x.tcb a).exited = TRUE ∧ (y.tcb a).id = (x.tcb a).id ∧ (y.tcb a).status = (x.tcb a).status) ∨
      ((y.tcb a).id = t ∧ pos.late ∧ (pos.writing = some a ∨ y.exits t = some (y.tcb a).status)))
    (hkeeps : ∀ u a, (x.pc u).seen = some a → y.Exited a)
    (hnew : ∀ u a, u ≠ t → (x.pc u).newTcb = some a → (y.tcb a).exited ≠ TRUE)
    (hjoins : ∀ r ∈ y.joins, r.ret = 0 → ∃ v, y.exits r.tid = some v ∧ (r.statusp → r.status = some v))
    (hjoin : ∀ r, pos.joins = some r → r ∈ y.called ∧ ∀ u, u ≠ t → (x.pc u).joins ≠ some r)
    (hval : ∀ v, pos.exitValue = some v → y.exits t = some v) (hended : ∀ v, y.exits t = some v → pos.ended)
    (hfresh : ∀ a, pos.newTcb = some a → (y.tcb a).exited ≠ TRUE) (hlate : (x.pc t).late → pos.late)
    (hwriting : ∀ a, (x.pc t).writing = some a → pos.writing = some a ∨ y.exits t = some (y.tcb a).status)
    (hseen : ∀ a, pos.seen = some a → y.Exited a)
    (hanswer : ∀ r p s, pos.answer = some (r, p, s) → ∃ v, y.exits r = some v ∧ (p → s = some v))
    (hlisted : ∀ u, (y.pc u).early → (∃ a ∈ y.list, (y.tcb a).id = u) ∨ ∃ w, (y.pc w).newTid = some u)
    (hfound : pos.lost = false) : Vals y := by
  have hself : y.pc t = pos := by rw [hpc, update_self]
  have hother : ∀ {u}, u ≠ t → y.pc u = x.pc u := fun hu => by rw [hpc, update_of_ne hu]
  have hback : ∀ {P : ThrAt → Prop} {Q : Int → Prop}, (P pos → Q t) → (∀ u, u ≠ t → P (x.pc u) → Q u) →
      ∀ u, P (y.pc u) → Q u := by
    intro P Q hp hx u hu
    by_cases e : u = t
    · rw [e, hself] at hu
      exact e ▸ hp hu
    · rw [hother e] at hu
      exact hx u e hu
  refine ⟨fun {u r} => ?_, fun {u v r} => ?_, fun {u v} => ?_, fun {u v} hu => ?_, fun {u b} => ?_, fun {b} hb he => ?_,
    fun {b} hb he => ?_, fun {u b} => ?_, fun {u r p s} => ?_, hjoins, fun {u} => hlisted u, fun {u} => ?_⟩
  · exact hback (P := fun p => p.joins = some r) (Q := fun _ => r ∈ y.called) (fun hp => (hjoin r hp).1)
      (fun u _ hu => hcalled r (h.called hu)) u
  · rw [hpc]
    exact update_alone (P := fun p : ThrAt => p.joins = some r) h.alone fun hp => (hjoin r hp).2
  · exact hback (P := fun p => p.exitValue = some v) (Q := fun u => y.exits u = some v) (hval v)
      (fun u _ hu => hmore u v (h.exits hu)) u
  · by_cases e : u = t
    · rw [e, hself]
      exact hended v (e ▸ hu)
    · rw [hother e]
      exact h.ended (hexits u e ▸ hu)
  · exact hback (P := fun p => p.newTcb = some b) (Q := fun _ => (y.tcb b).exited ≠ TRUE) (hfresh b)
      (fun u => hnew u b) u
  · rcases hdone b hb he with ⟨hb', he', hid, -⟩ | ⟨hid, hl, -⟩
    · have hl := h.late hb' he'
      rw [hid]
      by_cases e : (x.tcb b).id = t
      · rw [e, hself]
        exact hlate (e ▸ hl)
      · rwa [hother e]
    · rw [hid, hself]
      exact hl
  · rcases hdone b hb he with ⟨hb', he', hid, hst⟩ | ⟨hid, -, hv⟩
    · rw [hid]
      rcases h.value hb' he' with hw | hv
      · by_cases e : (x.tcb b).id = t
        · rw [e, hself]
          exact hwriting b (e ▸ hw)
        · rw [hother e]
          exact .inl hw
      · rw [hst]
        exact .inr (hmore _ _ hv)
    · rwa [hid, hself]
  · exact hback (P := fun p => p.seen = some b) (Q := fun _ => y.Exited b) (hseen b) (fun u _ => hkeeps u b) u
  · refine hback (P := fun q => q.answer = some (r, p, s)) (Q := fun _ => ∃ v, y.exits r = some v ∧ (p → s = some v))
      (hanswer r p s) (fun u _ hu => ?_) u
    obtain ⟨v, hv, hs⟩ := h.answer hu
    exact ⟨v, hmore r v hv, hs⟩
  · by_cases e : u = t
    · rw [e, hself]
      exact hfound
    · rw [hother e]
      exact h.found

theorem Vals.plain (h : Vals x) (hpc : y.pc = update x.pc t pos) (hexits : y.exits = x.exits)
    (hcalled : ∀ r ∈ x.called, r ∈ y.called)
    (htcb : ∀ a, (y.tcb a).exited = (x.tcb a).exited ∧ (y.tcb a).status = (x.tcb a).status ∧
      (y.tcb a).id = (x.tcb a).id)
    (hadd : ∀ a, y.Added a → x.Added a)
    (hjoins : ∀ r ∈ y.joins, r.ret = 0 → ∃ v, x.exits r.tid = some v ∧ (r.statusp → r.status = some v))
    (hjoin : ∀ r, pos.joins = some r → r ∈ y.called ∧ ∀ u, u ≠ t → (x.pc u).joins ≠ some r)
    (hval : ∀ v, pos.exitValue = some v → (x.pc t).exitValue = some v) (hended : (x.pc t).ended → pos.ended)
    (hfresh : ∀ a, pos.newTcb = some a → (x.pc t).newTcb = some a) (hlate : (x.pc t).late → pos.late)
    (hwriting : ∀ a, (x.pc t).writing = some a → pos.writing = some a)
    (hseen : ∀ a, pos.seen = some a → x.Exited a)
    (hanswer : ∀ r p s, pos.answer = some (r, p, s) → ∃ v, x.exits r = some v ∧ (p → s = some v))
    (hlisted : ∀ u, (y.pc u).early → (∃ a ∈ y.list, (x.tcb a).id = u) ∨ ∃ w, (y.pc w).newTid = some u)
    (hfound : pos.lost = false) : Vals y := by
  have hexited : ∀ a, (y.tcb a).exited = (x.tcb a).exited := fun a => (htcb a).1
  have hkeep : ∀ a, x.Exited a → y.Exited a := by
    intro a ha
    unfold Exited
    rw [hexits, (htcb a).1, (htcb a).2.1, (htcb a).2.2]
    exact ha
  refine h.goes hpc (fun u _ => congrFun hexits u) (fun u v hv => (congrFun hexits u).trans hv) hcalled
    (fun a ha he => .inl ⟨hadd a ha, hexited a ▸ he, (htcb a).2.2, (htcb a).2.1⟩) (fun u a hu => hkeep a (h.seen hu))
    (fun u a _ hu => hexited a ▸ h.fresh hu) (hexits ▸ hjoins) hjoin (fun v hv => ?_) (fun v hv => ?_)
    (fun a ha => hexited a ▸ h.fresh (hfresh a ha)) hlate (fun a ha => .inl (hwriting a ha))
    (fun a ha => hkeep a (hseen a ha)) (hexits ▸ hanswer) (fun u hu => ?_) hfound
  · rw [hexits]
    exact h.exits (hval v hv)
  · exact hended (h.ended (hexits ▸ hv))
  · rcases hlisted u hu with ⟨a, ha, hi⟩ | hw
    · exact .inl ⟨a, ha, (htcb a).2.2.trans hi⟩
    · exact .inr hw

theorem Vals.listed_update (h : Vals x) (hpc : y.pc = update x.pc t pos) (hearly : pos.early → (x.pc t).early)
    (htid : pos.newTid = (x.pc t).newTid) (hlist : ∀ a ∈ x.list, (x.pc (x.tcb a).id).early → a ∈ y.list) {u : Int}
    (hu : (y.pc u).early) : (∃ a ∈ y.list, (x.tcb a).id = u) ∨ ∃ w, (y.pc w).newTid = some u := by
  have hux : (x.pc u).early := by
    rw [hpc] at hu
    by_cases e : u = t
    · rw [e, update_self] at hu
      exact e ▸ hearly hu
    · rwa [update_of_ne e] at hu
  rcases h.listed hux with ⟨a, ha, hi⟩ | ⟨w, hw⟩
  · exact .inl ⟨a, hlist a ha (hi ▸ hux), hi⟩
  · refine .inr ⟨w, ?_⟩
    rw [hpc]
    by_cases e : w = t
    · rw [e, update_self, htid, ← e]
      exact hw
    · rwa [update_of_ne e]

theorem Vals.follows {pos' : ThrAt} (h : Vals x) (hp : x.pc t = pos') (hpc : y.pc = update x.pc t pos)
    (hf : pos'.Follows pos)
    (hexits : y.exits = x.exits) (hcalled : y.called = x.called)
    (htcb : ∀ a, (y.tcb a).exited = (x.tcb a).exited ∧ (y.tcb a).status = (x.tcb a).status ∧
      (y.tcb a).id = (x.tcb a).id)
    (hadd : ∀ a, y.Added a → x.Added a) (hlist : ∀ a ∈ x.list, (x.pc (x.tcb a).id).early → a ∈ y.list)
    (hjoins : ∀ r ∈ y.joins, r.ret = 0 → ∃ v, x.exits r.tid = some v ∧ (r.statusp → r.status = some v)) : Vals y := by
  subst hp
  refine h.plain hpc hexits (fun r hr => hcalled ▸ hr) htcb hadd hjoins
    (fun r hr => ⟨?_, fun u hu hn => ?_⟩) hf.exitValue hf.ended
    hf.newTcb hf.late (fun a ha => hf.writing.trans ha) (fun a ha => h.seen (hf.seen a ha))
    (fun r p s hr => h.answer (hf.answer _ hr)) (fun u hu => ?_) hf.lost
  · rw [hcalled]
    exact h.called (hf.joins r hr)
  · exact hu (h.alone hn (hf.joins r hr))
  · exact h.listed_update hpc hf.early hf.newTid hlist hu

def record (x : ThrRun) := (x.exits, x.called, x.cell, x.list, x.joins)

theorem Vals.quiet {pos' : ThrAt} (h : Vals x) (hp : x.pc t = pos') (hpc : y.pc = update x.pc t pos)
    (hf : pos'.Follows pos)
    (hrec : y.record = x.record)
    (htcb : ∀ a, (y.tcb a).exited = (x.tcb a).exited ∧ (y.tcb a).status = (x.tcb a).status ∧
      (y.tcb a).id = (x.tcb a).id) :
    Vals y := by
  simp only [record, Prod.mk.injEq] at hrec
  obtain ⟨hexits, hcalled, hcell, hlist, hjoins⟩ := hrec
  exact h.follows hp hpc hf hexits hcalled htcb (fun a => (Added.congr (congrFun hcell a)).mp)
    (fun _ ha _ => hlist ▸ ha)
    (hjoins ▸ h.joined)

/-! ## The mutexes of the TCBs -/

structure Mut (x : ThrRun) : Prop where
  join : ∀ {t a}, (x.pc t).joinHolds (x.cond t) = some a → (x.tcb a).tcbMutex = 0
  exit : ∀ {t a}, (x.pc t).exitHolds = some a → x.cell a = .linked → (x.tcb a).tcbMutex = 0
  apart : ∀ {t u a}, (x.pc t).joinHolds (x.cond t) = some a → (x.pc u).exitHolds ≠ some a
  signals : ∀ {t v a}, x.pc t = .exiting v (.signal a) → (x.cond t).ofSignal

end

end ThrRun

namespace ThrAt

variable {pos : ThrAt} {c : CondAt Int} {a : Nat}

theorem linked_of_joinHolds (h : pos.joinHolds c = some a) : ∃ tid, pos.joinLinked = some (tid, a) := by
  cases pos with
  | joining tid p pos =>
    cases pos with
    | test b =>
      cases h
      exact ⟨tid, rfl⟩
    | wait b =>
      obtain ⟨-, ⟨⟩⟩ := Option.ite_none_right_eq_some.mp h
      exact ⟨tid, rfl⟩
    | lock | find | unlock | mutex | status | lockList | del | destroyMutex | destroyCond | free | unlockList => cases h
  | none | run | creating | exiting | gone => cases h

theorem found_of_exitHolds (h : pos.exitHolds = some a) : pos.exitFound = some a := by
  cases pos with
  | exiting v pos => cases pos <;> first | exact h | cases h
  | none | run | creating | joining | gone => cases h

theorem linked_of_seen (h : pos.seen = some a) : ∃ tid, pos.joinLinked = some (tid, a) := by
  cases pos with
  | joining tid p pos => cases pos <;> first | (cases h; done) | (cases h; exact ⟨tid, rfl⟩)
  | none | run | creating | exiting | gone => cases h

theorem joins_of_hasTcb {tid : Int} (h : pos.HasTcb tid) : pos.joins = some tid := by
  obtain ⟨b, hb | hb⟩ := h
  · cases pos with
    | joining r p pos =>
      obtain ⟨c, -, he⟩ := Option.map_eq_some_iff.mp hb
      cases he
      rfl
    | none | run | creating | exiting | gone => cases hb
  · cases pos with
    | joining r p pos =>
      obtain ⟨c, -, he⟩ := Option.map_eq_some_iff.mp hb
      cases he
      rfl
    | none | run | creating | exiting | gone => cases hb

theorem holds_of_writing (h : pos.writing = some a) : pos.exitHolds = some a := by
  cases pos with
  | exiting v pos => cases pos <;> first | exact h | cases h
  | none | run | creating | joining | gone => cases h

theorem not_both_hold (h : pos.joinHolds c = some a) : pos.exitHolds = Option.none := by
  cases pos with
  | joining => rfl
  | none | run | creating | exiting | gone => cases h

end ThrAt

namespace CondMem

variable {θ μ : Type*} [DecidableEq θ] [DecidableEq μ] {m m' : CondMem θ μ} {t : θ} {mp : μ} {pos pos' : CondAt θ}

theorem exec_mutex (h : m.exec t mp pos = some (pos', m')) :
    (m'.mutex = m.mutex ∧ pos'.holdsMutex = pos.holdsMutex) ∨
    (pos.holdsMutex ∧ pos'.holdsMutex = false ∧ m'.mutex = update m.mutex mp 1) ∨
    (m.mutex mp ≠ 0 ∧ pos.holdsMutex = false ∧ pos'.holdsMutex ∧ m'.mutex = update m.mutex mp 0) := by
  have hlock : ∀ {p : CondAt θ}, m.lockQueue p = some (pos', m') → pos' = p ∧ m'.mutex = m.mutex := by
    intro p hl
    obtain ⟨v, -, he⟩ := Option.map_eq_some_iff.mp hl
    cases he
    exact ⟨rfl, rfl⟩
  cases pos with
  | wait | signal | broadcast =>
    simp only [exec] at h
    split at h <;> cases h <;> exact .inl ⟨rfl, rfl⟩
  | waitLock | delLock | sigLock | bcLock =>
    obtain ⟨rfl, hm⟩ := hlock h
    exact .inl ⟨hm, rfl⟩
  | add | addUnlock | del | delUnlock | sigWake | sigUnlock | bcMark | bcUnlock =>
    cases h
    exact .inl ⟨rfl, rfl⟩
  | deschedule =>
    cases h
    refine .inl ⟨?_, rfl⟩
    unfold CondMem.deschedule
    split <;> rfl
  | sigFirst =>
    simp only [exec] at h
    split at h <;> cases h <;> exact .inl ⟨rfl, rfl⟩
  | bcFirst =>
    cases h
    exact .inl ⟨rfl, by cases m.cv.waiting.head? <;> rfl⟩
  | bcWake thr =>
    cases h
    exact .inl ⟨rfl, by cases m.next thr <;> rfl⟩
  | release =>
    cases h
    exact .inr (.inl ⟨rfl, rfl, rfl⟩)
  | relock =>
    obtain ⟨v, hv, he⟩ := Option.map_eq_some_iff.mp h
    cases he
    obtain ⟨hne, rfl⟩ := mutexLock_eq_some.mp hv
    exact .inr (.inr ⟨hne, rfl, rfl, rfl⟩)
  | done => cases h

theorem exec_signal (h : m.exec t mp pos = some (pos', m')) (hp : pos.ofSignal) :
    m'.mutex = m.mutex ∧ pos'.ofSignal := by
  cases pos with
  | signal | sigFirst =>
    simp only [exec] at h
    split at h <;> cases h <;> exact ⟨rfl, rfl⟩
  | sigLock =>
    obtain ⟨v, -, he⟩ := Option.map_eq_some_iff.mp h
    cases he
    exact ⟨rfl, rfl⟩
  | sigWake | sigUnlock =>
    cases h
    exact ⟨rfl, rfl⟩
  | done => cases h
  | wait | waitLock | add | addUnlock | release | deschedule | relock | delLock | del | delUnlock | broadcast | bcLock | bcFirst |
    bcMark | bcWake | bcUnlock => cases hp

end CondMem

namespace ThrRun

section
variable {x y : ThrRun} {t u tid : Int} {pos : ThrAt} {a : Nat}

theorem Mut.goes (h : Mut x) (hpc : y.pc = update x.pc t pos) (hcond : ∀ u, u ≠ t → y.cond u = x.cond u)
    (hkeep : ∀ u b, u ≠ t → ((x.pc u).joinHolds (x.cond u) = some b ∨ (x.pc u).exitHolds = some b ∧
      y.cell b = .linked) →
      (y.tcb b).tcbMutex = 0)
    (hjoin : ∀ b, pos.joinHolds (y.cond t) = some b → (y.tcb b).tcbMutex = 0 ∧ ∀ u, u ≠ t → (x.pc u).exitHolds ≠ some b)
    (hexit : ∀ b, pos.exitHolds = some b → (y.cell b = .linked → (y.tcb b).tcbMutex = 0) ∧
      ∀ u, u ≠ t → (x.pc u).joinHolds (x.cond u) ≠ some b)
    (hsig : ∀ v b, pos = .exiting v (.signal b) → (y.cond t).ofSignal) : Mut y := by
  have hself : y.pc t = pos := by rw [hpc, update_self]
  have hother : ∀ {u}, u ≠ t → y.pc u = x.pc u := fun hu => by rw [hpc, update_of_ne hu]
  refine ⟨fun {u b} hu => ?_, fun {u b} hu hl => ?_, fun {u w b} hu hw => ?_, fun {u v b} hu => ?_⟩
  · by_cases e : u = t
    · rw [e, hself] at hu
      exact (hjoin b hu).1
    · rw [hother e, hcond u e] at hu
      exact hkeep u b e (.inl hu)
  · by_cases e : u = t
    · rw [e, hself] at hu
      exact (hexit b hu).1 hl
    · rw [hother e] at hu
      exact hkeep u b e (.inr ⟨hu, hl⟩)
  · by_cases eu : u = t <;> by_cases ew : w = t
    · rw [eu, hself] at hu
      rw [ew, hself, ThrAt.not_both_hold hu] at hw
      cases hw
    · rw [eu, hself] at hu
      rw [hother ew] at hw
      exact (hjoin b hu).2 w ew hw
    · rw [hother eu, hcond u eu] at hu
      rw [ew, hself] at hw
      exact (hexit b hw).2 u eu hu
    · rw [hother eu, hcond u eu] at hu
      rw [hother ew] at hw
      exact h.apart hu hw
  · by_cases e : u = t
    · rw [e, hself] at hu
      exact e ▸ hsig v b hu
    · rw [hother e] at hu
      exact hcond u e ▸ h.signals hu

theorem Mut.quiet {pos' : ThrAt} (h : Mut x) (hp : x.pc t = pos') (hpc : y.pc = update x.pc t pos)
    (hcond : ∀ u, u ≠ t → y.cond u = x.cond u)
    (htcb : ∀ b, (y.tcb b).tcbMutex = (x.tcb b).tcbMutex)
    (hcell : ∀ u b, (x.pc u).exitHolds = some b → y.cell b = .linked → x.cell b = .linked)
    (hjoin : ∀ b, pos.joinHolds (y.cond t) = some b → pos'.joinHolds (x.cond t) = some b)
    (hexit : ∀ b, pos.exitHolds = some b → pos'.exitHolds = some b)
    (hsig : ∀ v b, pos = .exiting v (.signal b) → (y.cond t).ofSignal) : Mut y := by
  subst hp
  refine h.goes hpc hcond (fun u b _ hu => ?_) (fun b hb => ⟨?_, fun u _ hu => ?_⟩)
    (fun b hb => ⟨fun hl => ?_, fun u _ hu => ?_⟩) hsig
  · rw [htcb]
    rcases hu with hu | ⟨hu, hl⟩
    · exact h.join hu
    · exact h.exit hu (hcell u b hu hl)
  · rw [htcb]
    exact h.join (hjoin b hb)
  · exact h.apart (hjoin b hb) hu
  · rw [htcb]
    exact h.exit (hexit b hb) (hcell t b (hexit b hb) hl)
  · exact h.apart hu (hexit b hb)

theorem Mut.takes (h : Mut x) (hpc : y.pc = update x.pc t pos) (hcond : ∀ u, u ≠ t → y.cond u = x.cond u)
    (hne : (x.tcb a).tcbMutex ≠ 0) (hself : (y.tcb a).tcbMutex = 0)
    (htcb : ∀ b, b ≠ a → (y.tcb b).tcbMutex = (x.tcb b).tcbMutex)
    (hcell : y.cell = x.cell) (hjoin : ∀ b, pos.joinHolds (y.cond t) = some b → b = a ∧ x.cell a = .linked)
    (hexit : ∀ b, pos.exitHolds = some b → b = a) (hsig : ∀ v b, pos ≠ .exiting v (.signal b)) : Mut y := by
  refine h.goes hpc hcond (fun u b _ hu => ?_) (fun b hb => ?_) (fun b hb => ?_) fun v b hb => absurd hb (hsig v b)
  · by_cases e : b = a
    · rw [e, hself]
    · rw [htcb b e]
      rcases hu with hu | ⟨hu, hl⟩
      · exact h.join hu
      · exact h.exit hu (hcell ▸ hl)
  · obtain ⟨rfl, hl⟩ := hjoin b hb
    exact ⟨hself, fun u _ hu => hne (h.exit hu hl)⟩
  · obtain rfl := hexit b hb
    exact ⟨fun _ => hself, fun u _ hu => hne (h.join hu)⟩

theorem Mut.changes (h : Mut x) (hpc : y.pc = update x.pc t pos) (hcond : ∀ u, u ≠ t → y.cond u = x.cond u)
    (hfree : ∀ u, u ≠ t → (x.pc u).joinHolds (x.cond u) ≠ some a ∧ ((x.pc u).exitHolds = some a → y.cell a ≠ .linked))
    (htcb : ∀ b, b ≠ a → (y.tcb b).tcbMutex = (x.tcb b).tcbMutex) (hcell : ∀ b, b ≠ a → y.cell b = x.cell b)
    (hjoin : pos.joinHolds (y.cond t) = none) (hexit : pos.exitHolds = none) : Mut y := by
  refine h.goes hpc hcond (fun u b hu hb => ?_) (fun b hb => ?_) (fun b hb => ?_) fun v b hb => ?_
  · have e : b ≠ a := by
      rintro rfl
      rcases hb with hb | ⟨hb, hl⟩
      · exact (hfree u hu).1 hb
      · exact (hfree u hu).2 hb hl
    rw [htcb b e]
    rcases hb with hb | ⟨hb, hl⟩
    · exact h.join hb
    · exact h.exit hb (hcell b e ▸ hl)
  · rw [hjoin] at hb
    cases hb
  · rw [hexit] at hb
    cases hb
  · rw [hb] at hexit
    cases hexit

theorem Base.joinHolds (h : Base x) (hu : (x.pc u).joinHolds (x.cond u) = some a) : x.cell a = .linked := by
  obtain ⟨r, hr⟩ := ThrAt.linked_of_joinHolds hu
  exact ((h.good u).linked r a hr).1

theorem Base.exitHolds (h : Base x) (hu : (x.pc u).exitHolds = some a) : x.Added a ∧ (x.tcb a).id = u :=
  (h.good u).found a (ThrAt.found_of_exitHolds hu)

theorem Base.joinHolds_alone (h : Base x) (ht : (x.pc t).joinHolds (x.cond t) = some a)
    (hu : (x.pc u).joinHolds (x.cond u) = some a) : t = u := by
  obtain ⟨r, hr⟩ := ThrAt.linked_of_joinHolds ht
  obtain ⟨r', hr'⟩ := ThrAt.linked_of_joinHolds hu
  obtain rfl : r = r' := ((h.good t).linked r a hr).2.symm.trans ((h.good u).linked r' a hr').2
  exact h.joiners ⟨a, .inl hr⟩ ⟨a, .inl hr'⟩

theorem Mut.execWait {r : Int} {p : Bool} (h : Mut x) (hb : Base x) (hp : x.pc t = .joining r p (.wait a))
    (he : x.execCond t a = some y) : Mut y := by
  obtain ⟨-, ⟨c, m⟩, hr, rfl⟩ := execCond_eq_some he
  have hself : ((x.setView a m).callCond t c).cond t = c := update_self ..
  have hpc : ((x.setView a m).callCond t c).pc = update x.pc t (.joining r p (.wait a)) := by
    rw [← hp]
    exact (update_eq_self t x.pc).symm
  have hcond : ∀ u, u ≠ t → ((x.setView a m).callCond t c).cond u = x.cond u := fun u hu => update_of_ne hu ..
  have hlinked : x.cell a = .linked := ((hb.good t).linked r a (by rw [hp]; rfl)).1
  rcases CondMem.exec_mutex hr with ⟨hm, hh⟩ | ⟨hh, hh', hm⟩ | ⟨hne, hh, hh', hm⟩
  · refine h.quiet hp hpc hcond (fun b => congrFun hm b) (fun _ _ _ => id) (fun b hb => ?_)
      (fun _ => id) fun v b hb => by cases hb
    rw [hself] at hb
    simpa [ThrAt.joinHolds, hh] using hb
  · have ht : (x.pc t).joinHolds (x.cond t) = some a := by simp [hp, ThrAt.joinHolds, hh]
    refine h.changes (a := a) hpc hcond (fun u hu =>
      ⟨fun hx => hu (hb.joinHolds_alone hx ht), fun hx => absurd hx (h.apart ht)⟩)
      (fun b e => ?_) (fun _ _ => rfl) ?_ rfl
    · exact (congrFun hm b).trans (update_of_ne e ..)
    · rw [hself]
      simp [ThrAt.joinHolds, hh']
  · refine h.takes (a := a) hpc hcond hne ((congrFun hm a).trans (update_self ..)) (fun b e => ?_) rfl
      (fun b hb => ⟨?_, hlinked⟩)
      (fun b hb => by cases hb) fun v b hb => by cases hb
    · exact (congrFun hm b).trans (update_of_ne e ..)
    · obtain ⟨-, ⟨⟩⟩ := Option.ite_none_right_eq_some.mp hb
      rfl

theorem Mut.leaves (h : Mut x) (hpc : y.pc = update x.pc t pos) (hcond : ∀ u, u ≠ t → y.cond u = x.cond u)
    (htcb : ∀ b, (y.tcb b).tcbMutex = (x.tcb b).tcbMutex)
    (hcell : ∀ u b, (x.pc u).exitHolds = some b → y.cell b = .linked → x.cell b = .linked)
    (hjoin : pos.joinHolds (y.cond t) = none) (hexit : pos.exitHolds = none) : Mut y := by
  refine h.quiet rfl hpc hcond htcb hcell (fun b hb => ?_) (fun b hb => ?_) fun v b hb => ?_
  · rw [hjoin] at hb
    cases hb
  · rw [hexit] at hb
    cases hb
  · rw [hb] at hexit
    cases hexit

theorem Mut.passes (h : Mut x) (hpc : y.pc = update x.pc t pos)
    (hsame : (y.cond, y.tcb, y.cell) = (x.cond, x.tcb, x.cell))
    (hjoin : pos.joinHolds (y.cond t) = none) (hexit : pos.exitHolds = none) : Mut y := by
  simp only [Prod.mk.injEq] at hsame
  obtain ⟨hcond, htcb, hcell⟩ := hsame
  exact h.leaves hpc (fun u _ => congrFun hcond u) (fun b => by rw [htcb]) (fun u b _ hl => hcell ▸ hl) hjoin hexit

theorem mutex_update {f : Nat → Tcb} {tcb : Tcb} (h : tcb.tcbMutex = (f a).tcbMutex) (b : Nat) :
    (update f a tcb b).tcbMutex = (f b).tcbMutex := by
  by_cases e : b = a
  · simp [e, h]
  · simp [e]

theorem Mut.execCreate {pos : CreateAt} (h : Mut x) (hb : Base x) (hp : x.pc t = .creating pos)
    (he : x.execCreate t pos = some y) : Mut y := by
  cases pos with
  | lock a =>
    obtain ⟨-, rfl⟩ := lockList_eq_some.mp he
    exact h.passes rfl rfl rfl rfl
  | fork => cases he
  | add a tid =>
    cases he
    refine h.leaves (t := t) rfl (fun _ _ => rfl) (mutex_update rfl) (fun u b hu hl => ?_) rfl rfl
    have hc := (hb.good t).created a (by rw [hp]; rfl)
    have e : b ≠ a := by
      rintro rfl
      have := (hb.exitHolds hu).1
      simp [Added, hc] at this
    exact (update_of_ne e ..).symm.trans hl
  | unlock =>
    cases he
    exact h.passes (t := t) rfl rfl rfl rfl

theorem Mut.execJoin {r : Int} {p : Bool} {pos : JoinAt} (h : Mut x) (hb : Base x) (hp : x.pc t = .joining r p pos)
    (he : x.execJoin t r p pos = some y) : Mut y := by
  have hg := hb.good t
  rw [hp] at hg
  cases pos with
  | lock | lockList =>
    obtain ⟨-, rfl⟩ := lockList_eq_some.mp he
    exact h.passes rfl rfl rfl rfl
  | unlock q =>
    cases q with
    | none =>
      cases he
      exact h.passes (t := t) rfl rfl rfl rfl
    | some a =>
      cases he
      exact h.passes (t := t) rfl rfl rfl rfl
  | find | status | unlockList =>
    cases he
    exact h.passes (t := t) rfl rfl rfl rfl
  | mutex a =>
    obtain ⟨hne, rfl⟩ := lockTcb_eq_some.mp he
    refine h.takes (a := a) rfl (fun _ _ => rfl) hne (by simp [goto, setTcb]) (fun b e => ?_) rfl (fun b hb => ?_)
      (fun b hb => by cases hb) fun v b hb => by cases hb
    · simp [goto, setTcb, e]
    · cases hb
      exact ⟨rfl, (hg.linked r a rfl).1⟩
  | test a =>
    simp only [ThrRun.execJoin] at he
    split at he <;> cases he
    · refine h.quiet hp rfl (fun u hu => update_of_ne hu ..) (fun _ => rfl) (fun _ _ _ => id) (fun b hb => ?_)
        (fun b hb => by cases hb)
        fun v b hb => by cases hb
      obtain ⟨-, ⟨⟩⟩ := Option.ite_none_right_eq_some.mp hb
      rfl
    · exact h.passes rfl rfl rfl rfl
  | wait a =>
    simp only [ThrRun.execJoin] at he
    split at he
    · rename_i hdone
      cases he
      refine h.quiet hp rfl (fun _ _ => rfl) (fun _ => rfl) (fun _ _ _ => id) (fun b hb => ?_) (fun b hb => by cases hb)
        fun v b hb => by cases hb
      cases hb
      simp [ThrAt.joinHolds, hdone, CondAt.holdsMutex]
    · exact h.execWait hb hp he
  | del a s =>
    cases he
    refine h.leaves (t := t) rfl (fun _ _ => rfl) (fun _ => rfl) (fun u b _ hl => ?_) rfl rfl
    by_cases e : b = a
    · simp [setCell, goto, e] at hl
    · exact (update_of_ne e ..).symm.trans hl
  | destroyMutex a s =>
    cases he
    have hc := (hg.unlinked r a rfl).1
    refine h.changes (t := t) (a := a) rfl (fun _ _ => rfl) (fun u _ => ⟨fun hu => ?_, fun _ hl => ?_⟩) (fun b e => ?_)
      (fun _ _ => rfl) rfl rfl
    · have := hb.joinHolds hu
      rw [hc] at this
      cases this
    · have hl : x.cell a = .linked := hl
      rw [hc] at hl
      cases hl
    · simp [goto, setTcb, e]
  | destroyCond a s =>
    cases he
    exact h.leaves (t := t) rfl (fun _ _ => rfl) (mutex_update rfl) (fun _ _ _ => id) rfl rfl
  | free a s =>
    cases he
    refine h.leaves (t := t) rfl (fun _ _ => rfl) (fun _ => rfl) (fun u b _ hl => ?_) rfl rfl
    by_cases e : b = a
    · simp [setCell, goto, e] at hl
    · exact (update_of_ne e ..).symm.trans hl

theorem Mut.execExit {v : Word} {pos : ExitAt} (h : Mut x) (hb : Base x) (hp : x.pc t = .exiting v pos)
    (he : x.execExit t v pos = some y) : Mut y := by
  cases pos with
  | lock =>
    obtain ⟨-, rfl⟩ := lockList_eq_some.mp he
    exact h.passes rfl rfl rfl rfl
  | find | stack | vanish =>
    cases he
    exact h.passes rfl rfl rfl rfl
  | unlock q =>
    cases q with
    | none =>
      cases he
      exact h.passes (t := t) rfl rfl rfl rfl
    | some a =>
      cases he
      exact h.passes (t := t) rfl rfl rfl rfl
  | mutex a =>
    obtain ⟨hne, rfl⟩ := lockTcb_eq_some.mp he
    refine h.takes (a := a) rfl (fun _ _ => rfl) hne (by simp [goto, setTcb]) (fun b e => ?_) rfl
      (fun b hb => by cases hb)
      (fun b hb => ?_) fun v b hb => by cases hb
    · simp [goto, setTcb, e]
    · cases hb
      rfl
  | exited a =>
    cases he
    exact h.quiet (t := t) hp rfl (fun _ _ => rfl) (mutex_update rfl) (fun _ _ _ => id) (fun _ hb => by cases hb)
      (fun _ => id)
      fun v b hb => by cases hb
  | status a =>
    cases he
    refine h.quiet (t := t) hp rfl (fun u hu => update_of_ne hu ..) (mutex_update rfl) (fun _ _ _ => id)
      (fun _ hb => by cases hb)
      (fun _ => id) fun v b _ => ?_
    simp [goto, callCond, CondAt.ofSignal]
  | signal a =>
    simp only [ThrRun.execExit] at he
    split at he
    · cases he
      exact h.quiet hp rfl (fun _ _ => rfl) (fun _ => rfl) (fun _ _ _ => id) (fun _ hb => by cases hb) (fun _ => id)
        fun v b hb => by cases hb
    · obtain ⟨-, ⟨c, m⟩, hr, rfl⟩ := execCond_eq_some he
      obtain ⟨hm, hc⟩ := CondMem.exec_signal hr (h.signals hp)
      refine h.quiet (t := t) hp ?_ (fun u hu => update_of_ne hu ..) (fun b => congrFun hm b)
        (fun _ _ _ => id) (fun _ hb => by cases hb) (fun _ => id) fun v b _ => ?_
      · rw [← hp]
        exact (update_eq_self t x.pc).symm
      · simpa [callCond] using hc
  | unlockMutex a =>
    cases he
    have hold : (x.pc t).exitHolds = some a := by rw [hp]; rfl
    refine h.changes (t := t) (a := a) rfl (fun _ _ => rfl) (fun u hu => ⟨fun hx => h.apart hx hold, fun hx => ?_⟩)
      (fun b e => ?_)
      (fun _ _ => rfl) rfl rfl
    · exact absurd ((hb.exitHolds hx).2.symm.trans (hb.exitHolds hold).2) hu
    · simp [goto, setTcb, e]

theorem Mut.act {c : ThrAct} (h : Mut x) (hb : Base x) (hs : x.act c = some y) : Mut y := by
  cases c with
  | create t a =>
    obtain ⟨⟨hp, hc⟩, ⟨⟩⟩ := Option.ite_none_right_eq_some.mp hs
    refine h.changes (t := t) (a := a) rfl (fun _ _ => rfl) (fun u _ => ⟨fun hu => ?_, fun hu _ => ?_⟩) (fun b e => ?_)
      (fun b e => ?_)
      rfl rfl
    · have := hb.joinHolds hu
      rw [hc] at this
      cases this
    · have := (hb.exitHolds hu).1
      simp [Added, hc] at this
    · simp [goto, setCell, setTcb, e]
    · exact update_of_ne e ..
  | fork t tid =>
    simp only [ThrRun.act] at hs
    split at hs
    · rename_i a hp
      split at hs
      · cases hs
        exact h.passes (t := t) rfl rfl rfl rfl
      · obtain ⟨-, ⟨⟩⟩ := Option.ite_none_right_eq_some.mp hs
        have hx : Mut (x.goto tid .run) := h.passes rfl rfl rfl rfl
        exact hx.passes (t := t) rfl rfl rfl rfl
    · cases hs
  | join t tid p =>
    obtain ⟨hp, hs⟩ := Option.ite_none_right_eq_some.mp hs
    split at hs <;> cases hs <;>
      exact h.passes (t := t) rfl rfl rfl rfl
  | exit t v =>
    obtain ⟨hp, ⟨⟩⟩ := Option.ite_none_right_eq_some.mp hs
    exact h.passes (t := t) rfl rfl rfl rfl
  | exec t =>
    simp only [ThrRun.act, ThrRun.exec] at hs
    cases hp : x.pc t with
    | creating pos =>
      rw [hp] at hs
      exact h.execCreate hb hp hs
    | joining tid p pos =>
      rw [hp] at hs
      exact h.execJoin hb hp hs
    | exiting v pos =>
      rw [hp] at hs
      exact h.execExit hb hp hs
    | none | run | gone =>
      rw [hp] at hs
      cases hs

/-! ## The values -/

theorem said_update {f : Nat → Tcb} {tcb : Tcb} (h₁ : tcb.exited = (f a).exited) (h₂ : tcb.status = (f a).status)
    (h₃ : tcb.id = (f a).id) (b : Nat) : (update f a tcb b).exited = (f b).exited ∧
      (update f a tcb b).status = (f b).status ∧ (update f a tcb b).id = (f b).id := by
  by_cases e : b = a
  · simp [e, h₁, h₂, h₃]
  · simp [e]

theorem joining_follows_run {r : Int} {p : Bool} {q : JoinAt} : (ThrAt.joining r p q).Follows .run :=
  ⟨by simp [ThrAt.joins], fun _ => id, id, fun _ => id, rfl, id,
  rfl, by simp [ThrAt.seen], by simp [ThrAt.answer], fun _ => rfl, rfl⟩

theorem Vals.execCond (h : Vals x) (he : x.execCond t a = some y) : Vals y := by
  obtain ⟨-, r, -, rfl⟩ := execCond_eq_some he
  exact h.quiet (t := t) rfl (update_eq_self t x.pc).symm (.of_eq rfl h.found) rfl
    fun _ => ⟨rfl, rfl, rfl⟩

theorem Vals.add {r : Int} (h : Vals x) (hb : Base x) (hp : x.pc t = .creating (.add a r)) :
    Vals { ((x.setTcb a fun tcb => { tcb with id := r }).setCell a .linked).goto t (.creating .unlock) with
      list := x.list ++ [a] } := by
  have hc := (hb.good t).created a (by rw [hp]; rfl)
  have hfresh : (x.tcb a).exited ≠ TRUE := h.fresh (t := t) (by rw [hp]; rfl)
  have hexited : ∀ b, (update x.tcb a { x.tcb a with id := r } b).exited = (x.tcb b).exited := by
    intro b
    by_cases e : b = a <;> simp [e]
  have hne : ∀ b, (x.tcb b).exited = TRUE → b ≠ a := by
    rintro b he rfl
    exact hfresh he
  refine h.goes (t := t) rfl (fun _ _ => rfl) (fun _ _ => id) (fun _ => id) (fun b hb' he => .inl ?_)
    (fun u b hu => ?_) (fun u b _ hu he => h.fresh hu ((hexited b).symm.trans he)) h.joined
    (fun _ hr => by cases hr) (fun _ hv => by cases hv) (fun v hv => ?_) (fun _ hb => by cases hb)
    (fun hl => by rw [hp] at hl; cases hl)
    (fun b hw => by rw [hp] at hw; cases hw) (fun _ hs => by cases hs) (fun _ _ _ hr => by cases hr)
    (fun u hu => ?_) rfl
  · have he : (x.tcb b).exited = TRUE := (hexited b).symm.trans he
    have e := hne b he
    refine ⟨?_, he, by simp [goto, setCell, setTcb, e], by simp [goto, setCell, setTcb, e]⟩
    exact (Added.congr (x := x) (a := b) (update_of_ne e ..)).mp hb'
  · have hs := h.seen hu
    simpa [Exited, goto, setCell, setTcb, hne b hs.1] using hs
  · have := h.ended hv
    rw [hp] at this
    cases this
  · -- the TCB's thread is in the list from now on
    have hux : (x.pc u).early := by
      by_cases e : u = t
      · rw [e, hp]
        rfl
      · have hu : (update x.pc t (.creating .unlock) u).early := hu
        rwa [update_of_ne e] at hu
    rcases h.listed hux with ⟨b, hbl, hi⟩ | ⟨w, hw⟩
    · have e : b ≠ a := by
        rintro rfl
        have := (hb.mem b).mp hbl
        rw [hc] at this
        cases this
      exact .inl ⟨b, List.mem_append_left _ hbl, by simpa [goto, setCell, setTcb, e] using hi⟩
    · by_cases e : w = t
      · rw [e, hp] at hw
        cases hw
        exact .inl ⟨a, by simp, by simp [goto, setCell, setTcb]⟩
      · exact .inr ⟨w, (congrArg ThrAt.newTid (update_of_ne e ..)).trans hw⟩

theorem Vals.execCreate {pos : CreateAt} (h : Vals x) (hb : Base x) (hp : x.pc t = .creating pos)
    (he : x.execCreate t pos = some y) : Vals y := by
  cases pos with
  | lock a =>
    obtain ⟨-, rfl⟩ := lockList_eq_some.mp he
    exact h.quiet hp rfl (.of_eq rfl rfl) rfl fun _ => ⟨rfl, rfl, rfl⟩
  | fork => cases he
  | add a tid =>
    cases he
    exact h.add hb hp
  | unlock =>
    cases he
    exact h.quiet hp rfl (.of_eq rfl rfl) rfl fun _ => ⟨rfl, rfl, rfl⟩

theorem Vals.joiner {r : Int} {p : Bool} {q q' : JoinAt} (h : Vals x) (hp : x.pc t = .joining r p q)
    (hseen : ∀ b, q'.seen = some b → x.Exited b)
    (hanswer : ∀ s, q'.answer = some s → ∃ v, x.exits r = some v ∧ (p → s = some v)) :
    Vals (x.goto t (.joining r p q')) := by
  refine h.plain (t := t) rfl rfl (fun _ => id) (fun _ => ⟨rfl, rfl, rfl⟩) (fun _ => id) h.joined
    (fun r' hr => ⟨?_, fun u hu hn => ?_⟩)
    (fun _ hv => by cases hv) (fun hv => by rw [hp] at hv; cases hv) (fun _ hb => by cases hb)
    (fun hl => by rw [hp] at hl; cases hl)
    (fun b hw => by rw [hp] at hw; cases hw) hseen (fun r' p' s' hr => ?_) (fun u hu => ?_) rfl
  · exact h.called (t := t) (by rw [hp]; exact hr)
  · exact hu (h.alone hn (by rw [hp]; exact hr))
  · obtain ⟨s, hs, he⟩ := Option.map_eq_some_iff.mp hr
    cases he
    exact hanswer _ hs
  · exact h.listed_update (y := x.goto t (.joining r p q')) rfl (fun _ => by rw [hp]; rfl) (by rw [hp]; rfl)
      (fun _ ha _ => ha) hu

theorem Vals.test {r : Int} {p : Bool} (h : Vals x) (hb : Base x) (hm : Mut x) (hp : x.pc t = .joining r p (.test a))
    (hx : (x.tcb a).exited = TRUE) : Vals (x.goto t (.joining r p (.status a))) := by
  have hhold : (x.pc t).joinHolds (x.cond t) = some a := by rw [hp]; rfl
  have hexited : x.Exited a := by
    refine ⟨hx, (h.value (.inl (hb.joinHolds hhold)) hx).resolve_left fun hw => ?_⟩
    exact hm.apart hhold (ThrAt.holds_of_writing hw)
  refine h.joiner hp (fun b hs => ?_) fun s hs => by cases hs
  cases hs
  exact hexited

theorem Vals.status {r : Int} {p : Bool} {s : Option Word} (h : Vals x) (hb : Base x)
    (hp : x.pc t = .joining r p (.status a))
    (hs : s = if p then some (x.tcb a).status else none) : Vals (x.goto t (.joining r p (.lockList a s))) := by
  have hexited : x.Exited a := h.seen (t := t) (by rw [hp]; rfl)
  have hid := ((hb.good t).linked r a (by rw [hp]; rfl)).2
  refine h.joiner hp (fun b hb => ?_) fun s' hs' => ?_
  · cases hb
    exact hexited
  · cases hs'
    exact ⟨_, hid ▸ hexited.2, fun hp => hs.trans (if_pos hp)⟩

theorem Vals.del {r : Int} {p : Bool} {s : Option Word} (h : Vals x) (hb : Base x)
    (hp : x.pc t = .joining r p (.del a s)) :
    Vals { (x.setCell a .unlinked).goto t (.joining r p (.destroyMutex a s)) with list := x.list.erase a } := by
  have hexited : x.Exited a := h.seen (t := t) (by rw [hp]; rfl)
  have hc := ((hb.good t).linked r a (by rw [hp]; rfl)).1
  have hlate := h.late (.inl hc) hexited.1
  refine h.follows hp rfl ⟨fun _ => id, fun _ => id, id, fun _ => id, rfl, id,
    rfl, by simp [ThrAt.seen, JoinAt.seen], fun _ => id, id, rfl⟩
    rfl rfl (fun _ => ⟨rfl, rfl, rfl⟩) (fun b hb' => ?_) (fun b hbl hearly => ?_) h.joined
  · by_cases e : b = a
    · exact e ▸ .inl hc
    · exact (Added.congr (x := x) (a := b) (update_of_ne e ..)).mp hb'
  · have e : b ≠ a := by
      rintro rfl
      exact ThrAt.not_early_of_late hlate hearly
    exact (List.mem_erase_of_ne e).mpr hbl

theorem Vals.execJoin {r : Int} {p : Bool} {pos : JoinAt} (h : Vals x) (hb : Base x) (hm : Mut x)
    (hp : x.pc t = .joining r p pos)
    (he : x.execJoin t r p pos = some y) : Vals y := by
  cases pos with
  | lock | lockList =>
    obtain ⟨-, rfl⟩ := lockList_eq_some.mp he
    exact h.quiet hp rfl (.of_eq rfl rfl) rfl fun _ => ⟨rfl, rfl, rfl⟩
  | find =>
    cases he
    exact h.quiet hp rfl (.of_eq rfl rfl) rfl fun _ => ⟨rfl, rfl, rfl⟩
  | unlock q =>
    cases q with
    | none =>
      cases he
      refine h.follows hp rfl joining_follows_run rfl rfl (fun _ => ⟨rfl, rfl, rfl⟩) (fun _ => id)
        (fun _ ha _ => ha) fun k hk h0 => ?_
      rcases List.mem_cons.mp hk with rfl | hk
      · simp [ERR_INVAL] at h0
      · exact h.joined k hk h0
    | some a =>
      cases he
      exact h.quiet hp rfl (.of_eq rfl rfl) rfl fun _ => ⟨rfl, rfl, rfl⟩
  | mutex a =>
    obtain ⟨-, rfl⟩ := lockTcb_eq_some.mp he
    exact h.quiet hp rfl (.of_eq rfl rfl) rfl (said_update rfl rfl rfl)
  | test a =>
    simp only [ThrRun.execJoin] at he
    split at he <;> cases he
    · exact h.quiet hp rfl (.of_eq rfl rfl) rfl fun _ => ⟨rfl, rfl, rfl⟩
    · rename_i hx
      exact h.test hb hm hp (not_not.mp hx)
  | wait a =>
    simp only [ThrRun.execJoin] at he
    split at he
    · cases he
      exact h.quiet hp rfl (.of_eq rfl rfl) rfl fun _ => ⟨rfl, rfl, rfl⟩
    · exact h.execCond he
  | status a =>
    cases he
    exact h.status hb hp rfl
  | del a s =>
    cases he
    exact h.del hb hp
  | destroyMutex a s =>
    cases he
    exact h.quiet hp rfl (.of_eq rfl rfl) rfl (said_update rfl rfl rfl)
  | destroyCond a s =>
    cases he
    exact h.quiet hp rfl (.of_eq rfl rfl) rfl (said_update rfl rfl rfl)
  | free a s =>
    cases he
    have hc := ((hb.good t).unlinked r a (by rw [hp]; rfl)).1
    refine h.follows hp rfl (.of_eq rfl rfl) rfl rfl (fun _ => ⟨rfl, rfl, rfl⟩) (fun b hb' => ?_)
      (fun _ ha _ => ha) h.joined
    by_cases e : b = a
    · exact e ▸ .inr (.inl hc)
    · exact (Added.congr (x := x) (a := b) (update_of_ne e ..)).mp hb'
  | unlockList s =>
    cases he
    have hans : (x.pc t).answer = some (r, p, s) := by rw [hp]; rfl
    refine h.follows hp rfl joining_follows_run rfl rfl (fun _ => ⟨rfl, rfl, rfl⟩) (fun _ => id)
      (fun _ ha _ => ha) fun k hk h0 => ?_
    rcases List.mem_cons.mp hk with rfl | hk
    · exact h.answer hans
    · exact h.joined k hk h0

theorem Vals.finds {v : Word} (h : Vals x) (hl : Locked x) (hp : x.pc t = .exiting v .find) :
    ∃ a, x.findTcb t = some a := by
  have hearly : (x.pc t).early := by rw [hp]; rfl
  have ht : (x.pc t).holdsList := by rw [hp]; rfl
  rcases h.listed hearly with ⟨a, ha, hi⟩ | ⟨u, hu⟩
  · refine Option.isSome_iff_exists.mp (List.find?_isSome.mpr ⟨a, ha, ?_⟩)
    simpa using hi
  · have hu' : (x.pc u).holdsList := by
      cases hq : x.pc u with
      | creating q =>
        rw [hq] at hu
        cases q with
        | add => rfl
        | lock | fork | unlock => cases hu
      | none | run | joining | exiting | gone =>
        rw [hq] at hu
        cases hu
    obtain rfl := hl.unique hu' ht
    rw [hp] at hu
    cases hu

theorem Vals.find {v : Word} (h : Vals x) (hl : Locked x) (hp : x.pc t = .exiting v .find) :
    Vals (x.goto t (.exiting v (.unlock (x.findTcb t)))) := by
  obtain ⟨a, ha⟩ := h.finds hl hp
  rw [ha]
  exact h.quiet hp rfl ⟨fun _ => id, fun _ => id, id, fun _ => id, rfl, id, rfl, fun _ => id, fun _ =>
    id, by simp [ThrAt.early], rfl⟩
    rfl fun _ => ⟨rfl, rfl, rfl⟩

theorem Vals.writes {v : Word} {q q' : ExitAt} {tcb : Tcb} (h : Vals x) (hb : Base x) (hp : x.pc t = .exiting v q)
    (hq : q.found = some a) (hpc : y.pc = update x.pc t (.exiting v q')) (htcb : y.tcb = update x.tcb a tcb)
    (hid : tcb.id = (x.tcb a).id) (hrec : y.record = x.record) (hlate : (ThrAt.exiting v q').late)
    (hvalue : (ThrAt.exiting v q').writing = some a ∨ tcb.status = v)
    (hwriting : ∀ b, (ThrAt.exiting v q).writing = some b → b = a ∧ tcb.status = v)
    (hseen : ∀ u, (x.pc u).seen = some a → tcb.exited = TRUE ∧ tcb.status = v)
    (hlost : (ThrAt.exiting v q').lost = false) : Vals y := by
  simp only [record, Prod.mk.injEq] at hrec
  obtain ⟨hex, hcalled, hcell, hlist, hjoins⟩ := hrec
  obtain ⟨hadd, hown⟩ := (hb.good t).found a (by rw [hp]; exact hq)
  have hexits : y.exits t = some v := by
    rw [hex]
    exact h.exits (by rw [hp]; rfl)
  have hself : ∀ b, b ≠ a → y.tcb b = x.tcb b := fun b e => by rw [htcb, update_of_ne e]
  have hnow : y.tcb a = tcb := by rw [htcb, update_self]
  refine h.goes hpc (fun u _ => congrFun hex u) (fun u w hw => (congrFun hex u).trans hw) (fun r hr => hcalled ▸ hr)
    (fun b hb' he => ?_) (fun u b hu => ?_) (fun u b _ hu => ?_) (hjoins ▸ hex ▸ h.joined) (fun _ hr => by cases hr)
    (fun _ hv => by cases hv; exact hexits) (fun _ _ => rfl) (fun _ hb => by cases hb) (fun _ => hlate) (fun b hw => ?_)
    (fun _ hs => by cases hs) (fun _ _ _ hr => by cases hr) (fun u hu => ?_) hlost
  · by_cases e : b = a
    · subst e
      rw [hnow]
      refine .inr ⟨hid.trans hown, hlate, ?_⟩
      rcases hvalue with hw | hs
      · exact .inl hw
      · rw [hs]
        exact .inr hexits
    · rw [hself b e] at he ⊢
      exact .inl ⟨(Added.congr (congrFun hcell b)).mp hb', he, rfl, rfl⟩
  · unfold Exited
    by_cases e : b = a
    · subst e
      obtain ⟨he, hs⟩ := hseen u hu
      rw [hnow, hid, hown, hs]
      exact ⟨he, hexits⟩
    · rw [hself b e, hex]
      exact h.seen hu
  · have e : b ≠ a := by
      rintro rfl
      have hc := (hb.good u).created b hu
      simp [Added, hc] at hadd
    rw [hself b e]
    exact h.fresh hu
  · rw [hp] at hw
    obtain ⟨rfl, hs⟩ := hwriting b hw
    rw [hnow, hs]
    exact .inr hexits
  · rcases h.listed_update hpc (fun he => absurd he (ThrAt.not_early_of_late hlate)) (by rw [hp]; rfl)
      (fun b hb _ => hlist ▸ hb) hu with ⟨b, hbl, hi⟩ | hw
    · refine .inl ⟨b, hbl, ?_⟩
      rw [htcb]
      exact (id_update hid b).trans hi
    · exact .inr hw

theorem Vals.exited {v : Word} (h : Vals x) (hb : Base x) (hp : x.pc t = .exiting v (.exited a)) :
    Vals ((x.setTcb a fun tcb => { tcb with exited := TRUE }).goto t (.exiting v (.status a))) := by
  obtain ⟨hadd, hid⟩ := (hb.good t).found a (by rw [hp]; rfl)
  refine h.writes hb hp rfl rfl rfl rfl rfl rfl (.inl rfl) (fun b hw => by cases hw) (fun u hu => ?_) rfl
  -- the thread has not been here before
  have := h.late hadd (h.seen hu).1
  rw [hid, hp] at this
  cases this

theorem Vals.setStatus {v : Word} (h : Vals x) (hb : Base x) (hp : x.pc t = .exiting v (.status a)) :
    Vals (((x.setTcb a fun tcb => { tcb with status := v }).callCond t .signal).goto t (.exiting v (.signal a))) := by
  refine h.writes hb hp rfl rfl rfl rfl rfl rfl (.inr rfl) (fun b hw => ⟨?_, rfl⟩)
    (fun u hu => ⟨(h.seen hu).1, rfl⟩) rfl
  cases hw
  rfl

theorem Vals.execExit {v : Word} {pos : ExitAt} (h : Vals x) (hb : Base x) (hl : Locked x)
    (hp : x.pc t = .exiting v pos)
    (he : x.execExit t v pos = some y) : Vals y := by
  cases pos with
  | lock =>
    obtain ⟨-, rfl⟩ := lockList_eq_some.mp he
    exact h.quiet hp rfl (.of_eq rfl rfl) rfl fun _ => ⟨rfl, rfl, rfl⟩
  | find =>
    cases he
    exact h.find hl hp
  | unlock q =>
    cases q with
    | none =>
      have := h.found (t := t)
      rw [hp] at this
      cases this
    | some a =>
      cases he
      exact h.quiet hp rfl (.of_eq rfl rfl) rfl fun _ => ⟨rfl, rfl, rfl⟩
  | mutex a =>
    obtain ⟨-, rfl⟩ := lockTcb_eq_some.mp he
    exact h.quiet hp rfl (.of_eq rfl rfl) rfl (said_update rfl rfl rfl)
  | exited a =>
    cases he
    exact h.exited hb hp
  | status a =>
    cases he
    exact h.setStatus hb hp
  | signal a =>
    simp only [ThrRun.execExit] at he
    split at he
    · cases he
      exact h.quiet hp rfl (.of_eq rfl rfl) rfl fun _ => ⟨rfl, rfl, rfl⟩
    · exact h.execCond he
  | unlockMutex a =>
    cases he
    exact h.quiet hp rfl (.of_eq rfl rfl) rfl (said_update rfl rfl rfl)
  | stack =>
    cases he
    exact h.quiet hp rfl (.of_eq rfl rfl) rfl fun _ => ⟨rfl, rfl, rfl⟩
  | vanish =>
    cases he
    exact h.quiet hp rfl ⟨fun _ => id, by simp [ThrAt.exitValue], id, fun _ => id, rfl, id, rfl, fun _ => id, fun _ => id, id, rfl⟩
      rfl fun _ => ⟨rfl, rfl, rfl⟩

/-! ## The calls -/

theorem Vals.create (h : Vals x) (hb : Base x) (hp : x.pc t = .run) (hc : x.cell a = .unused) :
    Vals (((x.setTcb a (initTcb 0#32)).setCell a .created).goto t (.creating (.lock a))) := by
  have hself : ∀ b, b ≠ a → (((x.setTcb a (initTcb 0#32)).setCell a .created).goto t
    (.creating (.lock a))).tcb b = x.tcb b :=
    fun b e => update_of_ne e ..
  have hne : ∀ {b c}, x.cell b = c → c ≠ .unused → b ≠ a := by
    rintro b c hb hn rfl
    exact hn (hb.symm.trans hc)
  have hadd : ∀ {b}, (((x.setTcb a (initTcb 0#32)).setCell a .created).goto t (.creating (.lock a))).Added b → b ≠ a ∧
    x.Added b := by
    intro b hb'
    have e : b ≠ a := by
      rintro rfl
      simp [Added, goto, setCell] at hb'
    exact ⟨e, (Added.congr (x := x) (a := b) (update_of_ne e ..)).mp hb'⟩
  refine h.goes (t := t) rfl (fun _ _ => rfl) (fun _ _ => id) (fun _ => id) (fun b hb' he => .inl ?_) (fun u b hu => ?_)
    (fun u b _ hu => ?_) h.joined (fun _ hr => by cases hr) (fun _ hv => by cases hv) (fun v hv => ?_) (fun b hb' => ?_)
    (fun hl => by rw [hp] at hl; cases hl) (fun b hw => by rw [hp] at hw; cases hw) (fun _ hs => by cases hs)
    (fun _ _ _ hr => by cases hr) (fun u hu => ?_) rfl
  · obtain ⟨e, ha⟩ := hadd hb'
    rw [hself b e] at he ⊢
    exact ⟨ha, he, rfl, rfl⟩
  · obtain ⟨r, hr⟩ := ThrAt.linked_of_seen hu
    unfold Exited
    rw [hself b (hne ((hb.good u).linked r b hr).1 (by simp))]
    exact h.seen hu
  · rw [hself b (hne ((hb.good u).created b hu) (by simp))]
    exact h.fresh hu
  · have := h.ended hv
    rw [hp] at this
    cases this
  · cases hb'
    simp [goto, setCell, setTcb, initTcb, TRUE, FALSE]
  · rcases h.listed_update (y := x.goto t (.creating (.lock a))) rfl (fun _ => by rw [hp]; rfl) (by rw [hp]; rfl)
      (fun _ hb _ => hb) hu with
      ⟨b, hbl, hi⟩ | hw
    · exact .inl ⟨b, hbl, (id_update (by rfl) b).trans hi⟩
    · exact .inr hw

theorem Vals.fork {r : Int} (h : Vals x) (hp : x.pc t = .creating (.fork a)) (hnone : x.pc r = .none) :
    Vals ((x.goto r .run).goto t (.creating (.add a r))) := by
  have hne : t ≠ r := by
    rintro rfl
    rw [hp] at hnone
    cases hnone
  have hpc : ((x.goto r .run).goto t (.creating (.add a r))).pc = update
    (update x.pc t (.creating (.add a r))) r .run :=
    update_comm hne.symm ..
  have hx : Vals (x.goto t (.creating (.add a r))) := by
    refine h.plain (t := t) rfl rfl (fun _ => id) (fun _ => ⟨rfl, rfl, rfl⟩) (fun _ => id) h.joined
      (fun _ hr => by cases hr)
      (fun _ hv => by cases hv) (fun hv => by rw [hp] at hv; cases hv) (fun b hb => by rw [hp]; exact hb)
      (fun hl => by rw [hp] at hl; cases hl) (fun b hw => by rw [hp] at hw; cases hw) (fun _ hs => by cases hs)
      (fun _ _ _ hr => by cases hr) (fun u hu => ?_) rfl
    have hux : (x.pc u).early := by
      by_cases e : u = t
      · rw [e, hp]
        rfl
      · have hu : (update x.pc t (.creating (.add a r)) u).early := hu
        rwa [update_of_ne e] at hu
    rcases h.listed hux with hl | ⟨w, hw⟩
    · exact .inl hl
    · refine .inr ⟨w, (congrArg ThrAt.newTid (update_of_ne ?_ ..)).trans hw⟩
      rintro rfl
      rw [hp] at hw
      cases hw
  have hpr : (x.goto t (.creating (.add a r))).pc r = .none := (update_of_ne hne.symm ..).trans hnone
  refine hx.plain (t := r) hpc rfl (fun _ => id) (fun _ => ⟨rfl, rfl, rfl⟩) (fun _ => id) h.joined
    (fun _ hr => by cases hr)
    (fun _ hv => by cases hv) (fun hv => by rw [hpr] at hv; cases hv) (fun _ hb => by cases hb)
    (fun hl => by rw [hpr] at hl; cases hl) (fun b hw => by rw [hpr] at hw; cases hw) (fun _ hs => by cases hs)
    (fun _ _ _ hr => by cases hr) (fun u hu => ?_) rfl
  have hmore : ∀ w k, ((x.goto t (.creating (.add a r))).pc w).newTid = some k →
      (((x.goto r .run).goto t (.creating (.add a r))).pc w).newTid = some k := by
    intro w k hw
    have e : w ≠ r := by
      rintro rfl
      rw [hpr] at hw
      cases hw
    rw [hpc, update_of_ne e]
    exact hw
  by_cases e : u = r
  · exact .inr ⟨t, e ▸ hmore t r (by rw [show (x.goto t (.creating (.add a r))).pc t = _ from update_self ..]; rfl)⟩
  · rw [hpc, update_of_ne e] at hu
    rcases hx.listed hu with hl | ⟨w, hw⟩
    · exact .inl hl
    · exact .inr ⟨w, hmore w u hw⟩

theorem Vals.join {r : Int} {p : Bool} (h : Vals x) (hp : x.pc t = .run) (hnew : r ∉ x.called) :
    Vals { x.goto t (.joining r p .lock) with called := r :: x.called } := by
  refine h.plain (t := t) rfl rfl (fun _ => List.mem_cons_of_mem _) (fun _ => ⟨rfl, rfl, rfl⟩) (fun _ => id) h.joined
    (fun k hk => ?_) (fun _ hv => by cases hv) (fun hv => by rw [hp] at hv; cases hv) (fun _ hb => by cases hb)
    (fun hl => by rw [hp] at hl; cases hl) (fun b hw => by rw [hp] at hw; cases hw) (fun _ hs => by cases hs)
    (fun _ _ _ hr => by cases hr) (fun u hu => ?_) rfl
  · cases hk
    exact ⟨List.mem_cons_self .., fun u _ hu => hnew (h.called hu)⟩
  · exact h.listed_update (y := x.goto t (.joining r p .lock)) rfl (fun _ => by rw [hp]; rfl) (by rw [hp]; rfl)
      (fun _ ha _ => ha) hu

theorem Vals.exit {v : Word} (h : Vals x) (hp : x.pc t = .run) :
    Vals { x.goto t (.exiting v .lock) with exits := update x.exits t (some v) } := by
  have hnone : ∀ {u w}, x.exits u = some w → u ≠ t := by
    rintro u w hu rfl
    have := h.ended hu
    rw [hp] at this
    cases this
  have hmore : ∀ u w, x.exits u = some w → update x.exits t (some v) u = some w :=
    fun u w hu => (update_of_ne (hnone hu) ..).trans hu
  refine h.goes (t := t) rfl (fun u hu => update_of_ne hu ..) hmore (fun _ => id)
    (fun b hb he => .inl ⟨hb, he, rfl, rfl⟩)
    (fun u b hu => ⟨(h.seen hu).1, hmore _ _ (h.seen hu).2⟩) (fun u b _ hu => h.fresh hu) (fun k hk h0 => ?_)
    (fun _ hr => by cases hr) (fun w hw => ?_) (fun _ _ => rfl) (fun _ hb => by cases hb)
    (fun hl => by rw [hp] at hl; cases hl)
    (fun b hw => by rw [hp] at hw; cases hw) (fun _ hs => by cases hs) (fun _ _ _ hr => by cases hr)
    (fun u hu => ?_) rfl
  · obtain ⟨w, hw, hs⟩ := h.joined k hk h0
    exact ⟨w, hmore _ _ hw, hs⟩
  · cases hw
    exact update_self ..
  · exact h.listed_update (y := x.goto t (.exiting v .lock)) rfl (fun _ => by rw [hp]; rfl) (by rw [hp]; rfl)
      (fun _ ha _ => ha) hu

theorem Vals.act {c : ThrAct} (h : Vals x) (hb : Base x) (hm : Mut x) (hl : Locked x) (hok : x.Once c)
    (hs : x.act c = some y) :
    Vals y := by
  cases c with
  | create t a =>
    obtain ⟨⟨hp, hc⟩, ⟨⟩⟩ := Option.ite_none_right_eq_some.mp hs
    exact h.create hb hp hc
  | fork t r =>
    have hok : 0 < r := hok
    simp only [ThrRun.act] at hs
    split at hs
    · rename_i a hp
      rw [if_neg (by omega)] at hs
      obtain ⟨⟨-, hnone⟩, ⟨⟩⟩ := Option.ite_none_right_eq_some.mp hs
      exact h.fork hp hnone
    · cases hs
  | join t r p =>
    obtain ⟨hp, hs⟩ := Option.ite_none_right_eq_some.mp hs
    split at hs <;> cases hs
    · -- the call returns an error at once
      have hx : Vals { x with called := r :: x.called, joins := ⟨t, r, p, ERR_INVAL, none⟩ :: x.joins } := by
        refine ⟨fun hu => List.mem_cons_of_mem _ (h.called hu), h.alone, h.exits, h.ended, h.fresh, h.late, h.value,
          h.seen, h.answer,
          fun k hk h0 => ?_, h.listed, h.found⟩
        rcases List.mem_cons.mp hk with rfl | hk
        · simp [ERR_INVAL] at h0
        · exact h.joined k hk h0
      exact hx.quiet (t := t) hp rfl (.of_eq rfl rfl) rfl fun _ => ⟨rfl, rfl, rfl⟩
    · exact h.join hp hok
  | exit t v =>
    obtain ⟨hp, ⟨⟩⟩ := Option.ite_none_right_eq_some.mp hs
    exact h.exit hp
  | exec t =>
    simp only [ThrRun.act, ThrRun.exec] at hs
    cases hp : x.pc t with
    | creating pos =>
      rw [hp] at hs
      exact h.execCreate hb hp hs
    | joining r p pos =>
      rw [hp] at hs
      exact h.execJoin hb hm hp hs
    | exiting v pos =>
      rw [hp] at hs
      exact h.execExit hb hl hp hs
    | none | run | gone =>
      rw [hp] at hs
      cases hs

theorem Vals.findAlone (h : Vals x) : x.FindAlone t := by
  intro r p hp u hu
  obtain rfl : u = t := h.alone (ThrAt.joins_of_hasTcb hu) (by rw [hp]; rfl)
  rw [hp] at hu
  obtain ⟨b, hb | hb⟩ := hu <;> cases hb

theorem Init.vals (h : Init x) : Vals x := by
  obtain ⟨t, a, ht, hlist, hid, hexited, -, -, hpc, hcell⟩ := h.first
  have hplace : ∀ u, x.pc u = .none ∨ x.pc u = .run ∧ u = t := by
    intro u
    rw [hpc]
    by_cases e : u = t
    · rw [e, update_self]
      exact .inr ⟨rfl, rfl⟩
    · rw [update_of_ne e]
      exact .inl rfl
  have hadd : ∀ {b}, x.Added b → (x.tcb b).exited ≠ TRUE := by
    intro b hb
    have e : b = a := by
      by_contra e
      simp [Added, hcell, e] at hb
    simp [e, hexited, TRUE, FALSE]
  refine ⟨fun {u r} hu => ?_, fun {u v r} hu => ?_, fun {u v} hu => ?_, fun {u v} hu => ?_, fun {u b} hu => ?_,
    fun hb he => absurd he (hadd hb), fun hb he => absurd he (hadd hb), fun {u b} hu => ?_, fun {u r p s} hu => ?_, ?_,
    fun {u} hu => ?_, fun {u} => ?_⟩
  · rcases hplace u with hp | ⟨hp, -⟩ <;> rw [hp] at hu <;> cases hu
  · rcases hplace u with hp | ⟨hp, -⟩ <;> rw [hp] at hu <;> cases hu
  · rcases hplace u with hp | ⟨hp, -⟩ <;> rw [hp] at hu <;> cases hu
  · rw [h.exits] at hu
    cases hu
  · rcases hplace u with hp | ⟨hp, -⟩ <;> rw [hp] at hu <;> cases hu
  · rcases hplace u with hp | ⟨hp, -⟩ <;> rw [hp] at hu <;> cases hu
  · rcases hplace u with hp | ⟨hp, -⟩ <;> rw [hp] at hu <;> cases hu
  · simp [h.joins]
  · rcases hplace u with hp | ⟨-, rfl⟩
    · rw [hp] at hu
      cases hu
    · exact .inl ⟨a, by simp [hlist], hid⟩
  · rcases hplace u with hp | ⟨hp, -⟩ <;> rw [hp] <;> rfl

theorem Init.mut (h : Init x) : Mut x := by
  obtain ⟨t, a, -, -, -, -, -, -, hpc, -⟩ := h.first
  have hplace : ∀ u, x.pc u = .none ∨ x.pc u = .run := by
    intro u
    rw [hpc]
    by_cases e : u = t
    · rw [e, update_self]
      exact .inr rfl
    · rw [update_of_ne e]
      exact .inl rfl
  refine ⟨fun {u b} hu => ?_, fun {u b} hu => ?_, fun {u v b} hu => ?_, fun {u v b} hu => ?_⟩
  · rcases hplace u with hp | hp <;> rw [hp] at hu <;> cases hu
  · rcases hplace u with hp | hp <;> rw [hp] at hu <;> cases hu
  · rcases hplace u with hp | hp <;> rw [hp] at hu <;> cases hu
  · rcases hplace u with hp | hp <;> rw [hp] at hu <;> cases hu

theorem Vals.truthful (h : Vals x) (hb : Base x) : x.Truthful := by
  refine ⟨fun t v r hp => ?_, h.joined⟩
  cases r with
  | none =>
    have := h.found (t := t)
    rw [hp] at this
    cases this
  | some a => exact ⟨a, rfl, ((hb.good t).found a (by rw [hp]; rfl)).2⟩

/-- In every run in which each thread is joined at most once and `thread_fork` succeeds, threads find
their own TCBs and joins return the exit values. -/
theorem join_returns_exit_value (h : Reach Init (Step Once) x) : x.Truthful := by
  have hinv : (Base x ∧ Locked x) ∧ Mut x ∧ Vals x := by
    refine h.invariant (P := fun x => (Base x ∧ Locked x) ∧ Mut x ∧ Vals x)
      (fun y hy => ⟨⟨hy.base, hy.locked⟩, hy.mut, hy.vals⟩) ?_
    rintro y z ⟨⟨hb, hl⟩, hm, hv⟩ ⟨c, hok, hs⟩
    exact ⟨⟨hb.did (fun t _ => hv.findAlone) (act_did hs), hl.act hs⟩, hm.act hb hs, hv.act hb hm hl hok hs⟩
  exact hinv.2.2.truthful hinv.1.1

end

instance (x : ThrRun) (c : ThrAct) : Decidable (x.Once c) :=
  match c with
  | .join _ tid _ => inferInstanceAs (Decidable (tid ∉ x.called))
  | .fork _ tid => inferInstanceAs (Decidable (0 < tid))
  | .create _ _ | .exit _ _ | .exec _ => inferInstanceAs (Decidable True)

def actOnce (x : ThrRun) (c : ThrAct) : Option ThrRun := if x.Once c then x.act c else none

theorem actOnce_step (x : ThrRun) (c : ThrAct) (y : ThrRun) (h : x.actOnce c = some y) : Step Once x y := by
  obtain ⟨hok, hs⟩ := Option.ite_none_right_eq_some.mp h
  exact ⟨c, hok, hs⟩

/-- Thread 1 waits for thread 2, which then exits with status 7. -/
theorem join_returns_exit_value_waited : ∃ x : ThrRun, x.pc 2 = .gone ∧ x.joins = [⟨1, 2, true, 0, some 7#32⟩] ∧
    x.Truthful := by
  have h₀ : Reach Init (Step Once) booted := .start booted_init
  obtain ⟨x, hx, hp⟩ := h₀.script (l := starts 2 1 ++ .join 1 2 true :: go 1 11 ++ .exit 2 7#32 :: go 2 15 ++ go 1 13)
    (p := fun x => x.pc 2 = .gone ∧ x.joins = [⟨1, 2, true, 0, some 7#32⟩]) actOnce_step (by decide +kernel)
  simp only [decide_eq_true_eq] at hp
  exact ⟨x, hp.1, hp.2, join_returns_exit_value hx⟩

end ThrRun

end Pebbles.User
