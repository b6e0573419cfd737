import Pebbles.Threads

/-!
# TCBs and the pointers to them

What a thread's place says about the TCB it points to, and that the steps of the other
threads leave it so, as long as two joiners of one thread never hold its TCB together.
-/

namespace Pebbles.User

open Runs Function Words

namespace ThrAt

def newTcb : ThrAt → Option Nat
  | .creating (.lock a) | .creating (.fork a) | .creating (.add a _) => some a
  | _ => Option.none

def newTid : ThrAt → Option Int
  | .creating (.add _ tid) => some tid
  | _ => Option.none

end ThrAt

def JoinAt.linked : JoinAt → Option Nat
  | .unlock r => r
  | .mutex a | .test a | .wait a | .status a | .lockList a _ | .del a _ => some a
  | _ => none

def JoinAt.unlinked : JoinAt → Option Nat
  | .destroyMutex a _ | .destroyCond a _ | .free a _ => some a
  | _ => none

def ExitAt.found : ExitAt → Option Nat
  | .unlock r => r
  | .mutex a | .exited a | .status a | .signal a | .unlockMutex a | .stack a => some a
  | _ => none

namespace ThrAt

def joinLinked : ThrAt → Option (Int × Nat)
  | .joining tid _ pos => pos.linked.map fun a => (tid, a)
  | _ => Option.none

def joinUnlinked : ThrAt → Option (Int × Nat)
  | .joining tid _ pos => pos.unlinked.map fun a => (tid, a)
  | _ => Option.none

def exitFound : ThrAt → Option Nat
  | .exiting _ pos => pos.found
  | _ => Option.none

def HasTcb (pos : ThrAt) (tid : Int) : Prop := ∃ a, pos.joinLinked = some (tid, a) ∨ pos.joinUnlinked = some (tid, a)

structure Inherits (pos pos' : ThrAt) : Prop where
  newTcb : ∀ a, pos'.newTcb = some a → pos.newTcb = some a
  newTid : ∀ tid, pos'.newTid = some tid → pos.newTid = some tid
  linked : ∀ p, pos'.joinLinked = some p → pos.joinLinked = some p
  unlinked : ∀ p, pos'.joinUnlinked = some p → pos.joinUnlinked = some p
  found : ∀ a, pos'.exitFound = some a → pos.exitFound = some a

def Bare (pos : ThrAt) : Prop :=
  pos.newTcb = Option.none ∧ pos.newTid = Option.none ∧ pos.joinLinked = Option.none ∧ pos.joinUnlinked = Option.none ∧
    pos.exitFound = Option.none

theorem Bare.inherits {pos pos' : ThrAt} (h : pos'.Bare) : pos.Inherits pos' := by
  obtain ⟨h₁, h₂, h₃, h₄, h₅⟩ := h
  exact ⟨by simp [h₁], by simp [h₂], by simp [h₃], by simp [h₄], by simp [h₅]⟩

def pointers (pos : ThrAt) := (pos.newTcb, pos.newTid, pos.joinLinked, pos.joinUnlinked, pos.exitFound)

theorem Inherits.of_eq {pos pos' : ThrAt} (h : pos'.pointers = pos.pointers) : pos.Inherits pos' := by
  simp only [pointers, Prod.mk.injEq] at h
  obtain ⟨h₁, h₂, h₃, h₄, h₅⟩ := h
  exact ⟨by simp [h₁], by simp [h₂], by simp [h₃], by simp [h₄], by simp [h₅]⟩

theorem Inherits.refl (pos : ThrAt) : pos.Inherits pos := .of_eq rfl

def left : ThrAt → Bool
  | .exiting _ .vanish | .gone => true
  | _ => false

def leaving : ThrAt → Option Int
  | .joining tid _ (.unlockList _) => some tid
  | _ => Option.none

structure Quiet (pos pos' : ThrAt) : Prop extends pos.Inherits pos' where
  left : pos.left → pos'.left
  leaving : pos'.leaving = Option.none

theorem Inherits.hasTcb {pos pos' : ThrAt} {tid : Int} (h : pos.Inherits pos') (hh : pos'.HasTcb tid) :
    pos.HasTcb tid := by
  obtain ⟨a, ha | ha⟩ := hh
  · exact ⟨a, .inl (h.linked _ ha)⟩
  · exact ⟨a, .inr (h.unlinked _ ha)⟩

end ThrAt

namespace ThrRun

def Added (x : ThrRun) (a : Nat) : Prop := x.cell a = .linked ∨ x.cell a = .unlinked ∨ x.cell a = .freed

structure Good (x : ThrRun) (t : Int) (pos : ThrAt) : Prop where
  created : ∀ a, pos.newTcb = some a → x.cell a = .created
  newTid : ∀ tid, pos.newTid = some tid → tid ≠ 0 ∧ (0 < tid → x.pc tid ≠ .none) ∧
    ∀ a, x.Added a → 0 < tid → (x.tcb a).id ≠ tid
  linked : ∀ tid a, pos.joinLinked = some (tid, a) → x.cell a = .linked ∧ (x.tcb a).id = tid
  unlinked : ∀ tid a, pos.joinUnlinked = some (tid, a) → x.cell a = .unlinked ∧ (x.tcb a).id = tid
  found : ∀ a, pos.exitFound = some a → x.Added a ∧ (x.tcb a).id = t

structure Base (x : ThrRun) : Prop where
  mem : ∀ a, a ∈ x.list ↔ x.cell a = .linked
  nodup : x.list.Nodup
  good : ∀ t, x.Good t (x.pc t)
  creators : ∀ {t u a}, (x.pc t).newTcb = some a → (x.pc u).newTcb = some a → t = u
  newTids : ∀ {t u tid}, 0 < tid → (x.pc t).newTid = some tid → (x.pc u).newTid = some tid → t = u
  joiners : ∀ {t u tid}, (x.pc t).HasTcb tid → (x.pc u).HasTcb tid → t = u
  ids : ∀ {a b}, x.Added a → x.Added b → 0 < (x.tcb a).id → (x.tcb a).id = (x.tcb b).id → a = b
  alive : ∀ {a}, x.Added a → (x.tcb a).id ≠ 0 ∧ (0 < (x.tcb a).id → x.pc (x.tcb a).id ≠ .none)

def FindAlone (x : ThrRun) (t : Int) : Prop :=
  ∀ tid p, x.pc t = .joining tid p .find → ∀ u, ¬ (x.pc u).HasTcb tid

inductive Did (x : ThrRun) : ThrAct → ThrRun → Prop
  | quiet {c y} (t : Int) (pos : ThrAt) : y.pc = update x.pc t pos → y.cell = x.cell →
    (∀ a, (y.tcb a).id = (x.tcb a).id) → y.list = x.list →
    (y.joins = x.joins ∨ ∃ r : Joined, r.ret ≠ 0 ∧ y.joins = r :: x.joins) → x.pc t ≠ .none → pos ≠ .none →
    (x.pc t).Quiet pos → Did x c y
  | create {t a} : x.pc t = .run → x.cell a = .unused →
    Did x (.create t a) (((x.setTcb a (initTcb 0#32)).setCell a .created).goto t (.creating (.lock a)))
  | failed {t a tid} : x.pc t = .creating (.fork a) → tid < 0 → Did x (.fork t tid) (x.goto t (.creating (.add a tid)))
  | forked {t a tid} : x.pc t = .creating (.fork a) → 0 < tid → x.pc tid = .none →
    Did x (.fork t tid) ((x.goto tid .run).goto t (.creating (.add a tid)))
  | add {t a tid} : x.pc t = .creating (.add a tid) → Did x (.exec t)
    { ((x.setTcb a fun tcb => { tcb with id := tid }).setCell a .linked).goto t (.creating .unlock) with
      list := x.list ++ [a] }
  | found {t tid p a} : x.pc t = .joining tid p .find → x.findTcb tid = some a →
    Did x (.exec t) (x.goto t (.joining tid p (.unlock (some a))))
  | exitFound {t v a} : x.pc t = .exiting v .find → x.findTcb t = some a →
    Did x (.exec t) (x.goto t (.exiting v (.unlock (some a))))
  | del {t tid p a s} : x.pc t = .joining tid p (.del a s) → Did x (.exec t)
    { (x.setCell a .unlinked).goto t (.joining tid p (.destroyMutex a s)) with list := x.list.erase a }
  | free {t tid p a s} : x.pc t = .joining tid p (.free a s) →
    Did x (.exec t) ((x.setCell a .freed).goto t (.joining tid p (.unlockList s)))
  | returns {t tid p s} : x.pc t = .joining tid p (.unlockList s) →
    Did x (.exec t) (x.unlockList.returns t tid p 0 s)

section
variable {x y : ThrRun} {t u : Int} {pos : ThrAt} {a : Nat}

theorem Added.congr (hcell : y.cell a = x.cell a) : y.Added a ↔ x.Added a := by
  unfold Added
  rw [hcell]

theorem Good.congr (h : x.Good u pos) (hcell : y.cell = x.cell) (hid : ∀ a, (y.tcb a).id = (x.tcb a).id)
    (hpc : ∀ tid, x.pc tid ≠ .none → y.pc tid ≠ .none) : y.Good u pos := by
  have hadd : ∀ a, y.Added a ↔ x.Added a := fun a => Added.congr (congrFun hcell a)
  refine ⟨fun a ha => hcell ▸ h.created a ha, fun tid ht => ?_, fun tid a ha => ?_, fun tid a ha => ?_, fun a ha => ?_⟩
  · obtain ⟨h₀, h₁, h₂⟩ := h.newTid tid ht
    refine ⟨h₀, fun hp => hpc tid (h₁ hp), fun a ha hp => ?_⟩
    rw [hid]
    exact h₂ a ((hadd a).mp ha) hp
  · rw [hcell, hid]
    exact h.linked tid a ha
  · rw [hcell, hid]
    exact h.unlinked tid a ha
  · rw [hadd, hid]
    exact h.found a ha

theorem Good.inherit {pos' : ThrAt} (h : x.Good u pos) (hi : pos.Inherits pos') : x.Good u pos' :=
  ⟨fun a ha => h.created a (hi.newTcb a ha), fun tid ht => h.newTid tid (hi.newTid tid ht),
    fun tid a ha => h.linked tid a (hi.linked _ ha), fun tid a ha => h.unlinked tid a (hi.unlinked _ ha),
    fun a ha => h.found a (hi.found a ha)⟩

theorem Good.of_bare (h : pos.Bare) : x.Good u pos := by
  obtain ⟨h₁, h₂, h₃, h₄, h₅⟩ := h
  exact ⟨by simp [h₁], by simp [h₂], by simp [h₃], by simp [h₄], by simp [h₅]⟩

theorem Good.of_linked {tid : Int} {p : Bool} (hc : x.cell a = .linked) (hid : (x.tcb a).id = tid) :
    x.Good u (.joining tid p (.unlock (some a))) := by
  refine ⟨by simp [ThrAt.newTcb], by simp [ThrAt.newTid], fun r b hb => ?_, by simp [ThrAt.joinUnlinked, JoinAt.unlinked],
    by simp [ThrAt.exitFound]⟩
  cases hb
  exact ⟨hc, hid⟩

theorem Good.of_found {v : Word} (hc : x.cell a = .linked) (hid : (x.tcb a).id = u) :
    x.Good u (.exiting v (.unlock (some a))) := by
  refine ⟨by simp [ThrAt.newTcb], by simp [ThrAt.newTid], by simp [ThrAt.joinLinked], by simp [ThrAt.joinUnlinked],
    fun b hb => ?_⟩
  cases hb
  exact ⟨.inl hc, hid⟩

theorem Base.moves (h : Base x) (hpc : y.pc = update x.pc t pos) (hcell : y.cell = x.cell)
    (hid : ∀ a, (y.tcb a).id = (x.tcb a).id) (hlist : y.list = x.list) (hpos : pos ≠ .none) (hgood : x.Good t pos)
    (hnew : ∀ a, pos.newTcb = some a → ∀ u, u ≠ t → (x.pc u).newTcb ≠ some a)
    (htid : ∀ tid, 0 < tid → pos.newTid = some tid → ∀ u, u ≠ t → (x.pc u).newTid ≠ some tid)
    (hjoin : ∀ tid, pos.HasTcb tid → ∀ u, u ≠ t → ¬ (x.pc u).HasTcb tid) : Base y := by
  have hself : y.pc t = pos := by rw [hpc, update_self]
  have hother : ∀ u, u ≠ t → y.pc u = x.pc u := fun u hu => by rw [hpc, update_of_ne hu]
  have hnone : ∀ tid, x.pc tid ≠ .none → y.pc tid ≠ .none := by
    intro tid hne
    by_cases e : tid = t
    · rwa [e, hself]
    · rwa [hother tid e]
  have hadd : ∀ {a}, y.Added a ↔ x.Added a := fun {a} => Added.congr (congrFun hcell a)
  refine ⟨fun a => ?_, hlist ▸ h.nodup, fun u => ?_, fun {a b c} => hpc ▸ ?_, fun {a b c} hc => hpc ▸ ?_,
    fun {a b c} => hpc ▸ ?_, fun {a b} ha hb hp he => ?_, fun {a} ha => ?_⟩
  · rw [hlist, hcell]
    exact h.mem a
  · by_cases e : u = t
    · rw [e, hself]
      exact hgood.congr hcell hid hnone
    · rw [hother u e]
      exact (h.good u).congr hcell hid hnone
  · exact update_alone (P := fun p : ThrAt => p.newTcb = some c) h.creators (hnew c)
  · exact update_alone (P := fun p : ThrAt => p.newTid = some c) (h.newTids hc) (htid c hc)
  · exact update_alone (P := fun p : ThrAt => p.HasTcb c) h.joiners (hjoin c)
  · rw [hid] at hp he
    rw [hid] at he
    exact h.ids (hadd.mp ha) (hadd.mp hb) hp he
  · rw [hid]
    exact ⟨(h.alive (hadd.mp ha)).1, fun hp => hnone _ ((h.alive (hadd.mp ha)).2 hp)⟩

theorem Base.quiet (h : Base x) (hpc : y.pc = update x.pc t pos) (hcell : y.cell = x.cell)
    (hid : ∀ a, (y.tcb a).id = (x.tcb a).id) (hlist : y.list = x.list) (hpos : pos ≠ .none)
    (hi : (x.pc t).Inherits pos) :
    Base y := by
  refine h.moves hpc hcell hid hlist hpos ((h.good t).inherit hi) (fun a ha u hu hn => ?_) (fun tid hp ht u hu hn => ?_)
    fun tid hh u hu hn => ?_
  · exact hu (h.creators hn (hi.newTcb a ha))
  · exact hu (h.newTids hp hn (hi.newTid tid ht))
  · exact hu (h.joiners hn (hi.hasTcb hh))

theorem Base.alloc (h : Base x) (ha : x.cell a = .unused) : Base (x.setCell a .created) := by
  have hne : ∀ {b c}, x.cell b = c → c ≠ .unused → b ≠ a := by
    rintro b c hb hc rfl
    exact hc (hb.symm.trans ha)
  have hcell : ∀ {b}, b ≠ a → (x.setCell a .created).cell b = x.cell b := fun hb => update_of_ne hb ..
  have hself : (x.setCell a .created).cell a = .created := update_self ..
  have hadd : ∀ {b}, (x.setCell a .created).Added b → x.Added b := by
    intro b hb
    by_cases e : b = a
    · subst e
      simp [Added, hself] at hb
    · exact (Added.congr (hcell e)).mp hb
  have hadd' : ∀ {b}, x.Added b → (x.setCell a .created).Added b := by
    intro b hb
    have e : b ≠ a := by
      rintro rfl
      simp [Added, ha] at hb
    exact (Added.congr (hcell e)).mpr hb
  refine ⟨fun b => ?_, h.nodup, fun u => ?_, h.creators, h.newTids, h.joiners, fun ha hb => h.ids (hadd ha) (hadd hb),
    fun ha => h.alive (hadd ha)⟩
  · by_cases e : b = a
    · subst e
      have hm := h.mem b
      simp only [ha, reduceCtorEq, iff_false] at hm
      exact iff_of_false hm (by simp [hself])
    · rw [hcell e]
      exact h.mem b
  · have hg := h.good u
    refine ⟨fun b hb => ?_, fun tid ht => ?_, fun tid b hb => ?_, fun tid b hb => ?_, fun b hb => ?_⟩
    · have hc := hg.created b hb
      rw [hcell (hne hc (by simp))]
      exact hc
    · obtain ⟨h₀, h₁, h₂⟩ := hg.newTid tid ht
      exact ⟨h₀, h₁, fun b hb => h₂ b (hadd hb)⟩
    · obtain ⟨hc, hi⟩ := hg.linked tid b hb
      exact ⟨(hcell (hne hc (by simp))).trans hc, hi⟩
    · obtain ⟨hc, hi⟩ := hg.unlinked tid b hb
      exact ⟨(hcell (hne hc (by simp))).trans hc, hi⟩
    · exact ⟨hadd' (hg.found b hb).1, (hg.found b hb).2⟩

theorem Base.add {tid : Int} (h : Base x) (hp : x.pc t = .creating (.add a tid))
    (hpc : y.pc = update x.pc t (.creating .unlock))
    (hcell : y.cell = update x.cell a .linked) (htcb : ∀ b, (y.tcb b).id = if b = a then tid else (x.tcb b).id)
    (hlist : y.list = x.list ++ [a]) : Base y := by
  have hg := h.good t
  rw [hp] at hg
  have hca := hg.created a rfl
  obtain ⟨hz, hthr, hnew⟩ := hg.newTid tid rfl
  have hcell' : ∀ {b}, b ≠ a → y.cell b = x.cell b := fun hb => by rw [hcell, update_of_ne hb]
  have hid : ∀ {b}, b ≠ a → (y.tcb b).id = (x.tcb b).id := fun hb => by rw [htcb, if_neg hb]
  have hself : y.cell a = .linked ∧ (y.tcb a).id = tid := ⟨by rw [hcell, update_self], by rw [htcb, if_pos rfl]⟩
  have hna : ∀ {b}, x.Added b → b ≠ a := by
    rintro b hb rfl
    simp [Added, hca] at hb
  have hadd : ∀ {b}, b ≠ a → (y.Added b ↔ x.Added b) := fun hb => Added.congr (hcell' hb)
  have hnone : ∀ r, x.pc r ≠ .none → y.pc r ≠ .none := by
    intro r hr
    rw [hpc]
    by_cases e : r = t
    · simp [e]
    · rwa [update_of_ne e]
  refine ⟨fun b => ?_, ?_, fun u => ?_, fun {u v c} => hpc ▸ ?_, fun {u v c} hc => hpc ▸ ?_, fun {u v c} => hpc ▸ ?_,
    fun {b c} hb hc hpos he => ?_, fun {b} hb => ?_⟩
  · by_cases e : b = a
    · simp [e, hlist, hself.1]
    · rw [hlist, hcell' e, ← h.mem b]
      simp [e]
  · rw [hlist]
    refine List.nodup_append_comm.mp (List.nodup_cons.mpr ⟨fun hm => ?_, h.nodup⟩)
    have := (h.mem a).mp hm
    rw [hca] at this
    cases this
  · rw [hpc]
    by_cases e : u = t
    · rw [e, update_self]
      exact .of_bare ⟨rfl, rfl, rfl, rfl, rfl⟩
    · rw [update_of_ne e]
      have hu := h.good u
      refine ⟨fun b hb => ?_, fun r hr => ?_, fun r b hb => ?_, fun r b hb => ?_, fun b hb => ?_⟩
      · have hne : b ≠ a := by
          rintro rfl
          exact e (h.creators hb (by rw [hp]; rfl))
        rw [hcell' hne]
        exact hu.created b hb
      · obtain ⟨h₀, h₁, h₂⟩ := hu.newTid r hr
        refine ⟨h₀, fun hr => hnone r (h₁ hr), fun b hb hpos => ?_⟩
        by_cases eb : b = a
        · rw [eb, hself.2]
          rintro rfl
          exact e (h.newTids hpos hr (by rw [hp]; rfl))
        · rw [hid eb]
          exact h₂ b ((hadd eb).mp hb) hpos
      · obtain ⟨hc, hi⟩ := hu.linked r b hb
        have hne := hna (.inl hc)
        exact ⟨(hcell' hne).trans hc, (hid hne).trans hi⟩
      · obtain ⟨hc, hi⟩ := hu.unlinked r b hb
        have hne := hna (.inr (.inl hc))
        exact ⟨(hcell' hne).trans hc, (hid hne).trans hi⟩
      · obtain ⟨hc, hi⟩ := hu.found b hb
        have hne := hna hc
        exact ⟨(hadd hne).mpr hc, (hid hne).trans hi⟩
  · exact update_alone (P := fun p : ThrAt => p.newTcb = some c) h.creators fun hx => by cases hx
  · exact update_alone (P := fun p : ThrAt => p.newTid = some c) (h.newTids hc) fun hx => by cases hx
  · refine update_alone (P := fun p : ThrAt => p.HasTcb c) h.joiners fun hx => ?_
    obtain ⟨b, hb | hb⟩ := hx <;> cases hb
  · by_cases eb : b = a <;> by_cases ec : c = a
    · rw [eb, ec]
    · rw [eb, hself.2] at hpos he
      rw [hid ec] at he
      exact absurd he.symm (hnew c ((hadd ec).mp hc) hpos)
    · rw [ec, hself.2] at he
      rw [hid eb] at he hpos
      exact absurd he (hnew b ((hadd eb).mp hb) (he ▸ hpos))
    · rw [hid eb] at hpos he
      rw [hid ec] at he
      exact h.ids ((hadd eb).mp hb) ((hadd ec).mp hc) hpos he
  · by_cases eb : b = a
    · rw [eb, hself.2]
      exact ⟨hz, fun hr => hnone tid (hthr hr)⟩
    · rw [hid eb]
      obtain ⟨h₀, h₁⟩ := h.alive ((hadd eb).mp hb)
      exact ⟨h₀, fun hr => hnone _ (h₁ hr)⟩

theorem Base.retire {k : Int} {c : Cell} (h : Base x) (hc : c = .unlinked ∨ c = .freed)
    (ha : (x.pc t).joinLinked = some (k, a) ∨ (x.pc t).joinUnlinked = some (k, a))
    (hpc : y.pc = update x.pc t pos) (hpos : pos ≠ .none)
    (hnew : pos.newTcb = none ∧ pos.newTid = none ∧ pos.joinLinked = none)
    (hunl : ∀ p, pos.joinUnlinked = some p → p = (k, a) ∧ c = .unlinked) (hfound : pos.exitFound = none)
    (hcell : y.cell = update x.cell a c) (hid : ∀ b, (y.tcb b).id = (x.tcb b).id) (hlist : y.list = x.list.erase a) :
    Base y := by
  have hhas : (x.pc t).HasTcb k := ⟨a, ha⟩
  have hold : x.Added a ∧ (x.tcb a).id = k := by
    rcases ha with ha | ha
    · exact ⟨.inl ((h.good t).linked _ _ ha).1, ((h.good t).linked _ _ ha).2⟩
    · exact ⟨.inr (.inl ((h.good t).unlinked _ _ ha).1), ((h.good t).unlinked _ _ ha).2⟩
  have hcell' : ∀ {b}, b ≠ a → y.cell b = x.cell b := fun hb => by rw [hcell, update_of_ne hb]
  have hself : y.cell a = c := by rw [hcell, update_self]
  have hadd : ∀ {b}, y.Added b ↔ x.Added b := by
    intro b
    by_cases e : b = a
    · rw [e]
      refine iff_of_true ?_ hold.1
      rcases hc with rfl | rfl
      · exact .inr (.inl hself)
      · exact .inr (.inr hself)
    · exact Added.congr (hcell' e)
  have hnone : ∀ r, x.pc r ≠ .none → y.pc r ≠ .none := by
    intro r hr
    rw [hpc]
    by_cases e : r = t
    · simpa [e] using hpos
    · rwa [update_of_ne e]
  refine ⟨fun b => ?_, hlist ▸ h.nodup.erase a, fun u => ?_, fun {u v d} => hpc ▸ ?_, fun {u v d} hd => hpc ▸ ?_,
    fun {u v d} => hpc ▸ ?_, fun {b d} hb hd hp he => ?_, fun {b} hb => ?_⟩
  · rw [hlist, h.nodup.mem_erase_iff]
    by_cases e : b = a
    · rcases hc with rfl | rfl <;> simp [e, hself]
    · rw [hcell' e, ← h.mem b]
      simp [e]
  · rw [hpc]
    by_cases e : u = t
    · rw [e, update_self]
      refine ⟨fun b hb => ?_, fun r hr => ?_, fun r b hb => ?_, fun r b hb => ?_, fun b hb => ?_⟩
      · rw [hnew.1] at hb
        cases hb
      · rw [hnew.2.1] at hr
        cases hr
      · rw [hnew.2.2] at hb
        cases hb
      · obtain ⟨he, rfl⟩ := hunl _ hb
        cases he
        exact ⟨hself, (hid a).trans hold.2⟩
      · rw [hfound] at hb
        cases hb
    · rw [update_of_ne e]
      have hu := h.good u
      have hne : ∀ {r b}, (x.pc u).joinLinked = some (r, b) ∨ (x.pc u).joinUnlinked = some (r, b) →
          (x.tcb b).id = r → b ≠ a := by
        rintro r b hb hr rfl
        exact e (h.joiners ⟨b, hb⟩ (hold.2.symm.trans hr ▸ hhas))
      refine ⟨fun b hb => ?_, fun r hr => ?_, fun r b hb => ?_, fun r b hb => ?_, fun b hb => ?_⟩
      · have hcb := hu.created b hb
        have hba : b ≠ a := by
          rintro rfl
          simp [Added, hcb] at hold
        rw [hcell' hba]
        exact hcb
      · obtain ⟨h₀, h₁, h₂⟩ := hu.newTid r hr
        refine ⟨h₀, fun hr => hnone r (h₁ hr), fun b hb hp => ?_⟩
        rw [hid]
        exact h₂ b (hadd.mp hb) hp
      · obtain ⟨hcb, hi⟩ := hu.linked r b hb
        exact ⟨(hcell' (hne (.inl hb) hi)).trans hcb, (hid b).trans hi⟩
      · obtain ⟨hcb, hi⟩ := hu.unlinked r b hb
        exact ⟨(hcell' (hne (.inr hb) hi)).trans hcb, (hid b).trans hi⟩
      · exact ⟨hadd.mpr (hu.found b hb).1, (hid b).trans (hu.found b hb).2⟩
  · exact update_alone (P := fun p : ThrAt => p.newTcb = some d) h.creators fun hx => by simp [hnew.1] at hx
  · exact update_alone (P := fun p : ThrAt => p.newTid = some d) (h.newTids hd) fun hx => by simp [hnew.2.1] at hx
  · refine update_alone (P := fun p : ThrAt => p.HasTcb d) h.joiners fun hx u hu hn => ?_
    obtain ⟨b, hb | hb⟩ := hx
    · rw [hnew.2.2] at hb
      cases hb
    · obtain ⟨he, -⟩ := hunl _ hb
      cases he
      exact hu (h.joiners hn hhas)
  · rw [hid] at hp he
    rw [hid] at he
    exact h.ids (hadd.mp hb) (hadd.mp hd) hp he
  · rw [hid]
    obtain ⟨h₀, h₁⟩ := h.alive (hadd.mp hb)
    exact ⟨h₀, fun hr => hnone _ (h₁ hr)⟩

/-! ## Every action -/

theorem findTcb_eq_some {tid : Int} (h : x.findTcb tid = some a) : a ∈ x.list ∧ (x.tcb a).id = tid :=
  ⟨List.mem_of_find?_eq_some h, by simpa using List.find?_some h⟩

theorem lockList_eq_some : x.lockList t pos = some y ↔ x.tcbLock ≠ 0 ∧ y = { x.goto t pos with tcbLock := 0 } := by
  simp only [lockList, Option.map_eq_some_iff, mutexLock_eq_some]
  exact ⟨fun ⟨v, ⟨hv, h0⟩, he⟩ => ⟨hv, by rw [← he, h0]⟩, fun ⟨hv, he⟩ => ⟨0, ⟨hv, rfl⟩, he.symm⟩⟩

theorem lockTcb_eq_some : x.lockTcb t a pos = some y ↔
    (x.tcb a).tcbMutex ≠ 0 ∧ y = (x.setTcb a fun tcb => { tcb with tcbMutex := 0 }).goto t pos := by
  simp only [lockTcb, Option.map_eq_some_iff, mutexLock_eq_some]
  exact ⟨fun ⟨v, ⟨hv, h0⟩, he⟩ => ⟨hv, by rw [← he, h0]⟩, fun ⟨hv, he⟩ => ⟨0, ⟨hv, rfl⟩, he.symm⟩⟩

theorem execCond_eq_some (h : x.execCond t a = some y) : x.sleeping t = false ∧
    ∃ r, (x.view a).exec t a (x.cond t) = some r ∧ y = (x.setView a r.2).callCond t r.1 := by
  unfold execCond at h
  split at h
  · cases h
  · obtain ⟨r, hr, rfl⟩ := Option.map_eq_some_iff.mp h
    exact ⟨by simp_all, r, hr, rfl⟩

theorem id_update {f : Nat → Tcb} {tcb : Tcb} (h : tcb.id = (f a).id) (b : Nat) :
    (update f a tcb b).id = (f b).id := by
  by_cases e : b = a
  · simp [e, h]
  · simp [e]

theorem execCond_did {c : ThrAct} (hp : x.pc t ≠ .none) (hl : (x.pc t).leaving = none) (he : x.execCond t a = some y) :
    Did x c y := by
  obtain ⟨-, r, -, rfl⟩ := execCond_eq_some he
  exact .quiet t (x.pc t) (update_eq_self t x.pc).symm rfl (fun _ => rfl) rfl (.inl rfl) hp hp ⟨.refl _, id, hl⟩

theorem Did.same {c : ThrAct} {pos' : ThrAt} (hp : x.pc t = pos) (hpc : y.pc = update x.pc t pos')
    (hcell : y.cell = x.cell)
    (hid : ∀ a, (y.tcb a).id = (x.tcb a).id) (hlist : y.list = x.list) (hjoins : y.joins = x.joins) (hne : pos ≠ .none)
    (hpos : pos' ≠ .none) (hq : pos.Quiet pos') : Did x c y :=
  .quiet t pos' hpc hcell hid hlist (.inl hjoins) (hp ▸ hne) hpos (hp ▸ hq)

theorem execCreate_did {pos : CreateAt} (hp : x.pc t = .creating pos) (he : x.execCreate t pos = some y) :
    Did x (.exec t) y := by
  cases pos with
  | lock a =>
    obtain ⟨-, rfl⟩ := lockList_eq_some.mp he
    exact .same hp rfl rfl (fun _ => rfl) rfl rfl (by simp) (by simp) ⟨.of_eq rfl, id, rfl⟩
  | fork => cases he
  | add a tid =>
    cases he
    exact .add hp
  | unlock =>
    cases he
    exact .same hp rfl rfl (fun _ => rfl) rfl rfl (by simp) (by simp) ⟨.of_eq rfl, id, rfl⟩

theorem execJoin_did {tid : Int} {p : Bool} {pos : JoinAt} (hp : x.pc t = .joining tid p pos)
    (he : x.execJoin t tid p pos = some y) : Did x (.exec t) y := by
  cases pos with
  | lock =>
    obtain ⟨-, rfl⟩ := lockList_eq_some.mp he
    exact .same hp rfl rfl (fun _ => rfl) rfl rfl (by simp) (by simp) ⟨.of_eq rfl, id, rfl⟩
  | find =>
    cases he
    cases hf : x.findTcb tid with
    | none => exact .same hp rfl rfl (fun _ => rfl) rfl rfl (by simp) (by simp) ⟨.of_eq rfl, id, rfl⟩
    | some a => exact .found hp hf
  | unlock r =>
    cases r with
    | none =>
      cases he
      exact .quiet t .run rfl rfl (fun _ => rfl) rfl (.inr ⟨_, by simp [ERR_INVAL], rfl⟩) (by simp [hp])
        (by simp) (hp ▸ ⟨.of_eq rfl, id, rfl⟩)
    | some a =>
      cases he
      exact .same hp rfl rfl (fun _ => rfl) rfl rfl (by simp) (by simp) ⟨.of_eq rfl, id, rfl⟩
  | mutex a =>
    obtain ⟨-, rfl⟩ := lockTcb_eq_some.mp he
    exact .same hp rfl rfl (id_update rfl) rfl rfl (by simp) (by simp) ⟨.of_eq rfl, id, rfl⟩
  | test a =>
    simp only [ThrRun.execJoin] at he
    split at he <;> cases he
    · exact .same hp rfl rfl (fun _ => rfl) rfl rfl (by simp) (by simp) ⟨.of_eq rfl, id, rfl⟩
    · exact .same hp rfl rfl (fun _ => rfl) rfl rfl (by simp) (by simp) ⟨.of_eq rfl, id, rfl⟩
  | wait a =>
    simp only [ThrRun.execJoin] at he
    split at he
    · cases he
      exact .same hp rfl rfl (fun _ => rfl) rfl rfl (by simp) (by simp) ⟨.of_eq rfl, id, rfl⟩
    · exact execCond_did (by simp [hp]) (by simp [hp, ThrAt.leaving]) he
  | status a =>
    cases he
    exact .same hp rfl rfl (fun _ => rfl) rfl rfl (by simp) (by simp) ⟨.of_eq rfl, id, rfl⟩
  | lockList a s =>
    obtain ⟨-, rfl⟩ := lockList_eq_some.mp he
    exact .same hp rfl rfl (fun _ => rfl) rfl rfl (by simp) (by simp) ⟨.of_eq rfl, id, rfl⟩
  | del a s =>
    cases he
    exact .del hp
  | destroyMutex a s =>
    cases he
    exact .same hp rfl rfl (id_update rfl) rfl rfl (by simp) (by simp) ⟨.of_eq rfl, id, rfl⟩
  | destroyCond a s =>
    cases he
    exact .same hp rfl rfl (id_update rfl) rfl rfl (by simp) (by simp) ⟨.of_eq rfl, id, rfl⟩
  | free a s =>
    cases he
    exact .free hp
  | unlockList s =>
    cases he
    exact .returns hp

theorem execExit_did {v : Word} {pos : ExitAt} (hp : x.pc t = .exiting v pos) (he : x.execExit t v pos = some y) :
    Did x (.exec t) y := by
  cases pos with
  | lock =>
    obtain ⟨-, rfl⟩ := lockList_eq_some.mp he
    exact .same hp rfl rfl (fun _ => rfl) rfl rfl (by simp) (by simp) ⟨.of_eq rfl, id, rfl⟩
  | find =>
    cases he
    cases hf : x.findTcb t with
    | none => exact .same hp rfl rfl (fun _ => rfl) rfl rfl (by simp) (by simp) ⟨.of_eq rfl, id, rfl⟩
    | some a => exact .exitFound hp hf
  | unlock r =>
    cases r with
    | none =>
      cases he
      exact .same hp rfl rfl (fun _ => rfl) rfl rfl (by simp) (by simp) ⟨.of_eq rfl, fun _ => rfl, rfl⟩
    | some a =>
      cases he
      exact .same hp rfl rfl (fun _ => rfl) rfl rfl (by simp) (by simp) ⟨.of_eq rfl, id, rfl⟩
  | mutex a =>
    obtain ⟨-, rfl⟩ := lockTcb_eq_some.mp he
    exact .same hp rfl rfl (id_update rfl) rfl rfl (by simp) (by simp) ⟨.of_eq rfl, id, rfl⟩
  | exited a =>
    cases he
    exact .same hp rfl rfl (id_update rfl) rfl rfl (by simp) (by simp) ⟨.of_eq rfl, id, rfl⟩
  | status a =>
    cases he
    exact .same hp rfl rfl (id_update rfl) rfl rfl (by simp) (by simp) ⟨.of_eq rfl, id, rfl⟩
  | signal a =>
    simp only [ThrRun.execExit] at he
    split at he
    · cases he
      exact .same hp rfl rfl (fun _ => rfl) rfl rfl (by simp) (by simp) ⟨.of_eq rfl, id, rfl⟩
    · exact execCond_did (by simp [hp]) (by simp [hp, ThrAt.leaving]) he
  | unlockMutex a =>
    cases he
    exact .same hp rfl rfl (id_update rfl) rfl rfl (by simp) (by simp) ⟨.of_eq rfl, id, rfl⟩
  | stack a =>
    cases he
    exact .same hp rfl rfl (fun _ => rfl) rfl rfl (by simp) (by simp)
      ⟨ThrAt.Bare.inherits ⟨rfl, rfl, rfl, rfl, rfl⟩, fun _ => rfl, rfl⟩
  | vanish =>
    cases he
    exact .same hp rfl rfl (fun _ => rfl) rfl rfl (by simp) (by simp) ⟨.of_eq rfl, fun _ => rfl, rfl⟩

theorem act_did {c : ThrAct} (hs : x.act c = some y) : Did x c y := by
  cases c with
  | create t a =>
    obtain ⟨⟨hp, hc⟩, ⟨⟩⟩ := Option.ite_none_right_eq_some.mp hs
    exact .create hp hc
  | fork t tid =>
    simp only [ThrRun.act] at hs
    split at hs
    · rename_i a hp
      split at hs
      · rename_i hneg
        cases hs
        exact .failed hp hneg
      · obtain ⟨⟨hpos, hnone⟩, ⟨⟩⟩ := Option.ite_none_right_eq_some.mp hs
        exact .forked hp hpos hnone
    · cases hs
  | join t tid p =>
    obtain ⟨hp, hs⟩ := Option.ite_none_right_eq_some.mp hs
    split at hs <;> cases hs
    · refine .quiet t .run rfl rfl (fun _ => rfl) rfl (.inr ⟨_, by simp [ERR_INVAL], rfl⟩) (by simp [hp])
        (by simp) ?_
      rw [hp]
      exact ⟨.refl _, id, rfl⟩
    · exact .same hp rfl rfl (fun _ => rfl) rfl rfl (by simp) (by simp) ⟨.of_eq rfl, id, rfl⟩
  | exit t v =>
    obtain ⟨hp, ⟨⟩⟩ := Option.ite_none_right_eq_some.mp hs
    exact .same hp rfl rfl (fun _ => rfl) rfl rfl (by simp) (by simp) ⟨.of_eq rfl, id, rfl⟩
  | exec t =>
    simp only [ThrRun.act, ThrRun.exec] at hs
    cases hp : x.pc t with
    | creating pos =>
      rw [hp] at hs
      exact execCreate_did hp hs
    | joining tid p pos =>
      rw [hp] at hs
      exact execJoin_did hp hs
    | exiting v pos =>
      rw [hp] at hs
      exact execExit_did hp hs
    | none | run | gone =>
      rw [hp] at hs
      cases hs

theorem Base.fork {tid : Int} (h : Base x) (hp : x.pc t = .creating (.fork a)) (hid : tid ≠ 0)
    (hthr : 0 < tid → x.pc tid ≠ .none)
    (hfresh : 0 < tid → (∀ u, (x.pc u).newTid ≠ some tid) ∧ ∀ a, x.Added a → (x.tcb a).id ≠ tid) :
    Base (x.goto t (.creating (.add a tid))) := by
  have hg := h.good t
  rw [hp] at hg
  refine h.moves rfl rfl (fun _ => rfl) rfl (by simp) ⟨hg.created, fun r hr => ?_, by simp [ThrAt.joinLinked],
    by simp [ThrAt.joinUnlinked], by simp [ThrAt.exitFound]⟩ (fun b hb u hu hn => ?_)
    (fun r hr hn u _ => ?_) fun r hr => ?_
  · cases hr
    exact ⟨hid, hthr, fun b hb hpos => (hfresh hpos).2 b hb⟩
  · exact hu (h.creators hn (by rw [hp]; exact hb))
  · cases hn
    exact (hfresh hr).1 u
  · obtain ⟨b, hb | hb⟩ := hr <;> cases hb

theorem Base.did {c : ThrAct} (h : Base x) (hfind : ∀ t, c = .exec t → x.FindAlone t) (hs : Did x c y) : Base y := by
  cases hs with
  | quiet t pos hpc hcell hid hlist _ _ hpos hq => exact h.quiet hpc hcell hid hlist hpos hq.toInherits
  | @create t a hp hc =>
    refine (h.alloc hc).moves rfl rfl (id_update rfl) rfl (by simp) ⟨fun b hb => ?_, by simp [ThrAt.newTid],
      by simp [ThrAt.joinLinked], by simp [ThrAt.joinUnlinked], by simp [ThrAt.exitFound]⟩ (fun b hb u hu hn => ?_)
      (fun _ _ hn => by cases hn) fun r hr => ?_
    · cases hb
      exact update_self ..
    · -- nobody has unused memory
      cases hb
      have := (h.good u).created a hn
      rw [hc] at this
      cases this
    · obtain ⟨b, hb | hb⟩ := hr <;> cases hb
  | failed hp hneg => exact h.fork hp (by omega) (fun hpos => by omega) fun hpos => by omega
  | @forked t a tid hp hpos hnone =>
    have hne : t ≠ tid := by
      rintro rfl
      rw [hp] at hnone
      cases hnone
    have hx : Base (x.goto tid .run) :=
      h.quiet rfl rfl (fun _ => rfl) rfl (by simp) (ThrAt.Bare.inherits ⟨rfl, rfl, rfl, rfl, rfl⟩)
    refine hx.fork (t := t) ((update_of_ne hne ..).trans hp) (by omega) (fun _ => ?_) fun _ =>
      ⟨fun u hn => ?_, fun b hb he => ?_⟩
    · rw [show (x.goto tid .run).pc tid = .run from update_self ..]
      simp
    · by_cases e : u = tid
      · rw [e, show (x.goto tid .run).pc tid = .run from update_self ..] at hn
        cases hn
      · rw [show (x.goto tid .run).pc u = x.pc u from update_of_ne e ..] at hn
        exact ((h.good u).newTid tid hn).2.1 hpos hnone
    · have he : (x.tcb b).id = tid := he
      exact (h.alive hb).2 (by omega) (he ▸ hnone)
  | @add t a tid hp =>
    refine h.add hp rfl rfl (fun b => ?_) rfl
    by_cases e : b = a <;> simp [goto, setCell, setTcb, e]
  | @found t tid p a hp hf =>
    obtain ⟨hmem, hid⟩ := findTcb_eq_some hf
    refine h.moves rfl rfl (fun _ => rfl) rfl (by simp) (.of_linked ((h.mem a).mp hmem) hid) (fun _ hb => by cases hb)
      (fun _ _ hb => by cases hb) fun r hr u hu hn => ?_
    obtain ⟨b, hb | hb⟩ := hr
    · cases hb
      exact hfind t rfl tid p hp u hn
    · cases hb
  | @exitFound t v a hp hf =>
    obtain ⟨hmem, hid⟩ := findTcb_eq_some hf
    refine h.moves rfl rfl (fun _ => rfl) rfl (by simp) (.of_found ((h.mem a).mp hmem) hid) (fun _ hb => by cases hb)
      (fun _ _ hb => by cases hb) fun r hr u hu hn => ?_
    obtain ⟨b, hb | hb⟩ := hr <;> cases hb
  | @del t tid p a s hp =>
    refine h.retire (c := .unlinked) (a := a) (k := tid) (.inl rfl) (.inl (by rw [hp]; rfl)) rfl (by simp)
      ⟨rfl, rfl, rfl⟩
      (fun p hp => ⟨?_, rfl⟩) rfl rfl (fun _ => rfl) rfl
    cases hp
    rfl
  | @free t tid p a s hp =>
    have hc := ((h.good t).unlinked tid a (by rw [hp]; rfl)).1
    refine h.retire (c := .freed) (a := a) (k := tid) (.inr rfl) (.inr (by rw [hp]; rfl)) rfl (by simp) ⟨rfl, rfl, rfl⟩
      (fun p hp => by cases hp) rfl rfl (fun _ => rfl) ?_
    refine (List.erase_of_not_mem fun hm => ?_).symm
    have hl := (h.mem a).mp hm
    rw [hc] at hl
    cases hl
  | @returns t tid p s hp =>
    exact h.quiet (t := t) rfl rfl (fun _ => rfl) rfl (by simp) (ThrAt.Bare.inherits ⟨rfl, rfl, rfl, rfl, rfl⟩)

theorem Init.base (h : Init x) : Base x := by
  obtain ⟨t, a, ht, hlist, hid, -, -, -, hpc, hcell⟩ := h.first
  have hbare : ∀ u, (x.pc u).Bare := by
    intro u
    rw [hpc]
    by_cases e : u = t
    · rw [e, update_self]
      exact ⟨rfl, rfl, rfl, rfl, rfl⟩
    · rw [update_of_ne e]
      exact ⟨rfl, rfl, rfl, rfl, rfl⟩
  have hadd : ∀ {b}, x.Added b → b = a := by
    intro b hb
    by_contra e
    simp [Added, hcell, e] at hb
  refine ⟨fun b => ?_, by simp [hlist], fun u => .of_bare (hbare u), fun {u v b} hu => ?_, fun {u v r} _ hu => ?_,
    fun {u v r} hu => ?_, fun hb hc _ _ => (hadd hb).trans (hadd hc).symm, fun {b} hb => ?_⟩
  · by_cases e : b = a <;> simp [hlist, hcell, e]
  · rw [(hbare u).1] at hu
    cases hu
  · rw [(hbare u).2.1] at hu
    cases hu
  · obtain ⟨b, hb | hb⟩ := hu
    · rw [(hbare u).2.2.1] at hb
      cases hb
    · rw [(hbare u).2.2.2.1] at hb
      cases hb
  · rw [hadd hb, hid]
    exact ⟨by omega, fun _ => by simp [hpc]⟩

end

/-! ## The lock of the list -/

end ThrRun

def ThrAt.holdsList : ThrAt → Bool
  | .creating pos => match pos with
    | .lock _ => false
    | .fork _ | .add _ _ | .unlock => true
  | .joining _ _ pos => match pos with
    | .find | .unlock _ | .del _ _ | .destroyMutex _ _ | .destroyCond _ _ | .free _ _ | .unlockList _ => true
    | _ => false
  | .exiting _ pos => match pos with
    | .find | .unlock _ => true
    | _ => false
  | .none | .run | .gone => false

namespace ThrRun

structure Locked (x : ThrRun) : Prop where
  held : ∀ {t}, (x.pc t).holdsList → x.tcbLock = 0
  unique : ∀ {t u}, (x.pc t).holdsList → (x.pc u).holdsList → t = u
  holder : x.tcbLock = 0 → ∃ t, (x.pc t).holdsList

section
variable {x y : ThrRun} {t u : Int} {pos : ThrAt} {a : Nat}

theorem Locked.locks (h : Locked x) (hne : x.tcbLock ≠ 0) (hpc : y.pc = update x.pc t pos) (hl : y.tcbLock = 0)
    (hpos : pos.holdsList) : Locked y := by
  have hfree : ∀ u, (x.pc u).holdsList ≠ true := fun u hu => hne (h.held hu)
  refine ⟨fun _ => hl, fun {a b} => hpc ▸ ?_, fun _ => ⟨t, by rwa [hpc, update_self]⟩⟩
  exact update_alone (P := fun p : ThrAt => p.holdsList = true) h.unique fun _ u _ => hfree u

theorem Locked.unlocks (h : Locked x) (ht : (x.pc t).holdsList) (hpc : y.pc = update x.pc t pos) (hl : y.tcbLock = 1)
    (hpos : pos.holdsList = false) : Locked y := by
  have hfree : ∀ u, (y.pc u).holdsList ≠ true := by
    intro u hu
    rw [hpc] at hu
    by_cases e : u = t
    · rw [e, update_self, hpos] at hu
      cases hu
    · rw [update_of_ne e] at hu
      exact e (h.unique hu ht)
  refine ⟨fun hu => absurd hu (hfree _), fun hu => absurd hu (hfree _), fun h0 => ?_⟩
  rw [hl] at h0
  cases h0

theorem Locked.same (h : Locked x) (hpc : y.pc = update x.pc t pos) (hl : y.tcbLock = x.tcbLock)
    (hpos : pos.holdsList = (x.pc t).holdsList) : Locked y := by
  have hsame : ∀ u, (y.pc u).holdsList = (x.pc u).holdsList := by
    intro u
    rw [hpc]
    by_cases e : u = t
    · rw [e, update_self, hpos]
    · rw [update_of_ne e]
  refine ⟨fun hu => hl.trans (h.held (hsame _ ▸ hu)), fun hu hv => h.unique (hsame _ ▸ hu) (hsame _ ▸ hv), fun h0 => ?_⟩
  obtain ⟨u, hu⟩ := h.holder (hl ▸ h0)
  exact ⟨u, (hsame u).trans hu⟩

theorem Locked.lockList (h : Locked x) (he : x.lockList t pos = some y) (hpos : pos.holdsList) : Locked y := by
  obtain ⟨hne, rfl⟩ := lockList_eq_some.mp he
  exact h.locks hne rfl rfl hpos

theorem Locked.lockTcb (h : Locked x) (he : x.lockTcb t a pos = some y) (hpos : pos.holdsList = (x.pc t).holdsList) :
    Locked y := by
  obtain ⟨-, rfl⟩ := lockTcb_eq_some.mp he
  exact h.same rfl rfl hpos

theorem Locked.execCond (h : Locked x) (he : x.execCond t a = some y) : Locked y := by
  obtain ⟨-, r, -, rfl⟩ := execCond_eq_some he
  exact h.same (t := t) (update_eq_self t x.pc).symm rfl rfl

theorem Locked.execJoin {tid : Int} {p : Bool} {pos : JoinAt} (h : Locked x) (hp : x.pc t = .joining tid p pos)
    (he : x.execJoin t tid p pos = some y) : Locked y := by
  cases pos with
  | lock => exact h.lockList he rfl
  | lockList a s => exact h.lockList he rfl
  | mutex a => exact h.lockTcb he (by rw [hp]; rfl)
  | unlock r =>
    have ht : (x.pc t).holdsList := by rw [hp]; rfl
    cases r with
    | none =>
      cases he
      exact h.unlocks ht rfl rfl rfl
    | some a =>
      cases he
      exact h.unlocks ht rfl rfl rfl
  | unlockList s =>
    cases he
    exact h.unlocks (t := t) (by rw [hp]; rfl) rfl rfl rfl
  | test a =>
    simp only [ThrRun.execJoin] at he
    split at he <;> cases he <;> exact h.same rfl rfl (by rw [hp]; rfl)
  | wait a =>
    simp only [ThrRun.execJoin] at he
    split at he
    · cases he
      exact h.same rfl rfl (by rw [hp]; rfl)
    · exact h.execCond he
  | find | status | del | destroyMutex | destroyCond | free =>
    cases he
    exact h.same rfl rfl (by rw [hp]; rfl)

theorem Locked.execExit {v : Word} {pos : ExitAt} (h : Locked x) (hp : x.pc t = .exiting v pos)
    (he : x.execExit t v pos = some y) : Locked y := by
  cases pos with
  | lock => exact h.lockList he rfl
  | mutex a => exact h.lockTcb he (by rw [hp]; rfl)
  | unlock r =>
    have ht : (x.pc t).holdsList := by rw [hp]; rfl
    cases r with
    | none =>
      cases he
      exact h.unlocks ht rfl rfl rfl
    | some a =>
      cases he
      exact h.unlocks ht rfl rfl rfl
  | signal a =>
    simp only [ThrRun.execExit] at he
    split at he
    · cases he
      exact h.same rfl rfl (by rw [hp]; rfl)
    · exact h.execCond he
  | find | exited | status | unlockMutex | stack | vanish =>
    cases he
    exact h.same rfl rfl (by rw [hp]; rfl)

theorem Locked.act {c : ThrAct} (h : Locked x) (hs : x.act c = some y) : Locked y := by
  cases c with
  | create t a =>
    obtain ⟨⟨hp, hc⟩, ⟨⟩⟩ := Option.ite_none_right_eq_some.mp hs
    exact h.same (t := t) rfl rfl (by rw [hp]; rfl)
  | fork t tid =>
    simp only [ThrRun.act] at hs
    split at hs
    · rename_i a hp
      split at hs
      · cases hs
        exact h.same rfl rfl (by rw [hp]; rfl)
      · obtain ⟨⟨hpos, hnone⟩, ⟨⟩⟩ := Option.ite_none_right_eq_some.mp hs
        have hne : t ≠ tid := by
          rintro rfl
          rw [hp] at hnone
          cases hnone
        have hx : Locked (x.goto tid .run) := h.same rfl rfl (by rw [hnone]; rfl)
        exact hx.same rfl rfl (by rw [show (x.goto tid .run).pc t = _ from (update_of_ne hne ..).trans hp]; rfl)
    · cases hs
  | join t tid p =>
    obtain ⟨hp, hs⟩ := Option.ite_none_right_eq_some.mp hs
    split at hs <;> cases hs <;> exact h.same (t := t) rfl rfl (by simp [hp, ThrAt.holdsList])
  | exit t v =>
    obtain ⟨hp, ⟨⟩⟩ := Option.ite_none_right_eq_some.mp hs
    exact h.same (t := t) rfl rfl (by rw [hp]; rfl)
  | exec t =>
    simp only [ThrRun.act, ThrRun.exec] at hs
    cases hp : x.pc t with
    | creating pos =>
      rw [hp] at hs
      cases pos with
      | lock a => exact h.lockList hs rfl
      | fork a => cases hs
      | add a tid =>
        cases hs
        exact h.same rfl rfl (by rw [hp]; rfl)
      | unlock =>
        cases hs
        exact h.unlocks (t := t) (by rw [hp]; rfl) rfl rfl rfl
    | joining tid p pos =>
      rw [hp] at hs
      exact h.execJoin hp hs
    | exiting v pos =>
      rw [hp] at hs
      exact h.execExit hp hs
    | none | run | gone =>
      rw [hp] at hs
      cases hs

theorem Init.locked (h : Init x) : Locked x := by
  obtain ⟨t, a, -, -, -, -, -, -, hpc, -⟩ := h.first
  have hfree : ∀ u, (x.pc u).holdsList ≠ true := by
    intro u
    rw [hpc]
    by_cases e : u = t
    · simp [e, ThrAt.holdsList]
    · simp [update_of_ne e, ThrAt.holdsList]
  refine ⟨fun hu => absurd hu (hfree _), fun hu => absurd hu (hfree _), fun h0 => ?_⟩
  rw [h.tcbLock] at h0
  cases h0

end

end ThrRun

end Pebbles.User
