import Pebbles.Lib.Runs

/-!
# Reader/writer locks

The functions of `libthread/rwlock.c`. A call takes the lock's mutex, and what it
does under the mutex up to `cond_wait` or `mutex_unlock` is one section. A sleeping
thread may wake at any time, so signals and broadcasts need no state.
-/

namespace Pebbles

open Runs

def RWLOCK_READ : Int := 0
def RWLOCK_WRITE : Int := 1
def RWLOCK_FREE : Int := 2

structure RwLock where
  type : Int
  numWriters : Int
  currReaders : Int
  deriving DecidableEq

namespace RwLock

def init : RwLock where
  type := RWLOCK_FREE
  numWriters := 0
  currReaders := 0

def lockStart (type : Int) (rw : RwLock) : RwLock :=
  if type = RWLOCK_WRITE then { rw with numWriters := rw.numWriters + 1 } else rw

def mustWait (type : Int) (rw : RwLock) : Bool :=
  if type = RWLOCK_WRITE then rw.type ≠ RWLOCK_FREE && rw.currReaders > 0
  else rw.type = RWLOCK_WRITE || rw.numWriters > 0

def lockEnd (type : Int) (rw : RwLock) : RwLock :=
  if type = RWLOCK_WRITE then { rw with type := RWLOCK_WRITE }
  else { rw with currReaders := rw.currReaders + 1, type := RWLOCK_READ }

theorem lockStart_type {type : Int} {rw : RwLock} : (rw.lockStart type).type = rw.type := by
  unfold lockStart
  split <;> rfl

theorem lockStart_currReaders {type : Int} {rw : RwLock} : (rw.lockStart type).currReaders = rw.currReaders := by
  unfold lockStart
  split <;> rfl

def unlock (rw : RwLock) : RwLock :=
  if rw.type = RWLOCK_WRITE then { rw with numWriters := rw.numWriters - 1, type := RWLOCK_FREE }
  else if rw.type = RWLOCK_READ then
    let rw := { rw with currReaders := rw.currReaders - 1 }
    if rw.currReaders = 0 then { rw with type := RWLOCK_FREE } else rw
  else rw

def downgrade (rw : RwLock) : RwLock :=
  if rw.type ≠ RWLOCK_WRITE then rw
  else { type := RWLOCK_READ, numWriters := rw.numWriters - 1, currReaders := rw.currReaders + 1 }

end RwLock

/-- Where a thread is in the three functions; `lock`, `test` and `asleep` carry the
type it asked for. -/
inductive RwAt where
  | out
  | lock (type : Int)
  | start (type : Int)
  | test (type : Int)
  | asleep (type : Int)
  | relock (type : Int)
  | unlock (type : Int)
  | unlocking (type : Int)
  | downgrade
  | downgrading
  | leave
  deriving DecidableEq

/-- `readers` and `writers` are the threads that hold the lock, once for each time
they have got it. -/
structure RwRun (θ : Type*) where
  rw : RwLock
  mutex : Bool
  pc : θ → RwAt
  readers : Multiset θ
  writers : Multiset θ

namespace RwRun

variable {θ : Type*} [DecidableEq θ]

def init : RwRun θ where
  rw := .init
  mutex := true
  pc := fun _ => .out
  readers := 0
  writers := 0

def goto (t : θ) (pos : RwAt) (x : RwRun θ) : RwRun θ := { x with pc := Function.update x.pc t pos }

def holders (type : Int) (x : RwRun θ) : Multiset θ := if type = RWLOCK_WRITE then x.writers else x.readers

def acquire (t : θ) (type : Int) (x : RwRun θ) : RwRun θ :=
  if type = RWLOCK_WRITE then { x with rw := x.rw.lockEnd type, writers := t ::ₘ x.writers }
  else { x with rw := x.rw.lockEnd type, readers := t ::ₘ x.readers }

def release (t : θ) (type : Int) (x : RwRun θ) : RwRun θ :=
  if type = RWLOCK_WRITE then { x with rw := x.rw.unlock, writers := x.writers.erase t }
  else { x with rw := x.rw.unlock, readers := x.readers.erase t }

def downgraded (t : θ) (x : RwRun θ) : RwRun θ :=
  if x.rw.type ≠ RWLOCK_WRITE then { x with rw := x.rw.downgrade }
  else { x with rw := x.rw.downgrade, readers := t ::ₘ x.readers, writers := x.writers.erase t }

/-- A test of the loop of `rwlock_lock` for `type` is taken only where `ok` allows it. -/
inductive Step (ok : Int → RwLock → Prop) : RwRun θ → RwRun θ → Prop
  | lock {x t type} : x.pc t = .out → type = RWLOCK_READ ∨ type = RWLOCK_WRITE → Step ok x (x.goto t (.lock type))
  | unlock {x t type} : x.pc t = .out → t ∈ x.holders type → Step ok x (x.goto t (.unlock type))
  | downgrade {x t} : x.pc t = .out → t ∈ x.writers → Step ok x (x.goto t .downgrade)
  | acquire {x t type} : x.pc t = .lock type → x.mutex → Step ok x { x.goto t (.start type) with mutex := false }
  | start {x t type} : x.pc t = .start type → Step ok x { x.goto t (.test type) with rw := x.rw.lockStart type }
  | sleep {x t type} : x.pc t = .test type → ok type x.rw → x.rw.mustWait type →
    Step ok x { x.goto t (.asleep type) with mutex := true }
  | wake {x t type} : x.pc t = .asleep type → Step ok x (x.goto t (.relock type))
  | reacquire {x t type} : x.pc t = .relock type → x.mutex → Step ok x { x.goto t (.test type) with mutex := false }
  | enter {x t type} : x.pc t = .test type → ok type x.rw → x.rw.mustWait type = false →
    Step ok x ((x.acquire t type).goto t .leave)
  | acquireUnlock {x t type} : x.pc t = .unlock type → x.mutex →
    Step ok x { x.goto t (.unlocking type) with mutex := false }
  | release {x t type} : x.pc t = .unlocking type → Step ok x ((x.release t type).goto t .leave)
  | acquireDowngrade {x t} : x.pc t = .downgrade → x.mutex → Step ok x { x.goto t .downgrading with mutex := false }
  | downgraded {x t} : x.pc t = .downgrading → Step ok x ((x.downgraded t).goto t .leave)
  | leave {x t} : x.pc t = .leave → Step ok x { x.goto t .out with mutex := true }

structure Right (x : RwRun θ) : Prop where
  excludes : ∀ t ∈ x.writers, ∀ u, u ≠ t → u ∉ x.readers ∧ u ∉ x.writers
  free_iff : x.rw.type = RWLOCK_FREE ↔ x.readers = 0 ∧ x.writers = 0
  write_iff : x.rw.type = RWLOCK_WRITE ↔ ∃ t, t ∈ x.writers
  readers : x.rw.currReaders = Multiset.card x.readers

/-- The loop for a write lock is tested only where no writer has the lock. -/
def Careful (type : Int) (rw : RwLock) : Prop := type = RWLOCK_WRITE → rw.type ≠ RWLOCK_WRITE

/-! ## The invariant -/

inductive Mode (x : RwRun θ) : Prop
  | free : x.rw.type = RWLOCK_FREE → x.readers = 0 → x.writers = 0 → x.rw.currReaders = 0 → Mode x
  | read : x.rw.type = RWLOCK_READ → x.readers ≠ 0 → x.writers = 0 → x.rw.currReaders = Multiset.card x.readers → Mode x
  | write (t : θ) : x.rw.type = RWLOCK_WRITE → x.readers = 0 → x.writers = {t} → x.rw.currReaders = 0 → Mode x

def Fits (x : RwRun θ) (t : θ) : RwAt → Prop
  | .lock type | .start type | .test type | .asleep type | .relock type => type = RWLOCK_READ ∨ type = RWLOCK_WRITE
  | .unlock type | .unlocking type => t ∈ x.holders type
  | .downgrade | .downgrading => t ∈ x.writers
  | .out | .leave => True

structure Inv (x : RwRun θ) : Prop where
  mode : Mode x
  fits : ∀ t, Fits x t (x.pc t)

section
variable {x y : RwRun θ} {t : θ} {pos : RwAt} {type : Int}

omit [DecidableEq θ] in
theorem Mode.right (h : Mode x) : x.Right := by
  cases h with
  | free ht hr hw hc =>
    exact ⟨by simp [hw], by simp [ht, hr, hw], by simp [ht, hw, RWLOCK_FREE, RWLOCK_WRITE], by simp [hc, hr]⟩
  | read ht hr hw hc =>
    exact ⟨by simp [hw], by simp [ht, hr, RWLOCK_FREE, RWLOCK_READ], by simp [ht, hw, RWLOCK_READ, RWLOCK_WRITE], hc⟩
  | write t ht hr hw hc =>
    refine ⟨fun u hu v hv => ?_, by simp [ht, hw, RWLOCK_FREE, RWLOCK_WRITE], by simp [ht, hw], by simp [hc, hr]⟩
    have hu : u = t := by simpa [hw] using hu
    simp [hr, hw, ← hu, hv]

omit [DecidableEq θ] in
theorem Fits.mono (h : Fits x t pos) (hr : t ∈ x.readers → t ∈ y.readers) (hw : t ∈ x.writers → t ∈ y.writers) :
    Fits y t pos := by
  have hh : ∀ {type}, t ∈ x.holders type → t ∈ y.holders type := fun {type} hm => by
    unfold holders at hm ⊢
    split
    · rw [if_pos ‹_›] at hm
      exact hw hm
    · rw [if_neg ‹_›] at hm
      exact hr hm
  cases pos with
  | unlock | unlocking => exact hh h
  | downgrade | downgrading => exact hw h
  | _ => exact h

theorem Inv.moves (h : Inv x) (hmode : Mode y) (hpc : y.pc = Function.update x.pc t pos) (hpos : Fits y t pos)
    (hr : ∀ u, u ≠ t → u ∈ x.readers → u ∈ y.readers) (hw : ∀ u, u ≠ t → u ∈ x.writers → u ∈ y.writers) : Inv y := by
  refine ⟨hmode, fun u => ?_⟩
  by_cases hu : u = t
  · subst hu
    rwa [hpc, Function.update_self]
  · rw [hpc, Function.update_of_ne hu]
    exact (h.fits u).mono (hr u hu) (hw u hu)

omit [DecidableEq θ] in
theorem Mode.congr (h : Mode x) (ht : y.rw.type = x.rw.type) (hc : y.rw.currReaders = x.rw.currReaders)
    (hr : y.readers = x.readers) (hw : y.writers = x.writers) : Mode y := by
  cases h with
  | free h₁ h₂ h₃ h₄ => exact .free (ht.trans h₁) (hr.trans h₂) (hw.trans h₃) (hc.trans h₄)
  | read h₁ h₂ h₃ h₄ => exact .read (ht.trans h₁) (hr ▸ h₂) (hw.trans h₃) (hr.symm ▸ hc.trans h₄)
  | write t h₁ h₂ h₃ h₄ => exact .write t (ht.trans h₁) (hr.trans h₂) (hw.trans h₃) (hc.trans h₄)

theorem Inv.stays (h : Inv x) (ht : y.rw.type = x.rw.type) (hc : y.rw.currReaders = x.rw.currReaders)
    (hr : y.readers = x.readers) (hw : y.writers = x.writers) (hpc : y.pc = Function.update x.pc t pos)
    (hpos : Fits x t pos) : Inv y :=
  h.moves (h.mode.congr ht hc hr hw) hpc (hpos.mono (fun hm => hr ▸ hm) fun hm => hw ▸ hm)
    (fun _ _ hm => hr ▸ hm) fun _ _ hm => hw ▸ hm

theorem Inv.enter (h : Inv x) (hp : x.pc t = .test type) (hok : Careful type x.rw) (hm : x.rw.mustWait type = false) :
    Inv ((x.acquire t type).goto t .leave) := by
  have htype := h.fits t
  rw [hp] at htype
  rcases htype with rfl | rfl
  · -- a reader: no writer has the lock or waits for it
    have hne : RWLOCK_READ ≠ RWLOCK_WRITE := by decide
    simp only [RwLock.mustWait, hne, if_false, Bool.or_eq_false_iff, decide_eq_false_iff_not] at hm
    refine h.moves (t := t) ?_ rfl trivial (fun u _ hu => ?_) fun u _ hu => ?_
    · have hw : x.writers = 0 ∧ x.rw.currReaders = Multiset.card x.readers := by
        cases h.mode with
        | free _ hr hw hc => exact ⟨hw, by simp [hc, hr]⟩
        | read _ _ hw hc => exact ⟨hw, hc⟩
        | write _ ht => exact absurd ht hm.1
      refine .read rfl (Multiset.cons_ne_zero (a := t) (m := x.readers)) hw.1 ?_
      show x.rw.currReaders + 1 = (Multiset.card (t ::ₘ x.readers) : Int)
      rw [Multiset.card_cons, hw.2]
      rfl
    · exact Multiset.mem_cons_of_mem hu
    · exact hu
  · -- a writer: the lock is free, since it is not held for reading
    simp only [RwLock.mustWait, if_true, Bool.and_eq_false_iff, decide_eq_false_iff_not, not_not] at hm
    have hfree : x.readers = 0 ∧ x.writers = 0 ∧ x.rw.currReaders = 0 := by
      cases h.mode with
      | free _ hr hw hc => exact ⟨hr, hw, hc⟩
      | read ht hr _ hc =>
        have hpos := Multiset.card_pos.mpr hr
        rcases hm with hm | hm
        · rw [ht] at hm
          cases hm
        · omega
      | write _ ht => exact absurd ht (hok rfl)
    refine h.moves (t := t) (.write t rfl hfree.1 ?_ hfree.2.2) rfl trivial (fun u _ hu => hu) fun u _ hu => ?_
    · show t ::ₘ x.writers = {t}
      rw [hfree.2.1]
      rfl
    · exact Multiset.mem_cons_of_mem hu

theorem Inv.release (h : Inv x) (hp : x.pc t = .unlocking type) : Inv ((x.release t type).goto t .leave) := by
  have hheld := h.fits t
  rw [hp] at hheld
  have hheld : t ∈ x.holders type := hheld
  unfold holders at hheld
  unfold RwRun.release
  split
  · rename_i htype
    rw [if_pos htype] at hheld
    refine h.moves (t := t) ?_ rfl trivial (fun u _ hu => hu) fun u hu hm =>
      (Multiset.mem_erase_of_ne hu).mpr hm
    cases h.mode with
    | free _ _ hw => simp [hw] at hheld
    | read _ _ hw => simp [hw] at hheld
    | write v ht hr hw hc =>
      have hv : t = v := by simpa [hw] using hheld
      refine .free ?_ hr ?_ ?_
      · simp [goto, RwLock.unlock, ht]
      · simp [goto, hw, hv]
      · simp [goto, RwLock.unlock, ht, hc]
  · rename_i htype
    rw [if_neg htype] at hheld
    refine h.moves (t := t) ?_ rfl trivial (fun u hu hm => (Multiset.mem_erase_of_ne hu).mpr hm) fun u _ hu =>
      hu
    cases h.mode with
    | free _ hr => simp [hr] at hheld
    | write _ _ hr => simp [hr] at hheld
    | read ht hr hw hc =>
      have hcard := Multiset.card_erase_add_one hheld
      have hne : x.rw.type ≠ RWLOCK_WRITE := by rw [ht]; decide
      by_cases hlast : x.rw.currReaders - 1 = 0
      · have hzero : x.readers.erase t = 0 := Multiset.card_eq_zero.mp (by omega)
        refine .free ?_ hzero hw ?_
        · simp [goto, RwLock.unlock, ht, hlast, RWLOCK_READ, RWLOCK_WRITE]
        · simp [goto, RwLock.unlock, ht, hlast, RWLOCK_READ, RWLOCK_WRITE]
      · refine .read ?_ (fun hz => hlast ?_) hw ?_
        · simp [goto, RwLock.unlock, ht, hlast, RWLOCK_READ, RWLOCK_WRITE]
        · have hz : x.readers.erase t = 0 := hz
          rw [hz, Multiset.card_zero] at hcard
          omega
        · have : (x.rw.unlock).currReaders = x.rw.currReaders - 1 := by
            simp [RwLock.unlock, ht, hlast, RWLOCK_READ, RWLOCK_WRITE]
          show (x.rw.unlock).currReaders = (Multiset.card (x.readers.erase t) : Int)
          omega

theorem Inv.downgraded (h : Inv x) (hp : x.pc t = .downgrading) : Inv ((x.downgraded t).goto t .leave) := by
  have hheld := h.fits t
  rw [hp] at hheld
  have hheld : t ∈ x.writers := hheld
  cases h.mode with
  | free _ _ hw => simp [hw] at hheld
  | read _ _ hw => simp [hw] at hheld
  | write v ht hr hw hc =>
    have hv : t = v := by simpa [hw] using hheld
    unfold RwRun.downgraded
    rw [if_neg (not_not_intro ht)]
    refine h.moves (t := t) (.read ?_ Multiset.cons_ne_zero ?_ ?_) rfl trivial
      (fun u _ hu => Multiset.mem_cons_of_mem hu) fun u hu hm => (Multiset.mem_erase_of_ne hu).mpr hm
    · simp [goto, RwLock.downgrade, ht]
    · simp [goto, hw, hv]
    · simp [goto, RwLock.downgrade, ht, hr, hc]

theorem Inv.step (h : Inv x) (hs : Step Careful x y) : Inv y := by
  cases hs with
  | lock hp ht => exact h.stays rfl rfl rfl rfl rfl ht
  | unlock hp hm => exact h.stays rfl rfl rfl rfl rfl hm
  | downgrade hp hm => exact h.stays rfl rfl rfl rfl rfl hm
  | @acquire t type hp _ =>
    have hf := hp ▸ h.fits t
    exact h.stays rfl rfl rfl rfl rfl hf
  | @start t type hp =>
    have hf := hp ▸ h.fits t
    exact h.stays RwLock.lockStart_type RwLock.lockStart_currReaders rfl rfl rfl hf
  | @sleep t type hp _ _ =>
    have hf := hp ▸ h.fits t
    exact h.stays rfl rfl rfl rfl rfl hf
  | @wake t type hp =>
    have hf := hp ▸ h.fits t
    exact h.stays rfl rfl rfl rfl rfl hf
  | @reacquire t type hp _ =>
    have hf := hp ▸ h.fits t
    exact h.stays rfl rfl rfl rfl rfl hf
  | enter hp hok hm => exact h.enter hp hok hm
  | @acquireUnlock t type hp _ =>
    have hf := hp ▸ h.fits t
    exact h.stays rfl rfl rfl rfl rfl hf
  | release hp => exact h.release hp
  | @acquireDowngrade t hp _ =>
    have hf := hp ▸ h.fits t
    exact h.stays rfl rfl rfl rfl rfl hf
  | downgraded hp => exact h.downgraded hp
  | @leave t hp => exact h.stays rfl rfl rfl rfl rfl trivial

end

/-- In every run in which no loop for a write lock is tested while a writer has the
lock, writers are alone and the fields agree with the holders. -/
theorem writers_excluded {x : RwRun θ} (h : Reach (· = init) (Step Careful) x) : x.Right := by
  have hi : Inv x := by
    refine h.invariant (fun y hy => ?_) fun _ _ hi hs => hi.step hs
    subst hy
    exact ⟨.free rfl rfl rfl rfl, fun _ => trivial⟩
  exact hi.mode.right

theorem enters_at_once (ok : Int → RwLock → Prop) {x : RwRun θ} {t : θ} (hpc : x.pc t = .out) (hm : x.mutex)
    (hok : ok RWLOCK_WRITE (x.rw.lockStart RWLOCK_WRITE))
    (hw : (x.rw.lockStart RWLOCK_WRITE).mustWait RWLOCK_WRITE = false) :
    ∃ y, Relation.ReflTransGen (Step ok) x y ∧ y.rw = (x.rw.lockStart RWLOCK_WRITE).lockEnd RWLOCK_WRITE ∧ y.mutex ∧
      y.pc = x.pc ∧ y.writers = t ::ₘ x.writers := by
  let locking := x.goto t (.lock RWLOCK_WRITE)
  let starting := { locking.goto t (.start RWLOCK_WRITE) with mutex := false }
  let testing := { starting.goto t (.test RWLOCK_WRITE) with rw := starting.rw.lockStart RWLOCK_WRITE }
  let leaving := (testing.acquire t RWLOCK_WRITE).goto t .leave
  have h₁ : Step ok x locking := .lock hpc (.inr rfl)
  have h₂ : Step ok locking starting := .acquire (Function.update_self ..) hm
  have h₃ : Step ok starting testing := .start (Function.update_self ..)
  have h₄ : Step ok testing leaving := .enter (Function.update_self ..) hok hw
  have h₅ : Step ok leaving { leaving.goto t .out with mutex := true } := .leave (Function.update_self ..)
  refine ⟨_, .head h₁ (.head h₂ (.head h₃ (.head h₄ (.single h₅)))), rfl, rfl, ?_, rfl⟩
  funext u
  by_cases hu : u = t <;> simp [goto, leaving, testing, starting, locking, acquire, hu, hpc]

theorem writers_excluded_one : ∃ x : RwRun Bool, true ∈ x.writers ∧ x.Right := by
  obtain ⟨x, hx, -, -, -, hw⟩ := enters_at_once Careful (x := init) (t := true) rfl rfl (fun _ => by decide) rfl
  exact ⟨x, by simp [hw], writers_excluded ⟨_, rfl, hx⟩⟩

/-- A second writer finds no reader and enters beside the first. -/
theorem two_writers : ∃ x : RwRun Bool, Reach (· = init) (Step fun _ _ => True) x ∧
    (∀ t, x.pc t = .out) ∧ true ∈ x.writers ∧ false ∈ x.writers := by
  obtain ⟨x, hx, hrw, hm, hpc, hw⟩ :=
    enters_at_once (fun _ _ => True) (x := init) (t := true) rfl rfl trivial rfl
  obtain ⟨y, hy, -, -, hpc', hw'⟩ :=
    enters_at_once (fun _ _ => True) (x := x) (t := false) (congrFun hpc false) hm trivial (by rw [hrw]; rfl)
  exact ⟨y, ⟨_, rfl, hx.trans hy⟩, fun t => by rw [hpc', hpc]; rfl, by simp [hw', hw], by simp [hw']⟩

end RwRun

end Pebbles
