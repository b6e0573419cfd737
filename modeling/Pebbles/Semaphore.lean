import Pebbles.UserCond

/-!
# Semaphores of the thread library

The functions of `libthread/sem.c` over the condition variables below them. A call is
two frames: where the thread is in `sem.c`, and where it is in `cond_var.c`.
-/

namespace Pebbles.User

open Runs Function

/-- Where a thread is in `sem_wait` and `sem_signal`; `test` remembers whether the thread
comes from `cond_wait`. -/
inductive SemAt where
  | out
  | wait
  | waitLock
  | test (woken : Bool)
  | inWait
  | waitUnlock
  | signal
  | sigLock
  | count
  | inSignal
  | sigUnlock
  deriving DecidableEq

/-- The fields of `sem_t` and its threads; the semaphore's mutex is the only one that the
condition variable is used with. -/
structure SemRun (θ : Type*) where
  cond : CondRun θ Unit
  count : Int
  valid : Int
  pc : θ → SemAt

namespace SemRun

variable {θ : Type*} [DecidableEq θ]

def mutex (z : SemRun θ) : Int := z.cond.mem.mutex ()

def setMutex (v : Int) (z : SemRun θ) : SemRun θ := { z with cond := z.cond.setMutexes fun _ => v }

def goto (t : θ) (pos : SemAt) (z : SemRun θ) : SemRun θ := { z with pc := update z.pc t pos }

def exec (t : θ) (z : SemRun θ) : Option (SemRun θ) :=
  match z.pc t with
  | .out => none
  | .wait => some (z.goto t (if z.valid = 0 then .out else .waitLock))
  | .waitLock => (mutexLock z.mutex).map fun v => (z.setMutex v).goto t (.test false)
  | .test _ =>
    if z.count = 0 then some { z.goto t .inWait with cond := z.cond.call t .wait () }
    else some { z.goto t .waitUnlock with count := z.count - 1 }
  | .inWait =>
    if z.cond.pc t = .done then some (z.goto t (.test true))
    else (z.cond.exec t).map fun cond => { z with cond := cond }
  | .waitUnlock => some ((z.setMutex (mutexUnlock z.mutex)).goto t .out)
  | .signal => some (z.goto t (if z.valid = 0 then .out else .sigLock))
  | .sigLock => (mutexLock z.mutex).map fun v => (z.setMutex v).goto t .count
  | .count => some { z.goto t .inSignal with count := z.count + 1, cond := z.cond.call t .signal () }
  | .inSignal =>
    if z.cond.pc t = .done then some (z.goto t .sigUnlock)
    else (z.cond.exec t).map fun cond => { z with cond := cond }
  | .sigUnlock => some ((z.setMutex (mutexUnlock z.mutex)).goto t .out)

def Init (z : SemRun θ) : Prop :=
  z.cond.Init ∧ z.mutex = MUTEX_VALID ∧ 0 < z.count ∧ z.valid = 1 ∧ ∀ t, z.pc t = .out

/-- A signal looks at the queue only where `ok` allows it. -/
inductive Step (ok : CondMem θ Unit → Prop) : SemRun θ → SemRun θ → Prop
  | exec {z z' t} : (z.cond.pc t = .sigFirst → ok z.cond.mem) → z.exec t = some z' → Step ok z z'
  | call {z t pos} : z.pc t = .out → pos = .wait ∨ pos = .signal → Step ok z (z.goto t pos)

def Blocked (z : SemRun θ) (t : θ) : Prop := z.pc t = .inWait ∧ t ∈ z.cond.mem.unsignalled

def Pending (z : SemRun θ) (t : θ) : Prop :=
  z.pc t = .test true ∨
    z.pc t = .inWait ∧ (t ∈ z.cond.mem.signalled ∨ z.cond.pc t = .delUnlock ∨ z.cond.pc t = .done)

def Signalling (z : SemRun θ) (t : θ) : Prop :=
  z.pc t = .inSignal ∧ (z.cond.pc t = .signal ∨ z.cond.pc t = .sigLock ∨ z.cond.pc t = .sigFirst)

def Right (z : SemRun θ) : Prop :=
  0 < z.count → (∃ t, z.Blocked t) → (∃ t, z.Pending t) ∨ ∃ t, z.Signalling t

end SemRun

/-! ## The frames -/

namespace CondAt

variable {θ : Type*}

def ofWait : CondAt θ → Bool
  | .wait | .waitLock | .add | .addUnlock | .release | .deschedule | .relock | .delLock | .del | .delUnlock | .done =>
      true
  | _ => false

def ofSignal : CondAt θ → Bool
  | .signal | .sigLock | .sigFirst | .sigWake _ | .sigUnlock | .done => true
  | _ => false

def enters : CondAt θ → Bool
  | .wait | .waitLock | .add | .addUnlock | .release => true
  | _ => false

def holdsMutex : CondAt θ → Bool
  | .deschedule | .relock => false
  | _ => true

theorem holdsMutex_of_enters {c : CondAt θ} (h : c.enters) : c.holdsMutex := by
  cases c <;> first | rfl | cases h

end CondAt

namespace CondMem

variable {θ μ : Type*} [DecidableEq θ] {m : CondMem θ μ} {t : θ}

theorem length_signalled_erase (hmem : t ∈ m.cv.waiting) (hrej : m.reject t ≠ DESCHEDULE) :
    m.signalled.length = (m.setWaiting (m.cv.waiting.erase t)).signalled.length + 1 := by
  have hlen := ((List.perm_cons_erase hmem).filter fun u => decide (m.reject u ≠ DESCHEDULE)).length_eq
  rwa [List.filter_cons_of_pos (by simpa using hrej)] at hlen

theorem unsignalled_of_erase (h : (m.setWaiting (m.cv.waiting.erase t)).unsignalled ≠ []) : m.unsignalled ≠ [] := by
  obtain ⟨u, hu⟩ := List.exists_mem_of_ne_nil _ h
  exact List.ne_nil_of_mem ((List.erase_sublist.filter _).subset hu)

theorem length_signalled_setReject (hmem : t ∈ m.cv.waiting) (hrej : m.reject t = DESCHEDULE) :
    m.signalled.length < (m.setReject t RUNNABLE).signalled.length := by
  refine length_filter_lt (fun u hu => ?_) hmem ?_ (by simp [hrej])
  · by_cases e : u = t
    · simp [setReject, e, RUNNABLE, DESCHEDULE]
    · simpa [setReject, e] using hu
  · simp [setReject, RUNNABLE, DESCHEDULE]

theorem unsignalled_of_setReject (h : (m.setReject t RUNNABLE).unsignalled ≠ []) : m.unsignalled ≠ [] := by
  obtain ⟨u, hu⟩ := List.exists_mem_of_ne_nil _ h
  obtain ⟨hmem, hr⟩ := List.mem_filter.mp hu
  refine List.ne_nil_of_mem (a := u) (List.mem_filter.mpr ⟨hmem, ?_⟩)
  by_cases e : u = t
  · simp [setReject, e, RUNNABLE, DESCHEDULE] at hr
  · simpa [setReject, e] using hr

end CondMem

namespace SemRun

variable {θ : Type*} [DecidableEq θ]

def Fits (c : CondAt θ) : SemAt → Prop
  | .inWait => c.ofWait
  | .inSignal => c.ofSignal
  | _ => c = .done

def holds (c : CondAt θ) : SemAt → Bool
  | .test _ | .waitUnlock | .count | .inSignal | .sigUnlock => true
  | .inWait => c.holdsMutex
  | .out | .wait | .waitLock | .signal | .sigLock => false

def carried (c : CondAt θ) : SemAt → Int
  | .test true => 1
  | .inWait => if c = .delUnlock ∨ c = .done then 1 else 0
  | .inSignal => if c = .signal ∨ c = .sigLock ∨ c = .sigFirst then 1 else 0
  | _ => 0

def Covered (z : SemRun θ) (n : Int) : Prop :=
  z.cond.mem.unsignalled ≠ [] → z.count ≤ z.cond.mem.signalled.length + n

structure Inv (z : SemRun θ) : Prop where
  cond : z.cond.Inv
  fits : ∀ t, Fits (z.cond.pc t) (z.pc t)
  held : ∀ {t}, holds (z.cond.pc t) (z.pc t) → z.mutex = 0
  unique : ∀ {t u}, holds (z.cond.pc t) (z.pc t) → holds (z.cond.pc u) (z.pc u) → t = u
  entering : ∀ {t}, z.pc t = .inWait → (z.cond.pc t).enters → z.count = 0
  nonneg : 0 ≤ z.count
  covered : (∀ t, holds (z.cond.pc t) (z.pc t) = false) → z.Covered 0
  carrying : ∀ {t}, holds (z.cond.pc t) (z.pc t) → z.Covered (carried (z.cond.pc t) (z.pc t))

section
variable {y z : SemRun θ} {t u : θ} {ok : CondMem θ Unit → Prop}

theorem Inv.others (h : Inv z) (ht : holds (z.cond.pc t) (z.pc t) ∨ z.mutex ≠ 0) (hu : u ≠ t) :
    holds (z.cond.pc u) (z.pc u) = false := by
  by_contra hq
  rw [Bool.not_eq_false] at hq
  rcases ht with ht | ht
  · exact hu (h.unique hq ht)
  · exact ht (h.held hq)

theorem Inv.start (h : Inv z) (ht : holds (z.cond.pc t) (z.pc t) ∨ z.mutex ≠ 0) :
    z.Covered (if holds (z.cond.pc t) (z.pc t) then carried (z.cond.pc t) (z.pc t) else 0) := by
  split
  · rename_i hh
    exact h.carrying hh
  · rename_i hh
    refine h.covered fun u => ?_
    by_cases hu : u = t
    · subst hu
      simpa using hh
    · exact h.others ht hu

theorem Inv.inside (h : Inv z) (ht : holds (z.cond.pc t) (z.pc t) ∨ z.mutex ≠ 0) (hcond : y.cond.Inv)
    (hpc : ∀ u, u ≠ t → y.pc u = z.pc u ∧ y.cond.pc u = z.cond.pc u) (hfits : Fits (y.cond.pc t) (y.pc t))
    (hheld : holds (y.cond.pc t) (y.pc t) → y.mutex = 0) (hent : y.pc t = .inWait → (y.cond.pc t).enters → y.count = 0)
    (hnn : 0 ≤ y.count) (hcov : z.Covered (if holds (z.cond.pc t) (z.pc t) then carried (z.cond.pc t) (z.pc t) else 0) →
      y.Covered (if holds (y.cond.pc t) (y.pc t) then carried (y.cond.pc t) (y.pc t) else 0)) : Inv y := by
  have hothers : ∀ u, u ≠ t → holds (y.cond.pc u) (y.pc u) = false := by
    intro u hu
    rw [(hpc u hu).1, (hpc u hu).2]
    exact h.others ht hu
  have hself : ∀ {u}, holds (y.cond.pc u) (y.pc u) → u = t := by
    intro u hu
    by_contra e
    rw [hothers u e] at hu
    cases hu
  have hfin := hcov (h.start ht)
  refine ⟨hcond, fun u => ?_, fun {u} hu => ?_, fun {a b} ha hb => (hself ha).trans (hself hb).symm, fun {u} hp he =>
    ?_, hnn,
    fun hall => ?_, fun {u} hu => ?_⟩
  · by_cases hu : u = t
    · exact hu ▸ hfits
    · rw [(hpc u hu).1, (hpc u hu).2]
      exact h.fits u
  · obtain rfl := hself hu
    exact hheld hu
  · by_cases e : u = t
    · subst e
      exact hent hp he
    · -- a thread that enters has the mutex
      have hne := hothers u e
      rw [hp] at hne
      exact absurd hne (by simp [holds, CondAt.holdsMutex_of_enters he])
  · rwa [hall t] at hfin
  · obtain rfl := hself hu
    rwa [hu] at hfin

theorem Inv.outside (h : Inv z) (ht : holds (z.cond.pc t) (z.pc t) = false) (ht' : holds (y.cond.pc t) (y.pc t) = false)
    (hcond : y.cond.Inv) (hpc : ∀ u, u ≠ t → y.pc u = z.pc u ∧ y.cond.pc u = z.cond.pc u)
    (hfits : Fits (y.cond.pc t) (y.pc t)) (hmutex : y.mutex = z.mutex) (hcount : y.count = z.count)
    (hun : y.cond.mem.unsignalled = z.cond.mem.unsignalled) (hsig : y.cond.mem.signalled = z.cond.mem.signalled) :
    Inv y := by
  have hsame : ∀ u, holds (y.cond.pc u) (y.pc u) = holds (z.cond.pc u) (z.pc u) := by
    intro u
    by_cases hu : u = t
    · rw [hu, ht, ht']
    · rw [(hpc u hu).1, (hpc u hu).2]
  have hcov : ∀ n, z.Covered n → y.Covered n := by
    intro n hz hne
    rw [hcount, hsig]
    exact hz (hun ▸ hne)
  refine ⟨hcond, fun u => ?_, fun {u} hu => hmutex.trans (h.held (hsame u ▸ hu)), fun {a b} ha hb =>
    h.unique (hsame a ▸ ha) (hsame b ▸ hb), fun {u} hp he => ?_, hcount ▸ h.nonneg, fun hall => ?_, fun {u} hu => ?_⟩
  · by_cases hu : u = t
    · exact hu ▸ hfits
    · rw [(hpc u hu).1, (hpc u hu).2]
      exact h.fits u
  · by_cases e : u = t
    · subst e
      rw [hp] at ht'
      exact absurd ht' (by simp [holds, CondAt.holdsMutex_of_enters he])
    · rw [hcount]
      exact h.entering ((hpc u e).1 ▸ hp) ((hpc u e).2 ▸ he)
  · exact hcov 0 (h.covered fun u => hsame u ▸ hall u)
  · have hne : u ≠ t := by
      rintro rfl
      rw [ht'] at hu
      cases hu
    rw [(hpc u hne).1, (hpc u hne).2] at hu ⊢
    exact hcov _ (h.carrying hu)

omit [DecidableEq θ] in
theorem Covered.of_le {n n' : Int} (h : z.Covered n) (hcount : y.count + n ≤ z.count + n')
    (hun : y.cond.mem.unsignalled = z.cond.mem.unsignalled) (hsig : y.cond.mem.signalled = z.cond.mem.signalled) :
    y.Covered n' := by
  intro hne
  have := h (hun ▸ hne)
  rw [hsig]
  omega

omit [DecidableEq θ] in
theorem Covered.of_zero {n : Int} (hcount : y.count = 0) (hn : 0 ≤ n) : y.Covered n := by
  intro _
  rw [hcount]
  omega

theorem Inv.waits {pos : CondAt θ} {mem : CondMem θ Unit} (h : Inv z) (hp : z.pc t = .inWait)
    (hcond : (z.cond.moved t pos mem).Inv) (hfit : pos.ofWait) (ht : (z.cond.pc t).holdsMutex ∨ z.mutex ≠ 0)
    (hheld : pos.holdsMutex → mem.mutex () = 0) (hent : pos.enters → z.count = 0)
    (hcov : z.Covered (if (z.cond.pc t).holdsMutex then carried (z.cond.pc t) .inWait else 0) →
      Covered { z with cond := z.cond.moved t pos mem } (if pos.holdsMutex then carried pos .inWait else 0)) :
    Inv { z with cond := z.cond.moved t pos mem } := by
  have hpos : (z.cond.moved t pos mem).pc t = pos := update_self ..
  refine h.inside (t := t) (by rwa [hp]) hcond (fun u hu => ⟨rfl, update_of_ne hu ..⟩) ?_ ?_ ?_ h.nonneg ?_
  · show Fits ((z.cond.moved t pos mem).pc t) (z.pc t)
    rw [hp, hpos]
    exact hfit
  · show holds ((z.cond.moved t pos mem).pc t) (z.pc t) → _
    rw [hp, hpos]
    exact hheld
  · show _ → ((z.cond.moved t pos mem).pc t).enters → _
    rw [hpos]
    exact fun _ => hent
  · show _ → Covered _ (if holds ((z.cond.moved t pos mem).pc t) (z.pc t) then carried _ (z.pc t) else 0)
    rw [hp, hpos]
    exact hcov

theorem Inv.enters {pos : CondAt θ} {mem : CondMem θ Unit} (h : Inv z) (hp : z.pc t = .inWait)
    (hcond : (z.cond.moved t pos mem).Inv) (hc : (z.cond.pc t).enters) (hpos : pos.enters ∨ pos = .deschedule)
    (hmutex : pos.enters → mem.mutex () = z.mutex) : Inv { z with cond := z.cond.moved t pos mem } := by
  have hzero := h.entering hp hc
  have hholds := CondAt.holdsMutex_of_enters hc
  refine h.waits hp hcond ?_ (.inl hholds) (fun hm => ?_) (fun _ => hzero) fun _ => ?_
  · rcases hpos with hpos | rfl
    · cases pos <;> first | rfl | cases hpos
    · rfl
  · rcases hpos with hpos | rfl
    · exact (hmutex hpos).trans (h.held (t := t) (by rw [hp]; exact hholds))
    · cases hm
  · refine .of_zero hzero ?_
    split
    · rw [carried]
      split <;> decide
    · rfl

theorem Inv.inWait (h : Inv z) (hp : z.pc t = .inWait) {cond : CondRun θ Unit} (he : z.cond.exec t = some cond) :
    Inv { z with cond := cond } := by
  have hcond := h.cond.exec he
  have hfit := h.fits t
  rw [hp] at hfit
  have hg := h.cond.good t
  have hst : z.cond.mem.cv.status ≠ COND_VAR_INVALID := by simp [h.cond.status, COND_VAR_VALID, COND_VAR_INVALID]
  obtain ⟨hsl, r, hr, rfl⟩ := CondRun.exec_eq_some he
  cases hc : z.cond.pc t with
  | wait =>
    rw [hc, CondMem.exec, if_neg hst] at hr
    cases hr
    exact h.enters hp hcond (by rw [hc]; rfl) (.inl rfl) fun _ => rfl
  | waitLock =>
    rw [hc] at hr
    obtain ⟨v, -, rfl⟩ := Option.map_eq_some_iff.mp hr
    exact h.enters hp hcond (by rw [hc]; rfl) (.inl rfl) fun _ => rfl
  | add =>
    rw [hc] at hr
    cases hr
    exact h.enters hp hcond (by rw [hc]; rfl) (.inl rfl) fun _ => rfl
  | addUnlock =>
    rw [hc] at hr
    cases hr
    exact h.enters hp hcond (by rw [hc]; rfl) (.inl rfl) fun _ => rfl
  | release =>
    rw [hc] at hr
    cases hr
    exact h.enters hp hcond (by rw [hc]; rfl) (.inr rfl) fun hx => by cases hx
  | deschedule =>
    rw [hc] at hr
    cases hr
    have hpos : (z.cond.moved t .relock (z.cond.mem.deschedule t)).pc t = .relock := update_self ..
    have hkeep : ∀ m : CondMem θ Unit, (m.deschedule t).cv = m.cv ∧ (m.deschedule t).reject = m.reject ∧
        (m.deschedule t).mutex = m.mutex := by
      intro m
      unfold CondMem.deschedule
      split <;> exact ⟨rfl, rfl, rfl⟩
    obtain ⟨hk₁, hk₂, hk₃⟩ := hkeep z.cond.mem
    refine h.outside (t := t) (by rw [hp, hc]; rfl) ?_ hcond (fun u hu => ⟨rfl, update_of_ne hu ..⟩) ?_ ?_ rfl ?_ ?_
    · show holds ((z.cond.moved t .relock _).pc t) (z.pc t) = false
      rw [hpos, hp]
      rfl
    · show Fits ((z.cond.moved t .relock _).pc t) (z.pc t)
      rw [hpos, hp]
      rfl
    · exact congrFun hk₃ ()
    · simp [CondRun.moved, CondMem.unsignalled, hk₁, hk₂]
    · simp [CondRun.moved, CondMem.signalled, hk₁, hk₂]
  | relock =>
    rw [hc] at hr
    obtain ⟨v, hv, rfl⟩ := Option.map_eq_some_iff.mp hr
    obtain ⟨hne, rfl⟩ := mutexLock_eq_some.mp hv
    refine h.waits hp hcond rfl (.inr hne) (fun _ => by simp [CondMem.setMutex]) (fun hx => by cases hx) fun hz => ?_
    rw [hc] at hz
    exact hz.of_le (by simp [CondAt.holdsMutex, carried]) rfl rfl
  | delLock =>
    rw [hc] at hr
    obtain ⟨v, -, rfl⟩ := Option.map_eq_some_iff.mp hr
    have hh := h.held (t := t) (by rw [hp, hc]; rfl)
    refine h.waits hp hcond rfl (.inl (by rw [hc]; rfl)) (fun _ => hh) (fun hx => by cases hx) fun hz => ?_
    rw [hc] at hz
    exact hz.of_le (by simp [CondAt.holdsMutex, carried]) rfl rfl
  | del =>
    rw [hc] at hr hg
    cases hr
    have hh := h.held (t := t) (by rw [hp, hc]; rfl)
    refine h.waits hp hcond rfl (.inl (by rw [hc]; rfl)) (fun _ => hh) (fun hx => by cases hx) fun hz hne => ?_
    -- the thread takes its own mark out of the queue
    rw [hc] at hz
    have hz := hz (CondMem.unsignalled_of_erase hne)
    have hlen := CondMem.length_signalled_erase (hg.queued.mpr rfl) (hg.woken rfl hsl)
    simp only [CondAt.holdsMutex, carried, if_true, reduceCtorEq, or_self, or_false, if_false] at hz ⊢
    show z.count ≤ (z.cond.mem.setWaiting (z.cond.mem.cv.waiting.erase t)).signalled.length + 1
    omega
  | delUnlock =>
    rw [hc] at hr
    cases hr
    have hh := h.held (t := t) (by rw [hp, hc]; rfl)
    refine h.waits hp hcond rfl (.inl (by rw [hc]; rfl)) (fun _ => hh) (fun hx => by cases hx) fun hz => ?_
    rw [hc] at hz
    exact hz.of_le (by simp [CondAt.holdsMutex, carried]) rfl rfl
  | done =>
    rw [hc] at hr
    cases hr
  | signal | sigLock | sigFirst | sigWake | sigUnlock | broadcast | bcLock | bcFirst | bcMark | bcWake | bcUnlock =>
    rw [hc] at hfit
    cases hfit

theorem Inv.signals {pos : CondAt θ} {mem : CondMem θ Unit} (h : Inv z) (hp : z.pc t = .inSignal)
    (hcond : (z.cond.moved t pos mem).Inv) (hfit : pos.ofSignal) (hmutex : mem.mutex = z.cond.mem.mutex)
    (hcov : z.Covered (carried (z.cond.pc t) .inSignal) →
      Covered { z with cond := z.cond.moved t pos mem } (carried pos .inSignal)) :
    Inv { z with cond := z.cond.moved t pos mem } := by
  have hpos : (z.cond.moved t pos mem).pc t = pos := update_self ..
  have hh : holds (z.cond.pc t) (z.pc t) := by rw [hp]; rfl
  refine h.inside (t := t) (.inl hh) hcond (fun u hu => ⟨rfl, update_of_ne hu ..⟩) ?_ (fun _ => ?_) ?_ h.nonneg ?_
  · show Fits ((z.cond.moved t pos mem).pc t) (z.pc t)
    rw [hp, hpos]
    exact hfit
  · exact (congrFun hmutex ()).trans (h.held hh)
  · intro hx
    rw [show z.pc t = .inWait from hx] at hp
    cases hp
  · show _ → Covered _ (if holds ((z.cond.moved t pos mem).pc t) (z.pc t) then carried _ (z.pc t) else 0)
    rw [hp, hpos]
    exact hcov

theorem Inv.inSignal (h : Inv z) (hp : z.pc t = .inSignal) {cond : CondRun θ Unit} (he : z.cond.exec t = some cond)
    (hok : z.cond.pc t = .sigFirst → z.cond.mem.Careful) : Inv { z with cond := cond } := by
  have hcond := h.cond.exec he
  have hfit := h.fits t
  rw [hp] at hfit
  have hst : z.cond.mem.cv.status ≠ COND_VAR_INVALID := by simp [h.cond.status, COND_VAR_VALID, COND_VAR_INVALID]
  obtain ⟨-, r, hr, rfl⟩ := CondRun.exec_eq_some he
  cases hc : z.cond.pc t with
  | signal =>
    rw [hc, CondMem.exec, if_neg hst] at hr
    cases hr
    refine h.signals hp hcond rfl rfl fun hz => ?_
    rw [hc] at hz
    exact hz.of_le (by simp [carried]) rfl rfl
  | sigLock =>
    rw [hc] at hr
    obtain ⟨v, -, rfl⟩ := Option.map_eq_some_iff.mp hr
    refine h.signals hp hcond rfl rfl fun hz => ?_
    rw [hc] at hz
    exact hz.of_le (by simp [carried]) rfl rfl
  | sigFirst =>
    rw [hc, CondMem.exec] at hr
    split at hr <;> cases hr
    · rename_i hl
      refine h.signals hp hcond rfl rfl fun _ hne => absurd ?_ hne
      have hnil : z.cond.mem.cv.waiting = [] := List.head?_eq_none_iff.mp hl
      show z.cond.mem.unsignalled = []
      simp [CondMem.unsignalled, hnil]
    · rename_i thr hl
      refine h.signals hp hcond rfl rfl fun hz hne => ?_
      rw [hc] at hz
      have hne := CondMem.unsignalled_of_setReject hne
      have hlt := CondMem.length_signalled_setReject (List.mem_of_mem_head? hl) (hok hc hne thr hl)
      have hz := hz hne
      simp only [carried, reduceCtorEq, or_true, or_self, if_true, if_false] at hz ⊢
      show z.count ≤ (z.cond.mem.setReject thr RUNNABLE).signalled.length + 0
      omega
  | sigWake thr =>
    rw [hc] at hr
    cases hr
    refine h.signals hp hcond rfl rfl fun hz => ?_
    rw [hc] at hz
    exact hz.of_le (by simp [carried]) rfl rfl
  | sigUnlock =>
    rw [hc] at hr
    cases hr
    refine h.signals hp hcond rfl rfl fun hz => ?_
    rw [hc] at hz
    exact hz.of_le (by simp [carried]) rfl rfl
  | done =>
    rw [hc] at hr
    cases hr
  | wait | waitLock | add | addUnlock | release | deschedule | relock | delLock | del | delUnlock | broadcast | bcLock
  | bcFirst | bcMark | bcWake | bcUnlock =>
    rw [hc] at hfit
    cases hfit

theorem Inv.aside {pos : SemAt} (h : Inv z) (hp : z.pc t = .out ∨ z.pc t = .wait ∨ z.pc t = .signal)
    (hpos : pos = .out ∨ pos = .wait ∨ pos = .waitLock ∨ pos = .signal ∨ pos = .sigLock) : Inv (z.goto t pos) := by
  have hfit : z.cond.pc t = .done := by
    have := h.fits t
    rcases hp with hp | hp | hp <;> rwa [hp] at this
  have hself : (z.goto t pos).pc t = pos := update_self ..
  refine h.outside (t := t) ?_ ?_ h.cond (fun u hu => ⟨update_of_ne hu .., rfl⟩) ?_ rfl rfl rfl rfl
  · rcases hp with hp | hp | hp <;> rw [hp] <;> rfl
  · rw [hself]
    rcases hpos with rfl | rfl | rfl | rfl | rfl <;> rfl
  · rw [hself]
    rcases hpos with rfl | rfl | rfl | rfl | rfl <;> exact hfit

theorem Inv.locks {pos : SemAt} (h : Inv z) (hfit : z.cond.pc t = .done) (hout : holds (z.cond.pc t) (z.pc t) = false)
    (hne : z.mutex ≠ 0) (hpos : pos = .test false ∨ pos = .count) : Inv ((z.setMutex 0).goto t pos) := by
  have hself : ((z.setMutex 0).goto t pos).pc t = pos := update_self ..
  refine h.inside (t := t) (.inr hne) h.cond.setMutexes (fun u hu => ⟨update_of_ne hu .., rfl⟩) ?_ (fun _ => rfl) ?_
    h.nonneg fun hz => ?_
  · rw [hself]
    rcases hpos with rfl | rfl <;> exact hfit
  · rw [hself]
    rcases hpos with rfl | rfl <;> simp
  · rw [hout] at hz
    rw [hself]
    rcases hpos with rfl | rfl <;> exact hz.of_le le_rfl rfl rfl

theorem Inv.unlocks (h : Inv z) (hp : z.pc t = .waitUnlock ∨ z.pc t = .sigUnlock) :
    Inv ((z.setMutex (mutexUnlock z.mutex)).goto t .out) := by
  have hself : ((z.setMutex (mutexUnlock z.mutex)).goto t .out).pc t = .out := update_self ..
  have hfit : z.cond.pc t = .done := by
    have := h.fits t
    rcases hp with hp | hp <;> rwa [hp] at this
  have hh : holds (z.cond.pc t) (z.pc t) ∧ carried (z.cond.pc t) (z.pc t) = 0 := by
    rcases hp with hp | hp <;> rw [hp] <;> exact ⟨rfl, rfl⟩
  refine h.inside (t := t) (.inl hh.1) h.cond.setMutexes (fun u hu => ⟨update_of_ne hu .., rfl⟩) ?_ ?_ ?_ h.nonneg
    fun hz => ?_
  · rw [hself]
    exact hfit
  · rw [hself]
    exact fun hx => by cases hx
  · rw [hself]
    exact fun hx => by cases hx
  · rw [hh.1, hh.2] at hz
    rw [hself]
    exact hz.of_le le_rfl rfl rfl

theorem Inv.own {pos : SemAt} {c : CondAt θ} (h : Inv z) (hh : holds (z.cond.pc t) (z.pc t)) (hcond : y.cond.Inv)
    (hpc : y.pc = update z.pc t pos) (hcpc : y.cond.pc = update z.cond.pc t c) (hmutex : y.mutex = z.mutex)
    (hfit : Fits c pos) (hpos : holds c pos) (hent : pos = .inWait → y.count = 0) (hnn : 0 ≤ y.count)
    (hcov : z.Covered (carried (z.cond.pc t) (z.pc t)) → y.Covered (carried c pos)) : Inv y := by
  refine h.inside (t := t) (.inl hh) hcond (fun u hu =>
    ⟨by rw [hpc, update_of_ne hu], by rw [hcpc, update_of_ne hu]⟩) ?_
    (fun _ => hmutex.trans (h.held hh)) ?_ hnn ?_
  · rwa [hpc, hcpc, update_self, update_self]
  · rw [hpc, update_self]
    exact fun hx _ => hent hx
  · rw [hpc, hcpc, update_self, update_self, hh, hpos]
    exact hcov

theorem Inv.exec (h : Inv z) (hok : z.cond.pc t = .sigFirst → z.cond.mem.Careful) (he : z.exec t = some y) : Inv y := by
  have hfit := h.fits t
  unfold SemRun.exec at he
  cases hp : z.pc t with
  | out =>
    rw [hp] at he
    cases he
  | wait =>
    rw [hp] at he
    cases he
    refine h.aside (.inr (.inl hp)) ?_
    split <;> simp
  | signal =>
    rw [hp] at he
    cases he
    refine h.aside (.inr (.inr hp)) ?_
    split <;> simp
  | waitLock =>
    rw [hp] at he hfit
    obtain ⟨v, hv, rfl⟩ := Option.map_eq_some_iff.mp he
    obtain ⟨hne, rfl⟩ := mutexLock_eq_some.mp hv
    exact h.locks hfit (by rw [hp]; rfl) hne (.inl rfl)
  | sigLock =>
    rw [hp] at he hfit
    obtain ⟨v, hv, rfl⟩ := Option.map_eq_some_iff.mp he
    obtain ⟨hne, rfl⟩ := mutexLock_eq_some.mp hv
    exact h.locks hfit (by rw [hp]; rfl) hne (.inr rfl)
  | test b =>
    rw [hp] at he hfit
    have hh : holds (z.cond.pc t) (z.pc t) := by rw [hp]; rfl
    dsimp only at he
    split at he <;> cases he
    · rename_i hzero
      exact h.own hh (h.cond.call hfit (.inl rfl)) rfl rfl rfl rfl rfl (fun _ => hzero) h.nonneg fun _ =>
        .of_zero hzero le_rfl
    · rename_i hzero
      have hnn := h.nonneg
      refine h.own hh h.cond rfl (update_eq_self t z.cond.pc).symm rfl hfit rfl (by simp) ?_ fun hz => ?_
      · show 0 ≤ z.count - 1
        omega
      · have hle : carried (z.cond.pc t) (z.pc t) ≤ 1 := by
          rw [hp]
          cases b <;> simp [carried]
        refine hz.of_le ?_ rfl rfl
        show z.count - 1 + carried (z.cond.pc t) (z.pc t) ≤ z.count + 0
        omega
  | inWait =>
    rw [hp] at he
    dsimp only at he
    split at he
    · rename_i hd
      cases he
      have hh : holds (z.cond.pc t) (z.pc t) := by rw [hp, hd]; rfl
      refine h.own hh h.cond rfl (update_eq_self t z.cond.pc).symm rfl hd rfl (by simp) h.nonneg fun hz => ?_
      rw [hp, hd] at hz
      exact hz.of_le (by simp [carried, goto]) rfl rfl
    · obtain ⟨cond, hc, rfl⟩ := Option.map_eq_some_iff.mp he
      exact h.inWait hp hc
  | inSignal =>
    rw [hp] at he
    dsimp only at he
    split at he
    · rename_i hd
      cases he
      have hh : holds (z.cond.pc t) (z.pc t) := by rw [hp]; rfl
      refine h.own hh h.cond rfl (update_eq_self t z.cond.pc).symm rfl hd rfl (by simp) h.nonneg fun hz => ?_
      rw [hp, hd] at hz
      exact hz.of_le (by simp [carried, goto]) rfl rfl
    · obtain ⟨cond, hc, rfl⟩ := Option.map_eq_some_iff.mp he
      exact h.inSignal hp hc hok
  | waitUnlock =>
    rw [hp] at he
    cases he
    exact h.unlocks (.inl hp)
  | sigUnlock =>
    rw [hp] at he
    cases he
    exact h.unlocks (.inr hp)
  | count =>
    rw [hp] at he hfit
    cases he
    have hnn := h.nonneg
    have hh : holds (z.cond.pc t) (z.pc t) := by rw [hp]; rfl
    refine h.own hh (h.cond.call hfit (.inr (.inl rfl))) rfl rfl rfl rfl rfl (by simp) ?_ fun hz => ?_
    · show 0 ≤ z.count + 1
      omega
    · rw [hp] at hz
      exact hz.of_le (by simp [carried]) rfl rfl

theorem Inv.step (h : Inv z) (hs : Step CondMem.Careful z y) : Inv y := by
  cases hs with
  | exec hok he => exact h.exec hok he
  | call hp hpos =>
    refine h.aside (.inl hp) ?_
    rcases hpos with rfl | rfl <;> simp

theorem Init.inv (h : Init z) : Inv z := by
  obtain ⟨hc, hm, hcount, -, hpc⟩ := h
  have hnil : z.cond.mem.unsignalled = [] := by simp [CondMem.unsignalled, hc.1, condInit]
  have hout : ∀ t, holds (z.cond.pc t) (z.pc t) = false := fun t => by rw [hpc t]; rfl
  refine ⟨hc.inv, fun t => ?_, fun {t} ht => ?_, fun {t u} ht => ?_, fun {t} hp => ?_, hcount.le, fun _ hne =>
    absurd hnil hne,
    fun {t} _ hne => absurd hnil hne⟩
  · rw [hpc t]
    exact (hc.2 t).1
  · rw [hout t] at ht
    cases ht
  · rw [hout t] at ht
    cases ht
  · rw [hpc t] at hp
    cases hp

omit [DecidableEq θ] in
theorem Fits.eq_inWait {c : CondAt θ} {pos : SemAt} (h : Fits c pos) (hq : c.queued) : pos = .inWait := by
  cases pos with
  | inWait => rfl
  | inSignal => cases c <;> first | (cases h; done) | cases hq
  | _ =>
    obtain rfl : c = .done := h
    cases hq

theorem carried_ne_zero (h : carried (z.cond.pc t) (z.pc t) ≠ 0) : z.Pending t ∨ z.Signalling t := by
  cases hp : z.pc t with
  | test b =>
    rw [hp] at h
    cases b with
    | true => exact .inl (.inl hp)
    | false => exact absurd rfl h
  | inWait =>
    rw [hp, carried] at h
    split at h
    · rename_i hc
      exact .inl (.inr ⟨hp, .inr hc⟩)
    · exact absurd rfl h
  | inSignal =>
    rw [hp, carried] at h
    split at h
    · rename_i hc
      exact .inr ⟨hp, hc⟩
    · exact absurd rfl h
  | _ =>
    rw [hp] at h
    exact absurd rfl h

theorem Inv.right (h : Inv z) : z.Right := by
  rintro hpos ⟨b, -, hb⟩
  have hne : z.cond.mem.unsignalled ≠ [] := List.ne_nil_of_mem hb
  -- a signalled entry belongs to a waiter
  have hentry : z.cond.mem.signalled.length ≠ 0 → ∃ t, z.Pending t := by
    intro hl
    obtain ⟨t, ht⟩ := List.exists_mem_of_ne_nil _ (List.ne_nil_of_length_pos (Nat.pos_of_ne_zero hl))
    have hq := (h.cond.good t).queued.mp (List.mem_filter.mp ht).1
    refine ⟨t, .inr ⟨?_, .inl ht⟩⟩
    exact (h.fits t).eq_inWait hq
  by_cases hall : ∀ t, holds (z.cond.pc t) (z.pc t) = false
  · have := h.covered hall hne
    exact .inl (hentry (by omega))
  · push Not at hall
    obtain ⟨t, ht⟩ := hall
    have hcov := h.carrying (by simpa using ht) hne
    by_cases hl : z.cond.mem.signalled.length = 0
    · have hc : carried (z.cond.pc t) (z.pc t) ≠ 0 := by omega
      rcases carried_ne_zero hc with ht | ht
      · exact .inl ⟨t, ht⟩
      · exact .inr ⟨t, ht⟩
    · exact .inl (hentry hl)

end

end SemRun

/-- In runs in which every signal finds an unsignalled entry at the head of the queue if there
is one, `k` signals mark `k` threads that were unsignalled, and nobody waits for a semaphore
with a positive count unless a signal is on its way. -/
theorem signals_reach_waiters {θ μ : Type*} [DecidableEq θ] [DecidableEq μ] {x : CondRun θ μ} {z : SemRun θ}
    (hx : Reach CondRun.Init (CondRun.Step CondMem.Careful) x)
    (hz : Reach SemRun.Init (SemRun.Step CondMem.Careful) z) :
    (∀ y k, Relation.ReflTransGen (CondRun.Step CondMem.Careful) x y → y.signals = x.signals + k →
      k ≤ x.mem.unsignalled.length →
      ∃ l : List θ, l.Nodup ∧ k ≤ l.length ∧ ∀ t ∈ l, t ∈ x.mem.unsignalled ∧ x.marks t < y.marks t) ∧ z.Right := by
  refine ⟨fun y k hxy hk hle => CondRun.marked_of_signals hx hxy hk hle, ?_⟩
  exact (hz.invariant (P := SemRun.Inv) (fun _ => SemRun.Init.inv) fun _ _ h => h.step).right

/-! ## Two runs -/

namespace CondRun

variable {θ μ : Type*} [DecidableEq θ] [DecidableEq μ] [Inhabited μ]

def act (ok : CondMem θ μ → Prop) [DecidablePred ok] (x : CondRun θ μ) : θ × Option (CondAt θ) → Option (CondRun θ μ)
  | (t, none) => if x.pc t = .sigFirst → ok x.mem then x.exec t else none
  | (t, some pos) =>
    if x.pc t = .done ∧ (pos = .wait ∨ pos = .signal ∨ pos = .broadcast) then some (x.call t pos default) else none

theorem act_step {ok : CondMem θ μ → Prop} [DecidablePred ok] (x : CondRun θ μ) (a : θ × Option (CondAt θ))
    (y : CondRun θ μ) (h : x.act ok a = some y) : Step ok x y := by
  obtain ⟨t, pos⟩ := a
  cases pos with
  | none =>
    obtain ⟨hok, he⟩ := Option.ite_none_right_eq_some.mp h
    exact .exec hok he
  | some pos =>
    obtain ⟨⟨hp, hpos⟩, ⟨⟩⟩ := Option.ite_none_right_eq_some.mp h
    exact .call hp hpos

def fresh : CondRun (Fin 3) Unit where
  mem := { cv := condInit, reject := fun _ => 0, sleeping := fun _ => false, mutex := fun _ => MUTEX_VALID }
  pc := fun _ => .done
  mp := fun _ => ()
  signals := 0
  marks := fun _ => 0

theorem fresh_init : fresh.Init := ⟨rfl, fun _ => ⟨rfl, rfl⟩⟩

end CondRun

namespace SemRun

variable {θ : Type*} [DecidableEq θ]

def act (ok : CondMem θ Unit → Prop) [DecidablePred ok] (z : SemRun θ) : θ × Option SemAt → Option (SemRun θ)
  | (t, none) => if z.cond.pc t = .sigFirst → ok z.cond.mem then z.exec t else none
  | (t, some pos) => if z.pc t = .out ∧ (pos = .wait ∨ pos = .signal) then some (z.goto t pos) else none

theorem act_step {ok : CondMem θ Unit → Prop} [DecidablePred ok] (z : SemRun θ) (a : θ × Option SemAt) (y : SemRun θ)
    (h : z.act ok a = some y) : Step ok z y := by
  obtain ⟨t, pos⟩ := a
  cases pos with
  | none =>
    obtain ⟨hok, he⟩ := Option.ite_none_right_eq_some.mp h
    exact .exec hok he
  | some pos =>
    obtain ⟨⟨hp, hpos⟩, ⟨⟩⟩ := Option.ite_none_right_eq_some.mp h
    exact .call hp hpos

def fresh : SemRun (Fin 3) where
  cond := .fresh
  count := 1
  valid := 1
  pc := fun _ => .out

theorem fresh_init : fresh.Init := ⟨CondRun.fresh_init, rfl, by decide, rfl, fun _ => rfl⟩

end SemRun

def twoWait : List (Fin 3 × Option (CondAt (Fin 3))) :=
  (0, some .wait) :: List.replicate 6 (0, none) ++ (1, some .wait) :: List.replicate 6 (1, none)

def signalOnce : List (Fin 3 × Option (CondAt (Fin 3))) := (2, some .signal) :: List.replicate 5 (2, none)

def twoBlocked : List (Fin 3 × Option SemAt) :=
  (2, some .wait) :: List.replicate 4 (2, none) ++ (0, some .wait) :: List.replicate 9 (0, none) ++
    (1, some .wait) :: List.replicate 9 (1, none)

def signalSem : List (Fin 3 × Option SemAt) := (2, some .signal) :: List.replicate 10 (2, none)

instance (z : SemRun (Fin 3)) (t : Fin 3) : Decidable (z.Pending t) :=
  inferInstanceAs (Decidable (z.pc t = .test true ∨
    z.pc t = .inWait ∧ (t ∈ z.cond.mem.signalled ∨ z.cond.pc t = .delUnlock ∨ z.cond.pc t = .done)))

instance (z : SemRun (Fin 3)) (t : Fin 3) : Decidable (z.Signalling t) :=
  inferInstanceAs (Decidable (z.pc t = .inSignal ∧
    (z.cond.pc t = .signal ∨ z.cond.pc t = .sigLock ∨ z.cond.pc t = .sigFirst)))

instance {θ μ : Type*} : DecidablePred fun m : CondMem θ μ => m.Careful :=
  fun m => inferInstanceAs (Decidable (m.unsignalled ≠ [] → ∀ t ∈ m.cv.waiting.head?, m.reject t = DESCHEDULE))

/-- Threads 0 and 1 wait, and one signal marks one of them; thread 1 waits for the semaphore
while the signal for thread 0 is pending. -/
theorem signals_reach_waiters_once : ∃ x y : CondRun (Fin 3) Unit, ∃ z : SemRun (Fin 3),
    x.mem.unsignalled = [0, 1] ∧ y.signals = x.signals + 1 ∧
    (∃ l : List (Fin 3), l.Nodup ∧ 1 ≤ l.length ∧ ∀ t ∈ l, t ∈ x.mem.unsignalled ∧ x.marks t < y.marks t) ∧
    z.Blocked 1 ∧ 0 < z.count ∧ z.Right := by
  have hc₀ : Reach CondRun.Init (CondRun.Step CondMem.Careful) CondRun.fresh := .start CondRun.fresh_init
  have hs₀ : Reach SemRun.Init (SemRun.Step CondMem.Careful) SemRun.fresh := .start SemRun.fresh_init
  obtain ⟨x, hx, hpx⟩ := hc₀.script (l := twoWait) (p := fun x => x.mem.unsignalled = [0, 1] ∧
    ((signalOnce.foldlM (CondRun.act CondMem.Careful) x).any fun y => y.signals = x.signals + 1))
    CondRun.act_step (by decide +kernel)
  simp only [decide_eq_true_eq] at hpx
  have hx₀ : Reach (· = x) (CondRun.Step CondMem.Careful) x := .start rfl
  obtain ⟨y, ⟨_, he, hxy⟩, hy⟩ := hx₀.script CondRun.act_step hpx.2
  rw [he] at hxy
  obtain ⟨z, hz, hpz⟩ := hs₀.script (l := twoBlocked ++ signalSem)
    (p := fun z => (z.pc 1 = .inWait ∧ 1 ∈ z.cond.mem.unsignalled) ∧ 0 < z.count) SemRun.act_step (by decide +kernel)
  obtain ⟨hb, hc⟩ : (z.pc 1 = .inWait ∧ 1 ∈ z.cond.mem.unsignalled) ∧ 0 < z.count := by simpa using hpz
  have hy : y.signals = x.signals + 1 := by simpa using hy
  obtain ⟨hmark, hright⟩ := signals_reach_waiters hx hz
  exact ⟨x, y, z, hpx.1, hy, hmark y 1 hxy hy (by simp [hpx.1]), hb, hc, hright⟩

/-- Two signals that come before thread 0 has removed its entry both mark it, and thread 1 is
left waiting although the count stays positive. -/
theorem second_signal_lost :
    (∃ x y : CondRun (Fin 3) Unit, Reach CondRun.Init (CondRun.Step fun _ => True) x ∧
      Relation.ReflTransGen (CondRun.Step fun _ => True) x y ∧ x.mem.unsignalled = [0, 1] ∧
      y.signals = x.signals + 2 ∧ y.marks 1 = x.marks 1 ∧ y.mem.reject 1 = DESCHEDULE) ∧
    ∃ z : SemRun (Fin 3), Reach SemRun.Init (SemRun.Step fun _ => True) z ∧ z.Blocked 1 ∧ 0 < z.count ∧
      (∀ t, ¬ z.Pending t) ∧ (∀ t, ¬ z.Signalling t) ∧ ¬ z.Right := by
  have hc₀ : Reach CondRun.Init (CondRun.Step fun _ => True) CondRun.fresh := .start CondRun.fresh_init
  have hs₀ : Reach SemRun.Init (SemRun.Step fun _ => True) SemRun.fresh := .start SemRun.fresh_init
  refine ⟨?_, ?_⟩
  · obtain ⟨x, hx, hpx⟩ := hc₀.script (l := twoWait) (p := fun x => x.mem.unsignalled = [0, 1] ∧
      (((signalOnce ++ signalOnce).foldlM (CondRun.act fun _ => True) x).any fun y =>
        y.signals = x.signals + 2 ∧ y.marks 1 = x.marks 1 ∧ y.mem.reject 1 = DESCHEDULE))
      CondRun.act_step (by decide +kernel)
    simp only [decide_eq_true_eq] at hpx
    have hx₀ : Reach (· = x) (CondRun.Step fun _ => True) x := .start rfl
    obtain ⟨y, ⟨_, he, hxy⟩, hy⟩ := hx₀.script CondRun.act_step hpx.2
    rw [he] at hxy
    exact ⟨x, y, hx, hxy, hpx.1, by simpa using hy⟩
  · obtain ⟨z, hz, hpz⟩ := hs₀.script (l := twoBlocked ++ signalSem ++ signalSem ++ List.replicate 7 (0, none))
      (p := fun z => (z.pc 1 = .inWait ∧ 1 ∈ z.cond.mem.unsignalled) ∧ 0 < z.count ∧ (∀ t, ¬ z.Pending t) ∧
        ∀ t, ¬ z.Signalling t) SemRun.act_step (by decide +kernel)
    simp only [decide_eq_true_eq] at hpz
    obtain ⟨hb, hc, hp, hs⟩ := hpz
    refine ⟨z, hz, hb, hc, hp, hs, fun hr => ?_⟩
    rcases hr hc ⟨1, hb⟩ with ⟨t, ht⟩ | ⟨t, ht⟩
    · exact hp t ht
    · exact hs t ht

/-! ## Units of a resource -/

/-- A program that waits before it uses a resource and signals after it; `inside` are the
threads that have lowered the count and not raised it again. -/
structure Permits (θ : Type*) where
  sem : SemRun θ
  inside : Finset θ

def SemAt.asks : SemAt → Bool
  | .wait | .waitLock | .test _ | .inWait => true
  | _ => false

def SemAt.gives : SemAt → Bool
  | .signal | .sigLock | .count => true
  | _ => false

namespace Permits

variable {θ : Type*} [DecidableEq θ]

inductive Step : Permits θ → Permits θ → Prop
  | wait {x t} : x.sem.pc t = .out → t ∉ x.inside → Step x { x with sem := x.sem.goto t .wait }
  | signal {x t} : x.sem.pc t = .out → t ∈ x.inside → Step x { x with sem := x.sem.goto t .signal }
  | exec {x t z} : x.sem.exec t = some z → Step x ⟨z, if z.count < x.sem.count then insert t x.inside
      else if x.sem.count < z.count then x.inside.erase t else x.inside⟩

/-- The units that are out are those of the threads inside. -/
structure Inv (n : Int) (x : Permits θ) : Prop where
  units : x.sem.count + x.inside.card = n
  nonneg : 0 ≤ x.sem.count
  asks : ∀ t, (x.sem.pc t).asks → t ∉ x.inside
  gives : ∀ t, (x.sem.pc t).gives → t ∈ x.inside

variable {x y : Permits θ} {z : SemRun θ} {t : θ} {n : Int}

/-- What an access does to the count: it is lowered by a thread that asks, raised by one
that gives, and else the thread goes on asking or giving, or is done with it. -/
theorem exec_cases {z y : SemRun θ} (h : z.exec t = some y) : ∃ pos, y.pc = update z.pc t pos ∧
    (y.count = z.count ∧ (pos.asks → (z.pc t).asks) ∧ (pos.gives → (z.pc t).gives) ∨
      y.count = z.count - 1 ∧ z.count ≠ 0 ∧ (z.pc t).asks ∧ pos = .waitUnlock ∨
      y.count = z.count + 1 ∧ (z.pc t).gives ∧ pos = .inSignal) := by
  unfold SemRun.exec at h
  -- a step of the condition variable leaves the thread where it is
  have hcond {o : Option (CondRun θ Unit)} (ho : (o.map fun cond => { z with cond := cond }) = some y) :
      y.pc = update z.pc t (z.pc t) ∧ y.count = z.count := by
    obtain ⟨cond, -, rfl⟩ := Option.map_eq_some_iff.mp ho
    exact ⟨(update_eq_self t z.pc).symm, rfl⟩
  cases hp : z.pc t with
  | out => simp [hp] at h
  | wait | signal =>
    simp only [hp, Option.some.injEq] at h
    subst h
    refine ⟨_, rfl, .inl ⟨rfl, ?_, ?_⟩⟩ <;> split <;> decide
  | waitLock | sigLock =>
    simp only [hp] at h
    obtain ⟨v, -, rfl⟩ := Option.map_eq_some_iff.mp h
    exact ⟨_, rfl, .inl ⟨rfl, by decide, by decide⟩⟩
  | test woken =>
    simp only [hp] at h
    split at h
    · cases h
      exact ⟨_, rfl, .inl ⟨rfl, fun _ => rfl, nofun⟩⟩
    · cases h
      exact ⟨_, rfl, .inr (.inl ⟨rfl, ‹_›, rfl, rfl⟩)⟩
  | inWait | inSignal =>
    simp only [hp] at h
    split at h
    · cases h
      exact ⟨_, rfl, .inl ⟨rfl, by decide, by decide⟩⟩
    · obtain ⟨hpc, hcount⟩ := hcond h
      exact ⟨_, hpc, .inl ⟨hcount, by rw [hp]; exact id, by rw [hp]; exact id⟩⟩
  | waitUnlock | sigUnlock =>
    simp only [hp, Option.some.injEq] at h
    subst h
    exact ⟨_, rfl, .inl ⟨rfl, by decide, by decide⟩⟩
  | count =>
    simp only [hp, Option.some.injEq] at h
    subst h
    exact ⟨_, rfl, .inr (.inr ⟨rfl, rfl, rfl⟩)⟩

/-- A thread goes to a place, and is inside afterwards or not. -/
theorem Inv.move (h : Inv n x) {pos : SemAt} {inside : Finset θ} (hpc : z.pc = update x.sem.pc t pos)
    (hcount : z.count + inside.card = n) (hnonneg : 0 ≤ z.count) (hasks : pos.asks → t ∉ inside)
    (hgives : pos.gives → t ∈ inside) (hothers : ∀ u, u ≠ t → (u ∈ inside ↔ u ∈ x.inside)) : Inv n ⟨z, inside⟩ := by
  refine ⟨hcount, hnonneg, fun u hu => ?_, fun u hu => ?_⟩ <;> dsimp only at hu ⊢ <;> rw [hpc] at hu <;>
    by_cases he : u = t
  · rw [he, update_self] at hu
    exact he ▸ hasks hu
  · rw [update_of_ne he] at hu
    exact fun hm => h.asks u hu ((hothers u he).mp hm)
  · rw [he, update_self] at hu
    exact he ▸ hgives hu
  · rw [update_of_ne he] at hu
    exact (hothers u he).mpr (h.gives u hu)

theorem Inv.step (h : Inv n x) (hs : Step x y) : Inv n y := by
  have hunits := h.units
  have hnonneg := h.nonneg
  cases hs with
  | wait hp ht => exact h.move rfl hunits hnonneg (fun _ => ht) nofun fun _ _ => Iff.rfl
  | signal hp ht => exact h.move rfl hunits hnonneg nofun (fun _ => ht) fun _ _ => Iff.rfl
  | @exec t z he =>
    obtain ⟨pos, hpc, ⟨hc, ha, hg⟩ | ⟨hc, hne, ha, rfl⟩ | ⟨hc, hg, rfl⟩⟩ := exec_cases he
    · rw [if_neg (by omega), if_neg (by omega)]
      exact h.move hpc (hc ▸ hunits) (hc ▸ hnonneg) (fun hp => h.asks t (ha hp)) (fun hp => h.gives t (hg hp))
        fun _ _ => Iff.rfl
    · have hout := h.asks t ha
      rw [if_pos (by omega)]
      refine h.move hpc ?_ (by omega) nofun nofun fun u hu => by simp [hu]
      rw [Finset.card_insert_of_notMem hout]
      push_cast
      omega
    · have hin := h.gives t hg
      have hcard := Finset.card_pos.mpr ⟨t, hin⟩
      rw [if_neg (by omega), if_pos (by omega)]
      refine h.move hpc ?_ (by omega) nofun nofun fun u hu => by simp [hu]
      rw [Finset.card_erase_of_mem hin]
      omega

end Permits

end Pebbles.User
