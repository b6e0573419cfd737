import Pebbles.Lib.Runs

/-!
# Mutexes and condition variables of the thread library

The functions of `libthread/mutex.c` and `libthread/cond_var.c`, each cut at every
access to shared memory. `deschedule` returns at once if its flag is set and otherwise
sleeps until `make_runnable`. A queue entry belongs to one call of `cond_wait`, so it is
named by the calling thread; a failed `malloc` ends the program.
-/

namespace Pebbles.User

open Runs Function

def MUTEX_VALID : Int := 1
def MUTEX_INVALID : Int := 0
def COND_VAR_VALID : Int := 1
def COND_VAR_INVALID : Int := 0
def DESCHEDULE : Int := 0
def RUNNABLE : Int := 1

def testAndUnset (value : Int) : Int × Int := (value, 0)

def testAndSet (value : Int) : Int × Int := (value, 1)

/-- One round of the loop of `mutex_lock`; `none` if it goes round again. -/
def mutexLock (value : Int) : Option Int :=
  if (testAndUnset value).1 = 0 then none else some (testAndUnset value).2

def mutexUnlock (value : Int) : Int := (testAndSet value).2

theorem mutexLock_eq_some {value v : Int} : mutexLock value = some v ↔ value ≠ 0 ∧ v = 0 := by
  unfold mutexLock testAndUnset
  split
  · simp_all
  · simp_all [eq_comm]

theorem length_filter_lt {α : Type*} {l : List α} {p q : α → Bool} (h : ∀ a, p a → q a) {a : α} (ha : a ∈ l) (hq : q a)
    (hp : p a = false) : (l.filter p).length < (l.filter q).length := by
  have hsub : (l.filter p).Sublist (l.filter q) := List.monotone_filter_right l h
  refine lt_of_le_of_ne hsub.length_le fun he => ?_
  have hin : a ∈ l.filter q := List.mem_filter.mpr ⟨ha, hq⟩
  rw [← hsub.eq_of_length he, List.mem_filter, hp] at hin
  cases hin.2

structure Cond (θ : Type*) where
  status : Int
  waiting : List θ
  queueMutex : Int

def condInit {θ : Type*} : Cond θ where
  status := COND_VAR_VALID
  waiting := []
  queueMutex := MUTEX_VALID

def condDestroy {θ : Type*} (cv : Cond θ) : Cond θ :=
  { cv with queueMutex := MUTEX_INVALID, status := COND_VAR_INVALID }

/-- `reject` is the field of a thread's entry, `mutex` the mutexes of the program. -/
structure CondMem (θ μ : Type*) where
  cv : Cond θ
  reject : θ → Int
  sleeping : θ → Bool
  mutex : μ → Int

/-- Where a thread is in `cond_wait`, `cond_signal` and `cond_broadcast`. -/
inductive CondAt (θ : Type*) where
  | wait
  | waitLock
  | add
  | addUnlock
  | release
  | deschedule
  | relock
  | delLock
  | del
  | delUnlock
  | signal
  | sigLock
  | sigFirst
  | sigWake (thr : θ)
  | sigUnlock
  | broadcast
  | bcLock
  | bcFirst
  | bcMark (thr : θ)
  | bcWake (thr : θ)
  | bcUnlock
  | done
  deriving DecidableEq

namespace CondMem

variable {θ μ : Type*} [DecidableEq θ]

def deschedule (t : θ) (m : CondMem θ μ) : CondMem θ μ :=
  if m.reject t = 0 then { m with sleeping := update m.sleeping t true } else m

def makeRunnable (t : θ) (m : CondMem θ μ) : CondMem θ μ := { m with sleeping := update m.sleeping t false }

def setReject (t : θ) (v : Int) (m : CondMem θ μ) : CondMem θ μ := { m with reject := update m.reject t v }

def setWaiting (l : List θ) (m : CondMem θ μ) : CondMem θ μ := { m with cv := { m.cv with waiting := l } }

def setQueue (v : Int) (m : CondMem θ μ) : CondMem θ μ := { m with cv := { m.cv with queueMutex := v } }

def setMutex [DecidableEq μ] (mp : μ) (v : Int) (m : CondMem θ μ) :
    CondMem θ μ := { m with mutex := update m.mutex mp v }

def lockQueue (pos : CondAt θ) (m : CondMem θ μ) : Option (CondAt θ × CondMem θ μ) :=
  (mutexLock m.cv.queueMutex).map fun v => (pos, m.setQueue v)

def unlockQueue (m : CondMem θ μ) : CondMem θ μ := m.setQueue (mutexUnlock m.cv.queueMutex)

def next (thr : θ) (m : CondMem θ μ) : Option θ := (m.cv.waiting.dropWhile (· ≠ thr)).tail.head?

def exec [DecidableEq μ] (t : θ) (mp : μ) (m : CondMem θ μ) : CondAt θ → Option (CondAt θ × CondMem θ μ)
  | .wait => if m.cv.status = COND_VAR_INVALID then some (.done, m) else some (.waitLock, m.setReject t DESCHEDULE)
  | .waitLock => m.lockQueue .add
  | .add => some (.addUnlock, m.setWaiting (m.cv.waiting ++ [t]))
  | .addUnlock => some (.release, m.unlockQueue)
  | .release => some (.deschedule, m.setMutex mp (mutexUnlock (m.mutex mp)))
  | .deschedule => some (.relock, m.deschedule t)
  | .relock => (mutexLock (m.mutex mp)).map fun v => (.delLock, m.setMutex mp v)
  | .delLock => m.lockQueue .del
  | .del => some (.delUnlock, m.setWaiting (m.cv.waiting.erase t))
  | .delUnlock => some (.done, m.unlockQueue)
  | .signal => if m.cv.status = COND_VAR_INVALID then some (.done, m) else some (.sigLock, m)
  | .sigLock => m.lockQueue .sigFirst
  | .sigFirst => match m.cv.waiting.head? with
    | none => some (.sigUnlock, m)
    | some thr => some (.sigWake thr, m.setReject thr RUNNABLE)
  | .sigWake thr => some (.sigUnlock, m.makeRunnable thr)
  | .sigUnlock => some (.done, m.unlockQueue)
  | .broadcast => if m.cv.status = COND_VAR_INVALID then some (.done, m) else some (.bcLock, m)
  | .bcLock => m.lockQueue .bcFirst
  | .bcFirst => some ((m.cv.waiting.head?).elim .bcUnlock .bcMark, m)
  | .bcMark thr => some (.bcWake thr, m.setReject thr RUNNABLE)
  | .bcWake thr => some ((m.next thr).elim .bcUnlock .bcMark, m.makeRunnable thr)
  | .bcUnlock => some (.done, m.unlockQueue)
  | .done => none

def marks (m : CondMem θ μ) : CondAt θ → Option θ
  | .sigFirst => m.cv.waiting.head?
  | .bcMark thr => some thr
  | _ => none

def unsignalled (m : CondMem θ μ) : List θ := m.cv.waiting.filter (m.reject · = DESCHEDULE)

def signalled (m : CondMem θ μ) : List θ := m.cv.waiting.filter (m.reject · ≠ DESCHEDULE)

/-- The queue's first entry is unsignalled if any is. -/
def Careful (m : CondMem θ μ) : Prop := m.unsignalled ≠ [] → ∀ t ∈ m.cv.waiting.head?, m.reject t = DESCHEDULE

end CondMem

namespace CondAt

variable {θ : Type*}

def queued : CondAt θ → Bool
  | .addUnlock | .release | .deschedule | .relock | .delLock | .del => true
  | _ => false

def holdsQueue : CondAt θ → Bool
  | .add | .addUnlock | .del | .delUnlock | .sigFirst | .sigWake _ | .sigUnlock | .bcFirst | .bcMark _ | .bcWake _
  | .bcUnlock => true
  | _ => false

def descheduled : CondAt θ → Bool
  | .relock | .delLock | .del => true
  | _ => false

end CondAt

namespace CondMem

variable {θ μ : Type*} [DecidableEq θ] {m m' : CondMem θ μ} {t u : θ} {mp : μ} {pos pos' : CondAt θ}

inductive Effect (m m' : CondMem θ μ) (t : θ) (pos : CondAt θ) : Prop
  | rest : m'.cv.waiting = m.cv.waiting → m'.reject = m.reject → m.marks pos = none → Effect m m' t pos
  | start : pos = .wait → m'.cv.waiting = m.cv.waiting → m'.reject = update m.reject t DESCHEDULE → Effect m m' t pos
  | add : pos = .add → m'.cv.waiting = m.cv.waiting ++ [t] → m'.reject = m.reject → Effect m m' t pos
  | del : pos = .del → m'.cv.waiting = m.cv.waiting.erase t → m'.reject = m.reject → Effect m m' t pos
  | mark (thr : θ) : m.marks pos = some thr → m'.cv.waiting = m.cv.waiting →
    m'.reject = update m.reject thr RUNNABLE → Effect m m' t pos

theorem exec_effect [DecidableEq μ] (h : m.exec t mp pos = some (pos', m')) : Effect m m' t pos := by
  have hlock : ∀ {p : CondAt θ}, m.lockQueue p = some (pos', m') → m' = m.setQueue 0 := by
    intro p hl
    obtain ⟨v, hv, he⟩ := Option.map_eq_some_iff.mp hl
    cases he
    rw [(mutexLock_eq_some.mp hv).2]
  cases pos with
  | wait =>
    simp only [exec] at h
    split at h <;> cases h
    · exact .rest rfl rfl rfl
    · exact .start rfl rfl rfl
  | signal | broadcast =>
    simp only [exec] at h
    split at h <;> cases h <;> exact .rest rfl rfl rfl
  | waitLock | delLock | sigLock | bcLock =>
    rw [hlock h]
    exact .rest rfl rfl rfl
  | add =>
    cases h
    exact .add rfl rfl rfl
  | del =>
    cases h
    exact .del rfl rfl rfl
  | deschedule =>
    cases h
    unfold deschedule
    split <;> exact .rest rfl rfl rfl
  | relock =>
    obtain ⟨v, hv, he⟩ := Option.map_eq_some_iff.mp h
    cases he
    exact .rest rfl rfl rfl
  | sigFirst =>
    simp only [exec] at h
    split at h <;> cases h
    · rename_i hl
      exact .rest rfl rfl hl
    · rename_i thr hl
      exact .mark thr hl rfl rfl
  | bcMark thr =>
    cases h
    exact .mark thr rfl rfl rfl
  | addUnlock | release | delUnlock | sigWake | sigUnlock | bcFirst | bcWake | bcUnlock =>
    cases h
    exact .rest rfl rfl rfl
  | done => cases h

theorem mem_of_next {thr : θ} (h : m.next thr = some u) : u ∈ m.cv.waiting :=
  (List.dropWhile_sublist _).subset (List.mem_of_mem_tail (List.mem_of_mem_head? h))

structure Good (m : CondMem θ μ) (t : θ) (pos : CondAt θ) : Prop where
  queued : t ∈ m.cv.waiting ↔ pos.queued
  held : pos.holdsQueue → m.cv.queueMutex = 0
  sleeping : m.sleeping t → pos = .relock
  woken : pos.descheduled → m.sleeping t = false → m.reject t ≠ DESCHEDULE
  marking : ∀ u, pos = .bcMark u → u ∈ m.cv.waiting
  waking : ∀ u, pos = .sigWake u ∨ pos = .bcWake u → u ∈ m.cv.waiting ∧ m.reject u ≠ DESCHEDULE

omit [DecidableEq θ] in
theorem Good.of_quiet (hpos : ∀ u, pos ≠ .bcMark u ∧ pos ≠ .sigWake u ∧ pos ≠ .bcWake u)
    (hqueued : t ∈ m.cv.waiting ↔ pos.queued) (hheld : pos.holdsQueue → m.cv.queueMutex = 0)
    (hsl : m.sleeping t = false)
    (hwoken : pos.descheduled → m.reject t ≠ DESCHEDULE) : Good m t pos := by
  refine ⟨hqueued, hheld, fun hs => ?_, fun hd _ => hwoken hd, fun u hu => absurd hu (hpos u).1, fun u hu => ?_⟩
  · rw [hsl] at hs
    cases hs
  · exact absurd hu (by simp [hpos])

omit [DecidableEq θ] in
theorem Good.mono (h : Good m u pos) (hmem : u ∈ m'.cv.waiting ↔ u ∈ m.cv.waiting)
    (hsleep : m'.sleeping u → m.sleeping u)
    (hwoken : (m.sleeping u = false → m.reject u ≠ DESCHEDULE) → m'.sleeping u = false → m'.reject u ≠ DESCHEDULE)
    (hqueue : pos.holdsQueue → m'.cv.queueMutex = m.cv.queueMutex ∧ m'.cv.waiting = m.cv.waiting ∧
      ∀ v ∈ m.cv.waiting, m.reject v ≠ DESCHEDULE → m'.reject v ≠ DESCHEDULE) : Good m' u pos := by
  refine ⟨hmem.trans h.queued, fun hp => (hqueue hp).1.trans (h.held hp), fun hs => h.sleeping (hsleep hs),
    fun hp => hwoken (h.woken hp), ?_, ?_⟩
  · rintro v rfl
    rw [(hqueue rfl).2.1]
    exact h.marking v rfl
  · intro v hv
    obtain ⟨hm, hr⟩ := h.waking v hv
    have hq : pos.holdsQueue := by
      rcases hv with rfl | rfl <;> rfl
    rw [(hqueue hq).2.1]
    exact ⟨hm, (hqueue hq).2.2 v hm hr⟩

end CondMem

/-- Threads that call the three functions on one condition variable. `signals` counts
the calls of `cond_signal` that have looked at the queue, `marks` how often an entry of
a thread has been signalled. -/
structure CondRun (θ μ : Type*) where
  mem : CondMem θ μ
  pc : θ → CondAt θ
  mp : θ → μ
  signals : Nat
  marks : θ → Nat

namespace CondRun

variable {θ μ : Type*} [DecidableEq θ]

def call (t : θ) (pos : CondAt θ) (mp : μ) (x : CondRun θ μ) : CondRun θ μ :=
  { x with pc := update x.pc t pos, mp := update x.mp t mp }

def setMutexes (mutex : μ → Int) (x : CondRun θ μ) : CondRun θ μ := { x with mem := { x.mem with mutex := mutex } }

def moved (t : θ) (pos : CondAt θ) (mem : CondMem θ μ) (x : CondRun θ μ) : CondRun θ μ where
  mem := mem
  pc := update x.pc t pos
  mp := x.mp
  signals := if x.pc t = .sigFirst then x.signals + 1 else x.signals
  marks := (x.mem.marks (x.pc t)).elim x.marks fun thr => update x.marks thr (x.marks thr + 1)

def exec [DecidableEq μ] (t : θ) (x : CondRun θ μ) : Option (CondRun θ μ) :=
  if x.mem.sleeping t then none
  else (x.mem.exec t (x.mp t) (x.pc t)).map fun r => x.moved t r.1 r.2

def Init (x : CondRun θ μ) : Prop := x.mem.cv = condInit ∧ ∀ t, x.pc t = .done ∧ x.mem.sleeping t = false

/-- The program does with its mutexes what it likes; a signal looks at the queue only
where `ok` allows it. -/
inductive Step [DecidableEq μ] (ok : CondMem θ μ → Prop) : CondRun θ μ → CondRun θ μ → Prop
  | exec {x y t} : (x.pc t = .sigFirst → ok x.mem) → x.exec t = some y → Step ok x y
  | call {x t pos mp} : x.pc t = .done → pos = .wait ∨ pos = .signal ∨ pos = .broadcast → Step ok x (x.call t pos mp)
  | mutexes {x mutex} : Step ok x (x.setMutexes mutex)

/-! ## The queue -/

structure Inv (x : CondRun θ μ) : Prop where
  status : x.mem.cv.status = COND_VAR_VALID
  nodup : x.mem.cv.waiting.Nodup
  unique : ∀ {t u}, (x.pc t).holdsQueue → (x.pc u).holdsQueue → t = u
  good : ∀ t, x.mem.Good t (x.pc t)

section
variable {x y : CondRun θ μ} {t u : θ} {pos : CondAt θ} {mem : CondMem θ μ}

omit [DecidableEq θ] in
theorem Inv.others (h : Inv x) (ht : (x.pc t).holdsQueue ∨ x.mem.cv.queueMutex ≠ 0) (hu : u ≠ t) :
    (x.pc u).holdsQueue = false := by
  by_contra hq
  rw [Bool.not_eq_false] at hq
  rcases ht with ht | ht
  · exact hu (h.unique hq ht)
  · exact ht ((h.good u).held hq)

theorem Inv.goes (h : Inv x) (hpc : y.pc = update x.pc t pos) (hstatus : y.mem.cv.status = x.mem.cv.status)
    (hnodup : y.mem.cv.waiting.Nodup) (hq : pos.holdsQueue → (x.pc t).holdsQueue ∨ x.mem.cv.queueMutex ≠ 0)
    (hself : y.mem.Good t pos) (hothers : ∀ u, u ≠ t → x.mem.Good u (x.pc u) → y.mem.Good u (x.pc u)) : Inv y := by
  refine ⟨hstatus.trans h.status, hnodup, fun {a b} ha hb => ?_, fun u => ?_⟩
  · rw [hpc] at ha hb
    refine update_alone (P := fun p : CondAt θ => p.holdsQueue = true) h.unique (fun hp u hu hn => ?_) ha hb
    rw [h.others (hq hp) hu] at hn
    cases hn
  · rw [hpc]
    by_cases hu : u = t
    · subst hu
      rwa [update_self]
    · rw [update_of_ne hu]
      exact hothers u hu (h.good u)

theorem Inv.inside (h : Inv x) (ht : (x.pc t).holdsQueue ∨ x.mem.cv.queueMutex ≠ 0)
    (hstatus : mem.cv.status = x.mem.cv.status) (hnodup : mem.cv.waiting.Nodup)
    (hmem : ∀ u, u ≠ t → (u ∈ mem.cv.waiting ↔ u ∈ x.mem.cv.waiting)) (hself : mem.Good t pos)
    (hsleep : ∀ u, mem.sleeping u → x.mem.sleeping u)
    (hwoken : ∀ u, (x.mem.sleeping u = false → x.mem.reject u ≠ DESCHEDULE) → mem.sleeping u = false →
      mem.reject u ≠ DESCHEDULE) : Inv (x.moved t pos mem) := by
  refine h.goes rfl hstatus hnodup (fun _ => ht) hself fun u hu hg => ?_
  refine hg.mono (hmem u hu) (hsleep u) (hwoken u) fun hq => ?_
  rw [h.others ht hu] at hq
  cases hq

theorem Inv.outside (h : Inv x) (hpos : pos.holdsQueue = false) (hcv : mem.cv = x.mem.cv)
    (hsleep : ∀ u, u ≠ t → mem.sleeping u = x.mem.sleeping u)
    (hrej : ∀ u, u ≠ t ∨ u ∈ x.mem.cv.waiting → mem.reject u = x.mem.reject u) (hself : mem.Good t pos) :
    Inv (x.moved t pos mem) := by
  refine h.goes rfl (congrArg Cond.status hcv) (hcv ▸ h.nodup) (fun hq => ?_) hself fun u hu hg => ?_
  · rw [hpos] at hq
    cases hq
  · show mem.Good u (x.pc u)
    refine hg.mono (by rw [hcv]) (fun hs => hsleep u hu ▸ hs) (fun hw hs => ?_) fun _ => ⟨by rw [hcv], by rw [hcv], ?_⟩
    · rw [hrej u (.inl hu)]
      exact hw (hsleep u hu ▸ hs)
    · intro v hv hr
      rwa [hrej v (.inr hv)]

theorem Inv.lockQueue (h : Inv x) (hsl : x.mem.sleeping t = false) {r : CondAt θ × CondMem θ μ}
    (hl : x.mem.lockQueue pos = some r) (hpos : pos = .add ∨ pos = .del ∨ pos = .sigFirst ∨ pos = .bcFirst)
    (hqueued : pos.queued = (x.pc t).queued) (hdesc : pos.descheduled = (x.pc t).descheduled) :
    Inv (x.moved t r.1 r.2) := by
  obtain ⟨v, hv, rfl⟩ := Option.map_eq_some_iff.mp hl
  obtain ⟨hne, rfl⟩ := mutexLock_eq_some.mp hv
  have hg := h.good t
  refine h.inside (.inr hne) rfl h.nodup (fun _ _ => Iff.rfl) ?_ (fun _ => id) fun _ => id
  refine .of_quiet (fun u => ?_) (hg.queued.trans (by rw [hqueued])) (fun _ => rfl) hsl fun hd => hg.woken
    (hdesc ▸ hd) hsl
  rcases hpos with rfl | rfl | rfl | rfl <;> simp

theorem Inv.unlockQueue (h : Inv x) (hsl : x.mem.sleeping t = false) (ht : (x.pc t).holdsQueue)
    (hpos : pos = .release ∨ pos = .done) (hqueued : pos.queued = (x.pc t).queued) :
    Inv (x.moved t pos x.mem.unlockQueue) := by
  refine h.inside (.inl ht) rfl h.nodup (fun _ _ => Iff.rfl) ?_ (fun _ => id) fun _ => id
  have hq : t ∈ x.mem.unlockQueue.cv.waiting ↔ pos.queued := (h.good t).queued.trans (by rw [hqueued])
  rcases hpos with rfl | rfl
  · exact .of_quiet (by simp) hq (by simp [CondAt.holdsQueue]) hsl (by simp [CondAt.descheduled])
  · exact .of_quiet (by simp) hq (by simp [CondAt.holdsQueue]) hsl (by simp [CondAt.descheduled])

theorem Inv.wakes (h : Inv x) (hsl : x.mem.sleeping t = false) (ht : (x.pc t).holdsQueue)
    (hcv : mem.cv = x.mem.cv) (hqueued : pos.queued = (x.pc t).queued) (hdesc : pos.descheduled = false)
    (hsleep : ∀ u, mem.sleeping u → x.mem.sleeping u)
    (hwoken : ∀ u, (x.mem.sleeping u = false → x.mem.reject u ≠ DESCHEDULE) → mem.sleeping u = false →
      mem.reject u ≠ DESCHEDULE)
    (hmark : ∀ u, pos = .bcMark u → u ∈ x.mem.cv.waiting)
    (hwake : ∀ u, pos = .sigWake u ∨ pos = .bcWake u → u ∈ x.mem.cv.waiting ∧ mem.reject u ≠ DESCHEDULE) :
    Inv (x.moved t pos mem) := by
  have hg := h.good t
  refine h.inside (.inl ht) (congrArg Cond.status hcv) (hcv ▸ h.nodup) (fun _ _ => by rw [hcv]) ?_ hsleep hwoken
  refine ⟨?_, fun _ => ?_, fun hs => ?_, fun hd => ?_, hcv ▸ hmark, hcv ▸ hwake⟩
  · rw [hcv, hqueued]
    exact hg.queued
  · rw [hcv]
    exact hg.held ht
  · rw [hsleep t hs] at hsl
    cases hsl
  · rw [hdesc] at hd
    cases hd

theorem Inv.marks {thr : θ} (h : Inv x) (hsl : x.mem.sleeping t = false) (ht : (x.pc t).holdsQueue)
    (hq : (x.pc t).queued = false) (hthr : thr ∈ x.mem.cv.waiting) (hpos : pos = .sigWake thr ∨ pos = .bcWake thr) :
    Inv (x.moved t pos (x.mem.setReject thr RUNNABLE)) := by
  have hrej : (x.mem.setReject thr RUNNABLE).reject thr ≠ DESCHEDULE := by
    simp [CondMem.setReject, RUNNABLE, DESCHEDULE]
  have hwoken : ∀ u, (x.mem.sleeping u = false → x.mem.reject u ≠ DESCHEDULE) → x.mem.sleeping u = false →
      (x.mem.setReject thr RUNNABLE).reject u ≠ DESCHEDULE := by
    intro u hw hs
    by_cases e : u = thr
    · exact e ▸ hrej
    · simpa [CondMem.setReject, e] using hw hs
  rcases hpos with rfl | rfl
  · refine h.wakes hsl ht rfl (by rw [hq]; rfl) rfl (fun _ => id) hwoken (by simp) fun u hu => ?_
    obtain rfl : thr = u := by simpa using hu
    exact ⟨hthr, hrej⟩
  · refine h.wakes hsl ht rfl (by rw [hq]; rfl) rfl (fun _ => id) hwoken (by simp) fun u hu => ?_
    obtain rfl : thr = u := by simpa using hu
    exact ⟨hthr, hrej⟩

theorem Inv.runs {thr : θ} (h : Inv x) (hsl : x.mem.sleeping t = false)
    (hp : x.pc t = .sigWake thr ∨ x.pc t = .bcWake thr)
    (hpos : pos = .sigUnlock ∨ pos = .bcUnlock ∨ ∃ u ∈ x.mem.cv.waiting, pos = .bcMark u) :
    Inv (x.moved t pos (x.mem.makeRunnable thr)) := by
  have hrej := ((h.good t).waking thr hp).2
  have ht : (x.pc t).holdsQueue ∧ (x.pc t).queued = false := by
    rcases hp with hp | hp <;> rw [hp] <;> exact ⟨rfl, rfl⟩
  have hsleep : ∀ u, (x.mem.makeRunnable thr).sleeping u → x.mem.sleeping u := by
    intro u hu
    by_cases e : u = thr
    · simp [CondMem.makeRunnable, e] at hu
    · simpa [CondMem.makeRunnable, e] using hu
  have hwoken : ∀ u, (x.mem.sleeping u = false → x.mem.reject u ≠ DESCHEDULE) →
      (x.mem.makeRunnable thr).sleeping u = false → x.mem.reject u ≠ DESCHEDULE := by
    intro u hw hs
    by_cases e : u = thr
    · exact e ▸ hrej
    · exact hw (by simpa [CondMem.makeRunnable, e] using hs)
  rcases hpos with rfl | rfl | ⟨u, hu, rfl⟩
  · exact h.wakes hsl ht.1 rfl (by rw [ht.2]; rfl) rfl hsleep hwoken (by simp) (by simp)
  · exact h.wakes hsl ht.1 rfl (by rw [ht.2]; rfl) rfl hsleep hwoken (by simp) (by simp)
  · refine h.wakes hsl ht.1 rfl (by rw [ht.2]; rfl) rfl hsleep hwoken (fun v hv => ?_) (by simp)
    obtain rfl : u = v := by simpa using hv
    exact hu

theorem exec_eq_some [DecidableEq μ] (he : x.exec t = some y) : x.mem.sleeping t = false ∧
    ∃ r, x.mem.exec t (x.mp t) (x.pc t) = some r ∧ y = x.moved t r.1 r.2 := by
  unfold CondRun.exec at he
  split at he
  · cases he
  · obtain ⟨r, hr, rfl⟩ := Option.map_eq_some_iff.mp he
    exact ⟨by simp_all, r, hr, rfl⟩

theorem Inv.exec [DecidableEq μ] (h : Inv x) (he : x.exec t = some y) : Inv y := by
  obtain ⟨hsl, r, hr, rfl⟩ := exec_eq_some he
  have hg := h.good t
  cases hp : x.pc t with
  | wait =>
    rw [hp] at hr hg
    have hout : t ∉ x.mem.cv.waiting := by simp [hg.queued, CondAt.queued]
    rw [CondMem.exec, if_neg (by simp [h.status, COND_VAR_VALID, COND_VAR_INVALID])] at hr
    cases hr
    refine h.outside rfl rfl (fun _ _ => rfl) (fun u hu => update_of_ne ?_ ..) ?_
    · rcases hu with hu | hu
      · exact hu
      · exact fun e => hout (e ▸ hu)
    · exact .of_quiet (by simp) hg.queued (by simp [CondAt.holdsQueue]) hsl (by simp [CondAt.descheduled])
  | signal =>
    rw [hp] at hr hg
    rw [CondMem.exec, if_neg (by simp [h.status, COND_VAR_VALID, COND_VAR_INVALID])] at hr
    cases hr
    refine h.outside rfl rfl (fun _ _ => rfl) (fun _ _ => rfl) ?_
    exact .of_quiet (by simp) hg.queued (by simp [CondAt.holdsQueue]) hsl (by simp [CondAt.descheduled])
  | broadcast =>
    rw [hp] at hr hg
    rw [CondMem.exec, if_neg (by simp [h.status, COND_VAR_VALID, COND_VAR_INVALID])] at hr
    cases hr
    refine h.outside rfl rfl (fun _ _ => rfl) (fun _ _ => rfl) ?_
    exact .of_quiet (by simp) hg.queued (by simp [CondAt.holdsQueue]) hsl (by simp [CondAt.descheduled])
  | waitLock =>
    rw [hp] at hr
    exact h.lockQueue hsl hr (by simp) (by simp [hp, CondAt.queued]) (by simp [hp, CondAt.descheduled])
  | delLock =>
    rw [hp] at hr
    exact h.lockQueue hsl hr (by simp) (by simp [hp, CondAt.queued]) (by simp [hp, CondAt.descheduled])
  | sigLock =>
    rw [hp] at hr
    exact h.lockQueue hsl hr (by simp) (by simp [hp, CondAt.queued]) (by simp [hp, CondAt.descheduled])
  | bcLock =>
    rw [hp] at hr
    exact h.lockQueue hsl hr (by simp) (by simp [hp, CondAt.queued]) (by simp [hp, CondAt.descheduled])
  | add =>
    rw [hp] at hr hg
    have hout : t ∉ x.mem.cv.waiting := by simp [hg.queued, CondAt.queued]
    cases hr
    refine h.inside (.inl (by rw [hp]; rfl)) rfl (List.nodup_append_comm.mp (List.nodup_cons.mpr ⟨hout, h.nodup⟩))
      (fun u hu => by simp [CondMem.setWaiting, hu]) ?_ (fun _ => id) fun _ => id
    exact .of_quiet (by simp) (by simp [CondMem.setWaiting, CondAt.queued]) (fun _ => hg.held rfl) hsl
      (by simp [CondAt.descheduled])
  | del =>
    rw [hp] at hr hg
    cases hr
    refine h.inside (.inl (by rw [hp]; rfl)) rfl (h.nodup.erase t)
      (fun u hu => by simp [CondMem.setWaiting, List.mem_erase_of_ne hu]) ?_ (fun _ => id) fun _ => id
    exact .of_quiet (by simp) (by simp [CondMem.setWaiting, CondAt.queued, h.nodup.mem_erase_iff])
      (fun _ => hg.held rfl)
      hsl (by simp [CondAt.descheduled])
  | addUnlock =>
    rw [hp] at hr
    cases hr
    exact h.unlockQueue hsl (by rw [hp]; rfl) (.inl rfl) (by rw [hp]; rfl)
  | delUnlock =>
    rw [hp] at hr
    cases hr
    exact h.unlockQueue hsl (by rw [hp]; rfl) (.inr rfl) (by rw [hp]; rfl)
  | sigUnlock =>
    rw [hp] at hr
    cases hr
    exact h.unlockQueue hsl (by rw [hp]; rfl) (.inr rfl) (by rw [hp]; rfl)
  | bcUnlock =>
    rw [hp] at hr
    cases hr
    exact h.unlockQueue hsl (by rw [hp]; rfl) (.inr rfl) (by rw [hp]; rfl)
  | release =>
    rw [hp] at hr hg
    cases hr
    refine h.outside rfl rfl (fun _ _ => rfl) (fun _ _ => rfl) ?_
    exact .of_quiet (by simp) hg.queued (by simp [CondAt.holdsQueue]) hsl (by simp [CondAt.descheduled])
  | deschedule =>
    rw [hp] at hr hg
    cases hr
    unfold CondMem.deschedule
    split
    · refine h.outside rfl rfl (fun u hu => update_of_ne hu ..) (fun _ _ => rfl) ?_
      exact ⟨hg.queued, by simp [CondAt.holdsQueue], fun _ => rfl, by simp, by simp, by simp⟩
    · rename_i hr
      refine h.outside rfl rfl (fun _ _ => rfl) (fun _ _ => rfl) ?_
      exact ⟨hg.queued, by simp [CondAt.holdsQueue], fun _ => rfl, fun _ _ => hr, by simp, by simp⟩
  | relock =>
    rw [hp] at hr hg
    obtain ⟨v, hv, rfl⟩ := Option.map_eq_some_iff.mp hr
    refine h.outside rfl rfl (fun _ _ => rfl) (fun _ _ => rfl) ?_
    exact .of_quiet (by simp) hg.queued (by simp [CondAt.holdsQueue]) hsl fun _ => hg.woken rfl hsl
  | sigFirst =>
    have ht : (x.pc t).holdsQueue := by rw [hp]; rfl
    rw [hp, CondMem.exec] at hr
    split at hr <;> cases hr
    · exact h.wakes hsl ht rfl (by rw [hp]; rfl) rfl (fun _ => id) (fun _ => id) (by simp) (by simp)
    · rename_i thr hl
      exact h.marks hsl ht (by rw [hp]; rfl) (List.mem_of_mem_head? hl) (.inl rfl)
  | bcFirst =>
    have ht : (x.pc t).holdsQueue := by rw [hp]; rfl
    rw [hp] at hr
    cases hr
    cases hl : x.mem.cv.waiting.head? with
    | none => exact h.wakes hsl ht rfl (by rw [hp]; rfl) rfl (fun _ => id) (fun _ => id) (by simp) (by simp)
    | some thr =>
      refine h.wakes hsl ht rfl (by rw [hp]; rfl) rfl (fun _ => id) (fun _ => id) (fun u hu => ?_) (by simp)
      obtain rfl : thr = u := by simpa using hu
      exact List.mem_of_mem_head? hl
  | bcMark thr =>
    rw [hp] at hr
    cases hr
    exact h.marks hsl (by rw [hp]; rfl) (by rw [hp]; rfl) (hg.marking thr hp) (.inr rfl)
  | sigWake thr =>
    rw [hp] at hr
    cases hr
    exact h.runs hsl (.inl hp) (.inl rfl)
  | bcWake thr =>
    rw [hp] at hr
    cases hr
    cases hl : x.mem.next thr with
    | none => exact h.runs hsl (.inr hp) (.inr (.inl rfl))
    | some u => exact h.runs hsl (.inr hp) (.inr (.inr ⟨u, CondMem.mem_of_next hl, rfl⟩))
  | done =>
    rw [hp] at hr
    cases hr

theorem Inv.call {mp : μ} (h : Inv x) (hp : x.pc t = .done) (hpos : pos = .wait ∨ pos = .signal ∨ pos = .broadcast) :
    Inv (x.call t pos mp) := by
  have hg := h.good t
  rw [hp] at hg
  have hsl : x.mem.sleeping t = false := by
    by_contra hs
    exact absurd (hg.sleeping (by simpa using hs)) (by simp)
  refine h.goes rfl rfl h.nodup (fun hp => ?_) ?_ fun _ _ => id
  · rcases hpos with rfl | rfl | rfl <;> cases hp
  · rcases hpos with rfl | rfl | rfl
    · exact .of_quiet (by simp) hg.queued (by simp [CondAt.holdsQueue]) hsl (by simp [CondAt.descheduled])
    · exact .of_quiet (by simp) hg.queued (by simp [CondAt.holdsQueue]) hsl (by simp [CondAt.descheduled])
    · exact .of_quiet (by simp) hg.queued (by simp [CondAt.holdsQueue]) hsl (by simp [CondAt.descheduled])

omit [DecidableEq θ] in
theorem Inv.setMutexes {mutex : μ → Int} (h : Inv x) : Inv (x.setMutexes mutex) :=
  ⟨h.status, h.nodup, h.unique, fun u => (h.good u).mono Iff.rfl id id fun _ => ⟨rfl, rfl, fun _ _ => id⟩⟩

theorem Inv.step [DecidableEq μ] {ok : CondMem θ μ → Prop} (h : Inv x) (hs : Step ok x y) : Inv y := by
  cases hs with
  | exec _ he => exact h.exec he
  | call hp hpos => exact h.call hp hpos
  | mutexes => exact h.setMutexes

omit [DecidableEq θ] in
theorem Init.inv (h : Init x) : Inv x := by
  have hcv := h.1
  refine ⟨by rw [hcv]; rfl, by simp [hcv, condInit], fun {a b} ha => ?_, fun u => ?_⟩
  · rw [(h.2 a).1] at ha
    cases ha
  · rw [(h.2 u).1]
    exact .of_quiet (by simp) (by simp [hcv, condInit, CondAt.queued]) (by simp [CondAt.holdsQueue]) (h.2 u).2
      (by simp [CondAt.descheduled])

/-! ## Signals and marks -/

structure Since (x y : CondRun θ μ) (old : List θ) (n : Nat) : Prop where
  split : ∃ new, y.mem.cv.waiting = old ++ new
  kept : ∀ t ∈ x.mem.unsignalled, y.marks t = x.marks t → t ∈ old ∧ y.mem.reject t = DESCHEDULE
  unmarked : ∀ t ∈ old, y.mem.reject t = DESCHEDULE → t ∈ x.mem.unsignalled ∧ y.marks t = x.marks t
  mono : ∀ t, x.marks t ≤ y.marks t
  signals : y.signals = x.signals + n
  count : min n x.mem.unsignalled.length ≤ (x.mem.unsignalled.filter fun t => x.marks t < y.marks t).length

omit [DecidableEq θ] in
theorem Since.refl : Since x x x.mem.cv.waiting 0 := by
  refine ⟨⟨[], by simp⟩, fun u hu _ => ?_, fun u hu hr => ⟨?_, rfl⟩, fun _ => le_rfl, rfl, by simp⟩
  · simpa [CondMem.unsignalled] using hu
  · simpa [CondMem.unsignalled] using ⟨hu, hr⟩

omit [DecidableEq θ] in
theorem Since.all_marked {old : List θ} {n : Nat} (h : Since x y old n)
    (hu : ∀ t ∈ x.mem.unsignalled, y.marks t ≠ x.marks t) :
    x.mem.unsignalled.length ≤ (x.mem.unsignalled.filter fun t => x.marks t < y.marks t).length := by
  rw [List.filter_eq_self.mpr]
  intro t ht
  exact decide_eq_true (lt_of_le_of_ne (h.mono t) (hu t ht).symm)

omit [DecidableEq θ] in
theorem Since.quiet {z : CondRun θ μ} {old old' l : List θ} {n n' : Nat} (h : Since x y old n)
    (hw : z.mem.cv.waiting = old' ++ l) (hmarks : z.marks = y.marks) (hsig : z.signals = x.signals + n')
    (hcount : min n' x.mem.unsignalled.length ≤ (x.mem.unsignalled.filter fun t => x.marks t < y.marks t).length)
    (hold : ∀ t ∈ old', t ∈ old ∧ z.mem.reject t = y.mem.reject t)
    (hkeep : ∀ t ∈ old, y.mem.reject t = DESCHEDULE → t ∈ old') : Since x z old' n' := by
  refine ⟨⟨l, hw⟩, fun t ht hm => ?_, fun t ht hr => ?_, by simpa [hmarks] using h.mono, hsig, ?_⟩
  · obtain ⟨hmem, hr⟩ := h.kept t ht (hmarks ▸ hm)
    have ht' := hkeep t hmem hr
    exact ⟨ht', (hold t ht').2.trans hr⟩
  · obtain ⟨hmem, he⟩ := hold t ht
    rw [hmarks]
    exact h.unmarked t hmem (he ▸ hr)
  · rwa [hmarks]

theorem Since.mark {z : CondRun θ μ} {old : List θ} {n n' : Nat} {thr : θ} (h : Since x y old n)
    (hw : z.mem.cv.waiting = y.mem.cv.waiting) (hr : z.mem.reject = update y.mem.reject thr RUNNABLE)
    (hm : z.marks = update y.marks thr (y.marks thr + 1)) (hsig : z.signals = x.signals + n')
    (hcount : min n' x.mem.unsignalled.length ≤ (x.mem.unsignalled.filter fun t => x.marks t < z.marks t).length) :
    Since x z old n' := by
  have hmono : ∀ t, y.marks t ≤ z.marks t := by
    intro t
    by_cases e : t = thr <;> simp [hm, e]
  refine ⟨hw ▸ h.split, fun t ht he => ?_, fun t ht hz => ?_, fun t => (h.mono t).trans (hmono t), hsig, hcount⟩
  · have e : t ≠ thr := by
      rintro rfl
      have := h.mono t
      simp [hm] at he
      omega
    rw [hm, update_of_ne e] at he
    rw [hr, update_of_ne e]
    exact h.kept t ht he
  · have e : t ≠ thr := by
      rintro rfl
      simp [hr, RUNNABLE, DESCHEDULE] at hz
    rw [hr, update_of_ne e] at hz
    rw [hm, update_of_ne e]
    exact h.unmarked t ht hz

theorem Since.signal {z : CondRun θ μ} {old : List θ} {n : Nat} {thr : θ} (h : Since x y old n)
    (hok : y.mem.Careful) (hthr : y.mem.cv.waiting.head? = some thr)
    (hm : z.marks = update y.marks thr (y.marks thr + 1)) :
    min (n + 1) x.mem.unsignalled.length ≤ (x.mem.unsignalled.filter fun t => x.marks t < z.marks t).length := by
  have hmono : ∀ t, y.marks t ≤ z.marks t := by
    intro t
    by_cases e : t = thr <;> simp [hm, e]
  have hlater : ∀ t, decide (x.marks t < y.marks t) → decide (x.marks t < z.marks t) := by
    intro t ht
    exact decide_eq_true ((of_decide_eq_true ht).trans_le (hmono t))
  by_cases hall : ∀ t ∈ x.mem.unsignalled, y.marks t ≠ x.marks t
  · exact (min_le_right _ _).trans ((h.all_marked hall).trans (List.monotone_filter_right _ hlater).length_le)
  · -- an old entry is unsignalled, so the first entry is, and it is an old one
    push Not at hall
    obtain ⟨u, hu, hum⟩ := hall
    obtain ⟨huo, hur⟩ := h.kept u hu hum
    obtain ⟨new, hw⟩ := h.split
    have hne : y.mem.unsignalled ≠ [] := by
      apply List.ne_nil_of_mem (a := u)
      simp [CondMem.unsignalled, hw, huo, hur]
    have hr := hok hne thr hthr
    have hold : thr ∈ old := by
      cases old with
      | nil => simp at huo
      | cons a l =>
        obtain rfl : a = thr := by simpa [hw] using hthr
        simp
    obtain ⟨hmem, hsame⟩ := h.unmarked thr hold hr
    have hlt := length_filter_lt hlater hmem (by simp [hm, hsame]) (by simp [hsame])
    have := h.count
    omega

theorem Since.exec [DecidableEq μ] {z : CondRun θ μ} {old : List θ} {n : Nat} (h : Since x y old n) (hy : Inv y)
    (hok : y.pc t = .sigFirst → y.mem.Careful) (he : y.exec t = some z) : ∃ old' n', Since x z old' n' := by
  obtain ⟨hsl, r, hr, rfl⟩ := exec_eq_some he
  obtain ⟨new, hw⟩ := h.split
  have hg := hy.good t
  cases CondMem.exec_effect hr with
  | rest hw' hr' hm =>
    have hm' : (y.moved t r.1 r.2).marks = y.marks := by simp [moved, hm]
    by_cases hp : y.pc t = .sigFirst
    · -- the queue is empty
      rw [hp] at hm
      have hnil : old = [] ∧ new = [] := by
        rw [← List.append_eq_nil_iff, ← hw]
        exact List.head?_eq_none_iff.mp hm
      refine ⟨old, n + 1, h.quiet (hw'.trans hw) hm' (by simp [moved, hp, h.signals, Nat.add_assoc]) ?_ ?_ fun _ ht _ => ht⟩
      · refine (min_le_right _ _).trans (h.all_marked fun u hu hum => ?_)
        simpa [hnil.1] using (h.kept u hu hum).1
      · exact fun u hu => ⟨hu, congrFun hr' u⟩
    · exact ⟨old, n, h.quiet (hw'.trans hw) hm' (by simp [moved, hp, h.signals]) h.count
        (fun u hu => ⟨hu, congrFun hr' u⟩) fun _ ht _ => ht⟩
  | start hp hw' hr' =>
    rw [hp] at hg
    refine ⟨old, n, h.quiet (hw'.trans hw) (by simp [moved, hp, CondMem.marks]) (by simp [moved, hp, h.signals]) h.count
      (fun u hu => ⟨hu, ?_⟩) fun _ ht _ => ht⟩
    have hne : u ≠ t := by
      rintro rfl
      have := hg.queued.mp (by simp [hw, hu])
      cases this
    exact (congrFun hr' u).trans (update_of_ne hne ..)
  | add hp hw' hr' =>
    refine ⟨old, n, h.quiet (l := new ++ [t]) ?_ (by simp [moved, hp, CondMem.marks]) (by simp [moved, hp, h.signals])
      h.count (fun u hu => ⟨hu, congrFun hr' u⟩) fun _ ht _ => ht⟩
    rw [← List.append_assoc, ← hw]
    exact hw'
  | del hp hw' hr' =>
    rw [hp] at hg
    have hne : ∀ {u}, y.mem.reject u = DESCHEDULE → u ≠ t := by
      rintro u hu rfl
      exact hg.woken rfl hsl hu
    by_cases ht : t ∈ old
    · refine ⟨old.erase t, n, h.quiet (l := new) ?_ (by simp [moved, hp, CondMem.marks])
        (by simp [moved, hp, h.signals])
        h.count (fun u hu => ⟨List.mem_of_mem_erase hu, congrFun hr' u⟩)
        fun u hu hur => (List.mem_erase_of_ne (hne hur)).mpr hu⟩
      rw [← List.erase_append_left _ ht, ← hw]
      exact hw'
    · refine ⟨old, n, h.quiet (l := new.erase t) ?_ (by simp [moved, hp, CondMem.marks])
        (by simp [moved, hp, h.signals])
        h.count (fun u hu => ⟨hu, congrFun hr' u⟩) fun u hu _ => hu⟩
      rw [← List.erase_append_right _ ht, ← hw]
      exact hw'
  | mark thr hm hw' hr' =>
    have hm' : (y.moved t r.1 r.2).marks = update y.marks thr (y.marks thr + 1) := by simp [moved, hm]
    by_cases hp : y.pc t = .sigFirst
    · rw [hp] at hm
      exact ⟨old, n + 1, h.mark hw' hr' hm' (by simp [moved, hp, h.signals, Nat.add_assoc]) (h.signal (hok hp) hm hm')⟩
    · refine ⟨old, n, h.mark hw' hr' hm' (by simp [moved, hp, h.signals]) (h.count.trans ?_)⟩
      apply List.Sublist.length_le
      apply List.monotone_filter_right
      intro u hu
      have hle : y.marks u ≤ (y.moved t r.1 r.2).marks u := by
        by_cases e : u = thr <;> simp [hm', e]
      exact decide_eq_true ((of_decide_eq_true hu).trans_le hle)

theorem Since.run [DecidableEq μ] (hx : Inv x) (h : Relation.ReflTransGen (Step CondMem.Careful) x y) :
    Inv y ∧ ∃ old n, Since x y old n := by
  induction h with
  | refl => exact ⟨hx, _, _, .refl⟩
  | tail _ hs ih =>
    obtain ⟨hy, old, n, hsince⟩ := ih
    refine ⟨hy.step hs, ?_⟩
    cases hs with
    | exec hok he => exact hsince.exec hy hok he
    | call | mutexes => exact ⟨old, n, hsince.split, hsince.kept, hsince.unmarked, hsince.mono, hsince.signals,
        hsince.count⟩

theorem marked_of_signals [DecidableEq μ] {k : Nat} (hx : Reach Init (Step CondMem.Careful) x)
    (hxy : Relation.ReflTransGen (Step CondMem.Careful) x y) (hk : y.signals = x.signals + k)
    (hle : k ≤ x.mem.unsignalled.length) :
    ∃ l : List θ, l.Nodup ∧ k ≤ l.length ∧ ∀ t ∈ l, t ∈ x.mem.unsignalled ∧ x.marks t < y.marks t := by
  have hi : Inv x := hx.invariant (P := Inv) (fun _ => Init.inv) fun _ _ h => h.step
  obtain ⟨-, old, n, h⟩ := Since.run hi hxy
  obtain rfl : n = k := by
    have := h.signals
    omega
  have hcount := h.count
  rw [min_eq_left hle] at hcount
  refine ⟨_, (hi.nodup.filter _).filter _, hcount, fun t ht => ?_⟩
  obtain ⟨hmem, hlt⟩ := List.mem_filter.mp ht
  exact ⟨hmem, of_decide_eq_true hlt⟩

end

end CondRun

end Pebbles.User
