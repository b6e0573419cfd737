import Pebbles.Deschedule

/-!
# No wakeup of a descheduled thread is lost

The target tests `reject` and goes to sleep under its `deschedule_mutex`, and
`make_runnable` tests its status under the same mutex. So a caller finds the
target asleep, or its `reject` is seen.
-/

namespace Pebbles

open Words Queues Runs

namespace Sched

def Descheduled (t : Word) (s : Sched) : Prop :=
  s.status t = .descheduled ∧ ∀ h, (∀ cv, h ≠ .cond cv) → t ∉ s.list h

structure Steady (t : Word) (s s' : Sched) : Prop where
  moves : s.Moves s'
  awake : s.status t ≠ .descheduled → s'.status t ≠ .descheduled
  asleep : s.Descheduled t → s'.Descheduled t ∧ (s'.currThread = some t → s.currThread = some t)

section
variable {s s' : Sched} {S : Finset Word} {t thr w : Word}

theorem requeue_status_of_ne (h : s.status t ≠ .running) : s.requeue.status t = s.status t := by
  unfold requeue
  split
  · rfl
  · rename_i c hc
    split
    · rename_i hr
      have hne : t ≠ c := fun e => h (e ▸ hr.1)
      simp [setStatus, runqAddThread, addToTail, setList, hne]
    · rfl

theorem requeue_status_ne (h : s.status t ≠ .descheduled) : s.requeue.status t ≠ .descheduled := by
  by_cases hr : s.status t = .running
  · unfold requeue
    split
    · exact h
    · rename_i c hc
      split
      · by_cases hne : t = c
        · simp [setStatus, runqAddThread, addToTail, setList, hne]
        · simpa [setStatus, runqAddThread, addToTail, setList, hne] using h
      · exact h
  · rwa [requeue_status_of_ne hr]

theorem switchToThread_status_ne (h : s.status t ≠ .descheduled) : (s.switchToThread thr).status t ≠ .descheduled := by
  by_cases hne : t = thr
  · simp [switchToThread, setStatus, hne]
  · simpa [switchToThread, setStatus, hne] using h

theorem contextSwitch_status_ne (h : s.status t ≠ .descheduled) : s.contextSwitch.status t ≠ .descheduled := by
  unfold contextSwitch
  rcases nextThread_cases s with ⟨hn, -, -⟩ | ⟨thr, rest, -, hn⟩ | ⟨thr, rest, -, hn⟩ <;> rw [hn] <;> dsimp only
  · split
    · exact h
    · exact switchToThread_status_ne (requeue_status_ne h)
  · exact switchToThread_status_ne (requeue_status_ne h)
  · exact switchToThread_status_ne (requeue_status_ne h)

theorem Descheduled.resume (h : s.Descheduled t) (hne : t ≠ thr) :
    (s.requeue.switchToThread thr).Descheduled t ∧ (s.requeue.switchToThread thr).currThread ≠ some t := by
  have hrun : s.status t ≠ .running := by simp [h.1]
  refine ⟨⟨?_, fun hd hh hm => ?_⟩, fun hc => hne (Option.some.inj hc).symm⟩
  · simpa [switchToThread, setStatus, hne, requeue_status_of_ne hrun] using h.1
  · exact (mem_requeue hm).elim (h.2 hd hh) fun hc => hrun hc.2

theorem Descheduled.contextSwitch (h : s.Descheduled t) (hi : t ≠ s.idle) :
    s.contextSwitch.Descheduled t ∧ s.contextSwitch.currThread ≠ some t := by
  unfold Sched.contextSwitch
  rcases nextThread_cases s with ⟨hn, -, -⟩ | ⟨thr, rest, hl, hn⟩ | ⟨thr, rest, hl, hn⟩ <;> rw [hn] <;> dsimp only
  · split
    · rename_i hs
      refine ⟨h, fun hc => ?_⟩
      have : t = s.idle ∨ s.status t = .running := by simpa [staysOn, hc] using hs
      exact this.elim hi (by simp [h.1])
    · exact h.resume hi
  all_goals
    have hm : thr ∈ s.list _ := hl ▸ List.mem_cons_self
    have hne : t ≠ thr := fun e => h.2 _ (by simp) (e ▸ hm)
    refine Descheduled.resume ⟨h.1, fun hd hh hm => h.2 hd hh ?_⟩ hne
    exact mem_of_mem_setList (fun v hv => hl ▸ List.mem_cons_of_mem _ hv) hm

theorem steady_contextSwitch (hm : s.Moves s'.contextSwitch) (hi : t ≠ s'.idle)
    (hawake : s.status t ≠ .descheduled → s'.status t ≠ .descheduled) (hasleep : s.Descheduled t → s'.Descheduled t) :
    s.Steady t s'.contextSwitch :=
  ⟨hm, fun h => contextSwitch_status_ne (hawake h), fun h =>
    ⟨((hasleep h).contextSwitch hi).1, fun hc => absurd hc ((hasleep h).contextSwitch hi).2⟩⟩

theorem Spread.steady_block (hS : s.Spread S) (ho : s.Off S) {mp : Word} (hc : s.currThread = some thr) (hi : thr ≠ s.idle)
    (ht : t ≠ s.idle) (hne : s.status t = .descheduled → t ≠ thr) :
    s.Steady t (s.block (.mutex mp) .waiting thr).contextSwitch := by
  refine steady_contextSwitch (hS.moves_block ho hc hi) ht (fun h => ?_) fun h => ⟨?_, fun hd hh hm => ?_⟩
  · by_cases htt : t = thr
    · simp [block, setStatus, htt]
    · simpa [block, setStatus, addToTail, setList, htt] using h
  · simpa [block, setStatus, addToTail, setList, hne h.1] using h.1
  · by_cases he : hd = .mutex mp
    · subst he
      have : t ∈ s.list (.mutex mp) ∨ t = thr := by simpa [block, addToTail, setStatus, setList] using hm
      exact this.elim (h.2 _ hh) (hne h.1)
    · exact h.2 hd hh (by simpa [block, addToTail, setStatus, setList, he] using hm)

theorem wakeFirst_status_ne {h : Head} (ht : s.status t ≠ .descheduled) : (s.wakeFirst h).status t ≠ .descheduled := by
  unfold Sched.wakeFirst
  split
  · exact ht
  · rename_i w _ _
    by_cases hne : t = w
    · simp [Sched.wake, setStatus, runqAddThread, addToTail, delEntry, setList, hne]
    · simpa [Sched.wake, setStatus, runqAddThread, addToTail, delEntry, setList, hne] using ht

theorem Descheduled.wakeFirst (h : s.Descheduled t) {hd : Head} (hh : ∀ cv, hd ≠ .cond cv) : (s.wakeFirst hd).Descheduled t := by
  unfold Sched.wakeFirst
  split
  · exact h
  · rename_i w ws hl
    have hne : t ≠ w := fun e => h.2 hd hh (by simp [hl, e])
    refine ⟨by simpa [Sched.wake, setStatus, runqAddThread, addToTail, delEntry, setList, hne] using h.1, fun hd' hh' hm => ?_⟩
    have hout : ({ s with currThread := none } : Sched).SwitchedOut t := ⟨by simp, h.2⟩
    have := (hout.wakeFirst hh).2 hd' hh'
    simp only [Sched.wakeFirst, hl] at this
    exact this hm

theorem Spread.steady_mutexUnlock (hS : s.Spread S) (ho : s.Off S) {mp : Word} : s.Steady t (s.mutexUnlock mp) where
  moves := hS.moves_mutexUnlock ho rfl rfl rfl rfl
  awake := wakeFirst_status_ne
  asleep h := ⟨h.wakeFirst (by simp), fun hc => wakeFirst_curr ▸ hc⟩

theorem Spread.steady_tick (hS : s.Spread S) (ho : s.Off S) (ht : t ≠ s.idle) {ticks : Word} :
    s.Steady t { s with ticks := ticks }.contextSwitch :=
  steady_contextSwitch (hS.moves_tick ho ticks) ht id id

theorem Spread.steady_refl (hS : s.Spread S) (ho : s.Off S) : s.Steady t s :=
  ⟨⟨⟨S, hS, ho⟩, rfl, subset_rfl, rfl, fun _ _ _ h => h⟩, id, fun h => ⟨h, id⟩⟩

end

end Sched

namespace DescAt

def holds : DescAt → Bool
  | .out | .lock | .switch | .relock | .armed | .mkLock => false
  | _ => true

def ofTarget : DescAt → Bool
  | .lock | .test | .lockQueue | .link | .unlockQueue | .release | .switch | .relock | .unlock => true
  | _ => false

def ofCaller : DescAt → Bool
  | .armed | .mkLock | .mkTest | .mkFail | .sigLockQueue | .sigFirst | .sigWake _ | .sigAdd _ | .sigUnlink _
  | .sigUnlockQueue | .mkUnlock => true
  | _ => false

def commits : DescAt → Bool
  | .lockQueue | .link | .unlockQueue | .release => true
  | _ => false

def willTest : DescAt → Bool
  | .lock | .test => true
  | _ => false

def isLinked : DescAt → Bool
  | .unlockQueue | .release => true
  | _ => false

def sleeps : DescAt → Bool
  | .switch | .relock => true
  | _ => false

def unlinking : DescAt → Bool
  | .sigAdd _ | .sigUnlink _ => true
  | _ => false

end DescAt

namespace DescRun

variable {T : Target} {x y : DescRun} {thr : Word} {pos : DescAt}

def queue (T : Target) (x : DescRun) : List Word := x.sched.list (.cond T.cv)

structure Asleep (T : Target) (x : DescRun) : Prop where
  off : x.sched.Descheduled T.thr
  queue : x.queue T = [T.thr]
  curr : x.sched.currThread = some T.thr → x.pc T.thr = .switch

def Awake (T : Target) (x : DescRun) : Prop := x.sched.status T.thr ≠ .descheduled

structure TargetOk (T : Target) (x : DescRun) : Prop where
  linked : (x.pc T.thr).isLinked → x.Awake T ∧ x.queue T = [T.thr]
  sleeps : (x.pc T.thr).sleeps → x.Asleep T ∨ x.Awake T ∧ (x.queue T = [] ∨ ∃ m, (x.pc m).unlinking)
  other : (x.pc T.thr).isLinked = false → (x.pc T.thr).sleeps = false → x.Awake T ∧ x.queue T = []

def CallerOk (T : Target) (x : DescRun) (m : Word) : DescAt → Prop
  | .mkLock | .mkTest => x.adds m = 0 ∧ x.unlinks m = 0
  | .mkFail => x.Awake T
  | .sigLockQueue | .sigFirst => ¬ x.Awake T ∧ x.adds m = 0 ∧ x.unlinks m = 0
  | .sigWake w => w = T.thr ∧ ¬ x.Awake T ∧ x.adds m = 0 ∧ x.unlinks m = 0
  | .sigAdd w => w = T.thr ∧ x.Awake T ∧ x.queue T = [T.thr] ∧ x.sched.SwitchedOut T.thr ∧ (x.pc T.thr).sleeps ∧
    x.adds m = 0 ∧ x.unlinks m = 0
  | .sigUnlink w => w = T.thr ∧ x.Awake T ∧ x.queue T = [T.thr] ∧ (x.pc T.thr).sleeps ∧ x.adds m = 1 ∧ x.unlinks m = 0
  | .sigUnlockQueue | .mkUnlock => x.Awake T ∧ x.adds m = 1 ∧ x.unlinks m = 1
  | _ => True

structure Inv (T : Target) (x : DescRun) : Prop where
  queues : ∃ S, x.sched.Spread S ∧ x.sched.Off S
  live : T.thr ∈ x.sched.live
  ne_idle : T.thr ≠ x.sched.idle
  ofTarget : ∀ {a}, (x.pc a).ofTarget → a = T.thr
  ofCaller : ∀ {a}, (x.pc a).ofCaller → a ≠ T.thr ∧ a ≠ x.sched.idle
  excl : ∀ {a b}, (x.pc a).holds → (x.pc b).holds → a = b
  free : x.value T.mutex ≠ 0 → ∀ a, (x.pc a).holds = false
  target : TargetOk T x
  callers : ∀ m, CallerOk T x m (x.pc m)
  still : ∀ m, x.stillSet m → x.reject ≠ 0
  served : x.served → x.Awake T ∧ (x.pc T.thr).commits = false ∧ ((x.pc T.thr).willTest → x.reject ≠ 0)

theorem holds_of_isLinked (h : pos.isLinked) : pos.holds := by cases pos <;> simp_all [DescAt.isLinked, DescAt.holds]

theorem holds_of_unlinking (h : pos.unlinking) : pos.holds := by cases pos <;> simp_all [DescAt.unlinking, DescAt.holds]

theorem Inv.asleep (h : Inv T x) (hn : ¬ x.Awake T) : x.Asleep T ∧ (x.pc T.thr).sleeps := by
  by_cases hs : (x.pc T.thr).sleeps
  · exact ⟨(h.target.sleeps hs).resolve_right fun ha => hn ha.1, hs⟩
  · by_cases hl : (x.pc T.thr).isLinked
    · exact absurd (h.target.linked hl).1 hn
    · exact absurd (h.target.other (by simpa using hl) (by simpa using hs)).1 hn

theorem queue_of_moves (hm : x.sched.Moves y.sched) : y.queue T = x.queue T := congrFun hm.conds T.cv

theorem CallerOk.steady (h : Inv T x) (hs : x.sched.Steady T.thr y.sched) {m : Word} (hm : CallerOk T x m pos)
    (hadds : y.adds m = x.adds m) (hun : y.unlinks m = x.unlinks m)
    (hsleeps : (y.pc T.thr).sleeps = (x.pc T.thr).sleeps) : CallerOk T y m pos := by
  have hasleep : ¬ x.Awake T → ¬ y.Awake T := fun hn hy => hy (hs.asleep (h.asleep hn).1.off).1.1
  have hawake : x.Awake T → y.Awake T := hs.awake
  have hq : y.queue T = x.queue T := queue_of_moves hs.moves
  have hout := hs.moves.out T.thr h.live h.ne_idle
  cases pos with
  | mkLock => exact ⟨hadds.trans hm.1, hun.trans hm.2⟩
  | mkTest => exact ⟨hadds.trans hm.1, hun.trans hm.2⟩
  | mkFail => exact hawake hm
  | sigLockQueue => exact ⟨hasleep hm.1, hadds.trans hm.2.1, hun.trans hm.2.2⟩
  | sigFirst => exact ⟨hasleep hm.1, hadds.trans hm.2.1, hun.trans hm.2.2⟩
  | sigWake w => exact ⟨hm.1, hasleep hm.2.1, hadds.trans hm.2.2.1, hun.trans hm.2.2.2⟩
  | sigAdd w =>
    obtain ⟨hw, ha, hl, ho, hsl, had, hu⟩ := hm
    exact ⟨hw, hawake ha, hq.trans hl, hout ho, hsleeps ▸ hsl, hadds.trans had, hun.trans hu⟩
  | sigUnlink w =>
    obtain ⟨hw, ha, hl, hsl, had, hu⟩ := hm
    exact ⟨hw, hawake ha, hq.trans hl, hsleeps ▸ hsl, hadds.trans had, hun.trans hu⟩
  | sigUnlockQueue => exact ⟨hawake hm.1, hadds.trans hm.2.1, hun.trans hm.2.2⟩
  | mkUnlock => exact ⟨hawake hm.1, hadds.trans hm.2.1, hun.trans hm.2.2⟩
  | _ => trivial

theorem CallerOk.free {m : Word} (hm : CallerOk T x m pos) (hf : pos.holds = false) (hadds : y.adds m = x.adds m)
    (hun : y.unlinks m = x.unlinks m) : CallerOk T y m pos := by
  cases pos with
  | mkLock => exact ⟨hadds.trans hm.1, hun.trans hm.2⟩
  | out | lock | switch | relock | armed => trivial
  | _ => cases hf

theorem TargetOk.steady (h : Inv T x) (hs : x.sched.Steady T.thr y.sched)
    (hclass : (y.pc T.thr).isLinked = (x.pc T.thr).isLinked ∧ (y.pc T.thr).sleeps = (x.pc T.thr).sleeps)
    (hcurr : x.Asleep T → y.sched.currThread = some T.thr → y.pc T.thr = .switch)
    (hun : ∀ m, (x.pc m).unlinking → y.pc m = x.pc m) : TargetOk T y := by
  have hq : y.queue T = x.queue T := queue_of_moves hs.moves
  refine ⟨fun hl => ?_, fun hsl => ?_, fun hl hsl => ?_⟩
  · rw [hq]
    exact (h.target.linked (hclass.1 ▸ hl)).imp_left hs.awake
  · rcases h.target.sleeps (hclass.2 ▸ hsl) with ha | ⟨ha, hl⟩
    · exact .inl ⟨(hs.asleep ha.off).1, hq.trans ha.queue, hcurr ha⟩
    · refine .inr ⟨hs.awake ha, hl.imp (fun he => hq.trans he) fun ⟨m, hm⟩ => ⟨m, ?_⟩⟩
      rwa [hun m hm]
  · rw [hq]
    exact (h.target.other (hclass.1 ▸ hl) (hclass.2 ▸ hsl)).imp_left hs.awake

theorem Inv.background (h : Inv T x) (hs : x.sched.Steady T.thr y.sched) (hlive : T.thr ∈ y.sched.live)
    (hpc : ∀ a, y.pc a = x.pc a ∨ (x.pc a).holds = false ∧ (y.pc a).holds = false ∧
      ((y.pc a).ofTarget → a = T.thr) ∧ ((y.pc a).ofCaller → a ≠ T.thr ∧ a ≠ x.sched.idle) ∧ CallerOk T y a (y.pc a))
    (hclass : (y.pc T.thr).sleeps = (x.pc T.thr).sleeps)
    (hcurr : x.Asleep T → y.sched.currThread = some T.thr → y.pc T.thr = .switch)
    (hcount : ∀ a, y.pc a = x.pc a → y.adds a = x.adds a ∧ y.unlinks a = x.unlinks a)
    (hval : y.value T.mutex ≠ 0 → x.value T.mutex ≠ 0) (hstill : ∀ m, y.stillSet m → y.reject ≠ 0)
    (hserved : y.served → y.Awake T ∧ (y.pc T.thr).commits = false ∧ ((y.pc T.thr).willTest → y.reject ≠ 0)) :
    Inv T y := by
  have hidle := hs.moves.idle
  have hholds : ∀ a, (y.pc a).holds = (x.pc a).holds := fun a => by
    rcases hpc a with he | ⟨hx, hy, -⟩
    · rw [he]
    · rw [hx, hy]
  have hlinked : (y.pc T.thr).isLinked = (x.pc T.thr).isLinked := by
    rcases hpc T.thr with he | ⟨hx, hy, -⟩
    · rw [he]
    · cases hy' : (y.pc T.thr).isLinked with
      | true => simp [holds_of_isLinked hy'] at hy
      | false =>
        cases hx' : (x.pc T.thr).isLinked with
        | true => simp [holds_of_isLinked hx'] at hx
        | false => rfl
  refine ⟨hs.moves.queues, hlive, hidle ▸ h.ne_idle, fun {a} ha => ?_, fun {a} ha => ?_, fun {a b} ha hb => ?_,
    fun hv a => ?_, ?_, fun m => ?_, hstill, hserved⟩
  · rcases hpc a with he | ⟨-, -, ht, -⟩
    · exact h.ofTarget (he ▸ ha)
    · exact ht ha
  · rw [hidle]
    rcases hpc a with he | ⟨-, -, -, hc, -⟩
    · exact h.ofCaller (he ▸ ha)
    · exact hc ha
  · rw [hholds] at ha hb
    exact h.excl ha hb
  · rw [hholds]
    exact h.free (hval hv) a
  · refine TargetOk.steady h hs ⟨hlinked, hclass⟩ hcurr fun m hm => ?_
    rcases hpc m with he | ⟨hx, -⟩
    · exact he
    · simp [holds_of_unlinking hm] at hx
  · rcases hpc m with he | ⟨-, -, -, -, hc⟩
    · exact he ▸ CallerOk.steady h hs (h.callers m) (hcount m he).1 (hcount m he).2 hclass
    · exact hc

theorem Inv.acting (h : Inv T x) (hfree : ∀ a, a ≠ thr → (x.pc a).holds = false) (hpc : y.pc = Function.update x.pc thr pos)
    (hq : ∃ S, y.sched.Spread S ∧ y.sched.Off S) (hlive : x.sched.live ⊆ y.sched.live) (hidle : y.sched.idle = x.sched.idle)
    (hrole : (pos.ofTarget → thr = T.thr) ∧ (pos.ofCaller → (x.pc thr).ofCaller))
    (hval : pos.holds → y.value T.mutex = 0) (hcount : ∀ m, m ≠ thr → y.adds m = x.adds m ∧ y.unlinks m = x.unlinks m)
    (htarget : TargetOk T y) (hcaller : CallerOk T y thr pos) (hstill : ∀ m, y.stillSet m → y.reject ≠ 0)
    (hserved : y.served → y.Awake T ∧ (y.pc T.thr).commits = false ∧ ((y.pc T.thr).willTest → y.reject ≠ 0)) :
    Inv T y := by
  have hother : ∀ {a}, a ≠ thr → y.pc a = x.pc a := fun ha => by simp [hpc, ha]
  have hself : y.pc thr = pos := by simp [hpc]
  have hheld : ∀ {a}, (y.pc a).holds → a = thr := fun {a} ha => by
    by_contra hne
    rw [hother hne, hfree a hne] at ha
    cases ha
  refine ⟨hq, hlive h.live, hidle ▸ h.ne_idle, fun {a} ha => ?_, fun {a} ha => ?_,
    fun ha hb => (hheld ha).trans (hheld hb).symm, fun hv a => ?_, htarget, fun m => ?_, hstill, hserved⟩
  · by_cases hne : a = thr
    · subst hne
      rw [hself] at ha
      exact hrole.1 ha
    · exact h.ofTarget (hother hne ▸ ha)
  · rw [hidle]
    by_cases hne : a = thr
    · subst hne
      rw [hself] at ha
      exact h.ofCaller (hrole.2 ha)
    · exact h.ofCaller (hother hne ▸ ha)
  · by_contra hh
    have ha : (y.pc a).holds := by simpa using hh
    have := hheld ha
    subst this
    exact hv (hval (hself ▸ ha))
  · by_cases hne : m = thr
    · subst hne
      exact hself ▸ hcaller
    · exact hother hne ▸ (h.callers m).free (hfree m hne) (hcount m hne).1 (hcount m hne).2

theorem Inv.others_free (h : Inv T x) (hthr : (x.pc thr).holds) (a : Word) (ha : a ≠ thr) : (x.pc a).holds = false := by
  by_contra hh
  exact ha (h.excl (by simpa using hh) hthr)

theorem Inv.value_of_holds (h : Inv T x) (hthr : (x.pc thr).holds) : x.value T.mutex = 0 := by
  by_contra hv
  simp [h.free hv thr] at hthr

theorem Inv.curr_ne_idle (h : Inv T x) (hp : (x.pc thr).ofTarget ∨ (x.pc thr).ofCaller) : thr ≠ x.sched.idle := by
  rcases hp with hp | hp
  · exact h.ofTarget hp ▸ h.ne_idle
  · exact (h.ofCaller hp).2

theorem curr_switch (hs : x.sched.Steady T.thr y.sched) (hpc : y.pc T.thr = x.pc T.thr)
    (ha : x.Asleep T) (hc : y.sched.currThread = some T.thr) : y.pc T.thr = .switch :=
  hpc.trans (ha.curr ((hs.asleep ha.off).2 hc))

theorem Inv.served_steady (h : Inv T x) (hs : x.sched.Steady T.thr y.sched) (hpc : y.pc T.thr = x.pc T.thr)
    (hr : y.reject = x.reject) (hsv : x.served) :
    y.Awake T ∧ (y.pc T.thr).commits = false ∧ ((y.pc T.thr).willTest → y.reject ≠ 0) := by
  rw [hpc, hr]
  exact (h.served hsv).imp_left hs.awake

/-! ## Sections -/

theorem Inv.moved (h : Inv T x) {s' : Sched} (hs : x.sched.Steady T.thr s') : Inv T { x with sched := s' } := by
  refine h.background hs (hs.moves.live h.live) (fun a => .inl rfl) rfl (fun ha hc => ?_) (fun _ _ => ⟨rfl, rfl⟩) id h.still
    fun hsv => ?_
  · exact curr_switch (y := { x with sched := s' }) hs rfl ha hc
  · exact h.served_steady (y := { x with sched := s' }) hs rfl rfl hsv

theorem Inv.blocked (h : Inv T x) {mp : Word} (hc : x.sched.currThread = some thr)
    (hp : (x.pc thr).ofTarget ∨ (x.pc thr).ofCaller) (hsw : x.pc thr ≠ .switch) :
    Inv T { x with sched := (x.sched.block (.mutex mp) .waiting thr).contextSwitch } := by
  obtain ⟨S, hS, ho⟩ := h.queues
  refine h.moved (hS.steady_block ho hc (h.curr_ne_idle hp) h.ne_idle fun hd e => ?_)
  have ha := (h.asleep fun hn => hn hd).1
  subst e
  exact hsw (ha.curr hc)

theorem Inv.mutexLock (h : Inv T x) {mp : Word} (hc : x.sched.currThread = some thr)
    (hp : (x.pc thr).ofTarget ∨ (x.pc thr).ofCaller) (hsw : x.pc thr ≠ .switch)
    (hgo : x.value mp ≠ 0 → Inv T { x with value := Function.update x.value mp 0, pc := Function.update x.pc thr pos }) :
    Inv T (x.mutexLock mp thr pos) := by
  unfold DescRun.mutexLock
  split
  · exact h.blocked hc hp hsw
  · rename_i hv
    exact hgo hv

theorem TargetOk.of_caller (h : Inv T x) (hs : x.sched.Steady T.thr y.sched) (hne : thr ≠ T.thr)
    (hpc : y.pc = Function.update x.pc thr pos) (hun : (x.pc thr).unlinking = false) : TargetOk T y := by
  have ht : y.pc T.thr = x.pc T.thr := by simp [hpc, hne.symm]
  refine TargetOk.steady h hs ⟨by rw [ht], by rw [ht]⟩ (curr_switch hs ht) fun m hm => ?_
  have : m ≠ thr := fun e => by rw [e, hun] at hm; cases hm
  simp [hpc, this]

theorem Inv.target_goes (h : Inv T x) (hfree : ∀ a, a ≠ T.thr → (x.pc a).holds = false)
    (hs : x.sched.Steady T.thr y.sched) (hpc : y.pc = Function.update x.pc T.thr pos) (hpos : pos.ofCaller = false)
    (hval : pos.holds → y.value T.mutex = 0) (hkeep : y.adds = x.adds ∧ y.unlinks = x.unlinks)
    (hset : y.stillSet = x.stillSet ∧ y.reject = x.reject ∧ y.served = x.served)
    (htarget : TargetOk T y) (hserved : x.served → pos.commits = false ∧ (pos.willTest → x.reject ≠ 0)) : Inv T y := by
  have ht : y.pc T.thr = pos := by simp [hpc]
  have hcaller : CallerOk T y T.thr pos := by
    cases pos <;> trivial
  refine h.acting hfree hpc hs.moves.queues hs.moves.live hs.moves.idle ⟨fun _ => rfl, fun hc => ?_⟩ hval
    (fun m _ => ⟨congrFun hkeep.1 m, congrFun hkeep.2 m⟩) htarget hcaller ?_ fun hsv => ?_
  · rw [hpos] at hc
    cases hc
  · rw [hset.1, hset.2.1]
    exact h.still
  · rw [hset.2.2] at hsv
    rw [ht, hset.2.1]
    exact ⟨hs.awake (h.served hsv).1, hserved hsv⟩

theorem TargetOk.of_other {pc : Word → DescAt} (hpc : y.pc = Function.update pc T.thr pos) (hl : pos.isLinked = false)
    (hs : pos.sleeps = false) (h : y.Awake T ∧ y.queue T = []) : TargetOk T y := by
  have ht : y.pc T.thr = pos := by simp [hpc]
  refine ⟨fun hx => ?_, fun hx => ?_, fun _ _ => h⟩
  · rw [ht, hl] at hx
    cases hx
  · rw [ht, hs] at hx
    cases hx

theorem TargetOk.of_linked {pc : Word → DescAt} (hpc : y.pc = Function.update pc T.thr pos) (hl : pos.isLinked)
    (h : y.Awake T ∧ y.queue T = [T.thr]) : TargetOk T y := by
  have ht : y.pc T.thr = pos := by simp [hpc]
  have hs : pos.sleeps = false := by cases pos <;> first | rfl | cases hl
  refine ⟨fun _ => h, fun hx => ?_, fun hx _ => ?_⟩
  · rw [ht, hs] at hx
    cases hx
  · rw [ht, hl] at hx
    cases hx

section
variable (h : Inv T x)
include h

theorem Inv.lock (hc : x.sched.currThread = some T.thr) (hp : x.pc T.thr = .lock) :
    Inv T (x.mutexLock T.mutex T.thr .test) := by
  obtain ⟨S, hS, ho⟩ := h.queues
  refine h.mutexLock hc (.inl (by rw [hp]; rfl)) (by simp [hp]) fun hv => ?_
  refine h.target_goes (fun a _ => h.free hv a) (hS.steady_refl ho) rfl rfl (fun _ => by simp) ⟨rfl, rfl⟩ ⟨rfl, rfl, rfl⟩
    (TargetOk.of_other rfl rfl rfl (h.target.other (by rw [hp]; rfl) (by rw [hp]; rfl))) fun hsv => ⟨rfl, fun _ => ?_⟩
  exact (h.served hsv).2.2 (by rw [hp]; rfl)

theorem Inv.test (hp : x.pc T.thr = .test) :
    Inv T (x.goto T.thr (if x.reject ≠ 0 then .unlock else .lockQueue) x.sched) := by
  obtain ⟨S, hS, ho⟩ := h.queues
  have hh : (x.pc T.thr).holds := by rw [hp]; rfl
  have hother := h.target.other (by rw [hp]; rfl) (by rw [hp]; rfl)
  split
  · exact h.target_goes (h.others_free hh) (hS.steady_refl ho) rfl rfl (fun _ => h.value_of_holds hh) ⟨rfl, rfl⟩
      ⟨rfl, rfl, rfl⟩ (TargetOk.of_other rfl rfl rfl hother) fun _ => ⟨rfl, nofun⟩
  · rename_i hr
    refine h.target_goes (h.others_free hh) (hS.steady_refl ho) rfl rfl (fun _ => h.value_of_holds hh) ⟨rfl, rfl⟩
      ⟨rfl, rfl, rfl⟩ (TargetOk.of_other rfl rfl rfl hother) fun hsv => ?_
    exact absurd ((h.served hsv).2.2 (by rw [hp]; rfl)) hr

theorem Inv.not_served (hp : (x.pc T.thr).commits) : x.served = false := by
  by_contra hsv
  have := (h.served (by simpa using hsv)).2.1
  simp [hp] at this

theorem Inv.lockQueue (hc : x.sched.currThread = some T.thr) (hp : x.pc T.thr = .lockQueue) :
    Inv T (x.mutexLock (queueMutex T.cv) T.thr .link) := by
  obtain ⟨S, hS, ho⟩ := h.queues
  have hh : (x.pc T.thr).holds := by rw [hp]; rfl
  refine h.mutexLock hc (.inl (by rw [hp]; rfl)) (by simp [hp]) fun _ => ?_
  refine h.target_goes (h.others_free hh) (hS.steady_refl ho) rfl rfl (fun _ => ?_) ⟨rfl, rfl⟩ ⟨rfl, rfl, rfl⟩
    (TargetOk.of_other rfl rfl rfl (h.target.other (by rw [hp]; rfl) (by rw [hp]; rfl))) fun hsv => ?_
  · exact (Function.update_of_ne T.apart ..).trans (h.value_of_holds hh)
  · exact absurd hsv (by simp [h.not_served (by rw [hp]; rfl)])

theorem Inv.link (hp : x.pc T.thr = .link) :
    Inv T (x.goto T.thr .unlockQueue (x.sched.addToTail (.cond T.cv) T.thr)) := by
  obtain ⟨S, hS, ho⟩ := h.queues
  have hh : (x.pc T.thr).holds := by rw [hp]; rfl
  obtain ⟨hawake, hq⟩ := h.target.other (by rw [hp]; rfl) (by rw [hp]; rfl)
  refine h.acting (h.others_free hh) rfl ⟨S, hS.congr Sched.queues_update_cond rfl rfl, ho⟩ subset_rfl rfl ⟨fun _ => rfl, nofun⟩
    (fun _ => h.value_of_holds hh) (fun _ _ => ⟨rfl, rfl⟩) (TargetOk.of_linked rfl rfl ⟨hawake, ?_⟩) trivial
    h.still fun hsv => ?_
  · have : x.sched.list (.cond T.cv) = [] := hq
    simp [queue, goto, Sched.addToTail, Sched.setList, this]
  · exact absurd hsv (by simp [goto, h.not_served (by rw [hp]; rfl)])

theorem Inv.unlockQueue (hp : x.pc T.thr = .unlockQueue) : Inv T (x.mutexUnlock (queueMutex T.cv) T.thr .release) := by
  obtain ⟨S, hS, ho⟩ := h.queues
  have hh : (x.pc T.thr).holds := by rw [hp]; rfl
  obtain ⟨hawake, hq⟩ := h.target.linked (by rw [hp]; rfl)
  have hs : x.sched.Steady T.thr (x.mutexUnlock (queueMutex T.cv) T.thr .release).sched := hS.steady_mutexUnlock ho
  refine h.target_goes (h.others_free hh) hs rfl rfl (fun _ => ?_) ⟨rfl, rfl⟩ ⟨rfl, rfl, rfl⟩
    (TargetOk.of_linked rfl rfl ⟨hs.awake hawake, (queue_of_moves hs.moves).trans hq⟩) fun hsv => ?_
  · exact (Function.update_of_ne T.apart ..).trans (h.value_of_holds hh)
  · exact absurd hsv (by simp [h.not_served (by rw [hp]; rfl)])

theorem Inv.release (hc : x.sched.currThread = some T.thr) (hp : x.pc T.thr = .release) :
    Inv T ({ x with sched := x.sched.setStatus T.thr .descheduled }.mutexUnlock T.mutex T.thr .switch) := by
  obtain ⟨S, hS, ho⟩ := h.queues
  have hh : (x.pc T.thr).holds := by rw [hp]; rfl
  obtain ⟨hawake, hq⟩ := h.target.linked (by rw [hp]; rfl)
  have hm : x.sched.Moves ((x.sched.setStatus T.thr .descheduled).mutexUnlock T.mutex) :=
    hS.moves_mutexUnlock ho rfl rfl rfl rfl
  have hd : (x.sched.setStatus T.thr .descheduled).Descheduled T.thr := by
    refine ⟨by simp [Sched.setStatus], fun hd hh hmem => (ho T.thr hc).2 ?_⟩
    exact hS.placed.mem (show T.thr ∈ x.sched.queues ⟨hd, hh⟩ from hmem)
  refine h.acting (h.others_free hh) rfl hm.queues hm.live hm.idle ⟨fun _ => rfl, fun hx => by cases hx⟩
    (fun hx => by cases hx) (fun _ _ => ⟨rfl, rfl⟩)
    ⟨fun hx => ?_, fun _ => .inl ⟨hd.wakeFirst (by simp), ?_, fun _ => by simp [DescRun.mutexUnlock]⟩, fun _ hx => ?_⟩ trivial
    h.still fun hsv => ?_
  · simp [DescRun.mutexUnlock, DescAt.isLinked] at hx
  · exact (congrFun hm.conds T.cv).trans hq
  · simp [DescRun.mutexUnlock, DescAt.sleeps] at hx
  · exact absurd hsv (by simp [DescRun.mutexUnlock, h.not_served (by rw [hp]; rfl)])

theorem Inv.switch (hp : x.pc T.thr = .switch) : Inv T (x.goto T.thr .relock x.sched.contextSwitch) := by
  obtain ⟨S, hS, ho⟩ := h.queues
  have hs : x.sched.Steady T.thr x.sched.contextSwitch :=
    Sched.steady_contextSwitch (hS.moves_contextSwitch ho.offIfRunning rfl rfl rfl fun _ _ h => h) h.ne_idle id id
  have ht : (x.goto T.thr .relock x.sched.contextSwitch).pc T.thr = .relock := by simp [goto]
  refine h.background hs (hs.moves.live h.live) (fun a => ?_) (by rw [ht, hp]; rfl) (fun ha hc => ?_) (fun _ _ => ⟨rfl, rfl⟩)
    id h.still fun hsv => ?_
  · by_cases ha : a = T.thr
    · subst ha
      rw [ht, hp]
      exact .inr ⟨rfl, rfl, fun _ => rfl, nofun, trivial⟩
    · exact .inl (by simp [goto, ha])
  · exact absurd hc (ha.off.contextSwitch h.ne_idle).2
  · rw [ht]
    exact ⟨hs.awake (h.served hsv).1, rfl, nofun⟩

theorem Inv.relock (hc : x.sched.currThread = some T.thr) (hp : x.pc T.thr = .relock) :
    Inv T (x.mutexLock T.mutex T.thr .unlock) := by
  obtain ⟨S, hS, ho⟩ := h.queues
  refine h.mutexLock hc (.inl (by rw [hp]; rfl)) (by simp [hp]) fun hv => ?_
  have hother : x.Awake T ∧ x.queue T = [] := by
    rcases h.target.sleeps (by rw [hp]; rfl) with ha | ⟨ha, hq | ⟨m, hm⟩⟩
    · have := ha.curr hc
      rw [hp] at this
      cases this
    · exact ⟨ha, hq⟩
    · have := h.free hv m
      simp [holds_of_unlinking hm] at this
  exact h.target_goes (fun a _ => h.free hv a) (hS.steady_refl ho) rfl rfl (fun _ => by simp) ⟨rfl, rfl⟩ ⟨rfl, rfl, rfl⟩
    (TargetOk.of_other rfl rfl rfl hother) fun _ => ⟨rfl, nofun⟩

theorem Inv.unlock (hp : x.pc T.thr = .unlock) : Inv T (x.mutexUnlock T.mutex T.thr .out) := by
  obtain ⟨S, hS, ho⟩ := h.queues
  have hh : (x.pc T.thr).holds := by rw [hp]; rfl
  obtain ⟨hawake, hq⟩ := h.target.other (by rw [hp]; rfl) (by rw [hp]; rfl)
  have hs : x.sched.Steady T.thr (x.mutexUnlock T.mutex T.thr .out).sched := hS.steady_mutexUnlock ho
  exact h.target_goes (h.others_free hh) hs rfl rfl nofun ⟨rfl, rfl⟩ ⟨rfl, rfl, rfl⟩
    (TargetOk.of_other rfl rfl rfl ⟨hs.awake hawake, (queue_of_moves hs.moves).trans hq⟩)
    fun _ => ⟨rfl, nofun⟩

end

theorem TargetOk.of_sleeps (hs : (y.pc T.thr).sleeps)
    (h : y.Asleep T ∨ y.Awake T ∧ (y.queue T = [] ∨ ∃ m, (y.pc m).unlinking)) : TargetOk T y := by
  refine ⟨fun hx => ?_, fun _ => h, fun _ hx => ?_⟩
  · cases hp : y.pc T.thr <;> rw [hp] at hs hx <;> first | cases hs; done | cases hx
  · rw [hs] at hx
    cases hx

theorem holds_of_commits (h : pos.commits) : pos.holds := by cases pos <;> first | rfl | cases h

section
variable (h : Inv T x) (hcal : (x.pc thr).ofCaller)
include h hcal

theorem Inv.caller_goes (hfree : ∀ a, a ≠ thr → (x.pc a).holds = false) (hs : x.sched.Steady T.thr y.sched)
    (hpc : y.pc = Function.update x.pc thr pos) (hpos : pos.ofTarget = false) (hun : (x.pc thr).unlinking = false)
    (hval : pos.holds → y.value T.mutex = 0) (hkeep : y.adds = x.adds ∧ y.unlinks = x.unlinks)
    (hset : y.stillSet = x.stillSet ∧ y.reject = x.reject) (hcaller : CallerOk T y thr pos)
    (hserved : y.served → x.served ∨ x.stillSet thr ∧ y.Awake T) : Inv T y := by
  have hne := (h.ofCaller hcal).1
  have ht : y.pc T.thr = x.pc T.thr := by simp [hpc, hne.symm]
  refine h.acting hfree hpc hs.moves.queues hs.moves.live hs.moves.idle ⟨fun hp => ?_, fun _ => hcal⟩ hval
    (fun m _ => ⟨congrFun hkeep.1 m, congrFun hkeep.2 m⟩) (TargetOk.of_caller h hs hne hpc hun) hcaller ?_ fun hsv => ?_
  · rw [hpos] at hp
    cases hp
  · rw [hset.1, hset.2]
    exact h.still
  · rcases hserved hsv with hsv | ⟨hst, hawake⟩
    · exact h.served_steady hs ht hset.2 hsv
    · refine ⟨hawake, ?_, fun _ => hset.2 ▸ h.still thr hst⟩
      by_contra hcm
      rw [ht] at hcm
      have := hfree T.thr hne.symm
      simp [holds_of_commits (by simpa using hcm)] at this

omit hcal in
theorem Inv.mkLock (hc : x.sched.currThread = some thr) (hp : x.pc thr = .mkLock) :
    Inv T (x.mutexLock T.mutex thr .mkTest) := by
  obtain ⟨S, hS, ho⟩ := h.queues
  have hcal : (x.pc thr).ofCaller := by rw [hp]; rfl
  have hcnt := h.callers thr
  rw [hp] at hcnt
  refine h.mutexLock hc (.inr hcal) (by simp [hp]) fun hv => ?_
  exact h.caller_goes hcal (fun a _ => h.free hv a) (hS.steady_refl ho) rfl rfl (by rw [hp]; rfl) (fun _ => by simp)
    ⟨rfl, rfl⟩ ⟨rfl, rfl⟩ hcnt .inl

omit hcal in
theorem Inv.mkTest (hp : x.pc thr = .mkTest) :
    Inv T (x.goto thr (if x.sched.status T.thr ≠ .descheduled then .mkFail else .sigLockQueue) x.sched) := by
  obtain ⟨S, hS, ho⟩ := h.queues
  have hcal : (x.pc thr).ofCaller := by rw [hp]; rfl
  have hh : (x.pc thr).holds := by rw [hp]; rfl
  have hcnt := h.callers thr
  rw [hp] at hcnt
  split
  · rename_i ha
    exact h.caller_goes hcal (h.others_free hh) (hS.steady_refl ho) rfl rfl (by rw [hp]; rfl) (fun _ => h.value_of_holds hh)
      ⟨rfl, rfl⟩ ⟨rfl, rfl⟩ ha .inl
  · rename_i ha
    exact h.caller_goes hcal (h.others_free hh) (hS.steady_refl ho) rfl rfl (by rw [hp]; rfl) (fun _ => h.value_of_holds hh)
      ⟨rfl, rfl⟩ ⟨rfl, rfl⟩ ⟨ha, hcnt⟩ .inl

theorem Inv.returns (hh : (x.pc thr).holds) (hun : (x.pc thr).unlinking = false) (hawake : x.Awake T) :
    Inv T ((x.mutexUnlock T.mutex thr .out).returned thr) := by
  obtain ⟨S, hS, ho⟩ := h.queues
  have hs : x.sched.Steady T.thr ((x.mutexUnlock T.mutex thr .out).returned thr).sched := hS.steady_mutexUnlock ho
  refine h.caller_goes hcal (h.others_free hh) hs rfl rfl hun nofun ⟨rfl, rfl⟩ ⟨rfl, rfl⟩ trivial fun hsv => ?_
  rcases (by simpa [returned, DescRun.mutexUnlock] using hsv : x.served = true ∨ x.stillSet thr = true) with hsv | hst
  · exact .inl hsv
  · exact .inr ⟨hst, hs.awake hawake⟩

omit hcal in
theorem Inv.sigLockQueue (hc : x.sched.currThread = some thr) (hp : x.pc thr = .sigLockQueue) :
    Inv T (x.mutexLock (queueMutex T.cv) thr .sigFirst) := by
  obtain ⟨S, hS, ho⟩ := h.queues
  have hcal : (x.pc thr).ofCaller := by rw [hp]; rfl
  have hh : (x.pc thr).holds := by rw [hp]; rfl
  have hcnt := h.callers thr
  rw [hp] at hcnt
  refine h.mutexLock hc (.inr hcal) (by simp [hp]) fun _ => ?_
  refine h.caller_goes hcal (h.others_free hh) (hS.steady_refl ho) rfl rfl (by rw [hp]; rfl) (fun _ => ?_) ⟨rfl, rfl⟩
    ⟨rfl, rfl⟩ hcnt .inl
  exact (Function.update_of_ne T.apart ..).trans (h.value_of_holds hh)

omit hcal in
theorem Inv.sigFirst (hp : x.pc thr = .sigFirst) : Inv T (x.exec T thr .sigFirst) := by
  obtain ⟨S, hS, ho⟩ := h.queues
  have hcal : (x.pc thr).ofCaller := by rw [hp]; rfl
  have hh : (x.pc thr).holds := by rw [hp]; rfl
  have hcnt := h.callers thr
  rw [hp] at hcnt
  have hq : x.sched.list (.cond T.cv) = [T.thr] := (h.asleep hcnt.1).1.queue
  unfold exec
  rw [hq]
  exact h.caller_goes hcal (h.others_free hh) (hS.steady_refl ho) rfl rfl (by rw [hp]; rfl) (fun _ => h.value_of_holds hh)
    ⟨rfl, rfl⟩ ⟨rfl, rfl⟩ ⟨rfl, hcnt⟩ .inl

omit hcal in
theorem Inv.sigWake {w : Word} (hc : x.sched.currThread = some thr) (hp : x.pc thr = .sigWake w) :
    Inv T (x.goto thr (.sigAdd w) (x.sched.setStatus w .runnable)) := by
  obtain ⟨S, hS, ho⟩ := h.queues
  have hcal : (x.pc thr).ofCaller := by rw [hp]; rfl
  have hh : (x.pc thr).holds := by rw [hp]; rfl
  have hcnt := h.callers thr
  rw [hp] at hcnt
  obtain ⟨rfl, hd, hadds, hunl⟩ := hcnt
  obtain ⟨ha, hsl⟩ := h.asleep hd
  have hne := (h.ofCaller hcal).1
  have ht : (x.goto thr (.sigAdd T.thr) (x.sched.setStatus T.thr .runnable)).pc T.thr = x.pc T.thr := by
    simp [goto, hne.symm]
  have hself : (x.goto thr (.sigAdd T.thr) (x.sched.setStatus T.thr .runnable)).pc thr = .sigAdd T.thr := by simp [goto]
  have hawake : (x.goto thr (.sigAdd T.thr) (x.sched.setStatus T.thr .runnable)).Awake T := by
    simp [Awake, goto, Sched.setStatus]
  have hout : x.sched.SwitchedOut T.thr := ⟨fun e => hne (Option.some.inj (hc.symm.trans e)), ha.off.2⟩
  refine h.acting (h.others_free hh) rfl ⟨S, hS.congr rfl rfl rfl, ho⟩ subset_rfl rfl ⟨fun hx => (by cases hx), fun _ => hcal⟩
    (fun _ => h.value_of_holds hh) (fun _ _ => ⟨rfl, rfl⟩)
    (TargetOk.of_sleeps (ht ▸ hsl) (.inr ⟨hawake, .inr ⟨thr, by rw [hself]; rfl⟩⟩))
    ⟨rfl, hawake, ha.queue, hout, ht ▸ hsl, hadds, hunl⟩ h.still fun hsv => ?_
  exact absurd (h.served hsv).1 hd

omit hcal in
theorem Inv.sigAdd {w : Word} (hp : x.pc thr = .sigAdd w) : Inv T (x.exec T thr (.sigAdd w)) := by
  obtain ⟨S, hS, ho⟩ := h.queues
  have hcal : (x.pc thr).ofCaller := by rw [hp]; rfl
  have hh : (x.pc thr).holds := by rw [hp]; rfl
  have hcnt := h.callers thr
  rw [hp] at hcnt
  obtain ⟨rfl, ha, hq, hout, hsl, hadds, hunl⟩ := hcnt
  have hne := (h.ofCaller hcal).1
  have ht : (x.exec T thr (.sigAdd T.thr)).pc T.thr = x.pc T.thr := by simp [exec, goto, hne.symm]
  have hself : (x.exec T thr (.sigAdd T.thr)).pc thr = .sigUnlink T.thr := by simp [exec, goto]
  have hput : (x.sched.runqAddThread T.thr).Spread (insert T.thr S) :=
    hS.put (i := .runnable) (hS.switchedOut_iff.mp hout).2 h.ne_idle (List.perm_append_singleton T.thr _)
      Sched.runqAddThread_queues subset_rfl h.live rfl
  have hconds : (x.sched.runqAddThread T.thr).conds = x.sched.conds :=
    Sched.conds_update_own (f := x.sched.list) (l := x.sched.list .runnable ++ [T.thr]) .runnable
  have hq' : (x.exec T thr (.sigAdd T.thr)).queue T = [T.thr] := (congrFun hconds T.cv).trans hq
  refine h.acting (h.others_free hh) rfl ⟨_, hput, fun c hc => ⟨(ho c hc).1, fun hm => ?_⟩⟩ subset_rfl rfl ⟨fun hx => (by cases hx), fun _ => hcal⟩
    (fun _ => h.value_of_holds hh) (fun m hm => ⟨by simp [exec, hm], rfl⟩)
    (TargetOk.of_sleeps (ht ▸ hsl) (.inr ⟨ha, .inr ⟨thr, by rw [hself]; rfl⟩⟩))
    ⟨rfl, ha, hq', ht ▸ hsl, by simp [exec, hadds], hunl⟩ h.still fun hsv => ?_
  · rcases Finset.mem_insert.mp hm with rfl | hm
    · exact hout.1 hc
    · exact (ho c hc).2 hm
  · rw [ht]
    exact h.served hsv

omit hcal in
theorem Inv.sigUnlink {w : Word} (hp : x.pc thr = .sigUnlink w) : Inv T (x.exec T thr (.sigUnlink w)) := by
  obtain ⟨S, hS, ho⟩ := h.queues
  have hcal : (x.pc thr).ofCaller := by rw [hp]; rfl
  have hh : (x.pc thr).holds := by rw [hp]; rfl
  have hcnt := h.callers thr
  rw [hp] at hcnt
  obtain ⟨rfl, ha, hq, hsl, hadds, hunl⟩ := hcnt
  have hl : x.sched.list (.cond T.cv) = [T.thr] := hq
  have hne := (h.ofCaller hcal).1
  have ht : (x.exec T thr (.sigUnlink T.thr)).pc T.thr = x.pc T.thr := by simp [exec, goto, hne.symm]
  have hqueues : (x.sched.delEntry (.cond T.cv) T.thr).queues = x.sched.queues := Sched.queues_update_cond
  have hq' : (x.exec T thr (.sigUnlink T.thr)).queue T = [] := by
    simp [queue, exec, goto, Sched.delEntry, Sched.setList, hl]
  refine h.acting (h.others_free hh) rfl ⟨S, hS.congr hqueues rfl rfl, ho⟩ subset_rfl rfl ⟨fun hx => (by cases hx), fun _ => hcal⟩
    (fun _ => h.value_of_holds hh) (fun m hm => ⟨rfl, by simp [exec, hm]⟩)
    (TargetOk.of_sleeps (ht ▸ hsl) (.inr ⟨ha, .inl hq'⟩)) ⟨ha, hadds, by simp [exec, hunl, hl]⟩ h.still fun hsv => ?_
  rw [ht]
  exact h.served hsv

omit hcal in
theorem Inv.sigUnlockQueue (hp : x.pc thr = .sigUnlockQueue) : Inv T (x.mutexUnlock (queueMutex T.cv) thr .mkUnlock) := by
  obtain ⟨S, hS, ho⟩ := h.queues
  have hcal : (x.pc thr).ofCaller := by rw [hp]; rfl
  have hh : (x.pc thr).holds := by rw [hp]; rfl
  have hcnt := h.callers thr
  rw [hp] at hcnt
  have hs : x.sched.Steady T.thr (x.mutexUnlock (queueMutex T.cv) thr .mkUnlock).sched := hS.steady_mutexUnlock ho
  refine h.caller_goes hcal (h.others_free hh) hs rfl rfl (by rw [hp]; rfl) (fun _ => ?_) ⟨rfl, rfl⟩ ⟨rfl, rfl⟩
    ⟨hs.awake hcnt.1, hcnt.2⟩ .inl
  exact (Function.update_of_ne T.apart ..).trans (h.value_of_holds hh)

end

/-! ## Runs -/

theorem Inv.exec (h : Inv T x) (hc : x.sched.currThread = some thr) (ho : x.pc thr ≠ .out) (ha : x.pc thr ≠ .armed) :
    Inv T (x.exec T thr (x.pc thr)) := by
  have hthr : (x.pc thr).ofTarget → thr = T.thr := h.ofTarget
  cases hp : x.pc thr with
  | out => exact absurd hp ho
  | armed => exact absurd hp ha
  | lock =>
    cases hthr (by rw [hp]; rfl)
    exact h.lock hc hp
  | test =>
    cases hthr (by rw [hp]; rfl)
    exact h.test hp
  | lockQueue =>
    cases hthr (by rw [hp]; rfl)
    exact h.lockQueue hc hp
  | link =>
    cases hthr (by rw [hp]; rfl)
    exact h.link hp
  | unlockQueue =>
    cases hthr (by rw [hp]; rfl)
    exact h.unlockQueue hp
  | release =>
    cases hthr (by rw [hp]; rfl)
    exact h.release hc hp
  | switch =>
    cases hthr (by rw [hp]; rfl)
    exact h.switch hp
  | relock =>
    cases hthr (by rw [hp]; rfl)
    exact h.relock hc hp
  | unlock =>
    cases hthr (by rw [hp]; rfl)
    exact h.unlock hp
  | mkLock => exact h.mkLock hc hp
  | mkTest => exact h.mkTest hp
  | mkFail =>
    have hcaller := h.callers thr
    rw [hp] at hcaller
    exact h.returns (by rw [hp]; rfl) (by rw [hp]; rfl) (by rw [hp]; rfl) hcaller
  | sigLockQueue => exact h.sigLockQueue hc hp
  | sigFirst => exact h.sigFirst hp
  | sigWake w => exact h.sigWake hc hp
  | sigAdd w => exact h.sigAdd hp
  | sigUnlink w => exact h.sigUnlink hp
  | sigUnlockQueue => exact h.sigUnlockQueue hp
  | mkUnlock =>
    have hcaller := h.callers thr
    rw [hp] at hcaller
    exact h.returns (by rw [hp]; rfl) (by rw [hp]; rfl) (by rw [hp]; rfl) hcaller.1

theorem Inv.create (h : Inv T x) (hn : thr ∉ x.sched.live) : Inv T { x with sched := x.sched.createThread thr } := by
  obtain ⟨S, hS, ho⟩ := h.queues
  have hne : T.thr ≠ thr := fun e => hn (e ▸ h.live)
  have hst : (x.sched.createThread thr).status T.thr = x.sched.status T.thr := by
    simp [Sched.createThread, Sched.setStatus, Sched.runqAddThread, Sched.addToTail, Sched.setList, hne]
  refine h.moved ⟨hS.moves_create ho hn, fun ha => hst ▸ ha, fun hd => ⟨⟨hst.trans hd.1, fun hd' hh hm => ?_⟩, id⟩⟩
  refine hd.2 hd' hh ?_
  by_cases hr : hd' = .runnable
  · subst hr
    have : T.thr ∈ x.sched.list .runnable ∨ T.thr = thr := by
      simpa [Sched.createThread, Sched.setStatus, Sched.runqAddThread, Sched.addToTail, Sched.setList] using hm
    exact this.resolve_right hne
  · simpa [Sched.createThread, Sched.setStatus, Sched.runqAddThread, Sched.addToTail, Sched.setList, hr] using hm

theorem Inv.enters (h : Inv T x) (hsched : y.sched = x.sched) (hval : y.value = x.value)
    (hpc : y.pc = Function.update x.pc thr pos) (hold : (x.pc thr).holds = false) (hnew : pos.holds = false)
    (hsleeps : (x.pc thr).sleeps = false ∧ pos.sleeps = false)
    (hrole : (pos.ofTarget → thr = T.thr) ∧ (pos.ofCaller → thr ≠ T.thr ∧ thr ≠ x.sched.idle)) (hcaller : CallerOk T y thr pos)
    (hcount : ∀ m, m ≠ thr → y.adds m = x.adds m ∧ y.unlinks m = x.unlinks m) (hstill : ∀ m, y.stillSet m → y.reject ≠ 0)
    (hserved : y.served → y.Awake T ∧ (y.pc T.thr).commits = false ∧ ((y.pc T.thr).willTest → y.reject ≠ 0))
    (hne : pos ≠ x.pc thr) : Inv T y := by
  obtain ⟨S, hS, ho⟩ := h.queues
  have hs : x.sched.Steady T.thr y.sched := by
    rw [hsched]
    exact hS.steady_refl ho
  have hself : y.pc thr = pos := by simp [hpc]
  have hother : ∀ {a}, a ≠ thr → y.pc a = x.pc a := fun ha => by simp [hpc, ha]
  refine h.background hs (hsched ▸ h.live) (fun a => ?_) ?_ (fun ha hc => ?_) (fun a ha => hcount a fun e => ?_)
    (fun hv => hval ▸ hv) hstill hserved
  · by_cases ha : a = thr
    · subst ha
      rw [hself]
      exact .inr ⟨hold, hnew, hrole.1, hrole.2, hcaller⟩
    · exact .inl (hother ha)
  · by_cases ha : T.thr = thr
    · rw [ha, hself, hsleeps.1, hsleeps.2]
    · rw [hother ha]
  · by_cases ht : T.thr = thr
    · have hsw := ha.curr (hsched ▸ hc)
      rw [ht] at hsw
      rw [hsw] at hsleeps
      cases hsleeps.1
    · exact curr_switch hs (hother ht) ha hc
  · subst e
    exact hne (hself.symm.trans ha)

theorem Inv.step (h : Inv T x) (hs : Step T x y) : Inv T y := by
  obtain ⟨S, hS, ho⟩ := h.queues
  cases hs with
  | tick => exact h.moved (hS.steady_tick ho h.ne_idle)
  | create hn => exact h.create hn
  | reset hc hp =>
    refine h.background (hS.steady_refl ho) h.live (fun _ => .inl rfl) rfl
      (fun ha hc => curr_switch (hS.steady_refl ho) rfl ha hc) (fun _ _ => ⟨rfl, rfl⟩) id nofun fun hsv => ?_
    obtain ⟨hawake, hcm, -⟩ := h.served hsv
    refine ⟨hawake, hcm, fun hw => ?_⟩
    rw [hp] at hw
    cases hw
  | deschedule hc hp =>
    exact h.enters rfl rfl rfl (by rw [hp]; rfl) rfl ⟨by rw [hp]; rfl, rfl⟩ ⟨fun _ => rfl, nofun⟩ trivial
      (fun _ _ => ⟨rfl, rfl⟩) h.still nofun (by simp [hp])
  | @set thr v hc hne hi hp hv =>
    refine h.enters rfl rfl rfl (by rw [hp]; rfl) rfl ⟨by rw [hp]; rfl, rfl⟩ ⟨nofun, fun _ => ⟨hne, hi⟩⟩
      trivial (fun _ _ => ⟨rfl, rfl⟩) (fun _ _ => hv) (fun hsv => ?_) (by simp [hp])
    obtain ⟨hawake, hcm, -⟩ := h.served hsv
    have ht : Function.update x.pc thr .armed T.thr = x.pc T.thr := Function.update_of_ne hne.symm ..
    exact ⟨hawake, (congrArg DescAt.commits ht).trans hcm, fun _ => hv⟩
  | @makeRunnable thr hc hp =>
    have hcal := h.ofCaller (a := thr) (by rw [hp]; rfl)
    refine h.enters rfl rfl rfl (by rw [hp]; rfl) rfl ⟨by rw [hp]; rfl, rfl⟩ ⟨fun hx => (by cases hx), fun _ => hcal⟩
      ⟨by simp, by simp⟩ (fun m hm => ⟨by simp [hm], by simp [hm]⟩) h.still (fun hsv => ?_) (by simp [hp])
    have ht : Function.update x.pc thr .mkLock T.thr = x.pc T.thr := Function.update_of_ne hcal.1.symm ..
    show _ ∧ (Function.update x.pc thr .mkLock T.thr).commits = false ∧ _
    rw [ht]
    have := h.served hsv
    refine ⟨this.1, this.2.1, fun hw => this.2.2 ?_⟩
    exact ht ▸ hw
  | run hc ho ha => exact h.exec hc ho ha

theorem Init.inv (h : Init T x) : Inv T x := by
  classical
  obtain ⟨hk, hsettled⟩ := h.reached.inv
  have hpc : ∀ {f : DescAt → Bool} a, f .out = false → f (x.pc a) = false := fun a hf => by rw [h.pc]; exact hf
  have hawake : x.Awake T := h.status
  refine ⟨⟨_, ⟨hk.placed.comp Subtype.val_injective, fun a ha => ?_, fun hi => ?_, hk.idle_live⟩, fun c hc => ?_⟩,
    h.live, h.ne_idle, fun {a} ha => ?_, fun {a} ha => ?_, fun {a b} ha => ?_, fun _ a => hpc a rfl, ?_, fun m => ?_,
    fun m hm => ?_, fun hsv => ?_⟩
  · exact (Sched.mem_offCpu.mp (Finset.mem_filter.mp ha).1).1
  · exact Sched.idle_notMem_offCpu (Finset.mem_filter.mp hi).1
  · exact ⟨hk.curr_live hc, fun hm => Sched.curr_notMem_offCpu hsettled hc (Finset.mem_filter.mp hm).1⟩
  · simp [hpc (f := DescAt.ofTarget) a rfl] at ha
  · simp [hpc (f := DescAt.ofCaller) a rfl] at ha
  · simp [hpc (f := DescAt.holds) a rfl] at ha
  · refine ⟨fun hl => ?_, fun hs => ?_, fun _ _ => ⟨hawake, h.conds⟩⟩
    · simp [hpc (f := DescAt.isLinked) T.thr rfl] at hl
    · simp [hpc (f := DescAt.sleeps) T.thr rfl] at hs
  · rw [h.pc]
    trivial
  · simp [h.stillSet m] at hm
  · simp [h.served] at hsv

/-- Once a `make_runnable` whose `reject` is still set has returned, the target is
not left asleep. A call that returns 0 has unlinked the target and put it on the
run queue, each once, and it was in no other place. -/
theorem no_wakeup_lost (T : Target) {x : DescRun} (h : Reach (Init T) (Step T) x) :
    (x.served → x.sched.status T.thr ≠ .descheduled) ∧
      (∀ m, x.pc m = .mkUnlock → x.adds m = 1 ∧ x.unlinks m = 1) ∧
      ∀ m w, x.pc m = .sigAdd w → w = T.thr ∧ x.sched.currThread ≠ some w ∧ w ∉ x.sched.list .runnable ∧
        x.sched.list (.cond T.cv) = [w] := by
  have hi : Inv T x := h.invariant (P := Inv T) (fun _ => Init.inv) fun _ _ hi hs => hi.step hs
  refine ⟨fun hsv => (hi.served hsv).1, fun m hm => ?_, fun m w hm => ?_⟩
  · have := hi.callers m
    rw [hm] at this
    exact this.2
  · have := hi.callers m
    rw [hm] at this
    obtain ⟨rfl, -, hq, hout, -⟩ := this
    exact ⟨rfl, hout.1, hout.2 .runnable (by simp), hq⟩

inductive Act where
  | tick
  | create (thr : Word)
  | reset
  | deschedule
  | set (thr : Word) (v : Int)
  | makeRunnable (thr : Word)
  | run (thr : Word)

def act (T : Target) (x : DescRun) : Act → Option DescRun
  | .tick => some { x with sched := { x.sched with ticks := x.sched.ticks + 1#32 }.contextSwitch }
  | .create thr => if thr ∉ x.sched.live then some { x with sched := x.sched.createThread thr } else none
  | .reset =>
    if x.sched.currThread = some T.thr ∧ x.pc T.thr = .out then
      some { x with reject := 0, stillSet := fun _ => false }
    else none
  | .deschedule =>
    if x.sched.currThread = some T.thr ∧ x.pc T.thr = .out then
      some { x.goto T.thr .lock x.sched with answered := false, served := false }
    else none
  | .set thr v =>
    if x.sched.currThread = some thr ∧ thr ≠ T.thr ∧ thr ≠ x.sched.idle ∧ x.pc thr = .out ∧ v ≠ 0 then
      some { x.goto thr .armed x.sched with reject := v, stillSet := Function.update x.stillSet thr true }
    else none
  | .makeRunnable thr =>
    if x.sched.currThread = some thr ∧ x.pc thr = .armed then
      some { x.goto thr .mkLock x.sched with
        adds := Function.update x.adds thr 0
        unlinks := Function.update x.unlinks thr 0 }
    else none
  | .run thr =>
    if x.sched.currThread = some thr ∧ x.pc thr ≠ .out ∧ x.pc thr ≠ .armed then some (x.exec T thr (x.pc thr)) else none

theorem act_step (x : DescRun) (a : Act) (y : DescRun) (h : x.act T a = some y) : Step T x y := by
  cases a with
  | tick =>
    cases h
    exact .tick
  | create thr =>
    obtain ⟨hn, ⟨⟩⟩ := Option.ite_none_right_eq_some.mp h
    exact .create hn
  | reset =>
    obtain ⟨⟨hc, hp⟩, ⟨⟩⟩ := Option.ite_none_right_eq_some.mp h
    exact .reset hc hp
  | deschedule =>
    obtain ⟨⟨hc, hp⟩, ⟨⟩⟩ := Option.ite_none_right_eq_some.mp h
    exact .deschedule hc hp
  | set thr v =>
    obtain ⟨⟨hc, hne, hi, hp, hv⟩, ⟨⟩⟩ := Option.ite_none_right_eq_some.mp h
    exact .set hc hne hi hp hv
  | makeRunnable thr =>
    obtain ⟨⟨hc, hp⟩, ⟨⟩⟩ := Option.ite_none_right_eq_some.mp h
    exact .makeRunnable hc hp
  | run thr =>
    obtain ⟨⟨hc, ho, ha⟩, ⟨⟩⟩ := Option.ite_none_right_eq_some.mp h
    exact .run hc ho ha

def firstThread : Target where
  thr := 2#32
  mutex := 0x1000#32
  cv := 0x2000#32
  apart := by decide

def booted : DescRun where
  sched := Sched.bootSched
  value := fun _ => 1
  pc := fun _ => .out
  reject := 0
  stillSet := fun _ => false
  adds := fun _ => 0
  unlinks := fun _ => 0
  answered := false
  served := false

theorem booted_init : Init firstThread booted where
  reached := .start Sched.bootSched_booted
  live := by decide
  ne_idle := by decide
  status := by decide
  conds := rfl
  value _ := rfl
  pc _ := rfl
  stillSet _ := rfl
  served := rfl
  answered := rfl

theorem reach_script {l : List Act} {y : DescRun} (h : l.foldlM (act firstThread) booted = some y) :
    Reach (Init firstThread) (Step firstThread) y :=
  (Reach.start booted_init).foldlM act_step h

def wakes : List Act :=
  [.create 3#32, .tick, .deschedule, .run 2#32, .run 2#32, .run 2#32, .run 2#32, .run 2#32, .run 2#32, .run 2#32,
    .set 3#32 1, .makeRunnable 3#32, .run 3#32, .run 3#32, .run 3#32, .run 3#32, .run 3#32, .run 3#32, .run 3#32,
    .run 3#32, .run 3#32]

theorem no_wakeup_lost_wakes :
    ∃ y, wakes.foldlM (act firstThread) booted = some y ∧ y.served ∧ y.sched.status 2#32 ≠ .descheduled := by
  obtain ⟨y, hy⟩ : ∃ y, wakes.foldlM (act firstThread) booted = some y :=
    Option.isSome_iff_exists.mp (by decide +kernel)
  have hs : y.served = true := by
    have : (wakes.foldlM (act firstThread) booted).map served = some true := by decide +kernel
    simpa [hy] using this
  exact ⟨y, hy, hs, (no_wakeup_lost firstThread (reach_script hy)).1 hs⟩

def resets : List Act :=
  [.create 3#32, .tick, .tick, .set 3#32 1, .tick, .reset, .deschedule, .tick, .makeRunnable 3#32, .run 3#32, .run 3#32,
    .run 3#32, .tick, .run 2#32, .run 2#32, .run 2#32, .run 2#32, .run 2#32, .run 2#32]

/-- The call of `make_runnable` began after `deschedule`, and the thread sleeps. -/
theorem wakeup_lost_after_reset :
    ∃ y, Reach (Init firstThread) (Step firstThread) y ∧ y.answered ∧ y.sched.status 2#32 = .descheduled ∧
      y.pc 2#32 = .switch := by
  obtain ⟨y, hy⟩ : ∃ y, resets.foldlM (act firstThread) booted = some y :=
    Option.isSome_iff_exists.mp (by decide +kernel)
  have : (resets.foldlM (act firstThread) booted).map (fun y => (y.answered, y.sched.status 2#32, y.pc 2#32)) =
      some (true, .descheduled, .switch) := by decide +kernel
  have heq : y.answered = true ∧ y.sched.status 2#32 = .descheduled ∧ y.pc 2#32 = .switch := by simpa [hy] using this
  exact ⟨y, reach_script hy, heq⟩

end DescRun

end Pebbles
