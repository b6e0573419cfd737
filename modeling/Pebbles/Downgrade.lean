import Pebbles.Rwlock

/-!
# Readers after a downgrade

Whether a reader that waits is admitted once `rwlock_downgrade` was called. Its loop
looks at `num_writers`, which counts the writers that wait as well; in a run in which
two writers got in together the count never goes back.
-/

namespace Pebbles

open Runs

namespace RwRun

variable {θ : Type*} [DecidableEq θ]

def Blocked (type : Int) (pos : RwAt) : Prop := pos = .asleep type ∨ pos = .relock type

def Quiet (x y : RwRun θ) : Prop :=
  Step (fun _ _ => True) x y ∧
    (y.rw = x.rw ∨
      ∃ t, x.pc t = .test RWLOCK_READ ∧ x.rw.mustWait RWLOCK_READ = false ∧
        y = (x.acquire t RWLOCK_READ).goto t .leave)

def Admits (x : RwRun θ) (u : θ) : Prop :=
  ∀ y, Relation.ReflTransGen Quiet x y → y.pc u = .test RWLOCK_READ → y.rw.mustWait RWLOCK_READ = false

def writes (type : Int) : Int := if type = RWLOCK_WRITE then 1 else 0

def pending : RwAt → Int
  | .test type | .asleep type | .relock type => writes type
  | _ => 0

def Counts (l : Int) (x : RwRun θ) : Prop :=
  ∀ P : Finset θ, (∀ u ∈ P, pending (x.pc u) = 1) → P.card + writes x.rw.type + l ≤ x.rw.numWriters

section
variable {x y : RwRun θ} {t u : θ} {pos : RwAt} {type l k : Int}

/-! ## The number of writers -/

theorem writes_cases (type : Int) : writes type = 0 ∨ writes type = 1 := (ite_eq_or_eq ..).symm

theorem writes_of_ne (h : type ≠ RWLOCK_WRITE) : writes type = 0 := if_neg h

theorem pending_cases (pos : RwAt) : pending pos = 0 ∨ pending pos = 1 := by
  cases pos with
  | test type | asleep type | relock type => exact writes_cases type
  | _ => exact .inl rfl

theorem Counts.moves (h : Counts l x) (hpc : y.pc = Function.update x.pc t pos)
    (hle : pending pos + writes y.rw.type + k - y.rw.numWriters ≤
      pending (x.pc t) + writes x.rw.type + l - x.rw.numWriters) : Counts k y := by
  intro P hP
  have hne : ∀ v ∈ P.erase t, pending (x.pc v) = 1 := by
    intro v hv
    obtain ⟨hvt, hvP⟩ := Finset.mem_erase.mp hv
    have hv := hP v hvP
    rwa [hpc, Function.update_of_ne hvt] at hv
  have hcard : (P.card : Int) ≤ (P.erase t).card + pending pos := by
    by_cases ht : t ∈ P
    · have hpos := hP t ht
      rw [hpc, Function.update_self] at hpos
      have he := Finset.card_erase_add_one ht
      omega
    · rw [Finset.erase_eq_of_notMem ht]
      have hpos := pending_cases pos
      omega
  -- the thread itself is counted where it was
  have hold : ((P.erase t).card : Int) + pending (x.pc t) + writes x.rw.type + l ≤ x.rw.numWriters := by
    rcases pending_cases (x.pc t) with ht | ht
    · have hx := h (P.erase t) hne
      omega
    · have hx := h (insert t (P.erase t)) (Finset.forall_mem_insert _ _ _ |>.mpr ⟨ht, hne⟩)
      rw [Finset.card_insert_of_notMem (Finset.notMem_erase t P)] at hx
      omega
  omega

omit [DecidableEq θ] in
theorem acquire_rw : (x.acquire t type).rw = x.rw.lockEnd type := by
  unfold acquire
  split <;> rfl

omit [DecidableEq θ] in
theorem acquire_pc : (x.acquire t type).pc = x.pc := by
  unfold acquire
  split <;> rfl

theorem release_rw : (x.release t type).rw = x.rw.unlock := by
  unfold release
  split <;> rfl

theorem release_pc : (x.release t type).pc = x.pc := by
  unfold release
  split <;> rfl

theorem downgraded_rw : (x.downgraded t).rw = x.rw.downgrade := by
  unfold downgraded
  split <;> rfl

theorem downgraded_pc : (x.downgraded t).pc = x.pc := by
  unfold downgraded
  split <;> rfl

theorem unlock_writes (rw : RwLock) :
    writes rw.unlock.type - rw.unlock.numWriters = writes rw.type - rw.numWriters := by
  unfold RwLock.unlock
  by_cases hw : rw.type = RWLOCK_WRITE
  · rw [if_pos hw, hw]
    show 0 - (rw.numWriters - 1) = 1 - rw.numWriters
    omega
  · rw [if_neg hw, writes_of_ne hw]
    split_ifs with hr
    · dsimp only
      split_ifs
      · rfl
      · rw [writes_of_ne hw]
    · rw [writes_of_ne hw]

theorem downgrade_writes (rw : RwLock) :
    writes rw.downgrade.type - rw.downgrade.numWriters = writes rw.type - rw.numWriters := by
  unfold RwLock.downgrade
  by_cases hw : rw.type = RWLOCK_WRITE
  · rw [if_neg (not_not_intro hw), hw]
    show 0 - (rw.numWriters - 1) = 1 - rw.numWriters
    omega
  · rw [if_pos hw]

theorem lockEnd_writes (rw : RwLock) : writes (rw.lockEnd type).type = writes type := by
  unfold RwLock.lockEnd
  by_cases hw : type = RWLOCK_WRITE
  · rw [if_pos hw, hw]
  · rw [if_neg hw, writes_of_ne hw]
    rfl

theorem lockEnd_numWriters (rw : RwLock) : (rw.lockEnd type).numWriters = rw.numWriters := by
  unfold RwLock.lockEnd
  split <;> rfl

theorem lockStart_numWriters (rw : RwLock) : (rw.lockStart type).numWriters = rw.numWriters + writes type := by
  unfold RwLock.lockStart writes
  split
  · rfl
  · exact (add_zero _).symm

theorem Counts.leaves {z : RwRun θ} (h : Counts l x) (hpc : z.pc = x.pc)
    (hle : writes z.rw.type + k - z.rw.numWriters ≤ pending (x.pc t) + writes x.rw.type + l - x.rw.numWriters) :
    Counts k (z.goto t .leave) := by
  have hpc' : (z.goto t .leave).pc = Function.update x.pc t .leave := by
    rw [← hpc]
    rfl
  refine h.moves hpc' ?_
  show 0 + writes z.rw.type + k - z.rw.numWriters ≤ _
  omega

theorem Counts.enter (h : Counts l x) (hp : x.pc t = .test type) :
    Counts (l + writes x.rw.type) ((x.acquire t type).goto t .leave) := by
  refine h.leaves acquire_pc ?_
  rw [hp, acquire_rw, lockEnd_writes, lockEnd_numWriters]
  show _ ≤ writes type + _ + _ - _
  omega

omit [DecidableEq θ] in
theorem Counts.mono (h : Counts l x) (hk : k ≤ l) : Counts k x := by
  intro P hP
  have hx := h P hP
  omega

theorem Counts.step {ok : Int → RwLock → Prop} (h : Counts l x) (hs : Step ok x y) : Counts l y := by
  cases hs with
  | lock hp => exact h.moves rfl (by rw [hp]; exact le_rfl)
  | unlock hp => exact h.moves rfl (by rw [hp]; exact le_rfl)
  | downgrade hp => exact h.moves rfl (by rw [hp]; exact le_rfl)
  | acquire hp => exact h.moves rfl (by rw [hp]; exact le_rfl)
  | @start t type hp =>
    refine h.moves rfl ?_
    show writes type + writes (x.rw.lockStart type).type + l - (x.rw.lockStart type).numWriters ≤ _
    rw [hp, RwLock.lockStart_type, lockStart_numWriters]
    show _ ≤ 0 + _ + _ - _
    omega
  | sleep hp => exact h.moves rfl (by rw [hp]; exact le_rfl)
  | wake hp => exact h.moves rfl (by rw [hp]; exact le_rfl)
  | reacquire hp => exact h.moves rfl (by rw [hp]; exact le_rfl)
  | enter hp =>
    refine (h.enter hp).mono ?_
    have hw := writes_cases x.rw.type
    omega
  | acquireUnlock hp => exact h.moves rfl (by rw [hp]; exact le_rfl)
  | @release t type hp =>
    refine h.leaves release_pc ?_
    have hw := unlock_writes x.rw
    rw [hp, release_rw]
    show _ ≤ 0 + _ + _ - _
    omega
  | acquireDowngrade hp => exact h.moves rfl (by rw [hp]; exact le_rfl)
  | @downgraded t hp =>
    refine h.leaves downgraded_pc ?_
    have hw := downgrade_writes x.rw
    rw [hp, downgraded_rw]
    show _ ≤ 0 + _ + _ - _
    omega
  | leave hp => exact h.moves rfl (by rw [hp]; exact le_rfl)

theorem Inv.step_or (h : Inv x) (hc : Counts 0 x) (hs : Step (fun _ _ => True) x y) : Inv y ∨ Counts 1 y := by
  cases hs
  case sleep t type hp _ hm =>
    refine .inl (h.step (.sleep hp ?_ hm))
    rintro rfl hw
    -- a writer that finds the write mode does not wait, for there is no reader
    cases h.mode with
    | free ht => rw [ht] at hw; cases hw
    | read ht => rw [ht] at hw; cases hw
    | write v _ _ _ hcur => simp [RwLock.mustWait, hcur] at hm
  case enter t type hp _ hm =>
    by_cases hok : Careful type x.rw
    · exact .inl (h.step (.enter hp hok hm))
    · have hw : x.rw.type = RWLOCK_WRITE := by
        by_contra hne
        exact hok fun _ => hne
      have hcount := hc.enter hp
      rw [hw] at hcount
      exact .inr hcount
  all_goals exact .inl (h.step (by constructor <;> assumption))

theorem counted (h : Reach (· = init) (Step fun _ _ => True) x) : Inv x ∧ Counts 0 x ∨ Counts 1 x := by
  refine h.invariant (P := fun x => Inv x ∧ Counts 0 x ∨ Counts 1 x) (fun y hy => ?_) fun y z hy hs => ?_
  · subst hy
    refine .inl ⟨⟨.free rfl rfl rfl rfl, fun _ => trivial⟩, fun P hP => ?_⟩
    obtain rfl : P = ∅ := Finset.eq_empty_of_forall_notMem fun u hu => absurd (hP u hu) zero_ne_one
    exact le_rfl
  · rcases hy with ⟨hi, hc⟩ | hc
    · rcases hi.step_or hc hs with hi | hone
      · exact .inl ⟨hi, hc.step hs⟩
      · exact .inr hone
    · exact .inr (hc.step hs)

theorem numWriters_pos (h : Reach (· = init) (Step fun _ _ => True) x) (ht : x.pc t = .downgrading) :
    1 ≤ x.rw.numWriters := by
  rcases counted h with ⟨hi, hc⟩ | hc
  · have hheld := hi.fits t
    rw [ht] at hheld
    have hw : x.rw.type = RWLOCK_WRITE := hi.mode.right.write_iff.mpr ⟨t, hheld⟩
    have hle := hc ∅ (Finset.forall_mem_empty_iff _ |>.mpr trivial)
    rw [hw] at hle
    exact hle
  · have hle := hc ∅ (Finset.forall_mem_empty_iff _ |>.mpr trivial)
    have hw := writes_cases x.rw.type
    rw [Finset.card_empty, Nat.cast_zero] at hle
    omega

/-! ## What the reader finds -/

theorem mustWait_read (rw : RwLock) :
    rw.mustWait RWLOCK_READ = false ↔ rw.type ≠ RWLOCK_WRITE ∧ rw.numWriters ≤ 0 := by
  unfold RwLock.mustWait
  rw [if_neg (by decide), Bool.or_eq_false_iff, decide_eq_false_iff_not, decide_eq_false_iff_not, not_lt]

theorem Quiet.mustWait (h : Quiet x y) : y.rw.mustWait RWLOCK_READ = x.rw.mustWait RWLOCK_READ := by
  obtain ⟨-, hrw | ⟨t, -, hm, rfl⟩⟩ := h
  · rw [hrw]
  · rw [hm, mustWait_read]
    exact ⟨(by decide : RWLOCK_READ ≠ RWLOCK_WRITE), ((mustWait_read _).mp hm).2⟩

theorem quiet_mustWait (h : Relation.ReflTransGen Quiet x y) :
    y.rw.mustWait RWLOCK_READ = x.rw.mustWait RWLOCK_READ := by
  induction h with
  | refl => rfl
  | tail _ hq ih => rw [hq.mustWait, ih]

theorem retests (hu : Blocked RWLOCK_READ (x.pc u)) (ht : x.pc t = .leave) :
    ∃ y, Relation.ReflTransGen Quiet x y ∧ y.pc u = .test RWLOCK_READ := by
  have hne : u ≠ t := by
    rintro rfl
    rw [ht] at hu
    rcases hu with hu | hu <;> cases hu
  let left : RwRun θ := { x.goto t .out with mutex := true }
  have hleft : Quiet x left := ⟨.leave ht, .inl rfl⟩
  have hpc : left.pc u = x.pc u := Function.update_of_ne hne ..
  -- what is left once the thread is awake
  have hrest : ∀ y : RwRun θ, y.pc u = .relock RWLOCK_READ → y.mutex →
      ∃ z, Quiet y z ∧ z.pc u = .test RWLOCK_READ :=
    fun y hy hm => ⟨_, ⟨.reacquire hy hm, .inl rfl⟩, Function.update_self ..⟩
  rcases hu with hu | hu
  · have hwake : Quiet left (left.goto u (.relock RWLOCK_READ)) := ⟨.wake (hpc.trans hu), .inl rfl⟩
    obtain ⟨z, hz, hpz⟩ := hrest (left.goto u (.relock RWLOCK_READ)) (Function.update_self ..) rfl
    exact ⟨z, .head hleft (.head hwake (.single hz)), hpz⟩
  · obtain ⟨z, hz, hpz⟩ := hrest left (hpc.trans hu) rfl
    exact ⟨z, .head hleft (.single hz), hpz⟩

theorem admits_iff (hu : Blocked RWLOCK_READ (x.pc u)) (ht : x.pc t = .leave) :
    Admits x u ↔ x.rw.mustWait RWLOCK_READ = false := by
  constructor
  · intro h
    obtain ⟨y, hy, hpc⟩ := retests hu ht
    rw [← quiet_mustWait hy]
    exact h y hy hpc
  · intro h y hy _
    rw [quiet_mustWait hy, h]

end

/-- In every run: a reader that waits while a write holder downgrades is admitted if and
only if `num_writers` counted no other writer. -/
theorem downgrade_admits_iff {x : RwRun θ} (h : Reach (· = init) (Step fun _ _ => True) x) {t u : θ}
    (ht : x.pc t = .downgrading) (hu : Blocked RWLOCK_READ (x.pc u)) :
    Admits ((x.downgraded t).goto t .leave) u ↔ x.rw.type = RWLOCK_WRITE ∧ x.rw.numWriters = 1 := by
  have hne : u ≠ t := by
    rintro rfl
    rw [ht] at hu
    rcases hu with hu | hu <;> cases hu
  have hpc : ((x.downgraded t).goto t .leave).pc u = x.pc u := by
    rw [← x.downgraded_pc (t := t)]
    exact Function.update_of_ne hne ..
  rw [admits_iff (hpc ▸ hu) (Function.update_self ..)]
  show (x.downgraded t).rw.mustWait RWLOCK_READ = false ↔ _
  rw [downgraded_rw, mustWait_read]
  have hpos := numWriters_pos h ht
  unfold RwLock.downgrade
  by_cases hw : x.rw.type = RWLOCK_WRITE
  · rw [if_neg (not_not_intro hw)]
    show RWLOCK_READ ≠ RWLOCK_WRITE ∧ x.rw.numWriters - 1 ≤ 0 ↔ _
    have hmode : RWLOCK_READ ≠ RWLOCK_WRITE := by decide
    constructor
    · rintro ⟨-, hle⟩
      exact ⟨hw, by omega⟩
    · rintro ⟨-, hone⟩
      exact ⟨hmode, by omega⟩
  · rw [if_pos hw]
    constructor
    · rintro ⟨-, hle⟩
      omega
    · rintro ⟨ht, -⟩
      exact absurd ht hw

/-! ## Runs -/

inductive Act (θ : Type*) where
  | lock (t : θ) (type : Int)
  | unlock (t : θ) (type : Int)
  | downgrade (t : θ)
  | run (t : θ)

def next (t : θ) (x : RwRun θ) : Option (RwRun θ) :=
  match x.pc t with
  | .out => none
  | .lock type => if x.mutex then some { x.goto t (.start type) with mutex := false } else none
  | .start type => some { x.goto t (.test type) with rw := x.rw.lockStart type }
  | .test type =>
    if x.rw.mustWait type then some { x.goto t (.asleep type) with mutex := true }
    else some ((x.acquire t type).goto t .leave)
  | .asleep type => some (x.goto t (.relock type))
  | .relock type => if x.mutex then some { x.goto t (.test type) with mutex := false } else none
  | .unlock type => if x.mutex then some { x.goto t (.unlocking type) with mutex := false } else none
  | .unlocking type => some ((x.release t type).goto t .leave)
  | .downgrade => if x.mutex then some { x.goto t .downgrading with mutex := false } else none
  | .downgrading => some ((x.downgraded t).goto t .leave)
  | .leave => some { x.goto t .out with mutex := true }

def act (x : RwRun θ) : Act θ → Option (RwRun θ)
  | .lock t type =>
    if x.pc t = .out ∧ (type = RWLOCK_READ ∨ type = RWLOCK_WRITE) then some (x.goto t (.lock type)) else none
  | .unlock t type => if x.pc t = .out ∧ t ∈ x.holders type then some (x.goto t (.unlock type)) else none
  | .downgrade t => if x.pc t = .out ∧ t ∈ x.writers then some (x.goto t .downgrade) else none
  | .run t => x.next t

theorem next_step {x y : RwRun θ} {t : θ} (h : x.next t = some y) : Step (fun _ _ => True) x y := by
  unfold next at h
  split at h
  case h_1 => cases h
  all_goals first | split_ifs at h with hc | skip
  all_goals
    cases h
    first
    | exact .acquire ‹_› hc
    | exact .start ‹_›
    | exact .sleep ‹_› trivial hc
    | exact .enter ‹_› trivial (Bool.eq_false_iff.mpr hc)
    | exact .wake ‹_›
    | exact .reacquire ‹_› hc
    | exact .acquireUnlock ‹_› hc
    | exact .release ‹_›
    | exact .acquireDowngrade ‹_› hc
    | exact .downgraded ‹_›
    | exact .leave ‹_›

theorem act_step (x : RwRun θ) (a : Act θ) (y : RwRun θ) (h : x.act a = some y) : Step (fun _ _ => True) x y := by
  cases a with
  | lock t type =>
    obtain ⟨hc, hy⟩ := Option.ite_none_right_eq_some.mp h
    cases hy
    exact .lock hc.1 hc.2
  | unlock t type =>
    obtain ⟨hc, hy⟩ := Option.ite_none_right_eq_some.mp h
    cases hy
    exact .unlock hc.1 hc.2
  | downgrade t =>
    obtain ⟨hc, hy⟩ := Option.ite_none_right_eq_some.mp h
    cases hy
    exact .downgrade hc.1 hc.2
  | run t => exact next_step h

def call (a : Act θ) (t : θ) (n : Nat) : List (Act θ) := a :: List.replicate n (.run t)

/-- A reader waits while the only writer downgrades. -/
theorem downgrade_admits_one : ∃ x : RwRun (Fin 2), x.pc 1 = .asleep RWLOCK_READ ∧
    Admits ((x.downgraded 0).goto 0 .leave) 1 := by
  have h₀ : Reach (· = init) (Step fun _ _ => True) (init : RwRun (Fin 2)) := .start rfl
  obtain ⟨x, hx, hp⟩ := h₀.script act_step (l := call (.lock 0 RWLOCK_WRITE) 0 4 ++ call (.lock 1 RWLOCK_READ) 1 3 ++
    call (.downgrade 0) 0 1)
    (p := fun x => x.pc 0 = .downgrading ∧ x.pc 1 = .asleep RWLOCK_READ ∧ x.rw.type = RWLOCK_WRITE ∧
      x.rw.numWriters = 1) (by decide +kernel)
  obtain ⟨ht, hu, hrw⟩ := of_decide_eq_true hp
  exact ⟨x, hu, (downgrade_admits_iff hx ht (.inl hu)).mpr hrw⟩

/-- Two writers wait for a reader. The first one gets the lock and downgrades; another
reader that waits is not admitted then. -/
theorem downgrade_leaves_reader : ∃ x : RwRun (Fin 4), Reach (· = init) (Step fun _ _ => True) x ∧
    x.pc 1 = .downgrading ∧ 1 ∈ x.writers ∧ x.pc 2 = .asleep RWLOCK_WRITE ∧ x.pc 3 = .asleep RWLOCK_READ ∧
      ¬ Admits ((x.downgraded 1).goto 1 .leave) 3 := by
  have h₀ : Reach (· = init) (Step fun _ _ => True) (init : RwRun (Fin 4)) := .start rfl
  obtain ⟨x, hx, hp⟩ := h₀.script act_step (l := call (.lock 0 RWLOCK_READ) 0 4 ++ call (.lock 1 RWLOCK_WRITE) 1 3 ++
    call (.lock 2 RWLOCK_WRITE) 2 3 ++ call (.lock 3 RWLOCK_READ) 3 3 ++ call (.unlock 0 RWLOCK_READ) 0 3 ++
    call (.run 1) 1 3 ++ call (.downgrade 1) 1 1)
    (p := fun x => x.pc 1 = .downgrading ∧ 1 ∈ x.writers ∧ x.pc 2 = .asleep RWLOCK_WRITE ∧
      x.pc 3 = .asleep RWLOCK_READ ∧ ((x.downgraded 1).goto 1 .leave).pc 3 = .asleep RWLOCK_READ ∧
      ((x.downgraded 1).goto 1 .leave).rw.mustWait RWLOCK_READ) (by decide +kernel)
  obtain ⟨ht, hw, h₂, hu, hu', hm⟩ := of_decide_eq_true hp
  refine ⟨x, hx, ht, hw, h₂, hu, ?_⟩
  rw [admits_iff (.inl hu') (Function.update_self ..), hm]
  decide

end RwRun

end Pebbles
