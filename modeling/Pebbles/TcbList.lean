import Pebbles.Lists
import Pebbles.Threads

/-!
# The list of TCBs

`thr_init`, `thr_create`, `thr_exit` and `thr_join` as whole calls, on the pointers of
the list that they share. What `malloc` and `thread_fork` answer is part of a call. A
call that does not return, or waits for another one, has no result.
-/

namespace Pebbles.User

open Ring Runs Function Words

inductive TcbNode where
  | null
  | head
  | tcb (a : Word)
  deriving DecidableEq

def ERR_NOMEM : Int := -3

def MAX_TCBS : Nat := 2 ^ 32

def STACK_PADDING (size : Word) : Word := if size % 4#32 = 0#32 then 0#32 else 4#32 - size % 4#32

/-- The variables of `thread.c` and the TCBs. `used` are the TCBs that `malloc` has given
out. `owner` is kept for the statements only: the TCB of each thread that was registered
and not yet joined. -/
structure TcbLib where
  stackSize : Word
  links : Links TcbNode
  tcb : Word → Tcb
  tcbLock : Int
  used : Word → Bool
  owner : Int → Option Word

inductive TcbCall where
  /-- `t` is the calling thread and `m` the answer of `malloc`. -/
  | init (size : Word) (t : Int) (m : Option Word)
  /-- `stack` is whether there is memory for the stack, `m` the memory for the TCB and
  `tid` the answer of `thread_fork`. -/
  | create (stack : Bool) (m : Option Word) (tid : Int)
  | exit (t : Int) (status : Word)
  | join (tid : Int) (statusp : Bool)

namespace TcbLib

def setTcb (a : Word) (f : Tcb → Tcb) (s : TcbLib) : TcbLib := { s with tcb := update s.tcb a (f (s.tcb a)) }

def lockList (s : TcbLib) : Option TcbLib := (mutexLock s.tcbLock).map fun v => { s with tcbLock := v }

def unlockList (s : TcbLib) : TcbLib := { s with tcbLock := mutexUnlock s.tcbLock }

def findFrom (tid : Int) (s : TcbLib) : Nat → TcbNode → Option (Option Word)
  | _, .null | _, .head => some none
  | 0, .tcb _ => none
  | n + 1, .tcb a => if (s.tcb a).id = tid then some (some a) else findFrom tid s n (s.links.next (.tcb a))

def findTcb (tid : Int) (s : TcbLib) : Option (Option Word) :=
  match getFirst .head s.links with
  | none => some none
  | some p => s.findFrom tid MAX_TCBS p

/-- `init_tcb(NULL)` in memory that `malloc` has returned; the two other functions that it
calls fail only for `NULL`. -/
def newTcb (a : Word) (s : TcbLib) : TcbLib := { s.setTcb a (initTcb 0#32) with used := update s.used a true }

def addTcb (tid : Int) (a : Word) (s : TcbLib) : TcbLib :=
  { s.setTcb a fun tcb => { tcb with id := tid } with links := addToTail (.tcb a) .head s.links }

def removeTcb (a : Word) (s : TcbLib) : TcbLib :=
  let s := { s with links := delEntry (.tcb a) s.links }
  let s := s.setTcb a fun tcb => { tcb with tcbMutex := MUTEX_INVALID }
  let s := s.setTcb a fun tcb => { tcb with waitingThreads := condDestroy tcb.waitingThreads }
  { s with used := update s.used a false }

def thrInit (size : Word) (t : Int) (m : Option Word) (s : TcbLib) : Int × TcbLib :=
  let s := { s with
    stackSize := size + STACK_PADDING size
    tcbLock := MUTEX_VALID
    links := initHead .head s.links }
  match m with
  | none => (ERR_INVAL, s)
  | some a => (0, { (s.newTcb a).addTcb t a with owner := update s.owner t (some a) })

/-- The answer of `thread_fork` is not looked at. -/
def thrCreate (stack : Bool) (m : Option Word) (tid : Int) (s : TcbLib) : Option (Int × TcbLib) :=
  if stack then
    match m with
    | none => some (ERR_INVAL, s)
    | some a =>
      (s.newTcb a).lockList.map fun s =>
        (tid, { (s.addTcb tid a).unlockList with owner := if tid < 0 then s.owner else update s.owner tid (some a) })
  else some (ERR_NOMEM, s)

def lookUp (tid : Int) (s : TcbLib) : Option (Option Word × TcbLib) :=
  s.lockList.bind fun s => (s.findTcb tid).map fun r => (r, s.unlockList)

/-- `init_tcb` is always passed `NULL`, so there is no stack to free. -/
def thrExit (t : Int) (status : Word) (s : TcbLib) : Option TcbLib :=
  match s.lookUp t with
  | none => none
  | some (none, s) => some s
  | some (some a, s) =>
    (mutexLock (s.tcb a).tcbMutex).map fun v =>
      s.setTcb a fun tcb => { tcb with tcbMutex := mutexUnlock v, exited := TRUE, status := status }

/-- The return value, what is written through `statusp` and the state. -/
def thrJoin (tid : Int) (statusp : Bool) (s : TcbLib) : Option (Int × Option Word × TcbLib) :=
  if tid < 0 then some (ERR_INVAL, none, s)
  else
    match s.lookUp tid with
    | none => none
    | some (none, s) => some (ERR_INVAL, none, s)
    | some (some a, s) =>
      (mutexLock (s.tcb a).tcbMutex).bind fun v =>
        let s := s.setTcb a fun tcb => { tcb with tcbMutex := v }
        if (s.tcb a).exited ≠ TRUE then none
        else
          s.lockList.map fun t =>
            (0, if statusp then some (s.tcb a).status else none,
              { (t.removeTcb a).unlockList with owner := update t.owner tid none })

def exec (s : TcbLib) : TcbCall → Option (Int × TcbLib)
  | .init size t m => some (s.thrInit size t m)
  | .create stack m tid => s.thrCreate stack m tid
  | .exit t status => (s.thrExit t status).map fun s => (0, s)
  | .join tid statusp => (s.thrJoin tid statusp).map fun r => (r.1, r.2.2)

/-- `malloc` returns memory that is not in use, and the id of a new thread is not that of a
thread that can still be joined. -/
def Allowed (s : TcbLib) : TcbCall → Prop
  | .init _ t m => 0 ≤ t ∧ ∀ a ∈ m, s.used a = false
  | .create _ m tid => (∀ a ∈ m, s.used a = false) ∧ (0 ≤ tid → s.owner tid = none)
  | .exit _ _ | .join _ _ => True

structure Start (s : TcbLib) : Prop where
  next : s.links.next .head = .null
  tcbLock : s.tcbLock = 0
  used : ∀ a, s.used a = false
  owner : ∀ t, s.owner t = none

def Step (ok : TcbLib → TcbCall → Prop) (s s' : TcbLib) : Prop :=
  ∃ c r, s.Allowed c ∧ ok s c ∧ s.exec c = some (r, s')

def Listed (s : TcbLib) (l : List Word) : Prop :=
  IsRing s.links .head (l.map .tcb) ∨ s.links.next .head = .null ∧ l = []

structure Right (s : TcbLib) : Prop where
  list : ∃ l, s.Listed l ∧ (l.map fun a => (s.tcb a).id).Nodup ∧ (∀ a ∈ l, 0 ≤ (s.tcb a).id) ∧
    ∀ tid a, s.owner tid = some a ↔ a ∈ l ∧ (s.tcb a).id = tid
  find : ∀ tid, s.findTcb tid = some (s.owner tid)

/-- `thr_init` is called while no thread can be joined, and `thread_fork` does not fail. -/
def Careful (s : TcbLib) : TcbCall → Prop
  | .init _ _ _ => ∀ t, s.owner t = none
  | .create stack m tid => stack → m.isSome → 0 ≤ tid
  | .exit _ _ | .join _ _ => True

section
variable {s s' : TcbLib} {l : List Word} {a : Word} {tid : Int}

/-! ## find_tcb -/

theorem findFrom_eq : ∀ (rest pre : List Word) (n : Nat), IsRing s.links .head ((pre ++ rest).map .tcb) →
    rest.length ≤ n →
      s.findFrom tid n ((rest.map TcbNode.tcb).headD .head) = some (rest.find? fun a => (s.tcb a).id = tid) := by
  intro rest
  induction rest with
  | nil =>
    intro pre n _ _
    unfold findFrom
    rfl
  | cons a rest ih =>
    intro pre n hr hn
    cases n with
    | zero => simp at hn
    | succ n =>
      have hr' : IsRing s.links .head (pre.map .tcb ++ .tcb a :: rest.map .tcb) := by simpa using hr
      have hrest := ih (pre ++ [a]) n (by simpa using hr) (by simpa using hn)
      rw [List.map_cons, List.headD_cons, findFrom, hr'.next_mid, hrest, List.find?_cons]
      by_cases he : (s.tcb a).id = tid <;> simp [he]

theorem findTcb_eq (h : s.Listed l) : s.findTcb tid = some (l.find? fun a => (s.tcb a).id = tid) := by
  unfold findTcb
  obtain hr | ⟨hnull, rfl⟩ := h
  · rw [getFirst_eq hr]
    cases l with
    | nil => rfl
    | cons a l =>
      have hlen : (a :: l).length ≤ MAX_TCBS := length_le_of_nodup (List.nodup_cons.mp hr.nodup).2.of_map
      exact findFrom_eq (a :: l) [] MAX_TCBS hr hlen
  · unfold getFirst
    rw [hnull, if_neg (by decide)]
    dsimp only
    unfold findFrom
    rfl

/-! ## The invariant -/

structure Inv (s : TcbLib) (l : List Word) : Prop where
  ring : s.tcbLock ≠ 0 → IsRing s.links .head (l.map .tcb)
  unset : s.tcbLock = 0 → s.links.next .head = .null ∧ l = []
  owner : ∀ tid a, s.owner tid = some a ↔ a ∈ l ∧ (s.tcb a).id = tid
  nonneg : ∀ a ∈ l, 0 ≤ (s.tcb a).id
  used : ∀ a ∈ l, s.used a = true

theorem Inv.listed (h : Inv s l) : s.Listed l := by
  by_cases hlock : s.tcbLock = 0
  · exact .inr (h.unset hlock)
  · exact .inl (h.ring hlock)

theorem Inv.find (h : Inv s l) : (l.find? fun a => (s.tcb a).id = tid) = s.owner tid := by
  cases hf : l.find? fun a => (s.tcb a).id = tid with
  | some a =>
    have hid : (s.tcb a).id = tid := by simpa using List.find?_some hf
    exact ((h.owner tid a).mpr ⟨List.mem_of_find?_eq_some hf, hid⟩).symm
  | none =>
    symm
    rw [Option.eq_none_iff_forall_ne_some]
    intro a ho
    obtain ⟨hm, hid⟩ := (h.owner tid a).mp ho
    exact List.find?_eq_none.mp hf a hm (decide_eq_true hid)

theorem Listed.nodup (h : s.Listed l) : l.Nodup := by
  obtain hr | ⟨-, rfl⟩ := h
  · exact (List.nodup_cons.mp hr.nodup).2.of_map
  · exact List.nodup_nil

theorem Inv.right (h : Inv s l) : Right s := by
  refine ⟨⟨l, h.listed, ?_, h.nonneg, h.owner⟩, fun tid => ?_⟩
  · -- two TCBs of one id belong to one thread
    refine List.Nodup.map_on (fun a ha b hb he => ?_) h.listed.nodup
    have hown := (h.owner _ b).mpr ⟨hb, rfl⟩
    rw [← he, (h.owner _ a).mpr ⟨ha, rfl⟩] at hown
    exact Option.some.inj hown
  · rw [findTcb_eq h.listed, h.find]

theorem Inv.notMem (h : Inv s l) (hu : s.used a = false) : a ∉ l := by
  intro hm
  rw [h.used a hm] at hu
  cases hu

theorem Inv.add (h : Inv s l) (hlock : s.tcbLock ≠ 0) (hu : s.used a = false) (htid : 0 ≤ tid)
    (hnew : s.owner tid = none) (hlock' : s'.tcbLock ≠ 0) (hlinks : s'.links = addToTail (.tcb a) .head s.links)
    (hid : ∀ b, (s'.tcb b).id = if b = a then tid else (s.tcb b).id) (hused : s'.used = update s.used a true)
    (howner : s'.owner = update s.owner tid (some a)) : Inv s' (l ++ [a]) := by
  have ha := h.notMem hu
  have hold : ∀ {b}, b ∈ l → (s'.tcb b).id = (s.tcb b).id := by
    intro b hb
    rw [hid, if_neg (ne_of_mem_of_not_mem hb ha)]
  have hself : (s'.tcb a).id = tid := by rw [hid, if_pos rfl]
  refine ⟨fun _ => ?_, fun h₀ => absurd h₀ hlock', fun r b => ?_, fun b hb => ?_, fun b hb => ?_⟩
  · rw [hlinks, List.map_append]
    exact addToTail_ring (h.ring hlock) (by simpa using ha)
  · rw [howner, List.mem_append, List.mem_singleton]
    by_cases hr : r = tid
    · subst hr
      rw [update_self, Option.some.injEq]
      constructor
      · rintro rfl
        exact ⟨.inr rfl, hself⟩
      · rintro ⟨hb | hb, hr⟩
        · have hb' := (h.owner r b).mpr ⟨hb, hold hb ▸ hr⟩
          rw [hnew] at hb'
          cases hb'
        · exact hb.symm
    · rw [update_of_ne hr, h.owner]
      constructor
      · rintro ⟨hb, hr⟩
        exact ⟨.inl hb, (hold hb).trans hr⟩
      · rintro ⟨hb | hb, hr'⟩
        · exact ⟨hb, hold hb ▸ hr'⟩
        · rw [hb, hself] at hr'
          exact absurd hr'.symm hr
  · rcases List.mem_append.mp hb with hb | hb
    · rw [hold hb]
      exact h.nonneg b hb
    · rw [List.mem_singleton.mp hb, hself]
      exact htid
  · rw [hused]
    rcases List.mem_append.mp hb with hb | hb
    · rw [update_of_ne (ne_of_mem_of_not_mem hb ha)]
      exact h.used b hb
    · rw [List.mem_singleton.mp hb, update_self]

theorem Inv.remove (h : Inv s l) (hlock : s.tcbLock ≠ 0) (ho : s.owner tid = some a) (hlock' : s'.tcbLock ≠ 0)
    (hlinks : s'.links = delEntry (.tcb a) s.links) (hid : ∀ b, (s'.tcb b).id = (s.tcb b).id)
    (hused : ∀ b, b ≠ a → s'.used b = s.used b) (howner : s'.owner = update s.owner tid none) :
    Inv s' (l.erase a) := by
  obtain ⟨hm, htid⟩ := (h.owner tid a).mp ho
  have hmem : ∀ {b}, b ∈ l.erase a ↔ b ≠ a ∧ b ∈ l := h.listed.nodup.mem_erase_iff
  refine ⟨fun _ => ?_, fun h₀ => absurd h₀ hlock', fun r b => ?_, fun b hb => ?_, fun b hb => ?_⟩
  · obtain ⟨l₁, l₂, rfl, ha₁⟩ := List.eq_append_cons_of_mem hm
    have hr := h.ring hlock
    rw [List.map_append, List.map_cons] at hr
    rw [hlinks, List.erase_append_right _ ha₁, List.erase_cons_head, List.map_append]
    exact delEntry_ring hr
  · rw [howner, hmem, hid]
    by_cases hr : r = tid
    · subst hr
      rw [update_self]
      refine iff_of_false (by simp) ?_
      rintro ⟨⟨hne, hb⟩, hr⟩
      have hb' := (h.owner r b).mpr ⟨hb, hr⟩
      rw [ho, Option.some.injEq] at hb'
      exact hne hb'.symm
    · rw [update_of_ne hr, h.owner]
      constructor
      · rintro ⟨hb, hr'⟩
        refine ⟨⟨?_, hb⟩, hr'⟩
        rintro rfl
        exact hr (hr'.symm.trans htid)
      · rintro ⟨⟨-, hb⟩, hr'⟩
        exact ⟨hb, hr'⟩
  · rw [hid]
    exact h.nonneg b (hmem.mp hb).2
  · rw [hused b (hmem.mp hb).1]
    exact h.used b (hmem.mp hb).2

theorem Inv.same (h : Inv s l) (hlock : s.tcbLock ≠ 0) (hlock' : s'.tcbLock ≠ 0) (hlinks : s'.links = s.links)
    (hid : ∀ b, (s'.tcb b).id = (s.tcb b).id) (hused : s'.used = s.used) (howner : s'.owner = s.owner) : Inv s' l := by
  refine ⟨fun _ => ?_, fun h₀ => absurd h₀ hlock', fun r b => ?_, fun b hb => ?_, fun b hb => ?_⟩
  · rw [hlinks]
    exact h.ring hlock
  · rw [howner, hid]
    exact h.owner r b
  · rw [hid]
    exact h.nonneg b hb
  · rw [hused]
    exact h.used b hb

/-! ## Every call -/

theorem lockList_eq_some : s.lockList = some s' ↔ s.tcbLock ≠ 0 ∧ s' = { s with tcbLock := 0 } := by
  unfold lockList
  simp only [Option.map_eq_some_iff, mutexLock_eq_some]
  constructor
  · rintro ⟨v, ⟨hne, rfl⟩, rfl⟩
    exact ⟨hne, rfl⟩
  · rintro ⟨hne, rfl⟩
    exact ⟨0, ⟨hne, rfl⟩, rfl⟩

theorem update_id {f : Word → Tcb} {tcb : Tcb} (b : Word) :
    (update f a tcb b).id = if b = a then tcb.id else (f b).id := by
  by_cases hb : b = a
  · rw [if_pos hb, hb, update_self]
  · rw [if_neg hb, update_of_ne hb]

theorem id_kept {f : Word → Tcb} {tcb : Tcb} (h : tcb.id = (f a).id) (b : Word) : (update f a tcb b).id = (f b).id := by
  rw [update_id, h, ite_eq_right_iff]
  rintro rfl
  rfl

theorem addTcb_id (b : Word) : (((s.newTcb a).addTcb tid a).tcb b).id = if b = a then tid else (s.tcb b).id := by
  show (update (update s.tcb a _) a _ b).id = _
  rw [update_id, id_kept]
  rfl

theorem removeTcb_id (b : Word) : ((s.removeTcb a).tcb b).id = (s.tcb b).id := by
  show (update (update s.tcb a _) a _ b).id = _
  rw [id_kept, id_kept] <;> rfl

theorem Inv.lookUp {r : Option Word} (h : Inv s l) (he : s.lookUp tid = some (r, s')) :
    s.tcbLock ≠ 0 ∧ r = s.owner tid ∧ s' = { s with tcbLock := 1 } := by
  unfold TcbLib.lookUp at he
  obtain ⟨s₁, hs₁, he⟩ := Option.bind_eq_some_iff.mp he
  obtain ⟨hlock, rfl⟩ := lockList_eq_some.mp hs₁
  have hlist : ({ s with tcbLock := 0 } : TcbLib).Listed l := h.listed
  rw [findTcb_eq hlist, Option.map_some, Option.some.injEq, Prod.mk.injEq] at he
  exact ⟨hlock, he.1.symm.trans h.find, he.2.symm⟩

theorem Inv.init {t : Int} {m : Option Word} (h : Inv s l) (size : Word) (ht : 0 ≤ t)
    (hm : ∀ a ∈ m, s.used a = false) (hfree : ∀ t, s.owner t = none) : ∃ l', Inv (s.thrInit size t m).2 l' := by
  have hlock : MUTEX_VALID ≠ 0 := by decide
  obtain rfl : l = [] := by
    refine List.eq_nil_iff_forall_not_mem.mpr fun a ha => ?_
    have ho := (h.owner _ a).mpr ⟨ha, rfl⟩
    rw [hfree] at ho
    cases ho
  -- the empty list, before the calling thread is added to it
  have hempty : Inv { s with
      stackSize := size + STACK_PADDING size
      tcbLock := MUTEX_VALID
      links := initHead .head s.links } [] :=
    ⟨fun _ => initHead_ring _ _, fun h₀ => absurd h₀ hlock, h.owner, h.nonneg, h.used⟩
  cases m with
  | none => exact ⟨[], hempty⟩
  | some a =>
    exact ⟨[a], hempty.add hlock (hm a rfl) ht (hfree t) hlock rfl addTcb_id rfl rfl⟩

theorem Inv.create {stack : Bool} {m : Option Word} {r : Int} (h : Inv s l) (hm : ∀ a ∈ m, s.used a = false)
    (hnew : 0 ≤ tid → s.owner tid = none) (hok : stack → m.isSome → 0 ≤ tid)
    (he : s.thrCreate stack m tid = some (r, s')) : (∃ l', Inv s' l') ∧ (r < 0 → s' = s) := by
  unfold thrCreate at he
  by_cases hstack : stack = true
  · rw [if_pos hstack] at he
    cases m with
    | none =>
      cases he
      exact ⟨⟨l, h⟩, fun _ => rfl⟩
    | some a =>
      have htid := hok hstack rfl
      obtain ⟨s₁, hs₁, he⟩ := Option.map_eq_some_iff.mp he
      obtain ⟨hlock, rfl⟩ := lockList_eq_some.mp hs₁
      rw [if_neg (not_lt.mpr htid)] at he
      cases he
      refine ⟨⟨l ++ [a], h.add hlock (hm a rfl) htid (hnew htid) one_ne_zero rfl addTcb_id rfl rfl⟩, fun hr => ?_⟩
      omega
  · rw [if_neg hstack] at he
    cases he
    exact ⟨⟨l, h⟩, fun _ => rfl⟩

theorem Inv.exit {t : Int} {status : Word} (h : Inv s l) (he : s.thrExit t status = some s') : Inv s' l := by
  unfold thrExit at he
  split at he
  · cases he
  · rename_i s₁ hl
    obtain ⟨hlock, -, rfl⟩ := h.lookUp hl
    cases he
    exact h.same hlock one_ne_zero rfl (fun _ => rfl) rfl rfl
  · rename_i a s₁ hl
    obtain ⟨hlock, -, rfl⟩ := h.lookUp hl
    obtain ⟨v, -, rfl⟩ := Option.map_eq_some_iff.mp he
    exact h.same hlock one_ne_zero rfl (id_kept rfl) rfl rfl

theorem Inv.join {statusp : Bool} {r : Int × Option Word × TcbLib} (h : Inv s l) (he : s.thrJoin tid statusp = some r) :
    ∃ l', Inv r.2.2 l' := by
  unfold thrJoin at he
  by_cases htid : tid < 0
  · rw [if_pos htid] at he
    cases he
    exact ⟨l, h⟩
  · rw [if_neg htid] at he
    split at he
    · cases he
    · rename_i s₁ hl
      obtain ⟨hlock, -, rfl⟩ := h.lookUp hl
      cases he
      exact ⟨l, h.same hlock one_ne_zero rfl (fun _ => rfl) rfl rfl⟩
    · rename_i a s₁ hl
      obtain ⟨hlock, ho, rfl⟩ := h.lookUp hl
      obtain ⟨v, -, he⟩ := Option.bind_eq_some_iff.mp he
      dsimp only at he
      split at he
      · cases he
      · obtain ⟨s₂, hs₂, rfl⟩ := Option.map_eq_some_iff.mp he
        obtain ⟨-, rfl⟩ := lockList_eq_some.mp hs₂
        have hv : ∀ b, (update s.tcb a { s.tcb a with tcbMutex := v } b).id = (s.tcb b).id := id_kept rfl
        exact ⟨l.erase a, h.remove hlock ho.symm one_ne_zero rfl (fun b => (removeTcb_id b).trans (hv b))
          (fun b hb => update_of_ne hb ..) rfl⟩

theorem Inv.step (h : ∃ l, Inv s l) (hs : Step Careful s s') : ∃ l, Inv s' l := by
  obtain ⟨l, h⟩ := h
  obtain ⟨c, r, ha, hok, he⟩ := hs
  cases c with
  | init size t m =>
    obtain rfl : (s.thrInit size t m).2 = s' := congrArg Prod.snd (Option.some.inj he)
    exact h.init size ha.1 ha.2 hok
  | create stack m tid => exact (h.create ha.1 ha.2 hok he).1
  | exit t status =>
    obtain ⟨s₁, hs₁, he⟩ := Option.map_eq_some_iff.mp he
    cases he
    exact ⟨l, h.exit hs₁⟩
  | join tid statusp =>
    obtain ⟨q, hq, he⟩ := Option.map_eq_some_iff.mp he
    cases he
    exact h.join hq

theorem Start.inv (h : Start s) : Inv s [] := by
  refine ⟨fun hlock => absurd h.tcbLock hlock, fun _ => ⟨h.next, rfl⟩, fun tid a => ?_, by simp, by simp⟩
  rw [h.owner]
  simp

end

/-- In every sequence of calls in which `thr_init` is not called while a thread can be
joined and `thread_fork` does not fail, the list is right, and a call of `thr_create` that
returns an error leaves it. -/
theorem tcb_list_exact {s : TcbLib} (h : Reach Start (Step Careful) s) :
    s.Right ∧ ∀ stack m tid r s', s.Allowed (.create stack m tid) → s.Careful (.create stack m tid) →
      s.exec (.create stack m tid) = some (r, s') → r < 0 → s'.links = s.links ∧ s'.tcb = s.tcb := by
  have hinv : ∃ l, Inv s l := h.invariant (fun _ hs => ⟨[], hs.inv⟩) fun _ _ hi hs => Inv.step hi hs
  obtain ⟨l, hi⟩ := hinv
  refine ⟨hi.right, fun stack m tid r s' ha hok he hr => ?_⟩
  rw [(hi.create ha.1 ha.2 hok he).2 hr]
  exact ⟨rfl, rfl⟩

def zeroed : TcbLib where
  stackSize := 0#32
  links := ⟨fun _ => .null, fun _ => .null⟩
  tcb _ := ⟨0, FALSE, 0#32, 0#32, condInit, MUTEX_INVALID⟩
  tcbLock := 0
  used _ := false
  owner _ := none

theorem zeroed_start : Start zeroed := ⟨rfl, rfl, fun _ => rfl, fun _ => rfl⟩

def booted : TcbLib := (zeroed.thrInit 4096#32 1 (some 0#32)).2

theorem reach_booted (ok : TcbLib → TcbCall → Prop) (hok : ok zeroed (.init 4096#32 1 (some 0#32))) :
    Reach Start (Step ok) booted := by
  have ha : zeroed.Allowed (.init 4096#32 1 (some 0#32)) := ⟨zero_le_one, fun _ _ => rfl⟩
  exact (Reach.start zeroed_start).tail ⟨_, _, ha, hok, rfl⟩

theorem booted_allows {tid : Int} (h : tid ≠ 1) : booted.Allowed (.create true (some 1#32) tid) := by
  refine ⟨fun a ha => ?_, fun _ => update_of_ne h ..⟩
  cases ha
  rfl

/-- Thread 1 starts thread 2. -/
theorem tcb_list_exact_two : ∃ s : TcbLib, s.owner 1 = some 0#32 ∧ s.owner 2 = some 1#32 ∧ s.Right := by
  have h₁ := reach_booted Careful fun _ => rfl
  have h₂ := h₁.tail ⟨.create true (some 1#32) 2, _, booted_allows (by decide), fun _ _ => by decide, rfl⟩
  exact ⟨_, rfl, rfl, (tcb_list_exact h₂).1⟩

/-- `thread_fork` fails: the call returns an error, and the list has a TCB with a negative
id that belongs to no thread. -/
theorem failed_fork_listed : ∃ s s' : TcbLib, Reach Start (Step fun _ _ => True) s ∧
    s.Allowed (.create true (some 1#32) (-1)) ∧ s.exec (.create true (some 1#32) (-1)) = some (-1, s') ∧
    s.findTcb (-1) = some none ∧ s'.findTcb (-1) = some (some 1#32) ∧ s'.owner (-1) = none ∧ ¬ s'.Right := by
  have h₁ := reach_booted (fun _ _ => True) trivial
  refine ⟨booted, _, h₁, booted_allows (by decide), rfl, by decide +kernel, by decide +kernel, rfl, fun hr => ?_⟩
  have hf := hr.find (-1)
  exact absurd hf (by decide +kernel)

end TcbLib

end Pebbles.User
