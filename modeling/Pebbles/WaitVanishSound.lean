import Pebbles.ForkSound
import Pebbles.WaitVanish

/-!
# What wait and vanish do to the lists

Each function of `wait_vanish.c` and `cond_var.c` as a change of the family of
lists. The heads `H` are any family that has the lists in question.
-/

namespace Pebbles

open Words Ring

namespace Kernel

section
variable {k k' : Kernel} {H : Set Node} {ls : Node → List Node} {t p thr : Word} {ts : List Word}

/-! ## Waking threads -/

def wakeAll (ts : List Word) (k : Kernel) : Kernel :=
  { k with
    thread := fun thr => if thr ∈ ts then { k.thread thr with status := .runnable } else k.thread thr
    runq := k.runq ++ ts
    links := ts.foldl (fun L thr => delEntry (.condWaitLink thr) L) k.links }

theorem wakeAll_nil (k : Kernel) : wakeAll [] k = k := by
  simp [wakeAll]

theorem wakeAll_snoc (ts : List Word) (thr : Word) (k : Kernel) :
    wakeAll (ts ++ [thr]) k = (wakeAll ts k).wake thr := by
  have hthread : (fun x => if x ∈ ts ++ [thr] then { k.thread x with status := .runnable } else k.thread x) =
      ((wakeAll ts k).wake thr).thread := by
    funext x
    by_cases hx : x = thr <;> by_cases hm : x ∈ ts <;>
      simp_all [wakeAll, wake, setThread, withLinks, runqAddThread]
  unfold wakeAll
  rw [hthread]
  simp [wake, setThread, withLinks, runqAddThread, wakeAll]

theorem condSignal_eq (hr : Rings k.links H ls) (hq : .exitCondVar t ∈ H)
    (hts : ls (.exitCondVar t) = ts.map .condWaitLink) : k.condSignal t = some (wakeAll (ts.take 1) k) := by
  unfold condSignal
  rw [getFirst_eq (hr.ring _ hq), hts]
  cases ts with
  | nil => simp [wakeAll_nil]
  | cons thr ts =>
    have hone : wakeAll [thr] k = k.wake thr := (wakeAll_snoc [] thr k).trans (by rw [wakeAll_nil])
    simp [wakeLink, hone]

theorem wake_rings (hr : Rings k.links H ls) (hq : .exitCondVar t ∈ H)
    (hts : ls (.exitCondVar t) = (thr :: ts).map .condWaitLink) :
    Rings (k.wake thr).links H (Function.update ls (.exitCondVar t) (ts.map .condWaitLink)) := by
  have hd := delEntry_rings hr hq (n := .condWaitLink thr) (by simp [hts])
  rwa [hts, List.map_cons, List.erase_cons_head] at hd

theorem wakeAll_rings {woken : List Word} (hr : Rings k.links H ls) (hq : .exitCondVar t ∈ H)
    (hts : ls (.exitCondVar t) = (woken ++ ts).map .condWaitLink) :
    Rings (wakeAll woken k).links H (Function.update ls (.exitCondVar t) (ts.map .condWaitLink)) := by
  induction woken using List.reverseRecOn generalizing ts with
  | nil =>
    rw [wakeAll_nil]
    exact hr.congr fun h _ => by
      rw [Function.update_apply]
      split_ifs with e
      · rw [e, hts, List.nil_append]
      · rfl
  | append_singleton woken thr ih =>
    have h₁ := @ih (thr :: ts) (by rw [hts]; simp)
    rw [wakeAll_snoc]
    have h₂ := wake_rings h₁ hq (Function.update_self ..)
    rwa [Function.update_idem] at h₂

theorem condBroadcast_eq (hr : Rings k.links H ls) (hq : .exitCondVar t ∈ H)
    (hts : ls (.exitCondVar t) = ts.map .condWaitLink) : k.condBroadcast t = some (wakeAll ts k) := by
  have hring := hr.ring _ hq
  unfold condBroadcast
  rw [getFirst_eq hring, hts]
  cases ts with
  | nil => simp [wakeAll_nil]
  | cons thr ts =>
    have hlen : ((thr :: ts).map Node.condWaitLink).length ≤ ADDRESSES := by
      rw [List.length_map]
      refine length_le_of_nodup ?_
      have hnd := (List.nodup_cons.mp hring.nodup).2
      rw [hts] at hnd
      exact hnd.of_map
    -- what is left of the list is the ring of the condition variable
    have hrule := forEach_rule Kernel.links (h := Node.exitCondVar t) (f := wakeLink)
      (P := fun l s => ∃ done todo, thr :: ts = done ++ todo ∧ l = todo.map Node.condWaitLink ∧ s = wakeAll done k) ?_
      ((thr :: ts).map Node.condWaitLink) ADDRESSES k hlen ⟨[], thr :: ts, rfl, rfl, (wakeAll_nil k).symm⟩
    · obtain ⟨s', hs, done, todo, he, hnil, rfl⟩ := hrule
      obtain rfl : todo = [] := by simpa using hnil
      rw [List.append_nil] at he
      rw [← he] at hs
      exact hs
    · rintro x l s ⟨done, todo, he, hl, rfl⟩
      cases todo with
      | nil => simp at hl
      | cons y todo =>
        rw [List.map_cons, List.cons.injEq] at hl
        obtain ⟨rfl, rfl⟩ := hl
        have hr' := (wakeAll_rings hr hq (hts.trans (by rw [he]))).ring _ hq
        rw [Function.update_self] at hr'
        refine ⟨by simp, ?_, (wakeAll done k).wake y, rfl, done ++ [y], todo, by simp [he], rfl, (wakeAll_snoc ..).symm⟩
        exact hr'.next_first

/-! ## Reporting the exit to the parent -/

def exitLists (t p : Word) (ts : List Word) (ls : Node → List Node) : Node → List Node :=
  Function.update (Function.update (Function.update ls (.childTaskHead p)
  ((ls (.childTaskHead p)).erase (.childTaskLink t)))
    (.deadChildHead p) (ls (.deadChildHead p) ++ [.deadChildLink t])) (.exitCondVar p) (ts.map .condWaitLink)

@[simp] theorem exitLists_alive : exitLists t p ts ls (.childTaskHead p) = (ls (.childTaskHead p)).erase (.childTaskLink t) := by
  simp [exitLists]

@[simp] theorem exitLists_dead : exitLists t p ts ls (.deadChildHead p) = ls (.deadChildHead p) ++ [.deadChildLink t] := by
  simp [exitLists]

@[simp] theorem exitLists_waiting : exitLists t p ts ls (.exitCondVar p) = ts.map .condWaitLink := by
  simp [exitLists]

def exitLinks (t p : Word) (L : Links Node) : Links Node :=
  addToTail (.deadChildLink t) (.deadChildHead p) (delEntry (.childTaskLink t) L)

structure HasHeads (H : Set Node) (p : Word) : Prop where
  alive : .childTaskHead p ∈ H
  dead : .deadChildHead p ∈ H
  waiting : .exitCondVar p ∈ H

theorem exitLinks_rings (hr : Rings k.links H ls) (hp : HasHeads H p) (hc : .childTaskLink t ∈ ls (.childTaskHead p))
    (hnew : .deadChildLink t ∉ H ∧ ∀ h ∈ H, .deadChildLink t ∉ ls h) :
    Rings (exitLinks t p k.links) H (Function.update (Function.update ls (.childTaskHead p)
      ((ls (.childTaskHead p)).erase (.childTaskLink t))) (.deadChildHead p)
      (ls (.deadChildHead p) ++ [.deadChildLink t])) := by
  have h₁ := delEntry_rings hr hp.alive hc
  have h₂ := addToTail_rings h₁ hp.dead hnew.1 ?_
  · rwa [Function.update_of_ne (by simp)] at h₂
  · intro h hh hm
    rw [Function.update_apply] at hm
    split_ifs at hm with e
    · exact hnew.2 _ hp.alive (List.mem_of_mem_erase hm)
    · exact hnew.2 h hh hm

theorem reportExit_eq (hr : Rings k.links H ls) (hp : HasHeads H p) (hparent : (k.task t).parent = p)
    (hc : .childTaskLink t ∈ ls (.childTaskHead p)) (hnew : .deadChildLink t ∉ H ∧ ∀ h ∈ H, .deadChildLink t ∉ ls h)
    (hts : ls (.exitCondVar p) = ts.map .condWaitLink) :
    ∃ woken rest, ts = woken ++ rest ∧ (ts ≠ [] → woken ≠ []) ∧
      k.reportExit t = some (wakeAll woken { k with links := exitLinks t p k.links }) ∧
      Rings (wakeAll woken { k with links := exitLinks t p k.links }).links H (exitLists t p rest ls) := by
  have hr' := exitLinks_rings hr hp hc hnew
  have hts' : (Function.update (Function.update ls (.childTaskHead p)
    ((ls (.childTaskHead p)).erase (.childTaskLink t)))
      (.deadChildHead p) (ls (.deadChildHead p) ++ [.deadChildLink t])) (.exitCondVar p) = ts.map .condWaitLink := by
    rw [Function.update_of_ne (by simp), Function.update_of_ne (by simp), hts]
  cases hf : getFirst (.childTaskHead p) (exitLinks t p k.links) with
  | none =>
    have hk : k.reportExit t = condBroadcast p { k with links := exitLinks t p k.links } := by
      rw [exitLinks] at hf
      simp only [reportExit, hparent, withLinks, exitLinks, hf]
    refine ⟨ts, [], by simp, id, hk.trans (condBroadcast_eq hr' hp.waiting hts'), ?_⟩
    exact wakeAll_rings (k := { k with links := exitLinks t p k.links }) hr' hp.waiting (by rw [hts', List.append_nil])
  | some node =>
    have hk : k.reportExit t = condSignal p { k with links := exitLinks t p k.links } := by
      rw [exitLinks] at hf
      simp only [reportExit, hparent, withLinks, exitLinks, hf]
    refine ⟨ts.take 1, ts.drop 1, (List.take_append_drop 1 ts).symm, ?_,
      hk.trans (condSignal_eq hr' hp.waiting hts'), ?_⟩
    · intro hne h0
      simp [hne] at h0
    · exact wakeAll_rings (k := { k with links := exitLinks t p k.links }) hr' hp.waiting
        (by rw [hts', List.take_append_drop])

/-! ## Reaping a child -/

theorem mutexDestroy_some {l : Lock} (h : k.mutexDestroy l = some k') : k' = k.setLock l .invalid := by
  unfold mutexDestroy at h
  split at h
  · cases h
  · rw [Option.some.injEq] at h
    exact h.symm

def destroyLocks (t : Word) (locks : Lock → Mutex) (l : Lock) : Mutex := if l.task = t then .invalid else locks l

theorem freeTask_some (h : k.freeTask t = some k') :
    k' = { k with locks := destroyLocks t k.locks, tasks := k.tasks.erase t } := by
  unfold freeTask at h
  simp only [Option.bind_eq_bind, Option.bind_eq_some_iff, Option.pure_def, Option.some.injEq] at h
  obtain ⟨k₁, h₁, k₂, h₂, k₃, h₃, k₄, h₄, k₅, h₅, rfl⟩ := h
  rw [mutexDestroy_some h₅, mutexDestroy_some h₄, mutexDestroy_some h₃, mutexDestroy_some h₂, mutexDestroy_some h₁]
  have hlocks : destroyLocks t k.locks = Function.update
    (Function.update (Function.update (Function.update (Function.update
      k.locks (.childListMutex t) .invalid) (.threadListMutex t) .invalid) (.vanishMutex t) .invalid)
      (.forkMutex t) .invalid)
      (.execMutex t) .invalid := by
    funext l
    cases l <;> rename_i x <;> by_cases h : x = t <;> simp [destroyLocks, Lock.task, h]
  rw [hlocks]
  simp only [setLock]

theorem finishWait_none {statusPtr : Word} {e : WaitEnd} (h : k.finishWait t statusPtr none = some (e, k')) :
    e = .returned ERR_FAILURE ∧ k' = k.setLock (.childListMutex t) .valid := by
  unfold finishWait at h
  rw [Option.map_eq_some_iff] at h
  obtain ⟨k₁, hun, h⟩ := h
  rw [Prod.mk.injEq] at h
  obtain ⟨rfl, rfl⟩ := h
  exact ⟨rfl, mutexUnlock_some hun⟩

def reaped (t c : Word) (vm : Vm) (k : Kernel) : Kernel :=
  { k with
    vm := vm
    links := delEntry (.deadChildLink c) k.links
    locks := destroyLocks c (Function.update k.locks (.childListMutex t) .valid)
    tasks := k.tasks.erase c }

theorem finishWait_some {statusPtr c : Word} {e : WaitEnd}
    (h : k.finishWait t statusPtr (some (.deadChildLink c)) = some (e, k')) :
    e = .reaped c (k.task c).id (k.task c).exitStatus ∧ ∃ vm, k' = reaped t c vm k := by
  unfold finishWait at h
  simp only [entryTask, Option.bind_eq_bind, Option.bind_eq_some_iff, Option.pure_def, Option.some.injEq,
    exists_eq_left', Prod.mk.injEq] at h
  obtain ⟨k₁, hun, vm, -, k₂, hfree, rfl, rfl⟩ := h
  rw [mutexUnlock_some hun] at hfree ⊢
  exact ⟨rfl, vm, freeTask_some hfree⟩

/-! ## Giving children to init -/

def adopt (init : Word) (cs : List Word) (task : Word → Task) (c : Word) : Task :=
  if c ∈ cs then { task c with parent := init } else task c

theorem adopt_nil (init : Word) (task : Word → Task) : adopt init [] task = task := by
  funext c
  simp [adopt]

theorem adopt_snoc (init : Word) (cs : List Word) (c : Word) (task : Word → Task) :
    adopt init (cs ++ [c]) task = Function.update (adopt init cs task) c { adopt init cs task c with parent := init } := by
  funext x
  by_cases hx : x = c <;> by_cases hm : c ∈ cs <;> simp [adopt, hx, hm]

theorem reparentToInit_eq {h : Node} {f : Word → Node} {cs : List Word} (hf : ∀ c, entryTask (f c) = some c)
    (hr : IsRing k.links h (cs.map f)) : k.reparentToInit h = some { k with task := adopt k.initTask cs k.task } := by
  unfold reparentToInit
  rw [getFirst_eq hr]
  cases cs with
  | nil => simp [adopt_nil]
  | cons c cs =>
    have hlen : ((c :: cs).map f).length ≤ ADDRESSES := by
      rw [List.length_map]
      exact length_le_of_nodup (List.nodup_cons.mp hr.nodup).2.of_map
    have hrule := forEach_rule Kernel.links (h := h)
      (f := fun node k => (entryTask node).map fun t => k.setTask t fun s => { s with parent := k.initTask })
      (P := fun l s => ∃ done todo, c :: cs = done ++ todo ∧ l = todo.map f ∧
        s = { k with task := adopt k.initTask done k.task }) ?_ ((c :: cs).map f) ADDRESSES k hlen
      ⟨[], c :: cs, rfl, rfl, by rw [adopt_nil]⟩
    · obtain ⟨s', hs, done, todo, he, hnil, rfl⟩ := hrule
      obtain rfl : todo = [] := by simpa using hnil
      rw [List.append_nil] at he
      rw [← he] at hs
      exact hs
    · rintro x l s ⟨done, todo, he, hl, rfl⟩
      cases todo with
      | nil => simp at hl
      | cons y todo =>
        rw [List.map_cons, List.cons.injEq] at hl
        obtain ⟨rfl, rfl⟩ := hl
        rw [he, List.map_append, List.map_cons] at hr
        refine ⟨?_, hr.next_mid, _, by rw [hf]; rfl, done ++ [y], todo, by simp [he], rfl, ?_⟩
        · rintro rfl
          exact hr.head_notMem (by simp)
        · rw [adopt_snoc]
          rfl

def given (t : Word) (cs : List Word) (k : Kernel) : Kernel :=
  { k with
    task := adopt k.initTask cs k.task
    links := concatLists (.deadChildHead k.initTask) (.deadChildHead t)
      (concatLists (.childTaskHead k.initTask) (.childTaskHead t) k.links) }

theorem adopt_append (init : Word) (as ds : List Word) (task : Word → Task) :
    adopt init ds (adopt init as task) = adopt init (as ++ ds) task := by
  funext c
  by_cases ha : c ∈ as <;> by_cases hd : c ∈ ds <;> simp [adopt, ha, hd]

theorem giveChildren_some {as ds : List Word}
    (ha : IsRing k.links (.childTaskHead t) (as.map .childTaskLink))
    (hd : IsRing k.links (.deadChildHead t) (ds.map .deadChildLink)) (h : k.giveChildren t = some k') :
    k' = given t (as ++ ds) k := by
  unfold giveChildren at h
  simp only [Option.bind_eq_bind, Option.bind_eq_some_iff] at h
  obtain ⟨k₁, hlock₁, k₂, hre₁, k₃, hre₂, k₄, hlock₂, k₅, hun₂, hun₁⟩ := h
  obtain ⟨hv₁, rfl⟩ := mutexLock_some hlock₁
  rw [reparentToInit_eq (fun _ => rfl) (show IsRing (k.setLock _ _).links _ _ from ha), Option.some.injEq] at hre₁
  subst hre₁
  rw [reparentToInit_eq (fun _ => rfl) (show IsRing (Kernel.links { k.setLock _ _ with task := _ }) _ _ from hd),
    Option.some.injEq] at hre₂
  subst hre₂
  obtain ⟨hv₂, rfl⟩ := mutexLock_some hlock₂
  rw [mutexUnlock_some hun₁, mutexUnlock_some hun₂]
  have hback : ∀ (f : Lock → Mutex) l, f l = .valid → Function.update (Function.update f l .locked) l .valid = f := by
    intro f l hl
    rw [Function.update_idem, ← hl, Function.update_eq_self]
  have hv₂' : Function.update k.locks (.vanishMutex t) .locked (.childListMutex k.initTask) = .valid := hv₂
  simp only [setLock, withLinks, given, adopt_append]
  rw [hback _ _ hv₂', hback _ _ hv₁]

theorem giveChildren_eq {as ds : List Word}
    (ha : IsRing k.links (.childTaskHead t) (as.map .childTaskLink))
    (hd : IsRing k.links (.deadChildHead t) (ds.map .deadChildLink))
    (hv : k.locks (.vanishMutex t) = .valid) (hc : k.locks (.childListMutex k.initTask) = .valid) :
    k.giveChildren t = some (given t (as ++ ds) k) := by
  obtain ⟨k', hk'⟩ : ∃ k', k.giveChildren t = some k' := by
    have hlock : k.mutexLock (.vanishMutex t) = some (k.setLock (.vanishMutex t) .locked) := if_pos hv
    have hre₁ := reparentToInit_eq (k := k.setLock (.vanishMutex t) .locked) (fun _ => rfl) ha
    have hre₂ := fun task => reparentToInit_eq (k := { k.setLock (.vanishMutex t) .locked with task := task })
      (fun _ => rfl) hd
    simp only [giveChildren, hlock, hre₁, hre₂, Option.bind_eq_bind, Option.bind_some]
    simp [mutexLock, mutexUnlock, setLock, withLinks, hc]
  rw [hk', giveChildren_some ha hd hk']

/-! ## Taking a thread out of its lists -/

theorem findThread_eq {h : Node} {id : Word} : ∀ (rest pre : List Word) (n : Nat),
    IsRing k.links h ((pre ++ rest).map .threadMapLink) → rest.length ≤ n →
      findThread k h id n ((rest.map Node.threadMapLink).headD h) = some
      (rest.find? fun thr => (k.thread thr).id = id) := by
  intro rest
  induction rest with
  | nil =>
    intro pre n _ _
    unfold findThread
    simp
  | cons y rest ih =>
    intro pre n hr hn
    cases n with
    | zero => simp at hn
    | succ n =>
      have hr' : IsRing k.links h (pre.map .threadMapLink ++ .threadMapLink y :: rest.map .threadMapLink) := by simpa using hr
      have hy : Node.threadMapLink y ≠ h := by
        rintro rfl
        exact hr'.head_notMem (by simp)
      have hrest := ih (pre ++ [y]) n (by simpa using hr) (by simpa using hn)
      unfold findThread
      simp only [List.map_cons, List.headD_cons, hy, if_false, hr'.next_mid, hrest, List.find?_cons]
      by_cases he : (k.thread y).id = id <;> simp [he]

theorem getThreadFromId_eq {id : Word} (hr : IsRing k.links (.threadMap (mapIndex id)) (ts.map .threadMapLink)) :
    getThreadFromId id k = some (ts.find? fun thr => (k.thread thr).id = id) := by
  unfold getThreadFromId
  dsimp only
  rw [getFirst_eq hr]
  cases ts with
  | nil => simp
  | cons y ts =>
    have hlen := length_le_of_nodup (List.nodup_cons.mp hr.nodup).2.of_map
    exact findThread_eq (y :: ts) [] ADDRESSES hr hlen

theorem removeThreadFromTask_eq
    (hr : IsRing k.links (.threadMap (mapIndex (k.thread thr).id)) (ts.map .threadMapLink)) (hm : thr ∈ ts)
    (hid : ∀ y ∈ ts, (k.thread y).id = (k.thread thr).id → y = thr) :
    k.removeThreadFromTask thr = some { k with
      links := delEntry (.taskThreadLink thr) (delEntry (.threadMapLink thr) k.links) } := by
  have hfind : (ts.find? fun y => (k.thread y).id = (k.thread thr).id) = some thr := by
    cases hf : ts.find? fun y => (k.thread y).id = (k.thread thr).id with
    | none =>
      rw [List.find?_eq_none] at hf
      simpa using hf thr hm
    | some y =>
      have hy := List.find?_some hf
      rw [hid y (List.mem_of_find?_eq_some hf) (by simpa using hy)]
  unfold removeThreadFromTask removeThreadFromMap
  rw [getThreadFromId_eq hr, hfind]
  rfl

/-! ## The whole calls -/

def threadGone (thr : Word) (L : Links Node) : Links Node := delEntry (.taskThreadLink thr)
    (delEntry (.threadMapLink thr) L)

theorem doVanish_cases
    (hr : IsRing k.links (.threadMap (mapIndex (k.thread k.currThread).id)) (ts.map .threadMapLink))
    (hm : k.currThread ∈ ts)
    (hid : ∀ y ∈ ts, (k.thread y).id = (k.thread k.currThread).id → y = k.currThread) (h : k.doVanish = some k') :
    (getFirst (.threadHead k.currTask) (threadGone k.currThread k.links) ≠ none ∧
      k' = freeThread k.currThread { k with links := threadGone k.currThread k.links }) ∨
    (getFirst (.threadHead k.currTask) (threadGone k.currThread k.links) = none ∧ ∃ k₁ k₂,
      giveChildren k.currTask { k with links := threadGone k.currThread k.links } = some k₁ ∧
      (k₁.leaveSpace k.currTask).reportExit k.currTask = some k₂ ∧ k' = freeThread k.currThread k₂) := by
  unfold doVanish at h
  simp only [Option.bind_eq_bind, Option.bind_eq_some_iff] at h
  obtain ⟨k₁, hlock, k₂, hrem, k₃, hun, h⟩ := h
  obtain ⟨hv, rfl⟩ := mutexLock_some hlock
  have hrem' := removeThreadFromTask_eq (k := k.setLock (.threadListMutex k.currTask) .locked) hr hm hid
  rw [hrem', Option.some.injEq] at hrem
  subst hrem
  have hk₃ : k₃ = { k with links := threadGone k.currThread k.links } := by
    rw [mutexUnlock_some hun]
    exact congrArg (withLinks (threadGone k.currThread)) (unlock_lock hv)
  subst hk₃
  split at h
  · rename_i n hn
    left
    rw [Option.pure_def, Option.some.injEq] at h
    refine ⟨?_, h.symm⟩
    rw [show getFirst (.threadHead k.currTask) (threadGone k.currThread k.links) = some n from hn]
    simp
  · rename_i hn
    right
    simp only [Option.bind_eq_some_iff, Option.pure_def, Option.some.injEq] at h
    obtain ⟨k₄, hgive, k₅, hreport, rfl⟩ := h
    exact ⟨hn, k₄, k₅, hgive, hreport, rfl⟩

def slept (t thr : Word) (k : Kernel) : Kernel :=
  { k with
    links := addToTail (.condWaitLink thr) (.exitCondVar t) k.links
    thread := Function.update k.thread thr { k.thread thr with status := .waiting } }

inductive WaitResult (t thr : Word) (dead : List Word) (alive : List Node) (k : Kernel) : WaitEnd → Kernel → Prop
  | blocked : dead = [] → alive ≠ [] → WaitResult t thr dead alive k .blocked (slept t thr k)
  | failed : dead = [] → WaitResult t thr dead alive k (.returned ERR_FAILURE) k
  | reaped {c vm} : dead.head? = some c →
      WaitResult t thr dead alive k (.reaped c (k.task c).id (k.task c).exitStatus) (reaped t c vm k)

theorem waitRound_cases {p : Word} {e : WaitEnd} {dead : List Word} {alive : List Node}
    (hd : IsRing k.links (.deadChildHead k.currTask) (dead.map .deadChildLink))
    (ha : IsRing k.links (.childTaskHead k.currTask) alive)
    (h : (k.mutexLock (.childListMutex k.currTask)).bind (waitRound p) = some (e, k')) :
    WaitResult k.currTask k.currThread dead alive k e k' := by
  rw [Option.bind_eq_some_iff] at h
  obtain ⟨k₁, hlock, h⟩ := h
  obtain ⟨hv, rfl⟩ := mutexLock_some hlock
  unfold waitRound at h
  have hd' : getFirst (.deadChildHead k.currTask) (k.setLock (.childListMutex k.currTask) .locked).links =
      (dead.map Node.deadChildLink).head? := getFirst_eq hd
  have ha' : getFirst (.childTaskHead k.currTask) (k.setLock
    (.childListMutex k.currTask) .locked).links = alive.head? :=
    getFirst_eq ha
  have hcurr : (k.setLock (.childListMutex k.currTask) .locked).currTask = k.currTask := rfl
  simp only [hcurr, hd', ha'] at h
  cases dead with
  | nil =>
    cases alive with
    | nil =>
      have hfail : finishWait k.currTask p none (k.setLock (.childListMutex k.currTask) .locked) = some (e, k') := h
      obtain ⟨rfl, rfl⟩ := finishWait_none hfail
      rw [unlock_lock hv]
      exact .failed rfl
    | cons n l =>
      simp only [List.map_nil, List.head?_nil, List.head?_cons, mustBlock, Option.isNone_none, Option.isSome_some,
        Bool.and_self,
        if_true, Option.map_eq_some_iff, Prod.mk.injEq] at h
      obtain ⟨k₂, hsleep, rfl, rfl⟩ := h
      have hk : k₂ = slept k.currTask k.currThread k := by
        rw [mutexUnlock_some hsleep]
        exact congrArg (slept k.currTask k.currThread) (unlock_lock hv)
      rw [hk]
      exact .blocked rfl (by simp)
  | cons c dead =>
    have hreap : finishWait k.currTask p (some (.deadChildLink c)) (k.setLock (.childListMutex k.currTask) .locked) =
        some (e, k') := h
    obtain ⟨rfl, vm, rfl⟩ := finishWait_some hreap
    have hk : reaped k.currTask c vm (k.setLock (.childListMutex k.currTask) .locked) = reaped k.currTask c vm k := by
      simp only [reaped, setLock, Function.update_idem]
    rw [hk]
    exact .reaped rfl

theorem doWait_cases {p : Word} {e : WaitEnd} {dead : List Word} {alive : List Node}
    (hd : IsRing k.links (.deadChildHead k.currTask) (dead.map .deadChildLink))
    (ha : IsRing k.links (.childTaskHead k.currTask) alive) (h : k.doWait p = some (e, k')) :
    (e = .returned ERR_INVAL ∧ k' = k) ∨ WaitResult k.currTask k.currThread dead alive k e k' := by
  unfold doWait at h
  split at h
  · cases h
  · rw [Option.some.injEq, Prod.mk.injEq] at h
    exact Or.inl ⟨h.1.symm, h.2.symm⟩
  · exact Or.inr (waitRound_cases hd ha h)

end

end Kernel

end Pebbles
