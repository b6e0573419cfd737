import Pebbles.LifeSound

/-!
# The interrupt flag in vanish

`do_vanish` with the interrupt flag of the processor. The mutex library is
enabled, so `mutex_lock` and `mutex_unlock` end with interrupts on; the variants
that save the flag are used on the mutexes of condition variables and of the
allocator. `runq_add_thread` ends with interrupts on.
-/

namespace Pebbles

open Words Ring

/-- `flag` is `EFLAGS_IF`; `seen` is its value after each step, the last one first. -/
structure Cpu where
  kernel : Kernel
  flag : Bool
  seen : List Bool

/-- The flag after each step from the first `disable_interrupts` of `do_vanish` to
the matching `enable_interrupts`, and from the last part of `do_vanish` that runs
with interrupts off to the final switch. -/
structure Sections where
  reparent : List Bool
  report : List Bool
  kernel : Kernel

namespace Cpu

def links (c : Cpu) : Links Node := c.kernel.links

def step (f : Kernel → Kernel) (c : Cpu) : Cpu := { kernel := f c.kernel, flag := c.flag, seen := c.flag :: c.seen }

def setFlag (b : Bool) (c : Cpu) : Cpu := { c with flag := b, seen := b :: c.seen }

def disableInterrupts (c : Cpu) : Cpu := c.setFlag false

def enableInterrupts (c : Cpu) : Cpu := c.setFlag true

/-! ## mutex.c, on a mutex that nobody holds or waits for -/

def mutexLock (l : Lock) (c : Cpu) : Option Cpu :=
  (c.kernel.mutexLock l).map fun k => (c.disableInterrupts.step fun _ => k).enableInterrupts

def mutexUnlock (l : Lock) (c : Cpu) : Option Cpu :=
  (c.kernel.mutexUnlock l).map fun k => (c.disableInterrupts.step fun _ => k).enableInterrupts

def mapMutex (c : Cpu) : Cpu := (c.disableInterrupts.step id).enableInterrupts

/-- `mutex_lock_int_save` or `mutex_unlock_int_save` of the mutex of a condition
variable or of the allocator. -/
def mutexIntSave (c : Cpu) : Cpu :=
  let intFlag := c.flag
  let c := c.disableInterrupts.step id
  if intFlag then c.enableInterrupts else c

def sfree (free : Kernel → Kernel) (c : Cpu) : Cpu := (c.mutexIntSave.step free).mutexIntSave

/-! ## scheduler.c and cond_var.c -/

def runqAddThread (thr : Word) (c : Cpu) : Cpu :=
  (c.disableInterrupts.step (Kernel.runqAddThread thr)).enableInterrupts

def wake (thr : Word) (c : Cpu) : Cpu :=
  let c := c.step fun k => k.setThread thr fun s => { s with status := .runnable }
  let c := c.runqAddThread thr
  c.step fun k => k.withLinks (delEntry (.condWaitLink thr))

def wakeLink (waitingThread : Node) (c : Cpu) : Option Cpu :=
  match waitingThread with
  | .condWaitLink thr => some (c.wake thr)
  | _ => none

/-- `wakeUp` is what a function of the condition variable does with the first
waiting thread, between the calls for `queue_mutex`. -/
def withQueue (t : Word) (wakeUp : Node → Cpu → Option Cpu) (c : Cpu) : Option Cpu :=
  let c := c.mutexIntSave
  let c := match getFirst (.exitCondVar t) c.links with
    | none => some c
    | some waitingThread => wakeUp waitingThread c
  c.map mutexIntSave

def condSignal (t : Word) (c : Cpu) : Option Cpu := c.withQueue t wakeLink

def condBroadcast (t : Word) (c : Cpu) : Option Cpu :=
  c.withQueue t (forEach links (.exitCondVar t) wakeLink Kernel.ADDRESSES)

/-! ## wait_vanish.c -/

def reparentToInit (taskList : Node) (c : Cpu) : Option Cpu :=
  match getFirst taskList c.links with
  | none => some c
  | some taskNode =>
    forEach links taskList (fun node c => (Kernel.entryTask node).map fun t =>
      c.step fun k => k.setTask t fun s => { s with parent := k.initTask }) Kernel.ADDRESSES taskNode c

def removeThreadFromTask (thr : Word) (c : Cpu) : Option Cpu :=
  let c := c.mapMutex
  (c.kernel.removeThreadFromMap (c.kernel.thread thr).id).map fun k =>
    (c.step fun _ => k).mapMutex.step fun k => k.withLinks (delEntry (.taskThreadLink thr))

def giveChildren (t : Word) (c : Cpu) : Option Cpu := do
  let c := c.disableInterrupts
  let c ← c.mutexLock (.vanishMutex t)
  let c ← c.reparentToInit (.childTaskHead t)
  let c ← c.reparentToInit (.deadChildHead t)
  let c ← c.mutexLock (.childListMutex c.kernel.initTask)
  let c := c.step fun k => k.withLinks (concatLists (.childTaskHead k.initTask) (.childTaskHead t))
  let c := c.step fun k => k.withLinks (concatLists (.deadChildHead k.initTask) (.deadChildHead t))
  let c ← c.mutexUnlock (.childListMutex c.kernel.initTask)
  c.mutexUnlock (.vanishMutex t)

def reportExit (t : Word) (c : Cpu) : Option Cpu :=
  let c := c.disableInterrupts
  let parentTask := (c.kernel.task t).parent
  let c := c.step fun k => k.withLinks (delEntry (.childTaskLink t))
  let c := c.step fun k => k.withLinks (addToTail (.deadChildLink t) (.deadChildHead parentTask))
  match getFirst (.childTaskHead parentTask) c.links with
  | none => c.condBroadcast parentTask
  | some _ => c.condSignal parentTask

def freeThread (thr : Word) (c : Cpu) : Cpu :=
  let c := (c.disableInterrupts.step id).step id
  let c := c.sfree (Kernel.threadFreeResources thr)
  c.step fun k => { k with currThread := 0#32 }

def mark (c : Cpu) : Cpu := { c with seen := [] }

def doVanish (c : Cpu) : Option Sections := do
  let currTask := c.kernel.currTask
  let currThread := c.kernel.currThread
  let c ← c.mutexLock (.threadListMutex currTask)
  let c ← c.removeThreadFromTask currThread
  let threadHead := getFirst (.threadHead currTask) c.links
  let c ← c.mutexUnlock (.threadListMutex currTask)
  match threadHead with
  | some _ =>
    let c := c.mark.freeThread currThread
    return ⟨[], c.seen, c.kernel⟩
  | none =>
    let c ← c.mark.giveChildren currTask
    let reparent := c.seen
    let c := c.enableInterrupts.step (Kernel.leaveSpace currTask)
    let c ← c.mark.reportExit currTask
    let c := c.freeThread currThread
    return ⟨reparent, c.seen, c.kernel⟩

/-! ## The kernel does what it does without the flag -/

section
variable {α β : Type} {c c' : Cpu} {l : Lock} {t thr : Word}

@[simp] theorem step_kernel (f : Kernel → Kernel) : (c.step f).kernel = f c.kernel := rfl

@[simp] theorem disableInterrupts_kernel : c.disableInterrupts.kernel = c.kernel := rfl

@[simp] theorem enableInterrupts_kernel : c.enableInterrupts.kernel = c.kernel := rfl

@[simp] theorem mark_kernel : c.mark.kernel = c.kernel := rfl

@[simp] theorem mutexIntSave_kernel : c.mutexIntSave.kernel = c.kernel := by
  unfold mutexIntSave
  cases c.flag <;> rfl

theorem freeThread_kernel : (c.freeThread thr).kernel = c.kernel.freeThread thr := by
  simp [freeThread, sfree, Kernel.freeThread]

theorem map_bind {x : Option Cpu} {f : Cpu → Option α} {g : Kernel → Option β} {y : Option Kernel} {r : α → β}
    (hx : x.map kernel = y) (hf : ∀ c, (f c).map r = g c.kernel) : (x.bind f).map r = y.bind g := by
  cases x with
  | none =>
    subst hx
    rfl
  | some c =>
    subst hx
    exact hf c

theorem mutexLock_kernel : (c.mutexLock l).map kernel = c.kernel.mutexLock l := by
  unfold mutexLock
  rw [Option.map_map]
  exact Option.map_id' ..

theorem mutexUnlock_kernel : (c.mutexUnlock l).map kernel = c.kernel.mutexUnlock l := by
  unfold mutexUnlock
  rw [Option.map_map]
  exact Option.map_id' ..

theorem removeThreadFromTask_kernel : (c.removeThreadFromTask thr).map kernel = c.kernel.removeThreadFromTask thr := by
  unfold removeThreadFromTask Kernel.removeThreadFromTask
  rw [Option.map_map]
  rfl

theorem forEach_kernel {h : Node} {f : Node → Cpu → Option Cpu} {g : Node → Kernel → Option Kernel}
    (hf : ∀ n c, (f n c).map kernel = g n c.kernel) (m : Nat) (n : Node) (c : Cpu) :
    (forEach links h f m n c).map kernel = forEach Kernel.links h g m n c.kernel := by
  induction m generalizing n c with
  | zero =>
    unfold forEach
    split <;> rfl
  | succ m ih =>
    unfold forEach
    split
    · rfl
    · exact map_bind (hf n c) (fun c' => ih _ c')

theorem reparentToInit_kernel {h : Node} : (c.reparentToInit h).map kernel = c.kernel.reparentToInit h := by
  unfold reparentToInit Kernel.reparentToInit
  rw [links]
  cases getFirst h c.kernel.links with
  | none => rfl
  | some node =>
    apply forEach_kernel
    intro n c
    rw [Option.map_map]
    rfl

theorem wakeLink_kernel (n : Node) (c : Cpu) : (wakeLink n c).map kernel = Kernel.wakeLink n c.kernel := by
  cases n <;> rfl

theorem withQueue_kernel {wakeUp : Node → Cpu → Option Cpu} {g : Node → Kernel → Option Kernel}
    (h : ∀ n c, (wakeUp n c).map kernel = g n c.kernel) : (c.withQueue t wakeUp).map kernel =
      match getFirst (.exitCondVar t) c.kernel.links with
      | none => some c.kernel
      | some waitingThread => g waitingThread c.kernel := by
  have hsave : kernel ∘ mutexIntSave = kernel := funext fun c => mutexIntSave_kernel
  unfold withQueue
  rw [Option.map_map, hsave, links, mutexIntSave_kernel]
  cases getFirst (.exitCondVar t) c.kernel.links with
  | none => exact congrArg some mutexIntSave_kernel
  | some node => exact (h node _).trans (by rw [mutexIntSave_kernel])

theorem condSignal_kernel : (c.condSignal t).map kernel = c.kernel.condSignal t := withQueue_kernel wakeLink_kernel

theorem condBroadcast_kernel : (c.condBroadcast t).map kernel = c.kernel.condBroadcast t :=
  withQueue_kernel fun _ _ => forEach_kernel wakeLink_kernel ..

theorem giveChildren_kernel : (c.giveChildren t).map kernel = c.kernel.giveChildren t := by
  unfold giveChildren Kernel.giveChildren
  refine map_bind mutexLock_kernel fun c => ?_
  refine map_bind reparentToInit_kernel fun c => ?_
  refine map_bind reparentToInit_kernel fun c => ?_
  refine map_bind mutexLock_kernel fun c => ?_
  exact map_bind mutexUnlock_kernel fun c => mutexUnlock_kernel

theorem reportExit_kernel : (c.reportExit t).map kernel = c.kernel.reportExit t := by
  unfold reportExit Kernel.reportExit
  dsimp only [links, step_kernel, disableInterrupts_kernel]
  generalize getFirst (.childTaskHead (c.kernel.task t).parent) (Kernel.withLinks (addToTail (.deadChildLink t)
    (.deadChildHead (c.kernel.task t).parent)) (Kernel.withLinks (delEntry (.childTaskLink t)) c.kernel)).links = first
  cases first with
  | none => exact condBroadcast_kernel
  | some node => exact condSignal_kernel

theorem doVanish_kernel : c.doVanish.map Sections.kernel = c.kernel.doVanish := by
  unfold doVanish Kernel.doVanish
  refine map_bind mutexLock_kernel fun c₁ => ?_
  refine map_bind removeThreadFromTask_kernel fun c₂ => ?_
  refine map_bind mutexUnlock_kernel fun c₃ => ?_
  dsimp only [links]
  cases getFirst (.threadHead c.kernel.currTask) c₂.kernel.links with
  | some node => exact congrArg some freeThread_kernel
  | none =>
    refine map_bind giveChildren_kernel fun c₄ => ?_
    exact map_bind reportExit_kernel fun c₅ => congrArg some freeThread_kernel

/-! ## The flag -/

def Quiet (c : Cpu) : Prop := ∀ b ∈ c.seen, b = false

@[simp] theorem quiet_mark : c.mark.Quiet := List.forall_mem_nil _

@[simp] theorem quiet_step {f : Kernel → Kernel} : (c.step f).Quiet ↔ c.flag = false ∧ c.Quiet := List.forall_mem_cons

@[simp] theorem quiet_disableInterrupts : c.disableInterrupts.Quiet ↔ c.Quiet := by
  simp [disableInterrupts, setFlag, Quiet]

@[simp] theorem quiet_enableInterrupts : ¬ c.enableInterrupts.Quiet := by
  simp [enableInterrupts, setFlag, Quiet]

@[simp] theorem flag_step {f : Kernel → Kernel} : (c.step f).flag = c.flag := rfl

@[simp] theorem flag_disableInterrupts : c.disableInterrupts.flag = false := rfl

@[simp] theorem flag_mutexIntSave : c.mutexIntSave.flag = c.flag := by
  unfold mutexIntSave
  cases hf : c.flag <;> simp [enableInterrupts, setFlag]

@[simp] theorem quiet_mutexIntSave : c.mutexIntSave.Quiet ↔ c.flag = false ∧ c.Quiet := by
  unfold mutexIntSave
  cases hf : c.flag <;> simp

theorem quiet_freeThread : (c.freeThread thr).Quiet ↔ c.Quiet := by
  simp [freeThread, sfree]

theorem not_quiet_mutexUnlock (h : c.mutexUnlock l = some c') : ¬ c'.Quiet := by
  obtain ⟨k, -, rfl⟩ := Option.map_eq_some_iff.mp h
  exact quiet_enableInterrupts

theorem not_quiet_giveChildren (h : c.giveChildren t = some c') : ¬ c'.Quiet := by
  simp only [giveChildren, Option.bind_eq_bind, Option.bind_eq_some_iff] at h
  obtain ⟨_, -, _, -, _, -, _, -, _, -, hlast⟩ := h
  exact not_quiet_mutexUnlock hlast

theorem not_quiet_wakeLink {n : Node} (h : wakeLink n c = some c') : ¬ c'.Quiet := by
  cases n <;> cases h
  simp [wake, runqAddThread]

theorem not_quiet_wakeAll {n : Node} {m : Nat} (hn : n ≠ .exitCondVar t)
    (h : forEach links (.exitCondVar t) wakeLink m n c = some c') : ¬ c'.Quiet := by
  unfold forEach at h
  rw [if_neg hn] at h
  cases m with
  | zero => cases h
  | succ m =>
    obtain ⟨c₁, h₁, h⟩ := Option.bind_eq_some_iff.mp h
    -- what was heard at the first thread stays
    exact forEach_closed links (S := Set.univ) (P := fun c => ¬ c.Quiet) (fun _ _ _ _ => ⟨trivial, trivial⟩)
      (fun _ _ _ _ _ h => not_quiet_wakeLink h) m _ c₁ c' trivial (not_quiet_wakeLink h₁) h

theorem quiet_withQueue {wakeUp : Node → Cpu → Option Cpu}
    (hw : ∀ n c c', n ≠ .exitCondVar t → wakeUp n c = some c' → ¬ c'.Quiet) (h : c.withQueue t wakeUp = some c') :
    c'.Quiet ↔ getFirst (.exitCondVar t) c.links = none ∧ c.flag = false ∧ c.Quiet := by
  unfold withQueue at h
  obtain ⟨c₁, h₁, rfl⟩ := Option.map_eq_some_iff.mp h
  have hl : c.mutexIntSave.links = c.links := congrArg Kernel.links mutexIntSave_kernel
  rw [hl] at h₁
  cases hg : getFirst (.exitCondVar t) c.links with
  | none =>
    rw [hg] at h₁
    obtain rfl : c.mutexIntSave = c₁ := Option.some.inj h₁
    simp
  | some n =>
    rw [hg] at h₁
    have hn : n ≠ .exitCondVar t := by
      rintro rfl
      simp [getFirst] at hg
    simp [hw n _ _ hn h₁]

theorem quiet_reportExit (h : c.reportExit t = some c') : c'.Quiet ↔
    getFirst (.exitCondVar (c.kernel.task t).parent)
    (Kernel.exitLinks t (c.kernel.task t).parent c.kernel.links) = none ∧
      c.Quiet := by
  unfold reportExit at h
  dsimp only at h
  split at h
  · rw [quiet_withQueue (fun _ _ _ hn h => not_quiet_wakeAll hn h) h]
    simp only [quiet_step, flag_step, quiet_disableInterrupts, flag_disableInterrupts, true_and]
    exact Iff.rfl
  · rw [quiet_withQueue (fun _ _ _ _ h => not_quiet_wakeLink h) h]
    simp only [quiet_step, flag_step, quiet_disableInterrupts, flag_disableInterrupts, true_and]
    exact Iff.rfl

end

end Cpu

/-! ## The sections of do_vanish -/

namespace Sections

def Off (s : Sections) : Prop := (∀ b ∈ s.reparent, b = false) ∧ ∀ b ∈ s.report, b = false

end Sections

namespace Cpu

open Kernel Life

section
variable {c : Cpu} {s : Sections} {live dead : Finset Word} {ts : List Word}

theorem doVanish_sections
    (hr : IsRing c.kernel.links (.threadMap (mapIndex (c.kernel.thread c.kernel.currThread).id)) (ts.map .threadMapLink))
    (hm : c.kernel.currThread ∈ ts)
    (hid : ∀ y ∈ ts, (c.kernel.thread y).id = (c.kernel.thread c.kernel.currThread).id → y = c.kernel.currThread)
    (h : c.doVanish = some s) :
    (getFirst (.threadHead c.kernel.currTask) (threadGone c.kernel.currThread c.kernel.links) ≠ none ∧ s.Off) ∨
    (getFirst (.threadHead c.kernel.currTask) (threadGone c.kernel.currThread c.kernel.links) = none ∧
      ¬ (∀ b ∈ s.reparent, b = false) ∧ ∃ (c₁ c₂ : Cpu) (k₁ : Kernel),
      c₁.Quiet ∧ c₁.kernel = leaveSpace c.kernel.currTask k₁ ∧
      Kernel.giveChildren c.kernel.currTask { c.kernel with links := threadGone c.kernel.currThread c.kernel.links } = some k₁ ∧
      c₁.reportExit c.kernel.currTask = some c₂ ∧ ((∀ b ∈ s.report, b = false) ↔ c₂.Quiet)) := by
  unfold doVanish at h
  simp only [Option.bind_eq_bind, Option.bind_eq_some_iff] at h
  obtain ⟨c₁, hlock, c₂, hrem, c₃, hun, h⟩ := h
  have hlock' := mutexLock_kernel.symm.trans (congrArg (Option.map kernel) hlock)
  have hrem' := removeThreadFromTask_kernel.symm.trans (congrArg (Option.map kernel) hrem)
  have hun' := mutexUnlock_kernel.symm.trans (congrArg (Option.map kernel) hun)
  obtain ⟨hv, hk₁⟩ := mutexLock_some hlock'
  rw [hk₁, removeThreadFromTask_eq (k := c.kernel.setLock _ .locked) hr hm hid, Option.map_some,
    Option.some.injEq] at hrem'
  have hk₂ : c₂.links = threadGone c.kernel.currThread c.kernel.links := by
    rw [links, ← hrem']
    rfl
  have hk₃ : c₃.kernel = { c.kernel with links := threadGone c.kernel.currThread c.kernel.links } := by
    rw [mutexUnlock_some hun', ← hrem']
    exact congrArg (withLinks (threadGone c.kernel.currThread)) (unlock_lock hv)
  rw [hk₂] at h
  split at h
  · rename_i n hn
    left
    rw [Option.pure_def, Option.some.injEq] at h
    subst h
    exact ⟨by simp [hn], List.forall_mem_nil _, quiet_freeThread.mpr quiet_mark⟩
  · rename_i hn
    right
    simp only [Option.bind_eq_some_iff, Option.pure_def, Option.some.injEq] at h
    obtain ⟨c₄, hgive, c₅, hreport, rfl⟩ := h
    have hgive' := giveChildren_kernel.symm.trans (congrArg (Option.map kernel) hgive)
    rw [mark_kernel, hk₃] at hgive'
    exact ⟨hn, not_quiet_giveChildren hgive, _, c₅, c₄.kernel, quiet_mark, rfl, hgive', hreport, quiet_freeThread⟩

/-- The first section is never quiet. The second one is when no thread of the
parent sleeps in `do_wait`. Neither runs while the task has another thread. -/
theorem vanish_sections_off (h : Tree c.kernel live dead) (hthr : c.kernel.currThread ∈ c.kernel.threads)
    (hawake : (c.kernel.thread c.kernel.currThread).status ≠ .waiting)
    (hthreads : c.kernel.locks (.threadListMutex c.kernel.currTask) = .valid)
    (hvanish : c.kernel.locks (.vanishMutex c.kernel.currTask) = .valid)
    (hinit : c.kernel.locks (.childListMutex c.kernel.initTask) = .valid)
    (hroot : (c.kernel.currTask = c.kernel.initTask ∨ c.kernel.currTask = c.kernel.idleTask) →
      ∃ y ∈ c.kernel.threads, (c.kernel.thread y).parentTask = c.kernel.currTask ∧ y ≠ c.kernel.currThread) :
    ∃ s, c.doVanish = some s ∧
      (s.Off ↔ ∃ y ∈ c.kernel.threads, (c.kernel.thread y).parentTask = c.kernel.currTask ∧ y ≠ c.kernel.currThread) ∧
      ((∀ b ∈ s.report, b = false) ↔
        (∃ y ∈ c.kernel.threads, (c.kernel.thread y).parentTask = c.kernel.currTask ∧ y ≠ c.kernel.currThread) ∨
        ∀ y ∈ c.kernel.threads, (c.kernel.thread y).parentTask = (c.kernel.task c.kernel.currTask).parent →
          (c.kernel.thread y).status ≠ .waiting) := by
  obtain ⟨k', hk'⟩ := h.vanish_returns hthr hawake hthreads hvanish hinit hroot
  rw [← doVanish_kernel] at hk'
  obtain ⟨s, hs, -⟩ := Option.map_eq_some_iff.mp hk'
  have hhead := h.threadHead hthr hawake
  obtain ⟨ls, hl⟩ := h.1
  obtain ⟨ts, hring, hm, hone⟩ := Tree.bucket hl h.2 hthr
  refine ⟨s, hs, ?_⟩
  rcases doVanish_sections hring hm hone hs with ⟨hsome, hoff⟩ | ⟨hnone, hloud, c₁, c₂, k₁, hq, hk₁, hgiven, hreport,
    hiff⟩
  · have hmore := not_not.mp (mt hhead.mpr hsome)
    exact ⟨iff_of_true hoff hmore, iff_of_true hoff.2 (Or.inl hmore)⟩
  · have hlast := hhead.mp hnone
    refine ⟨iff_of_false (fun hoff => hloud hoff.1) hlast, ?_⟩
    have hi : c.kernel.currTask ≠ c.kernel.initTask := fun e => hlast (hroot (Or.inl e))
    have hd : c.kernel.currTask ≠ c.kernel.idleTask := fun e => hlast (hroot (Or.inr e))
    obtain ⟨as, ds, ls', has, hds, hcs, hgive⟩ := h.handOver hthr hawake hi
    obtain ⟨woken, rest, -, hfirst, hwait, -⟩ := h.report hthr hawake hi hd hcs hgive
    rw [giveChildren_some (k := { c.kernel with links := threadGone c.kernel.currThread c.kernel.links }) has hds hgiven] at hk₁
    have hparent := h.2.parent c.kernel.currTask (h.2.mem_tasks.mpr (Or.inl (h.2.owner _ hthr))) hi hd
    have hp : (c₁.kernel.task c.kernel.currTask).parent = (c.kernel.task c.kernel.currTask).parent := by
      have hself : c.kernel.currTask ∉ as ++ ds := fun hm => hparent.2 ((hcs _).mp hm).2
      rw [hk₁]
      simp [leaveSpace, given, setTask, adopt, hself]
    rw [hiff, quiet_reportExit hreport, hp, hk₁]
    rw [handedOver] at hfirst
    rw [hfirst, and_iff_left hq, List.head?_eq_none_iff, List.map_eq_nil_iff, List.eq_nil_iff_forall_not_mem,
      or_iff_right hlast]
    refine forall_congr' fun y => ?_
    rw [hwait]
    exact ⟨fun hn hy howner hs => hn ⟨hy, howner, hs⟩, fun hn hy => hn hy.1 hy.2.1 hy.2.2⟩

end

/-! `init` has one child. Either it waits, or the child has a second thread. -/

def enter (thr : Word) (x : Life) : Cpu := ⟨x.kernel.switchToThread thr, true, []⟩

def oneWaits : Life := waited 0x200#32 oneChild

def twoThreads : Life :=
  match (oneChild.kernel.switchToThread 0x600#32).doThreadFork (some 0xb00#32) with
  | some (_, k) => { oneChild with kernel := k }
  | none => oneChild

theorem oneChild_reach : Runs.Reach Booted (Step fun _ _ => True) oneChild :=
  (Runs.Reach.start bootLife_booted).tail oneChild_step.1

theorem twoThreads_reach : Runs.Reach Booted (Step fun _ _ => True) twoThreads := by
  refine oneChild_reach.tail ?_
  have hr : ((oneChild.kernel.switchToThread 0x600#32).doThreadFork (some 0xb00#32)).isSome := by decide +kernel
  obtain ⟨⟨r, k'⟩, he⟩ := Option.isSome_iff_exists.mp hr
  have hheap : Heap oneChild.kernel none (some 0xb00#32) := by
    constructor
    · rintro _ ⟨⟩
    · rintro _ ⟨⟩
      decide +kernel
  have hstep : Step (fun _ _ => True) oneChild { oneChild with kernel := k' } :=
    .threadFork (by decide +kernel) rfl hheap he
  unfold twoThreads
  rw [he]
  exact hstep

theorem vanish_sections_off_two : ∃ s, (enter 0x600#32 twoThreads).doVanish = some s ∧ s.Off := by
  obtain ⟨live, ht⟩ := (inv_of_reach twoThreads_reach).tree
  have hr : twoThreads.Ready 0x600#32 := by decide +kernel
  have hmore : ∃ y ∈ (enter 0x600#32 twoThreads).kernel.threads,
    ((enter 0x600#32 twoThreads).kernel.thread y).parentTask =
      (enter 0x600#32 twoThreads).kernel.currTask ∧ y ≠ (enter 0x600#32 twoThreads).kernel.currThread :=
    ⟨0xb00#32, by decide +kernel, by decide +kernel, by decide +kernel⟩
  obtain ⟨s, hs, hoff, -⟩ := vanish_sections_off (c := enter 0x600#32 twoThreads)
    (Tree.switchToThread ht hr) hr.1 status_switchToThread
    (by decide +kernel) (by decide +kernel) (by decide +kernel) fun _ => hmore
  exact ⟨s, hs, hoff.mpr hmore⟩

/-- Interrupts are on while the children of the task are given to `init`, and
again when the waiting parent was put on the run queue. -/
theorem vanish_interrupts_on : Runs.Reach Booted (Step fun _ _ => True) oneWaits ∧ oneWaits.Ready 0x600#32 ∧
    oneWaits.kernel.locks (.threadListMutex 0x500#32) = .valid ∧
      oneWaits.kernel.locks (.vanishMutex 0x500#32) = .valid ∧
    oneWaits.kernel.locks (.childListMutex oneWaits.kernel.initTask) = .valid ∧
    ∃ s, (enter 0x600#32 oneWaits).doVanish = some s ∧ true ∈ s.reparent ∧ true ∈ s.report := by
  refine ⟨oneChild_reach.tail (step_waited (by decide +kernel) rfl
    (by decide +kernel)), by decide +kernel, by decide +kernel,
    by decide +kernel, by decide +kernel, ?_⟩
  have hlogs : (enter 0x600#32 oneWaits).doVanish.map
    (fun s => (decide (true ∈ s.reparent), decide (true ∈ s.report))) =
      some (true, true) := by decide +kernel
  obtain ⟨s, hs, he⟩ := Option.map_eq_some_iff.mp hlogs
  rw [Prod.mk.injEq, decide_eq_true_eq, decide_eq_true_eq] at he
  exact ⟨s, hs, he⟩

end Cpu

end Pebbles
