import Pebbles.Life

/-!
# Every exit is reported once

A step of a run is a change of the process tree. From the changes follow that
the tree stays in the lists, that no exit is reported twice, and when a thread
of `init` can sleep beside dead children.
-/

namespace Pebbles

open Words Ring Kernel

namespace Life

/-! ## Steps as changes of the tree -/

inductive Change (ok : Life → Word → Prop) (x : Life) (live : Finset Word) : Life → Finset Word → Prop
  | quiet {k'} : View.Same x.kernel.view k'.view →
      (∀ c ∈ x.vanished, (k'.task c).exitStatus = (x.kernel.task c).exitStatus) →
      Change ok x live { x with kernel := k' } live
  | fork {k' p t thr} : t ∉ x.kernel.tasks → thr ∉ x.kernel.threads → x.kernel.nextTid ≠ MAX_TID →
      k'.view = x.kernel.view.fork p t thr k'.links →
      (∀ c ≠ t, (k'.task c).exitStatus = (x.kernel.task c).exitStatus) →
      Change ok x live { x with kernel := k' } (insert t live)
  | threadFork {k' t thr} : thr ∉ x.kernel.threads → x.kernel.nextTid ≠ MAX_TID →
      k'.view = x.kernel.view.addThread t thr k'.links → k'.task = x.kernel.task →
      Change ok x live { x with kernel := k' } live
  | leave {k' thr} : x.wait thr = none → k'.view = x.kernel.view.dropThread thr → k'.task = x.kernel.task →
      Change ok x live { x with kernel := k' } live
  | vanish {k' thr cs woken} : x.wait thr = none → x.taskOf thr ∈ live → ok x (x.taskOf thr) →
      k'.view = vanishView (x.taskOf thr) thr cs woken k'.links x.kernel.view →
      Vanished x.kernel k' (x.taskOf thr) live x.vanished cs woken →
      Change ok x live { x with
        kernel := k'
        vanished := insert (x.taskOf thr) x.vanished
        log := x.log ++ [.exited (x.kernel.task (x.taskOf thr)).id (x.kernel.task (x.taskOf thr)).exitStatus] }
        (live.erase (x.taskOf thr))
  | failed {k' thr} : x.Ready thr → (∀ c ∈ x.vanished, (x.kernel.task c).parent ≠ x.taskOf thr) → k'.view = x.kernel.view →
      k'.task = x.kernel.task → Change ok x live { x with kernel := k', wait := Function.update x.wait thr none } live
  | sleep {k' thr p} : x.Ready thr → (∀ c ∈ x.vanished, (x.kernel.task c).parent ≠ x.taskOf thr) →
      k'.view = x.kernel.view.sleep thr k'.links → k'.task = x.kernel.task →
      Change ok x live { x with kernel := k', wait := Function.update x.wait thr (some p) } live
  | reap {k' thr c} : x.Ready thr → c ∈ x.vanished → (x.kernel.task c).parent = x.taskOf thr →
      k'.view = x.kernel.view.reap c k'.links → k'.task = x.kernel.task →
      Change ok x live {
        kernel := k'
        vanished := x.vanished.erase c
        wait := Function.update x.wait thr none
        log := x.log ++ [.reaped (x.kernel.task c).id (x.kernel.task c).exitStatus (x.taskOf thr) (x.kernel.task c).parent] } live

section
variable {ok : Life → Word → Prop} {x y : Life} {live : Finset Word} {thr p : Word} {e : WaitEnd} {k' : Kernel}

theorem Tree.switchToThread (h : Tree x.kernel live x.vanished) (hr : x.Ready thr) :
    Tree (x.kernel.switchToThread thr) live x.vanished := h.congr (view_switchToThread hr.2)

theorem status_switchToThread : ((x.kernel.switchToThread thr).thread thr).status ≠ .waiting := by
  simp [Kernel.switchToThread, setThread]

theorem owner_switchToThread (y : Word) : ((x.kernel.switchToThread thr).thread y).parentTask = x.taskOf y := by
  by_cases e : y = thr <;> simp [Kernel.switchToThread, setThread, taskOf, e]

theorem change_of_round {ds : List Word} {as : List Node} (h : Tree x.kernel live x.vanished) (hr : x.Ready thr)
    (hds : ∀ c, c ∈ ds ↔ c ∈ x.vanished ∧ (x.kernel.task c).parent = x.taskOf thr)
    (hw : WaitResult (x.taskOf thr) thr ds as (x.kernel.switchToThread thr) e k') :
    ∃ live', Tree (x.settle thr p k' e).kernel live' (x.settle thr p k' e).vanished ∧
      Change ok x live (x.settle thr p k' e) live' := by
  have hs := h.switchToThread hr
  have hview := view_switchToThread hr.2
  have ht : x.taskOf thr ∈ live := h.2.owner thr hr.1
  have hnone : ds = [] → ∀ c ∈ x.vanished, (x.kernel.task c).parent ≠ x.taskOf thr := by
    rintro rfl c hc hp
    exact List.not_mem_nil ((hds c).mpr ⟨hc, hp⟩)
  cases hw with
  | blocked hd _ =>
    refine ⟨live, hs.sleep hr.1 (owner_switchToThread thr) status_switchToThread, ?_⟩
    exact .sleep hr (hnone hd) (by rw [view_slept, hview]; rfl) rfl
  | failed hd => exact ⟨live, hs, .failed hr (hnone hd) hview rfl⟩
  | @reaped c vm hc =>
    obtain ⟨hcd, hcp⟩ := (hds c).mp (List.mem_of_mem_head? hc)
    exact ⟨live, hs.reap ht hcd hcp, .reap hr hcd hcp (by rw [view_reaped, hview]; rfl) rfl⟩

theorem vanished_switchToThread {cs woken : List Word} {t : Word} (hs : (x.kernel.thread thr).status ≠ .waiting)
    (h : Vanished (x.kernel.switchToThread thr) k' t live x.vanished cs woken) :
    Vanished x.kernel k' t live x.vanished cs woken := by
  have hasleep : ∀ y, ((x.kernel.switchToThread thr).thread y).status = .waiting ↔ (x.kernel.thread y).status = .waiting := by
    intro y
    by_cases e : y = thr
    · subst e
      simp [Kernel.switchToThread, setThread, hs]
    · simp [Kernel.switchToThread, setThread, e]
  refine ⟨h.children, ?_, ?_, h.exitStatus⟩
  · intro y hy
    have := h.wasAsleep y hy
    rw [owner_switchToThread, hasleep] at this
    exact this
  · intro y hy ho hw
    exact h.someone y hy ((owner_switchToThread y).trans ho) ((hasleep y).mpr hw)

theorem step_change (h : Tree x.kernel live x.vanished) (hs : Step ok x y) :
    ∃ live', Tree y.kernel live' y.vanished ∧ Change ok x live y live' := by
  cases hs with
  | @fork thr taskMem thrMem r k' hr hw hheap hf hne =>
    have ht := h.switchToThread hr
    have hview := view_switchToThread hr.2
    have hheap' : Heap (x.kernel.switchToThread thr) taskMem thrMem := ⟨hheap.task, hheap.thread⟩
    by_cases hnone : taskMem = none ∨ thrMem = none
    · obtain ⟨htree, hsame, hexit⟩ := ht.forkFails hr.1 hheap' hnone hf
      rw [hview] at hsame
      exact ⟨live, htree, .quiet hsame hexit⟩
    · rw [not_or] at hnone
      obtain ⟨t, rfl⟩ := Option.ne_none_iff_exists'.mp hnone.1
      obtain ⟨thr', rfl⟩ := Option.ne_none_iff_exists'.mp hnone.2
      obtain ⟨htree, htn, hv, hmax, hexit⟩ := ht.fork hr.1 hheap' hf hne
      rw [hview] at hv
      exact ⟨insert t live, htree, .fork htn (hheap.thread thr' rfl) hmax hv hexit⟩
  | @threadFork thr thrMem r k' hr hw hheap hf =>
    have ht := h.switchToThread hr
    have hview := view_switchToThread hr.2
    cases thrMem with
    | none =>
      rw [doThreadFork_none hf]
      exact ⟨live, ht, .quiet (by rw [hview]; exact View.Same.refl _) fun _ _ => rfl⟩
    | some thr' =>
      obtain ⟨htree, hv, htask, hmax⟩ := ht.threadFork hr.1 (hheap.thread thr' rfl) hf
      rw [hview] at hv
      exact ⟨live, htree, .threadFork (hheap.thread thr' rfl) hmax hv htask⟩
  | @setStatus thr status hr hw =>
    have ht := h.switchToThread hr
    have hview := (view_setStatus (k := x.kernel.switchToThread thr) status).trans (view_switchToThread hr.2)
    refine ⟨live, ht.congr (view_setStatus status), .quiet (by rw [hview]; exact View.Same.refl _) ?_⟩
    intro c hc
    -- only the status of the caller's task is set, and it has not vanished
    have hne : c ≠ (x.kernel.switchToThread thr).currTask := by
      rintro rfl
      exact Finset.disjoint_left.mp ht.2.disjoint (ht.2.owner thr hr.1) hc
    exact congrArg Task.exitStatus (Function.update_of_ne hne ..)
  | @leave thr k' hr hw hmore hv =>
    have ht := h.switchToThread hr
    simp only [Last, not_forall] at hmore
    obtain ⟨y, hy, ho, hne⟩ := hmore
    obtain ⟨htree, hview, htask⟩ := ht.leave hr.1 status_switchToThread
      ⟨y, hy, by rw [owner_switchToThread, currTask_switchToThread]; exact ho, hne⟩ hv
    rw [view_switchToThread hr.2] at hview
    exact ⟨live, htree, .leave hw hview htask⟩
  | @vanish thr k' hr hw hlast hi hd hok hv =>
    have ht := h.switchToThread hr
    obtain ⟨htree, cs, woken, hview, hvan⟩ := ht.vanish hr.1 status_switchToThread
      (fun y hy ho => hlast y hy (by rw [owner_switchToThread, currTask_switchToThread] at ho; exact ho))
      (by rw [currTask_switchToThread]; exact hi) (by rw [currTask_switchToThread]; exact hd) hv
    rw [currTask_switchToThread] at htree hview hvan
    rw [view_switchToThread hr.2] at hview
    exact ⟨_, htree, .vanish hw (h.2.owner thr hr.1) hok hview (vanished_switchToThread hr.2 hvan)⟩
  | @wait thr p e k' hr hw hdo =>
    have ht := h.switchToThread hr
    obtain ⟨ds, as, hds, hmem, has⟩ := ht.children (t := (x.kernel.switchToThread thr).currTask) (ht.2.owner thr hr.1)
    rcases doWait_cases hds has hdo with ⟨rfl, rfl⟩ | hround
    · have hsame : Function.update x.wait thr none = x.wait := by rw [← hw, Function.update_eq_self]
      simp only [settle, hsame]
      exact ⟨live, ht, .quiet (by rw [view_switchToThread hr.2]; exact View.Same.refl _) fun _ _ => rfl⟩
    · rw [currTask_switchToThread] at hround hmem
      exact change_of_round h hr hmem hround
  | @resume thr p e k' hr hw hdo =>
    have ht := h.switchToThread hr
    obtain ⟨ds, as, hds, hmem, has⟩ := ht.children (t := (x.kernel.switchToThread thr).currTask) (ht.2.owner thr hr.1)
    have hround := waitRound_cases hds has hdo
    rw [currTask_switchToThread] at hround hmem
    exact change_of_round h hr hmem hround

end

/-! ## The reports -/

structure Logged (x : Life) : Prop where
  reapedOnce : (x.log.filterMap Event.reapedId).Nodup
  exitedOnce : (x.log.filterMap Event.exitedId).Nodup
  bounded : ∀ id, id ∈ x.log.filterMap Event.reapedId ∨ id ∈ x.log.filterMap Event.exitedId →
    id.toNat ≤ x.kernel.nextTid.toNat
  reapedGone : ∀ id ∈ x.log.filterMap Event.reapedId, ∀ c ∈ x.kernel.tasks, (x.kernel.task c).id ≠ id
  exitedGone : ∀ id ∈ x.log.filterMap Event.exitedId, ∀ c ∈ x.kernel.tasks, c ∉ x.vanished → (x.kernel.task c).id ≠ id
  kept : ∀ c ∈ x.vanished, .exited (x.kernel.task c).id (x.kernel.task c).exitStatus ∈ x.log
  report : ∀ pre id status reaper parent post, x.log = pre ++ .reaped id status reaper parent :: post →
    reaper = parent ∧ .exited id status ∈ pre

section
variable {ok : Life → Word → Prop} {x y : Life} {live live' : Finset Word} {k' : Kernel}

theorem Logged.frame {wait : Word → Option Word} (h : Logged x) (hnext : x.kernel.nextTid.toNat ≤ k'.nextTid.toNat)
    (hids : ∀ c ∈ k'.tasks, (c ∈ x.kernel.tasks ∧ (k'.task c).id = (x.kernel.task c).id) ∨
      x.kernel.nextTid.toNat < ((k'.task c).id).toNat)
    (hkept : ∀ c ∈ x.vanished, (k'.task c).id = (x.kernel.task c).id ∧
      (k'.task c).exitStatus = (x.kernel.task c).exitStatus) :
    Logged { x with kernel := k', wait := wait } := by
  have hold : ∀ id, (id ∈ x.log.filterMap Event.reapedId ∨ id ∈ x.log.filterMap Event.exitedId) →
      ∀ c, x.kernel.nextTid.toNat < ((k'.task c).id).toNat → (k'.task c).id ≠ id := by
    rintro id hid c hc rfl
    exact absurd (h.bounded _ hid) (by omega)
  refine ⟨h.reapedOnce, h.exitedOnce, fun id hid => (h.bounded id hid).trans hnext, ?_, ?_, ?_, h.report⟩
  · intro id hid c hc
    rcases hids c hc with ⟨hc, he⟩ | hlt
    · rw [he]
      exact h.reapedGone id hid c hc
    · exact hold id (Or.inl hid) c hlt
  · intro id hid c hc hv
    rcases hids c hc with ⟨hc, he⟩ | hlt
    · rw [he]
      exact h.exitedGone id hid c hc hv
    · exact hold id (Or.inr hid) c hlt
  · intro c hc
    rw [(hkept c hc).1, (hkept c hc).2]
    exact h.kept c hc

theorem split_snoc {α : Type} {l pre post : List α} {e r : α} (h : l ++ [e] = pre ++ r :: post) :
    (∃ post', l = pre ++ r :: post') ∨ (l = pre ∧ e = r) := by
  cases post using List.reverseRecOn with
  | nil =>
    obtain ⟨h₁, h₂⟩ := List.append_inj' h rfl
    exact Or.inr ⟨h₁, by simpa using h₂⟩
  | append_singleton post z =>
    rw [← List.cons_append, ← List.append_assoc] at h
    exact Or.inl ⟨post, (List.append_inj' h rfl).1⟩

theorem Logged.sameTasks {wait : Word → Option Word} (h : Logged x) (hnext : x.kernel.nextTid.toNat ≤ k'.nextTid.toNat)
    (htasks : k'.tasks = x.kernel.tasks) (htask : k'.task = x.kernel.task) :
    Logged { x with kernel := k', wait := wait } := by
  refine h.frame hnext ?_ ?_
  · rw [htasks, htask]
    exact fun c hc => Or.inl ⟨hc, rfl⟩
  · rw [htask]
    exact fun c _ => ⟨rfl, rfl⟩

theorem Logged.exit {t : Word} (h : Logged x) (hf : View.Facts x.kernel.view live x.vanished) (ht : t ∈ live)
    (htasks : k'.tasks = x.kernel.tasks) (hnext : k'.nextTid = x.kernel.nextTid)
    (htask : ∀ c, (k'.task c).id = (x.kernel.task c).id ∧ (k'.task c).exitStatus = (x.kernel.task c).exitStatus) :
    Logged { x with
      kernel := k'
      vanished := insert t x.vanished
      log := x.log ++ [.exited (x.kernel.task t).id (x.kernel.task t).exitStatus] } := by
  have htv : t ∉ x.vanished := Finset.disjoint_left.mp hf.disjoint ht
  have htt : t ∈ x.kernel.tasks := hf.mem_tasks.mpr (Or.inl ht)
  have hr : (x.log ++ [Event.exited (x.kernel.task t).id (x.kernel.task t).exitStatus]).filterMap Event.reapedId =
      x.log.filterMap Event.reapedId := by
    simp [Event.reapedId]
  have he : (x.log ++ [Event.exited (x.kernel.task t).id (x.kernel.task t).exitStatus]).filterMap Event.exitedId =
      x.log.filterMap Event.exitedId ++ [(x.kernel.task t).id] := by
    simp [Event.exitedId]
  constructor
  case reapedOnce => exact hr ▸ h.reapedOnce
  case exitedOnce =>
    dsimp only
    rw [he]
    refine List.nodup_append.mpr ⟨h.exitedOnce, List.nodup_singleton _, ?_⟩
    intro id hid id' hid' e
    rw [List.mem_singleton] at hid'
    exact h.exitedGone id hid t htt htv (hid'.symm.trans e.symm)
  case bounded =>
    intro id hid
    dsimp only at hid ⊢
    rw [hr, he, List.mem_append, List.mem_singleton, ← or_assoc] at hid
    rw [hnext]
    cases hid with
    | inl hid => exact h.bounded id hid
    | inr hid => exact hid ▸ hf.taskIds t htt
  case reapedGone =>
    intro id hid c hc
    dsimp only at hid hc ⊢
    rw [hr] at hid
    rw [htasks] at hc
    rw [(htask c).1]
    exact h.reapedGone id hid c hc
  case exitedGone =>
    intro id hid c hc hv
    dsimp only at hid hc hv ⊢
    rw [he, List.mem_append, List.mem_singleton] at hid
    rw [htasks] at hc
    rw [(htask c).1]
    rw [Finset.mem_insert, not_or] at hv
    cases hid with
    | inl hid => exact h.exitedGone id hid c hc hv.2
    | inr hid =>
      rintro e
      exact hv.1 (hf.taskId_inj c hc t htt (e.trans hid))
  case kept =>
    intro c hc
    dsimp only at hc ⊢
    rw [(htask c).1, (htask c).2]
    cases Finset.mem_insert.mp hc with
    | inl e => simp [e]
    | inr hc => exact List.mem_append_left _ (h.kept c hc)
  case report =>
    intro pre id status reaper parent post hlog
    rcases split_snoc hlog with ⟨post', hlog'⟩ | ⟨-, hlog'⟩
    · exact h.report pre id status reaper parent post' hlog'
    · cases hlog'

theorem Logged.reap {t c : Word} {wait : Word → Option Word} (h : Logged x)
    (hf : View.Facts x.kernel.view live x.vanished)
    (hc : c ∈ x.vanished) (hp : (x.kernel.task c).parent = t) (htasks : k'.tasks = x.kernel.tasks.erase c)
    (hnext : k'.nextTid = x.kernel.nextTid) (htask : k'.task = x.kernel.task) :
    Logged {
      kernel := k'
      vanished := x.vanished.erase c
      wait := wait
      log := x.log ++ [.reaped (x.kernel.task c).id (x.kernel.task c).exitStatus t (x.kernel.task c).parent] } := by
  have hct : c ∈ x.kernel.tasks := hf.mem_tasks.mpr (Or.inr hc)
  have hr : (x.log ++ [Event.reaped (x.kernel.task c).id (x.kernel.task c).exitStatus t (x.kernel.task c).parent]).filterMap
      Event.reapedId = x.log.filterMap Event.reapedId ++ [(x.kernel.task c).id] := by
    simp [Event.reapedId]
  have he : (x.log ++ [Event.reaped (x.kernel.task c).id (x.kernel.task c).exitStatus t (x.kernel.task c).parent]).filterMap
      Event.exitedId = x.log.filterMap Event.exitedId := by
    simp [Event.exitedId]
  constructor
  case reapedOnce =>
    dsimp only
    rw [hr]
    refine List.nodup_append.mpr ⟨h.reapedOnce, List.nodup_singleton _, ?_⟩
    intro id hid id' hid' e
    rw [List.mem_singleton] at hid'
    exact h.reapedGone id hid c hct (hid'.symm.trans e.symm)
  case exitedOnce => exact he ▸ h.exitedOnce
  case bounded =>
    intro id hid
    dsimp only at hid ⊢
    rw [hr, he, List.mem_append, List.mem_singleton, or_right_comm] at hid
    rw [hnext]
    cases hid with
    | inl hid => exact h.bounded id hid
    | inr hid => exact hid ▸ hf.taskIds c hct
  case reapedGone =>
    intro id hid b hb
    dsimp only at hid hb ⊢
    rw [hr, List.mem_append, List.mem_singleton] at hid
    rw [htasks, Finset.mem_erase] at hb
    rw [htask]
    cases hid with
    | inl hid => exact h.reapedGone id hid b hb.2
    | inr hid =>
      intro e
      exact hb.1 (hf.taskId_inj b hb.2 c hct (e.trans hid))
  case exitedGone =>
    intro id hid b hb hv
    dsimp only at hid hb hv ⊢
    rw [he] at hid
    rw [htasks, Finset.mem_erase] at hb
    rw [htask]
    exact h.exitedGone id hid b hb.2 fun hm => hv (Finset.mem_erase.mpr ⟨hb.1, hm⟩)
  case kept =>
    intro b hb
    dsimp only at hb ⊢
    rw [htask]
    exact List.mem_append_left _ (h.kept b (Finset.mem_of_mem_erase hb))
  case report =>
    intro pre id status reaper parent post hlog
    rcases split_snoc hlog with ⟨post', hlog'⟩ | ⟨hpre, hlog'⟩
    · exact h.report pre id status reaper parent post' hlog'
    · simp only [Event.reaped.injEq] at hlog'
      obtain ⟨rfl, rfl, rfl, rfl⟩ := hlog'
      exact ⟨hp.symm, hpre ▸ h.kept c hc⟩

theorem Logged.step (h : Logged x) (ht : Tree x.kernel live x.vanished) (hc : Change ok x live y live') : Logged y := by
  have hf := ht.2
  have hsucc : x.kernel.nextTid ≠ MAX_TID → x.kernel.nextTid.toNat < (x.kernel.nextTid + 1#32).toNat := by
    intro hmax
    have := (tid_succ (show x.kernel.nextTid.toNat < 2 ^ 31 from hf.next) hmax).1
    omega
  cases hc with
  | quiet hs hexit =>
    refine h.frame (le_of_eq (congrArg BitVec.toNat hs.nextTid.symm)) ?_ ?_
    · intro c hc
      have hc' : c ∈ x.kernel.tasks := by
        rw [← show _ = x.kernel.tasks from hs.tasks]
        exact hc
      exact Or.inl ⟨hc', (hs.task c hc').2⟩
    · exact fun c hc => ⟨(hs.task c (hf.mem_tasks.mpr (Or.inr hc))).2, hexit c hc⟩
  | @fork k' p t thr htn hthr hmax hv hexit =>
    have hid : ∀ c, (k'.task c).id = if c = t then x.kernel.nextTid + 1#32 else (x.kernel.task c).id := by
      intro c
      have := congrFun (congrArg View.taskId hv) c
      simpa [Kernel.view, View.fork, Function.update_apply] using this
    have hnext : k'.nextTid = x.kernel.nextTid + 1#32 := congrArg View.nextTid hv
    have htasks : k'.tasks = insert t x.kernel.tasks := congrArg View.tasks hv
    refine h.frame ?_ ?_ ?_
    · rw [hnext]
      exact le_of_lt (hsucc hmax)
    · intro c hc
      rw [htasks, Finset.mem_insert] at hc
      rw [hid]
      by_cases e : c = t
      · rw [if_pos e]
        exact Or.inr (hsucc hmax)
      · rw [if_neg e]
        exact Or.inl ⟨hc.resolve_left e, rfl⟩
    · intro c hc
      have hne : c ≠ t := fun e => htn (e ▸ hf.mem_tasks.mpr (Or.inr hc))
      rw [hid, if_neg hne]
      exact ⟨rfl, hexit c hne⟩
  | @threadFork k' t thr hthr hmax hv htask =>
    have hnext : k'.nextTid = x.kernel.nextTid + 1#32 := congrArg View.nextTid hv
    exact h.sameTasks (by rw [hnext]; exact le_of_lt (hsucc hmax)) (congrArg View.tasks hv) htask
  | leave _ hv htask => exact h.sameTasks (le_of_eq (congrArg (·.nextTid.toNat) hv.symm)) (congrArg View.tasks hv) htask
  | vanish hw htl hok hv hvan =>
    exact h.exit hf htl (congrArg View.tasks hv) (congrArg View.nextTid hv) fun c =>
      ⟨congrFun (congrArg View.taskId hv) c, hvan.exitStatus c⟩
  | failed _ _ hv htask => exact h.sameTasks (le_of_eq (congrArg (·.nextTid.toNat) hv.symm)) (congrArg View.tasks hv) htask
  | sleep _ _ hv htask => exact h.sameTasks (le_of_eq (congrArg (·.nextTid.toNat) hv.symm)) (congrArg View.tasks hv) htask
  | reap _ hc hp hv htask => exact h.reap hf hc hp (congrArg View.tasks hv) (congrArg View.nextTid hv) htask

end

/-! ## The tree is well formed -/

def live (x : Life) : Finset Word := x.kernel.tasks \ x.vanished

def occurrences (c : Word) (l : List Node) : Nat := l.countP fun n => entryTask n = some c

def Placed (x : Life) (c : Word) : Prop :=
  (x.kernel.task c).parent ∈ x.live ∧ ∀ t ∈ x.live, ∃ alive dead,
    IsRing x.kernel.links (.childTaskHead t) alive ∧ IsRing x.kernel.links (.deadChildHead t) dead ∧
    occurrences c alive = (if c ∉ x.vanished ∧ (x.kernel.task c).parent = t then 1 else 0) ∧
    occurrences c dead = (if c ∈ x.vanished ∧ (x.kernel.task c).parent = t then 1 else 0)

/-- An id is returned by one `do_wait` at most, after its task vanished and with
the status that it vanished with, and to its parent. -/
structure Reported (x : Life) : Prop where
  vanishesOnce : (x.log.filterMap Event.exitedId).Nodup
  reapedOnce : (x.log.filterMap Event.reapedId).Nodup
  toParent : ∀ pre id status reaper parent post, x.log = pre ++ .reaped id status reaper parent :: post →
    reaper = parent ∧ .exited id status ∈ pre

section
variable {ok : Life → Word → Prop} {x y : Life} {c : Word} {live : Finset Word}

theorem occurrences_map {f : Word → Node} {cs : List Word} (hf : ∀ c, entryTask (f c) = some c) (hn : cs.Nodup) :
    occurrences c (cs.map f) = if c ∈ cs then 1 else 0 := by
  rw [occurrences, List.countP_map, ← hn.count]
  refine List.countP_congr ?_
  simp [hf]

theorem Tree.live_eq (h : Tree x.kernel live x.vanished) : x.live = live := by
  unfold Life.live
  rw [show x.kernel.tasks = live ∪ x.vanished from h.2.tasks]
  exact Finset.union_sdiff_cancel_right h.2.disjoint

theorem Tree.placed (h : Tree x.kernel live x.vanished) (hc : c ∈ x.kernel.tasks) (hi : c ≠ x.kernel.initTask)
    (hd : c ≠ x.kernel.idleTask) : x.Placed c := by
  obtain ⟨⟨ls, hl⟩, hf⟩ := h
  unfold Placed
  rw [Tree.live_eq ⟨⟨ls, hl⟩, hf⟩]
  refine ⟨(hf.parent c hc hi hd).1, ?_⟩
  intro t ht
  obtain ⟨as, has, hasmem⟩ := hl.alive ht
  obtain ⟨ds, hds, hdsmem⟩ := hl.deadChildren ht
  have ha := hl.rings.ring (.childTaskHead t) ht
  have hb := hl.rings.ring (.deadChildHead t) ht
  rw [has] at ha
  rw [hds] at hb
  have hlive : c ∈ live ↔ c ∉ x.vanished := by
    have hm := hf.mem_tasks.mp hc
    exact ⟨fun hm => Finset.disjoint_left.mp hf.disjoint hm, fun hn => hm.resolve_right hn⟩
  refine ⟨_, _, ha, hb, ?_, ?_⟩
  · rw [occurrences_map (fun _ => rfl) (List.nodup_cons.mp ha.nodup).2.of_map]
    simp only [hasmem c, hlive]
    rfl
  · rw [occurrences_map (fun _ => rfl) (List.nodup_cons.mp hb.nodup).2.of_map]
    simp only [hdsmem c]
    rfl

structure Inv (x : Life) : Prop where
  tree : ∃ live, Tree x.kernel live x.vanished
  logged : Logged x

theorem Booted.inv (h : Booted x) : Inv x := by
  refine ⟨⟨_, h.tree⟩, ?_⟩
  constructor <;> simp [h.log, h.vanished]

theorem Inv.step (h : Inv x) (hs : Step ok x y) : Inv y := by
  obtain ⟨live, ht⟩ := h.tree
  obtain ⟨live', ht', hc⟩ := step_change ht hs
  exact ⟨⟨live', ht'⟩, h.logged.step ht hc⟩

theorem inv_of_reach (h : Runs.Reach Booted (Step ok) x) : Inv x :=
  h.invariant (fun _ hb => hb.inv) fun _ _ hi hs => hi.step hs

/-! ### A run of four generations -/

instance (x : Life) (thr : Word) : Decidable (x.Ready thr) := inferInstanceAs (Decidable (_ ∧ _))

instance (x : Life) (thr : Word) : Decidable (x.Last thr) := Finset.decidableDforallFinset

def bareVm : Vm where
  kmem _ _ := PAGE_DIR_ENTRY_DEFAULT
  directMap _ := 0#32
  pds := {0x5000#32}
  avail := [0x6000#32, 0x7000#32, 0x8000#32]
  cr3 := 0x5000#32
  fr := initFreeList 1
  umem _ _ := 0#8

def emptyKernel : Kernel where
  vm := bareVm
  task _ := ⟨0#32, 0x5000#32, 0#32, 0#32, 0#32, 0#32, 0#32, 0#32⟩
  tasks := ∅
  thread _ := ⟨0#32, 0#32, fun _ => 0#32, 0#32, 0#32, 0#32, .runnable⟩
  threads := ∅
  links := ⟨id, id⟩
  locks _ := .valid
  runq := []
  nextTid := 0#32
  currThread := 0#32
  initTask := 0x100#32
  idleTask := 0x300#32
  kernelPd := 0x5000#32
  iretFun := 0#32

def bootLife : Life where
  kernel := newTask 0#32 0x300#32 0x400#32 (newTask 0#32 0x100#32 0x200#32 emptyKernel)
  vanished := ∅
  wait _ := none
  log := []

theorem heap_of {k : Kernel} {t thr : Word} (h0 : t ≠ 0#32) (ht : t ∉ k.tasks) (hthr : thr ∉ k.threads) :
    Heap k (some t) (some thr) := by
  constructor
  · rintro _ ⟨⟩
    exact ⟨h0, ht⟩
  · rintro _ ⟨⟩
    exact hthr

theorem bootLife_booted : Booted bootLife where
  created := ⟨emptyKernel, _, _, 0x200#32, 0x400#32, rfl, rfl, rfl, fun _ _ _ => isRing_nil.mpr ⟨rfl, rfl⟩,
    heap_of (by decide) (by decide) (by decide), createTask_eq (by decide) (by decide),
    heap_of (by decide) (by decide) (by decide), createTask_eq (by decide) (by decide), rfl⟩
  vanished := rfl
  wait _ := rfl
  log := rfl

def forked (thr t thr' newPd : Word) (x : Life) : Life :=
  let k := x.kernel.switchToThread thr
  { x with kernel := cloned k.currTask t newPd (k.vm.withDirectory newPd) (attached k.currTask t thr' k) }

def waited (thr : Word) (x : Life) : Life :=
  match (x.kernel.switchToThread thr).doWait 0#32 with
  | some (e, k') => x.settle thr 0#32 k' e
  | none => x

def vanishedBy (thr : Word) (x : Life) : Life :=
  match (x.kernel.switchToThread thr).doVanish with
  | some k' => { x with
      kernel := k'
      vanished := insert (x.taskOf thr) x.vanished
      log := x.log ++ [.exited (x.kernel.task (x.taskOf thr)).id (x.kernel.task (x.taskOf thr)).exitStatus] }
  | none => x

theorem step_forked {thr t thr' newPd : Word} (hb : x.kernel.vm.Bare) (hr : x.Ready thr) (hw : x.wait thr = none)
    (h : t ≠ 0#32 ∧ t ∉ x.kernel.tasks ∧ thr' ∉ x.kernel.threads)
    (hid : x.kernel.nextTid ≠ MAX_TID ∧ (x.kernel.nextTid + 1#32).toInt ≠ ERR_FAILURE)
    (ht : x.taskOf thr ≠ t ∧ (x.kernel.task (x.taskOf thr)).pdbr ≠ 0#32 ∧
      x.kernel.locks (.forkMutex (x.taskOf thr)) = .valid ∧ x.kernel.locks (.vanishMutex (x.taskOf thr)) = .valid)
    (ha : x.kernel.vm.avail.head? = some newPd) :
    Step ok x (forked thr t thr' newPd x) ∧ (forked thr t thr' newPd x).kernel.vm.Bare := by
  have hcurr : (x.kernel.switchToThread thr).currTask = x.taskOf thr := currTask_switchToThread
  have hpd : ((x.kernel.switchToThread thr).task (x.kernel.switchToThread thr).currTask).pdbr ≠ 0#32 := by
    rw [hcurr]
    exact ht.2.1
  have hclone := Vm.clonePagingInfo_bare (s := (x.kernel.switchToThread thr).vm) hpd ha hb
  have hfork := doFork_eq thr' (k := x.kernel.switchToThread thr) h.1 (hcurr ▸ ht.1) hid.1 (hcurr ▸ ht.2.2.1)
    (hcurr ▸ ht.2.2.2) hclone
  exact ⟨.fork hr hw (heap_of h.1 h.2.1 h.2.2) hfork hid.2,
    Vm.Bare.withDirectory (s := (x.kernel.switchToThread thr).vm) hb newPd⟩

theorem step_waited {thr : Word} (hr : x.Ready thr) (hw : x.wait thr = none)
    (h : ((x.kernel.switchToThread thr).doWait 0#32).isSome) : Step ok x (waited thr x) := by
  obtain ⟨⟨e, k'⟩, he⟩ := Option.isSome_iff_exists.mp h
  have hstep : Step ok x (x.settle thr 0#32 k' e) := .wait hr hw he
  unfold waited
  rw [he]
  exact hstep

theorem step_vanishedBy {thr : Word} (hr : x.Ready thr) (hw : x.wait thr = none) (hl : x.Last thr)
    (ht : x.taskOf thr ≠ x.kernel.initTask ∧ x.taskOf thr ≠ x.kernel.idleTask) (hok : ok x (x.taskOf thr))
    (h : (x.kernel.switchToThread thr).doVanish.isSome) : Step ok x (vanishedBy thr x) := by
  obtain ⟨k', he⟩ := Option.isSome_iff_exists.mp h
  have hstep := Step.vanish hr hw hl ht.1 ht.2 hok he
  unfold vanishedBy
  rw [he]
  exact hstep

/-! `init` forks a task at `0x500`, that one at `0x700`, and that one at `0x900`. -/

def oneChild : Life := forked 0x200#32 0x500#32 0x600#32 0x6000#32 bootLife
def twoGenerations : Life := forked 0x600#32 0x700#32 0x800#32 0x7000#32 oneChild
def threeGenerations : Life := forked 0x800#32 0x900#32 0xa00#32 0x8000#32 twoGenerations

/-! `init` waits. The youngest task vanishes, then its parent. -/

def initWaits : Life := waited 0x200#32 threeGenerations
def youngestGone : Life := vanishedBy 0xa00#32 initWaits
def parentGone : Life := vanishedBy 0x800#32 youngestGone

theorem oneChild_step : Step ok bootLife oneChild ∧ oneChild.kernel.vm.Bare :=
  step_forked (fun _ _ _ => rfl) (by decide +kernel) rfl (by decide +kernel) (by decide +kernel) (by decide +kernel) rfl

theorem twoGenerations_step : Step ok oneChild twoGenerations ∧ twoGenerations.kernel.vm.Bare :=
  step_forked (oneChild_step : Step ok bootLife oneChild ∧ _).2 (by decide +kernel) rfl (by decide +kernel) (by decide +kernel)
    (by decide +kernel) (by decide +kernel)

theorem threeGenerations_step : Step ok twoGenerations threeGenerations :=
  (step_forked (twoGenerations_step : Step ok oneChild twoGenerations ∧ _).2 (by decide +kernel) rfl (by decide +kernel) (by decide +kernel)
    (by decide +kernel) (by decide +kernel)).1

theorem initWaits_step : Step ok threeGenerations initWaits := step_waited (by decide +kernel) rfl (by decide +kernel)

theorem initWaits_reach : Runs.Reach Booted (Step ok) initWaits :=
  ((((Runs.Reach.start bootLife_booted).tail oneChild_step.1).tail twoGenerations_step.1).tail threeGenerations_step).tail
    initWaits_step

theorem youngestGone_step (hok : ok initWaits 0x900#32) : Step ok initWaits youngestGone := by
  have htask : initWaits.taskOf 0xa00#32 = 0x900#32 := by decide +kernel
  refine step_vanishedBy (by decide +kernel) (by decide +kernel) (by decide +kernel) (by decide +kernel) ?_ (by decide +kernel)
  rw [htask]
  exact hok

theorem parentGone_step (hok : ok youngestGone 0x700#32) : Step ok youngestGone parentGone := by
  have htask : youngestGone.taskOf 0x800#32 = 0x700#32 := by decide +kernel
  refine step_vanishedBy (by decide +kernel) (by decide +kernel) (by decide +kernel) (by decide +kernel) ?_ (by decide +kernel)
  rw [htask]
  exact hok

theorem process_tree_well_formed (h : Runs.Reach Booted (Step fun _ _ => True) x) :
    (∀ c ∈ x.kernel.tasks, c ≠ x.kernel.initTask → c ≠ x.kernel.idleTask → x.Placed c) ∧ x.Reported := by
  have hi := inv_of_reach h
  obtain ⟨live, ht⟩ := hi.tree
  exact ⟨fun c hc hci hcd => ht.placed hc hci hcd, hi.logged.exitedOnce, hi.logged.reapedOnce, hi.logged.report⟩

def reapedLife : Life := waited 0x600#32 parentGone

theorem process_tree_well_formed_reaped :
    reapedLife.log = [.exited 5#32 0#32, .exited 4#32 0#32, .reaped 4#32 0#32 0x500#32 0x500#32] ∧
    (∀ c ∈ reapedLife.kernel.tasks, c ≠ reapedLife.kernel.initTask → c ≠ reapedLife.kernel.idleTask →
      reapedLife.Placed c) ∧
      reapedLife.Reported := by
  have hstep : Step (fun _ _ => True) parentGone reapedLife :=
    step_waited (by decide +kernel) (by decide +kernel) (by decide +kernel)
  exact ⟨by decide +kernel, process_tree_well_formed
    (((initWaits_reach.tail (youngestGone_step trivial)).tail (parentGone_step trivial)).tail hstep)⟩

end

end Life

end Pebbles
