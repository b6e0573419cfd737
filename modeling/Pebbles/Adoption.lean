import Pebbles.LifeSound

/-!
# Children that `init` adopts dead

A task that vanishes hands its dead children to `init` without a signal. While
no such task has dead children, the dead children of `init` never outnumber the
threads of `init` that were woken for them, as long as another one sleeps.
-/

namespace Pebbles

open Words Ring Kernel

namespace View

def sleepers (v : View) : Finset Word := v.threads.filter fun y => v.owner y = v.initTask ∧ v.asleep y = true

def pending (v : View) (wait : Word → Option Word) : Finset Word :=
  v.threads.filter fun y => v.owner y = v.initTask ∧ wait y ≠ none ∧ v.asleep y = false

def deadOfInit (v : View) (dead : Finset Word) : Finset Word := dead.filter fun c => v.parent c = v.initTask

structure Waits (v : View) (wait : Word → Option Word) : Prop where
  threads : ∀ y, wait y ≠ none → y ∈ v.threads
  asleep : ∀ y ∈ v.threads, v.asleep y = true → wait y ≠ none

def Covered (v : View) (wait : Word → Option Word) (dead : Finset Word) : Prop :=
  v.sleepers.Nonempty → (v.deadOfInit dead).card ≤ (v.pending wait).card

section
variable {v v' : View} {wait : Word → Option Word} {dead live : Finset Word} {t thr c p : Word} {L : Links Node}

theorem mem_sleepers {y : Word} : y ∈ v.sleepers ↔ y ∈ v.threads ∧ v.owner y = v.initTask ∧ v.asleep y = true :=
  Finset.mem_filter

theorem mem_pending {y : Word} :
    y ∈ v.pending wait ↔ y ∈ v.threads ∧ v.owner y = v.initTask ∧ wait y ≠ none ∧ v.asleep y = false :=
  Finset.mem_filter

theorem Covered.mono {wait' : Word → Option Word} {dead' : Finset Word} (h : Covered v wait dead)
    (hs : v'.sleepers ⊆ v.sleepers) (hd : v'.deadOfInit dead' ⊆ v.deadOfInit dead)
    (hp : v.pending wait ⊆ v'.pending wait') :
    Covered v' wait' dead' := by
  intro hne
  exact (Finset.card_le_card hd).trans ((h (hne.mono hs)).trans (Finset.card_le_card hp))

theorem Waits.addThread (h : Waits v wait) : Waits (v.addThread t thr L) wait := by
  refine ⟨fun y hy => Finset.mem_insert_of_mem (h.threads y hy), ?_⟩
  intro y hy ha
  by_cases e : y = thr
  · simp [View.addThread, e] at ha
  · simp only [View.addThread, ne_eq, e, not_false_eq_true, Function.update_of_ne] at ha
    exact h.asleep y (Finset.mem_of_mem_insert_of_ne hy e) ha

theorem Waits.fork (h : Waits v wait) : Waits (v.fork p t thr L) wait :=
  have hadd : Waits (v.addThread t thr L) wait := h.addThread
  ⟨hadd.threads, hadd.asleep⟩

theorem Covered.addThread (h : Covered v wait dead) (hthr : thr ∉ v.threads) :
    Covered (v.addThread t thr L) wait dead := by
  refine h.mono ?_ (Finset.Subset.refl _) ?_
  · intro y
    by_cases e : y = thr
    · simp [mem_sleepers, View.addThread, e]
    · simp [mem_sleepers, View.addThread, e]
  · intro y
    by_cases e : y = thr
    · simp [mem_pending, e, hthr]
    · simp [mem_pending, View.addThread, e]

theorem Covered.fork (h : Covered v wait dead) (hthr : thr ∉ v.threads) (ht : t ∉ dead) :
    Covered (v.fork p t thr L) wait dead := by
  have hd : (v.fork p t thr L).deadOfInit dead = v.deadOfInit dead := by
    refine Finset.filter_congr fun c hc => ?_
    have hne : c ≠ t := fun e => ht (e ▸ hc)
    simp [View.fork, View.addThread, hne]
  exact (h.addThread (t := t) (L := L) hthr).mono (Finset.Subset.refl _) hd.subset (Finset.Subset.refl _)

theorem Waits.dropThread (h : Waits v wait) (hw : wait thr = none) : Waits (v.dropThread thr) wait := by
  refine ⟨fun y hy => ?_, fun y hy => h.asleep y (Finset.mem_of_mem_erase hy)⟩
  refine Finset.mem_erase.mpr ⟨?_, h.threads y hy⟩
  rintro rfl
  exact hy hw

theorem Covered.dropThread (h : Covered v wait dead) (hw : wait thr = none) : Covered (v.dropThread thr) wait dead := by
  refine h.mono ?_ (Finset.Subset.refl _) ?_
  · intro y
    simp only [mem_sleepers, View.dropThread, Finset.mem_erase]
    exact fun hy => ⟨hy.1.2, hy.2⟩
  · intro y
    simp only [mem_pending, View.dropThread, Finset.mem_erase]
    rintro ⟨hy, ho, hne, ha⟩
    refine ⟨⟨?_, hy⟩, ho, hne, ha⟩
    rintro rfl
    exact hne hw

theorem Covered.leaveWait (h : Covered v wait dead) (hnone : ∀ c ∈ dead, v.parent c ≠ v.owner thr) :
    Covered v (Function.update wait thr none) dead := by
  by_cases ho : v.owner thr = v.initTask
  · intro _
    have hd : v.deadOfInit dead = ∅ := Finset.filter_eq_empty_iff.mpr fun c hc => ho ▸ hnone c hc
    rw [hd]
    exact Nat.zero_le _
  · refine h.mono (Finset.Subset.refl _) (Finset.Subset.refl _) ?_
    intro y
    have hne : v.owner y = v.initTask → y ≠ thr := by
      rintro hy rfl
      exact ho hy
    simp only [mem_pending, Function.update_apply]
    grind

theorem Waits.leaveWait (h : Waits v wait) (ha : v.asleep thr = false) : Waits v (Function.update wait thr none) := by
  refine ⟨fun y hy => h.threads y ?_, fun y hy has => ?_⟩
  · by_cases e : y = thr
    · simp [e] at hy
    · simpa [e] using hy
  · have e : y ≠ thr := by
      rintro rfl
      simp [ha] at has
    simpa [e] using h.asleep y hy has

theorem Waits.sleep {s : Word} (h : Waits v wait) (hthr : thr ∈ v.threads) :
    Waits (v.sleep thr L) (Function.update wait thr (some s)) := by
  refine ⟨fun y hy => ?_, fun y hy ha => ?_⟩
  · by_cases e : y = thr
    · exact e ▸ hthr
    · exact h.threads y (by simpa [e] using hy)
  · by_cases e : y = thr
    · simp [e]
    · simpa [e] using h.asleep y hy (by simpa [View.sleep, e] using ha)

theorem Covered.sleep {s : Word} (h : Covered v wait dead) (hnone : ∀ c ∈ dead, v.parent c ≠ v.owner thr) :
    Covered (v.sleep thr L) (Function.update wait thr (some s)) dead := by
  by_cases ho : v.owner thr = v.initTask
  · intro _
    have hd : (v.sleep thr L).deadOfInit dead = ∅ := Finset.filter_eq_empty_iff.mpr fun c hc => ho ▸ hnone c hc
    rw [hd]
    exact Nat.zero_le _
  · have hne : ∀ y, v.owner y = v.initTask → y ≠ thr := by
      rintro y hy rfl
      exact ho hy
    refine h.mono ?_ (Finset.Subset.refl _) ?_
    · intro y
      have := hne y
      simp only [mem_sleepers, View.sleep, Function.update_apply]
      grind
    · intro y
      have := hne y
      simp only [mem_pending, View.sleep, Function.update_apply]
      grind

theorem Covered.reap (h : Covered v wait dead) (hc : c ∈ dead) (hp : v.parent c = v.owner thr) :
    Covered (v.reap c L) (Function.update wait thr none) (dead.erase c) := by
  by_cases ho : v.owner thr = v.initTask
  · intro hne
    have hold := h hne
    have hd : (v.reap c L).deadOfInit (dead.erase c) = (v.deadOfInit dead).erase c := Finset.filter_erase _ _ _
    have hcm : c ∈ v.deadOfInit dead := Finset.mem_filter.mpr ⟨hc, hp.trans ho⟩
    have hpend : (v.pending wait).erase thr ⊆ (v.reap c L).pending (Function.update wait thr none) := by
      intro y
      simp only [mem_pending, View.reap, Finset.mem_erase, Function.update_apply]
      grind
    have h₁ := Finset.card_le_card hpend
    have h₂ := Finset.pred_card_le_card_erase (s := v.pending wait) (a := thr)
    rw [hd, Finset.card_erase_of_mem hcm]
    omega
  · refine h.mono (Finset.Subset.refl _) ?_ ?_
    · exact Finset.filter_subset_filter _ (Finset.erase_subset c dead)
    · intro y
      have hne : v.owner y = v.initTask → y ≠ thr := by
        rintro hy rfl
        exact ho hy
      simp only [mem_pending, View.reap, Function.update_apply]
      grind

/-! ### A task vanishes -/

def AdoptsNoDead (v : View) (dead : Finset Word) (t : Word) : Prop :=
  (∀ c ∈ dead, v.parent c ≠ t) ∨ v.sleepers = ∅ ∨ (v.parent t = v.initTask ∧ v.sleepers.card = 1)

section
variable {cs woken : List Word}

theorem mem_sleepers_vanish {y : Word} :
    y ∈ (Life.vanishView t thr cs woken L v).sleepers ↔ y ≠ thr ∧ y ∈ v.sleepers ∧ y ∉ woken := by
  simp only [mem_sleepers, Life.vanishView, View.exit, View.give, View.dropThread, Finset.mem_erase]
  by_cases h : y ∈ woken <;> simp [h, and_assoc]

theorem mem_pending_vanish (hw : Waits v wait) (hwas : ∀ y ∈ woken, y ∈ v.threads ∧ v.asleep y = true) {y : Word} :
    y ∈ (Life.vanishView t thr cs woken L v).pending wait ↔
      y ≠ thr ∧ (y ∈ v.pending wait ∨ (y ∈ woken ∧ v.owner y = v.initTask)) := by
  simp only [mem_pending, Life.vanishView, View.exit, View.give, View.dropThread, Finset.mem_erase]
  by_cases h : y ∈ woken
  · have hy := hwas y h
    have := hw.asleep y hy.1 hy.2
    simp only [h, if_true]
    grind
  · simp only [h, if_false]
    grind

theorem Waits.vanish (h : Waits v wait) (hw : wait thr = none) : Waits (Life.vanishView t thr cs woken L v) wait := by
  have hdrop := h.dropThread hw
  refine ⟨hdrop.threads, fun y hy ha => hdrop.asleep y hy ?_⟩
  simp only [Life.vanishView, View.exit] at ha
  split at ha
  · cases ha
  · exact ha

theorem deadOfInit_vanish (hcs : ∀ c ∈ dead, c ∉ cs) : (Life.vanishView t thr cs woken L v).deadOfInit (insert t dead) ⊆
    insert t (v.deadOfInit dead) := by
  intro c hc
  simp only [deadOfInit, Finset.mem_filter, Finset.mem_insert] at hc ⊢
  obtain ⟨rfl | hc, hp⟩ := hc
  · exact Or.inl rfl
  · refine Or.inr ⟨hc, ?_⟩
    simpa [Life.vanishView, View.exit, View.give, View.dropThread, hcs c hc] using hp

theorem Covered.vanish (h : Covered v wait dead) (hw : Waits v wait) (hthr : wait thr = none)
    (hok : AdoptsNoDead v dead t)
    (hcs : ∀ c, c ∈ cs → v.parent c = t) (ht : t ∉ cs)
    (hwas : ∀ y ∈ woken, y ∈ v.threads ∧ v.owner y = v.parent t ∧ v.asleep y = true)
    (hsome : ∀ y ∈ v.threads, v.owner y = v.parent t → v.asleep y = true → woken ≠ []) :
    Covered (Life.vanishView t thr cs woken L v) wait (insert t dead) := by
  intro hne
  obtain ⟨y, hy⟩ := hne
  obtain ⟨-, hys, hyw⟩ := mem_sleepers_vanish.mp hy
  obtain ⟨hyt, hyo, hya⟩ := mem_sleepers.mp hys
  have hwas' : ∀ y ∈ woken, y ∈ v.threads ∧ v.asleep y = true := fun y hy => ⟨(hwas y hy).1, (hwas y hy).2.2⟩
  have hpend : v.pending wait ⊆ (Life.vanishView t thr cs woken L v).pending wait := by
    intro z hz
    refine (mem_pending_vanish hw hwas').mpr ⟨?_, Or.inl hz⟩
    rintro rfl
    exact (mem_pending.mp hz).2.2.1 hthr
  rcases hok with hnone | hnone | ⟨hpar, hone⟩
  · have hdead : (Life.vanishView t thr cs woken L v).deadOfInit (insert t dead) ⊆ insert t (v.deadOfInit dead) :=
      deadOfInit_vanish fun c hc (hm : c ∈ cs) => hnone c hc (hcs c hm)
    have hold := h ⟨y, hys⟩
    by_cases hpar : v.parent t = v.initTask
    · -- a woken thread covers the task
      obtain ⟨w, hw'⟩ := List.exists_mem_of_ne_nil _ (hsome y hyt (hyo.trans hpar.symm) hya)
      obtain ⟨hwt, hwo, hwa⟩ := hwas w hw'
      have hwn : w ∉ v.pending wait := by
        intro hm
        rw [(mem_pending.mp hm).2.2.2] at hwa
        cases hwa
      have hne : w ≠ thr := by
        rintro rfl
        exact hw.asleep w hwt hwa hthr
      have hsub : insert w (v.pending wait) ⊆ (Life.vanishView t thr cs woken L v).pending wait := by
        refine Finset.insert_subset ?_ hpend
        exact (mem_pending_vanish hw hwas').mpr ⟨hne, Or.inr ⟨hw', hwo.trans hpar⟩⟩
      have h₁ := Finset.card_le_card hsub
      rw [Finset.card_insert_of_notMem hwn] at h₁
      have h₂ := (Finset.card_le_card hdead).trans (Finset.card_insert_le _ _)
      omega
    · have hsub : (Life.vanishView t thr cs woken L v).deadOfInit (insert t dead) ⊆ v.deadOfInit dead := by
        intro c hc
        refine (Finset.mem_insert.mp (hdead hc)).resolve_left ?_
        rintro rfl
        have hp := (Finset.mem_filter.mp hc).2
        simp only [Life.vanishView, View.exit, View.give, View.dropThread, ht, if_false] at hp
        exact hpar hp
      exact (Finset.card_le_card hsub).trans (hold.trans (Finset.card_le_card hpend))
  · rw [hnone] at hys
    exact absurd hys (Finset.notMem_empty y)
  · -- the only sleeping thread of `init` was woken
    obtain ⟨w, hw'⟩ := List.exists_mem_of_ne_nil _ (hsome y hyt (hyo.trans hpar.symm) hya)
    obtain ⟨hwt, hwo, hwa⟩ := hwas w hw'
    have hws : w ∈ v.sleepers := mem_sleepers.mpr ⟨hwt, hwo.trans hpar, hwa⟩
    obtain rfl := Finset.card_le_one.mp hone.le y hys w hws
    exact absurd hw' hyw

end

end

end View

namespace Life

/-- A thread of `init` is queued on `exit_cond_var`, a dead child is on the list,
and no thread of `init` that was signalled is still to look at it. -/
def Stranded (x : Life) : Prop :=
  getFirst (.exitCondVar x.kernel.initTask) x.kernel.links ≠ none ∧
    getFirst (.deadChildHead x.kernel.initTask) x.kernel.links ≠ none ∧
    ∀ thr ∈ x.kernel.threads, x.taskOf thr = x.kernel.initTask → x.wait thr ≠ none →
    (x.kernel.thread thr).status = .waiting

def AdoptsNoDead (x : Life) (t : Word) : Prop := x.kernel.view.AdoptsNoDead x.vanished t

section
variable {x y : Life} {live live' : Finset Word}

theorem Change.waits {ok : Life → Word → Prop} (h : x.kernel.view.Waits x.wait) (hc : Change ok x live y live') :
    y.kernel.view.Waits y.wait := by
  cases hc with
  | quiet hs _ => exact ⟨fun z hz => hs.threads ▸ h.threads z hz, fun z hz ha => h.asleep z (hs.threads ▸ hz)
      (hs.asleep ▸ ha)⟩
  | fork _ _ _ hv _ =>
    dsimp only
    rw [hv]
    exact h.fork
  | threadFork _ _ hv _ =>
    dsimp only
    rw [hv]
    exact h.addThread
  | leave hw hv _ =>
    dsimp only
    rw [hv]
    exact h.dropThread hw
  | vanish hw _ _ hv _ =>
    dsimp only
    rw [hv]
    exact h.vanish hw
  | failed hr _ hv _ =>
    dsimp only
    rw [hv]
    exact h.leaveWait (by simpa [Kernel.view] using hr.2)
  | sleep hr _ hv _ =>
    dsimp only
    rw [hv]
    exact h.sleep hr.1
  | reap hr _ _ hv _ =>
    have hleave := h.leaveWait (by simpa [Kernel.view] using hr.2)
    dsimp only
    rw [hv]
    exact ⟨hleave.threads, hleave.asleep⟩

theorem Change.covered (ht : Tree x.kernel live x.vanished) (hw : x.kernel.view.Waits x.wait)
    (h : x.kernel.view.Covered x.wait x.vanished) (hc : Change AdoptsNoDead x live y live') :
    y.kernel.view.Covered y.wait y.vanished := by
  have hf := ht.2
  cases hc with
  | @quiet k' hs _ =>
    refine h.mono ?_ ?_ ?_
    · intro z
      rw [View.mem_sleepers, View.mem_sleepers, hs.threads, hs.owner, hs.asleep, hs.initTask]
      exact id
    · intro c hc
      obtain ⟨hcv, hp⟩ := Finset.mem_filter.mp hc
      rw [(hs.task c (hf.mem_tasks.mpr (Or.inr hcv))).1, hs.initTask] at hp
      exact Finset.mem_filter.mpr ⟨hcv, hp⟩
    · intro z
      rw [View.mem_pending, View.mem_pending, hs.threads, hs.owner, hs.asleep, hs.initTask]
      exact id
  | fork htn hthr _ hv _ =>
    dsimp only
    rw [hv]
    exact h.fork hthr fun hm => htn (hf.mem_tasks.mpr (Or.inr hm))
  | threadFork hthr _ hv _ =>
    dsimp only
    rw [hv]
    exact h.addThread hthr
  | leave hwt hv _ =>
    dsimp only
    rw [hv]
    exact h.dropThread hwt
  | @vanish k' thr cs woken hwt htl hok hv hvan =>
    dsimp only
    rw [hv]
    refine h.vanish hw hwt hok (fun c hc => ((hvan.children c).mp hc).2) ?_ ?_ ?_
    · intro hm
      exact hf.parent_ne_self (hf.mem_tasks.mpr (Or.inl htl)) ((hvan.children _).mp hm).2
    · intro z hz
      obtain ⟨h₁, h₂, h₃⟩ := hvan.wasAsleep z hz
      exact ⟨h₁, h₂, by simpa [Kernel.view] using h₃⟩
    · intro z hz ho ha
      exact hvan.someone z hz ho (by simpa [Kernel.view] using ha)
  | failed _ hnone hv _ =>
    dsimp only
    rw [hv]
    exact h.leaveWait hnone
  | sleep _ hnone hv _ =>
    dsimp only
    rw [hv]
    exact h.sleep hnone
  | reap _ hc hp hv _ =>
    dsimp only
    rw [hv]
    exact h.reap hc hp

structure Cover (x : Life) : Prop where
  tree : ∃ live, Tree x.kernel live x.vanished
  waits : x.kernel.view.Waits x.wait
  covered : x.kernel.view.Covered x.wait x.vanished

theorem Booted.cover (h : Booted x) : Cover x := by
  refine ⟨⟨_, h.tree⟩, ⟨?_, ?_⟩, ?_⟩
  · intro y hy
    exact absurd (h.wait y) hy
  · intro y hy ha
    rw [h.awake hy] at ha
    cases ha
  · rintro ⟨y, hy⟩
    obtain ⟨hyt, -, hya⟩ := View.mem_sleepers.mp hy
    rw [h.awake hyt] at hya
    cases hya

theorem Cover.step (h : Cover x) (hs : Step AdoptsNoDead x y) : Cover y := by
  obtain ⟨live, ht⟩ := h.tree
  obtain ⟨live', ht', hc⟩ := step_change ht hs
  exact ⟨⟨live', ht'⟩, hc.waits h.waits, hc.covered ht h.waits h.covered⟩

theorem Cover.not_stranded (h : Cover x) : ¬ x.Stranded := by
  rintro ⟨hqueue, hdead, hnone⟩
  obtain ⟨live, ⟨ls, hl⟩, hf⟩ := h.tree
  obtain ⟨ts, hts, htsmem⟩ := hl.waiting hf.init
  obtain ⟨ds, hds, hdsmem⟩ := hl.deadChildren hf.init
  have hq := getFirst_eq (hl.rings.ring (.exitCondVar x.kernel.initTask) hf.init)
  have hd := getFirst_eq (hl.rings.ring (.deadChildHead x.kernel.initTask) hf.init)
  rw [show ls (.exitCondVar x.kernel.initTask) = _ from hts] at hq
  rw [show ls (.deadChildHead x.kernel.initTask) = _ from hds] at hd
  rw [show getFirst _ x.kernel.links = _ from hq] at hqueue
  rw [show getFirst _ x.kernel.links = _ from hd] at hdead
  obtain ⟨thr, hthr⟩ := List.exists_mem_of_ne_nil ts (by rintro rfl; exact hqueue rfl)
  obtain ⟨c, hc⟩ := List.exists_mem_of_ne_nil ds (by rintro rfl; exact hdead rfl)
  have hcov := h.covered ⟨thr, View.mem_sleepers.mpr ((htsmem thr).mp hthr)⟩
  have hpos : 0 < (x.kernel.view.deadOfInit x.vanished).card :=
    Finset.card_pos.mpr ⟨c, Finset.mem_filter.mpr ((hdsmem c).mp hc)⟩
  obtain ⟨y, hy⟩ := Finset.card_pos.mp (hpos.trans_le hcov)
  obtain ⟨hyt, hyo, hyw, hya⟩ := View.mem_pending.mp hy
  simp [Kernel.view, hnone y hyt hyo hyw] at hya

theorem init_waiter_not_stranded (h : Runs.Reach Booted (Step AdoptsNoDead) x) : ¬ x.Stranded :=
  (h.invariant (fun _ hb => Booted.cover hb) fun _ _ hi hs => hi.step hs : Cover x).not_stranded

/-- A thread of `init` sleeps when the youngest task vanishes. -/
theorem init_waiter_not_stranded_asleep :
    getFirst (.exitCondVar 0x100#32) youngestGone.kernel.links ≠ none ∧ ¬ youngestGone.Stranded := by
  have hvanished : initWaits.vanished = ∅ := by decide +kernel
  have hok : AdoptsNoDead initWaits 0x900#32 := by
    left
    intro c hc
    rw [hvanished] at hc
    exact absurd hc (Finset.notMem_empty c)
  exact ⟨by decide +kernel, init_waiter_not_stranded (initWaits_reach.tail (youngestGone_step hok))⟩

instance (x : Life) : Decidable x.Stranded :=
  @instDecidableAnd _ _ inferInstance (@instDecidableAnd _ _ inferInstance Finset.decidableDforallFinset)

/-- The parent of the youngest task hands it to `init` dead, and `init` sleeps on. -/
theorem init_waiter_stranded : Runs.Reach Booted (Step fun _ _ => True) parentGone ∧ parentGone.Stranded :=
  ⟨(initWaits_reach.tail (youngestGone_step trivial)).tail (parentGone_step trivial), by decide +kernel⟩

end

end Life

end Pebbles
