import Pebbles.RefCount

/-!
# Read-only segments

The pages that `map_text_segment` and `map_rodata_segment` mapped, tracked
through a run beside the state of memory. No assumption is made on the
arguments of the system calls: what is used of the tables is only who owns
which page.
-/

namespace Pebbles

open Words Runs

def Tables.Mapped (tb : Tables) (pd : Word) (i j : Index) : Prop :=
  tb.kmem pd i ≠ PAGE_DIR_ENTRY_DEFAULT ∧ tb.entry pd i j ≠ PAGE_TABLE_ENTRY_DEFAULT

abbrev PageAt := Word × Index × Index

def newlyMapped (pd : Word) (tb tb' : Tables) : Set PageAt :=
  { x | x.1 = pd ∧ KERNEL_MAP_NUM_ENTRIES ≤ x.2.1.val ∧ ¬ tb.Mapped x.1 x.2.1 x.2.2 ∧ tb'.Mapped x.1 x.2.1 x.2.2 }

namespace Vm

structure Tracked where
  vm : Vm
  ro : Set PageAt

def readOnlyStage (pd : Word) (x : Tracked) (stage : Vm → Option (Int × Vm)) : Option (Int × Tracked) :=
  (stage x.vm).map fun r => (r.1, ⟨r.2, x.ro ∪ newlyMapped pd x.vm.toTables r.2.toTables⟩)

def writableStage (x : Tracked) (stage : Vm → Option (Int × Vm)) : Option (Int × Tracked) :=
  (stage x.vm).map fun r => (r.1, ⟨r.2, x.ro⟩)

def Tracked.setupPageTable (se : SimpleElf) (pd : Word) (x : Tracked) : Option (Int × Tracked) :=
  if pd = 0#32 then some (ERR_FAILURE, x)
  else
    andThen (readOnlyStage pd x (mapTextSegment se pd)) fun x =>
    andThen (writableStage x (mapDataSegment se pd)) fun x =>
    andThen (readOnlyStage pd x (mapRodataSegment se pd)) fun x =>
    andThen (writableStage x (mapBssSegment se pd)) fun x =>
    andThen (writableStage x (mapStackSegment pd)) fun x =>
    some (0, x)

theorem andThen_erase {a : Option (Int × Tracked)} {b : Option (Int × Vm)} {f : Tracked → Option (Int × Tracked)}
    {g : Vm → Option (Int × Vm)} (hab : a.map (fun r => (r.1, r.2.vm)) = b)
    (hfg : ∀ x, (f x).map (fun r => (r.1, r.2.vm)) = g x.vm) :
    (andThen a f).map (fun r => (r.1, r.2.vm)) = andThen b g := by
  subst hab
  unfold andThen
  cases a with
  | none => rfl
  | some r =>
    simp only [Option.map_some]
    split
    · rfl
    · exact hfg r.2

theorem readOnlyStage_erase (pd : Word) (x : Tracked) (stage : Vm → Option (Int × Vm)) :
    (readOnlyStage pd x stage).map (fun r => (r.1, r.2.vm)) = stage x.vm := by
  simp [readOnlyStage, Function.comp_def]

theorem writableStage_erase (x : Tracked) (stage : Vm → Option (Int × Vm)) :
    (writableStage x stage).map (fun r => (r.1, r.2.vm)) = stage x.vm := by
  simp [writableStage, Function.comp_def]

theorem setupPageTable_erase (se : SimpleElf) (pd : Word) (x : Tracked) :
    (x.setupPageTable se pd).map (fun r => (r.1, r.2.vm)) = x.vm.setupPageTable se pd := by
  unfold Tracked.setupPageTable Vm.setupPageTable
  split
  · rfl
  · apply andThen_erase (readOnlyStage_erase pd x _)
    intro x
    apply andThen_erase (writableStage_erase x _)
    intro x
    apply andThen_erase (readOnlyStage_erase pd x _)
    intro x
    apply andThen_erase (writableStage_erase x _)
    intro x
    apply andThen_erase (writableStage_erase x _)
    intro x
    rfl

/-! ## The invariant -/

/-- The entry of a page that is present, for user mode, and read-only without
being shared copy-on-write. -/
structure ReadOnlyEntry (e : Word) : Prop where
  present : bit e 0 = true
  write : bit e 1 = false
  user : bit e 2 = true
  cow : bit e 9 = false

structure RoInv (ro : Set PageAt) (tb : Tables) : Prop where
  owned : ∃ use, Owned use tb
  pages : ∀ {pd i j}, (pd, i, j) ∈ ro → ∃ t, TableAt tb pd i t ∧ ReadOnlyEntry (tb.kmem t j)

section
variable {ro : Set PageAt} {tb tb' : Tables} {pd : Word} {i j : Index}

theorem RoInv.mono {ro' : Set PageAt} (h : RoInv ro tb) (hs : ro' ⊆ ro) :
    RoInv ro' tb := ⟨h.owned, fun hx => h.pages (hs hx)⟩

theorem RoInv.entry (h : RoInv ro tb) (hx : (pd, i, j) ∈ ro) : ReadOnlyEntry (tb.entry pd i j) := by
  obtain ⟨t, ht, he⟩ := h.pages hx
  rw [ht.entry]
  exact he

theorem RoInv.setWord (h : RoInv ro tb) {p w : Word} (hp : p ∉ tb.pds)
    (hw : ∀ {pd i}, (pd, i, j) ∈ ro → TableAt tb pd i p → ReadOnlyEntry w) : RoInv ro (tb.setWord p j w) := by
  obtain ⟨use, ho⟩ := h.owned
  refine ⟨⟨use, ho.setWord hp j w⟩, ?_⟩
  intro pd i k hx
  obtain ⟨t, ht, he⟩ := h.pages hx
  refine ⟨t, ht.setWord hp j w, ?_⟩
  by_cases e : t = p ∧ k = j
  · obtain ⟨rfl, rfl⟩ := e
    rw [setWord_self]
    exact hw hx ht
  · rw [setWord_of_ne e]
    exact he

theorem RoInv.extends (h : RoInv ro tb) (he : Extends tb tb') (ho : ∃ use, Owned use tb') : RoInv ro tb' := by
  refine ⟨ho, ?_⟩
  intro pd i j hx
  obtain ⟨t, ht, hr⟩ := h.pages hx
  obtain ⟨ht', hk⟩ := he.tables ht
  exact ⟨t, ht', by rw [hk]; exact hr⟩

theorem RoInv.newDirectory (h : RoInv ro tb) {a : Word} (ha : tb.avail.head? = some a) :
    RoInv ro (tb.newDirectory a) := by
  obtain ⟨use, ho⟩ := h.owned
  refine ⟨⟨_, ho.newDirectory ha⟩, ?_⟩
  intro pd i j hx
  obtain ⟨t, ht, hr⟩ := h.pages hx
  obtain ⟨ht', hk⟩ := ho.newDirectory_table (List.mem_of_mem_head? ha) ht
  exact ⟨t, ht', by rw [hk]; exact hr⟩

theorem ReadOnlyEntry.ne_default {e : Word} (h : ReadOnlyEntry e) : e ≠ PAGE_TABLE_ENTRY_DEFAULT :=
  ne_default_of_present h.present

theorem ReadOnlyEntry.cowEntry {e : Word} (h : ReadOnlyEntry e) : ReadOnlyEntry (cowEntry e) := by
  have hb := fun k (hk : k < 32) => bit_cowEntry h.ne_default hk
  refine ⟨?_, cowEntry_write h.ne_default, ?_, ?_⟩
  · rw [hb 0 (by omega)]
    exact h.present
  · rw [hb 2 (by omega)]
    exact h.user
  · rw [hb 9 (by omega)]
    simp [h.cow, h.write]

theorem RoInv.forked {newPd : Word} (h : RoInv ro tb) (hf : Forked pd newPd tb tb') (ho : ∃ use, Owned use tb') :
    RoInv (ro ∪ { x | x.1 = newPd ∧ (pd, x.2) ∈ ro }) tb' := by
  refine ⟨ho, ?_⟩
  intro pd' i j hx
  cases hx with
  | inl hx =>
    obtain ⟨t, ht, hr⟩ := h.pages hx
    by_cases e : pd' = pd
    · subst e
      obtain ⟨ht', hk⟩ := hf.own ht
      exact ⟨t, ht', by rw [hk]; exact hr.cowEntry⟩
    · obtain ⟨ht', hk⟩ := hf.other e ht
      exact ⟨t, ht', by rw [hk]; exact hr⟩
  | inr hx =>
    obtain ⟨rfl, hx⟩ := hx
    obtain ⟨t₀, ht₀, hr⟩ := h.pages hx
    obtain ⟨t, ht, hk⟩ := hf.child ht₀
    exact ⟨t, ht, by rw [hk]; exact hr.cowEntry⟩

theorem RoInv.freeDirectory (h : RoInv ro tb) (hpd : pd ∈ tb.pds) :
    RoInv { x ∈ ro | x.1 ≠ pd } (tb.freeDirectory pd) := by
  obtain ⟨use, ho⟩ := h.owned
  refine ⟨⟨_, ho.freeDirectory hpd⟩, ?_⟩
  intro pd' i j hx
  obtain ⟨t, ht, hr⟩ := h.pages hx.1
  refine ⟨t, ⟨?_, ht.user, ?_, ?_⟩, ?_⟩
  · rw [freeDirectory_pds]
    exact Finset.mem_erase.mpr ⟨hx.2, ht.live⟩
  · rw [freeDirectory_kmem]
    exact ht.present
  · rw [freeDirectory_kmem]
    exact ht.addr
  · rw [freeDirectory_kmem]
    exact hr

end

/-! ## The operations -/

section
variable {ro : Set PageAt} {s s₁ s' : Vm} {pd flags va : Word} {i : Index}

theorem tableFor_ro (h : RoInv ro s.toTables) (hpd : pd ∈ s.pds) (ht : tableFor pd i s = some s₁) :
    RoInv ro s₁.toTables ∧ s₁.pds = s.pds ∧ s₁.fr = s.fr ∧
      ∀ {k j}, KERNEL_MAP_NUM_ENTRIES ≤ k.val → s₁.Mapped pd k j → s.Mapped pd k j := by
  unfold tableFor at ht
  split at ht
  · rename_i hD
    obtain ⟨a, ha, rfl⟩ := Option.map_eq_some_iff.mp ht
    obtain ⟨use, ho⟩ := h.owned
    have ham := List.mem_of_mem_head? ha
    obtain ⟨hal, -, hd, -, -⟩ := ho.fresh ham
    have hu := ho.user_of_default hpd hD
    refine ⟨h.extends (ho.extends_attach ha hpd hD) ⟨_, ho.attach ha hpd hu⟩, rfl, rfl, ?_⟩
    intro k j hk hm
    have hk' : TableAt (s.toTables.attach pd i a fun _ => PAGE_TABLE_ENTRY_DEFAULT) pd k _ := ⟨hpd, hk, hm.1, rfl⟩
    cases hk'.of_attach hal hd with
    | inl he =>
      -- the new table is empty
      obtain ⟨-, -, ht⟩ := he
      have hne := hm.2
      rw [hk'.entry, ht, attach_kmem_self (ne_of_mem_of_not_mem hpd hd)] at hne
      exact absurd rfl hne
    | inr ht =>
      have hne := hm.2
      rw [hk'.entry, attach_kmem_table ho ham hpd ht] at hne
      exact ⟨ht.present, by rw [ht.entry]; exact hne⟩
  · rw [Option.some.injEq] at ht
    subst ht
    exact ⟨h, rfl, rfl, fun _ hm => hm⟩

theorem fillEntry_cases {ok : Bool} (hm : fillEntry pd flags va s = (ok, s')) :
    (s'.toTables = s.toTables ∧ s'.fr = s.fr) ∨
      ∃ f fr, s.pte pd va = PAGE_TABLE_ENTRY_DEFAULT ∧ allocateFrame s.fr = (some f, fr) ∧ s'.fr = incRefCount f fr ∧
        s'.toTables = s.toTables.setWord (s.ptAddr pd va) (getPtIndex va) (f ||| flags) := by
  unfold fillEntry at hm
  split at hm
  · rename_i hD
    split at hm
    · rename_i f fr ha
      rw [Prod.mk.injEq] at hm
      obtain ⟨-, rfl⟩ := hm
      exact Or.inr ⟨f, fr, hD, ha, zeroFill_fr _ _, zeroFill_toTables _ _⟩
    · rename_i fr ha
      rw [Prod.mk.injEq] at hm
      obtain ⟨-, rfl⟩ := hm
      exact Or.inl ⟨rfl, allocateFrame_none ha⟩
  · rw [Prod.mk.injEq] at hm
    obtain ⟨-, rfl⟩ := hm
    exact Or.inl ⟨rfl, rfl⟩

theorem fillEntry_ro (h : RoInv ro s.toTables) (hpd : pd ∈ s.pds) {ok : Bool}
    (hm : fillEntry pd flags va s = (ok, s')) :
    RoInv ro s'.toTables ∧ s'.pds = s.pds ∧ (s'.fr.panicked = false → s.fr.panicked = false) := by
  obtain ⟨use, ho⟩ := h.owned
  cases fillEntry_cases hm with
  | inl hs =>
    rw [hs.1, hs.2]
    exact ⟨h, rfl, id⟩
  | inr hs =>
    obtain ⟨f, fr, hD, ha, hfr, htb⟩ := hs
    rw [htb, hfr]
    refine ⟨h.setWord (ho.ptAddr_not_dir hpd va) ?_, rfl, ?_⟩
    · -- the entry was absent, so it is not that of a tracked page
      intro pd' i hx ht
      obtain ⟨t, ht', hr⟩ := h.pages hx
      rw [ht'.addr.symm.trans ht.addr] at hr
      exact absurd hD hr.ne_default
    · intro hp
      exact (allocateFrame_panicked ha (incRefCount_panicked hp)).2

theorem mapPage_ro (h : RoInv ro s.toTables) (hpd : pd ∈ s.pds) {ok : Bool} (hm : mapPage pd flags va s = (ok, s')) :
    RoInv ro s'.toTables ∧ s'.pds = s.pds ∧ (s'.fr.panicked = false → s.fr.panicked = false) := by
  rw [mapPage_eq] at hm
  split at hm
  · rw [Prod.mk.injEq] at hm
    obtain ⟨-, rfl⟩ := hm
    exact ⟨h, rfl, id⟩
  · rename_i s₁ ht
    obtain ⟨h₁, hpds, hfr, -⟩ := tableFor_ro h hpd ht
    obtain ⟨h₂, hpds₂, hp⟩ := fillEntry_ro h₁ (hpds ▸ hpd) hm
    exact ⟨h₂, hpds₂.trans hpds, hfr ▸ hp⟩

theorem mapPage_text (h : RoInv ro s.toTables) (hpd : pd ∈ s.pds) {ok : Bool}
    (hm : mapPage pd TEXT_FLAGS va s = (ok, s')) (hp : s'.fr.panicked = false) :
    RoInv (ro ∪ newlyMapped pd s.toTables s'.toTables) s'.toTables := by
  have h' := (mapPage_ro h hpd hm).1
  refine ⟨h'.owned, ?_⟩
  intro pd' k j hx
  cases hx with
  | inl hx => exact h'.pages hx
  | inr hx =>
    obtain ⟨rfl, hk, hn, hmap⟩ := hx
    dsimp only at hk hn hmap
    rw [mapPage_eq] at hm
    split at hm
    · rw [Prod.mk.injEq] at hm
      obtain ⟨-, rfl⟩ := hm
      exact absurd hmap hn
    · rename_i s₁ htf
      obtain ⟨h₁, hpds, -, hback⟩ := tableFor_ro h hpd htf
      have hpd₁ : pd' ∈ s₁.pds := hpds ▸ hpd
      obtain ⟨use, ho⟩ := h₁.owned
      cases fillEntry_cases hm with
      | inl hs =>
        rw [hs.1] at hmap
        exact absurd (hback hk hmap) hn
      | inr hs =>
        obtain ⟨f, fr, hD, ha, hfr, htb⟩ := hs
        have hdir := ho.ptAddr_not_dir hpd₁ va
        have ht' : TableAt s'.toTables pd' k _ := ⟨by rw [htb]; exact hpd₁, hk, hmap.1, rfl⟩
        have ht : TableAt s₁.toTables pd' k _ := (htb ▸ ht').of_setWord hdir
        refine ⟨_, ht', ?_⟩
        have hne := hmap.2
        rw [ht'.entry] at hne
        rw [htb, setWord_kmem] at hne ⊢
        split at hne
        · -- the entry that this round wrote
          rename_i he
          have hal := (allocateFrame_panicked ha (incRefCount_panicked (hfr ▸ hp))).1
          rw [if_pos he]
          refine ⟨?_, ?_, ?_, ?_⟩ <;> rw [bit_or_flags hal (by decide)] <;> decide
        · exact absurd (hback hk ⟨ht.present, by rw [ht.entry]; exact hne⟩) hn

theorem mapSegment_ro {start length : Word} (h : RoInv ro s.toTables) (hpd : pd ∈ s.pds) {r : Int}
    (hm : mapSegment start length pd flags s = some (r, s')) :
    RoInv ro s'.toTables ∧ pd ∈ s'.pds ∧ (s'.fr.panicked = false → s.fr.panicked = false) := by
  apply mapPages_rule (s := s.setCurPd pd) (P := fun s₁ => RoInv ro s₁.toTables ∧ pd ∈ s₁.pds ∧
    (s₁.fr.panicked = false → s.fr.panicked = false)) ?_ ⟨h, hpd, id⟩ hm
  intro s₁ va ok s₂ h₁ hp
  obtain ⟨h₂, hpds, hpan⟩ := mapPage_ro h₁.1 h₁.2.1 hp
  exact ⟨h₂, hpds ▸ h₁.2.1, fun hq => h₁.2.2 (hpan hq)⟩

theorem newlyMapped_trans {tb tb₁ tb₂ : Tables} :
    newlyMapped pd tb tb₂ ⊆ newlyMapped pd tb tb₁ ∪ newlyMapped pd tb₁ tb₂ := by
  intro x hx
  obtain ⟨hpd, hu, hn, hm⟩ := hx
  by_cases h₁ : tb₁.Mapped x.1 x.2.1 x.2.2
  · exact Or.inl ⟨hpd, hu, hn, h₁⟩
  · exact Or.inr ⟨hpd, hu, h₁, hm⟩

theorem mapSegment_text {start length : Word} (h : RoInv ro s.toTables) (hpd : pd ∈ s.pds) {r : Int}
    (hm : mapSegment start length pd TEXT_FLAGS s = some (r, s')) (hp : s'.fr.panicked = false) :
    RoInv (ro ∪ newlyMapped pd s.toTables s'.toTables) s'.toTables := by
  refine (mapPages_rule (s := s.setCurPd pd) (P := fun s₁ => RoInv ro s₁.toTables ∧ pd ∈ s₁.pds ∧
    (s₁.fr.panicked = false → RoInv (ro ∪ newlyMapped pd s.toTables s₁.toTables) s₁.toTables)) ?_
    ⟨h, hpd, fun _ => ?_⟩ hm).2.2 hp
  · intro s₁ va ok s₂ h₁ hpage
    obtain ⟨h₁, hpd₁, hnew⟩ := h₁
    obtain ⟨h₂, hpds, hpan⟩ := mapPage_ro h₁ hpd₁ hpage
    refine ⟨h₂, hpds ▸ hpd₁, fun hp => (mapPage_text (hnew (hpan hp)) hpd₁ hpage hp).mono ?_⟩
    intro x hx
    cases hx with
    | inl hx => exact Or.inl (Or.inl hx)
    | inr hx =>
      cases newlyMapped_trans hx with
      | inl hx => exact Or.inl (Or.inr hx)
      | inr hx => exact Or.inr hx
  · refine h.mono ?_
    intro x hx
    cases hx with
    | inl hx => exact hx
    | inr hx => exact absurd hx.2.2.2 hx.2.2.1

/-! ## New pages -/

theorem mark_ro (va : Word) (h : RoInv ro s.toTables) (hpd : pd ∈ s.pds) {w : Word}
    (hw : ∀ k < 32, k ≠ 10 → k ≠ 11 → bit w k = bit (s.pte pd va) k) :
    RoInv ro (s.setWord (s.ptAddr pd va) (getPtIndex va) w).toTables := by
  obtain ⟨use, ho⟩ := h.owned
  apply h.setWord (ho.ptAddr_not_dir hpd va)
  intro pd' i hx ht
  obtain ⟨t, ht', hr⟩ := h.pages hx
  rw [ht'.addr.symm.trans ht.addr] at hr
  have hr : ReadOnlyEntry (s.pte pd va) := hr
  refine ⟨?_, ?_, ?_, ?_⟩ <;> rw [hw _ (by omega) (by omega) (by omega)]
  · exact hr.present
  · exact hr.write
  · exact hr.user
  · exact hr.cow

theorem mapNewPages_ro {base length : Word} (h : RoInv ro s.toTables) (hpd : s.cr3 ∈ s.pds) {r : Int}
    (hm : mapNewPages base length s = some (r, s')) : RoInv ro s'.toTables := by
  unfold mapNewPages at hm
  dsimp only at hm
  split at hm
  · cases hm
  · rename_i r₁ s₁ hseg
    obtain ⟨h₁, hpd₁, -⟩ := mapSegment_ro h hpd hseg
    split at hm
    · simp only [Option.some.injEq, Prod.mk.injEq] at hm
      exact hm.2 ▸ h₁
    · simp only [Option.some.injEq, Prod.mk.injEq] at hm
      obtain ⟨-, rfl⟩ := hm
      have h₂ := mark_ro (pageRoundDown (base + length - 1#32)) h₁ hpd₁ fun k hk => bit_setNewpageEnd _ hk
      exact mark_ro base h₂ hpd₁ fun k hk => bit_setNewpageStart _ hk

theorem newPagesHandlerC_ro {base len : Word} (h : RoInv ro s.toTables) (hpd : s.cr3 ∈ s.pds) {r : Int}
    (hm : newPagesHandlerC base len s = some (r, s')) : RoInv ro s'.toTables := by
  unfold newPagesHandlerC at hm
  split at hm
  · simp only [Option.some.injEq, Prod.mk.injEq] at hm
    exact hm.2 ▸ h
  · split at hm
    · cases hm
    · split at hm
      · simp only [Option.some.injEq, Prod.mk.injEq] at hm
        exact hm.2 ▸ h
      · exact mapNewPages_ro h hpd hm

def stillMapped (tb : Tables) (ro : Set PageAt) : Set PageAt := { x ∈ ro | tb.Mapped x.1 x.2.1 x.2.2 }

theorem RoInv.stillMapped (h : RoInv ro s.toTables) : stillMapped s.toTables ro = ro := by
  ext ⟨pd, i, j⟩
  refine ⟨And.left, fun hx => ⟨hx, ?_⟩⟩
  obtain ⟨t, ht, hr⟩ := h.pages hx
  exact ⟨ht.present, by rw [ht.entry]; exact hr.ne_default⟩

theorem RoInv.clear {tb : Tables} {p : Word} {j : Index} (h : RoInv ro tb) (hp : p ∉ tb.pds) :
    RoInv (Vm.stillMapped (tb.setWord p j PAGE_TABLE_ENTRY_DEFAULT) ro) (tb.setWord p j PAGE_TABLE_ENTRY_DEFAULT) := by
  obtain ⟨use, ho⟩ := h.owned
  refine ⟨⟨use, ho.setWord hp j _⟩, ?_⟩
  intro pd i k hx
  obtain ⟨t, ht, hr⟩ := h.pages hx.1
  have ht' := ht.setWord hp j PAGE_TABLE_ENTRY_DEFAULT
  have hne := hx.2.2
  rw [ht'.entry, setWord_kmem] at hne
  split at hne
  · exact absurd rfl hne
  · rename_i he
    exact ⟨t, ht', by rw [setWord_of_ne he]; exact hr⟩

theorem mapped_of_clear {tb : Tables} {p : Word} {i j k : Index} (hp : p ∉ tb.pds) (hpd : pd ∈ tb.pds)
    (hm : (tb.setWord p k PAGE_TABLE_ENTRY_DEFAULT).Mapped pd i j) : tb.Mapped pd i j := by
  obtain ⟨hd, he⟩ := hm
  unfold Tables.entry at he
  rw [setWord_other (ne_of_mem_of_not_mem hpd hp)] at hd he
  rw [setWord_kmem] at he
  refine ⟨hd, ?_⟩
  split at he
  · exact absurd rfl he
  · exact he

theorem unmapNewPages_ro {base : Word} (h : RoInv ro s.toTables) (hpd : s.cr3 ∈ s.pds) {r : Int}
    (hm : unmapNewPages base s = some (r, s')) : RoInv (stillMapped s'.toTables ro) s'.toTables := by
  refine (unmapNewPages_rule (P := fun s₁ => s₁.pds = s.pds ∧ RoInv (stillMapped s₁.toTables ro) s₁.toTables)
    ?_ ⟨rfl, ?_⟩ (fun _ h₁ => h₁) hm).2
  · intro s₁ va h₁ _
    obtain ⟨hpds, h₁⟩ := h₁
    obtain ⟨use, ho⟩ := h₁.owned
    have hdir := ho.ptAddr_not_dir (hpds ▸ hpd : s.cr3 ∈ s₁.pds) va
    refine ⟨hpds, (h₁.clear hdir).mono ?_⟩
    intro x hx
    obtain ⟨t, ht, -⟩ := h.pages hx.1
    exact ⟨⟨hx.1, mapped_of_clear hdir (hpds ▸ ht.live) hx.2⟩, hx.2⟩
  · rw [h.stillMapped]
    exact h

theorem removePagesHandlerC_ro {base : Word} (h : RoInv ro s.toTables) (hpd : s.cr3 ∈ s.pds) {r : Int}
    (hm : removePagesHandlerC base s = some (r, s')) : RoInv (stillMapped s'.toTables ro) s'.toTables := by
  unfold removePagesHandlerC at hm
  split at hm
  · simp only [Option.some.injEq, Prod.mk.injEq] at hm
    obtain ⟨-, rfl⟩ := hm
    rw [h.stillMapped]
    exact h
  · exact unmapNewPages_ro h hpd hm

/-! ## Faults -/

/-- The fault at `va`, if there is one on a present page that is not writable,
is on a page marked by `make_pt_cow`. -/
def CowFault (s : Vm) (va : Word) : Prop :=
  bit (s.pte s.cr3 va) 0 = true → bit (s.pte s.cr3 va) 1 = false → bit (s.pte s.cr3 va) 9 = true

theorem handleCow_tables {r : Int} (hc : handleCow va s = (r, s')) :
    s'.toTables = s.toTables ∨ ∃ w, s'.toTables = s.toTables.setWord (s.ptAddr s.cr3 va) (getPtIndex va) w := by
  by_cases h1 : (lockFrame (cowFrame va s) s.fr).frameRefCount (frameIndex (cowFrame va s)) = 1
  · rw [handleCow_sole h1, Prod.mk.injEq] at hc
    obtain ⟨-, rfl⟩ := hc
    exact Or.inr ⟨_, rfl⟩
  · cases ha : allocateFrame (lockFrame (cowFrame va s) s.fr) with
    | mk o fr =>
      cases o with
      | none =>
        rw [handleCow_full h1 ha, Prod.mk.injEq] at hc
        obtain ⟨-, rfl⟩ := hc
        exact Or.inl rfl
      | some g =>
        rw [handleCow_copy h1 ha, Prod.mk.injEq] at hc
        obtain ⟨-, rfl⟩ := hc
        exact Or.inr ⟨_, rfl⟩

theorem pageFaultHandlerC_tables {e : FaultEnd} (hf : pageFaultHandlerC va s = (e, s')) :
    s'.toTables = s.toTables ∨ bit (s.pte s.cr3 va) 0 = true ∧ bit (s.pte s.cr3 va) 1 = false ∧
      ∃ w, s'.toTables = s.toTables.setWord (s.ptAddr s.cr3 va) (getPtIndex va) w := by
  unfold pageFaultHandlerC at hf
  split at hf
  · rename_i hcow
    obtain ⟨-, hp, hw⟩ := isAddrCow_true hcow
    cases hc : handleCow va s with
    | mk r s₁ =>
      rw [hc] at hf
      have hs : s₁ = s' := by
        dsimp only at hf
        split at hf <;> exact (Prod.mk.inj hf).2
      cases handleCow_tables hc with
      | inl h => exact Or.inl (hs ▸ h)
      | inr h => exact Or.inr ⟨hp, hw, hs ▸ h⟩
  · exact Or.inl (by rw [(Prod.mk.inj hf).2])

theorem pageFaultHandlerC_ro (h : RoInv ro s.toTables) (hpd : s.cr3 ∈ s.pds) (hok : CowFault s va) {e : FaultEnd}
    (hf : pageFaultHandlerC va s = (e, s')) : RoInv ro s'.toTables := by
  cases pageFaultHandlerC_tables hf with
  | inl he =>
    rw [he]
    exact h
  | inr he =>
    obtain ⟨hp, hw, w, he⟩ := he
    obtain ⟨use, ho⟩ := h.owned
    rw [he]
    apply h.setWord (ho.ptAddr_not_dir hpd va)
    -- a tracked page has no mark, the faulting one has
    intro pd i hx ht
    obtain ⟨t, ht', hr⟩ := h.pages hx
    rw [ht'.addr.symm.trans ht.addr] at hr
    have hc := hr.cow
    rw [show s.kmem (s.ptAddr s.cr3 va) (getPtIndex va) = s.pte s.cr3 va from rfl, hok hp hw] at hc
    cases hc

theorem userStore_ro {b : Byte} (h : RoInv ro s.toTables) (hpd : s.cr3 ∈ s.pds) (hok : CowFault s va) {e : FaultEnd}
    (hf : userStore va b s = (e, s')) : RoInv ro s'.toTables := by
  unfold userStore at hf
  split at hf
  · rw [Prod.mk.injEq] at hf
    exact hf.2 ▸ h
  · cases hh : pageFaultHandlerC va s with
    | mk e₁ s₁ =>
      have h₁ := pageFaultHandlerC_ro h hpd hok hh
      rw [hh] at hf
      cases e₁ with
      | resume =>
        simp only [Prod.mk.injEq] at hf
        rw [← hf.2]
        split <;> exact h₁
      | killCurrentThread =>
        rw [← (Prod.mk.inj hf).2]
        exact h₁
      | handleFault =>
        rw [← (Prod.mk.inj hf).2]
        exact h₁

theorem pageFaultHandlerC_writable {use : Word → PageUse} (ho : Owned use s.toTables) (hpd : s.cr3 ∈ s.pds)
    (hok : CowFault s va) (hp : pd ∈ s.pds) {i j : Index} (h₀ : bit (s.entry pd i j) 1 = false)
    (h₁ : bit ((pageFaultHandlerC va s).2.entry pd i j) 1 = true) : bit (s.entry pd i j) 9 = true := by
  cases pageFaultHandlerC_tables (show pageFaultHandlerC va s = (_, (pageFaultHandlerC va s).2) from rfl) with
  | inl he =>
    rw [he, h₀] at h₁
    cases h₁
  | inr he =>
    obtain ⟨hpr, hw, w, he⟩ := he
    unfold Tables.entry at h₀ h₁ ⊢
    rw [he, setWord_other (ne_of_mem_of_not_mem hp (ho.ptAddr_not_dir hpd va)), setWord_kmem] at h₁
    split at h₁
    · rename_i hj
      rw [hj.1, hj.2]
      exact hok hpr hw
    · rw [h₀] at h₁
      cases h₁

theorem pageFaultHandlerC_end (hu : USER_MEM_START ≤ va.toNat) (hp : bit (s.pte s.cr3 va) 0 = true)
    (hw : bit (s.pte s.cr3 va) 1 = false) : (pageFaultHandlerC va s).1 ≠ .handleFault := by
  have hcow : isAddrCow va s = true := isAddrCow_of hu hp hw
  unfold pageFaultHandlerC
  rw [if_pos hcow]
  split
  split <;> simp

/-! ## Loading -/

theorem andThen_rule {σ : Type} {P : σ → Prop} {a : Option (Int × σ)} {f : σ → Option (Int × σ)} {r : Int} {x : σ}
    (ha : ∀ r x, a = some (r, x) → P x) (hf : ∀ y r x, P y → f y = some (r, x) → P x)
    (h : andThen a f = some (r, x)) : P x := by
  unfold andThen at h
  split at h
  · cases h
  · rename_i r₁ y
    split at h
    · rw [Option.some.injEq, Prod.mk.injEq] at h
      exact ha r x (by rw [h.1, h.2])
    · exact hf y r x (ha r₁ y rfl) h

structure Loading (pd : Word) (x : Tracked) : Prop where
  live : pd ∈ x.vm.pds
  owned : RoInv ∅ x.vm.toTables
  pages : x.vm.fr.panicked = false → RoInv x.ro x.vm.toTables

theorem Loading.writableStage {start length : Word} {x x' : Tracked} (h : Loading pd x) {r : Int}
    (hs : writableStage x (mapSegment start length pd flags) = some (r, x')) : Loading pd x' := by
  obtain ⟨⟨r₁, s₁⟩, hm, he⟩ := Option.map_eq_some_iff.mp hs
  obtain ⟨-, rfl⟩ := Prod.mk.inj he
  obtain ⟨ho, hl, hpan⟩ := mapSegment_ro h.owned h.live hm
  exact ⟨hl, ho, fun hp => (mapSegment_ro (h.pages (hpan hp)) h.live hm).1⟩

theorem Loading.readOnlyStage {start length : Word} {x x' : Tracked} (h : Loading pd x) {r : Int}
    (hs : readOnlyStage pd x (mapSegment start length pd TEXT_FLAGS) = some (r, x')) : Loading pd x' := by
  obtain ⟨⟨r₁, s₁⟩, hm, he⟩ := Option.map_eq_some_iff.mp hs
  obtain ⟨-, rfl⟩ := Prod.mk.inj he
  obtain ⟨ho, hl, hpan⟩ := mapSegment_ro h.owned h.live hm
  exact ⟨hl, ho, fun hp => mapSegment_text (h.pages (hpan hp)) h.live hm hp⟩

theorem Loading.setupPageTable {se : SimpleElf} {x x' : Tracked} (h : Loading pd x) {r : Int}
    (hs : x.setupPageTable se pd = some (r, x')) : Loading pd x' := by
  unfold Tracked.setupPageTable at hs
  split at hs
  · rw [Option.some.injEq, Prod.mk.injEq] at hs
    exact hs.2 ▸ h
  · apply andThen_rule (P := Loading pd) (fun _ _ h₁ => h.readOnlyStage h₁) ?_ hs
    intro x₁ r₁ x' h₁
    apply andThen_rule (P := Loading pd) fun _ _ h₂ => h₁.writableStage h₂
    intro x₂ r₂ x' h₂
    apply andThen_rule (P := Loading pd) fun _ _ h₃ => h₂.readOnlyStage h₃
    intro x₃ r₃ x' h₃
    apply andThen_rule (P := Loading pd) fun _ _ h₄ => h₃.writableStage h₄
    intro x₄ r₄ x' h₄
    apply andThen_rule (P := Loading pd) fun _ _ h₅ => h₄.writableStage h₅
    intro x₅ r₅ x' h₅ he
    rw [Option.some.injEq, Prod.mk.injEq] at he
    exact he.2 ▸ h₅

theorem setupPageTable_ro {se : SimpleElf} {x x' : Tracked} (h : RoInv x.ro x.vm.toTables) (hpd : pd ∈ x.vm.pds)
    {r : Int}
    (hs : x.setupPageTable se pd = some (r, x')) (hp : x'.vm.fr.panicked = false) : RoInv x'.ro x'.vm.toTables := by
  have hl : Loading pd x := ⟨hpd, h.mono (Set.empty_subset _), fun _ => h⟩
  exact (hl.setupPageTable hs).pages hp

end

/-! ## Runs -/

/-- The steps of tasks and their kernel, with the pages that text and rodata
segments mapped. An access that faults meets `ok`; a kernel whose assertion
failed does not go on. -/
inductive RoStep (ok : Vm → Word → Prop) : Tracked → Tracked → Prop
  | heap {x s'} : HeapStep x.vm s' → RoStep ok x ⟨s', x.ro⟩
  | setCurPd {x pd} : pd ∈ x.vm.pds → RoStep ok x ⟨x.vm.setCurPd pd, x.ro⟩
  | createPageDirectory {x o s'} : x.vm.createPageDirectory = (o, s') → RoStep ok x ⟨s', x.ro⟩
  | setupPageTable {x se pd r x'} : pd ∈ x.vm.pds → x.setupPageTable se pd = some (r, x') →
      x'.vm.fr.panicked = false → RoStep ok x x'
  | fork {x newPd s'} : x.vm.cr3 ∈ x.vm.pds → clonePagingInfo x.vm.cr3 x.vm = (some newPd, s') →
      s'.fr.panicked = false → RoStep ok x ⟨s', x.ro ∪ { y | y.1 = newPd ∧ (x.vm.cr3, y.2) ∈ x.ro }⟩
  | forkFails {x s'} : x.vm.cr3 ∈ x.vm.pds → clonePagingInfo x.vm.cr3 x.vm = (none, s') →
      s'.fr.panicked = false → RoStep ok x ⟨s', x.ro⟩
  | newPages {x base len r s'} : x.vm.cr3 ∈ x.vm.pds → newPagesHandlerC base len x.vm = some (r, s') →
      s'.fr.panicked = false → RoStep ok x ⟨s', x.ro⟩
  | removePages {x base r s'} : x.vm.cr3 ∈ x.vm.pds → removePagesHandlerC base x.vm = some (r, s') →
      s'.fr.panicked = false → RoStep ok x ⟨s', stillMapped s'.toTables x.ro⟩
  | userLoad {x va e s'} : x.vm.cr3 ∈ x.vm.pds → x.vm.userReadable x.vm.cr3 va = false → ok x.vm va →
      pageFaultHandlerC va x.vm = (e, s') → s'.fr.panicked = false → RoStep ok x ⟨s', x.ro⟩
  | userStore {x va b e s'} : x.vm.cr3 ∈ x.vm.pds → ok x.vm va → userStore va b x.vm = (e, s') →
      s'.fr.panicked = false → RoStep ok x ⟨s', x.ro⟩
  | freePagingInfo {x pd} : pd ∈ x.vm.pds → (freePagingInfo pd x.vm).fr.panicked = false →
      RoStep ok x ⟨freePagingInfo pd x.vm, { y ∈ x.ro | y.1 ≠ pd }⟩

def Fresh (x : Tracked) : Prop := Booted x.vm ∧ x.ro = ∅

theorem RoStep.ro {x x' : Tracked} (hs : RoStep CowFault x x') (h : RoInv x.ro x.vm.toTables) :
    RoInv x'.ro x'.vm.toTables := by
  obtain ⟨use, ho⟩ := h.owned
  cases hs with
  | heap hh => exact h.extends hh.extends (hh.owned ho)
  | setCurPd hpd => exact h
  | createPageDirectory hc =>
    cases hav : x.vm.avail with
    | nil =>
      rw [createPageDirectory_nil hav, Prod.mk.injEq] at hc
      exact hc.2 ▸ h
    | cons a rest =>
      have ha : x.vm.avail.head? = some a := by simp [hav]
      rw [createPageDirectory_cons ha, Prod.mk.injEq] at hc
      obtain ⟨-, rfl⟩ := hc
      exact h.newDirectory ha
  | setupPageTable hpd hs hp => exact setupPageTable_ro h hpd hs hp
  | fork hpd hc hp =>
    obtain ⟨ho', hf, -⟩ := clonePagingInfo_some ho hpd hc
    exact h.forked hf ho'
  | forkFails hpd hc hp =>
    obtain ⟨ho', he, -⟩ := clonePagingInfo_none ho hpd hc
    exact h.extends he ho'
  | newPages hpd hm hp => exact newPagesHandlerC_ro h hpd hm
  | removePages hpd hm hp => exact removePagesHandlerC_ro h hpd hm
  | userLoad hpd _ hok hf hp => exact pageFaultHandlerC_ro h hpd hok hf
  | userStore hpd hok hf hp => exact userStore_ro h hpd hok hf
  | freePagingInfo hpd hp =>
    dsimp only
    rw [freePagingInfo_eq ho hpd]
    exact h.freeDirectory hpd

theorem reach_ro {x : Tracked} (h : Reach Fresh (RoStep CowFault) x) : RoInv x.ro x.vm.toTables := by
  apply h.invariant (P := fun x => RoInv x.ro x.vm.toTables)
  · intro x hx
    refine ⟨hx.1.inv.owned, ?_⟩
    intro pd i j hm
    rw [hx.2] at hm
    cases hm
  · intro x x' hx hs
    exact hs.ro hx

/-- In every run whose faults on present read-only pages are all on pages marked
copy-on-write, the pages of text and rodata segments stay read-only and a fault
turns only marked entries writable. Where the mark is missing, a fault on a
present read-only page does not end in `handle_fault`. -/
theorem read_only_segments_stay {x : Tracked} (h : Reach Fresh (RoStep CowFault) x) :
    (∀ pd i j, (pd, i, j) ∈ x.ro → bit (x.vm.entry pd i j) 1 = false) ∧
    (∀ va, x.vm.cr3 ∈ x.vm.pds → CowFault x.vm va → ∀ pd ∈ x.vm.pds, ∀ i j, bit (x.vm.entry pd i j) 1 = false →
      bit ((pageFaultHandlerC va x.vm).2.entry pd i j) 1 = true → bit (x.vm.entry pd i j) 9 = true) ∧
    (∀ va, USER_MEM_START ≤ va.toNat → bit (x.vm.pte x.vm.cr3 va) 0 = true → bit (x.vm.pte x.vm.cr3 va) 1 = false →
      ((bit (x.vm.pte x.vm.cr3 va) 9 = false → (pageFaultHandlerC va x.vm).1 = .handleFault) ↔ CowFault x.vm va)) := by
  have hr := reach_ro h
  obtain ⟨use, ho⟩ := hr.owned
  refine ⟨fun pd i j hx => (hr.entry hx).write, ?_, ?_⟩
  · intro va hpd hok pd hp i j h₀ h₁
    exact pageFaultHandlerC_writable ho hpd hok hp h₀ h₁
  · intro va hu hp hw
    have hend := pageFaultHandlerC_end hu hp hw
    constructor
    · intro himp _ _
      by_contra hc
      exact hend (himp (by simpa using hc))
    · intro hok hc
      rw [hok hp hw] at hc
      cases hc

/-! ## A run that breaks it

On a machine with enough memory a program with one text page is loaded, and the
first store to that page makes it writable. -/

def roomyBoot : Vm := { smallBoot with avail := (List.range 600).map fun i => BitVec.ofNat 32 ((i + 1) * PAGE_SIZE) }

theorem roomyBoot_calm : (vmInit 600 roomyBoot).fr.panicked = false := by decide +kernel

theorem roomyBoot_booted : Booted (vmInit 600 roomyBoot) := by
  have hav : roomyBoot.avail.all (fun a => decide (Aligned a ∧ a ≠ 0#32)) = true := by decide +kernel
  have hnd : roomyBoot.avail.Nodup := by
    apply List.Nodup.map_on _ List.nodup_range
    intro i hi j hj he
    have hi := List.mem_range.mp hi
    have hj := List.mem_range.mp hj
    have he := congrArg BitVec.toNat he
    simp only [BitVec.toNat_ofNat, PAGE_SIZE] at he
    omega
  have hboot : Boot roomyBoot := ⟨rfl, fun _ => rfl, hnd, fun a ha => of_decide_eq_true (List.all_eq_true.mp hav a ha)⟩
  exact ⟨600, roomyBoot, by decide, by decide, hboot, rfl, roomyBoot_calm⟩

theorem roomyBoot_spare : Spare 590 (vmInit 600 roomyBoot) := by
  refine ⟨by decide +kernel, ?_⟩
  rw [vmInit_fr roomyBoot_calm]
  exact ⟨_, chain_initFreeList (by decide) (by decide), by simp⟩

theorem exists_roomy : ∃ s, Booted s ∧ Spare 590 s := ⟨_, roomyBoot_booted, roomyBoot_spare⟩

def textElf : SimpleElf := { (default : SimpleElf) with eTxtstart := 0x01000000#32, eTxtlen := 1#32 }

theorem andThen_ok {σ : Type} (x : σ) (f : σ → Option (Int × σ)) : andThen (some (0, x)) f = f x := rfl

theorem readOnlyStage_ok {pd : Word} {x : Tracked} {stage : Vm → Option (Int × Vm)} {s : Vm}
    (h : stage x.vm = some (0, s)) :
    readOnlyStage pd x stage = some (0, ⟨s, x.ro ∪ newlyMapped pd x.vm.toTables s.toTables⟩) := by
  unfold readOnlyStage
  rw [h]
  rfl

theorem writableStage_ok {x : Tracked} {stage : Vm → Option (Int × Vm)} {s : Vm} (h : stage x.vm = some (0, s)) :
    writableStage x stage = some (0, ⟨s, x.ro⟩) := by
  unfold writableStage
  rw [h]
  rfl

section
variable {s : Vm} {pd : Word}

theorem load_textElf (h : s.Inv) (hpd : pd ∈ s.pds) (hD : s.kmem pd 4 = PAGE_DIR_ENTRY_DEFAULT) (sp : Spare 589 s) :
    ∃ x, (⟨s, ∅⟩ : Tracked).setupPageTable textElf pd = some (0, x) ∧ Spare 1 x.vm ∧ (pd, 4, 0) ∈ x.ro ∧ x.vm.Inv ∧
      pd ∈ x.vm.pds ∧ x.vm.cr3 = pd := by
  obtain ⟨s₁, h₁, sp⟩ := Spare.mapSegment textElf.eTxtstart textElf.eTxtlen (k := 1) (m := 588)
    sp pd TEXT_FLAGS (by decide) (by decide)
  obtain ⟨s₂, h₂, sp⟩ := Spare.mapSegment textElf.eDatstart textElf.eDatlen (k := 0) (m := 588)
    sp pd DATA_FLAGS (by decide) (by decide)
  obtain ⟨s₃, h₃, sp⟩ := Spare.mapSegment textElf.eRodatstart textElf.eRodatlen (k := 0) (m := 588)
    sp pd TEXT_FLAGS (by decide) (by decide)
  obtain ⟨s₄, h₄, sp⟩ := Spare.mapSegment textElf.eBssstart textElf.eBsslen (k := 0) (m := 588)
    sp pd DATA_FLAGS (by decide) (by decide)
  obtain ⟨s₅, h₅, sp⟩ := Spare.mapSegment (STACK_START - BitVec.ofNat 32 DEFAULT_STACK_SIZE + 1#32)
    (BitVec.ofNat 32 DEFAULT_STACK_SIZE) (k := 587) (m := 1) sp pd DATA_FLAGS (by decide) (by decide)
  obtain ⟨i₁, l₁, -⟩ := mapSegment_inv h hpd mapFlags_text h₁
  obtain ⟨i₂, l₂, -⟩ := mapSegment_inv i₁ l₁ mapFlags_data h₂
  obtain ⟨i₃, l₃, -⟩ := mapSegment_inv i₂ l₂ mapFlags_text h₃
  obtain ⟨i₄, l₄, -⟩ := mapSegment_inv i₃ l₃ mapFlags_data h₄
  obtain ⟨i₅, l₅, hcr⟩ := mapSegment_inv i₄ l₄ mapFlags_data h₅
  obtain ⟨use, ho⟩ := h.owned
  have hload : (⟨s, ∅⟩ : Tracked).setupPageTable textElf pd = some (0, ⟨s₅,
      (∅ ∪ newlyMapped pd s.toTables s₁.toTables) ∪ newlyMapped pd s₂.toTables s₃.toTables⟩) := by
    unfold Tracked.setupPageTable
    rw [if_neg (ho.pd_ne_zero hpd), readOnlyStage_ok h₁, andThen_ok, writableStage_ok h₂, andThen_ok,
      readOnlyStage_ok h₃,
      andThen_ok, writableStage_ok h₄, andThen_ok, writableStage_ok h₅, andThen_ok]
  refine ⟨_, hload, sp, ?_, i₅, l₅, hcr⟩
  have hmap := mapSegment_all 0x01000000#32 h hpd mapFlags_text (by decide) (by decide) h₁ (by decide)
    (by decide) (by decide)
  rw [pte_eq_entry] at hmap
  have ht := i₁.kernel.tableAt l₁ hmap.1 hmap.2
  exact Or.inl (Or.inr ⟨rfl, (by decide : KERNEL_MAP_NUM_ENTRIES ≤ (4 : Index).val), fun hm => hm.1 hD, ht.present,
    hmap.2⟩)

theorem exists_loaded : ∃ x pd, (∀ ok, Reach Fresh (RoStep ok) x) ∧ Spare 1 x.vm ∧ (pd, 4, 0) ∈ x.ro ∧ x.vm.Inv ∧
    pd ∈ x.vm.pds ∧ x.vm.cr3 = pd := by
  obtain ⟨s, hb, sp⟩ := exists_roomy
  cases hav : s.avail with
  | nil =>
    have := sp.pages
    simp [hav] at this
  | cons a rest =>
    have ha : s.avail.head? = some a := by simp [hav]
    have hinv := hb.inv.newDirectory ha
    have hpages := sp.pages
    have hsp : Spare 589 { s with toTables := s.toTables.newDirectory a } := by
      refine ⟨?_, sp.frames.mono (by decide)⟩
      show 589 ≤ s.avail.tail.length
      rw [List.length_tail]
      omega
    obtain ⟨x, hx, hrest⟩ := load_textElf (s := { s with toTables := s.toTables.newDirectory a }) hinv
      (Finset.mem_insert_self _ _) (by rw [newDirectory_kmem_self]; rfl) hsp
    refine ⟨x, a, fun ok => ?_, hrest⟩
    have h₀ : Reach Fresh (RoStep ok) ⟨s, ∅⟩ := Reach.start ⟨hb, rfl⟩
    have h₁ := h₀.tail (.createPageDirectory (createPageDirectory_cons ha))
    exact h₁.tail (.setupPageTable (Finset.mem_insert_self _ _) hx hrest.2.2.1.agree.calm)

theorem read_only_segments_stay_loaded :
    ∃ (x : Tracked) (pd : Word), (pd, 4, 0) ∈ x.ro ∧ bit (x.vm.entry pd 4 0) 1 = false := by
  obtain ⟨x, pd, hr, -, hx, -⟩ := exists_loaded
  exact ⟨x, pd, hx, (read_only_segments_stay (hr CowFault)).1 pd 4 0 hx⟩

theorem handleCow_ok {va : Word} (hl : lockFrame (cowFrame va s) s.fr = s.fr) (hs : FramesLeft 1 s.fr) :
    (handleCow va s).1 = 0 := by
  by_cases h1 : (lockFrame (cowFrame va s) s.fr).frameRefCount (frameIndex (cowFrame va s)) = 1
  · rw [handleCow_sole h1]
  · obtain ⟨f, fr, ha, -⟩ := hs.allocate
    rw [← hl] at ha
    rw [handleCow_copy h1 ha]

/-- The store faults, the fault handler takes the text page for a page shared
copy-on-write, and afterwards the page is writable. -/
theorem text_page_becomes_writable : ∃ (x : Tracked) (pd : Word), Reach Fresh (RoStep fun _ _ => True) x ∧
    (pd, 4, 0) ∈ x.ro ∧ bit (x.vm.entry pd 4 0) 1 = true := by
  obtain ⟨x, pd, hr, sp, hx, hinv, hpd, hcr⟩ := exists_loaded
  subst hcr
  have he := (reach_ro (hr CowFault)).entry hx
  have hpte : x.vm.pte x.vm.cr3 0x01000000#32 = x.vm.entry x.vm.cr3 4 0 := rfl
  rw [← hpte] at he
  have ht := hinv.kernel.tableAt hpd (by decide) he.ne_default
  have hlock : lockFrame (cowFrame 0x01000000#32 x.vm) x.vm.fr = x.vm.fr :=
    lockFrame_frame (hinv.isFrame ht he.ne_default)
  have hok := handleCow_ok hlock sp.frames
  cases hc : handleCow 0x01000000#32 x.vm with
  | mk r s' =>
    obtain ⟨hinv', h | h⟩ := handleCow_spec hinv hpd (by decide) he.present hc
    · rw [hc] at hok
      have := h.1
      omega
    · obtain ⟨rfl, f, m, hal, -, hw, -⟩ := h
      have hf : pageFaultHandlerC 0x01000000#32 x.vm = (.resume, s') := by
        unfold pageFaultHandlerC
        rw [if_pos (isAddrCow_of (by decide) he.present he.write), hc]
        rfl
      have hstore : ∃ s₂ e, userStore 0x01000000#32 0#8 x.vm = (e, s₂) ∧ s₂.toTables = s'.toTables ∧ s₂.fr = s'.fr := by
        unfold userStore
        rw [if_neg (by simp [userWritable, he.write]), hf]
        dsimp only
        split <;> exact ⟨_, _, rfl, rfl, rfl⟩
      obtain ⟨s₂, e, hs₂, htb, hfr⟩ := hstore
      refine ⟨⟨s₂, x.ro⟩, x.vm.cr3, (hr _).tail (.userStore hpd trivial hs₂ ?_), hx, ?_⟩
      · rw [hfr]
        exact hinv'.agree.calm
      · rw [htb, hw.entry _ hpd, if_pos ⟨rfl, rfl, rfl⟩, bit_cowDone hal (by decide), if_pos rfl]

end

end Vm

end Pebbles
