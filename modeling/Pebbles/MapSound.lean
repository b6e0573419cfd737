import Pebbles.MemInv

/-!
# Mapping, unmapping and copy-on-write keep the invariant

For each operation: the invariant of memory afterwards, and which entries and
which frames it changed, as seen from any live directory.
-/

namespace Pebbles

open Words Sums

structure MapFlags (flags : Word) : Prop where
  addr : base flags = 0#32
  present : bit flags 0 = true
  user : bit flags 2 = true

theorem mapFlags_text : MapFlags Vm.TEXT_FLAGS := ⟨by decide, by decide, by decide⟩

theorem mapFlags_data : MapFlags Vm.DATA_FLAGS := ⟨by decide, by decide, by decide⟩

theorem mapFlags_newPages : MapFlags (PAGE_ENTRY_PRESENT ||| READ_WRITE_ENABLE ||| USER_MODE ||| NEWPAGE_PAGE) :=
  ⟨by decide, by decide, by decide⟩

theorem MapFlags.bit_or {flags f : Word} (h : MapFlags flags) (hf : Aligned f) :
    base (f ||| flags) = f ∧ bit (f ||| flags) 0 = true ∧ bit (f ||| flags) 2 = true :=
  ⟨base_or hf h.addr, by rw [bit_or_flags hf (by decide), h.present], by rw [bit_or_flags hf (by decide), h.user]⟩

namespace Vm

abbrev Inv (s : Vm) : Prop := MemInv ∅ s.toTables s.fr

structure Same (s s' : Vm) : Prop where
  pds : s'.pds = s.pds
  cr3 : s'.cr3 = s.cr3
  entry : ∀ pd ∈ s.pds, ∀ i j, s'.entry pd i j = s.entry pd i j
  umem : s'.umem = s.umem

structure Writes (pd : Word) (i j : Index) (e : Word) (m : Word → Offset → Byte) (s s' : Vm) : Prop where
  pds : s'.pds = s.pds
  cr3 : s'.cr3 = s.cr3
  entry : ∀ pd' ∈ s.pds, ∀ i' j', s'.entry pd' i' j' = if pd' = pd ∧ i' = i ∧ j' = j then e else s.entry pd' i' j'
  umem : s'.umem = m

section
variable {s s' s₁ : Vm} {pd flags va : Word} {i : Index}

theorem Same.rfl' : Same s s := ⟨rfl, rfl, fun _ _ _ _ => rfl, rfl⟩

/-! ## map_segment -/

theorem tableFor_same (h : s.Inv) (hpd : pd ∈ s.pds) (ht : tableFor pd i s = some s₁) :
    s₁.Inv ∧ Same s s₁ ∧ s₁.kmem pd i ≠ PAGE_DIR_ENTRY_DEFAULT ∧ refs s₁.toTables = refs s.toTables ∧ s₁.fr = s.fr := by
  unfold tableFor at ht
  split at ht
  · rename_i hD
    simp only [Option.map_eq_some_iff] at ht
    obtain ⟨a, ha, rfl⟩ := ht
    obtain ⟨use, ho⟩ := h.owned
    have ham := List.mem_of_mem_head? ha
    have hi := ho.user_of_default hpd hD
    have hinv := h.attach_default ha hpd hi hD
    have hext := ho.extends_attach (c := fun _ => PAGE_TABLE_ENTRY_DEFAULT) ha hpd hD
    refine ⟨hinv, ⟨rfl, rfl, fun pd' hpd' i' j => ?_, rfl⟩, ?_, ?_, rfl⟩
    · by_cases e : pd' = pd ∧ i' = i
      · obtain ⟨rfl, rfl⟩ := e
        rw [h.kernel.entry_absent hD]
        show (s.toTables.attach pd' i' a _).entry pd' i' j = _
        rw [(TableAt.attach_new (ho.fresh ham).1 hpd hi).entry, attach_kmem_self
          (ne_of_mem_of_not_mem hpd (ho.fresh ham).2.2.1)]
      · have hk : (s.toTables.attach pd i a fun _ => PAGE_TABLE_ENTRY_DEFAULT).kmem pd' i' = s.kmem pd' i' :=
          attach_kmem_of_ne (ne_of_mem_of_not_mem hpd' (ho.fresh ham).2.2.1) e
        rcases pde_cases s.toTables hpd' i' with ⟨t, ht⟩ | hk' | hD'
        · show (s.toTables.attach pd i a _).entry pd' i' j = _
          rw [(hext.tables ht).1.entry, ht.entry, (hext.tables ht).2]
        · exact (hinv.kernel_entry hpd' hk' j).trans (h.kernel_entry hpd' hk' j).symm
        · exact (hinv.kernel.entry_absent (hk.trans hD') j).trans (h.kernel.entry_absent hD' j).symm
    · show (s.toTables.attach pd i a _).kmem pd i ≠ _
      rw [attach_kmem_pde]
      exact pde_ne_default a
    · show refs (s.toTables.attach pd i a _) = _
      rw [refs_attach ho ham hpd hi hD, tableFrames_default, plus_nil]
  · rename_i hD
    simp only [Option.some.injEq] at ht
    subst ht
    exact ⟨h, Same.rfl', hD, rfl, rfl⟩

theorem writes_setWord (h : s.Inv) {t : Word} (ht : TableAt s.toTables pd i t) (j : Index) (w : Word) (fr : Frames)
    (m : Word → Offset → Byte) :
    Writes pd i j w m s { s with toTables := s.toTables.setWord t j w, fr := fr, umem := m } := by
  obtain ⟨use, ho⟩ := h.owned
  exact ⟨rfl, rfl, fun pd' hpd' i' j' => ho.entry_setWord ht j w hpd' i' j', rfl⟩

theorem user_or_kernel (h : s.Inv) (hpd : pd ∈ s.pds) (hne : s.kmem pd (getPdIndex va) ≠ PAGE_DIR_ENTRY_DEFAULT) :
    TableAt s.toTables pd (getPdIndex va) (s.ptAddr pd va) ∨ s.pte pd va ≠ PAGE_TABLE_ENTRY_DEFAULT := by
  obtain ⟨use, ho⟩ := h.owned
  rcases ho.ptAddr_cases hpd va with ht | ⟨hk, -⟩ | ⟨-, hD, -⟩
  · exact Or.inl ht
  · right
    rw [pte_eq_entry, h.kernel_entry hpd hk]
    exact directEntry_ne_default _ _
  · exact absurd hD hne

def putFrame (m : Word → Offset → Byte) (f : Word) (c : Offset → Byte) : Word → Offset → Byte :=
  fun g => if g = f then c else m g

theorem zeroFill_eq (h0 : va ≠ 0#32) :
    s.zeroFill va = { s with umem := putFrame s.umem (base (s.pte s.cr3 va)) fun _ => 0#8 } := by
  unfold zeroFill writePage setFrame putFrame
  rw [if_neg h0]
  rfl

theorem fillEntry_spec (h : s.Inv) (hpd : pd ∈ s.pds) (hcr : s.cr3 = pd) (hf : MapFlags flags)
    (hne : s.kmem pd (getPdIndex va) ≠ PAGE_DIR_ENTRY_DEFAULT) {ok : Bool}
    (hm : fillEntry pd flags va s = (ok, s')) :
    s'.Inv ∧ (ok = true → s'.pte pd va ≠ PAGE_TABLE_ENTRY_DEFAULT) ∧
      (Same s s' ∨ ∃ f, refs s.toTables f = 0 ∧ Aligned f ∧ KERNEL_MAP_NUM_ENTRIES ≤ (getPdIndex va).val ∧
        s.pte pd va = PAGE_TABLE_ENTRY_DEFAULT ∧
        Writes pd (getPdIndex va) (getPtIndex va) (f ||| flags) (putFrame s.umem f fun _ => 0#8) s s') := by
  subst hcr
  unfold fillEntry at hm
  split at hm
  · rename_i hD
    have ht : TableAt s.toTables s.cr3 (getPdIndex va) (s.ptAddr s.cr3 va) :=
      (user_or_kernel h hpd hne).resolve_right (not_not_intro hD)
    split at hm
    · rename_i f fr ha
      obtain ⟨hfr, h0, hcnt, hag⟩ := h.agree.allocate ha
      obtain ⟨hb, hp, hu⟩ := hf.bit_or hfr.1
      have hva : va ≠ 0#32 := by
        rintro rfl
        exact absurd ht.user (by decide)
      obtain ⟨use, ho⟩ := h.owned
      have hpte : (s.toTables.setWord (s.ptAddr s.cr3 va) (getPtIndex va)
        (f ||| flags)).pte s.cr3 va = f ||| flags := by
        rw [pte_eq_entry, ho.entry_setWord ht _ _ hpd, if_pos ⟨rfl, rfl, rfl⟩]
      have hfr' : IsFrame fr f := ⟨hfr.1, hfr.2.1, hcnt.symm ▸ hfr.2.2⟩
      rw [zeroFill_eq hva, incRefCount_frame hfr'] at hm
      simp only [setWord, Prod.mk.injEq] at hm
      obtain ⟨rfl, rfl⟩ := hm
      rw [hpte, hb]
      refine ⟨?_, fun _ => ?_, Or.inr ⟨f, h0, hfr.1, ht.user, hD, writes_setWord h ht _ _ _ _⟩⟩
      · refine MemInv.setWord h ht ?_ (fun _ => ⟨hp, hu⟩) (Or.inr (Or.inr (hb.symm ▸ h0)))
        -- the entry was absent, so one reference to `f` is added
        refine hag.congr fun g => ?_
        have hr := refs_setWord ho ht (getPtIndex va) (f ||| flags) g
        rw [show s.kmem (s.ptAddr s.cr3 va) (getPtIndex va) = PAGE_TABLE_ENTRY_DEFAULT from hD, entryFrames_default,
          entryFrames_of_ne (ne_default_of_present hp), hb] at hr
        exact hr.symm
      · exact ne_default_of_present hp
    · rename_i fr ha
      rw [allocateFrame_none ha, Prod.mk.injEq] at hm
      obtain ⟨rfl, rfl⟩ := hm
      exact ⟨h, by simp, Or.inl Same.rfl'⟩
  · rename_i hD
    rw [Prod.mk.injEq] at hm
    obtain ⟨rfl, rfl⟩ := hm
    exact ⟨h, fun _ => hD, Or.inl Same.rfl'⟩

theorem Same.trans (h : Same s s₁) (h' : Same s₁ s') : Same s s' := by
  refine ⟨h'.pds.trans h.pds, h'.cr3.trans h.cr3, fun pd hpd i j => ?_, h'.umem.trans h.umem⟩
  rw [h'.entry pd (h.pds ▸ hpd) i j, h.entry pd hpd i j]

theorem Same.writes {j : Index} {e : Word} {m : Word → Offset → Byte} (h : Same s s₁) (h' : Writes pd i j e m s₁ s') :
    Writes pd i j e m s s' := by
  refine ⟨h'.pds.trans h.pds, h'.cr3.trans h.cr3, fun pd hpd i j => ?_, h'.umem⟩
  rw [h'.entry pd (h.pds ▸ hpd) i j, h.entry pd hpd i j]

theorem mapPage_spec (h : s.Inv) (hpd : pd ∈ s.pds) (hcr : s.cr3 = pd) (hf : MapFlags flags) {ok : Bool}
    (hm : mapPage pd flags va s = (ok, s')) :
    s'.Inv ∧ (ok = true → s'.pte pd va ≠ PAGE_TABLE_ENTRY_DEFAULT) ∧
      (Same s s' ∨ ∃ f, refs s.toTables f = 0 ∧ Aligned f ∧ KERNEL_MAP_NUM_ENTRIES ≤ (getPdIndex va).val ∧
        s.pte pd va = PAGE_TABLE_ENTRY_DEFAULT ∧
        Writes pd (getPdIndex va) (getPtIndex va) (f ||| flags) (putFrame s.umem f fun _ => 0#8) s s') := by
  rw [mapPage_eq] at hm
  split at hm
  · rw [Prod.mk.injEq] at hm
    obtain ⟨rfl, rfl⟩ := hm
    exact ⟨h, by simp, Or.inl Same.rfl'⟩
  · rename_i s₁ ht
    obtain ⟨h₁, hsame, hne, hrefs, -⟩ := tableFor_same h hpd ht
    obtain ⟨h₂, hok, hr⟩ := fillEntry_spec h₁ (hsame.pds ▸ hpd) (hsame.cr3.trans hcr) hf hne hm
    refine ⟨h₂, hok, hr.imp (fun h' => hsame.trans h') ?_⟩
    rintro ⟨f, h0, hal, hu, hD, hw⟩
    rw [hrefs] at h0
    rw [hsame.umem] at hw
    rw [pte_eq_entry, hsame.entry pd hpd] at hD
    exact ⟨f, h0, hal, hu, hD, hsame.writes hw⟩

theorem mapPage_keeps (h : s.Inv) (hpd : pd ∈ s.pds) (hcr : s.cr3 = pd) (hf : MapFlags flags) {ok : Bool}
    (hm : mapPage pd flags va s = (ok, s')) : s'.Inv ∧ pd ∈ s'.pds ∧ s'.cr3 = pd := by
  obtain ⟨h', -, hs | ⟨f, -, -, -, -, hw⟩⟩ := mapPage_spec h hpd hcr hf hm
  · exact ⟨h', hs.pds ▸ hpd, hs.cr3.trans hcr⟩
  · exact ⟨h', hw.pds ▸ hpd, hw.cr3.trans hcr⟩

theorem mapPages_rule {P : Vm → Prop} {end' : Word}
    (hP : ∀ s va ok s', P s → mapPage pd flags va s = (ok, s') → P s') {n : Nat} {r : Int} (h : P s)
    (hm : mapPages pd flags end' n va s = some (r, s')) : P s' := by
  induction n generalizing s va with
  | zero =>
    rw [mapPages] at hm
    split at hm
    · simp at hm
    · simp only [Option.some.injEq, Prod.mk.injEq] at hm
      exact hm.2 ▸ h
  | succ n ih =>
    rw [mapPages] at hm
    split at hm
    · split at hm
      · rename_i s₁ hp
        exact ih (hP s va true s₁ h hp) hm
      · rename_i s₁ hp
        simp only [Option.some.injEq, Prod.mk.injEq] at hm
        exact hm.2 ▸ hP s va false s₁ h hp
    · simp only [Option.some.injEq, Prod.mk.injEq] at hm
      exact hm.2 ▸ h

theorem mapPage_mapped (h : s.Inv) (hpd : pd ∈ s.pds) (hcr : s.cr3 = pd) (hf : MapFlags flags) {ok : Bool}
    (hm : mapPage pd flags va s = (ok, s')) {pd' : Word} (hpd' : pd' ∈ s.pds) {i' j' : Index}
    (hne : s.entry pd' i' j' ≠ PAGE_TABLE_ENTRY_DEFAULT) : s'.entry pd' i' j' = s.entry pd' i' j' := by
  obtain ⟨-, -, hs | ⟨f, -, -, -, hD, hw⟩⟩ := mapPage_spec h hpd hcr hf hm
  · exact hs.entry pd' hpd' i' j'
  · rw [hw.entry pd' hpd', if_neg]
    rintro ⟨rfl, rfl, rfl⟩
    exact hne hD

theorem mapPages_keeps (h : s.Inv) (hpd : pd ∈ s.pds) (hcr : s.cr3 = pd) (hf : MapFlags flags) {end' : Word} {n : Nat}
    {r : Int} (hm : mapPages pd flags end' n va s = some (r, s')) : s'.Inv ∧ pd ∈ s'.pds ∧ s'.cr3 = pd :=
  mapPages_rule (P := fun s => s.Inv ∧ pd ∈ s.pds ∧ s.cr3 = pd)
    (fun _ _ _ _ h hp => mapPage_keeps h.1 h.2.1 h.2.2 hf hp) ⟨h, hpd, hcr⟩ hm

theorem mapPages_mapped (h : s.Inv) (hpd : pd ∈ s.pds) (hcr : s.cr3 = pd) (hf : MapFlags flags) {end' : Word} {n : Nat}
    {r : Int} (hm : mapPages pd flags end' n va s = some (r, s')) {i j : Index}
    (hne : s.entry pd i j ≠ PAGE_TABLE_ENTRY_DEFAULT) : s'.entry pd i j = s.entry pd i j :=
  (mapPages_rule (P := fun s₁ => (s₁.Inv ∧ pd ∈ s₁.pds ∧ s₁.cr3 = pd) ∧ s₁.entry pd i j = s.entry pd i j)
    (fun s₁ _ _ _ h₁ hp => by
      obtain ⟨⟨h₁, h₂, h₃⟩, he⟩ := h₁
      refine ⟨mapPage_keeps h₁ h₂ h₃ hf hp, ?_⟩
      rw [mapPage_mapped h₁ h₂ h₃ hf hp h₂ (he ▸ hne), he]) ⟨⟨h, hpd, hcr⟩, rfl⟩ hm).2

theorem mapPages_all (h : s.Inv) (hpd : pd ∈ s.pds) (hcr : s.cr3 = pd) (hf : MapFlags flags) (hal : Aligned va)
    {end' : Word} {n : Nat} {r : Int} (hm : mapPages pd flags end' n va s = some (r, s')) (hr : 0 ≤ r) {p : Word}
    (hp : Aligned p) (h₁ : va.toNat ≤ p.toNat) (h₂ : p.toNat < end'.toNat) :
    s'.pte pd p ≠ PAGE_TABLE_ENTRY_DEFAULT := by
  induction n generalizing s va with
  | zero =>
    rw [mapPages, if_pos (by omega)] at hm
    simp at hm
  | succ n ih =>
    rw [mapPages, if_pos (by omega)] at hm
    split at hm
    · rename_i s₁ hp₁
      obtain ⟨h₃, h₄, h₅⟩ := mapPage_keeps h hpd hcr hf hp₁
      by_cases e : p = va
      · subst e
        have hne := (mapPage_spec h hpd hcr hf hp₁).2.1 rfl
        rw [pte_eq_entry] at hne ⊢
        rw [mapPages_mapped h₃ h₄ h₅ hf hm hne]
        exact hne
      · -- both addresses are page aligned, so the next round is still at or below `p`
        have hlt : va.toNat ≠ p.toNat := fun e' => e (BitVec.eq_of_toNat_eq e'.symm)
        rw [aligned_iff] at hal hp
        have hnext : (va + BitVec.ofNat 32 PAGE_SIZE).toNat = va.toNat + 4096 := by
          have := p.isLt
          simp only [BitVec.toNat_add, BitVec.toNat_ofNat, PAGE_SIZE]
          omega
        refine ih h₃ h₄ h₅ ?_ hm ?_
        · rw [aligned_iff, hnext]
          omega
        · omega
    · simp only [Option.some.injEq, Prod.mk.injEq] at hm
      rw [← hm.1] at hr
      exact absurd hr (by decide)

theorem mapSegment_inv (h : s.Inv) (hpd : pd ∈ s.pds) (hf : MapFlags flags) {start length : Word} {r : Int}
    (hm : mapSegment start length pd flags s = some (r, s')) : s'.Inv ∧ pd ∈ s'.pds ∧ s'.cr3 = pd :=
  mapPages_keeps (s := s.setCurPd pd) h hpd rfl hf hm

theorem mapSegment_all (va : Word) {start length : Word} (h : s.Inv) (hpd : pd ∈ s.pds) (hf : MapFlags flags)
    (hb : USER_MEM_START ≤ start.toNat) (hfit : start.toNat + length.toNat < 2 ^ 32) {r : Int}
    (hm : mapSegment start length pd flags s = some (r, s')) (hr : 0 ≤ r) (h₁ : start.toNat / 4096 ≤ va.toNat / 4096)
    (h₂ : va.toNat < start.toNat + length.toNat) :
    KERNEL_MAP_NUM_ENTRIES ≤ (getPdIndex va).val ∧ s'.pte pd va ≠ PAGE_TABLE_ENTRY_DEFAULT := by
  have hend : (start + length).toNat = start.toNat + length.toNat := by
    rw [BitVec.toNat_add]
    omega
  refine ⟨Nat.le_of_not_lt fun hk => ?_, ?_⟩
  · rw [kernel_index_iff] at hk
    change 0x01000000 ≤ _ at hb
    change _ < 0x01000000 at hk
    omega
  · have := mapPages_all (s := s.setCurPd pd) h hpd rfl hf (aligned_base start) hm hr (aligned_base va)
      (by rw [toNat_base, toNat_base]; omega) (by rw [toNat_base, hend]; omega)
    rw [pte_eq_entry] at this ⊢
    rwa [show getPdIndex (base va) = getPdIndex va from getPdIndex_round va,
      show getPtIndex (base va) = getPtIndex va from getPtIndex_round va] at this

/-! ## map_new_pages -/

theorem mark_spec (h : s.Inv) (hpd : pd ∈ s.pds) (hi : KERNEL_MAP_NUM_ENTRIES ≤ (getPdIndex va).val)
    (hne : s.pte pd va ≠ PAGE_TABLE_ENTRY_DEFAULT) {w : Word}
    (hw : ∀ k < 32, k ≠ 10 → k ≠ 11 → bit w k = bit (s.pte pd va) k) :
    (s.setWord (s.ptAddr pd va) (getPtIndex va) w).Inv ∧
      Writes pd (getPdIndex va) (getPtIndex va) w s.umem s (s.setWord (s.ptAddr pd va) (getPtIndex va) w) := by
  have ht : TableAt s.toTables pd (getPdIndex va) (s.ptAddr pd va) := h.kernel.tableAt hpd hi hne
  obtain ⟨use, ho⟩ := h.owned
  obtain ⟨hp, hu⟩ := h.entries ht hne
  have hp' : bit w 0 = true := (hw 0 (by decide) (by decide) (by decide)).trans hp
  have hu' : bit w 2 = true := (hw 2 (by decide) (by decide) (by decide)).trans hu
  have hb : base w = base (s.pte pd va) := base_of_bits fun k hk h12 => hw k hk (by omega) (by omega)
  have hwD := ne_default_of_present hp'
  refine ⟨MemInv.setWord h ht ?_ (fun _ => ⟨hp', hu'⟩) (Or.inr (Or.inl ⟨hne, hb, fun hrw => Or.inl ?_⟩)),
    writes_setWord h ht _ _ _ _⟩
  · rw [refs_setWord_same ho ht hne hwD hb]
    exact h.agree
  · exact (hw 1 (by decide) (by decide) (by decide)).symm.trans hrw

structure Marked (s s' : Vm) : Prop where
  pds : s'.pds = s.pds
  cr3 : s'.cr3 = s.cr3
  entry : ∀ pd ∈ s.pds, ∀ i j, ∀ k < 32, k ≠ 10 → k ≠ 11 → bit (s'.entry pd i j) k = bit (s.entry pd i j) k
  umem : s'.umem = s.umem

theorem Writes.marked {j : Index} {w : Word} (hw : Writes pd i j w s.umem s s')
    (hb : ∀ k < 32, k ≠ 10 → k ≠ 11 → bit w k = bit (s.entry pd i j) k) : Marked s s' := by
  refine ⟨hw.pds, hw.cr3, fun pd' hpd' i' j' k hk h₁ h₂ => ?_, hw.umem⟩
  rw [hw.entry pd' hpd']
  split
  · rename_i e
    obtain ⟨rfl, rfl, rfl⟩ := e
    exact hb k hk h₁ h₂
  · rfl

theorem Marked.trans (h : Marked s s₁) (h' : Marked s₁ s') : Marked s s' := by
  refine ⟨h'.pds.trans h.pds, h'.cr3.trans h.cr3, fun pd hpd i j k hk h₁ h₂ => ?_, h'.umem.trans h.umem⟩
  rw [h'.entry pd (h.pds ▸ hpd) i j k hk h₁ h₂, h.entry pd hpd i j k hk h₁ h₂]

theorem Same.marked (h : Same s s') : Marked s s' :=
  ⟨h.pds, h.cr3, fun pd hpd i j k _ _ _ => by rw [h.entry pd hpd], h.umem⟩

theorem mapNewPages_writes {base length : Word} (h : s.Inv) (hpd : s.cr3 ∈ s.pds) (hb : USER_MEM_START ≤ base.toNat)
    (hl : 0 < length.toNat) (hfit : base.toNat + length.toNat < 2 ^ 32) {r : Int}
    (hm : mapNewPages base length s = some (r, s')) :
    s'.Inv ∧ ∃ r₁ s₁, mapSegment base length s.cr3 (PAGE_ENTRY_PRESENT ||| READ_WRITE_ENABLE ||| USER_MODE |||
      NEWPAGE_PAGE) s = some (r₁, s₁) ∧ ((r₁ < 0 ∧ r = r₁ ∧ s' = s₁) ∨ (0 ≤ r₁ ∧ r = 0 ∧ ∃ s₂,
        Writes s.cr3 (getPdIndex (pageRoundDown (base + length - 1#32)))
        (getPtIndex (pageRoundDown (base + length - 1#32)))
          (setNewpageEnd (s₁.pte s.cr3 (pageRoundDown (base + length - 1#32)))) s₁.umem s₁ s₂ ∧
        Writes s.cr3 (getPdIndex base) (getPtIndex base) (setNewpageStart (s₂.pte s.cr3 base)) s₁.umem s₂ s')) := by
  unfold mapNewPages at hm
  dsimp only at hm
  split at hm
  · simp at hm
  · rename_i r₁ s₁ hseg
    obtain ⟨h₁, hpd₁, hcr₁⟩ := mapSegment_inv h hpd mapFlags_newPages hseg
    split at hm
    · rename_i hr
      simp only [Option.some.injEq, Prod.mk.injEq] at hm
      obtain ⟨rfl, rfl⟩ := hm
      exact ⟨h₁, r₁, s₁, hseg, Or.inl ⟨hr, rfl, rfl⟩⟩
    · rename_i hr
      -- the range is not empty and does not wrap: its first and its last page are mapped
      have hlast : (base + length - 1#32).toNat = base.toNat + length.toNat - 1 := by
        rw [BitVec.toNat_sub, BitVec.toNat_add]
        simp only [BitVec.toNat_ofNat]
        omega
      have hall := fun va => mapSegment_all va h hpd mapFlags_newPages hb hfit hseg (Int.not_lt.mp hr)
      obtain ⟨hi₂, hne₂⟩ := hall (pageRoundDown (base + length - 1#32))
        (by rw [pageRoundDown, toNat_base, hlast]; omega) (by rw [pageRoundDown, toNat_base, hlast]; omega)
      obtain ⟨h₂, hw₂⟩ := mark_spec h₁ hpd₁ hi₂ hne₂ (w := setNewpageEnd (s₁.pte s.cr3 _))
        fun k hk => bit_setNewpageEnd _ hk
      obtain ⟨hi₃, hne₃⟩ := hall base (Nat.le_refl _) (by omega)
      have hpd₂ := hpd₁
      rw [← hw₂.pds] at hpd₂
      obtain ⟨s₂, hs₂⟩ : ∃ s₂, s₂ = s₁.setWord (s₁.ptAddr s.cr3 (pageRoundDown (base + length - 1#32)))
        (getPtIndex (pageRoundDown (base + length - 1#32)))
        (setNewpageEnd (s₁.pte s.cr3 (pageRoundDown (base + length - 1#32)))) := ⟨_, rfl⟩
      rw [← hs₂] at hm h₂ hw₂ hpd₂
      have hne₃' : s₂.pte s.cr3 base ≠ PAGE_TABLE_ENTRY_DEFAULT := by
        have hp := (h₁.entries (h₁.kernel.tableAt hpd₁ hi₃ hne₃) hne₃).1
        have := (hw₂.marked fun k hk => bit_setNewpageEnd _ hk).entry s.cr3 hpd₁ (getPdIndex base) (getPtIndex base) 0
          (by decide) (by decide) (by decide)
        exact ne_default_of_present (this.trans hp)
      obtain ⟨h₃, hw₃⟩ := mark_spec h₂ hpd₂ hi₃ hne₃' (w := setNewpageStart (s₂.pte s.cr3 base))
        fun k hk => bit_setNewpageStart _ hk
      simp only [Option.some.injEq, Prod.mk.injEq] at hm
      obtain ⟨rfl, rfl⟩ := hm
      have hcr₂ : s₂.cr3 = s.cr3 := hw₂.cr3.trans hcr₁
      exact ⟨h₃, r₁, s₁, hseg, Or.inr ⟨Int.not_lt.mp hr, rfl, s₂, hw₂, hw₃.pds, hcr₂.symm, hw₃.entry,
        hw₃.umem.trans hw₂.umem⟩⟩

theorem mapNewPages_spec {base length : Word} (h : s.Inv) (hpd : s.cr3 ∈ s.pds) (hb : USER_MEM_START ≤ base.toNat)
    (hl : 0 < length.toNat) (hfit : base.toNat + length.toNat < 2 ^ 32) {r : Int}
    (hm : mapNewPages base length s = some (r, s')) :
    s'.Inv ∧ ∃ r₁ s₁, mapSegment base length s.cr3 (PAGE_ENTRY_PRESENT ||| READ_WRITE_ENABLE ||| USER_MODE |||
      NEWPAGE_PAGE) s = some (r₁, s₁) ∧ (0 ≤ r → 0 ≤ r₁) ∧ Marked s₁ s' := by
  obtain ⟨h', r₁, s₁, hseg, ⟨-, rfl, rfl⟩ | ⟨hr, -, s₂, hw₂, hw₃⟩⟩ := mapNewPages_writes h hpd hb hl hfit hm
  · exact ⟨h', r, s', hseg, id, Same.rfl'.marked⟩
  · have hm₂ := hw₂.marked fun k hk => bit_setNewpageEnd _ hk
    rw [← hw₂.umem] at hw₃
    exact ⟨h', r₁, s₁, hseg, fun _ => hr, hm₂.trans (hw₃.marked fun k hk => bit_setNewpageStart _ hk)⟩

/-! ## unmap_new_pages -/

theorem tableAt_of_mark (h : s.Inv) (hpd : pd ∈ s.pds) (hne : getNewpageFlags (s.pte pd va) ≠ 0#32) :
    TableAt s.toTables pd (getPdIndex va) (s.ptAddr pd va) ∧ s.pte pd va ≠ PAGE_TABLE_ENTRY_DEFAULT := by
  have hD : s.pte pd va ≠ PAGE_TABLE_ENTRY_DEFAULT := by
    intro hD
    rw [hD] at hne
    exact hne (by decide)
  refine ⟨h.kernel.tableAt hpd (Nat.le_of_not_lt fun hk => hne ?_) hD, hD⟩
  rw [pte_eq_entry, h.kernel_entry hpd hk]
  exact directEntry_flags _ _

theorem unmapPage_spec (h : s.Inv) (ht : TableAt s.toTables pd (getPdIndex va) (s.ptAddr pd va))
    (hne : s.pte pd va ≠ PAGE_TABLE_ENTRY_DEFAULT) :
    (unmapPage pd va s).Inv ∧
      Writes pd (getPdIndex va) (getPtIndex va) PAGE_TABLE_ENTRY_DEFAULT s.umem s (unmapPage pd va s) := by
  obtain ⟨use, ho⟩ := h.owned
  refine ⟨MemInv.setWord h ht ?_ (fun hD => absurd rfl hD) (Or.inl rfl), writes_setWord h ht _ _ _ _⟩
  exact Agree.drop false (h.agree.congr (refs_clear ho ht hne))

theorem unmapPages_rule {P : Vm → Prop}
    (hP : ∀ s va, P s → getNewpageFlags (s.pte pd va) ≠ 0#32 → P (unmapPage pd va s)) {n : Nat} (h : P s)
    (hm : unmapPages pd n va s = some s') : P s' := by
  induction n generalizing s va with
  | zero =>
    rw [unmapPages] at hm
    split at hm
    · simp at hm
    · simp only [Option.some.injEq] at hm
      exact hm ▸ h
  | succ n ih =>
    rw [unmapPages] at hm
    split at hm
    · rename_i hf
      refine ih (hP s va h ?_) hm
      rcases hf with hf | hf <;> rw [hf] <;> decide
    · simp only [Option.some.injEq] at hm
      exact hm ▸ h

theorem unmapNewPages_rule {P : Vm → Prop} {base : Word} {r : Int}
    (hP : ∀ s₁ va, P s₁ → getNewpageFlags (s₁.pte s.cr3 va) ≠ 0#32 → P (unmapPage s.cr3 va s₁)) (h : P s)
    (hcr : ∀ s₁, P s₁ → P (s₁.setCurPd s.cr3)) (hm : unmapNewPages base s = some (r, s')) : P s' := by
  unfold unmapNewPages at hm
  dsimp only at hm
  split at hm
  · simp only [Option.some.injEq, Prod.mk.injEq] at hm
    exact hm.2 ▸ h
  · rename_i hf
    split at hm
    · simp at hm
    · rename_i s₁ hu
      simp only [Option.some.injEq, Prod.mk.injEq] at hm
      refine hm.2 ▸ hcr s₁ (unmapPages_rule hP (hP s base h ?_) hu)
      rw [not_not.mp hf]
      decide

theorem unmapNewPages_inv {base : Word} {r : Int} (h : s.Inv) (hpd : s.cr3 ∈ s.pds)
    (hm : unmapNewPages base s = some (r, s')) : s'.Inv ∧ s.cr3 ∈ s'.pds := by
  refine unmapNewPages_rule (P := fun s₁ => s₁.Inv ∧ s.cr3 ∈ s₁.pds) (fun s₁ va h₁ hne => ?_) ⟨h, hpd⟩
    (fun _ h₁ => h₁) hm
  obtain ⟨ht, hD⟩ := tableAt_of_mark h₁.1 h₁.2 hne
  obtain ⟨h₂, hw⟩ := unmapPage_spec h₁.1 ht hD
  exact ⟨h₂, hw.pds ▸ h₁.2⟩

/-! ## handle_cow -/

theorem bit_cowDone {e f : Word} (hf : Aligned f) {k : Nat} (hk : k < 32) :
    bit (cowDone e f) k = if k = 1 then true else if k = 9 then false else if k < 12 then bit e k else bit f k := by
  unfold cowDone getFlagsFromEntry
  rw [bit_write_or _ hk, bit_cowMask _ hk, Words.bit_or, bit_flags]
  split_ifs with h1 h9 h12
  · simp [h1]
  · simp [h9]
  · simp [h1, h9, h12, hf.bit_lt h12]
  · simp [h1, h9, h12]

theorem cowDone_base (e : Word) :
    (e &&& COW_MODE_DISABLE_MASK) ||| READ_WRITE_ENABLE = cowDone e (base e) := by
  apply ext_bit
  intro k hk
  rw [bit_cowDone (aligned_base e) hk, bit_write_or _ hk, bit_cowMask _ hk, bit_base]
  split_ifs with h1 h9 h12
  · simp [h1]
  · simp [h9]
  · simp [h1, h9]
  · simp [h1, h9, Nat.not_lt.mp h12]

theorem base_cowDone {e f : Word} (hf : Aligned f) : base (cowDone e f) = f := by
  have : base (cowDone e f) = base f := base_of_bits fun k hk h12 => by
    rw [bit_cowDone hf hk, if_neg (by omega), if_neg (by omega), if_neg (by omega)]
  rw [this, base_of_aligned hf]

theorem base_cowCopy {e f : Word} (hf : Aligned f) :
    base ((f ||| getFlagsFromEntry e) &&& COW_MODE_DISABLE_MASK) = f := by
  have : base ((f ||| getFlagsFromEntry e) &&& COW_MODE_DISABLE_MASK) = base f := base_of_bits fun k hk h12 => by
    rw [bit_cowMask _ hk, Words.bit_or, getFlagsFromEntry, bit_flags]
    simp [Nat.not_lt.mpr h12, show k ≠ 9 by omega]
  rw [this, base_of_aligned hf]

theorem pte_round (tb : Tables) (pd va : Word) : tb.pte pd (pageRoundDown va) = tb.pte pd va := by
  rw [pte_eq_entry, pte_eq_entry, getPdIndex_round, getPtIndex_round]

theorem handleCow_spec {addr : Word} (h : s.Inv) (hpd : s.cr3 ∈ s.pds)
    (hi : KERNEL_MAP_NUM_ENTRIES ≤ (getPdIndex addr).val) (hp : bit (s.pte s.cr3 addr) 0 = true) {r : Int}
    (hc : handleCow addr s = (r, s')) :
    s'.Inv ∧ ((r < 0 ∧ Same s s') ∨ (r = 0 ∧ ∃ f m, Aligned f ∧ refs s'.toTables f = 1 ∧
      Writes s.cr3 (getPdIndex addr) (getPtIndex addr) (cowDone (s.pte s.cr3 addr) f) m s s' ∧
      ((f = base (s.pte s.cr3 addr) ∧ m = s.umem) ∨
        (refs s.toTables f = 0 ∧ m = putFrame s.umem f (s.umem (base (s.pte s.cr3 addr))))))) := by
  have hne := ne_default_of_present hp
  have ht : TableAt s.toTables s.cr3 (getPdIndex addr) (s.ptAddr s.cr3 addr) := h.kernel.tableAt hpd hi hne
  obtain ⟨use, ho⟩ := h.owned
  have hu := (h.entries ht hne).2
  have hfr : IsFrame s.fr (cowFrame addr s) := h.isFrame ht hne
  have hcount := h.agree.counts _ hfr
  have hlock := lockFrame_frame hfr
  have hdone : ∀ f, Aligned f → bit (cowDone (s.pte s.cr3 addr) f) 0 = true ∧
    bit (cowDone (s.pte s.cr3 addr) f) 2 = true :=
    fun f hf => ⟨by rw [bit_cowDone hf (by decide)]; exact hp, by rw [bit_cowDone hf (by decide)]; exact hu⟩
  by_cases h1 : refs s.toTables (cowFrame addr s) = 1
  · rw [handleCow_sole (by rw [hlock, hcount, h1]; rfl), hlock, unlockFrame_frame s.fr hfr, cowDone_base,
      Prod.mk.injEq] at hc
    obtain ⟨rfl, rfl⟩ := hc
    have hal : Aligned (base (s.pte s.cr3 addr)) := aligned_base _
    have hb := base_cowDone (e := s.pte s.cr3 addr) hal
    have hsame := refs_setWord_same ho ht hne (ne_default_of_present (hdone _ hal).1) hb
    refine ⟨MemInv.setWord h ht (by rw [hsame]; exact h.agree) (fun _ => hdone _ hal)
      (Or.inr (Or.inl ⟨hne, hb, fun _ => Or.inr h1⟩)), Or.inr ⟨rfl, _, _, hal, ?_, writes_setWord h ht _ _ _ _,
      Or.inl ⟨rfl, rfl⟩⟩⟩
    show refs (s.toTables.setWord _ _ _) _ = 1
    rw [hsame]
    exact h1
  · have hneq : (lockFrame (cowFrame addr s) s.fr).frameRefCount (frameIndex (cowFrame addr s)) ≠ 1 := by
      rw [hlock, hcount]
      exact_mod_cast h1
    cases ha : allocateFrame s.fr with
    | mk o fr =>
      rw [← hlock] at ha
      cases o with
      | none =>
        rw [handleCow_full hneq ha] at hc
        rw [hlock] at ha
        rw [allocateFrame_none ha, unlockFrame_frame s.fr hfr, Prod.mk.injEq] at hc
        obtain ⟨rfl, rfl⟩ := hc
        exact ⟨h, Or.inl ⟨by decide, Same.rfl'⟩⟩
      | some g =>
        rw [handleCow_copy hneq ha] at hc
        rw [hlock] at ha
        -- take away the reference of this entry, then give it to the new frame
        let R := refs (s.toTables.setWord (s.ptAddr s.cr3 addr) (getPtIndex addr) PAGE_TABLE_ENTRY_DEFAULT)
        have hR : ∀ f, refs s.toTables f = plus R [cowFrame addr s] f := refs_clear ho ht hne
        have hRne : R (cowFrame addr s) ≠ 0 := by
          have := hR (cowFrame addr s)
          rw [plus_self] at this
          omega
        obtain ⟨hg, hg0, hcnt, hag⟩ := (h.agree.congr hR).move hRne ha
        rw [← hR] at hg0
        have hb := base_cowDone (e := s.pte s.cr3 addr) hg.1
        have hrefs : ∀ f, plus R [g] f = refs (s.toTables.setWord (s.ptAddr s.cr3 addr) (getPtIndex addr)
            (cowDone (s.pte s.cr3 addr) g)) f := fun f => by
          have := refs_put ho ht (getPtIndex addr) (ne_default_of_present (hdone g hg.1).1) f
          rwa [hb] at this
        have hpte : (s.toTables.setWord (s.ptAddr s.cr3 addr) (getPtIndex addr)
            ((g ||| getFlagsFromEntry (s.pte s.cr3 addr)) &&& COW_MODE_DISABLE_MASK)).pte s.cr3 (pageRoundDown addr) =
            (g ||| getFlagsFromEntry (s.pte s.cr3 addr)) &&& COW_MODE_DISABLE_MASK := by
          rw [pte_round, pte_eq_entry, ho.entry_setWord ht _ _ hpd, if_pos ⟨rfl, rfl, rfl⟩]
        have hm : (fun f => if f = getAddrFromEntry ((s.toTables.setWord (s.ptAddr s.cr3 addr) (getPtIndex addr)
            ((g ||| getFlagsFromEntry (s.pte s.cr3 addr)) &&& COW_MODE_DISABLE_MASK)).pte s.cr3 (pageRoundDown addr))
            then s.readPage (pageRoundDown addr) else s.umem f) =
            putFrame s.umem g (s.umem (base (s.pte s.cr3 addr))) := by
          unfold getAddrFromEntry readPage
          rw [hpte, base_cowCopy hg.1, pte_round]
          rfl
        rw [hm, unlockFrame_frame (incRefCount g (addRefCount (cowFrame addr s) (-1) fr)), Prod.mk.injEq] at hc
        · obtain ⟨rfl, rfl⟩ := hc
          refine ⟨MemInv.setWord h ht (hag.congr hrefs) (fun _ => hdone g hg.1) (Or.inr (Or.inr (hb.symm ▸ hg0))),
            Or.inr ⟨rfl, g, _, hg.1, ?_, writes_setWord h ht _ _ _ _, Or.inr ⟨hg0, rfl⟩⟩⟩
          show refs (s.toTables.setWord _ _ _) g = 1
          rw [← hrefs, plus_self]
          have := hR g
          simp only [plus] at this
          omega
        · refine hag.frames _ ?_
          simp only [plus]
          omega

end

/-! ## Progress

With a kernel page and a frame left for each page, `map_segment` succeeds. -/

structure Spare (k : Nat) (s : Vm) : Prop where
  pages : k ≤ s.avail.length
  frames : FramesLeft k s.fr

section
variable {s : Vm} {pd flags va : Word} {k m : Nat}

theorem Spare.tableFor (h : Spare (k + 1) s) (pd : Word) (i : Index) :
    ∃ s₁, tableFor pd i s = some s₁ ∧ k ≤ s₁.avail.length ∧ FramesLeft (k + 1) s₁.fr := by
  have hlen := h.pages
  unfold Vm.tableFor
  split
  · cases hav : s.avail with
    | nil => simp [hav] at hlen
    | cons a rest =>
      refine ⟨_, rfl, ?_, h.frames⟩
      simpa [Tables.attach, Tables.setWord, Tables.setPage, hav] using hlen
  · exact ⟨s, rfl, by omega, h.frames⟩

theorem zeroFill_toTables (va : Word) (s : Vm) : (s.zeroFill va).toTables = s.toTables := by
  unfold zeroFill
  split <;> rfl

theorem zeroFill_fr (va : Word) (s : Vm) : (s.zeroFill va).fr = s.fr := by
  unfold zeroFill
  split <;> rfl

theorem Spare.mapPage (h : Spare (k + 1) s) (pd flags va : Word) :
    ∃ s', mapPage pd flags va s = (true, s') ∧ Spare k s' := by
  obtain ⟨s₁, ht, hp, hf⟩ := h.tableFor pd (getPdIndex va)
  rw [mapPage_eq, ht]
  dsimp only
  unfold fillEntry
  split
  · obtain ⟨f, fr, ha, hl⟩ := hf.allocate
    rw [ha]
    refine ⟨_, rfl, ?_, ?_⟩
    · rw [zeroFill_toTables]
      exact hp
    · rw [zeroFill_fr]
      exact hl.incRefCount f
  · exact ⟨s₁, rfl, hp, hf.mono (Nat.le_succ k)⟩

theorem Spare.mapPages {end' : Word} {n : Nat} (h : Spare (k + m) s) (pd flags : Word) (hn : k ≤ n)
    (hend : end'.toNat ≤ va.toNat + k * 4096) (hfit : va.toNat + k * 4096 < 2 ^ 32) :
    ∃ s', mapPages pd flags end' n va s = some (0, s') ∧ Spare m s' := by
  induction k generalizing n va s with
  | zero =>
    have hdone : ¬ va.toNat < end'.toNat := by omega
    refine ⟨s, ?_, by simpa using h⟩
    cases n <;> rw [Vm.mapPages, if_neg hdone]
  | succ k ih =>
    cases n with
    | zero => omega
    | succ n =>
      rw [Vm.mapPages]
      split
      · obtain ⟨s₁, hp, h₁⟩ := Spare.mapPage (k := k + m) (by rwa [Nat.add_right_comm] at h) pd flags va
        rw [hp]
        have hva : (va + BitVec.ofNat 32 PAGE_SIZE).toNat = va.toNat + 4096 := by
          rw [BitVec.toNat_add]
          show (va.toNat + 4096) % 2 ^ 32 = _
          omega
        exact ih h₁ (by omega) (by omega) (by omega)
      · exact ⟨s, rfl, by have := h.pages; omega, h.frames.mono (by omega)⟩

theorem Spare.mapSegment (start length : Word) (h : Spare (k + m) s) (pd flags : Word)
    (hend : (start + length).toNat ≤ (pageRoundDown start).toNat + k * 4096)
    (hfit : (pageRoundDown start).toNat + k * 4096 < 2 ^ 32) :
    ∃ s', mapSegment start length pd flags s = some (0, s') ∧ Spare m s' :=
  Spare.mapPages (s := s.setCurPd pd) ⟨h.pages, h.frames⟩ pd flags (by unfold addressPages; omega) hend hfit

end

end Vm

end Pebbles
