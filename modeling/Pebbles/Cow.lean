import Pebbles.RefCount
import Pebbles.Lib.Spaces

/-!
# Copy-on-write against private address spaces

What user code reads through a live directory is a private address space: every
operation acts on it as on memory that no other directory shares.
-/

namespace Pebbles

open Words Sums Runs

namespace Vm

def page (s : Vm) (pd : Word) (i j : Index) : Option (Offset → Byte) :=
  if KERNEL_MAP_NUM_ENTRIES ≤ i.val ∧ bit (s.entry pd i j) 0 = true then some (s.umem (base (s.entry pd i j))) else none

section
variable {s s' s₁ : Vm} {pd va : Word} {i j : Index}

theorem page_congr (h₀ : bit (s'.entry pd i j) 0 = bit (s.entry pd i j) 0)
    (hb : base (s'.entry pd i j) = base (s.entry pd i j))
    (hm : KERNEL_MAP_NUM_ENTRIES ≤ i.val → bit (s.entry pd i j) 0 = true →
      s'.umem (base (s.entry pd i j)) = s.umem (base (s.entry pd i j))) :
    s'.page pd i j = s.page pd i j := by
  unfold page
  rw [h₀, hb]
  split
  · rename_i hc
    rw [hm hc.1 hc.2]
  · rfl

/-! ## The processor's checks -/

theorem directory_flags (h : s.Inv) {t : Word} (ht : TableAt s.toTables pd i t) {k : Nat} (hk : k < 12) :
    bit (s.kmem pd i) k = bit USER_PD_ENTRY_FLAGS k := by
  obtain ⟨use, ho⟩ := h.owned
  have hf := (ho.tables pd ht.live i ht.user ht.present).2
  rw [← hf]
  show _ = bit (flags (s.kmem pd i)) k
  rw [bit_flags]
  simp [hk]

theorem userReadable_iff (h : s.Inv) (hpd : pd ∈ s.pds) :
    s.userReadable pd va = true ↔ USER_MEM_START ≤ va.toNat ∧ bit (s.pte pd va) 0 = true := by
  unfold userReadable
  simp only [Bool.and_eq_true]
  constructor
  · rintro ⟨⟨⟨-, h₂⟩, h₃⟩, -⟩
    refine ⟨Nat.not_lt.mp fun hlt => ?_, h₃⟩
    -- the kernel's directory entries are not for user mode
    obtain ⟨use, ho⟩ := h.owned
    have hk := (kernel_index_iff va).mpr hlt
    have hal : Aligned (s.directMap (getPdIndex va)) := ho.aligned _ (by rw [ho.direct _ hk]; simp)
    rw [ho.kernel pd hpd _ hk, bit_or_flags hal (by decide)] at h₂
    exact absurd h₂ (by decide)
  · rintro ⟨hu, hp⟩
    have ht := h.kernel.tableAt hpd (user_index hu) (j := getPtIndex va) (ne_default_of_present hp)
    rw [directory_flags h ht (by decide), directory_flags h ht (by decide)]
    exact ⟨⟨⟨by decide, by decide⟩, hp⟩, (h.entries ht (ne_default_of_present hp)).2⟩

theorem userWritable_iff (h : s.Inv) (hpd : pd ∈ s.pds) : s.userWritable pd va = true ↔
    USER_MEM_START ≤ va.toNat ∧ bit (s.pte pd va) 0 = true ∧ bit (s.pte pd va) 1 = true := by
  unfold userWritable
  simp only [Bool.and_eq_true, userReadable_iff h hpd]
  constructor
  · rintro ⟨⟨⟨hu, hp⟩, -⟩, hw⟩
    exact ⟨hu, hp, hw⟩
  · rintro ⟨hu, hp, hw⟩
    have ht := h.kernel.tableAt hpd (user_index hu) (j := getPtIndex va) (ne_default_of_present hp)
    exact ⟨⟨⟨hu, hp⟩, by rw [directory_flags h ht (by decide)]; decide⟩, hw⟩

theorem userLoad_eq (h : s.Inv) (hpd : pd ∈ s.pds) :
    s.userLoad pd va = (s.page pd (getPdIndex va) (getPtIndex va)).map fun c => c (pageOffset va) := by
  unfold userLoad page
  by_cases hr : s.userReadable pd va = true
  · obtain ⟨hu, hp⟩ := (userReadable_iff h hpd).mp hr
    rw [if_pos hr, if_pos ⟨user_index hu, hp⟩]
    rfl
  · rw [if_neg hr, if_neg]
    · rfl
    · rintro ⟨hu, hp⟩
      refine hr ((userReadable_iff h hpd).mpr ⟨Nat.not_lt.mp fun hlt => ?_, hp⟩)
      exact absurd hu (Nat.not_le.mpr ((kernel_index_iff va).mpr hlt))

/-! ## Pages after an edit -/

theorem Same.page (h : Same s s') (hpd : pd ∈ s.pds) (i j : Index) : s'.page pd i j = s.page pd i j := by
  have he := h.entry pd hpd i j
  exact page_congr (by rw [he]) (by rw [he]) fun _ _ => by rw [h.umem]

theorem Marked.page (h : Marked s s') (hpd : pd ∈ s.pds) (i j : Index) : s'.page pd i j = s.page pd i j :=
  page_congr (h.entry pd hpd i j 0 (by decide) (by decide) (by decide))
    (base_of_bits fun k hk h12 => h.entry pd hpd i j k hk (by omega) (by omega)) fun _ _ => by rw [h.umem]

theorem refs_of_page (h : s.Inv) (hpd : pd ∈ s.pds) (hi : KERNEL_MAP_NUM_ENTRIES ≤ i.val)
    (hp : bit (s.entry pd i j) 0 = true) : refs s.toTables (base (s.entry pd i j)) ≠ 0 := by
  have hne := ne_default_of_present hp
  have ht := h.kernel.tableAt hpd hi hne
  rw [ht.entry] at hne ⊢
  exact refs_pos ht hne

theorem page_frame_ne (h : s.Inv) {pd' : Word} {i' j' : Index} (hpd : pd ∈ s.pds) (hpd' : pd' ∈ s.pds)
    (hi : KERNEL_MAP_NUM_ENTRIES ≤ i.val) (hi' : KERNEL_MAP_NUM_ENTRIES ≤ i'.val)
    (hp : bit (s.entry pd i j) 0 = true) (hp' : bit (s.entry pd' i' j') 0 = true)
    (h1 : refs s.toTables (base (s.entry pd i j)) = 1) (hne : ¬ (pd' = pd ∧ i' = i ∧ j' = j)) :
    base (s.entry pd' i' j') ≠ base (s.entry pd i j) := by
  intro hb
  obtain ⟨use, ho⟩ := h.owned
  have hd := ne_default_of_present hp
  have hd' := ne_default_of_present hp'
  have ht := h.kernel.tableAt hpd hi hd
  have ht' := h.kernel.tableAt hpd' hi' hd'
  have h2 := refs_two ht ht' hd hd' hb fun e => by
    have ht'' := ht'
    rw [e.1] at ht''
    obtain ⟨e₁, e₂⟩ := ho.table_inj ht ht''
    exact hne ⟨e₁, e₂, e.2⟩
  rw [show s.toTables.kmem _ j = s.entry pd i j from rfl, h1] at h2
  omega

theorem Writes.page_fill (h : s.Inv) {f flags : Word} {c : Offset → Byte} (h0 : refs s.toTables f = 0) (hal : Aligned f)
    (hf : MapFlags flags) (hi : KERNEL_MAP_NUM_ENTRIES ≤ i.val)
    (hw : Writes pd i j (f ||| flags) (putFrame s.umem f c) s s') {pd' : Word} (hpd' : pd' ∈ s.pds) (i' j' : Index) :
    s'.page pd' i' j' = if pd' = pd ∧ i' = i ∧ j' = j then some c else s.page pd' i' j' := by
  have he := hw.entry pd' hpd' i' j'
  split at he
  · rename_i e
    obtain ⟨rfl, rfl, rfl⟩ := e
    obtain ⟨hb, hp, -⟩ := hf.bit_or hal
    rw [if_pos ⟨rfl, rfl, rfl⟩, Vm.page, he, if_pos ⟨hi, hp⟩, hb, hw.umem]
    simp [putFrame]
  · rename_i e
    rw [if_neg e]
    refine page_congr (by rw [he]) (by rw [he]) fun hi' hp' => ?_
    rw [hw.umem]
    exact if_neg fun hf' => refs_of_page h hpd' hi' hp' (by rw [hf']; exact h0)

theorem Writes.page_clear (hw : Writes pd i j PAGE_TABLE_ENTRY_DEFAULT s.umem s s') {pd' : Word} (hpd' : pd' ∈ s.pds)
    (i' j' : Index) : s'.page pd' i' j' = if pd' = pd ∧ i' = i ∧ j' = j then none else s.page pd' i' j' := by
  have he := hw.entry pd' hpd' i' j'
  split at he
  · rename_i e
    rw [if_pos e, Vm.page, he, if_neg]
    exact fun hc => absurd hc.2 (by decide)
  · rename_i e
    rw [if_neg e]
    exact page_congr (by rw [he]) (by rw [he]) fun _ _ => by rw [hw.umem]

theorem handleCow_page {addr : Word} (h : s.Inv) (hpd : s.cr3 ∈ s.pds) (hu : USER_MEM_START ≤ addr.toNat)
    (hp : bit (s.pte s.cr3 addr) 0 = true) {r : Int} (hc : handleCow addr s = (r, s')) :
    s'.pds = s.pds ∧ s'.cr3 = s.cr3 ∧ (∀ pd ∈ s.pds, ∀ i j, s'.page pd i j = s.page pd i j) ∧
      (0 ≤ r → s'.userWritable s.cr3 addr = true) := by
  obtain ⟨h', hs | ⟨rfl, f, m, hal, h1, hw, hm⟩⟩ := handleCow_spec h hpd (user_index hu) hp hc
  · exact ⟨hs.2.pds, hs.2.cr3, fun pd hpd i j => hs.2.page hpd i j, fun hr => absurd hs.1 (Int.not_lt.mpr hr)⟩
  · have hself := hw.entry s.cr3 hpd (getPdIndex addr) (getPtIndex addr)
    rw [if_pos ⟨rfl, rfl, rfl⟩] at hself
    have hp' : bit (cowDone (s.pte s.cr3 addr) f) 0 = true := by
      rw [bit_cowDone hal (by decide)]
      exact hp
    refine ⟨hw.pds, hw.cr3, fun pd hpd' i j => ?_, fun _ => ?_⟩
    · have he := hw.entry pd hpd' i j
      split at he
      · rename_i e
        obtain ⟨rfl, rfl, rfl⟩ := e
        -- the page itself: the frame is the old one, or has its contents
        have hi := user_index hu
        rw [Vm.page, Vm.page, he, if_pos ⟨hi, hp'⟩, base_cowDone hal, if_pos ⟨hi, hp⟩, hw.umem]
        rcases hm with ⟨rfl, rfl⟩ | ⟨-, rfl⟩
        · rfl
        · exact congrArg some (if_pos rfl)
      · refine page_congr (by rw [he]) (by rw [he]) fun hi' hp'' => ?_
        rw [hw.umem]
        rcases hm with ⟨-, rfl⟩ | ⟨h0, rfl⟩
        · rfl
        · exact if_neg fun hf => refs_of_page h hpd' hi' hp'' (by rw [hf]; exact h0)
    · refine (userWritable_iff h' (hw.pds ▸ hpd)).mpr ⟨hu, ?_, ?_⟩
      · rw [pte_eq_entry, hself]
        exact hp'
      · rw [pte_eq_entry, hself, bit_cowDone hal (by decide), if_pos rfl]

theorem putByte_page {b : Byte} (h : s.Inv) (hpd : s.cr3 ∈ s.pds) (hw : s.userWritable s.cr3 va = true) {pd' : Word}
    (hpd' : pd' ∈ s.pds) (i' j' : Index) : (s.putByte va b).page pd' i' j' =
      if pd' = s.cr3 ∧ i' = getPdIndex va ∧ j' = getPtIndex va then
        (s.page pd' i' j').map fun c => Function.update c (pageOffset va) b
      else s.page pd' i' j' := by
  obtain ⟨hu, hp, hrw⟩ := (userWritable_iff h hpd).mp hw
  have hm : (s.putByte va b).umem = putFrame s.umem (base (s.pte s.cr3 va))
      (Function.update (s.umem (base (s.pte s.cr3 va))) (pageOffset va) b) := rfl
  have he : (s.putByte va b).entry pd' i' j' = s.entry pd' i' j' := rfl
  split
  · rename_i e
    obtain ⟨rfl, rfl, rfl⟩ := e
    have hc : KERNEL_MAP_NUM_ENTRIES ≤ (getPdIndex va).val ∧
        bit (s.entry s.cr3 (getPdIndex va) (getPtIndex va)) 0 = true := ⟨user_index hu, hp⟩
    rw [Vm.page, Vm.page, he, if_pos hc, if_pos hc, hm]
    exact congrArg some (if_pos rfl)
  · rename_i e
    refine page_congr rfl rfl fun hi' hp' => ?_
    have ht := h.kernel.tableAt hpd (user_index hu) (j := getPtIndex va) (ne_default_of_present hp)
    have h1 : refs s.toTables (base (s.entry s.cr3 (getPdIndex va) (getPtIndex va))) = 1 :=
      h.sole ht (by simp) (ne_default_of_present hp) hrw
    rw [hm]
    exact if_neg (page_frame_ne h hpd hpd' (user_index hu) hi' hp hp' h1 e)

/-! ## Pages after a fork -/

theorem page_table {t : Word} (ht : TableAt s.toTables pd i t) (j : Index) :
    s.page pd i j = if bit (s.kmem t j) 0 = true then some (s.umem (base (s.kmem t j))) else none := by
  unfold page
  rw [ht.entry]
  simp [ht.user]

theorem page_absent (h : s.Inv) (hpd : pd ∈ s.pds) (hn : ¬ ∃ t, TableAt s.toTables pd i t) (j : Index) :
    s.page pd i j = none := by
  unfold page
  rw [if_neg]
  rintro ⟨hi, hp⟩
  exact hn ⟨_, h.kernel.tableAt hpd hi (ne_default_of_present hp)⟩

theorem page_eq_of_tables (h : s.Inv) (h' : s'.Inv) {pd' : Word} (hpd : pd ∈ s.pds) (hpd' : pd' ∈ s'.pds)
    (hm : s'.umem = s.umem)
    (hT : ∀ t, TableAt s.toTables pd i t → ∃ t', TableAt s'.toTables pd' i t' ∧
      ∀ j, bit (s'.kmem t' j) 0 = bit (s.kmem t j) 0 ∧ base (s'.kmem t' j) = base (s.kmem t j))
    (hN : ∀ t', TableAt s'.toTables pd' i t' → ∃ t, TableAt s.toTables pd i t) (j : Index) :
    s'.page pd' i j = s.page pd i j := by
  by_cases ht : ∃ t, TableAt s.toTables pd i t
  · obtain ⟨t, ht⟩ := ht
    obtain ⟨t', ht', he⟩ := hT t ht
    rw [page_table ht', page_table ht, (he j).1, (he j).2, hm]
  · rw [page_absent h hpd ht, page_absent h' hpd']
    rintro ⟨t', ht'⟩
    exact ht (hN t' ht')

theorem bit_cowEntry_zero (e : Word) : bit (cowEntry e) 0 = bit e 0 := by
  by_cases h : e = PAGE_TABLE_ENTRY_DEFAULT
  · rw [h, cowEntry_default]
  · rw [bit_cowEntry h (by decide)]
    rfl

theorem Forked.page {newPd : Word} (h : s.Inv) (h' : s'.Inv) (hf : Forked pd newPd s.toTables s'.toTables)
    (hm : s'.umem = s.umem) (hpd : pd ∈ s.pds) (i j : Index) :
    s'.page newPd i j = s.page pd i j ∧ ∀ pd' ∈ s.pds, s'.page pd' i j = s.page pd' i j := by
  have hcow : ∀ e, bit (cowEntry e) 0 = bit e 0 ∧ base (cowEntry e) = base e := fun e =>
    ⟨bit_cowEntry_zero e, base_cowEntry e⟩
  have hnew : newPd ∈ s'.pds := by
    rw [hf.pds]
    exact Finset.mem_insert_self newPd s.pds
  constructor
  · refine page_eq_of_tables h h' hpd hnew hm (fun t ht => ?_) (fun t' ht' => ?_) j
    · obtain ⟨t', ht', he⟩ := hf.child ht
      exact ⟨t', ht', fun j => by rw [he]; exact hcow _⟩
    · rcases hf.back ht' with ht | ⟨-, t₀, ht₀, -⟩
      · exact absurd ht.live hf.fresh
      · exact ⟨t₀, ht₀⟩
  · intro pd' hpd'
    have hpd'' : pd' ∈ s'.pds := by
      rw [hf.pds]
      exact Finset.mem_insert_of_mem hpd'
    refine page_eq_of_tables h h' hpd' hpd'' hm (fun t ht => ?_) (fun t' ht' => ?_) j
    · by_cases e : pd' = pd
      · subst e
        obtain ⟨ht', he⟩ := hf.own ht
        exact ⟨t, ht', fun j => by rw [he]; exact hcow _⟩
      · obtain ⟨ht', he⟩ := hf.other e ht
        exact ⟨t, ht', fun j => by rw [he]; exact ⟨rfl, rfl⟩⟩
    · rcases hf.back ht' with ht | ⟨rfl, -⟩
      · exact ⟨t', ht⟩
      · exact absurd hpd' hf.fresh

theorem Extends.page (h : s.Inv) (h' : s'.Inv) (he : Extends s.toTables s'.toTables) (hm : s'.umem = s.umem)
    (hb : ∀ {pd i t}, TableAt s'.toTables pd i t → TableAt s.toTables pd i t) (hpd : pd ∈ s.pds) (i j : Index) :
    s'.page pd i j = s.page pd i j := by
  refine page_eq_of_tables h h' hpd (he.pds ▸ hpd) hm (fun t ht => ?_) (fun t' ht' => ⟨t', hb ht'⟩) j
  obtain ⟨ht', hk⟩ := he.tables ht
  exact ⟨t, ht', fun j => by rw [hk]; exact ⟨rfl, rfl⟩⟩

/-! ## The address spaces of all directories -/

def zeroPage : Offset → Byte := fun _ => 0#8

abbrev UserSpaces := Private.Spaces Word (Index × Index) (Offset → Byte)

def spaces (s : Vm) : UserSpaces :=
  ⟨s.pds, fun pd p => if pd ∈ s.pds then s.page pd p.1 p.2 else none⟩

abbrev SpaceStep : UserSpaces → UserSpaces → Prop := Private.Step zeroPage

theorem spaces_congr (hp : s'.pds = s.pds) (h : ∀ pd ∈ s.pds, ∀ i j, s'.page pd i j = s.page pd i j) :
    s'.spaces = s.spaces := by
  unfold spaces
  rw [hp]
  congr 1
  funext pd p
  split
  · exact h pd ‹_› p.1 p.2
  · rfl

theorem spaces_set (hp : s'.pds = s.pds) {c : Option (Offset → Byte)} (hpd : pd ∈ s.pds)
    (h : ∀ pd' ∈ s.pds, ∀ i' j', s'.page pd' i' j' = if pd' = pd ∧ i' = i ∧ j' = j then c else s.page pd' i' j') :
    s'.spaces = s.spaces.set pd (i, j) c := by
  unfold spaces Private.Spaces.set
  rw [hp]
  congr 1
  funext pd' p
  obtain ⟨i', j'⟩ := p
  by_cases hpd' : pd' ∈ s.pds
  · simp only [if_pos hpd', h pd' hpd', Prod.mk.injEq]
  · simp only [if_neg hpd']
    rw [if_neg]
    rintro ⟨rfl, -⟩
    exact hpd' hpd

theorem page_of_default (h : s.entry pd i j = PAGE_TABLE_ENTRY_DEFAULT) : s.page pd i j = none := by
  unfold page
  rw [h, if_neg]
  exact fun hc => absurd hc.2 (by decide)

theorem spaces_page (hpd : pd ∈ s.pds) (i j : Index) : s.spaces.page pd (i, j) = s.page pd i j := if_pos hpd

/-- What `map_segment` does to the pages: of directory `pd`, absent pages may
have appeared, filled with zeros; nothing else changed. -/
structure Grown (pd : Word) (s s' : Vm) : Prop where
  pds : s'.pds = s.pds
  other : ∀ pd' ∈ s.pds, pd' ≠ pd → ∀ i j, s'.page pd' i j = s.page pd' i j
  own : ∀ i j, s'.page pd i j = s.page pd i j ∨ (s.page pd i j = none ∧ s'.page pd i j = some zeroPage)
  steps : Relation.ReflTransGen SpaceStep s.spaces s'.spaces

theorem Grown.rfl' : Grown pd s s := ⟨rfl, fun _ _ _ _ _ => rfl, fun _ _ => Or.inl rfl, .refl⟩

theorem Grown.trans (h : Grown pd s s₁) (h' : Grown pd s₁ s') : Grown pd s s' := by
  refine ⟨h'.pds.trans h.pds, fun pd' hpd' hne i j => ?_, fun i j => ?_, h.steps.trans h'.steps⟩
  · rw [h'.other pd' (h.pds ▸ hpd') hne, h.other pd' hpd' hne]
  · rcases h'.own i j with e' | ⟨e', e''⟩
    · rw [e']
      exact h.own i j
    · rcases h.own i j with e | ⟨-, e⟩
      · exact Or.inr ⟨e ▸ e', e''⟩
      · rw [e] at e'
        cases e'

theorem mapPage_grown {flags : Word} (h : s.Inv) (hpd : pd ∈ s.pds) (hcr : s.cr3 = pd) (hf : MapFlags flags) {ok : Bool}
    (hm : mapPage pd flags va s = (ok, s')) : Grown pd s s' := by
  obtain ⟨-, -, hs | ⟨f, h0, hal, hu, hD, hw⟩⟩ := mapPage_spec h hpd hcr hf hm
  · refine ⟨hs.pds, fun pd' hpd' _ => hs.page hpd', fun i j => Or.inl (hs.page hpd i j), ?_⟩
    rw [spaces_congr hs.pds fun pd hpd => hs.page hpd]
  · have hpage := fun pd' (hpd' : pd' ∈ s.pds) => hw.page_fill h h0 hal hf hu hpd'
    have hnone : s.page pd (getPdIndex va) (getPtIndex va) = none := page_of_default hD
    refine ⟨hw.pds, fun pd' hpd' hne i j => ?_, fun i j => ?_, ?_⟩
    · rw [hpage pd' hpd', if_neg fun e => hne e.1]
    · rw [hpage pd hpd]
      split
      · rename_i e
        obtain ⟨-, rfl, rfl⟩ := e
        exact Or.inr ⟨hnone, rfl⟩
      · exact Or.inl rfl
    · rw [spaces_set hw.pds hpd hpage]
      exact .single (.map hpd (by rw [spaces_page hpd, hnone]))

theorem mapSegment_grown {start length flags : Word} (h : s.Inv) (hpd : pd ∈ s.pds) (hf : MapFlags flags) {r : Int}
    (hm : mapSegment start length pd flags s = some (r, s')) : Grown pd s s' := by
  have := mapPages_rule (s := s.setCurPd pd)
    (P := fun s₁ => (s₁.Inv ∧ pd ∈ s₁.pds ∧ s₁.cr3 = pd) ∧ Grown pd (s.setCurPd pd) s₁)
    (fun s₁ _ _ _ h₁ hp => by
      obtain ⟨⟨h₁, h₂, h₃⟩, hg⟩ := h₁
      exact ⟨mapPage_keeps h₁ h₂ h₃ hf hp, hg.trans (mapPage_grown h₁ h₂ h₃ hf hp)⟩)
    ⟨⟨h, hpd, rfl⟩, Grown.rfl'⟩ hm
  exact ⟨this.2.pds, this.2.other, this.2.own, this.2.steps⟩

theorem Marked.grown (h : Marked s s') (hpd : pd ∈ s.pds) : Grown pd s s' := by
  refine ⟨h.pds, fun pd' hpd' _ => h.page hpd', fun i j => Or.inl (h.page hpd i j), ?_⟩
  rw [spaces_congr h.pds fun pd hpd => h.page hpd]

theorem mapNewPages_grown {base length : Word} (h : s.Inv) (hpd : s.cr3 ∈ s.pds) (hb : USER_MEM_START ≤ base.toNat)
    (hl : 0 < length.toNat) (hfit : base.toNat + length.toNat < 2 ^ 32) {r : Int}
    (hm : mapNewPages base length s = some (r, s')) : Grown s.cr3 s s' := by
  obtain ⟨-, r₁, s₁, hseg, -, hmark⟩ := mapNewPages_spec h hpd hb hl hfit hm
  have hg := mapSegment_grown h hpd mapFlags_newPages hseg
  exact hg.trans (hmark.grown (hg.pds ▸ hpd))

/-! ## User stores -/

theorem userStore_page (h : s.Inv) (hpd : s.cr3 ∈ s.pds) (hu : USER_MEM_START ≤ va.toNat)
    (hp : bit (s.pte s.cr3 va) 0 = true) (hok : s.userWritable s.cr3 va = true ∨ 0 ≤ (handleCow va s).1) (b : Byte) :
    ∃ s', userStore va b s = (.resume, s') ∧ s'.pds = s.pds ∧ s'.cr3 = s.cr3 ∧
      ∀ pd' ∈ s.pds, ∀ i' j', s'.page pd' i' j' =
        if pd' = s.cr3 ∧ i' = getPdIndex va ∧ j' = getPtIndex va then
          (s.page pd' i' j').map fun c => Function.update c (pageOffset va) b
        else s.page pd' i' j' := by
  by_cases hw : s.userWritable s.cr3 va = true
  · exact ⟨s.putByte va b, if_pos hw, rfl, rfl, fun pd' hpd' => putByte_page h hpd hw hpd'⟩
  · have hr := hok.resolve_left hw
    have hw0 : bit (s.pte s.cr3 va) 1 = false := by
      by_contra hb
      exact hw ((userWritable_iff h hpd).mpr ⟨hu, hp, by simpa using hb⟩)
    cases hc : handleCow va s with
    | mk r s₁ =>
      rw [hc] at hr
      obtain ⟨hpds, hcr, hsame, hwr⟩ := handleCow_page h hpd hu hp hc
      have hw₁ : s₁.userWritable s₁.cr3 va = true := by
        rw [hcr]
        exact hwr hr
      have h₁ := (handleCow_spec h hpd (user_index hu) hp hc).1
      have hf : pageFaultHandlerC va s = (.resume, s₁) := by
        unfold pageFaultHandlerC
        rw [if_pos (isAddrCow_of hu hp hw0), hc]
        exact if_neg (Int.not_lt.mpr hr)
      refine ⟨s₁.putByte va b, ?_, hpds, hcr, fun pd' hpd' i' j' => ?_⟩
      · unfold userStore
        rw [if_neg hw, hf]
        simp only [if_pos hw₁]
      · rw [putByte_page h₁ (hcr ▸ hpds ▸ hpd) hw₁ (hpds ▸ hpd'), hsame pd' hpd', hcr]

theorem page_ne_none (hu : USER_MEM_START ≤ va.toNat) (hp : bit (s.pte pd va) 0 = true) :
    s.page pd (getPdIndex va) (getPtIndex va) ≠ none := by
  rw [Vm.page, if_pos ⟨user_index hu, hp⟩]
  simp

theorem userStore_spaces {b : Byte} {e : FaultEnd} (h : s.Inv) (hpd : s.cr3 ∈ s.pds) (hs : userStore va b s = (e, s')) :
    Relation.ReflTransGen SpaceStep s.spaces s'.spaces := by
  have hstore : ∀ s' : Vm, s'.pds = s.pds → s.page s.cr3 (getPdIndex va) (getPtIndex va) ≠ none →
      (∀ pd' ∈ s.pds, ∀ i' j', s'.page pd' i' j' =
        if pd' = s.cr3 ∧ i' = getPdIndex va ∧ j' = getPtIndex va then
          (s.page pd' i' j').map fun c => Function.update c (pageOffset va) b
        else s.page pd' i' j') → Relation.ReflTransGen SpaceStep s.spaces s'.spaces := fun s' hp' hne hpage => by
    obtain ⟨c, hc⟩ := Option.ne_none_iff_exists'.mp hne
    rw [spaces_set hp' hpd (i := getPdIndex va) (j := getPtIndex va)
      (c := some (Function.update c (pageOffset va) b)) fun pd' hpd' i' j' => by
        rw [hpage pd' hpd']
        split
        · rename_i e
          obtain ⟨rfl, rfl, rfl⟩ := e
          rw [hc]
          rfl
        · rfl]
    exact .single (.write hpd (by rw [spaces_page hpd, hc]))
  by_cases hw : s.userWritable s.cr3 va = true
  · obtain ⟨hu, hp, -⟩ := (userWritable_iff h hpd).mp hw
    obtain ⟨s₁, hs₁, hpds, -, hpage⟩ := userStore_page h hpd hu hp (Or.inl hw) b
    rw [hs, Prod.mk.injEq] at hs₁
    obtain ⟨rfl, rfl⟩ := hs₁
    exact hstore _ hpds (page_ne_none hu hp) hpage
  · by_cases hcow : isAddrCow va s = true
    · obtain ⟨hu, hp, -⟩ := isAddrCow_true hcow
      by_cases hr : 0 ≤ (handleCow va s).1
      · obtain ⟨s₁, hs₁, hpds, -, hpage⟩ := userStore_page h hpd hu hp (Or.inr hr) b
        rw [hs, Prod.mk.injEq] at hs₁
        obtain ⟨rfl, rfl⟩ := hs₁
        exact hstore _ hpds (page_ne_none hu hp) hpage
      · cases hc : handleCow va s with
        | mk r s₁ =>
          obtain ⟨hpds, -, hsame, -⟩ := handleCow_page h hpd hu hp hc
          rw [hc] at hr
          unfold userStore pageFaultHandlerC at hs
          rw [if_neg hw, if_pos hcow, hc] at hs
          simp only [if_pos (Int.not_le.mp hr), Prod.mk.injEq] at hs
          obtain ⟨-, rfl⟩ := hs
          rw [spaces_congr hpds hsame]
    · unfold userStore pageFaultHandlerC at hs
      rw [if_neg hw, if_neg hcow] at hs
      simp only [Prod.mk.injEq] at hs
      obtain ⟨-, rfl⟩ := hs
      exact .refl

/-! ## Refinement -/

theorem clonePagingInfo_page {newPd : Word} (h : s.Inv) (hpd : pd ∈ s.pds)
    (hc : clonePagingInfo pd s = (some newPd, s')) : newPd ∉ s.pds ∧ s'.pds = insert newPd s.pds ∧
      ∀ i j, s'.page newPd i j = s.page pd i j ∧ ∀ pd' ∈ s.pds, s'.page pd' i j = s.page pd' i j := by
  obtain ⟨use, ho⟩ := h.owned
  obtain ⟨-, hf, -, hm⟩ := clonePagingInfo_some ho hpd hc
  exact ⟨hf.fresh, hf.pds, fun i j => Forked.page h (clonePagingInfo_inv h hpd hc) hf hm hpd i j⟩

theorem clonePagingInfo_spaces {o : Option Word} (h : s.Inv) (hpd : pd ∈ s.pds) (hc : clonePagingInfo pd s = (o, s')) :
    Relation.ReflTransGen SpaceStep s.spaces s'.spaces := by
  cases o with
  | none =>
    obtain ⟨use, ho⟩ := h.owned
    obtain ⟨-, he, -, hm, hb⟩ := clonePagingInfo_none ho hpd hc
    have h' := clonePagingInfo_inv h hpd hc
    rw [spaces_congr he.pds fun pd hpd i j => Extends.page h h' he hm hb hpd i j]
  | some newPd =>
    obtain ⟨hfresh, hpds, hpage⟩ := clonePagingInfo_page h hpd hc
    have : s'.spaces = ⟨insert newPd s.spaces.live,
        fun u => if u = newPd then s.spaces.page pd else s.spaces.page u⟩ := by
      unfold spaces
      rw [hpds]
      congr 1
      funext u p
      by_cases hu : u = newPd
      · subst hu
        simp [hpd, (hpage p.1 p.2).1]
      · by_cases hus : u ∈ s.pds
        · simp [hu, hus, (hpage p.1 p.2).2 u hus]
        · simp [hu, hus]
    rw [this]
    exact .single (.fork hpd hfresh)

theorem freePagingInfo_spaces (h : s.Inv) (hpd : pd ∈ s.pds) :
    Relation.ReflTransGen SpaceStep s.spaces (freePagingInfo pd s).spaces := by
  obtain ⟨use, ho⟩ := h.owned
  have hpds : (freePagingInfo pd s).pds = s.pds.erase pd := by
    rw [freePagingInfo_eq ho hpd]
    exact freeDirectory_pds ..
  have hpage : ∀ u i j, (freePagingInfo pd s).page u i j = s.page u i j := fun u i j => by
    rw [freePagingInfo_eq ho hpd]
    unfold page Tables.entry
    rw [freeDirectory_kmem]
  have : (freePagingInfo pd s).spaces = ⟨s.spaces.live.erase pd,
      fun u => if u = pd then fun _ => none else s.spaces.page u⟩ := by
    unfold spaces
    rw [hpds]
    congr 1
    funext u p
    by_cases hu : u = pd
    · simp [hu]
    · simp [hu, hpage]
  rw [this]
  exact .single (.free hpd)

theorem createPageDirectory_spaces {o : Option Word} (h : s.Inv) (hc : s.createPageDirectory = (o, s')) :
    Relation.ReflTransGen SpaceStep s.spaces s'.spaces := by
  have h' := createPageDirectory_inv h hc
  cases hav : s.avail with
  | nil =>
    rw [createPageDirectory_nil hav, Prod.mk.injEq] at hc
    exact hc.2 ▸ .refl
  | cons a rest =>
    have ha : s.avail.head? = some a := by simp [hav]
    have ham := List.mem_of_mem_head? ha
    rw [createPageDirectory_cons ha, Prod.mk.injEq] at hc
    obtain ⟨-, rfl⟩ := hc
    obtain ⟨use, ho⟩ := h.owned
    have hd := (ho.fresh ham).2.2.1
    have hmem : ∀ u, u ∈ (s.toTables.newDirectory a).pds ↔ u = a ∨ u ∈ s.pds := fun u => Finset.mem_insert
    have hnew : ∀ i j, ({ s with toTables := s.toTables.newDirectory a } : Vm).page a i j = none := fun i j =>
      page_absent h' ((hmem a).mpr (Or.inl rfl)) (fun ⟨t, ht⟩ => hd (TableAt.of_newDirectory ht).live) j
    have hold : ∀ u ∈ s.pds, ∀ i j, ({ s with toTables := s.toTables.newDirectory a } : Vm).page u i j = s.page u i j :=
      fun u hu i j => page_eq_of_tables h h' hu ((hmem u).mpr (Or.inr hu)) rfl
        (fun t ht => ⟨t, (ho.newDirectory_table ham ht).1, fun j => by
          rw [(ho.newDirectory_table ham ht).2]; exact ⟨rfl, rfl⟩⟩)
        (fun t ht => ⟨t, TableAt.of_newDirectory ht⟩) j
    have : ({ s with toTables := s.toTables.newDirectory a } : Vm).spaces = ⟨insert a s.spaces.live,
        fun u => if u = a then fun _ => none else s.spaces.page u⟩ := by
      unfold spaces
      ext1
      · rfl
      · funext u p
        by_cases hu : u = a
        · subst hu
          simp [hnew]
        · by_cases hus : u ∈ s.pds
          · simp [hmem, hu, hus, hold u hus]
          · simp [hmem, hu, hus]
    rw [this]
    exact .single (.create hd)

theorem unmapNewPages_spaces {base : Word} {r : Int} (h : s.Inv) (hpd : s.cr3 ∈ s.pds)
    (hm : unmapNewPages base s = some (r, s')) : Relation.ReflTransGen SpaceStep s.spaces s'.spaces := by
  refine (unmapNewPages_rule (P := fun s₁ => (s₁.Inv ∧ s.cr3 ∈ s₁.pds) ∧
    Relation.ReflTransGen SpaceStep s.spaces s₁.spaces) (fun s₁ va h₁ hne => ?_) ⟨⟨h, hpd⟩, .refl⟩
    (fun _ h₁ => h₁) hm).2
  obtain ⟨⟨h₁, hpd₁⟩, hr⟩ := h₁
  obtain ⟨ht, hD⟩ := tableAt_of_mark h₁ hpd₁ hne
  obtain ⟨h₂, hw⟩ := unmapPage_spec h₁ ht hD
  refine ⟨⟨h₂, hw.pds ▸ hpd₁⟩, hr.tail ?_⟩
  rw [spaces_set hw.pds hpd₁ fun pd' hpd' i' j' => hw.page_clear hpd' i' j']
  exact .unmap hpd₁

theorem MemStep.spaces (hs : MemStep s s') (h : s.Inv) : Relation.ReflTransGen SpaceStep s.spaces s'.spaces := by
  cases hs with
  | heap hh =>
    rw [spaces_congr hh.pds fun pd hpd i j =>
      Extends.page h (hh.inv h) hh.extends hh.umem (fun ht => hh.tableAt.mp ht) hpd i j]
  | setCurPd hpd => exact .refl
  | createPageDirectory hc => exact createPageDirectory_spaces h hc
  | mapSegment hpd hf _ _ hm => exact (mapSegment_grown h hpd hf hm).steps
  | mapNewPages hpd hb hl hfit hm => exact (mapNewPages_grown h hpd hb hl hfit hm).steps
  | unmapNewPages hpd _ hm => exact unmapNewPages_spaces h hpd hm
  | clonePagingInfo hpd hc => exact clonePagingInfo_spaces h hpd hc
  | handleCow hpd hu hp _ hc =>
    obtain ⟨hpds, -, hsame, -⟩ := handleCow_page h hpd hu hp hc
    rw [spaces_congr hpds hsame]
  | freePagingInfo hpd => exact freePagingInfo_spaces h hpd
  | userStore hpd hf => exact userStore_spaces h hpd hf

theorem userLoad_congr (h : s.Inv) (h' : s'.Inv) {pd' : Word} (hpd : pd ∈ s.pds) (hpd' : pd' ∈ s'.pds)
    (he : s'.page pd' (getPdIndex va) (getPtIndex va) = s.page pd (getPdIndex va) (getPtIndex va)) :
    s'.userLoad pd' va = s.userLoad pd va := by
  rw [userLoad_eq h' hpd', userLoad_eq h hpd, he]

theorem Grown.userLoad (h : s.Inv) (h' : s'.Inv) (hg : Grown pd s s') (hpd : pd ∈ s.pds) :
    (∀ pd' ∈ s.pds, ∀ va, s'.userLoad pd' va = s.userLoad pd' va ∨
      (pd' = pd ∧ s.userLoad pd va = none ∧ s'.userLoad pd va = some 0#8)) := by
  intro pd' hpd' va
  by_cases e : pd' = pd
  · subst e
    rcases hg.own (getPdIndex va) (getPtIndex va) with he | ⟨he, he'⟩
    · exact Or.inl (userLoad_congr h h' hpd (hg.pds ▸ hpd) he)
    · right
      rw [userLoad_eq h hpd, userLoad_eq h' (hg.pds ▸ hpd), he, he']
      exact ⟨rfl, rfl, rfl⟩
  · exact Or.inl (userLoad_congr h h' hpd' (hg.pds ▸ hpd') (hg.other pd' hpd' e _ _))

theorem mapSegment_zero {start length flags : Word} (h : s.Inv) (hpd : pd ∈ s.pds) (hf : MapFlags flags)
    (hb : USER_MEM_START ≤ start.toNat) (hfit : start.toNat + length.toNat < 2 ^ 32) {r : Int}
    (hm : mapSegment start length pd flags s = some (r, s')) (hr : 0 ≤ r) (h₁ : start.toNat ≤ va.toNat)
    (h₂ : va.toNat < start.toNat + length.toNat) (hn : s.userLoad pd va = none) : s'.userLoad pd va = some 0#8 := by
  have h' := (mapSegment_inv h hpd hf hm).1
  have hg := mapSegment_grown h hpd hf hm
  have hpd' : pd ∈ s'.pds := hg.pds ▸ hpd
  obtain ⟨hi, hne⟩ := mapSegment_all va h hpd hf hb hfit hm hr (Nat.div_le_div_right h₁) h₂
  rcases Grown.userLoad h h' hg hpd pd hpd va with he | ⟨-, -, he⟩
  · -- the page is present now, so the address can be read
    have hp := (h'.entries (h'.kernel.tableAt hpd' hi hne) hne).1
    have hr := (userReadable_iff h' hpd').mpr ⟨Nat.le_trans hb h₁, hp⟩
    rw [hn, userLoad, if_pos hr] at he
    cases he
  · exact he

/-- Copy-on-write memory behaves as private copies: a store is seen by its own
task only and only at its address, a fork gives the child what the parent reads
and changes what no task reads, and newly mapped pages read as zero. -/
theorem cow_memory_is_private (h : Reach Booted MemStep s) :
    (∀ va b, s.cr3 ∈ s.pds → USER_MEM_START ≤ va.toNat → bit (s.pte s.cr3 va) 0 = true →
      (s.userWritable s.cr3 va = true ∨ 0 ≤ (handleCow va s).1) →
      ∃ s', userStore va b s = (.resume, s') ∧ s'.userLoad s.cr3 va = some b ∧
        ∀ pd ∈ s.pds, ∀ va', ¬ (pd = s.cr3 ∧ va' = va) → s'.userLoad pd va' = s.userLoad pd va') ∧
    (∀ pd newPd s', pd ∈ s.pds → clonePagingInfo pd s = (some newPd, s') →
      newPd ∉ s.pds ∧ (∀ va, s'.userLoad newPd va = s.userLoad pd va) ∧
        ∀ pd' ∈ s.pds, ∀ va, s'.userLoad pd' va = s.userLoad pd' va) ∧
    (∀ start length pd flags r s', pd ∈ s.pds → MapFlags flags → USER_MEM_START ≤ start.toNat →
      start.toNat + length.toNat < 2 ^ 32 → mapSegment start length pd flags s = some (r, s') →
      (∀ pd' ∈ s.pds, ∀ va, s'.userLoad pd' va = s.userLoad pd' va ∨
        (pd' = pd ∧ s.userLoad pd va = none ∧ s'.userLoad pd va = some 0#8)) ∧
      (0 ≤ r → ∀ va : Word, start.toNat ≤ va.toNat → va.toNat < start.toNat + length.toNat →
        s.userLoad pd va = none → s'.userLoad pd va = some 0#8)) ∧
    (∀ base length r s', s.cr3 ∈ s.pds → USER_MEM_START ≤ base.toNat → 0 < length.toNat →
      base.toNat + length.toNat < 2 ^ 32 → mapNewPages base length s = some (r, s') →
      (∀ pd' ∈ s.pds, ∀ va, s'.userLoad pd' va = s.userLoad pd' va ∨
        (pd' = s.cr3 ∧ s.userLoad s.cr3 va = none ∧ s'.userLoad s.cr3 va = some 0#8)) ∧
      (0 ≤ r → ∀ va : Word, base.toNat ≤ va.toNat → va.toNat < base.toNat + length.toNat →
        s.userLoad s.cr3 va = none → s'.userLoad s.cr3 va = some 0#8)) := by
  have hi := reach_inv h
  refine ⟨fun va b hpd hu hp hok => ?_, fun pd newPd s' hpd hc => ?_,
    fun start length pd flags r s' hpd hf hb hfit hm => ?_,
    fun base length r s' hpd hb hl hfit hm => ?_⟩
  · obtain ⟨s', hs', hpds, hcr, hpage⟩ := userStore_page hi hpd hu hp hok b
    have hi' := userStore_inv hi hpd hs'
    refine ⟨s', hs', ?_, fun pd hpd' va' hne => ?_⟩
    · rw [userLoad_eq hi' (hpds ▸ hpd), hpage _ hpd, if_pos ⟨rfl, rfl, rfl⟩, Vm.page, if_pos ⟨user_index hu, hp⟩]
      simp
    · rw [userLoad_eq hi' (hpds ▸ hpd'), userLoad_eq hi hpd', hpage pd hpd']
      split
      · rename_i e
        -- the same page, so the offset differs
        have ho : pageOffset va' ≠ pageOffset va := fun ho => hne ⟨e.1, address_ext e.2.1 e.2.2 ho⟩
        rw [Option.map_map]
        congr 1
        funext c
        exact Function.update_of_ne ho ..
      · rfl
  · obtain ⟨hfresh, hpds, hpage⟩ := clonePagingInfo_page hi hpd hc
    have hi' := clonePagingInfo_inv hi hpd hc
    refine ⟨hfresh, fun va => ?_, fun pd' hpd' va => ?_⟩
    · exact userLoad_congr hi hi' hpd (hpds ▸ Finset.mem_insert_self _ _) (hpage _ _).1
    · exact userLoad_congr hi hi' hpd' (hpds ▸ Finset.mem_insert_of_mem hpd') ((hpage _ _).2 pd' hpd')
  · exact ⟨Grown.userLoad hi (mapSegment_inv hi hpd hf hm).1 (mapSegment_grown hi hpd hf hm) hpd,
      fun hr va h₁ h₂ hn => mapSegment_zero hi hpd hf hb hfit hm hr h₁ h₂ hn⟩
  · obtain ⟨hi', r₁, s₁, hseg, hr₁, hmark⟩ := mapNewPages_spec hi hpd hb hl hfit hm
    refine ⟨Grown.userLoad hi hi' (mapNewPages_grown hi hpd hb hl hfit hm) hpd, fun hr va h₁ h₂ hn => ?_⟩
    obtain ⟨hi₁, hpd₁, -⟩ := mapSegment_inv hi hpd mapFlags_newPages hseg
    rw [userLoad_congr hi₁ hi' hpd₁ (hmark.pds ▸ hpd₁) (hmark.page hpd₁ _ _)]
    exact mapSegment_zero hi hpd mapFlags_newPages hb hfit hseg (hr₁ hr) h₁ h₂ hn

/-- `mappedVm` stores to its page, and is forked. -/
theorem cow_memory_is_private_mapped :
    (∃ s', userStore 0x01000000#32 7#8 mappedVm = (.resume, s') ∧ s'.userLoad 0x5000#32 0x01000000#32 = some 7#8) ∧
    ∃ s', clonePagingInfo 0x5000#32 mappedVm = (some 0x7000#32, s') ∧
      ∀ va, s'.userLoad 0x7000#32 va = mappedVm.userLoad 0x5000#32 va := by
  have hcr : mappedVm.cr3 = 0x5000#32 := by decide +kernel
  obtain ⟨ha, hb, -⟩ := cow_memory_is_private mappedVm_reach
  obtain ⟨s', hs, hl, -⟩ := ha 0x01000000#32 7#8 (by decide +kernel) (by decide) (by decide +kernel)
    (Or.inl (by decide +kernel))
  have hc : clonePagingInfo 0x5000#32 mappedVm = (some 0x7000#32, (clonePagingInfo 0x5000#32 mappedVm).2) :=
    Prod.ext (by decide +kernel) rfl
  exact ⟨⟨s', hs, hcr ▸ hl⟩, _, hc, (hb _ _ _ (by decide +kernel) hc).2.1⟩

end

section
variable {s s' s₁ : Vm} {pd newPd : Word}

/-! ## Who owns a kernel page -/

/-- A page table is the table of one directory entry and nothing else, and no page that is
in use can be handed out. -/
theorem page_tables_unshared (h : Reach Booted MemStep s) :
    (∀ pd i t pd' i', TableAt s.toTables pd i t → TableAt s.toTables pd' i' t → pd' = pd ∧ i' = i) ∧
    (∀ pd i t, TableAt s.toTables pd i t → t ∉ s.pds ∧ t ∉ s.avail ∧ t ≠ 0#32 ∧
      ∀ k : Index, k.val < KERNEL_MAP_NUM_ENTRIES → s.directMap k ≠ t) ∧
    ∀ pd ∈ s.pds, pd ∉ s.avail ∧ ∀ k : Index, k.val < KERNEL_MAP_NUM_ENTRIES → s.directMap k ≠ pd := by
  obtain ⟨use, ho⟩ := (reach_inv h).owned
  refine ⟨fun pd i t pd' i' ht ht' => ho.table_inj ht ht',
    fun pd i t ht => ⟨ho.table_not_dir ht, fun ha => ?_, ho.table_ne_zero ht, fun k hk he => ?_⟩,
    fun pd hpd => ⟨fun ha => ?_, fun k hk he => ?_⟩⟩
  · simpa [ho.use_table ht] using ho.avail t ha
  · simpa [he, ho.use_table ht] using ho.direct k hk
  · simpa [(ho.dirs pd).mp hpd] using ho.avail pd ha
  · simpa [he, (ho.dirs pd).mp hpd] using ho.direct k hk

theorem page_tables_unshared_mapped :
    TableAt mappedVm.toTables 0x5000#32 4 0x6000#32 ∧ 0x6000#32 ∉ mappedVm.avail := by
  have ht : TableAt mappedVm.toTables 0x5000#32 4 0x6000#32 :=
    ⟨by decide +kernel, by decide +kernel, by decide +kernel, by decide +kernel⟩
  exact ⟨ht, ((page_tables_unshared mappedVm_reach).2.1 _ _ _ ht).2.1⟩

/-! ## A fork and the end of the child -/

theorem makePagesCow_fr (pd : Word) (s : Vm) : (makePagesCow pd s).fr = s.fr := by
  unfold makePagesCow
  split
  · rfl
  · refine List.foldlRecOn _ _ (motive := fun t : Vm => t.fr = s.fr) rfl fun t ht i _ => ?_
    unfold makePtCow
    split_ifs <;> exact ht

theorem incrementRefCount_count (pt : Word) (s : Vm) :
    (incrementRefCount pt s).fr.freeFramesCount = s.fr.freeFramesCount := by
  unfold incrementRefCount
  split
  · rfl
  · refine List.foldlRecOn _ _ (motive := fun fr : Frames => fr.freeFramesCount = s.fr.freeFramesCount) rfl
      fun fr hfr i _ => ?_
    split
    · exact (incRefCount_count ..).trans hfr
    · exact hfr

theorem clonePageTable_count (pt : Word) (s : Vm) :
    (clonePageTable pt s).2.fr.freeFramesCount = s.fr.freeFramesCount := by
  unfold clonePageTable createPageTable smemalign
  split
  · rfl
  · cases s.avail with
    | nil => rfl
    | cons a rest => exact incrementRefCount_count a _

theorem cloneTables_count (pd newPd : Word) (is : List Index) (s : Vm) :
    (cloneTables pd newPd is s).2.fr.freeFramesCount = s.fr.freeFramesCount := by
  induction is generalizing s with
  | nil => rfl
  | cons i is ih =>
    have hc := clonePageTable_count (getAddrFromEntry (s.kmem pd i)) s
    unfold cloneTables
    split
    · split
      all_goals
        rename_i he
        rw [he] at hc
      · exact hc
      · exact (ih _).trans hc
    · exact ih s

theorem clonePagingInfo_count (hi : s.Inv) (hpd : pd ∈ s.pds) (hc : clonePagingInfo pd s = (some newPd, s₁)) :
    s₁.fr.freeFramesCount = s.fr.freeFramesCount := by
  obtain ⟨use, ho⟩ := hi.owned
  cases hav : s.avail with
  | nil => simp [clonePagingInfo_nil hav] at hc
  | cons a rest =>
    have hn := cloneTables_count pd a userIndices (s.withDirectory a)
    rw [clonePagingInfo_eq (ho.pd_ne_zero hpd) (by rw [hav]; rfl)] at hc
    split at hc
    all_goals
      rename_i he
      rw [he] at hn
      cases hc
    rw [makePagesCow_fr, makePagesCow_fr]
    exact hn

theorem Forked.refs_freeDirectory (hf : Forked pd newPd s.toTables s'.toTables) :
    refs (s'.toTables.freeDirectory newPd) = refs s.toTables := by
  have hpds : (s'.toTables.freeDirectory newPd).pds = s.toTables.pds := by
    rw [freeDirectory_pds, hf.pds, Finset.erase_insert hf.fresh]
  refine refs_congr hpds fun pd' hpd' i => ?_
  have hne : pd' ≠ newPd := ne_of_mem_of_not_mem hpd' hf.fresh
  have hfree : pdeFrames (s'.toTables.freeDirectory newPd) pd' i = pdeFrames s'.toTables pd' i := rfl
  rw [hfree]
  rcases pde_cases s.toTables hpd' i with ⟨t, ht⟩ | hn
  · by_cases he : pd' = pd
    · subst he
      obtain ⟨ht', hk⟩ := hf.own ht
      rw [pdeFrames_table ht', pdeFrames_table ht, hk, tableFrames_cow]
    · obtain ⟨ht', hk⟩ := hf.other he ht
      rw [pdeFrames_table ht', pdeFrames_table ht, hk]
  · have hlive : pd' ∈ s'.pds := hf.pds ▸ Finset.mem_insert_of_mem hpd'
    rcases pde_cases s'.toTables hlive i with ⟨t', ht'⟩ | hn'
    · rcases hf.back ht' with ht | ⟨e, -⟩
      · exact absurd hn (by simp [ht.present, Nat.not_lt.mpr ht.user])
      · exact absurd e hne
    · rw [pdeFrames_absent hn, pdeFrames_absent hn']

/-- A fork whose child ends leaves every address space as it was, and gives back every
reference to a frame. -/
theorem fork_exit_restores (h : Reach Booted MemStep s) (hpd : pd ∈ s.pds)
    (hc : clonePagingInfo pd s = (some newPd, s₁)) :
    (freePagingInfo newPd s₁).spaces = s.spaces ∧
      ∀ f, IsFrame s.fr f →
        (freePagingInfo newPd s₁).fr.frameRefCount (frameIndex f) = s.fr.frameRefCount (frameIndex f) ∧
        (OnFreeList (freePagingInfo newPd s₁).fr f ↔ OnFreeList s.fr f) := by
  have hi := reach_inv h
  have hi₁ := clonePagingInfo_inv hi hpd hc
  obtain ⟨use, ho⟩ := hi.owned
  obtain ⟨⟨use₁, ho₁⟩, hf, -, -⟩ := clonePagingInfo_some ho hpd hc
  obtain ⟨-, hpds, hpage⟩ := clonePagingInfo_page hi hpd hc
  have hnew : newPd ∈ s₁.pds := hpds ▸ Finset.mem_insert_self _ _
  have hi₂ := freePagingInfo_inv hi₁ hnew
  have hfree := freePagingInfo_eq ho₁ hnew
  constructor
  · refine spaces_congr ?_ fun pd' hpd' i j => ?_
    · rw [hfree]
      change s₁.pds.erase newPd = s.pds
      rw [hpds, Finset.erase_insert hf.fresh]
    · rw [hfree]
      exact (hpage i j).2 pd' hpd'
  · intro f hf₁
    have hn : (freePagingInfo newPd s₁).fr.freeFramesCount = s.fr.freeFramesCount := by
      rw [← clonePagingInfo_count hi hpd hc, hfree]
      exact List.foldlRecOn _ _ (motive := fun fr : Frames => fr.freeFramesCount = s₁.fr.freeFramesCount) rfl
        fun fr hfr _ _ => (dropRefCount_count ..).trans hfr
    have hf₂ : IsFrame (freePagingInfo newPd s₁).fr f := ⟨hf₁.1, hf₁.2.1, hn ▸ hf₁.2.2⟩
    have hagree := hi₂.agree
    have hrefs : refs (freePagingInfo newPd s₁).toTables = refs s.toTables := by
      rw [hfree]
      exact Forked.refs_freeDirectory hf
    rw [hrefs] at hagree
    rw [hi.agree.counts f hf₁, hagree.counts f hf₂, hi.agree.onFreeList_iff hf₁, hagree.onFreeList_iff hf₂]
    exact ⟨rfl, Iff.rfl⟩

theorem fork_exit_restores_mapped :
    ∃ s₁, clonePagingInfo 0x5000#32 mappedVm = (some 0x7000#32, s₁) ∧
      (freePagingInfo 0x7000#32 s₁).spaces = mappedVm.spaces := by
  have hc : clonePagingInfo 0x5000#32 mappedVm = (some 0x7000#32, (clonePagingInfo 0x5000#32 mappedVm).2) :=
    Prod.ext (by decide +kernel) rfl
  exact ⟨_, hc, (fork_exit_restores mappedVm_reach (by decide +kernel) hc).1⟩

end

end Vm

end Pebbles
