import Pebbles.Scans

/-!
# remove_pages

The loop of `unmap_new_pages` clears the pages from the start mark up to the next
page that is not marked as part of a region. Where the marks of a directory are those
of regions that do not overlap, these are the pages of one region.
-/

namespace Pebbles

open Words

section
variable {tb tb' : Tables}

theorem pdeFrames_entries (hk : KernelPages tb) (pd : Word) (i : Index) :
    pdeFrames tb pd i = if i.val < KERNEL_MAP_NUM_ENTRIES then [] else tableFrames (tb.entry pd i) := by
  unfold pdeFrames
  by_cases hi : i.val < KERNEL_MAP_NUM_ENTRIES
  · simp [hi]
  by_cases hD : tb.kmem pd i = PAGE_DIR_ENTRY_DEFAULT
  · have hentry : tb.entry pd i = fun _ => PAGE_TABLE_ENTRY_DEFAULT := funext (hk.entry_absent hD)
    simp [hi, hD, hentry, tableFrames_default]
  · simp only [hi, hD, or_self, if_false]
    rfl

theorem refs_of_pte (hk : KernelPages tb) (hk' : KernelPages tb') (hp : tb'.pds = tb.pds)
    (he : ∀ pd ∈ tb.pds, ∀ va, tb'.pte pd va = tb.pte pd va) : refs tb' = refs tb := by
  refine refs_congr hp fun pd hpd i => ?_
  have hentry : tb'.entry pd i = tb.entry pd i := by
    funext j
    obtain ⟨va, rfl, rfl⟩ := exists_address i j
    exact he pd hpd va
  rw [pdeFrames_entries hk', pdeFrames_entries hk, hentry]

end

namespace Vm

structure Clears (pd : Word) (lo hi : Nat) (s s' : Vm) : Prop where
  inv : s'.Inv
  pds : s'.pds = s.pds
  cr3 : s'.cr3 = s.cr3
  inside : ∀ va : Word, lo ≤ va.toNat → va.toNat < hi → s'.pte pd va = PAGE_TABLE_ENTRY_DEFAULT
  outside : ∀ pd' ∈ s.pds, ∀ va : Word, ¬ (pd' = pd ∧ lo ≤ va.toNat ∧ va.toNat < hi) → s'.pte pd' va = s.pte pd' va
  dirs : ∀ pd' ∈ s.pds, s'.kmem pd' = s.kmem pd'
  refs : ∀ f, refs s'.toTables f ≤ refs s.toTables f
  frames : s'.fr.freeFramesCount = s.fr.freeFramesCount
  umem : s'.umem = s.umem

section
variable {s s' s₁ : Vm} {pd va : Word} {lo mid hi n k : Nat}

theorem Clears.of_empty (h : s.Inv) (hle : hi ≤ lo) : Clears pd lo hi s s :=
  ⟨h, rfl, rfl, fun _ h₁ h₂ => absurd h₁ (by omega), fun _ _ _ _ => rfl, fun _ _ => rfl, fun _ => Nat.le_refl _, rfl,
  rfl⟩

theorem Clears.trans (h : Clears pd lo mid s s₁) (h' : Clears pd mid hi s₁ s') (hpd : pd ∈ s.pds) (hlm : lo ≤ mid)
    (hmh : mid ≤ hi) : Clears pd lo hi s s' := by
  have hpds : ∀ {pd'}, pd' ∈ s.pds → pd' ∈ s₁.pds := fun hm => h.pds ▸ hm
  refine ⟨h'.inv, h'.pds.trans h.pds, h'.cr3.trans h.cr3, fun va h₁ h₂ => ?_, fun pd' hpd' va hout => ?_,
    fun pd' hpd' => ?_, fun f => (h'.refs f).trans (h.refs f), h'.frames.trans h.frames, h'.umem.trans h.umem⟩
  · by_cases hm : mid ≤ va.toNat
    · exact h'.inside va hm h₂
    · rw [h'.outside pd (hpds hpd) va fun hin => hm hin.2.1]
      exact h.inside va h₁ (Nat.lt_of_not_le hm)
  · rw [h'.outside pd' (hpds hpd') va fun hin => hout ⟨hin.1, hlm.trans hin.2.1, hin.2.2⟩]
    exact h.outside pd' hpd' va fun hin => hout ⟨hin.1, hin.2.1, hin.2.2.trans_le hmh⟩
  · rw [h'.dirs pd' (hpds hpd')]
    exact h.dirs pd' hpd'

theorem Clears.of_setCurPd {pd' : Word} (h : Clears pd lo hi s s') (hcr : s.cr3 = pd') :
    Clears pd lo hi s (s'.setCurPd pd') :=
  ⟨h.inv, h.pds, hcr.symm, h.inside, h.outside, h.dirs, h.refs, h.frames, h.umem⟩

theorem unmapPage_clears (h : s.Inv) (hpd : pd ∈ s.pds) (hal : Aligned va)
    (hne : getNewpageFlags (s.pte pd va) ≠ 0#32) :
    Clears pd va.toNat (va.toNat + 4096) s (unmapPage pd va s) := by
  rw [aligned_iff] at hal
  obtain ⟨ht, hD⟩ := tableAt_of_mark h hpd hne
  obtain ⟨h', hw⟩ := unmapPage_spec h ht hD
  obtain ⟨use, ho⟩ := h.owned
  refine ⟨h', hw.pds, hw.cr3, fun a h₁ h₂ => ?_, fun pd' hpd' a hout => ?_, fun pd' hpd' => ?_, fun f => ?_, ?_,
    hw.umem⟩
  · rw [hw.pte hpd, if_pos ⟨rfl, by omega⟩]
  · rw [hw.pte hpd', if_neg fun he => hout ⟨he.1, by omega, by omega⟩]
  · exact setWord_other (ne_of_mem_of_not_mem hpd' (ho.table_not_dir ht)) _ _ _
  · rw [refs_clear ho ht hD f]
    exact Nat.le_add_right _ _
  · exact dropRefCount_count ..

theorem unmapPages_clears (h : s.Inv) (hpd : pd ∈ s.pds) (hal : Aligned va) (hhi : va.toNat + k * 4096 = hi)
    (hfit : hi < 2 ^ 32) (hk : k ≤ n) (hrun : ∀ a : Word, va.toNat ≤ a.toNat → a.toNat < hi → Follows pd s a)
    (hstop : ∀ a : Word, a.toNat = hi → ¬ Follows pd s a) :
    ∃ s', unmapPages pd n va s = some s' ∧ Clears pd va.toNat hi s s' := by
  induction k generalizing va s n with
  | zero => exact ⟨s, unmapPages_done (hstop va (by omega)), .of_empty h (by omega)⟩
  | succ k ih =>
    have hf := hrun va (Nat.le_refl _) (by omega)
    have hone := unmapPage_clears h hpd hal hf.marked
    have hnext : (va + BitVec.ofNat 32 PAGE_SIZE).toNat = va.toNat + 4096 := toNat_next (by omega)
    have hlater : ∀ a : Word, va.toNat + 4096 ≤ a.toNat → (unmapPage pd va s).pte pd a = s.pte pd a :=
      fun a ha => hone.outside pd hpd a fun hin => by omega
    cases n with
    | zero => omega
    | succ n =>
      rw [unmapPages_next hf]
      have hrest := ih (n := n) hone.inv (hone.pds ▸ hpd) (aligned_next hal) (by omega) (by omega) ?_ ?_
      · obtain ⟨s', hs', htail⟩ := hrest
        rw [hnext] at htail
        exact ⟨s', hs', hone.trans htail hpd (by omega) (by omega)⟩
      · intro a h₁ h₂
        unfold Follows
        rw [hlater a (by omega)]
        exact hrun a (by omega) h₂
      · intro a ha
        unfold Follows
        rw [hlater a (by omega)]
        exact hstop a ha

end

/-! ## Regions and their marks -/

structure Region where
  base : Word
  len : Word
deriving DecidableEq

def Region.Has (g : Region) (va : Word) : Prop := InRegion g.base g.len va

structure Region.Proper (g : Region) : Prop where
  baseAligned : g.base.toNat % 4096 = 0
  lenAligned : g.len.toNat % 4096 = 0
  pos : 0 < g.len.toNat
  fits : g.base.toNat + g.len.toNat < 0xfffff000

structure Decoded (pd : Word) (gs : Finset Region) (s : Vm) : Prop where
  proper : ∀ g ∈ gs, g.Proper
  apart : ∀ g ∈ gs, ∀ g' ∈ gs, ∀ va, g.Has va → g'.Has va → g = g'
  marks : ∀ g ∈ gs, ∀ va, g.Has va → getNewpageFlags (s.pte pd va) = regionMark g.base g.len va
  rest : ∀ va, (∀ g ∈ gs, ¬ g.Has va) → getNewpageFlags (s.pte pd va) = 0#32

section
variable {s s' : Vm} {pd va base len : Word} {gs : Finset Region} {g : Region}

theorem Region.Proper.has_base (h : g.Proper) : g.Has g.base := ⟨Nat.le_refl _, Nat.lt_add_of_pos_right h.pos⟩

theorem regionMark_start : regionMark base len va = NEWPAGE_START ↔ va.toNat < base.toNat + PAGE_SIZE := by
  unfold regionMark
  split_ifs with h₁ h₂
  · simp [h₁]
  · simp only [h₁, iff_false]
    decide
  · simp only [h₁, iff_false]
    decide

theorem regionMark_later (h : base.toNat + PAGE_SIZE ≤ va.toNat) :
    regionMark base len va = NEWPAGE_PAGE ∨ regionMark base len va = NEWPAGE_END := by
  unfold regionMark
  rw [if_neg (Nat.not_lt.mpr h)]
  split_ifs
  · exact Or.inr rfl
  · exact Or.inl rfl

theorem regionMark_ne_zero : regionMark base len va ≠ 0#32 := by
  unfold regionMark
  split_ifs <;> decide

theorem Decoded.congr (h : Decoded pd gs s) {pd' : Word}
    (he : ∀ va, getNewpageFlags (s'.pte pd' va) = getNewpageFlags (s.pte pd va)) : Decoded pd' gs s' :=
  ⟨h.proper, h.apart, fun g hg va hva => (he va).trans (h.marks g hg va hva), fun va hva => (he va).trans
  (h.rest va hva)⟩

theorem Decoded.start_iff (h : Decoded pd gs s) (hal : base.toNat % 4096 = 0) :
    getNewpageFlags (s.pte pd base) = NEWPAGE_START ↔ ∃ g ∈ gs, g.base = base := by
  constructor
  · intro hs
    by_cases hany : ∃ g ∈ gs, g.Has base
    · obtain ⟨g, hg, hin⟩ := hany
      refine ⟨g, hg, ?_⟩
      rw [h.marks g hg base hin, regionMark_start] at hs
      have halg := (h.proper g hg).baseAligned
      have hle := hin.1
      unfold PAGE_SIZE at hs
      apply BitVec.eq_of_toNat_eq
      omega
    · have hz := h.rest base fun g hg hin => hany ⟨g, hg, hin⟩
      rw [hs] at hz
      exact absurd hz (by decide)
  · rintro ⟨g, hg, rfl⟩
    rw [h.marks g hg _ (h.proper g hg).has_base, regionMark_start]
    exact Nat.lt_add_of_pos_right (by decide)

theorem Decoded.stop (h : Decoded pd gs s) (hg : g ∈ gs) (hva : va.toNat = g.base.toNat + g.len.toNat) :
    ¬ Follows pd s va := by
  have hp := h.proper g hg
  have hpos := hp.pos
  have hal := hp.baseAligned
  have hlen := hp.lenAligned
  by_cases hany : ∃ g' ∈ gs, g'.Has va
  · obtain ⟨g', hg', hin⟩ := hany
    have hal' := (h.proper g' hg').baseAligned
    have hfirst : va.toNat < g'.base.toNat + 4096 := by
      by_contra hlater
      -- the last page of the region would be in the other one too
      have hprev : (va - 4096#32).toNat = va.toNat - 4096 := BitVec.toNat_sub_of_le (BitVec.le_def.mpr (by
        show 4096 ≤ _
        omega))
      have hlast : g.Has (va - 4096#32) := ⟨by omega, by omega⟩
      have hlast' : g'.Has (va - 4096#32) := ⟨by omega, by have := hin.2; omega⟩
      have he := h.apart g hg g' hg' _ hlast hlast'
      have hend := hin.2
      rw [← he, hva] at hend
      exact Nat.lt_irrefl _ hend
    intro hf
    unfold Follows at hf
    rw [h.marks g' hg' va hin, regionMark_start.mpr hfirst] at hf
    exact absurd hf (by decide)
  · intro hf
    exact hf.marked (h.rest va fun g' hg' hin => hany ⟨g', hg', hin⟩)

theorem Decoded.removes (hd : Decoded s.cr3 gs s) (h : s.Inv) (hpd : s.cr3 ∈ s.pds) (hg : g ∈ gs) :
    ∃ s', removePagesHandlerC g.base s = some (0, s') ∧
      Clears s.cr3 g.base.toNat (g.base.toNat + g.len.toNat) s s' := by
  have hp := hd.proper g hg
  have hpos := hp.pos
  have hal := hp.baseAligned
  have hlen := hp.lenAligned
  have hfits := hp.fits
  have hstart := (hd.start_iff hal).mpr ⟨g, hg, rfl⟩
  have hone := unmapPage_clears h hpd ((aligned_iff _).mpr hal) (by rw [hstart]; decide)
  have hnext : (g.base + BitVec.ofNat 32 PAGE_SIZE).toNat = g.base.toNat + 4096 := toNat_next (by omega)
  have hlater : ∀ a : Word, g.base.toNat + 4096 ≤ a.toNat → (unmapPage s.cr3 g.base s).pte s.cr3 a = s.pte s.cr3 a :=
    fun a ha => hone.outside s.cr3 hpd a fun hin => by omega
  have hrest := unmapPages_clears (n := addressPages) (k := g.len.toNat / 4096 - 1) hone.inv (hone.pds ▸ hpd)
    (aligned_next ((aligned_iff _).mpr hal)) rfl (by omega) (by unfold addressPages; omega) ?_ ?_
  · obtain ⟨s', hs', htail⟩ := hrest
    rw [hnext, show g.base.toNat + 4096 + (g.len.toNat / 4096 - 1) * 4096 = g.base.toNat + g.len.toNat by omega] at htail
    refine ⟨s'.setCurPd s.cr3, ?_, (hone.trans htail hpd (by omega) (by omega)).of_setCurPd rfl⟩
    have hsize : ¬ g.base.toNat % PAGE_SIZE ≠ 0 := not_not_intro hal
    unfold removePagesHandlerC unmapNewPages
    rw [if_neg hsize]
    dsimp only
    rw [if_neg (not_not_intro hstart), hs']
  · intro a h₁ h₂
    have hin : g.Has a := ⟨by omega, by omega⟩
    unfold Follows
    rw [hlater a (by omega), hd.marks g hg a hin]
    exact regionMark_later (by unfold PAGE_SIZE; omega)
  · intro a ha
    unfold Follows
    rw [hlater a (by omega)]
    exact hd.stop hg (by omega)

theorem Decoded.refuses (hd : Decoded s.cr3 gs s) (hn : ∀ g ∈ gs, g.base ≠ base) :
    removePagesHandlerC base s = some (ERR_INVAL, s) := by
  unfold removePagesHandlerC
  split_ifs with hal
  · rfl
  · unfold unmapNewPages
    dsimp only
    rw [if_pos fun hs => ?_]
    obtain ⟨g, hg, he⟩ := (hd.start_iff (not_not.mp hal)).mp hs
    exact hn g hg he

theorem Decoded.removed (hd : Decoded pd gs s) (hpd : pd ∈ s.pds) (hg : g ∈ gs)
    (hc : Clears pd g.base.toNat (g.base.toNat + g.len.toNat) s s') :
    Decoded pd (gs.filter (·.base ≠ g.base)) s' := by
  have hsub : ∀ {g'}, g' ∈ gs.filter (·.base ≠ g.base) → g' ∈ gs := fun hm => Finset.mem_of_mem_filter _ hm
  refine ⟨fun g' hg' => hd.proper g' (hsub hg'), fun g₁ h₁ g₂ h₂ => hd.apart g₁ (hsub h₁) g₂ (hsub h₂),
    fun g' hg' va hin => ?_, fun va hnone => ?_⟩
  · rw [hc.outside pd hpd va fun he => ?_]
    · exact hd.marks g' (hsub hg') va hin
    · have hsame := hd.apart g hg g' (hsub hg') va he.2 hin
      exact (Finset.mem_filter.mp hg').2 (hsame ▸ rfl)
  · by_cases hin : g.Has va
    · rw [hc.inside va hin.1 hin.2]
      decide
    · rw [hc.outside pd hpd va fun he => hin he.2]
      refine hd.rest va fun g' hg' hin' => hnone g' (Finset.mem_filter.mpr ⟨hg', fun he => hin ?_⟩) hin'
      have hbase : g'.Has g.base := he ▸ (hd.proper g' hg').has_base
      rwa [hd.apart g hg g' hg' g.base (hd.proper g hg).has_base hbase]

theorem Decoded.insert (hd : Decoded s.cr3 gs s) (h : s.Inv) (hpd : s.cr3 ∈ s.pds)
    (hfit : base.toNat + len.toNat < 2 ^ 32) (hm : newPagesHandlerC base len s = some (0, s')) :
    NewPagesDone base len s s' ∧ (∀ va, InRegion base len va → s.pte s.cr3 va = PAGE_TABLE_ENTRY_DEFAULT) ∧
      Decoded s.cr3 (insert ⟨base, len⟩ gs) s' := by
  have hk := Inv.kernelMapped h hpd
  have ha : Accepted base len s := by
    by_contra ha
    rw [newPages_refused hk ha] at hm
    cases hm
  have hlast : base.toNat + len.toNat < 0xfffff000 := by
    rcases ha.range hk with hwrap | hlast
    · omega
    · exact hlast.1
  rw [newPages_accepted ha] at hm
  have hdone := newPagesDone h hpd ha hlast hm
  have habs : ∀ va, InRegion base len va → s.pte s.cr3 va = PAGE_TABLE_ENTRY_DEFAULT :=
    fun va hin => ha.absent hk h hfit hin.1 hin.2
  -- no page of an older region was absent
  have hold : ∀ g ∈ gs, ∀ va, g.Has va → ¬ InRegion base len va := by
    intro g hg va hin hnew
    have hz := hd.marks g hg va hin
    rw [habs va hnew] at hz
    exact regionMark_ne_zero (hz.symm.trans (by decide))
  have hproper : Region.Proper ⟨base, len⟩ := ⟨ha.baseAligned, ha.lenAligned, (toNat_of_pos ha.pos).1, hlast⟩
  refine ⟨hdone, habs, ?_, ?_, ?_, ?_⟩
  · simpa using ⟨hproper, hd.proper⟩
  · intro g₁ h₁ g₂ h₂ va hin₁ hin₂
    rcases Finset.mem_insert.mp h₁ with rfl | h₁ <;> rcases Finset.mem_insert.mp h₂ with rfl | h₂
    · rfl
    · exact absurd hin₁ (hold g₂ h₂ va hin₂)
    · exact absurd hin₂ (hold g₁ h₁ va hin₁)
    · exact hd.apart g₁ h₁ g₂ h₂ va hin₁ hin₂
  · intro g hg va hin
    rcases Finset.mem_insert.mp hg with rfl | hg
    · exact hdone.marks va hin
    · rw [hdone.entries s.cr3 hpd va fun he => hold g hg va hin he.2]
      exact hd.marks g hg va hin
  · intro va hnone
    have hout : ¬ InRegion base len va := hnone _ (Finset.mem_insert_self _ _)
    rw [hdone.entries s.cr3 hpd va fun he => hout he.2]
    exact hd.rest va fun g hg => hnone g (Finset.mem_insert_of_mem hg)

end

end Vm

end Pebbles
