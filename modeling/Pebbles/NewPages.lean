import Pebbles.Mapping

/-!
# new_pages

What the call maps and marks, when it is refused, and what it leaves when memory runs out
after some of the pages.
-/

namespace Pebbles

open Words

namespace Vm

abbrev NEW_PAGES_FLAGS : Word := PAGE_ENTRY_PRESENT ||| READ_WRITE_ENABLE ||| USER_MODE ||| NEWPAGE_PAGE

section
variable {s s' s₁ : Vm} {base len va : Word} {r : Int}

/-! ## Refused and accepted calls -/

structure Accepted (base len : Word) (s : Vm) : Prop where
  pos : 0 < len.toInt
  lenAligned : len.toNat % PAGE_SIZE = 0
  baseAligned : base.toNat % PAGE_SIZE = 0
  unmapped : isMemoryRangeMapped base len s = some MEMORY_REGION_UNMAPPED

theorem newPages_accepted (h : Accepted base len s) : newPagesHandlerC base len s = mapNewPages base len s := by
  unfold newPagesHandlerC
  rw [if_neg, h.unmapped]
  · exact if_neg (not_not_intro rfl)
  · rintro (hl | hl | hl)
    · exact absurd h.pos (Int.not_lt.mpr hl)
    · exact hl h.lenAligned
    · exact hl h.baseAligned

theorem isMemoryRangeMapped_low (hl : base.toNat < USER_MEM_START) :
    ∃ r, isMemoryRangeMapped base len s = some r ∧ r ≠ MEMORY_REGION_UNMAPPED := by
  unfold isMemoryRangeMapped
  rw [if_pos hl]
  split
  · exact ⟨_, rfl, by decide⟩
  · exact ⟨_, rfl, by decide⟩

theorem newPages_refused (hk : s.KernelMapped) (h : ¬ Accepted base len s) :
    newPagesHandlerC base len s = some (ERR_INVAL, s) := by
  unfold newPagesHandlerC
  split
  · rfl
  · rename_i hargs
    simp only [not_or, not_not, Int.not_le] at hargs
    obtain ⟨hpos, hlen, hbase⟩ := hargs
    have hne : ∀ r, isMemoryRangeMapped base len s = some r → r ≠ MEMORY_REGION_UNMAPPED :=
      fun r hr e => h ⟨hpos, hlen, hbase, e ▸ hr⟩
    have hsome : ∃ r, isMemoryRangeMapped base len s = some r := by
      by_cases hu : base.toNat < USER_MEM_START
      · exact (isMemoryRangeMapped_low hu).imp fun _ h => h.1
      · rcases isMemoryRangeMapped_eq hk (Nat.le_of_not_lt hu) hpos with h | h
        · exact ⟨_, h.1⟩
        · exact ⟨_, h.1⟩
    obtain ⟨r, hr⟩ := hsome
    rw [hr]
    exact if_pos (hne r hr)

theorem Accepted.user (h : Accepted base len s) : USER_MEM_START ≤ base.toNat := by
  by_contra hu
  obtain ⟨r, hr, hne⟩ : ∃ r, isMemoryRangeMapped base len s = some r ∧ r ≠ MEMORY_REGION_UNMAPPED :=
    isMemoryRangeMapped_low (Nat.lt_of_not_le hu)
  rw [h.unmapped] at hr
  cases hr
  exact hne rfl

theorem Accepted.range (hk : s.KernelMapped) (h : Accepted base len s) : 2 ^ 32 ≤ base.toNat + len.toNat ∨
    (base.toNat + len.toNat < 0xfffff000 ∧
      ∀ p : Word, base.toNat ≤ p.toNat → p.toNat ≤ base.toNat + len.toNat → ¬ s.PageMapped p) := by
  rcases isMemoryRangeMapped_eq hk h.user h.pos with ⟨heq, -⟩ | ⟨-, hr⟩
  · rw [h.unmapped] at heq
    cases heq
  · exact hr

theorem accepted_of_range (hk : s.KernelMapped) (hpos : 0 < len.toInt) (hlen : len.toNat % PAGE_SIZE = 0)
    (hbase : base.toNat % PAGE_SIZE = 0) (hu : USER_MEM_START ≤ base.toNat)
    (hlast : base.toNat + len.toNat < 0xfffff000)
    (hn : ∀ p : Word, base.toNat ≤ p.toNat → p.toNat ≤ base.toNat + len.toNat → ¬ s.PageMapped p) :
    Accepted base len s := by
  rcases isMemoryRangeMapped_eq hk hu hpos with ⟨-, -, hany⟩ | ⟨heq, -⟩
  · rcases hany with hany | ⟨p, h₁, h₂, hp⟩
    · omega
    · exact absurd hp (hn p h₁ h₂)
  · exact ⟨hpos, hlen, hbase, heq⟩

theorem pte_of_not_mapped (h : s.Inv) (hn : ¬ s.PageMapped va) : s.pte s.cr3 va = PAGE_TABLE_ENTRY_DEFAULT := by
  by_cases hD : s.kmem s.cr3 (getPdIndex va) = PAGE_DIR_ENTRY_DEFAULT
  · exact h.kernel.entry_absent hD _
  · by_contra hne
    exact hn ⟨hD, hne⟩

/-! ## The range is mapped or memory runs out -/

theorem mapSegment_aligned (hal : Aligned base) (pd flags : Word) :
    mapSegment base len pd flags s = mapPages pd flags (base + len) addressPages base (s.setCurPd pd) := by
  unfold mapSegment
  rw [show pageRoundDown base = base from base_of_aligned hal]

theorem toNat_fit (hfit : base.toNat + len.toNat < 2 ^ 32) : (base + len).toNat = base.toNat + len.toNat := by
  rw [BitVec.toNat_add, Nat.mod_eq_of_lt hfit]

theorem Accepted.absent (hk : s.KernelMapped) (h : s.Inv) (ha : Accepted base len s)
    (hfit : base.toNat + len.toNat < 2 ^ 32) {a : Word} (h₁ : base.toNat ≤ a.toNat)
    (h₂ : a.toNat < base.toNat + len.toNat) : s.pte s.cr3 a = PAGE_TABLE_ENTRY_DEFAULT := by
  rcases ha.range hk with hwrap | ⟨-, hnone⟩
  · omega
  · exact pte_of_not_mapped h (hnone a h₁ h₂.le)

theorem Accepted.mapSegment (ha : Accepted base len s) (h : s.Inv) (hpd : s.cr3 ∈ s.pds)
    (hfit : base.toNat + len.toNat < 2 ^ 32) :
    (Enough s.cr3 base.toNat (base.toNat + len.toNat) s ∧
      ∃ s', Vm.mapSegment base len s.cr3 NEW_PAGES_FLAGS s = some (0, s')) ∨
      (¬ Enough s.cr3 base.toNat (base.toNat + len.toNat) s ∧
        ∃ s', Vm.mapSegment base len s.cr3 NEW_PAGES_FLAGS s = some (ERR_NOMEM, s') ∧
          (s.CanMap s.cr3 base → s'.pte s.cr3 base ≠ PAGE_TABLE_ENTRY_DEFAULT) ∧
          (¬ s.CanMap s.cr3 base → s'.Inv ∧ Same s s' ∧ s'.fr = s.fr)) := by
  have hend := toNat_fit hfit
  have hb : base.toNat % 4096 = 0 := ha.baseAligned
  have hl : len.toNat % 4096 = 0 := ha.lenAligned
  have hal : Aligned base := (aligned_iff base).mpr hb
  rw [mapSegment_aligned hal, ← hend]
  refine mapPages_absent (s := s.setCurPd s.cr3) h hpd rfl mapFlags_newPages hal (by omega) ?_ ?_ fun a h₁ h₂ => ?_
  · rw [aligned_iff, hend]
    omega
  · unfold addressPages
    have := (base + len).isLt
    omega
  · rw [hend] at h₂
    exact ha.absent (Inv.kernelMapped h hpd) h hfit h₁ h₂

def markEnds (pd base endFrame : Word) (s : Vm) : Vm :=
  let s := s.setWord (s.ptAddr pd endFrame) (getPtIndex endFrame) (setNewpageEnd (s.pte pd endFrame))
  s.setWord (s.ptAddr pd base) (getPtIndex base) (setNewpageStart (s.pte pd base))

theorem mapNewPages_ok (hs : mapSegment base len s.cr3 NEW_PAGES_FLAGS s = some (r, s₁)) (hr : 0 ≤ r) :
    mapNewPages base len s =
      some (0, (s₁.markEnds s.cr3 base (pageRoundDown (base + len - 1#32))).setCurPd s.cr3) := by
  unfold mapNewPages
  dsimp only
  rw [hs]
  exact if_neg (Int.not_lt.mpr hr)

theorem mapNewPages_failed (hs : mapSegment base len s.cr3 NEW_PAGES_FLAGS s = some (r, s₁)) (hr : r < 0) :
    mapNewPages base len s = some (r, s₁) := by
  unfold mapNewPages
  dsimp only
  rw [hs]
  exact if_pos hr

theorem Accepted.mapNewPages (ha : Accepted base len s) (h : s.Inv) (hpd : s.cr3 ∈ s.pds)
    (hfit : base.toNat + len.toNat < 2 ^ 32) :
    ∃ r s', Vm.mapNewPages base len s = some (r, s') ∧ (r = 0 ∨ r = ERR_NOMEM) := by
  rcases ha.mapSegment h hpd hfit with ⟨-, s₁, hs⟩ | ⟨-, s₁, hs, -⟩
  · exact ⟨_, _, mapNewPages_ok hs le_rfl, .inl rfl⟩
  · exact ⟨_, _, mapNewPages_failed hs (by decide), .inr rfl⟩

theorem mapSegment_wraps (ha : Accepted base len s) (hwrap : 2 ^ 32 ≤ base.toNat + len.toNat) :
    mapSegment base len s.cr3 NEW_PAGES_FLAGS s = some (0, s) := by
  have hb : Aligned base := (aligned_iff base).mpr ha.baseAligned
  have hlen := len.isLt
  have hbase := base.isLt
  have hend : (base + len).toNat = base.toNat + len.toNat - 2 ^ 32 := by
    rw [BitVec.toNat_add]
    omega
  rw [mapSegment_aligned hb]
  unfold addressPages mapPages
  rw [if_neg (by omega)]
  rfl

/-! ## All or nothing -/

structure Untouched (s s' : Vm) : Prop where
  entries : ∀ pd ∈ s.pds, ∀ va, s'.pte pd va = s.pte pd va
  counts : ∀ f, s'.fr.frameRefCount (frameIndex f) = s.fr.frameRefCount (frameIndex f)
  free : ∀ f, OnFreeList s'.fr f ↔ OnFreeList s.fr f

theorem Untouched.rfl' : Untouched s s := ⟨fun _ _ _ => rfl, fun _ => rfl, fun _ => Iff.rfl⟩

def NotMidway (base len : Word) (s : Vm) : Prop :=
  Accepted base len s → base.toNat + len.toNat < 2 ^ 32 →
    Enough s.cr3 base.toNat (base.toNat + len.toNat) s ∨ ¬ s.CanMap s.cr3 base

theorem new_pages_all_or_nothing_iff (h : s.Inv) (hpd : s.cr3 ∈ s.pds) :
    (∀ r s', newPagesHandlerC base len s = some (r, s') → r < 0 → Untouched s s') ↔ NotMidway base len s := by
  have hk := Inv.kernelMapped h hpd
  by_cases ha : Accepted base len s
  · rw [newPages_accepted ha]
    obtain ⟨hpos, -⟩ := toNat_of_pos ha.pos
    by_cases hfit : base.toNat + len.toNat < 2 ^ 32
    · rcases ha.mapSegment h hpd hfit with ⟨henough, s₁, hs₁⟩ | ⟨hnot, s₁, hs₁, hcan, hcannot⟩
      · refine iff_of_true (fun r s' hm hr => ?_) fun _ _ => Or.inl henough
        rw [mapNewPages_ok hs₁ (Int.le_refl 0)] at hm
        cases hm
        exact absurd hr (by decide)
      · rw [mapNewPages_failed hs₁ (by decide)]
        by_cases hc : s.CanMap s.cr3 base
        · refine iff_of_false (fun hall => ?_) fun hmid => (hmid ha hfit).elim hnot fun hn => hn hc
          have hsame := (hall _ _ rfl (by decide)).entries s.cr3 hpd base
          exact hcan hc (hsame.trans (ha.absent hk h hfit (Nat.le_refl _) (by omega)))
        · refine iff_of_true (fun r s' hm _ => ?_) fun _ _ => Or.inr hc
          cases hm
          obtain ⟨-, hsame, hfr⟩ := hcannot hc
          exact ⟨fun pd hpd' va => hsame.entry pd hpd' _ _, fun f => by rw [hfr], fun f => by rw [hfr]⟩
    · refine iff_of_true (fun r s' hm hr => ?_) fun _ hf => absurd hf hfit
      rw [mapNewPages_ok (mapSegment_wraps ha (Nat.le_of_not_lt hfit)) (Int.le_refl 0)] at hm
      cases hm
      exact absurd hr (by decide)
  · rw [newPages_refused hk ha]
    refine iff_of_true (fun r s' hm _ => ?_) fun ha' => absurd ha' ha
    cases hm
    exact Untouched.rfl'

theorem mappedVm_enough : Enough mappedVm.cr3 0x02000000 0x02001000 mappedVm := by
  have hone : FramesLeft 1 mappedVm.fr := by
    have hsome : (allocateFrame mappedVm.fr).1.isSome = true := by decide +kernel
    cases ha : allocateFrame mappedVm.fr with
    | mk o fr =>
      rw [ha] at hsome
      obtain ⟨f, rfl⟩ := Option.isSome_iff_exists.mp hsome
      exact framesLeft_one (reach_inv mappedVm_reach) ha
  refine ⟨hone, ?_⟩
  have hsub : absentTables mappedVm.cr3 0x02000000 0x02001000 mappedVm ⊆ {8} := by
    intro i hi
    unfold absentTables at hi
    simp only [Finset.mem_filter, Finset.mem_univ, true_and] at hi
    rw [Finset.mem_singleton]
    apply Fin.ext
    show i.val = 8
    omega
  exact (Finset.card_le_card hsub).trans (by decide +kernel)

theorem new_pages_all_or_nothing_one : NotMidway 0x02000000#32 0x1000#32 mappedVm ∧
    ∀ r s', newPagesHandlerC 0x02000000#32 0x1000#32 mappedVm = some (r, s') → r < 0 → Untouched mappedVm s' := by
  have hmid : NotMidway 0x02000000#32 0x1000#32 mappedVm := fun _ _ => Or.inl mappedVm_enough
  exact ⟨hmid, (new_pages_all_or_nothing_iff (reach_inv mappedVm_reach) (by decide +kernel)).mpr hmid⟩

/-- Two pages with one frame left: the call fails, and the first page stays mapped. -/
theorem new_pages_midway : ∃ s', newPagesHandlerC 0x02000000#32 0x2000#32 mappedVm = some (ERR_NOMEM, s') ∧
    ¬ Untouched mappedVm s' := by
  have h : ((newPagesHandlerC 0x02000000#32 0x2000#32 mappedVm).map fun x =>
    (x.1, bit (x.2.pte 0x5000#32 0x02000000#32) 0)) =
      some (ERR_NOMEM, true) := by decide +kernel
  obtain ⟨⟨r, s'⟩, hm, he⟩ := Option.map_eq_some_iff.mp h
  obtain ⟨rfl, hp⟩ := Prod.mk.inj he
  refine ⟨s', hm, fun hu => ?_⟩
  rw [hu.entries 0x5000#32 (by decide +kernel) 0x02000000#32] at hp
  exact absurd hp (by decide +kernel)

/-! ## Exactly the range -/

structure NewPagesArgs (base len : Word) (s : Vm) : Prop where
  pos : 0 < len.toInt
  lenAligned : len.toNat % PAGE_SIZE = 0
  baseAligned : base.toNat % PAGE_SIZE = 0
  user : USER_MEM_START ≤ base.toNat
  fits : base.toNat + len.toNat ≤ 2 ^ 32
  unmapped : ∀ va : Word, base.toNat ≤ va.toNat → va.toNat < base.toNat + len.toNat → ¬ s.PageMapped va

def InRegion (base len va : Word) : Prop := base.toNat ≤ va.toNat ∧ va.toNat < base.toNat + len.toNat

def regionMark (base len va : Word) : Word :=
  if va.toNat < base.toNat + PAGE_SIZE then NEWPAGE_START
  else if base.toNat + len.toNat ≤ va.toNat + PAGE_SIZE - va.toNat % PAGE_SIZE then NEWPAGE_END
  else NEWPAGE_PAGE

structure NewPagesDone (base len : Word) (s s' : Vm) : Prop where
  pds : s'.pds = s.pds
  cr3 : s'.cr3 = s.cr3
  writable : ∀ va, InRegion base len va → s'.userWritable s.cr3 va = true
  zero : ∀ va, InRegion base len va → s'.userLoad s.cr3 va = some 0#8
  marks : ∀ va, InRegion base len va → getNewpageFlags (s'.pte s.cr3 va) = regionMark base len va
  entries : ∀ pd ∈ s.pds, ∀ va, ¬ (pd = s.cr3 ∧ InRegion base len va) → s'.pte pd va = s.pte pd va
  loads : ∀ pd ∈ s.pds, ∀ va, ¬ (pd = s.cr3 ∧ InRegion base len va) → s'.userLoad pd va = s.userLoad pd va
  umem : ∀ f, (∀ va, InRegion base len va → getAddrFromEntry (s'.pte s.cr3 va) ≠ f) → s'.umem f = s.umem f
  dirs : ∀ pd ∈ s.pds, ∀ i, s'.kmem pd i = s.kmem pd i ∨
    (pd = s.cr3 ∧ s.kmem pd i = PAGE_DIR_ENTRY_DEFAULT ∧ ∃ va, InRegion base len va ∧ getPdIndex va = i)

/-- The call returns 0 only for a proper request, which is then done, and does so when there is
enough memory. -/
structure NewPagesExact (base len : Word) (s : Vm) : Prop where
  sound : ∀ s', newPagesHandlerC base len s = some (0, s') → NewPagesArgs base len s ∧ NewPagesDone base len s s'
  complete : NewPagesArgs base len s → Enough s.cr3 base.toNat (base.toNat + len.toNat) s →
    ∃ s', newPagesHandlerC base len s = some (0, s')

theorem markEnds_bits (pd base endFrame p : Word) (i : Index) {k : Nat} (hk : k < 32) (h₁ : k ≠ 10) (h₂ : k ≠ 11) :
    bit ((s.markEnds pd base endFrame).kmem p i) k = bit (s.kmem p i) k := by
  have hset : ∀ (t : Vm) (q w : Word) (j : Index), bit w k = bit (t.kmem q j) k →
      bit ((t.setWord q j w).kmem p i) k = bit (t.kmem p i) k := by
    intro t q w j hw
    show bit (if p = q ∧ i = j then w else t.kmem p i) k = _
    split
    · rename_i he
      rw [he.1, he.2]
      exact hw
    · rfl
  unfold markEnds
  dsimp only
  exact (hset _ _ _ _ (bit_setNewpageStart _ hk h₁ h₂)).trans (hset _ _ _ _ (bit_setNewpageEnd _ hk h₁ h₂))

theorem markEnds_userWritable (pd base endFrame pd' va : Word) :
    (s.markEnds pd base endFrame).userWritable pd' va = s.userWritable pd' va := by
  have hbit := fun p i {k} hk h₁ h₂ => markEnds_bits (s := s) pd base endFrame p i (k := k) hk h₁ h₂
  have haddr : (s.markEnds pd base endFrame).ptAddr pd' va = s.ptAddr pd' va :=
    base_of_bits fun k hk h12 => hbit _ _ hk (by omega) (by omega)
  have hpte : ∀ k < 10, bit ((s.markEnds pd base endFrame).pte pd' va) k = bit (s.pte pd' va) k := by
    intro k hk
    show bit ((s.markEnds pd base endFrame).kmem ((s.markEnds pd base endFrame).ptAddr pd' va) _) k = _
    rw [haddr]
    exact hbit _ _ (by omega) (by omega) (by omega)
  unfold userWritable userReadable
  rw [hpte 0 (by decide), hpte 1 (by decide), hpte 2 (by decide), hbit _ _ (by decide) (by decide) (by decide),
    hbit _ _ (by decide) (by decide) (by decide), hbit _ _ (by decide) (by decide) (by decide)]

theorem userWritable_unmapped (hn : ¬ s.PageMapped va) : s.userWritable s.cr3 va = false := by
  unfold userWritable userReadable
  by_cases hD : s.kmem s.cr3 (getPdIndex va) = PAGE_DIR_ENTRY_DEFAULT
  · rw [hD]
    simp [show bit PAGE_DIR_ENTRY_DEFAULT 0 = false by decide]
  · have hp : s.pte s.cr3 va = PAGE_TABLE_ENTRY_DEFAULT := by
      by_contra hne
      exact hn ⟨hD, hne⟩
    rw [hp]
    simp [show bit PAGE_TABLE_ENTRY_DEFAULT 0 = false by decide]

theorem not_newPagesExact_of_wrap (ha : Accepted base len s) (hwrap : 2 ^ 32 ≤ base.toNat + len.toNat) :
    ¬ NewPagesExact base len s := by
  intro hex
  have hm := mapNewPages_ok (mapSegment_wraps ha hwrap) (Int.le_refl 0)
  obtain ⟨hargs, hdone⟩ := hex.sound _ ((newPages_accepted ha).trans hm)
  have hpos := (toNat_of_pos ha.pos).1
  have hin : InRegion base len base := ⟨Nat.le_refl _, by omega⟩
  have hw := hdone.writable base hin
  change (s.markEnds _ _ _).userWritable s.cr3 base = true at hw
  rw [markEnds_userWritable, userWritable_unmapped (hargs.unmapped base hin.1 hin.2)] at hw
  cases hw

theorem mapRegion_maps (h : s.Inv) (hpd : s.cr3 ∈ s.pds) (ha : Accepted base len s)
    (hlast : base.toNat + len.toNat < 0xfffff000) (hs : mapSegment base len s.cr3 NEW_PAGES_FLAGS s = some (r, s₁))
    (hr : 0 ≤ r) : Maps s.cr3 NEW_PAGES_FLAGS base.toNat (base.toNat + len.toNat) s s₁ := by
  have hend : (base + len).toNat = base.toNat + len.toNat := toNat_fit (by omega)
  have h₁ : base.toNat % 4096 = 0 := ha.baseAligned
  have h₂ : len.toNat % 4096 = 0 := ha.lenAligned
  have hmaps := mapSegment_maps h hpd mapFlags_newPages hs hr
  rwa [show base.toNat / 4096 * 4096 = base.toNat by omega,
    show pagesEnd (base + len).toNat = base.toNat + len.toNat by unfold pagesEnd; omega] at hmaps

theorem markEnds_dirs (h : s.Inv) {pd : Word} (hpd : pd ∈ s.pds) (endFrame : Word) {pd' : Word} (hpd' : pd' ∈ s.pds) :
    (s.markEnds pd base endFrame).kmem pd' = s.kmem pd' := by
  obtain ⟨use, ho⟩ := h.owned
  have hset : ∀ (t : Vm) (q : Word) (j : Index) (w : Word), q ∉ s.pds →
    ∀ p ∈ s.pds, (t.setWord q j w).kmem p = t.kmem p :=
    fun t q j w hq p hp => setWord_other (ne_of_mem_of_not_mem hp hq) _ _ _
  unfold markEnds
  dsimp only
  have hfirst := hset s (s.ptAddr pd endFrame) (getPtIndex endFrame) (setNewpageEnd (s.pte pd endFrame))
    (ho.ptAddr_not_dir hpd endFrame)
  rw [hset _ _ _ _ ?_ pd' hpd', hfirst pd' hpd']
  show getAddrFromEntry ((s.setWord _ _ _).kmem pd (getPdIndex base)) ∉ s.pds
  rw [hfirst pd hpd]
  exact ho.ptAddr_not_dir hpd base

structure RegionEntry (base len va e : Word) : Prop where
  present : bit e 0 = true
  write : bit e 1 = true
  mark : getNewpageFlags e = regionMark base len va

theorem regionEntry {last f e₁ e₂ : Word} (hb : base.toNat % 4096 = 0) (hl : len.toNat % 4096 = 0)
    (hpos : 0 < len.toNat) (hlast : last.toNat = base.toNat + len.toNat - 4096) (hin : InRegion base len va)
    (hf : Aligned f)
    (h₁ : e₁ = if va.toNat / 4096 = last.toNat / 4096 then setNewpageEnd (f ||| NEW_PAGES_FLAGS) else f ||| NEW_PAGES_FLAGS)
    (h₂ : e₂ = if va.toNat / 4096 = base.toNat / 4096 then setNewpageStart e₁ else e₁) :
    RegionEntry base len va e₂ := by
  have hbits : ∀ k < 10, bit e₂ k = bit NEW_PAGES_FLAGS k := by
    intro k hk
    have hend : bit e₁ k = bit NEW_PAGES_FLAGS k := by
      rw [h₁]
      split
      · rw [bit_setNewpageEnd _ (by omega) (by omega) (by omega), bit_or_flags hf (by omega)]
      · rw [bit_or_flags hf (by omega)]
    rw [h₂]
    split
    · rw [bit_setNewpageStart _ (by omega) (by omega) (by omega), hend]
    · exact hend
  obtain ⟨hin₁, hin₂⟩ := hin
  refine ⟨(hbits 0 (by decide)).trans (by decide), (hbits 1 (by decide)).trans (by decide), ?_⟩
  unfold regionMark PAGE_SIZE
  rw [h₂]
  by_cases hfirst : va.toNat / 4096 = base.toNat / 4096
  · rw [if_pos hfirst, if_pos (by omega), getNewpageFlags_start]
  · rw [if_neg hfirst, if_neg (by omega), h₁]
    by_cases hend : va.toNat / 4096 = last.toNat / 4096
    · rw [if_pos hend, if_pos (by omega), getNewpageFlags_end]
    · rw [if_neg hend, if_neg (by omega), getNewpageFlags_or hf]
      decide

theorem newPagesDone (h : s.Inv) (hpd : s.cr3 ∈ s.pds) (ha : Accepted base len s)
    (hlast : base.toNat + len.toNat < 0xfffff000) (hm : mapNewPages base len s = some (0, s')) :
    NewPagesDone base len s s' := by
  have hk := Inv.kernelMapped h hpd
  have hpos := (toNat_of_pos ha.pos).1
  have hb : base.toNat % 4096 = 0 := ha.baseAligned
  have hl : len.toNat % 4096 = 0 := ha.lenAligned
  have hfit : base.toNat + len.toNat < 2 ^ 32 := by omega
  have hgrown := mapNewPages_grown h hpd ha.user hpos hfit hm
  obtain ⟨h', r₁, s₁, hs, ⟨hneg, rfl, -⟩ | ⟨hr, -, s₂, hw₂, hw₃⟩⟩ := mapNewPages_writes h hpd ha.user hpos hfit hm
  · exact absurd hneg (by decide)
  have hmaps := mapRegion_maps h hpd ha hlast hs hr
  obtain ⟨h₁, hpd₁, hcr₁⟩ := mapSegment_inv h hpd mapFlags_newPages hs
  have hpds₁ : ∀ {pd}, pd ∈ s.pds → pd ∈ s₁.pds := fun hm => hmaps.pds ▸ hm
  have hpds₂ : ∀ {pd}, pd ∈ s.pds → pd ∈ s₂.pds := fun hm => hw₂.pds ▸ hpds₁ hm
  have hpds : s'.pds = s.pds := hw₃.pds.trans (hw₂.pds.trans hmaps.pds)
  obtain ⟨last, hlastEq⟩ : ∃ last, last = pageRoundDown (base + len - 1#32) := ⟨_, rfl⟩
  rw [← hlastEq] at hw₂
  have hlastNat : last.toNat = base.toNat + len.toNat - 4096 := by
    rw [hlastEq, pageRoundDown, toNat_base, BitVec.toNat_sub, BitVec.toNat_add]
    simp only [BitVec.toNat_ofNat]
    omega
  have hentry : ∀ va, InRegion base len va → RegionEntry base len va (s'.pte s.cr3 va) := by
    intro va hin
    obtain ⟨f, hf, he⟩ := hmaps.inside va hin.1 hin.2 (ha.absent hk h hfit hin.1 hin.2)
    have hmid : s₂.pte s.cr3 va = if va.toNat / 4096 = last.toNat / 4096 then setNewpageEnd (f ||| NEW_PAGES_FLAGS)
        else f ||| NEW_PAGES_FLAGS := by
      rw [hw₂.pte (hpds₁ hpd), ← he]
      simp only [true_and]
      split
      · rename_i hsame
        rw [pte_same_page s.cr3 hsame]
      · rfl
    refine regionEntry hb hl hpos hlastNat hin hf hmid ?_
    rw [hw₃.pte (hpds₂ hpd)]
    simp only [true_and]
    split
    · rename_i hsame
      rw [pte_same_page s.cr3 hsame]
    · rfl
  have hbaseIn : ∀ {va : Word}, va.toNat / 4096 = base.toNat / 4096 → InRegion base len va :=
    fun e => ⟨by omega, by omega⟩
  have hlastIn : ∀ {va : Word}, va.toNat / 4096 = last.toNat / 4096 → InRegion base len va :=
    fun e => ⟨by omega, by omega⟩
  have hout : ∀ pd ∈ s.pds, ∀ va, ¬ (pd = s.cr3 ∧ InRegion base len va) → s'.pte pd va = s.pte pd va := by
    intro pd hpd' va hn
    rw [hw₃.pte (hpds₂ hpd'), if_neg fun e => hn ⟨e.1, hbaseIn e.2⟩, hw₂.pte (hpds₁ hpd'),
      if_neg fun e => hn ⟨e.1, hlastIn e.2⟩]
    exact hmaps.outside pd hpd' va hn
  have hload := Grown.userLoad h h' hgrown hpd
  have hread : ∀ pd ∈ s.pds, ∀ va, s.pte pd va = s'.pte pd va → s'.userLoad pd va ≠ none → s.userLoad pd va ≠ none := by
    intro pd hpd' va he hne hnone
    refine hne (if_neg fun hr => ?_)
    have hr' := (userReadable_iff h' (hpds ▸ hpd')).mp hr
    rw [← he] at hr'
    rw [userLoad, if_pos ((userReadable_iff h hpd').mpr hr')] at hnone
    cases hnone
  refine ⟨hpds, hw₃.cr3.trans (hw₂.cr3.trans hcr₁), fun va hin => ?_, fun va hin => ?_, fun va hin =>
    (hentry va hin).mark,
    hout, fun pd hpd' va hn => ?_, fun f hne => ?_, fun pd hpd' i => ?_⟩
  · exact (userWritable_iff h' (hpds ▸ hpd)).mpr ⟨ha.user.trans hin.1, (hentry va hin).present, (hentry va hin).write⟩
  · have hr := (userReadable_iff h' (hpds ▸ hpd)).mpr ⟨ha.user.trans hin.1, (hentry va hin).present⟩
    have hnone : s.userLoad s.cr3 va = none := by
      refine if_neg fun hr' => ?_
      have hp := ((userReadable_iff h hpd).mp hr').2
      rw [ha.absent hk h hfit hin.1 hin.2] at hp
      exact absurd hp (by decide)
    rcases hload s.cr3 hpd va with he | ⟨-, -, he⟩
    · rw [hnone, userLoad, if_pos hr] at he
      cases he
    · exact he
  · rcases hload pd hpd' va with he | ⟨rfl, hnone, he⟩
    · exact he
    · refine absurd hnone (hread _ hpd' va (hout _ hpd' va hn).symm ?_)
      rw [he]
      simp
  · rw [hw₃.umem]
    refine hmaps.umem f fun va h₁ h₂ => ?_
    have hmark := (hw₂.marked fun k hk => bit_setNewpageEnd _ hk).trans
      (Writes.marked (s := s₂) (hw₂.umem ▸ hw₃) fun k hk => bit_setNewpageStart _ hk)
    have haddr : getAddrFromEntry (s'.pte s.cr3 va) = getAddrFromEntry (s₁.pte s.cr3 va) :=
      base_of_bits fun k hk h12 => hmark.entry s.cr3 (hpds₁ hpd) _ _ k hk (by omega) (by omega)
    exact fun he => hne va ⟨h₁, h₂⟩ (haddr.trans he)
  · rw [mapNewPages_ok hs hr] at hm
    cases hm
    show (s₁.markEnds _ _ _).kmem pd i = _ ∨ _
    rw [markEnds_dirs h₁ hpd₁ _ (hpds₁ hpd')]
    rcases hmaps.dirs pd hpd' i with he | ⟨e, hD, va, h₁, h₂, hi⟩
    · exact Or.inl he
    · exact Or.inr ⟨e, hD, va, ⟨h₁, h₂⟩, hi⟩

/-- Where the ends that the three functions compute agree: the range does not reach the top of
memory, and a range that could be mapped is not followed by the last page or by a mapped one. -/
def EndsAgree (base len : Word) (s : Vm) : Prop :=
  0 < len.toInt → len.toNat % PAGE_SIZE = 0 → base.toNat % PAGE_SIZE = 0 → USER_MEM_START ≤ base.toNat →
    base.toNat + len.toNat < 2 ^ 32 ∧
    (NewPagesArgs base len s → Enough s.cr3 base.toNat (base.toNat + len.toNat) s →
      base.toNat + len.toNat < 0xfffff000 ∧ ¬ s.PageMapped (base + len))

theorem new_pages_exact_iff (h : s.Inv) (hpd : s.cr3 ∈ s.pds) : NewPagesExact base len s ↔ EndsAgree base len s := by
  have hk := Inv.kernelMapped h hpd
  constructor
  · intro hex hpos hlen hbase hu
    have hbase' := base.isLt
    by_cases hfit : base.toNat + len.toNat < 2 ^ 32
    · refine ⟨hfit, fun hargs henough => ?_⟩
      obtain ⟨s', hm⟩ := hex.complete hargs henough
      have ha : Accepted base len s := by
        by_contra ha
        rw [newPages_refused hk ha] at hm
        cases hm
      rcases ha.range hk with hwrap | ⟨hlast, hnone⟩
      · omega
      · have hend := toNat_fit hfit
        exact ⟨hlast, hnone _ (by omega) (by omega)⟩
    · have hwrap := Nat.le_of_not_lt hfit
      have ha : Accepted base len s := by
        refine ⟨hpos, hlen, hbase, ?_⟩
        rcases isMemoryRangeMapped_eq hk hu hpos with ⟨-, hlt, -⟩ | ⟨heq, -⟩
        · omega
        · exact heq
      exact absurd hex (not_newPagesExact_of_wrap ha hwrap)
  · intro hends
    refine ⟨fun s' hm => ?_, fun hargs henough => ?_⟩
    · have ha : Accepted base len s := by
        by_contra ha
        rw [newPages_refused hk ha] at hm
        cases hm
      have hfit := (hends ha.pos ha.lenAligned ha.baseAligned ha.user).1
      rcases ha.range hk with hwrap | ⟨hlast, hnone⟩
      · omega
      · rw [newPages_accepted ha] at hm
        exact ⟨⟨ha.pos, ha.lenAligned, ha.baseAligned, ha.user, hfit.le, fun va h₁ h₂ => hnone va h₁ h₂.le⟩,
          newPagesDone h hpd ha hlast hm⟩
    · obtain ⟨hfit, hfree⟩ := hends hargs.pos hargs.lenAligned hargs.baseAligned hargs.user
      obtain ⟨hlast, hnext⟩ := hfree hargs henough
      have hend := toNat_fit hfit
      have hl : len.toNat % 4096 = 0 := hargs.lenAligned
      have hb : base.toNat % 4096 = 0 := hargs.baseAligned
      have ha := accepted_of_range hk hargs.pos hargs.lenAligned hargs.baseAligned hargs.user hlast fun p h₁ h₂ hp => by
        by_cases hin : p.toNat < base.toNat + len.toNat
        · exact hargs.unmapped p h₁ hin hp
        · exact hnext (mapped_of_page hp (by omega))
      rcases ha.mapSegment h hpd hfit with ⟨-, s₁, hs₁⟩ | ⟨hnot, -⟩
      · exact ⟨_, (newPages_accepted ha).trans (mapNewPages_ok hs₁ (Int.le_refl 0))⟩
      · exact absurd henough hnot

theorem new_pages_exact_one : NewPagesExact 0x02000000#32 0x1000#32 mappedVm :=
  (new_pages_exact_iff (reach_inv mappedVm_reach) (by decide +kernel)).mpr
    fun _ _ _ _ => ⟨by decide, fun _ _ => ⟨by decide, by decide +kernel⟩⟩

/-- The last page of memory: the call returns 0 and the page is not there. -/
theorem new_pages_top : Accepted 0xfffff000#32 0x1000#32 mappedVm ∧
    ¬ NewPagesExact 0xfffff000#32 0x1000#32 mappedVm := by
  have ha : Accepted 0xfffff000#32 0x1000#32 mappedVm := ⟨by decide, by decide, by decide, by decide +kernel⟩
  exact ⟨ha, not_newPagesExact_of_wrap ha (by decide)⟩

end

end Vm

end Pebbles
