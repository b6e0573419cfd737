import Pebbles.Cow
import Pebbles.Ranges

/-!
# What map_segment maps, and what it needs

The entries that a successful `map_segment` changes, and the frames and kernel pages that it
takes to succeed on a range that is not mapped.
-/

namespace Pebbles

namespace Vm

open Words

structure Maps (pd flags : Word) (lo hi : Nat) (s s' : Vm) : Prop where
  pds : s'.pds = s.pds
  inside : ∀ va : Word, lo ≤ va.toNat → va.toNat < hi → s.pte pd va = PAGE_TABLE_ENTRY_DEFAULT →
    ∃ f, Aligned f ∧ s'.pte pd va = f ||| flags
  kept : ∀ pd' ∈ s.pds, ∀ va, s.pte pd' va ≠ PAGE_TABLE_ENTRY_DEFAULT → s'.pte pd' va = s.pte pd' va
  outside : ∀ pd' ∈ s.pds, ∀ va : Word, ¬ (pd' = pd ∧ lo ≤ va.toNat ∧ va.toNat < hi) → s'.pte pd' va = s.pte pd' va
  dirs : ∀ pd' ∈ s.pds, ∀ i, s'.kmem pd' i = s.kmem pd' i ∨
    (pd' = pd ∧ s.kmem pd' i = PAGE_DIR_ENTRY_DEFAULT ∧ ∃ va : Word, lo ≤ va.toNat ∧ va.toNat < hi ∧ getPdIndex va = i)
  umem : ∀ f, (∀ va : Word, lo ≤ va.toNat → va.toNat < hi → base (s'.pte pd va) ≠ f) → s'.umem f = s.umem f

section
variable {s s' s₁ : Vm} {pd flags va e : Word} {lo mid hi n : Nat}

theorem Maps.rfl' : Maps pd flags lo lo s s :=
  ⟨rfl, fun _ h₁ h₂ => absurd h₁ (Nat.not_le.mpr h₂), fun _ _ _ _ => rfl, fun _ _ _ _ => rfl, fun _ _ _ => Or.inl rfl,
    fun _ _ => rfl⟩

theorem Maps.mapped (h : Maps pd flags lo hi s s') (hpd : pd ∈ s.pds) (hf : MapFlags flags) (h₁ : lo ≤ va.toNat)
    (h₂ : va.toNat < hi) : s'.pte pd va ≠ PAGE_TABLE_ENTRY_DEFAULT := by
  by_cases hD : s.pte pd va = PAGE_TABLE_ENTRY_DEFAULT
  · obtain ⟨f, hal, he⟩ := h.inside va h₁ h₂ hD
    rw [he]
    exact ne_default_of_present (hf.bit_or hal).2.1
  · rw [h.kept pd hpd va hD]
    exact hD

theorem Maps.trans (h : Maps pd flags lo mid s s₁) (h' : Maps pd flags mid hi s₁ s') (hpd : pd ∈ s.pds) (hlm : lo ≤ mid)
    (hmh : mid ≤ hi) (hf : MapFlags flags) : Maps pd flags lo hi s s' := by
  have hpds : ∀ {pd'}, pd' ∈ s.pds → pd' ∈ s₁.pds := fun hpd' => h.pds ▸ hpd'
  have hfirst : ∀ va : Word, lo ≤ va.toNat → va.toNat < mid → s'.pte pd va = s₁.pte pd va :=
    fun va h₁ h₂ => h'.kept pd (hpds hpd) va (h.mapped hpd hf h₁ h₂)
  refine ⟨h'.pds.trans h.pds, fun va h₁ h₂ hD => ?_, fun pd' hpd' va hne => ?_, fun pd' hpd' va hout => ?_,
    fun pd' hpd' i => ?_, fun f hne => ?_⟩
  · by_cases hm : va.toNat < mid
    · obtain ⟨f, hal, he⟩ := h.inside va h₁ hm hD
      exact ⟨f, hal, (hfirst va h₁ hm).trans he⟩
    · have hsame : s₁.pte pd va = s.pte pd va := h.outside pd hpd va fun hin => hm hin.2.2
      exact h'.inside va (Nat.le_of_not_lt hm) h₂ (hsame.trans hD)
  · have hsame := h.kept pd' hpd' va hne
    exact (h'.kept pd' (hpds hpd') va (hsame ▸ hne)).trans hsame
  · rw [h'.outside pd' (hpds hpd') va fun hin => hout ⟨hin.1, hlm.trans hin.2.1, hin.2.2⟩]
    exact h.outside pd' hpd' va fun hin => hout ⟨hin.1, hin.2.1, hin.2.2.trans_le hmh⟩
  · rcases h'.dirs pd' (hpds hpd') i with he | ⟨rfl, hD, va, h₁, h₂, hi⟩
    · rw [he]
      exact (h.dirs pd' hpd' i).imp_right fun ⟨e, hD, va, h₁, h₂, hi⟩ => ⟨e, hD, va, h₁, h₂.trans_le hmh, hi⟩
    · rcases h.dirs pd' hpd' i with he | ⟨-, hD', va', h₁', h₂', hi'⟩
      · exact Or.inr ⟨rfl, he ▸ hD, va, hlm.trans h₁, h₂, hi⟩
      · exact Or.inr ⟨rfl, hD', va', h₁', h₂'.trans_le hmh, hi'⟩
  · rw [h'.umem f fun va h₁ h₂ => hne va (hlm.trans h₁) h₂]
    refine h.umem f fun va h₁ h₂ => ?_
    rw [← hfirst va h₁ h₂]
    exact hne va h₁ (h₂.trans_le hmh)

/-! ## One page -/

theorem tableFor_kmem {use : Word → PageUse} (ho : Owned use s.toTables) {i : Index} (ht : tableFor pd i s = some s₁)
    {pd' : Word} (hpd' : pd' ∈ s.pds) (i' : Index) :
    s₁.kmem pd' i' = s.kmem pd' i' ∨ (pd' = pd ∧ i' = i ∧ s.kmem pd i = PAGE_DIR_ENTRY_DEFAULT) := by
  unfold tableFor at ht
  split at ht
  · rename_i hD
    simp only [Option.map_eq_some_iff] at ht
    obtain ⟨a, ha, rfl⟩ := ht
    by_cases he : pd' = pd ∧ i' = i
    · exact Or.inr ⟨he.1, he.2, hD⟩
    · left
      exact attach_kmem_of_ne (ne_of_mem_of_not_mem hpd' (ho.fresh (List.mem_of_mem_head? ha)).2.2.1) he
  · cases ht
    exact Or.inl rfl

theorem fillEntry_kmem {use : Word → PageUse} (ho : Owned use s.toTables) (hpd : pd ∈ s.pds) {ok : Bool}
    (hm : fillEntry pd flags va s = (ok, s')) {pd' : Word} (hpd' : pd' ∈ s.pds) : s'.kmem pd' = s.kmem pd' := by
  unfold fillEntry at hm
  split at hm
  · split at hm
    · cases hm
      rw [zeroFill_toTables]
      exact setWord_other (ne_of_mem_of_not_mem hpd' (ho.ptAddr_not_dir hpd va)) _ _ _
    · cases hm
      rfl
  · cases hm
    rfl

theorem mapPage_dirs (h : s.Inv) (hpd : pd ∈ s.pds) {ok : Bool} (hm : mapPage pd flags va s = (ok, s')) {pd' : Word}
    (hpd' : pd' ∈ s.pds) (i : Index) : s'.kmem pd' i = s.kmem pd' i ∨
      (pd' = pd ∧ i = getPdIndex va ∧ s.kmem pd i = PAGE_DIR_ENTRY_DEFAULT) := by
  rw [mapPage_eq] at hm
  split at hm
  · cases hm
    exact Or.inl rfl
  · rename_i s₁ ht
    obtain ⟨h₁, hsame, -⟩ := tableFor_same h hpd ht
    obtain ⟨use, ho⟩ := h.owned
    obtain ⟨use₁, ho₁⟩ := h₁.owned
    rw [fillEntry_kmem ho₁ (hsame.pds ▸ hpd) hm (hsame.pds ▸ hpd')]
    exact (tableFor_kmem ho ht hpd' i).imp_right fun ⟨e₁, e₂, hD⟩ => ⟨e₁, e₂, e₂ ▸ hD⟩

theorem same_page_iff {a b : Word} :
    getPdIndex a = getPdIndex b ∧ getPtIndex a = getPtIndex b ↔ a.toNat / 4096 = b.toNat / 4096 := by
  rw [Fin.ext_iff, Fin.ext_iff, getPdIndex_val, getPdIndex_val, getPtIndex_val, getPtIndex_val]
  omega

theorem pte_same_page {a b : Word} (pd : Word) (h : a.toNat / 4096 = b.toNat / 4096) : s.pte pd a = s.pte pd b := by
  obtain ⟨h₁, h₂⟩ := same_page_iff.mpr h
  rw [pte_eq_entry, pte_eq_entry, h₁, h₂]

theorem Writes.pte {w p pd' : Word} {m : Word → Offset → Byte} (hw : Writes pd (getPdIndex p) (getPtIndex p) w m s s')
    (hpd' : pd' ∈ s.pds) (va : Word) :
    s'.pte pd' va = if pd' = pd ∧ va.toNat / 4096 = p.toNat / 4096 then w else s.pte pd' va := by
  rw [pte_eq_entry, hw.entry pd' hpd']
  simp only [same_page_iff]
  rfl

theorem mapPage_maps (h : s.Inv) (hpd : pd ∈ s.pds) (hcr : s.cr3 = pd) (hf : MapFlags flags) (hal : Aligned va)
    (hm : mapPage pd flags va s = (true, s')) : Maps pd flags va.toNat (va.toNat + 4096) s s' := by
  rw [aligned_iff] at hal
  obtain ⟨-, hok, hr⟩ := mapPage_spec h hpd hcr hf hm
  have hpte : ∀ (t : Vm) (a : Word), va.toNat ≤ a.toNat → a.toNat < va.toNat + 4096 → t.pte pd a = t.pte pd va :=
    fun t a h₁ h₂ => pte_same_page pd (by omega)
  have hdirs : ∀ pd' ∈ s.pds, ∀ i, s'.kmem pd' i = s.kmem pd' i ∨ (pd' = pd ∧ s.kmem pd' i = PAGE_DIR_ENTRY_DEFAULT ∧
      ∃ a : Word, va.toNat ≤ a.toNat ∧ a.toNat < va.toNat + 4096 ∧ getPdIndex a = i) := by
    intro pd' hpd' i
    refine (mapPage_dirs h hpd hm hpd' i).imp_right ?_
    rintro ⟨rfl, rfl, hD⟩
    exact ⟨rfl, hD, va, Nat.le_refl _, by omega, rfl⟩
  rcases hr with hs | ⟨f, -, hfal, -, hD, hw⟩
  · have hall : ∀ pd' ∈ s.pds, ∀ a, s'.pte pd' a = s.pte pd' a := fun pd' hpd' a => hs.entry pd' hpd' _ _
    refine ⟨hs.pds, fun a h₁ h₂ hD => ?_, fun pd' hpd' a _ => hall pd' hpd' a, fun pd' hpd' a _ => hall pd' hpd' a,
      hdirs,
      fun f _ => by rw [hs.umem]⟩
    exact absurd ((hall pd hpd va).trans ((hpte s a h₁ h₂).symm.trans hD)) (hok rfl)
  · have hnew : s'.pte pd va = f ||| flags := by
      rw [hw.pte hpd, if_pos ⟨rfl, rfl⟩]
    refine ⟨hw.pds, fun a h₁ h₂ _ => ⟨f, hfal, ?_⟩, fun pd' hpd' a hne => ?_, fun pd' hpd' a hout => ?_, hdirs,
      fun g hg => ?_⟩
    · rw [hpte s' a h₁ h₂, hnew]
    · rw [hw.pte hpd', if_neg]
      rintro ⟨rfl, hp⟩
      exact hne ((pte_same_page pd' hp).trans hD)
    · rw [hw.pte hpd', if_neg]
      rintro ⟨rfl, hp⟩
      exact hout ⟨rfl, by omega, by omega⟩
    · have hgf := hg va (Nat.le_refl _) (by omega)
      rw [hnew, (hf.bit_or hfal).1] at hgf
      rw [hw.umem]
      exact if_neg hgf.symm

/-! ## The loop -/

theorem toNat_next (h : va.toNat + 4096 < 2 ^ 32) : (va + BitVec.ofNat 32 PAGE_SIZE).toNat = va.toNat + 4096 := by
  rw [BitVec.toNat_add]
  exact Nat.mod_eq_of_lt h

theorem aligned_next (h : Aligned va) : Aligned (va + BitVec.ofNat 32 PAGE_SIZE) := by
  rw [aligned_iff] at h ⊢
  rw [BitVec.toNat_add]
  show (va.toNat + 4096) % 2 ^ 32 % 4096 = 0
  omega

theorem mapPages_ends (hal : Aligned va) {r : Int} (hm : mapPages pd flags e n va s = some (r, s')) (hr : 0 ≤ r) :
    e.toNat ≤ va.toNat ∨ e.toNat ≤ 0xfffff000 := by
  induction n generalizing va s with
  | zero =>
    rw [mapPages] at hm
    split at hm
    · cases hm
    · exact Or.inl (Nat.le_of_not_lt ‹_›)
  | succ n ih =>
    rw [mapPages] at hm
    split at hm
    · rename_i hlt
      split at hm
      · have hnext := aligned_next hal
        rcases ih hnext hm with h | h
        · right
          rw [aligned_iff] at hnext
          have := (va + BitVec.ofNat 32 PAGE_SIZE).isLt
          omega
        · exact Or.inr h
      · cases hm
        exact absurd hr (by decide)
    · exact Or.inl (Nat.le_of_not_lt ‹_›)

def pagesEnd (e : Nat) : Nat := (e + 4095) / 4096 * 4096

theorem mapPages_maps (h : s.Inv) (hpd : pd ∈ s.pds) (hcr : s.cr3 = pd) (hf : MapFlags flags) (hal : Aligned va)
    (hlast : e.toNat ≤ 0xfffff000) (hle : va.toNat ≤ pagesEnd e.toNat) {r : Int}
    (hm : mapPages pd flags e n va s = some (r, s')) (hr : 0 ≤ r) :
    Maps pd flags va.toNat (pagesEnd e.toNat) s s' := by
  have hal' := (aligned_iff va).mp hal
  unfold pagesEnd at hle ⊢
  induction n generalizing va s with
  | zero =>
    rw [mapPages] at hm
    split at hm
    · cases hm
    · cases hm
      rw [show (e.toNat + 4095) / 4096 * 4096 = va.toNat by omega]
      exact Maps.rfl'
  | succ n ih =>
    rw [mapPages] at hm
    split at hm
    · rename_i hlt
      split at hm
      · rename_i s₁ hp
        obtain ⟨h₁, hpd₁, hcr₁⟩ := mapPage_keeps h hpd hcr hf hp
        have hnext : (va + BitVec.ofNat 32 PAGE_SIZE).toNat = va.toNat + 4096 := toNat_next (by omega)
        have htail := ih h₁ hpd₁ hcr₁ (aligned_next hal) (by omega) hm ((aligned_iff _).mp (aligned_next hal))
        rw [hnext] at htail
        exact (mapPage_maps h hpd hcr hf hal hp).trans htail hpd (by omega) (by omega) hf
      · cases hm
        exact absurd hr (by decide)
    · cases hm
      rw [show (e.toNat + 4095) / 4096 * 4096 = va.toNat by omega]
      exact Maps.rfl'

theorem Maps.of_empty (h : hi ≤ lo) : Maps pd flags lo hi s s :=
  ⟨rfl, fun _ h₁ h₂ => absurd h₁ (by omega), fun _ _ _ _ => rfl, fun _ _ _ _ => rfl, fun _ _ _ => Or.inl rfl,
  fun _ _ => rfl⟩

theorem Maps.of_setCurPd {pd' : Word} (h : Maps pd flags lo hi (s.setCurPd pd') s') : Maps pd flags lo hi s s' :=
  ⟨h.pds, h.inside, h.kept, h.outside, h.dirs, h.umem⟩

section
variable {start len : Word} {r : Int}

theorem pageRoundDown_toNat (a : Word) : (pageRoundDown a).toNat = a.toNat / 4096 * 4096 := by
  rw [pageRoundDown, toNat_base]

theorem mapSegment_ends (hm : mapSegment start len pd flags s = some (r, s')) (hr : 0 ≤ r) :
    (start + len).toNat ≤ start.toNat / 4096 * 4096 ∨ (start + len).toNat ≤ 0xfffff000 := by
  rw [← pageRoundDown_toNat]
  exact mapPages_ends (aligned_base start) hm hr

theorem mapSegment_maps (h : s.Inv) (hpd : pd ∈ s.pds) (hf : MapFlags flags)
    (hm : mapSegment start len pd flags s = some (r, s')) (hr : 0 ≤ r) :
    Maps pd flags (start.toNat / 4096 * 4096) (pagesEnd (start + len).toNat) s s' := by
  refine Maps.of_setCurPd (?_ : Maps pd flags _ _ (s.setCurPd pd) s')
  have hlo := pageRoundDown_toNat start
  by_cases hle : (start + len).toNat ≤ start.toNat / 4096 * 4096
  · have hdone : s' = s.setCurPd pd := by
      unfold mapSegment at hm
      generalize addressPages = n at hm
      cases n <;>
      · rw [mapPages, if_neg (by omega)] at hm
        cases hm
        rfl
    rw [hdone]
    refine Maps.of_empty ?_
    unfold pagesEnd
    omega
  · rw [← hlo]
    refine mapPages_maps (s := s.setCurPd pd) h hpd rfl hf (aligned_base start)
      ((mapSegment_ends hm hr).resolve_left hle) ?_ hm hr
    unfold pagesEnd
    omega

end

/-! ## What a range needs -/

def absentTables (pd : Word) (lo hi : Nat) (s : Vm) : Finset Index :=
  Finset.univ.filter fun i => s.kmem pd i = PAGE_DIR_ENTRY_DEFAULT ∧ lo < hi ∧ lo < (i.val + 1) * 2 ^ 22 ∧
  i.val * 2 ^ 22 < hi

structure Enough (pd : Word) (lo hi : Nat) (s : Vm) : Prop where
  frames : FramesLeft ((hi - lo) / 4096) s.fr
  tables : (absentTables pd lo hi s).card ≤ s.avail.length

theorem framesLeft_zero (h : s.Inv) : FramesLeft 0 s.fr := by
  obtain ⟨l, hl, -⟩ := h.agree.free
  exact ⟨l, hl, Nat.zero_le _⟩

theorem framesLeft_one (h : s.Inv) {f : Word} {fr : Frames} (ha : allocateFrame s.fr = (some f, fr)) :
    FramesLeft 1 s.fr := by
  obtain ⟨l, hl, -⟩ := h.agree.free
  unfold allocateFrame at ha
  split at ha
  · cases ha
  · rename_i hend
    obtain ⟨l', rfl, -⟩ := hl.pop hend
    exact ⟨_, hl, by simp⟩

structure Spent (pd va : Word) (s s' : Vm) : Prop where
  frames : ∀ k, FramesLeft k s'.fr ↔ FramesLeft (k + 1) s.fr
  pages : s'.avail.length + (if s.kmem pd (getPdIndex va) = PAGE_DIR_ENTRY_DEFAULT then 1 else 0) = s.avail.length
  dirs : ∀ i, s'.kmem pd i = PAGE_DIR_ENTRY_DEFAULT ↔ s.kmem pd i = PAGE_DIR_ENTRY_DEFAULT ∧ i ≠ getPdIndex va

theorem framesLeft_incRefCount {k : Nat} {fr : Frames} (f : Word) :
    FramesLeft k (incRefCount f fr) ↔ FramesLeft k fr := by
  refine ⟨fun h => ?_, fun h => h.incRefCount f⟩
  apply h.congr <;> simp [incRefCount, unlockFrame, lockFrame, addRefCount, kernelAssert_arr, kernelAssert_head]

theorem framesLeft_allocate {k : Nat} {fr fr' : Frames} {f : Word} (ha : allocateFrame fr = (some f, fr')) :
    FramesLeft k fr' ↔ FramesLeft (k + 1) fr := by
  refine ⟨FramesLeft.of_allocate ha, fun h => ?_⟩
  obtain ⟨f', fr'', ha', h'⟩ := h.allocate
  rw [ha] at ha'
  cases ha'
  exact h'

def CanMap (pd va : Word) (s : Vm) : Prop :=
  FramesLeft 1 s.fr ∧ (s.kmem pd (getPdIndex va) = PAGE_DIR_ENTRY_DEFAULT → s.avail ≠ [])

theorem tableFor_none {i : Index} : tableFor pd i s = none ↔ s.kmem pd i = PAGE_DIR_ENTRY_DEFAULT ∧ s.avail = [] := by
  unfold tableFor
  split
  · rename_i hD
    simp [hD]
  · rename_i hD
    simp [hD]

theorem tableFor_avail {i : Index} (ht : tableFor pd i s = some s₁) :
    s₁.avail.length + (if s.kmem pd i = PAGE_DIR_ENTRY_DEFAULT then 1 else 0) = s.avail.length := by
  unfold tableFor at ht
  split at ht
  · rename_i hD
    simp only [Option.map_eq_some_iff] at ht
    obtain ⟨a, ha, rfl⟩ := ht
    obtain ⟨rest, hav⟩ := List.head?_eq_some_iff.mp ha
    simp [Tables.attach, Tables.setWord, Tables.setPage, hav, hD]
  · rename_i hD
    cases ht
    simp [hD]

theorem mapPage_absent (flags : Word) (h : s.Inv) (hpd : pd ∈ s.pds) (hD : s.pte pd va = PAGE_TABLE_ENTRY_DEFAULT) :
    (s.CanMap pd va ∧ ∃ s', mapPage pd flags va s = (true, s') ∧ Spent pd va s s') ∨
      (¬ s.CanMap pd va ∧ ∃ s', mapPage pd flags va s = (false, s') ∧ s'.Inv ∧ Same s s' ∧ s'.fr = s.fr) := by
  rw [mapPage_eq]
  cases ht : tableFor pd (getPdIndex va) s with
  | none =>
    obtain ⟨hdir, hav⟩ := tableFor_none.mp ht
    exact Or.inr ⟨fun hc => hc.2 hdir hav, s, rfl, h, Same.rfl', rfl⟩
  | some s₁ =>
    obtain ⟨h₁, hsame, hne, -, hfr⟩ := tableFor_same h hpd ht
    have hD₁ : s₁.pte pd va = PAGE_TABLE_ENTRY_DEFAULT := by
      rw [pte_eq_entry, hsame.entry pd hpd]
      exact hD
    have hav : s.kmem pd (getPdIndex va) = PAGE_DIR_ENTRY_DEFAULT → s.avail ≠ [] := by
      intro hdir hnil
      rw [tableFor_none.mpr ⟨hdir, hnil⟩] at ht
      cases ht
    dsimp only
    cases ha : allocateFrame s.fr with
    | mk o fr =>
      cases o with
      | none =>
        have hfill : fillEntry pd flags va s₁ = (false, { s₁ with fr := fr }) := by
          unfold fillEntry
          rw [if_pos hD₁, hfr, ha]
        rw [allocateFrame_none ha, ← hfr] at hfill
        refine Or.inr ⟨fun hc => ?_, s₁, hfill, h₁, hsame, hfr⟩
        obtain ⟨f, fr', ha', -⟩ := hc.1.allocate
        rw [ha] at ha'
        cases ha'
      | some f =>
        have hfill : fillEntry pd flags va s₁ = (true, ({ s₁ with fr := incRefCount f fr }.setWord (s₁.ptAddr pd va)
            (getPtIndex va) (f ||| flags)).zeroFill va) := by
          unfold fillEntry
          rw [if_pos hD₁, hfr, ha]
        refine Or.inl ⟨⟨framesLeft_one h ha, hav⟩, _, hfill, fun k => ?_, ?_, fun i => ?_⟩
        · rw [zeroFill_fr]
          exact (framesLeft_incRefCount f).trans (framesLeft_allocate ha)
        · rw [zeroFill_toTables]
          have hav := tableFor_avail ht
          exact hav
        · obtain ⟨use, ho⟩ := h.owned
          obtain ⟨use₁, ho₁⟩ := h₁.owned
          rw [fillEntry_kmem ho₁ (hsame.pds ▸ hpd) hfill (hsame.pds ▸ hpd)]
          by_cases hi : i = getPdIndex va
          · subst hi
            exact iff_of_false hne fun hc => hc.2 rfl
          · rw [(tableFor_kmem ho ht hpd i).resolve_right fun hc => hi hc.2.1]
            exact ⟨fun hc => ⟨hc, hi⟩, fun hc => hc.1⟩

theorem absentTables_step (hal : Aligned va) (hs : Spent pd va s s') :
    absentTables pd (va.toNat + 4096) hi s' = (absentTables pd va.toNat hi s).erase (getPdIndex va) := by
  ext i
  have hv := getPdIndex_val va
  rw [aligned_iff] at hal
  unfold absentTables
  simp only [Finset.mem_erase, Finset.mem_filter, Finset.mem_univ, true_and, hs.dirs]
  by_cases hi : i = getPdIndex va
  · simp [hi]
  · -- another entry that the range reaches begins after this page
    have hne : i.val ≠ va.toNat / 2 ^ 22 := fun e => hi (Fin.ext (e.trans hv.symm))
    constructor
    · rintro ⟨⟨hD, -⟩, h₀, h₁, h₂⟩
      exact ⟨hi, hD, by omega, by omega, h₂⟩
    · rintro ⟨-, hD, h₀, h₁, h₂⟩
      exact ⟨⟨hD, hi⟩, by omega, by omega, h₂⟩

theorem Spent.enough (hs : Spent pd va s s') (hal : Aligned va) (hlt : va.toNat + 4096 ≤ hi) :
    Enough pd (va.toNat + 4096) hi s' ↔ Enough pd va.toNat hi s ∧ s.CanMap pd va := by
  have hframes : FramesLeft ((hi - (va.toNat + 4096)) / 4096) s'.fr ↔ FramesLeft ((hi - va.toNat) / 4096) s.fr := by
    rw [hs.frames, show (hi - (va.toNat + 4096)) / 4096 + 1 = (hi - va.toNat) / 4096 by omega]
  have hone : FramesLeft ((hi - va.toNat) / 4096) s.fr → FramesLeft 1 s.fr := fun h => h.mono (by omega)
  have hmem : getPdIndex va ∈ absentTables pd va.toNat hi s ↔ s.kmem pd (getPdIndex va) = PAGE_DIR_ENTRY_DEFAULT := by
    have hv := getPdIndex_val va
    unfold absentTables
    simp only [Finset.mem_filter, Finset.mem_univ, true_and, and_iff_left_iff_imp]
    intro _
    omega
  have hpages := hs.pages
  have hcard : absentTables pd (va.toNat + 4096) hi s' = (absentTables pd va.toNat hi s).erase (getPdIndex va) :=
    absentTables_step hal hs
  by_cases hD : s.kmem pd (getPdIndex va) = PAGE_DIR_ENTRY_DEFAULT
  · have hpos := Finset.card_erase_add_one (hmem.mpr hD)
    rw [if_pos hD] at hpages
    constructor
    · rintro ⟨hf, ht⟩
      rw [hcard] at ht
      refine ⟨⟨hframes.mp hf, by omega⟩, hone (hframes.mp hf), fun _ hnil => ?_⟩
      rw [hnil, List.length_nil] at hpages
      omega
    · rintro ⟨⟨hf, ht⟩, -⟩
      refine ⟨hframes.mpr hf, ?_⟩
      rw [hcard]
      omega
  · have hsame := Finset.erase_eq_of_notMem (mt hmem.mp hD)
    rw [if_neg hD] at hpages
    constructor
    · rintro ⟨hf, ht⟩
      rw [hcard, hsame] at ht
      exact ⟨⟨hframes.mp hf, by omega⟩, hone (hframes.mp hf), fun h => absurd h hD⟩
    · rintro ⟨⟨hf, ht⟩, -⟩
      refine ⟨hframes.mpr hf, ?_⟩
      rw [hcard, hsame]
      omega

theorem Enough.canMap (h : Enough pd va.toNat hi s) (hlt : va.toNat + 4096 ≤ hi) : s.CanMap pd va := by
  refine ⟨h.frames.mono (by omega), fun hD hnil => ?_⟩
  have hv := getPdIndex_val va
  have hmem : getPdIndex va ∈ absentTables pd va.toNat hi s := by
    unfold absentTables
    simp only [Finset.mem_filter, Finset.mem_univ, true_and]
    exact ⟨hD, by omega, by omega, by omega⟩
  have ht := h.tables
  rw [hnil, List.length_nil] at ht
  exact absurd (Finset.card_pos.mpr ⟨_, hmem⟩) (by omega)

theorem enough_empty (h : s.Inv) : Enough pd lo lo s := by
  refine ⟨?_, ?_⟩
  · rw [Nat.sub_self]
    exact framesLeft_zero h
  · have hempty : absentTables pd lo lo s = ∅ := by
      unfold absentTables
      exact Finset.filter_eq_empty_iff.mpr fun i _ hc => Nat.lt_irrefl _ hc.2.1
    rw [hempty]
    exact Nat.zero_le _

theorem mapPages_absent (h : s.Inv) (hpd : pd ∈ s.pds) (hcr : s.cr3 = pd) (hf : MapFlags flags) (hal : Aligned va)
    (hle : va.toNat ≤ e.toNat) (hend : Aligned e) (hn : e.toNat ≤ va.toNat + n * 4096)
    (habs : ∀ a : Word, va.toNat ≤ a.toNat → a.toNat < e.toNat → s.pte pd a = PAGE_TABLE_ENTRY_DEFAULT) :
    (Enough pd va.toNat e.toNat s ∧ ∃ s', mapPages pd flags e n va s = some (0, s')) ∨
      (¬ Enough pd va.toNat e.toNat s ∧ ∃ s', mapPages pd flags e n va s = some (ERR_NOMEM, s') ∧
        (s.CanMap pd va → s'.pte pd va ≠ PAGE_TABLE_ENTRY_DEFAULT) ∧
        (¬ s.CanMap pd va → s'.Inv ∧ Same s s' ∧ s'.fr = s.fr)) := by
  have hend' := (aligned_iff e).mp hend
  induction n generalizing va s with
  | zero =>
    rw [mapPages, if_neg (by omega), show va.toNat = e.toNat by omega]
    exact Or.inl ⟨enough_empty h, s, rfl⟩
  | succ n ih =>
    rw [mapPages]
    by_cases hlt : va.toNat < e.toNat
    · have hal' := (aligned_iff va).mp hal
      have hroom : va.toNat + 4096 ≤ e.toNat := by omega
      have hnext : (va + BitVec.ofNat 32 PAGE_SIZE).toNat = va.toNat + 4096 :=
        toNat_next (by have := e.isLt; omega)
      rw [if_pos hlt]
      rcases mapPage_absent flags h hpd (habs va (Nat.le_refl _) hlt) with ⟨hcan, s₁, hp, hsp⟩ | ⟨hcan, s₁, hp, hkept⟩
      · obtain ⟨h₁, hpd₁, hcr₁⟩ := mapPage_keeps h hpd hcr hf hp
        have hmaps := mapPage_maps h hpd hcr hf hal hp
        have hfirst : s₁.pte pd va ≠ PAGE_TABLE_ENTRY_DEFAULT := (mapPage_spec h hpd hcr hf hp).2.1 rfl
        have hrest := ih h₁ hpd₁ hcr₁ (aligned_next hal) (by omega) (by omega) (fun a h₁ h₂ => by
          rw [hmaps.outside pd hpd a fun hin => by omega]
          exact habs a (by omega) h₂)
        rw [hnext, hsp.enough hal hroom] at hrest
        rw [hp]
        dsimp only
        rcases hrest with ⟨henough, s', hm⟩ | ⟨hnot, s', hm, -⟩
        · exact Or.inl ⟨henough.1, s', hm⟩
        · refine Or.inr ⟨fun henough => hnot ⟨henough, hcan⟩, s', hm, fun _ => ?_, fun hc => absurd hcan hc⟩
          rw [pte_eq_entry, mapPages_mapped h₁ hpd₁ hcr₁ hf hm hfirst]
          exact hfirst
      · rw [hp]
        exact Or.inr ⟨fun henough => hcan (henough.canMap hroom), s₁, rfl, fun hc => absurd hc hcan, fun _ => hkept⟩
    · rw [if_neg hlt, show va.toNat = e.toNat by omega]
      exact Or.inl ⟨enough_empty h, s, rfl⟩

end

end Vm

end Pebbles
