import Pebbles.Mapping
import Pebbles.ReadOnly

/-!
# The access that a program's segments get

`setup_page_table` maps one segment after the other, and a page that is mapped already is
skipped: a page has the flags of the first segment whose loop comes to it.
-/

namespace Pebbles

open Words

structure Stage where
  flags : Word
  start : Word
  len : Word

namespace Stage

def Byte (g : Stage) (va : Word) : Prop := g.start.toNat ≤ va.toNat ∧ va.toNat < g.start.toNat + g.len.toNat

/-- The loop of `map_segment` comes to the page. Its end is a pointer of 32 bits, and the page of an unaligned
start is mapped for an empty segment as well. -/
def Covers (g : Stage) (va : Word) : Prop :=
  g.start.toNat / 4096 * 4096 ≤ va.toNat ∧ va.toNat < Vm.pagesEnd (g.start + g.len).toNat

instance (g : Stage) (va : Word) : Decidable (g.Covers va) := inferInstanceAs (Decidable (_ ∧ _))

def firstFlags : List Stage → Word → Option Word
  | [], _ => none
  | g :: l, va => if g.Covers va then some g.flags else firstFlags l va

variable {g : Stage} {l : List Stage} {va x : Word}

theorem Covers.same_page (h : g.Covers x) (hp : x.toNat / 4096 = va.toNat / 4096) : g.Covers va := by
  unfold Covers Vm.pagesEnd at h ⊢
  omega

theorem Byte.covers (h : g.Byte va) (hend : g.start.toNat + g.len.toNat < 2 ^ 32) : g.Covers va := by
  have he : (g.start + g.len).toNat = g.start.toNat + g.len.toNat := by
    rw [BitVec.toNat_add]
    exact Nat.mod_eq_of_lt hend
  unfold Byte at h
  unfold Covers Vm.pagesEnd
  rw [he]
  omega

theorem firstFlags_none : firstFlags l va = none ↔ ∀ g ∈ l, ¬ g.Covers va := by
  induction l with
  | nil => simp [firstFlags]
  | cons g l ih =>
    rw [firstFlags, List.forall_mem_cons]
    split
    · simp [*]
    · simp [*]

theorem firstFlags_mem {fl : Word} (h : firstFlags l va = some fl) : ∃ g ∈ l, g.flags = fl := by
  induction l with
  | nil => cases h
  | cons g l ih =>
    rw [firstFlags] at h
    split at h
    · exact ⟨g, List.mem_cons_self, Option.some.inj h⟩
    · obtain ⟨g', hg', he⟩ := ih h
      exact ⟨g', List.mem_cons_of_mem _ hg', he⟩

end Stage

namespace Vm

section
variable {s s' : Vm} {pd flags va start len : Word} {r : Int} {l : List Stage}

theorem mapSegment_last (hm : mapSegment start len pd flags s = some (r, s')) (hr : 0 ≤ r) :
    ¬ (⟨flags, start, len⟩ : Stage).Covers 0xffffffff#32 := by
  have hends := mapSegment_ends hm hr
  have hx : (0xffffffff#32).toNat = 0xffffffff := rfl
  unfold Stage.Covers pagesEnd
  dsimp only
  omega

def mapStages (pd : Word) : List Stage → Vm → Option (Int × Vm)
  | [], s => some (0, s)
  | g :: l, s => andThen (mapSegment g.start g.len pd g.flags s) (mapStages pd l)

structure Staged (pd : Word) (l : List Stage) (s s' : Vm) : Prop where
  inv : s'.Inv
  live : pd ∈ s'.pds
  last : ∀ g ∈ l, ¬ g.Covers 0xffffffff#32
  kept : ∀ va, s.pte pd va ≠ PAGE_TABLE_ENTRY_DEFAULT → s'.pte pd va = s.pte pd va
  first : ∀ va fl, s.pte pd va = PAGE_TABLE_ENTRY_DEFAULT → Stage.firstFlags l va = some fl →
    ∃ f, Aligned f ∧ s'.pte pd va = f ||| fl
  none : ∀ va, s.pte pd va = PAGE_TABLE_ENTRY_DEFAULT → Stage.firstFlags l va = none →
    s'.pte pd va = PAGE_TABLE_ENTRY_DEFAULT

theorem andThen_zero {x : Option (Int × Vm)} {next : Vm → Option (Int × Vm)} (h : andThen x next = some (0, s')) :
    ∃ r s₁, x = some (r, s₁) ∧ 0 ≤ r ∧ next s₁ = some (0, s') := by
  unfold andThen at h
  cases x with
  | none => cases h
  | some x =>
    obtain ⟨r, s₁⟩ := x
    dsimp only at h
    by_cases hr : r < 0
    · rw [if_pos hr] at h
      cases h
      omega
    · rw [if_neg hr] at h
      exact ⟨r, s₁, rfl, by omega, h⟩

theorem mapStages_staged (h : s.Inv) (hpd : pd ∈ s.pds) (hf : ∀ g ∈ l, MapFlags g.flags)
    (hm : mapStages pd l s = some (0, s')) : Staged pd l s s' := by
  induction l generalizing s with
  | nil =>
    cases hm
    exact ⟨h, hpd, by simp, fun _ _ => rfl, fun _ _ _ he => absurd he (Option.some_ne_none _).symm,
      fun _ he _ => he⟩
  | cons g l ih =>
    rw [List.forall_mem_cons] at hf
    obtain ⟨r, s₁, hseg, hr, hrest⟩ := andThen_zero hm
    obtain ⟨h₁, hpd₁, -⟩ := mapSegment_inv h hpd hf.1 hseg
    have hmaps := mapSegment_maps h hpd hf.1 hseg hr
    have hst := ih h₁ hpd₁ hf.2 hrest
    refine ⟨hst.inv, hst.live, List.forall_mem_cons.mpr ⟨mapSegment_last hseg hr, hst.last⟩, fun va hne => ?_,
      fun va fl hD hfl => ?_,
      fun va hD hnone => ?_⟩
    · have hsame := hmaps.kept pd hpd va hne
      exact (hst.kept va (hsame ▸ hne)).trans hsame
    · rw [Stage.firstFlags] at hfl
      split at hfl
      · rename_i hc
        cases hfl
        obtain ⟨f, hal, he⟩ := hmaps.inside va hc.1 hc.2 hD
        have hne : s₁.pte pd va ≠ PAGE_TABLE_ENTRY_DEFAULT := by
          rw [he]
          exact ne_default_of_present (hf.1.bit_or hal).2.1
        exact ⟨f, hal, (hst.kept va hne).trans he⟩
      · rename_i hc
        exact hst.first va fl ((hmaps.outside pd hpd va fun hin => hc hin.2).trans hD) hfl
    · rw [Stage.firstFlags] at hnone
      split at hnone
      · cases hnone
      · rename_i hc
        exact hst.none va ((hmaps.outside pd hpd va fun hin => hc hin.2).trans hD) hnone

theorem access_of_flags {f fl : Word} (h : s.Inv) (hpd : pd ∈ s.pds) (hu : USER_MEM_START ≤ va.toNat) (hf : MapFlags fl)
    (hal : Aligned f) (he : s.pte pd va = f ||| fl) :
    s.userReadable pd va = true ∧ s.userWritable pd va = bit fl 1 ∧ bit (s.pte pd va) 1 = bit fl 1 := by
  obtain ⟨-, hp, hm⟩ := hf.bit_or hal
  have hne : s.pte pd va ≠ PAGE_TABLE_ENTRY_DEFAULT := by
    rw [he]
    exact ne_default_of_present hp
  have ht := h.kernel.tableAt hpd (user_index hu) (j := getPtIndex va) hne
  have hw : bit (s.pte pd va) 1 = bit fl 1 := by
    rw [he, bit_or_flags hal (by decide)]
  have hr : s.userReadable pd va = true := by
    unfold userReadable
    rw [directory_flags h ht (by decide), directory_flags h ht (by decide), he, hp, hm]
    decide
  refine ⟨hr, ?_, hw⟩
  unfold userWritable
  rw [hr, directory_flags h ht (by decide), hw, show bit USER_PD_ENTRY_FLAGS 1 = true by decide, Bool.true_and]
  rfl

end

end Vm

/-! ## The segments of a program -/

namespace SimpleElf

def text (se : SimpleElf) : Stage := ⟨Vm.TEXT_FLAGS, se.eTxtstart, se.eTxtlen⟩
def data (se : SimpleElf) : Stage := ⟨Vm.DATA_FLAGS, se.eDatstart, se.eDatlen⟩
def rodata (se : SimpleElf) : Stage := ⟨Vm.TEXT_FLAGS, se.eRodatstart, se.eRodatlen⟩
def bss (se : SimpleElf) : Stage := ⟨Vm.DATA_FLAGS, se.eBssstart, se.eBsslen⟩

def headerStages (se : SimpleElf) : List Stage := [se.text, se.data, se.rodata, se.bss]

def stackStage : Stage :=
  ⟨Vm.DATA_FLAGS, STACK_START - BitVec.ofNat 32 DEFAULT_STACK_SIZE + 1#32, BitVec.ofNat 32 DEFAULT_STACK_SIZE⟩

def stages (se : SimpleElf) : List Stage := se.headerStages ++ [stackStage]

def StackByte (va : Word) : Prop := STACK_END.toNat ≤ va.toNat ∧ va.toNat ≤ STACK_START.toNat

def WritableByte (se : SimpleElf) (va : Word) : Prop := se.data.Byte va ∨ se.bss.Byte va ∨ StackByte va

def Touched (se : SimpleElf) (va : Word) : Prop :=
  ∃ x : Word, x.toNat / 4096 = va.toNat / 4096 ∧ ((∃ g ∈ se.headerStages, g.Byte x) ∨ StackByte x)

def InUserMemory (se : SimpleElf) : Prop :=
  ∀ g ∈ se.headerStages, g.len = 0#32 ∨ (USER_MEM_START ≤ g.start.toNat ∧ g.start.toNat + g.len.toNat ≤ 2 ^ 32)

/-- Every byte is in a page with the access of its segment, and no other page is mapped. -/
structure HasAccess (se : SimpleElf) (pd : Word) (s : Vm) : Prop where
  present : ∀ va, se.Touched va → s.userReadable pd va = true
  writable : ∀ va, se.WritableByte va → s.userWritable pd va = true
  readOnly : ∀ va, se.text.Byte va ∨ se.rodata.Byte va →
    (∀ x : Word, x.toNat / 4096 = va.toNat / 4096 → ¬ se.WritableByte x) → bit (s.pte pd va) 1 = false
  nothingElse : ∀ va : Word, USER_MEM_START ≤ va.toNat → ¬ se.Touched va → s.pte pd va = PAGE_TABLE_ENTRY_DEFAULT

/-- No page is taken by a segment with other access, or by an empty one, and no segment ends with the address space. -/
structure GoodLayout (se : SimpleElf) : Prop where
  ends : ∀ g ∈ se.headerStages, g.len ≠ 0#32 → g.start.toNat + g.len.toNat ≠ 2 ^ 32
  data : ∀ va, se.data.Byte va → ¬ se.text.Covers va
  later : ∀ va, se.bss.Byte va ∨ StackByte va → ¬ se.text.Covers va ∧ (se.rodata.Covers va → se.data.Covers va)
  rodata : ∀ va, se.rodata.Byte va → (∀ x : Word, x.toNat / 4096 = va.toNat / 4096 → ¬ se.WritableByte x) →
    se.data.Covers va → se.text.Covers va
  empty : ∀ g ∈ se.headerStages, ∀ va : Word, USER_MEM_START ≤ va.toNat → g.Covers va → se.Touched va

section
variable {se : SimpleElf} {pd va : Word} {s s' : Vm}

def FreshDirectory (s : Vm) (pd : Word) : Prop :=
  ∀ i : Index, KERNEL_MAP_NUM_ENTRIES ≤ i.val → s.kmem pd i = PAGE_DIR_ENTRY_DEFAULT

theorem FreshDirectory.pte (hfresh : FreshDirectory s pd) (h : s.Inv) (hpd : pd ∈ s.pds)
    (hu : USER_MEM_START ≤ va.toNat) :
    s.pte pd va = PAGE_TABLE_ENTRY_DEFAULT := by
  by_contra hne
  have ht := h.kernel.tableAt hpd (Vm.user_index hu) (j := getPtIndex va) hne
  exact ht.present (hfresh _ (Vm.user_index hu))

theorem stages_flags : ∀ g ∈ se.stages, MapFlags g.flags := by
  simp only [stages, headerStages, List.cons_append, List.nil_append, List.forall_mem_cons]
  exact ⟨mapFlags_text, mapFlags_data, mapFlags_text, mapFlags_data, mapFlags_data, List.forall_mem_nil _⟩

theorem setupPageTable_staged (h : s.Inv) (hpd : pd ∈ s.pds) (hret : s.setupPageTable se pd = some (0, s')) :
    Vm.Staged pd se.stages s s' := by
  refine Vm.mapStages_staged h hpd stages_flags ?_
  unfold Vm.setupPageTable at hret
  split at hret
  · cases hret
  · exact hret

theorem stackByte_iff : StackByte va ↔ 0xbfe00000 ≤ va.toNat ∧ va.toNat ≤ 0xc0000000 := by
  have h₁ : STACK_END.toNat = 0xbfe00000 := by decide
  have h₂ : STACK_START.toNat = 0xc0000000 := by decide
  rw [StackByte, h₁, h₂]

theorem stackStage_covers_iff : stackStage.Covers va ↔ 0xbfe00000 ≤ va.toNat ∧ va.toNat < 0xc0001000 := by
  have h₁ : stackStage.start.toNat / 4096 * 4096 = 0xbfe00000 := by decide
  have h₂ : Vm.pagesEnd (stackStage.start + stackStage.len).toNat = 0xc0001000 := by decide
  rw [Stage.Covers, h₁, h₂]

theorem StackByte.covers (h : StackByte va) : stackStage.Covers va := by
  rw [stackByte_iff] at h
  rw [stackStage_covers_iff]
  omega

theorem touched_of_stack (h : stackStage.Covers va) : se.Touched va := by
  rw [stackStage_covers_iff] at h
  refine ⟨base va, ?_, .inr ?_⟩
  · rw [toNat_base]
    omega
  · rw [stackByte_iff, toNat_base]
    omega

section
variable (hst : Vm.Staged pd se.stages s s')
  (hfresh : ∀ va : Word, USER_MEM_START ≤ va.toNat → s.pte pd va = PAGE_TABLE_ENTRY_DEFAULT)
  (hu : USER_MEM_START ≤ va.toNat)
include hst hfresh hu

theorem access_first {fl : Word} (hfl : Stage.firstFlags se.stages va = some fl) :
    s'.userReadable pd va = true ∧ s'.userWritable pd va = bit fl 1 ∧ bit (s'.pte pd va) 1 = bit fl 1 := by
  obtain ⟨f, hal, he⟩ := hst.first va fl (hfresh va hu) hfl
  refine Vm.access_of_flags hst.inv hst.live hu ?_ hal he
  obtain ⟨g, hg, rfl⟩ := Stage.firstFlags_mem hfl
  exact stages_flags g hg

theorem readable_iff : s'.userReadable pd va = true ↔ ∃ g ∈ se.stages, g.Covers va := by
  cases hfl : Stage.firstFlags se.stages va with
  | none =>
    have hno := Stage.firstFlags_none.mp hfl
    have habs : s'.userReadable pd va = false := by
      unfold Vm.userReadable
      rw [hst.none va (hfresh va hu) hfl]
      simp [bit, PAGE_TABLE_ENTRY_DEFAULT]
    rw [habs]
    simpa using hno
  | some fl =>
    have hsome : ∃ g ∈ se.stages, g.Covers va := by
      by_contra hno
      push Not at hno
      rw [Stage.firstFlags_none.mpr hno] at hfl
      cases hfl
    exact iff_of_true (access_first hst hfresh hu hfl).1 hsome

theorem writable_iff : s'.userWritable pd va = true ↔ ¬ se.text.Covers va ∧
    (se.data.Covers va ∨ (¬ se.rodata.Covers va ∧ (se.bss.Covers va ∨ stackStage.Covers va))) := by
  have hfirst : Stage.firstFlags se.stages va =
      if se.text.Covers va then some Vm.TEXT_FLAGS else if se.data.Covers va then some Vm.DATA_FLAGS
      else if se.rodata.Covers va then some Vm.TEXT_FLAGS else if se.bss.Covers va then some Vm.DATA_FLAGS
      else if stackStage.Covers va then some Vm.DATA_FLAGS else none := rfl
  have hro : Stage.firstFlags se.stages va = some Vm.TEXT_FLAGS → s'.userWritable pd va = false :=
    fun hfl => (access_first hst hfresh hu hfl).2.1
  have hrw : Stage.firstFlags se.stages va = some Vm.DATA_FLAGS → s'.userWritable pd va = true :=
    fun hfl => (access_first hst hfresh hu hfl).2.1
  by_cases h₁ : se.text.Covers va
  · rw [if_pos h₁] at hfirst
    simp [hro hfirst, h₁]
  rw [if_neg h₁] at hfirst
  by_cases h₂ : se.data.Covers va
  · rw [if_pos h₂] at hfirst
    simp [hrw hfirst, h₁, h₂]
  rw [if_neg h₂] at hfirst
  by_cases h₃ : se.rodata.Covers va
  · rw [if_pos h₃] at hfirst
    simp [hro hfirst, h₁, h₂, h₃]
  rw [if_neg h₃] at hfirst
  by_cases h₄ : se.bss.Covers va
  · rw [if_pos h₄] at hfirst
    simp [hrw hfirst, h₁, h₃, h₄]
  rw [if_neg h₄] at hfirst
  by_cases h₅ : stackStage.Covers va
  · rw [if_pos h₅] at hfirst
    simp [hrw hfirst, h₁, h₃, h₅]
  · rw [if_neg h₅] at hfirst
    have hno : ¬ s'.userReadable pd va = true := by
      rw [readable_iff hst hfresh hu]
      push Not
      exact Stage.firstFlags_none.mp hfirst
    simp [Vm.userWritable, hno, h₂, h₄, h₅]

theorem entry_writable (hg : ∃ g ∈ se.stages, g.Covers va) : bit (s'.pte pd va) 1 = s'.userWritable pd va := by
  cases hfl : Stage.firstFlags se.stages va with
  | none =>
    obtain ⟨g, hg, hc⟩ := hg
    exact absurd hc (Stage.firstFlags_none.mp hfl g hg)
  | some fl =>
    obtain ⟨-, hw, hb⟩ := access_first hst hfresh hu hfl
    rw [hw, hb]

end

theorem InUserMemory.byte {g : Stage} (hin : se.InUserMemory) (hg : g ∈ se.headerStages) (hb : g.Byte va) :
    USER_MEM_START ≤ va.toNat ∧ g.len ≠ 0#32 := by
  have hlen : g.len ≠ 0#32 := by
    intro h0
    unfold Stage.Byte at hb
    rw [h0] at hb
    exact absurd hb.2 (Nat.not_lt.mpr hb.1)
  exact ⟨((hin g hg).resolve_left hlen).1.trans hb.1, hlen⟩

theorem StackByte.user (h : StackByte va) : USER_MEM_START ≤ va.toNat := by
  rw [stackByte_iff] at h
  change 0x01000000 ≤ _
  omega

theorem Touched.user (hin : se.InUserMemory) (h : se.Touched va) : USER_MEM_START ≤ va.toNat := by
  obtain ⟨x, hp, ⟨g, hg, hb⟩ | hb⟩ := h
  · have := (hin.byte hg hb).1
    change 0x01000000 ≤ _ at this ⊢
    omega
  · have := hb.user
    change 0x01000000 ≤ _ at this ⊢
    omega

theorem mem_stages {g : Stage} (hg : g ∈ se.headerStages) : g ∈ se.stages := List.mem_append_left _ hg

theorem mem_stages_stack : stackStage ∈ se.stages := List.mem_append_right _ (List.mem_singleton_self _)

theorem GoodLayout.covers {g : Stage} (hl : se.GoodLayout) (hin : se.InUserMemory) (hg : g ∈ se.headerStages)
    (hb : g.Byte va) : g.Covers va := by
  obtain ⟨-, hlen⟩ := hin.byte hg hb
  have hle := ((hin g hg).resolve_left hlen).2
  exact hb.covers (Nat.lt_of_le_of_ne hle (hl.ends g hg hlen))

theorem text_mem : se.text ∈ se.headerStages := by simp [headerStages]

theorem data_mem : se.data ∈ se.headerStages := by simp [headerStages]

theorem rodata_mem : se.rodata ∈ se.headerStages := by simp [headerStages]

theorem bss_mem : se.bss ∈ se.headerStages := by simp [headerStages]

theorem later_user (hin : se.InUserMemory) (hb : se.bss.Byte va ∨ StackByte va) : USER_MEM_START ≤ va.toNat :=
  hb.elim (fun hb => (hin.byte bss_mem hb).1) StackByte.user

section
variable (hst : Vm.Staged pd se.stages s s')
  (hfresh : ∀ va : Word, USER_MEM_START ≤ va.toNat → s.pte pd va = PAGE_TABLE_ENTRY_DEFAULT) (hin : se.InUserMemory)
include hst hfresh hin

theorem HasAccess.ends (ha : se.HasAccess pd s') :
    ∀ g ∈ se.headerStages, g.len ≠ 0#32 → g.start.toNat + g.len.toNat ≠ 2 ^ 32 := by
  intro g hg hlen hend
  have hlast : (0xffffffff#32).toNat = 0xffffffff := rfl
  have hb : g.Byte 0xffffffff#32 := by
    have hpos : 0 < g.len.toNat := Nat.pos_of_ne_zero fun h0 => hlen (BitVec.eq_of_toNat_eq h0)
    unfold Stage.Byte
    omega
  have hr := ha.present _ ⟨_, rfl, .inl ⟨g, hg, hb⟩⟩
  obtain ⟨g', hg', hc⟩ := (readable_iff hst hfresh (hin.byte hg hb).1).mp hr
  exact hst.last g' hg' hc

theorem HasAccess.goodLayout (ha : se.HasAccess pd s') : se.GoodLayout := by
  refine ⟨ha.ends hst hfresh hin, fun va hb => ?_, fun va hb => ?_, fun va hb hno hc => ?_, fun g hg va hu hc => ?_⟩
  · have hw := ha.writable va (.inl hb)
    exact ((writable_iff hst hfresh (hin.byte data_mem hb).1).mp hw).1
  · have hw := ha.writable va (.inr hb)
    obtain ⟨ht, hrest⟩ := (writable_iff hst hfresh (later_user hin hb)).mp hw
    exact ⟨ht, fun hr => hrest.resolve_right fun hc => hc.1 hr⟩
  · have hu := (hin.byte rodata_mem hb).1
    have hro := ha.readOnly va (.inr hb) hno
    by_contra ht
    have hw := (writable_iff hst hfresh hu).mpr ⟨ht, .inl hc⟩
    rw [entry_writable hst hfresh hu ⟨_, mem_stages data_mem, hc⟩, hw] at hro
    cases hro
  · by_contra hno
    have hr := (readable_iff hst hfresh hu).mpr ⟨g, mem_stages hg, hc⟩
    unfold Vm.userReadable at hr
    rw [ha.nothingElse va hu hno] at hr
    simp [bit, PAGE_TABLE_ENTRY_DEFAULT] at hr

theorem GoodLayout.present (hl : se.GoodLayout) (ht : se.Touched va) : s'.userReadable pd va = true := by
  rw [readable_iff hst hfresh (ht.user hin)]
  obtain ⟨x, hp, ⟨g, hg, hb⟩ | hb⟩ := ht
  · exact ⟨g, mem_stages hg, (hl.covers hin hg hb).same_page hp⟩
  · exact ⟨_, mem_stages_stack, hb.covers.same_page hp⟩

theorem GoodLayout.writable (hl : se.GoodLayout) (hw : se.WritableByte va) : s'.userWritable pd va = true := by
  rcases hw with hb | hb
  · rw [writable_iff hst hfresh (hin.byte data_mem hb).1]
    exact ⟨hl.data va hb, .inl (hl.covers hin data_mem hb)⟩
  · obtain ⟨ht, hr⟩ := hl.later va hb
    have hc : se.bss.Covers va ∨ stackStage.Covers va := hb.imp (hl.covers hin bss_mem) StackByte.covers
    rw [writable_iff hst hfresh (later_user hin hb)]
    by_cases hd : se.data.Covers va
    · exact ⟨ht, .inl hd⟩
    · exact ⟨ht, .inr ⟨fun h => hd (hr h), hc⟩⟩

theorem GoodLayout.readOnly (hl : se.GoodLayout) (hb : se.text.Byte va ∨ se.rodata.Byte va)
    (hno : ∀ x : Word, x.toNat / 4096 = va.toNat / 4096 → ¬ se.WritableByte x) : bit (s'.pte pd va) 1 = false := by
  rcases hb with hb | hb
  · have hu := (hin.byte text_mem hb).1
    have hc := hl.covers hin text_mem hb
    rw [entry_writable hst hfresh hu ⟨_, mem_stages text_mem, hc⟩, Bool.eq_false_iff]
    intro hw
    exact ((writable_iff hst hfresh hu).mp hw).1 hc
  · have hu := (hin.byte rodata_mem hb).1
    have hc := hl.covers hin rodata_mem hb
    rw [entry_writable hst hfresh hu ⟨_, mem_stages rodata_mem, hc⟩, Bool.eq_false_iff]
    intro hw
    obtain ⟨ht, hd | hr⟩ := (writable_iff hst hfresh hu).mp hw
    · exact ht (hl.rodata va hb hno hd)
    · exact hr.1 hc

omit hin in
theorem GoodLayout.nothingElse (hl : se.GoodLayout) (hu : USER_MEM_START ≤ va.toNat) (hno : ¬ se.Touched va) :
    s'.pte pd va = PAGE_TABLE_ENTRY_DEFAULT := by
  refine hst.none va (hfresh va hu) (Stage.firstFlags_none.mpr fun g hg hc => hno ?_)
  rcases List.mem_append.mp hg with hg | hg
  · exact hl.empty g hg va hu hc
  · rw [List.mem_singleton.mp hg] at hc
    exact touched_of_stack hc

end

theorem segments_get_access_iff (h : s.Inv) (hpd : pd ∈ s.pds) (hd : FreshDirectory s pd) (hin : se.InUserMemory)
    (hret : s.setupPageTable se pd = some (0, s')) : se.HasAccess pd s' ↔ se.GoodLayout := by
  have hst := setupPageTable_staged h hpd hret
  have hfresh : ∀ va : Word, USER_MEM_START ≤ va.toNat → s.pte pd va = PAGE_TABLE_ENTRY_DEFAULT :=
    fun va hu => hd.pte h hpd hu
  constructor
  · exact fun ha => ha.goodLayout hst hfresh hin
  · intro hl
    exact ⟨fun _ => hl.present hst hfresh hin, fun _ => hl.writable hst hfresh hin,
      fun _ => hl.readOnly hst hfresh hin, fun _ => hl.nothingElse hst hfresh⟩

end

/-! ## Programs of two segments -/

def twoSegments (txtstart txtlen datstart datlen : Word) : SimpleElf :=
  { (default : SimpleElf) with eTxtstart := txtstart, eTxtlen := txtlen, eDatstart := datstart, eDatlen := datlen }

def ByteDisjoint (se : SimpleElf) : Prop :=
  se.headerStages.Pairwise fun g g' => ∀ va, ¬ (g.Byte va ∧ g'.Byte va)

section
variable {txtstart txtlen datstart datlen va : Word} {s : Vm} {pd : Word}

theorem setup_twoSegments (txtstart txtlen datstart datlen : Word) {i j : Nat} (h : s.Inv) (hpd : pd ∈ s.pds)
    (sp : Vm.Spare (i + (j + 587)) s)
    (ht : (txtstart + txtlen).toNat ≤ (pageRoundDown txtstart).toNat + i * 4096)
    (ht' : (pageRoundDown txtstart).toNat + i * 4096 < 2 ^ 32)
    (hd : (datstart + datlen).toNat ≤ (pageRoundDown datstart).toNat + j * 4096)
    (hd' : (pageRoundDown datstart).toNat + j * 4096 < 2 ^ 32) :
    ∃ s', s.setupPageTable (twoSegments txtstart txtlen datstart datlen) pd = some (0, s') := by
  obtain ⟨s₁, h₁, sp⟩ := Vm.Spare.mapSegment txtstart txtlen sp pd Vm.TEXT_FLAGS ht ht'
  obtain ⟨s₂, h₂, sp⟩ := Vm.Spare.mapSegment datstart datlen sp pd Vm.DATA_FLAGS hd hd'
  obtain ⟨s₃, h₃, sp⟩ := Vm.Spare.mapSegment 0#32 0#32 (k := 0) (m := 587) sp pd Vm.TEXT_FLAGS (by decide) (by decide)
  obtain ⟨s₄, h₄, sp⟩ := Vm.Spare.mapSegment 0#32 0#32 (k := 0) (m := 587) sp pd Vm.DATA_FLAGS (by decide) (by decide)
  obtain ⟨s₅, h₅, -⟩ := Vm.Spare.mapSegment stackStage.start stackStage.len (k := 587) (m := 0) sp pd Vm.DATA_FLAGS
    (by decide) (by decide)
  obtain ⟨use, ho⟩ := h.owned
  refine ⟨s₅, ?_⟩
  have hstages : Vm.mapStages pd (twoSegments txtstart txtlen datstart datlen).stages s = some (0, s₅) := by
    change Vm.andThen (s.mapSegment txtstart txtlen pd Vm.TEXT_FLAGS) (Vm.mapStages pd _) = _
    rw [h₁, Vm.andThen_ok]
    change Vm.andThen (s₁.mapSegment datstart datlen pd Vm.DATA_FLAGS) (Vm.mapStages pd _) = _
    rw [h₂, Vm.andThen_ok]
    change Vm.andThen (s₂.mapSegment 0#32 0#32 pd Vm.TEXT_FLAGS) (Vm.mapStages pd _) = _
    rw [h₃, Vm.andThen_ok]
    change Vm.andThen (s₃.mapSegment 0#32 0#32 pd Vm.DATA_FLAGS) (Vm.mapStages pd _) = _
    rw [h₄, Vm.andThen_ok]
    change Vm.andThen (s₄.mapSegment stackStage.start stackStage.len pd Vm.DATA_FLAGS) (Vm.mapStages pd _) = _
    rw [h₅, Vm.andThen_ok]
    rfl
  unfold Vm.setupPageTable
  rw [if_neg (ho.pd_ne_zero hpd)]
  exact hstages

theorem exists_freshDirectory : ∃ s pd, Vm.Inv s ∧ pd ∈ s.pds ∧ FreshDirectory s pd ∧ Vm.Spare 589 s := by
  obtain ⟨s, hb, sp⟩ := Vm.exists_roomy
  cases hav : s.avail with
  | nil =>
    have := sp.pages
    simp [hav] at this
  | cons a rest =>
    have ha : s.avail.head? = some a := by simp [hav]
    have hpages := sp.pages
    refine ⟨{ s with toTables := s.toTables.newDirectory a }, a, hb.inv.newDirectory ha, Finset.mem_insert_self _ _,
      fun i hi => ?_, ?_, sp.frames.mono (by decide)⟩
    · rw [newDirectory_kmem_self]
      exact if_neg (Nat.not_lt.mpr hi)
    · show 589 ≤ s.avail.tail.length
      rw [List.length_tail]
      omega

theorem not_byte_empty {flags : Word} : ¬ (⟨flags, 0#32, 0#32⟩ : Stage).Byte va := by
  intro h
  exact Nat.not_lt_zero _ h.2

theorem not_covers_empty {flags : Word} : ¬ (⟨flags, 0#32, 0#32⟩ : Stage).Covers va := by
  intro h
  have hend : Vm.pagesEnd (0#32 + 0#32).toNat = 0 := by decide
  exact Nat.not_lt_zero va.toNat (hend ▸ h.2)

theorem inUserMemory_twoSegments (ht : USER_MEM_START ≤ txtstart.toNat ∧ txtstart.toNat + txtlen.toNat ≤ 2 ^ 32)
    (hd : datlen = 0#32 ∨ (USER_MEM_START ≤ datstart.toNat ∧ datstart.toNat + datlen.toNat ≤ 2 ^ 32)) :
    (twoSegments txtstart txtlen datstart datlen).InUserMemory := by
  unfold InUserMemory headerStages
  simp only [List.forall_mem_cons]
  exact ⟨.inr ht, hd, .inl rfl, .inl rfl, List.forall_mem_nil _⟩

theorem byteDisjoint_twoSegments (h : ∀ va, ¬ ((twoSegments txtstart txtlen datstart datlen).text.Byte va ∧
    (twoSegments txtstart txtlen datstart datlen).data.Byte va)) :
    (twoSegments txtstart txtlen datstart datlen).ByteDisjoint := by
  unfold ByteDisjoint headerStages
  simp only [List.pairwise_cons, List.forall_mem_cons, List.not_mem_nil, false_implies, implies_true, List.Pairwise.nil,
    and_true]
  exact ⟨⟨h, fun _ hb => not_byte_empty hb.2, fun _ hb => not_byte_empty hb.2⟩,
    ⟨fun _ hb => not_byte_empty hb.2, fun _ hb => not_byte_empty hb.2⟩, fun _ hb => not_byte_empty hb.2⟩

end

theorem goodLayout_two_pages : (twoSegments 0x01000000#32 16#32 0x01001000#32 16#32).GoodLayout := by
  have htext : ∀ va, (twoSegments 0x01000000#32 16#32 0x01001000#32 16#32).text.Covers va ↔
      0x01000000 ≤ va.toNat ∧ va.toNat < 0x01001000 := fun _ => .rfl
  have hdata : ∀ va, (twoSegments 0x01000000#32 16#32 0x01001000#32 16#32).data.Covers va ↔
      0x01001000 ≤ va.toNat ∧ va.toNat < 0x01002000 := fun _ => .rfl
  refine ⟨?_, fun va hb hc => ?_, fun va hb => ?_, fun va hb => absurd hb not_byte_empty, ?_⟩
  · unfold headerStages
    simp only [List.forall_mem_cons]
    exact ⟨fun _ => by decide, fun _ => by decide, fun _ => by decide, fun _ => by decide, List.forall_mem_nil _⟩
  · rw [htext] at hc
    have hlo : 0x01001000 ≤ va.toNat := hb.1
    omega
  · have hs := stackByte_iff.mp (hb.resolve_left not_byte_empty)
    refine ⟨fun hc => ?_, fun hc => absurd hc not_covers_empty⟩
    rw [htext] at hc
    omega
  · unfold headerStages
    simp only [List.forall_mem_cons]
    refine ⟨fun va _ hc => ?_, fun va _ hc => ?_, fun va _ hc => absurd hc not_covers_empty,
      fun va _ hc => absurd hc not_covers_empty, List.forall_mem_nil _⟩
    · rw [htext] at hc
      refine ⟨0x01000000#32, ?_, .inl ⟨_, text_mem, by decide, by decide⟩⟩
      change 0x01000000 / 4096 = _
      omega
    · rw [hdata] at hc
      refine ⟨0x01001000#32, ?_, .inl ⟨_, data_mem, by decide, by decide⟩⟩
      change 0x01001000 / 4096 = _
      omega

/-- Text and data on pages of their own. -/
theorem segments_get_access_two_pages : ∃ (s : Vm) (pd : Word) (s' : Vm),
    s.setupPageTable (twoSegments 0x01000000#32 16#32 0x01001000#32 16#32) pd = some (0, s') ∧
      (twoSegments 0x01000000#32 16#32 0x01001000#32 16#32).HasAccess pd s' := by
  obtain ⟨s, pd, h, hpd, hfresh, sp⟩ := exists_freshDirectory
  obtain ⟨s', hret⟩ := setup_twoSegments 0x01000000#32 16#32 0x01001000#32 16#32 (i := 1) (j := 1) h hpd sp (by decide)
    (by decide) (by decide) (by decide)
  exact ⟨s, pd, s', hret, (segments_get_access_iff h hpd hfresh
    (inUserMemory_twoSegments (by decide) (.inr (by decide))) hret).mpr goodLayout_two_pages⟩

/-- Data behind the text on one page is not writable; text that ends with the address space is not mapped. -/
theorem segments_without_access : ∃ (s : Vm) (pd : Word) (s' s'' : Vm), s.Inv ∧ pd ∈ s.pds ∧ FreshDirectory s pd ∧
    ((twoSegments 0x01000000#32 16#32 0x01000010#32 16#32).InUserMemory ∧
      (twoSegments 0x01000000#32 16#32 0x01000010#32 16#32).ByteDisjoint ∧
      s.setupPageTable (twoSegments 0x01000000#32 16#32 0x01000010#32 16#32) pd = some (0, s') ∧
      s'.userWritable pd 0x01000010#32 = false) ∧
    (twoSegments 0xfffff000#32 0x1000#32 0#32 0#32).InUserMemory ∧
    (twoSegments 0xfffff000#32 0x1000#32 0#32 0#32).ByteDisjoint ∧
    s.setupPageTable (twoSegments 0xfffff000#32 0x1000#32 0#32 0#32) pd = some (0, s'') ∧
    s''.userReadable pd 0xfffff000#32 = false := by
  obtain ⟨s, pd, h, hpd, hfresh, sp⟩ := exists_freshDirectory
  obtain ⟨s', hret⟩ := setup_twoSegments 0x01000000#32 16#32 0x01000010#32 16#32 (i := 1) (j := 1) h hpd sp (by decide)
    (by decide) (by decide) (by decide)
  obtain ⟨s'', hret'⟩ := setup_twoSegments 0xfffff000#32 0x1000#32 0#32 0#32 (i := 0) (j := 2) h hpd sp (by decide)
    (by decide) (by decide) (by decide)
  refine ⟨s, pd, s', s'', h, hpd, hfresh, ⟨inUserMemory_twoSegments (by decide) (.inr (by decide)),
    byteDisjoint_twoSegments fun va hb => ?_, hret, ?_⟩, inUserMemory_twoSegments (by decide) (.inl rfl),
    byteDisjoint_twoSegments fun va hb => not_byte_empty hb.2, hret', ?_⟩
  · have h₁ : va.toNat < 0x01000000 + 16 := hb.1.2
    have h₂ : 0x01000010 ≤ va.toNat := hb.2.1
    omega
  · rw [Bool.eq_false_iff]
    intro hw
    have hst := setupPageTable_staged h hpd hret
    exact ((writable_iff hst (fun _ hu => hfresh.pte h hpd hu) (by decide)).mp hw).1 (by decide)
  · rw [Bool.eq_false_iff]
    intro hr
    have hst := setupPageTable_staged h hpd hret'
    obtain ⟨g, hg, hc⟩ := (readable_iff hst (fun _ hu => hfresh.pte h hpd hu) (by decide)).mp hr
    exact hst.last g hg (hc.same_page (by decide))

end SimpleElf

end Pebbles
