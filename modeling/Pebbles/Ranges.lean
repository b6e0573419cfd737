import Pebbles.Access
import Pebbles.RefCount

/-!
# The scan of a user range

`is_memory_range_mapped` looks for a mapped page from the page of the first byte to the page
of the byte after the last one. `is_pointer_valid` takes its answer for one about all pages.
-/

namespace Pebbles

namespace Vm

open Words

def PageMapped (s : Vm) (va : Word) : Prop :=
  s.kmem s.cr3 (getPdIndex va) ≠ PAGE_DIR_ENTRY_DEFAULT ∧ s.pte s.cr3 va ≠ PAGE_TABLE_ENTRY_DEFAULT

def KernelMapped (s : Vm) : Prop := ∀ va : Word, va.toNat < USER_MEM_START → s.PageMapped va

section
variable {s : Vm} {va p e : Word} {n : Nat}

theorem mapped_iff_round : s.PageMapped (pageRoundDown va) ↔ s.PageMapped va := by
  unfold PageMapped
  rw [pte_round, getPdIndex_round]

theorem mapped_of_page (h : s.PageMapped p) (hp : va.toNat / 4096 = p.toNat / 4096) : s.PageMapped va := by
  have hround : pageRoundDown va = pageRoundDown p := by
    apply BitVec.eq_of_toNat_eq
    rw [pageRoundDown, pageRoundDown, toNat_base, toNat_base, hp]
  rw [← mapped_iff_round, hround]
  exact mapped_iff_round.mpr h

theorem Inv.kernelMapped (h : s.Inv) (hpd : s.cr3 ∈ s.pds) : s.KernelMapped := by
  intro va hva
  have hk := (kernel_index_iff va).mpr hva
  obtain ⟨use, ho⟩ := h.owned
  refine ⟨fun hD => ?_, ?_⟩
  · exact absurd (ho.user_of_default hpd hD) (Nat.not_le.mpr hk)
  · rw [pte_eq_entry, h.kernel_entry hpd hk]
    exact directEntry_ne_default _ _

/-! ## The scan -/

theorem scanRange_mapped (hle : va.toNat ≤ e.toNat) (hm : s.PageMapped va) :
    scanRange e s n va = some MEMORY_REGION_MAPPED := by
  cases n <;> rw [scanRange, if_pos hle] <;> exact if_pos hm

theorem scanRange_done (hlt : e.toNat < va.toNat) : scanRange e s n va = some MEMORY_REGION_UNMAPPED := by
  cases n <;> rw [scanRange, if_neg (Nat.not_le.mpr hlt)]

theorem scanRange_next (hle : va.toNat ≤ e.toNat) (hm : ¬ s.PageMapped va) :
    scanRange e s (n + 1) va = scanRange e s n (va + BitVec.ofNat 32 PAGE_SIZE) := by
  rw [scanRange, if_pos hle]
  exact if_neg hm

theorem next_page (va : Word) : (va + BitVec.ofNat 32 PAGE_SIZE).toNat = va.toNat + 4096 ∨
    2 ^ 32 ≤ va.toNat + 4096 ∧ (va + BitVec.ofNat 32 PAGE_SIZE).toNat < 4096 := by
  have hva := va.isLt
  have hnext : (va + BitVec.ofNat 32 PAGE_SIZE).toNat = (va.toNat + 4096) % 2 ^ 32 := by
    rw [BitVec.toNat_add]
    rfl
  omega

theorem low_of_page (h : va.toNat < 4096) : va.toNat < USER_MEM_START :=
  Nat.lt_trans h (by decide)

theorem scanRange_eq (hk : s.KernelMapped) (hal : Aligned va) (hle : va.toNat ≤ e.toNat)
    (hn : 2 ^ 20 ≤ n + va.toNat / 4096) :
    scanRange e s n va = some MEMORY_REGION_MAPPED ∧
        (0xfffff000 ≤ e.toNat ∨ ∃ p, Aligned p ∧ va.toNat ≤ p.toNat ∧ p.toNat ≤ e.toNat ∧ s.PageMapped p) ∨
      scanRange e s n va = some MEMORY_REGION_UNMAPPED ∧ e.toNat < 0xfffff000 ∧
        ∀ p, Aligned p → va.toNat ≤ p.toNat → p.toNat ≤ e.toNat → ¬ s.PageMapped p := by
  induction n generalizing va with
  | zero =>
    have := va.isLt
    omega
  | succ n ih =>
    by_cases hm : s.PageMapped va
    · exact Or.inl ⟨scanRange_mapped hle hm, Or.inr ⟨va, hal, Nat.le_refl _, hle, hm⟩⟩
    rw [scanRange_next hle hm]
    rw [aligned_iff] at hal
    have hlt := va.isLt
    rcases next_page va with hnext | ⟨hwrap, hlow⟩
    case inr => exact Or.inl ⟨scanRange_mapped (by omega) (hk _ (low_of_page hlow)), Or.inl (by omega)⟩
    -- no page lies between this one and the next
    have hstep : ∀ p, Aligned p → va.toNat ≤ p.toNat → p = va ∨ (va + BitVec.ofNat 32 PAGE_SIZE).toNat ≤ p.toNat := by
      intro p hp h₁
      rw [aligned_iff] at hp
      by_cases hpv : p.toNat = va.toNat
      · exact Or.inl (BitVec.eq_of_toNat_eq hpv)
      · right
        omega
    by_cases hend : e.toNat < va.toNat + 4096
    · refine Or.inr ⟨scanRange_done (by omega), by omega, fun p hp h₁ h₂ => ?_⟩
      rcases hstep p hp h₁ with rfl | h₃
      · exact hm
      · omega
    have hal' : Aligned (va + BitVec.ofNat 32 PAGE_SIZE) := by
      rw [aligned_iff, hnext]
      omega
    refine (ih hal' (by omega) (by omega)).imp (fun h => ⟨h.1, ?_⟩) (fun h => ⟨h.1, h.2.1, fun p hp h₁ h₂ => ?_⟩)
    · exact h.2.imp_right fun ⟨p, hp, h₁, h₂⟩ => ⟨p, hp, by omega, h₂⟩
    · rcases hstep p hp h₁ with rfl | h₃
      · exact hm
      · exact h.2.2 p hp h₃ h₂

variable {len : Word}

theorem toNat_of_pos (hl : 0 < len.toInt) : 0 < len.toNat ∧ len.toNat < 2 ^ 31 := by
  rw [BitVec.toInt_eq_toNat_cond] at hl
  have := len.isLt
  split at hl <;> omega

theorem isMemoryRangeMapped_eq (hk : s.KernelMapped) (hu : USER_MEM_START ≤ va.toNat) (hl : 0 < len.toInt) :
    isMemoryRangeMapped va len s = some MEMORY_REGION_MAPPED ∧ va.toNat + len.toNat < 2 ^ 32 ∧
        (0xfffff000 ≤ va.toNat + len.toNat ∨
          ∃ p : Word, va.toNat ≤ p.toNat ∧ p.toNat ≤ va.toNat + len.toNat ∧ s.PageMapped p) ∨
      isMemoryRangeMapped va len s = some MEMORY_REGION_UNMAPPED ∧ (2 ^ 32 ≤ va.toNat + len.toNat ∨
        va.toNat + len.toNat < 0xfffff000 ∧
          ∀ p : Word, va.toNat ≤ p.toNat → p.toNat ≤ va.toNat + len.toNat → ¬ s.PageMapped p) := by
  obtain ⟨hpos, hsmall⟩ := toNat_of_pos hl
  change 0x01000000 ≤ _ at hu
  have hva := va.isLt
  have hargs : ¬ (va = 0#32 ∨ va.toNat > MAX_MEMORY_ADDR ∨ len.toInt ≤ 0 ∨ len.toNat > MAX_AVAILABLE_USER_MEM) := by
    change ¬ (va = 0#32 ∨ va.toNat > 0xffffffff ∨ len.toInt ≤ 0 ∨ len.toNat > 0xfeffffff)
    rintro (rfl | h | h | h)
    · exact absurd hu (by decide)
    all_goals omega
  have heq : isMemoryRangeMapped va len s = scanRange (va + len) s addressPages (pageRoundDown va) := by
    unfold isMemoryRangeMapped
    rw [if_neg hargs]
    exact if_neg (Nat.not_lt.mpr hu)
  have hround : (pageRoundDown va).toNat = va.toNat / 4096 * 4096 := toNat_base va
  rw [heq]
  by_cases hfit : va.toNat + len.toNat < 2 ^ 32
  · have hend : (va + len).toNat = va.toNat + len.toNat := by
      rw [BitVec.toNat_add, Nat.mod_eq_of_lt hfit]
    have hscan := scanRange_eq (e := va + len) (n := addressPages) hk (aligned_base va) (by rw [toNat_base]; omega)
      (by unfold addressPages; omega)
    rw [hend] at hscan
    rcases hscan with ⟨hres, hany⟩ | ⟨hres, hlast, hnone⟩
    · refine Or.inl ⟨hres, hfit, hany.imp_right ?_⟩
      rintro ⟨p, hp, h₁, h₂, hm⟩
      rw [aligned_iff] at hp
      rw [toNat_base] at h₁
      by_cases hpv : va.toNat ≤ p.toNat
      · exact ⟨p, hpv, h₂, hm⟩
      · exact ⟨va, Nat.le_refl _, by omega, mapped_of_page hm (by omega)⟩
    · refine Or.inr ⟨hres, Or.inr ⟨hlast, fun p h₁ h₂ hp => ?_⟩⟩
      refine hnone (pageRoundDown p) (aligned_base p) ?_ ?_ (mapped_iff_round.mpr hp)
      · rw [pageRoundDown, toNat_base, toNat_base]
        omega
      · rw [pageRoundDown, toNat_base]
        omega
  · have hend : (va + len).toNat = va.toNat + len.toNat - 2 ^ 32 := by
      rw [BitVec.toNat_add]
      omega
    exact Or.inr ⟨scanRange_done (by omega), Or.inl (Nat.le_of_not_lt hfit)⟩

/-! ## is_pointer_valid -/

variable {ptr bytes : Word}

structure RangeMapped (s : Vm) (ptr bytes : Word) : Prop where
  user : USER_MEM_START ≤ ptr.toNat
  fits : ptr.toNat + bytes.toNat ≤ 2 ^ 32
  pages : ∀ va : Word, ptr.toNat ≤ va.toNat → va.toNat < ptr.toNat + bytes.toNat → s.PageMapped va

theorem isPointerValid_iff (hk : s.KernelMapped) (hb : 0 < bytes.toInt) : s.isPointerValid ptr bytes = some 0 ↔
    USER_MEM_START ≤ ptr.toNat ∧ ptr.toNat + bytes.toNat < 2 ^ 32 ∧ (0xfffff000 ≤ ptr.toNat + bytes.toNat ∨
      ∃ p : Word, ptr.toNat ≤ p.toNat ∧ p.toNat ≤ ptr.toNat + bytes.toNat ∧ s.PageMapped p) := by
  unfold isPointerValid
  by_cases hu : ptr.toNat < USER_MEM_START
  · rw [if_pos hu]
    exact iff_of_false (by decide) fun h => absurd h.1 (Nat.not_le.mpr hu)
  rw [if_neg hu]
  have hu := Nat.le_of_not_lt hu
  rcases isMemoryRangeMapped_eq hk hu hb with ⟨heq, hfit, hany⟩ | ⟨heq, hnone⟩
  · rw [heq]
    exact iff_of_true rfl ⟨hu, hfit, hany⟩
  · rw [heq]
    refine iff_of_false (by decide) ?_
    rintro ⟨-, hfit, hany⟩
    rcases hnone with hwrap | ⟨hlast, hnone⟩
    · omega
    · rcases hany with hany | ⟨p, h₁, h₂, hp⟩
      · omega
      · exact hnone p h₁ h₂ hp

/-- Where the answer about some page is one about all pages: all pages of the range are
mapped, or none is, nor that of the byte after the range. -/
def AllOrNone (s : Vm) (ptr bytes : Word) : Prop :=
  USER_MEM_START ≤ ptr.toNat → ptr.toNat + bytes.toNat ≤ 2 ^ 32 →
    (ptr.toNat + bytes.toNat < 2 ^ 32 ∧ s.RangeMapped ptr bytes) ∨
    (ptr.toNat + bytes.toNat = 2 ^ 32 ∧ ¬ s.RangeMapped ptr bytes) ∨
    (ptr.toNat + bytes.toNat < 0xfffff000 ∧
      ∀ p : Word, ptr.toNat ≤ p.toNat → p.toNat ≤ ptr.toNat + bytes.toNat → ¬ s.PageMapped p)

/-- Stated for the address spaces that have the kernel in them. -/
theorem pointer_valid_exact_iff (hk : s.KernelMapped) (hb : 0 < bytes.toInt) :
    (s.isPointerValid ptr bytes = some 0 ↔ s.RangeMapped ptr bytes) ↔ s.AllOrNone ptr bytes := by
  obtain ⟨hpos, -⟩ := toNat_of_pos hb
  have hptr := ptr.isLt
  rw [isPointerValid_iff hk hb]
  constructor
  · intro h hu hfit
    by_cases hr : s.RangeMapped ptr bytes
    · exact Or.inl ⟨(h.mpr hr).2.1, hr⟩
    · by_cases htop : ptr.toNat + bytes.toNat = 2 ^ 32
      · exact Or.inr (Or.inl ⟨htop, hr⟩)
      · have hno := mt h.mp hr
        have hlt : ptr.toNat + bytes.toNat < 2 ^ 32 := by omega
        refine Or.inr (Or.inr ⟨?_, fun p h₁ h₂ hp => hno ⟨hu, hlt, Or.inr ⟨p, h₁, h₂, hp⟩⟩⟩)
        exact Nat.lt_of_not_le fun hlast => hno ⟨hu, hlt, Or.inl hlast⟩
  · intro h
    constructor
    · rintro ⟨hu, hlt, hany⟩
      rcases h hu hlt.le with ⟨-, hr⟩ | ⟨htop, -⟩ | ⟨hlast, hnone⟩
      · exact hr
      · omega
      · rcases hany with hany | ⟨p, h₁, h₂, hp⟩
        · omega
        · exact absurd hp (hnone p h₁ h₂)
    · intro hr
      rcases h hr.user hr.fits with ⟨hlt, -⟩ | ⟨-, hnot⟩ | ⟨hlast, hnone⟩
      · exact ⟨hr.user, hlt, Or.inr ⟨ptr, Nat.le_refl _, by omega, hr.pages ptr (Nat.le_refl _) (by omega)⟩⟩
      · exact absurd hr hnot
      · exact absurd (hr.pages ptr (Nat.le_refl _) (by omega)) (hnone ptr (Nat.le_refl _) (by omega))

instance (s : Vm) (va : Word) : Decidable (s.PageMapped va) := inferInstanceAs (Decidable (_ ∧ _))

theorem mappedVm_kernelMapped : mappedVm.KernelMapped := Inv.kernelMapped (reach_inv mappedVm_reach) (by decide +kernel)

theorem pointer_valid_exact_mapped :
    mappedVm.isPointerValid 0x01000000#32 4#32 = some 0 ↔ mappedVm.RangeMapped 0x01000000#32 4#32 := by
  refine (pointer_valid_exact_iff mappedVm_kernelMapped (by decide)).mpr fun hu hfit => ?_
  refine Or.inl ⟨by decide, hu, hfit, fun va h₁ h₂ => ?_⟩
  change 0x01000000 ≤ va.toNat at h₁
  change va.toNat < 0x01000004 at h₂
  have hm : mappedVm.PageMapped 0x01000000#32 := by decide +kernel
  refine mapped_of_page hm ?_
  show va.toNat / 4096 = 0x01000000 / 4096
  omega

/-- Four bytes over the end of the only page are accepted. -/
theorem pointer_valid_straddling :
    mappedVm.isPointerValid 0x01000ffe#32 4#32 = some 0 ∧ ¬ mappedVm.RangeMapped 0x01000ffe#32 4#32 := by
  refine ⟨by decide +kernel, fun h => ?_⟩
  exact absurd (h.pages 0x01001000#32 (by decide) (by decide)) (by decide +kernel)

end

end Vm

end Pebbles
