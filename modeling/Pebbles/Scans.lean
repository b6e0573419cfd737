import Pebbles.Fetches

/-!
# Loops over pages that come to an end

`is_memory_range_mapped` and `unmap_new_pages` go from page to page with
addresses that wrap. Nothing bounds them but the direct map: its pages are mapped
and carry no marks, so both loops stop there, and the second one clears only
words that are marked, whatever the user entries of the directory lead to.
-/

namespace Pebbles

namespace Vm

open Words

/-- A directory as `create_page_directory` leaves it, with any user entries and any
user tables. An absent entry leads to page 0, which is read as if it had no marks. -/
structure Directed (pd : Word) (s : Vm) : Prop where
  aligned : ∀ i : Index, i.val < KERNEL_MAP_NUM_ENTRIES → Aligned (s.directMap i)
  kernel : ∀ i : Index, i.val < KERNEL_MAP_NUM_ENTRIES →
    s.kmem pd i = s.directMap i ||| (PAGE_ENTRY_PRESENT ||| READ_WRITE_ENABLE)
  direct : ∀ i j : Index, i.val < KERNEL_MAP_NUM_ENTRIES → s.kmem (s.directMap i) j = directEntry i j
  absent : ∀ j, getNewpageFlags (s.kmem 0#32 j) = 0#32

section
variable {s : Vm} {pd va e : Word} {n : Nat}

theorem Inv.directed (h : s.Inv) (hpd : pd ∈ s.pds) : Directed pd s := by
  obtain ⟨use, ho⟩ := h.owned
  refine ⟨fun i hi => ?_, ho.kernel pd hpd, h.kernel.direct, fun j => ?_⟩
  · apply ho.aligned
    simp [ho.direct i hi]
  · rw [h.kernel.zero]
    decide

theorem Directed.pte_kernel (h : Directed pd s) (hva : va.toNat < USER_MEM_START) :
    s.pte pd va = directEntry (getPdIndex va) (getPtIndex va) := by
  have hk := (kernel_index_iff va).mpr hva
  have ha : s.ptAddr pd va = s.directMap (getPdIndex va) := by
    show getAddrFromEntry (s.kmem pd (getPdIndex va)) = _
    rw [h.kernel _ hk]
    exact base_or (h.aligned _ hk) (by decide)
  rw [← h.direct _ _ hk, ← ha]
  rfl

theorem Directed.kernelMapped (h : Directed s.cr3 s) : s.KernelMapped := by
  intro va hva
  have hk := (kernel_index_iff va).mpr hva
  refine ⟨?_, ?_⟩
  · rw [h.kernel _ hk]
    apply ne_default_of_present
    rw [bit_or]
    have : bit (PAGE_ENTRY_PRESENT ||| READ_WRITE_ENABLE) 0 = true := by decide
    simp [this]
  · rw [h.pte_kernel hva]
    exact directEntry_ne_default _ _

theorem Directed.not_follows (h : Directed pd s) (hva : va.toNat < USER_MEM_START) : ¬ Follows pd s va := by
  intro hf
  apply hf.marked
  rw [h.pte_kernel hva]
  exact directEntry_flags _ _

theorem Directed.unmapPage (h : Directed pd s) (hne : getNewpageFlags (s.pte pd va) ≠ 0#32) :
    Directed pd (unmapPage pd va s) := by
  have hkeep : ∀ p j, getNewpageFlags (s.kmem p j) = 0#32 → (Vm.unmapPage pd va s).kmem p j = s.kmem p j := by
    intro p j hz
    refine if_neg fun e => hne ?_
    rw [← hz, e.1, e.2]
    rfl
  have hdir : ∀ i : Index, i.val < KERNEL_MAP_NUM_ENTRIES → getNewpageFlags (s.kmem pd i) = 0#32 := by
    intro i hi
    rw [h.kernel i hi, getNewpageFlags_or (h.aligned i hi)]
    decide
  refine ⟨h.aligned, fun i hi => ?_, fun i j hi => ?_, fun j => ?_⟩
  · rw [hkeep pd i (hdir i hi)]
    exact h.kernel i hi
  · have hz : getNewpageFlags (s.kmem (s.directMap i) j) = 0#32 := by
      rw [h.direct i j hi]
      exact directEntry_flags i j
    exact (hkeep _ j hz).trans (h.direct i j hi)
  · rw [hkeep _ j (h.absent j)]
    exact h.absent j

/-! ## The loops -/

theorem scanRange_ends (hk : s.KernelMapped) (hn : addressPages ≤ n + va.toNat / 4096) :
    ∃ r, scanRange e s n va = some r := by
  unfold addressPages at hn
  induction n generalizing va with
  | zero =>
    have := va.isLt
    omega
  | succ n ih =>
    by_cases hle : va.toNat ≤ e.toNat
    · by_cases hm : s.PageMapped va
      · exact ⟨_, scanRange_mapped hle hm⟩
      rw [scanRange_next hle hm]
      cases next_page va with
      | inl hnext => exact ih (by omega)
      | inr hwrap =>
        -- the end is above the last page, so the kernel's first page is looked at
        exact ⟨_, scanRange_mapped (by omega) (hk _ (low_of_page hwrap.2))⟩
    · exact ⟨_, scanRange_done (Nat.lt_of_not_le hle)⟩

theorem isMemoryRangeMapped_ends (hk : s.KernelMapped) (base len : Word) :
    ∃ r, isMemoryRangeMapped base len s = some r := by
  unfold isMemoryRangeMapped
  split_ifs
  · exact ⟨_, rfl⟩
  · exact ⟨_, rfl⟩
  · exact scanRange_ends hk (Nat.le_add_right _ _)

theorem unmapPages_done (hf : ¬ Follows pd s va) : unmapPages pd n va s = some s := by
  cases n <;> rw [unmapPages] <;> exact if_neg hf

theorem unmapPages_next (hf : Follows pd s va) :
    unmapPages pd (n + 1) va s = unmapPages pd n (va + BitVec.ofNat 32 PAGE_SIZE) (unmapPage pd va s) := by
  rw [unmapPages]
  exact if_pos hf

theorem unmapPages_ends (h : Directed pd s) (hn : addressPages ≤ n + va.toNat / 4096) :
    ∃ s', unmapPages pd n va s = some s' := by
  unfold addressPages at hn
  induction n generalizing va s with
  | zero =>
    have := va.isLt
    omega
  | succ n ih =>
    by_cases hf : Follows pd s va
    · have h' := h.unmapPage hf.marked
      rw [unmapPages_next hf]
      cases next_page va with
      | inl hnext => exact ih h' (by omega)
      | inr hwrap => exact ⟨_, unmapPages_done (h'.not_follows (low_of_page hwrap.2))⟩
    · exact ⟨s, unmapPages_done hf⟩

/-- Both loops end after at most as many rounds as there are pages, from every
address, and with them the functions. -/
theorem page_scans_end (h : Directed s.cr3 s) (base len : Word) :
    (∃ r, isMemoryRangeMapped base len s = some r) ∧ (∃ r s', unmapNewPages base s = some (r, s')) ∧
      ∀ rounds, addressPages ≤ rounds → ∀ va endAddr : Word,
        (∃ r, scanRange endAddr s rounds va = some r) ∧ ∃ s', unmapPages s.cr3 rounds va s = some s' := by
  refine ⟨isMemoryRangeMapped_ends h.kernelMapped base len, ?_, fun rounds hr va endAddr => ⟨?_, ?_⟩⟩
  · unfold unmapNewPages
    dsimp only
    split
    · exact ⟨_, _, rfl⟩
    · rename_i hstart
      have hmark : getNewpageFlags (s.pte s.cr3 base) ≠ 0#32 := by
        rw [not_not.mp hstart]
        decide
      obtain ⟨s', hs'⟩ : ∃ s', unmapPages s.cr3 addressPages (base + BitVec.ofNat 32 PAGE_SIZE) _ = some s' :=
        unmapPages_ends (h.unmapPage hmark) (Nat.le_add_right _ _)
      rw [hs']
      exact ⟨_, _, rfl⟩
  · exact scanRange_ends h.kernelMapped (Nat.le_trans hr (Nat.le_add_right _ _))
  · exact unmapPages_ends h (Nat.le_trans hr (Nat.le_add_right _ _))

theorem page_scans_end_top :
    Directed mappedVm.cr3 mappedVm ∧ ∃ r, isMemoryRangeMapped 0xfffff000#32 0xfff#32 mappedVm = some r := by
  have h : Directed mappedVm.cr3 mappedVm := (reach_inv mappedVm_reach).directed (by decide +kernel)
  exact ⟨h, (page_scans_end h 0xfffff000#32 0xfff#32).1⟩

end

end Vm

end Pebbles
