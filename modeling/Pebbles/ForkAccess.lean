import Pebbles.Cow

/-!
# What the kernel accepts as writable, before and after fork

`is_memory_writable` looks at `READ_WRITE_ENABLE` only. A fork takes it away from
every page that has it and puts the copy-on-write mark in its place, which user
code does not notice: its next store is let through by `handle_cow`.
-/

namespace Pebbles

open Words

namespace Vm

def Storable (va : Word) (s : Vm) : Prop :=
  bit (s.pte s.cr3 va) 0 = true ∧ (bit (s.pte s.cr3 va) 1 = true ∨ bit (s.pte s.cr3 va) 9 = true)

/-- `is_memory_writable` is right about `va`, and a fork does not change its
answer, neither for the parent nor for the child. -/
structure AcceptsStorable (va : Word) (s : Vm) : Prop where
  exact : s.isMemoryWritable va = 0 ↔ s.Storable va
  fork : ∀ newPd s', clonePagingInfo s.cr3 s = (some newPd, s') →
    s'.isMemoryWritable va = s.isMemoryWritable va ∧ (s'.setCurPd newPd).isMemoryWritable va = s.isMemoryWritable va

def userTables (pd : Word) (s : Vm) : Nat := userIndices.countP fun i => s.kmem pd i ≠ PAGE_DIR_ENTRY_DEFAULT

def RoomToFork (s : Vm) : Prop := s.userTables s.cr3 < s.avail.length

/-! ## When a clone succeeds -/

section
variable {use : Word → PageUse} {pd newPd va : Word} {s s' : Vm}

theorem cloneTables_ok {l : List Index} (h : Owned use s.toTables) (hpd : pd ∈ s.pds) (hnew : newPd ∈ s.pds)
    (hu : ∀ i ∈ l, KERNEL_MAP_NUM_ENTRIES ≤ i.val) (hp : newPd ≠ pd) :
    (cloneTables pd newPd l s).1 = true ↔ l.countP (fun i =>
      s.kmem pd i ≠ PAGE_DIR_ENTRY_DEFAULT) ≤ s.avail.length := by
  induction l generalizing use s with
  | nil => simp [cloneTables]
  | cons i l ih =>
    have hu' : ∀ k ∈ l, KERNEL_MAP_NUM_ENTRIES ≤ k.val := fun k hk => hu k (List.mem_cons_of_mem i hk)
    by_cases hD : s.kmem pd i = PAGE_DIR_ENTRY_DEFAULT
    · rw [cloneTables_absent hD, ih h hpd hnew hu', List.countP_cons_of_neg (by simpa using hD)]
    · rw [List.countP_cons_of_pos (by simpa using hD)]
      cases hav : s.avail with
      | nil =>
        rw [cloneTables_nomem hD hav]
        simp
      | cons a rest =>
        have ha : s.avail.head? = some a := by simp [hav]
        obtain ⟨-, -, hd, -, -⟩ := h.fresh (List.mem_of_mem_head? ha)
        have ht : TableAt s.toTables pd i (getAddrFromEntry (s.kmem pd i)) := ⟨hpd, hu i (by simp), hD, rfl⟩
        have ho : Owned _ (copyTable newPd i a (getAddrFromEntry (s.kmem pd i)) s).toTables := h.attach ha hnew ht.user
        -- the copy is attached to the other directory
        have hsame : ∀ k, (copyTable newPd i a (getAddrFromEntry (s.kmem pd i)) s).kmem pd k = s.kmem pd k := fun k =>
          attach_kmem_of_ne (ne_of_mem_of_not_mem hpd hd) fun e => hp e.1.symm
        have hrest : (copyTable newPd i a (getAddrFromEntry (s.kmem pd i)) s).avail = rest := congrArg List.tail hav
        rw [cloneTables_copy h ht ha, ih ho hpd hnew hu', hrest, List.length_cons]
        simp only [hsame]
        omega

theorem clonePagingInfo_succeeds (h : Owned use s.toTables) (hpd : pd ∈ s.pds) :
    (∃ newPd s', clonePagingInfo pd s = (some newPd, s')) ↔ s.userTables pd < s.avail.length := by
  cases hav : s.avail with
  | nil => simp [clonePagingInfo_nil hav]
  | cons a rest =>
    have ha : s.avail.head? = some a := by simp [hav]
    obtain ⟨-, -, hd, -, -⟩ := h.fresh (List.mem_of_mem_head? ha)
    have hpa : pd ≠ a := ne_of_mem_of_not_mem hpd hd
    have hok := cloneTables_ok (s := s.withDirectory a) (l := userIndices) (h.newDirectory ha)
      (Finset.mem_insert_of_mem hpd)
      (Finset.mem_insert_self a s.pds) (fun i hi => mem_userIndices.mp hi) hpa.symm
    have hsame : (s.withDirectory a).kmem pd = s.kmem pd := newDirectory_kmem_of_ne hpa
    have hrest : (s.withDirectory a).avail = rest := congrArg List.tail hav
    rw [hsame, hrest, ← userTables] at hok
    rw [List.length_cons, Nat.lt_succ_iff, ← hok, clonePagingInfo_eq (h.pd_ne_zero hpd) ha]
    cases hc : cloneTables pd a userIndices (s.withDirectory a) with
    | mk ok s₁ => cases ok <;> simp

/-! ## The answer -/

theorem cowEntry_not_writable {e : Word} (hp : bit (cowEntry e) 0 = true) : bit (cowEntry e) 1 = false := by
  have hne : e ≠ PAGE_TABLE_ENTRY_DEFAULT := by
    rw [bit_cowEntry_zero] at hp
    exact ne_default_of_present hp
  rw [bit_cowEntry hne (by decide)]
  rfl

theorem isMemoryWritable_iff (h : s.Inv) (hpd : s.cr3 ∈ s.pds) (hu : USER_MEM_START ≤ va.toNat) :
    s.isMemoryWritable va = 0 ↔ bit (s.pte s.cr3 va) 0 = true ∧ bit (s.pte s.cr3 va) 1 = true := by
  constructor
  · intro hw
    unfold isMemoryWritable at hw
    split at hw
    · rename_i hc
      have ht := h.kernel.tableAt hpd (user_index hu) (j := getPtIndex va) hc.2.1
      exact ⟨(h.entries ht hc.2.1).1, (bit_write_mask _).mp hc.2.2⟩
    · exact absurd hw (by decide)
  · rintro ⟨hp, hb⟩
    have hne := ne_default_of_present hp
    exact if_pos ⟨fun hD => hne (h.kernel.entry_absent hD _), hne, (bit_write_mask _).mpr hb⟩

theorem isMemoryWritable_of_ne (h : s.isMemoryWritable va ≠ 0) : s.isMemoryWritable va = ERR_INVAL := by
  unfold isMemoryWritable at h ⊢
  split
  · rename_i hc
    exact absurd (if_pos hc) h
  · rfl

theorem clonePagingInfo_refuses (h : s.Inv) (hpd : s.cr3 ∈ s.pds) (hu : USER_MEM_START ≤ va.toNat)
    (hc : clonePagingInfo s.cr3 s = (some newPd, s')) :
    s'.isMemoryWritable va = ERR_INVAL ∧ (s'.setCurPd newPd).isMemoryWritable va = ERR_INVAL := by
  obtain ⟨use, ho⟩ := h.owned
  obtain ⟨-, hf, hcr, -⟩ := clonePagingInfo_some ho hpd hc
  have h' := clonePagingInfo_inv h hpd hc
  have hparent : s.cr3 ∈ s'.pds := hf.pds ▸ Finset.mem_insert_of_mem hpd
  have hchild : newPd ∈ s'.pds := hf.pds ▸ Finset.mem_insert_self _ _
  have hcow : ∀ pd ∈ s'.pds, (∀ t, TableAt s'.toTables pd (getPdIndex va) t →
      ∃ c : Index → Word, s'.kmem t = fun j => cowEntry (c j)) →
      ¬ (bit (s'.pte pd va) 0 = true ∧ bit (s'.pte pd va) 1 = true) := by
    rintro pd hpd' htab ⟨hp, hb⟩
    have ht := h'.kernel.tableAt hpd' (user_index hu) (j := getPtIndex va) (ne_default_of_present hp)
    obtain ⟨c, hc⟩ := htab _ ht
    rw [pte_eq_entry, ht.entry, hc] at hp hb
    rw [cowEntry_not_writable hp] at hb
    cases hb
  constructor
  · refine isMemoryWritable_of_ne fun hw => ?_
    rw [isMemoryWritable_iff h' (hcr ▸ hparent) hu, hcr] at hw
    refine hcow s.cr3 hparent (fun t ht => ?_) hw
    rcases hf.back ht with ht₀ | ⟨e, -⟩
    · exact ⟨_, (hf.own ht₀).2⟩
    · exact absurd (e ▸ hpd) hf.fresh
  · refine isMemoryWritable_of_ne fun hw => ?_
    refine hcow newPd hchild (fun t ht => ?_) ((isMemoryWritable_iff (s := s'.setCurPd newPd) h' hchild hu).mp hw)
    rcases hf.back ht with ht₀ | ⟨-, t₀, -, he⟩
    · exact absurd ht₀.live hf.fresh
    · exact ⟨_, he⟩

theorem clonePagingInfo_storable (h : s.Inv) (hpd : s.cr3 ∈ s.pds) (hu : USER_MEM_START ≤ va.toNat)
    (hc : clonePagingInfo s.cr3 s = (some newPd, s')) (hst : s.Storable va) : s'.Storable va := by
  obtain ⟨use, ho⟩ := h.owned
  obtain ⟨-, hf, hcr, -⟩ := clonePagingInfo_some ho hpd hc
  have hne := ne_default_of_present hst.1
  have ht := h.kernel.tableAt hpd (user_index hu) (j := getPtIndex va) hne
  obtain ⟨ht', he⟩ := hf.own ht
  have hpte : s'.pte s'.cr3 va = cowEntry (s.pte s.cr3 va) := by
    rw [hcr, pte_eq_entry, pte_eq_entry, ht'.entry, ht.entry, he]
  unfold Storable
  rw [hpte, bit_cowEntry_zero, bit_cowEntry hne (by decide), bit_cowEntry hne (by decide)]
  refine ⟨hst.1, Or.inr ?_⟩
  rcases hst.2 with hw | hcow
  · simp [hw]
  · simp [hcow]

/-- The answer is right and outlives a fork only for a page that user code cannot
write at all, or when it is writable and no fork can succeed. -/
theorem writable_accepted_iff (h : s.Inv) (hpd : s.cr3 ∈ s.pds) (hu : USER_MEM_START ≤ va.toNat) :
    s.AcceptsStorable va ↔ ¬ s.Storable va ∨ (bit (s.pte s.cr3 va) 1 = true ∧ ¬ s.RoomToFork) := by
  obtain ⟨use, ho⟩ := h.owned
  have hwrite := isMemoryWritable_iff h hpd hu
  constructor
  · intro hacc
    by_cases hst : s.Storable va
    · have hw := hacc.exact.mpr hst
      refine Or.inr ⟨(hwrite.mp hw).2, fun hroom => ?_⟩
      obtain ⟨newPd, s', hc⟩ := (clonePagingInfo_succeeds ho hpd).mpr hroom
      have hsame := (hacc.fork newPd s' hc).1
      rw [(clonePagingInfo_refuses h hpd hu hc).1, hw] at hsame
      exact absurd hsame (by decide)
    · exact Or.inl hst
  · intro hcond
    by_cases hst : s.Storable va
    · obtain ⟨hw, hroom⟩ := hcond.resolve_left (not_not_intro hst)
      refine ⟨iff_of_true (hwrite.mpr ⟨hst.1, hw⟩) hst, fun newPd s' hc => ?_⟩
      exact absurd ((clonePagingInfo_succeeds ho hpd).mp ⟨newPd, s', hc⟩) hroom
    · have hno : s.isMemoryWritable va ≠ 0 := fun hw => hst ⟨(hwrite.mp hw).1, Or.inl (hwrite.mp hw).2⟩
      refine ⟨iff_of_false hno hst, fun newPd s' hc => ?_⟩
      rw [isMemoryWritable_of_ne hno]
      exact clonePagingInfo_refuses h hpd hu hc

end

instance (va : Word) (s : Vm) : Decidable (s.Storable va) := inferInstanceAs (Decidable (_ ∧ _))

theorem writable_accepted_unmapped : ¬ mappedVm.Storable 0x02000000#32 ∧ mappedVm.AcceptsStorable 0x02000000#32 := by
  have hst : ¬ mappedVm.Storable 0x02000000#32 := by decide +kernel
  exact ⟨hst, (writable_accepted_iff (reach_inv mappedVm_reach) (by decide +kernel) (by decide)).mpr (Or.inl hst)⟩

/-- A page that was accepted is refused after the fork, although user code can
still write it. -/
theorem writable_refused_after_fork : Runs.Reach Booted MemStep mappedVm ∧ mappedVm.isMemoryWritable 0x01000000#32 = 0 ∧
    ∃ s', clonePagingInfo mappedVm.cr3 mappedVm = (some 0x7000#32, s') ∧ s'.isMemoryWritable 0x01000000#32 = ERR_INVAL ∧
      s'.Storable 0x01000000#32 := by
  have hclone : clonePagingInfo mappedVm.cr3 mappedVm = (some 0x7000#32, (clonePagingInfo mappedVm.cr3 mappedVm).2) :=
    Prod.ext (by decide +kernel) rfl
  have hi := reach_inv mappedVm_reach
  have hpd : mappedVm.cr3 ∈ mappedVm.pds := by decide +kernel
  exact ⟨mappedVm_reach, by decide +kernel, _, hclone, (clonePagingInfo_refuses hi hpd (by decide) hclone).1,
    clonePagingInfo_storable hi hpd (by decide) hclone (by decide +kernel)⟩

end Vm

end Pebbles
