import Pebbles.MapSound
import Pebbles.Lib.Runs

/-!
# Reference counts and the free list agree with the page tables

The operations on memory as a transition system, from the state after boot. In
every reachable state the invariant of memory holds, so each count is the
number of entries that map the frame and no assertion of the allocator fails.
-/

namespace Pebbles

open Words Sums Runs

namespace Vm

section
variable {s s' : Vm} {pd newPd : Word} {X : Finset Word}

/-! ## clone_paging_info and free_paging_info -/

theorem cloneTables_inv {is : List Index} (h : MemInv X s.toTables s.fr) (hpd : pd ∈ s.pds) (hX : pd ∈ X)
    (hnew : newPd ∈ s.pds) (hnX : newPd ∈ X) (hu : ∀ i ∈ is, KERNEL_MAP_NUM_ENTRIES ≤ i.val) (hnd : is.Nodup)
    (hD : ∀ i ∈ is, s.kmem newPd i = PAGE_DIR_ENTRY_DEFAULT) {ok : Bool}
    (hc : cloneTables pd newPd is s = (ok, s')) : MemInv X s'.toTables s'.fr := by
  induction is generalizing s with
  | nil =>
    simp only [cloneTables, Prod.mk.injEq] at hc
    exact hc.2 ▸ h
  | cons i is ih =>
    obtain ⟨hi, hnd⟩ := List.nodup_cons.mp hnd
    have hu' : ∀ k ∈ is, KERNEL_MAP_NUM_ENTRIES ≤ k.val := fun k hk => hu k (List.mem_cons_of_mem i hk)
    have hD' : ∀ k ∈ is, s.kmem newPd k = PAGE_DIR_ENTRY_DEFAULT := fun k hk => hD k (List.mem_cons_of_mem i hk)
    by_cases hp : s.kmem pd i = PAGE_DIR_ENTRY_DEFAULT
    · rw [cloneTables_absent hp] at hc
      exact ih h hpd hnew hu' hnd hD' hc
    · cases hav : s.avail with
      | nil =>
        rw [cloneTables_nomem hp hav, Prod.mk.injEq] at hc
        exact hc.2 ▸ h
      | cons a rest =>
        have ha : s.avail.head? = some a := by simp [hav]
        obtain ⟨use, ho⟩ := h.owned
        have hd := (ho.fresh (List.mem_of_mem_head? ha)).2.2.1
        obtain ⟨t, ht⟩ : ∃ t, TableAt s.toTables pd i t := ⟨_, hpd, hu i (by simp), hp, rfl⟩
        rw [cloneTables_copy ho ht ha] at hc
        refine ih (s := copyTable newPd i a t s) (h.attach_copy ha ht hX hnew hnX (hD i (by simp))) hpd hnew hu' hnd
          (fun k hk => ?_) hc
        show (s.toTables.attach newPd i a (s.kmem t)).kmem newPd k = _
        rw [attach_kmem_of_ne (ne_of_mem_of_not_mem hnew hd) fun e => ne_of_mem_of_not_mem hk hi e.2]
        exact hD' k hk

theorem freePagingInfo_inv (h : MemInv X s.toTables s.fr) (hpd : pd ∈ s.pds) :
    MemInv X (freePagingInfo pd s).toTables (freePagingInfo pd s).fr := by
  obtain ⟨use, ho⟩ := h.owned
  rw [freePagingInfo_eq ho hpd]
  exact h.freeDirectory hpd

theorem clonePagingInfo_inv (h : s.Inv) (hpd : pd ∈ s.pds) {o : Option Word} (hc : clonePagingInfo pd s = (o, s')) :
    s'.Inv := by
  obtain ⟨use, ho⟩ := h.owned
  cases hav : s.avail with
  | nil =>
    rw [clonePagingInfo_nil hav, Prod.mk.injEq] at hc
    exact hc.2 ▸ h
  | cons a rest =>
    have ha : s.avail.head? = some a := by simp [hav]
    have ham := List.mem_of_mem_head? ha
    have hd := (ho.fresh ham).2.2.1
    have hc' := hc
    rw [clonePagingInfo_eq (ho.pd_ne_zero hpd) ha] at hc
    -- both directories are under cloning while the loop runs
    have hloop : ∀ {ok s₁}, cloneTables pd a userIndices (s.withDirectory a) = (ok, s₁) →
        MemInv {pd, a} s₁.toTables s₁.fr := fun hc₁ =>
      cloneTables_inv (s := s.withDirectory a) ((h.newDirectory ha).mono (Finset.empty_subset _))
        (Finset.mem_insert_of_mem hpd) (by simp) (Finset.mem_insert_self a s.pds) (by simp)
        (fun i hi => mem_userIndices.mp hi) userIndices_nodup (fun i hi => by
          show (s.toTables.newDirectory a).kmem a i = _
          rw [newDirectory_kmem_self, if_neg (Nat.not_lt.mpr (mem_userIndices.mp hi))]) hc₁
    split at hc
    · rename_i s₁ hc₁
      rw [Prod.mk.injEq] at hc
      obtain ⟨rfl, rfl⟩ := hc
      -- the copies are gone again, so the tables are those from before
      obtain ⟨-, hext, -, -, hback⟩ := clonePagingInfo_none ho hpd hc'
      obtain ⟨-, hext₁, -, -, -, -⟩ := cloneTables_start ho hpd ha hc₁
      have ha₁ : a ∈ s₁.pds := by
        rw [hext₁.pds]
        exact Finset.mem_insert_self a s.pds
      have hfree := freePagingInfo_inv (hloop hc₁) ha₁
      have hrefs := hext.refs hback
      refine ⟨hfree.owned, hfree.kernel, hfree.agree, hfree.entries, fun ht _ hne hrw => ?_⟩
      have ht₀ := hback ht
      rw [(hext.tables ht₀).2] at hne hrw ⊢
      rw [hrefs]
      exact h.sole ht₀ (by simp) hne hrw
    · rename_i s₁ hc₁
      obtain ⟨⟨use₁, ho₁⟩, hext₁, -, -, -, -⟩ := cloneTables_start ho hpd ha hc₁
      have hpds : s₁.pds = insert a s.pds := hext₁.pds
      have hpd₁ : pd ∈ s₁.pds := hpds ▸ Finset.mem_insert_of_mem hpd
      have ha₁ : a ∈ s₁.pds := hpds ▸ Finset.mem_insert_self a s.pds
      have ha₂ : a ∈ (s₁.toTables.cowDirectory pd userIndices).pds := by rwa [cowDirectory_pds]
      rw [makePagesCow_eq ho₁ hpd₁, makePagesCow_eq
        (s := { s₁ with toTables := s₁.toTables.cowDirectory pd userIndices })
        (ho₁.cowDirectory hpd₁) ha₂, Prod.mk.injEq] at hc
      obtain ⟨-, rfl⟩ := hc
      have hinv : MemInv (insert a ∅) (s₁.toTables.cowDirectory pd userIndices) s₁.fr :=
        MemInv.cowDirectory (hloop hc₁) hpd₁
      exact hinv.cowDirectory ha₂

theorem createPageDirectory_inv (h : s.Inv) {o : Option Word} (hc : s.createPageDirectory = (o, s')) : s'.Inv := by
  cases hav : s.avail with
  | nil =>
    rw [createPageDirectory_nil hav, Prod.mk.injEq] at hc
    exact hc.2 ▸ h
  | cons a rest =>
    have ha : s.avail.head? = some a := by simp [hav]
    rw [createPageDirectory_cons ha, Prod.mk.injEq] at hc
    obtain ⟨-, rfl⟩ := hc
    exact h.newDirectory ha

end

/-! ## Boot -/

/-- The state before `vm_init`: no directory, page 0 reads as an empty table and
the kernel heap can hand out the pages in `avail`. -/
structure Boot (s : Vm) : Prop where
  pds : s.pds = ∅
  zero : ∀ j, s.kmem 0#32 j = PAGE_TABLE_ENTRY_DEFAULT
  nodup : s.avail.Nodup
  avail : ∀ a ∈ s.avail, Aligned a ∧ a ≠ 0#32

structure Booting (k : Nat) (use : Word → PageUse) (s : Vm) : Prop where
  aligned : ∀ p, use p ≠ .reserved → Aligned p
  zero : use 0#32 = .reserved
  avail_nodup : s.avail.Nodup
  avail : ∀ a ∈ s.avail, use a = .free
  noDir : ∀ p, use p ≠ .directory
  direct : ∀ i : Index, i.val < k → use (s.directMap i) = .direct i
  pds : s.pds = ∅
  kzero : ∀ j, s.kmem 0#32 j = PAGE_TABLE_ENTRY_DEFAULT
  kdirect : ∀ i j : Index, i.val < k → s.kmem (s.directMap i) j = directEntry i j

theorem setupDirectTable_nil {s : Vm} (i : Index) (h : s.avail = []) :
    (setupDirectTable i s).fr.panicked = true := by
  unfold setupDirectTable createPageTable smemalign
  rw [h]
  rfl

theorem setupDirectTable_cons {s : Vm} (i : Index) {a : Word} {rest : List Word} (h : s.avail = a :: rest) :
    setupDirectTable i s = { s with
      kmem := fun p => if p = a then directEntry i else s.kmem p
      directMap := Function.update s.directMap i a
      avail := rest } := by
  unfold setupDirectTable createPageTable smemalign
  rw [h]
  simp only [setPage, Tables.setPage, Vm.mk.injEq, Tables.mk.injEq, and_true]
  funext p
  split <;> simp_all

theorem setupDirectTable_panicked {s : Vm} (i : Index) (h : s.fr.panicked = true) :
    (setupDirectTable i s).fr.panicked = true := by
  cases hav : s.avail with
  | nil => exact setupDirectTable_nil i hav
  | cons a rest => rw [setupDirectTable_cons i hav]; exact h

theorem Booting.step {k : Nat} {use : Word → PageUse} {s : Vm} (h : Booting k use s) {i : Index} (hi : i.val = k)
    {a : Word} {rest : List Word} (hav : s.avail = a :: rest) :
    Booting (k + 1) (Function.update use a (.direct i)) (setupDirectTable i s) := by
  have hfree : use a = .free := h.avail a (by simp [hav])
  have hnd := h.avail_nodup
  rw [hav, List.nodup_cons] at hnd
  have hu : ∀ p, p ≠ a → Function.update use a (.direct i) p = use p := fun p hp => Function.update_of_ne hp ..
  have h0 : 0#32 ≠ a := by
    rintro rfl
    rw [h.zero] at hfree
    cases hfree
  have hold : ∀ i' : Index, i'.val < k → s.directMap i' ≠ a := fun i' hi' he => by
    have := h.direct i' hi'
    rw [he, hfree] at this
    cases this
  rw [setupDirectTable_cons i hav]
  refine ⟨fun p hp => ?_, ?_, hnd.2, fun b hb => ?_, fun p => ?_, fun i' hi' => ?_, h.pds, fun j => ?_, fun i' j hi' =>
    ?_⟩
  · by_cases e : p = a
    · exact e ▸ h.aligned a (by rw [hfree]; simp)
    · rw [hu p e] at hp
      exact h.aligned p hp
  · rw [hu _ h0]
    exact h.zero
  · rw [hu b (ne_of_mem_of_not_mem hb hnd.1)]
    exact h.avail b (by rw [hav]; exact List.mem_cons_of_mem a hb)
  · by_cases e : p = a
    · rw [e, Function.update_self]
      simp
    · rw [hu p e]
      exact h.noDir p
  · show Function.update use a _ (Function.update s.directMap i a i') = _
    by_cases e : i' = i
    · rw [e, Function.update_self, Function.update_self]
    · have hlt : i'.val < k := by have := Fin.val_ne_of_ne e; omega
      rw [Function.update_of_ne e, hu _ (hold i' hlt)]
      exact h.direct i' hlt
  · show (if 0#32 = a then directEntry i else s.kmem 0#32) j = _
    rw [if_neg h0]
    exact h.kzero j
  · show (if Function.update s.directMap i a i' = a then directEntry i
      else s.kmem (Function.update s.directMap i a i')) j = _
    by_cases e : i' = i
    · rw [e, Function.update_self, if_pos rfl]
    · have hlt : i'.val < k := by have := Fin.val_ne_of_ne e; omega
      rw [Function.update_of_ne e, if_neg (hold i' hlt)]
      exact h.kdirect i' j hlt

/-- A state after `vm_init` and `init_frame_allocator` on a machine with `n`
user frames. -/
def Booted (s : Vm) : Prop :=
  ∃ n s₀, 0 < n ∧ USER_MEM_START + n * PAGE_SIZE ≤ 2 ^ 32 ∧ Boot s₀ ∧ s = vmInit n s₀ ∧ s.fr.panicked = false

theorem setupDirectTable_fr {s : Vm} {i : Index} (h : (setupDirectTable i s).fr.panicked = false) :
    (setupDirectTable i s).fr = s.fr := by
  cases hav : s.avail with
  | nil => simp [setupDirectTable_nil i hav] at h
  | cons a rest => rw [setupDirectTable_cons i hav]

theorem Booting.rounds {k : Nat} {use : Word → PageUse} {s : Vm} (h : Booting k use s) {i : Index} (hi : i.val = k)
    (hp : (setupDirectTable i s).fr.panicked = false) : ∃ use', Booting (k + 1) use' (setupDirectTable i s) := by
  cases hav : s.avail with
  | nil => simp [setupDirectTable_nil i hav] at hp
  | cons a rest => exact ⟨_, h.step hi hav⟩

theorem not_panicked_of_next {s : Vm} (i : Index) (h : (setupDirectTable i s).fr.panicked = false) :
    s.fr.panicked = false := by
  by_contra hp
  rw [setupDirectTable_panicked i (by simpa using hp)] at h
  cases h

theorem setupDirectMap_fr {s : Vm} (h : (setupDirectMap s).fr.panicked = false) : (setupDirectMap s).fr = s.fr := by
  have p₃ := not_panicked_of_next 3 h
  have p₂ := not_panicked_of_next 2 p₃
  have p₁ := not_panicked_of_next 1 p₂
  calc (setupDirectMap s).fr
      = _ := setupDirectTable_fr h
    _ = _ := setupDirectTable_fr p₃
    _ = _ := setupDirectTable_fr p₂
    _ = s.fr := setupDirectTable_fr p₁

theorem Booting.inv {use : Word → PageUse} {s : Vm} (h : Booting 4 use s) {n : Nat} (hn : 0 < n)
    (hfit : USER_MEM_START + n * PAGE_SIZE ≤ 2 ^ 32) (hfr : s.fr = initFreeList n) : s.Inv := by
  have hpds : ∀ pd, pd ∉ s.pds := by simp [h.pds]
  refine ⟨⟨use, h.aligned, h.zero, h.avail_nodup, h.avail, fun pd => ?_, h.direct, fun pd hpd => absurd hpd (hpds pd),
    fun pd hpd => absurd hpd (hpds pd)⟩, ⟨h.kzero, h.kdirect⟩, ?_, fun ht => absurd ht.live (hpds _),
    fun ht => absurd ht.live (hpds _)⟩
  · simp [hpds pd, h.noDir pd]
  · rw [hfr]
    refine (agree_initFreeList hn hfit).congr fun f => ?_
    simp [refs, h.pds]

theorem setupDirectMap_inv {n : Nat} {s : Vm} (hn : 0 < n) (hfit : USER_MEM_START + n * PAGE_SIZE ≤ 2 ^ 32)
    (hb : Boot s) (hfr : s.fr = initFreeList n) (hp : (setupDirectMap s).fr.panicked = false) :
    (setupDirectMap s).Inv := by
  have h₀ : Booting 0 (fun p => if p ∈ s.avail then .free else .reserved) s := by
    refine ⟨fun p hp => ?_, ?_, hb.nodup, fun a ha => if_pos ha, fun p => ?_, fun i hi => absurd hi (by omega), hb.pds,
      hb.zero, fun i j hi => absurd hi (by omega)⟩
    · by_contra hal
      exact hp (if_neg fun hm => hal (hb.avail p hm).1)
    · exact if_neg fun hm => (hb.avail _ hm).2 rfl
    · split <;> simp
  have p₃ := not_panicked_of_next 3 hp
  have p₂ := not_panicked_of_next 2 p₃
  have p₁ := not_panicked_of_next 1 p₂
  obtain ⟨_, h₁⟩ := h₀.rounds (i := 0) rfl p₁
  obtain ⟨_, h₂⟩ := h₁.rounds (i := 1) rfl p₂
  obtain ⟨_, h₃⟩ := h₂.rounds (i := 2) rfl p₃
  obtain ⟨_, h₄⟩ := h₃.rounds (i := 3) rfl hp
  exact h₄.inv hn hfit ((setupDirectMap_fr hp).trans hfr)

theorem Booted.inv {s : Vm} (h : Booted s) : s.Inv := by
  obtain ⟨n, s₀, hn, hfit, hb, rfl, hp⟩ := h
  unfold vmInit setupKernelPd at hp ⊢
  cases hav : (setupDirectMap { s₀ with fr := initFreeList n }).avail with
  | nil =>
    rw [createPageDirectory_nil hav] at hp
    simp [panic, withFrames] at hp
  | cons a rest =>
    have ha : (setupDirectMap { s₀ with fr := initFreeList n }).avail.head? = some a := by simp [hav]
    rw [createPageDirectory_cons ha] at hp ⊢
    exact (setupDirectMap_inv (s := { s₀ with fr := initFreeList n }) hn hfit ⟨hb.pds, hb.zero, hb.nodup, hb.avail⟩
      rfl hp).newDirectory ha

theorem vmInit_fr {n : Nat} {s : Vm} (h : (vmInit n s).fr.panicked = false) : (vmInit n s).fr = initFreeList n := by
  unfold vmInit setupKernelPd at h ⊢
  cases hav : (setupDirectMap { s with fr := initFreeList n }).avail with
  | nil =>
    rw [createPageDirectory_nil hav] at h
    simp [panic, withFrames] at h
  | cons a rest =>
    have ha : (setupDirectMap { s with fr := initFreeList n }).avail.head? = some a := by simp [hav]
    rw [createPageDirectory_cons ha] at h ⊢
    exact setupDirectMap_fr h

/-! ## Runs -/

/-- What the rest of the kernel does between two calls: it takes and gives back
pages of the kernel heap and writes its own, but no directory, no table, no
page of the direct map and not page 0. -/
structure HeapStep (s s' : Vm) : Prop where
  pds : s'.pds = s.pds
  cr3 : s'.cr3 = s.cr3
  fr : s'.fr = s.fr
  umem : s'.umem = s.umem
  directMap : s'.directMap = s.directMap
  zero : s'.kmem 0#32 = s.kmem 0#32
  direct : ∀ i : Index, i.val < KERNEL_MAP_NUM_ENTRIES → s'.kmem (s.directMap i) = s.kmem (s.directMap i)
  dirs : ∀ pd ∈ s.pds, s'.kmem pd = s.kmem pd
  tables : ∀ {pd i t}, TableAt s.toTables pd i t → s'.kmem t = s.kmem t
  nodup : s'.avail.Nodup
  avail : ∀ a ∈ s'.avail, Aligned a ∧ a ≠ 0#32 ∧ a ∉ s.pds ∧
    (∀ i : Index, i.val < KERNEL_MAP_NUM_ENTRIES → s.directMap i ≠ a) ∧ ∀ pd i, ¬ TableAt s.toTables pd i a

/-- The calls a kernel makes on memory, on live directories and on user ranges
that do not wrap, together with user stores. -/
inductive MemStep : Vm → Vm → Prop
  | heap {s s'} : HeapStep s s' → MemStep s s'
  | setCurPd {s pd} : pd ∈ s.pds → MemStep s (s.setCurPd pd)
  | createPageDirectory {s o s'} : s.createPageDirectory = (o, s') → MemStep s s'
  | mapSegment {s start length pd flags r s'} : pd ∈ s.pds → MapFlags flags → USER_MEM_START ≤ start.toNat →
      start.toNat + length.toNat < 2 ^ 32 → mapSegment start length pd flags s = some (r, s') → MemStep s s'
  | mapNewPages {s base length r s'} : s.cr3 ∈ s.pds → USER_MEM_START ≤ base.toNat → 0 < length.toNat →
      base.toNat + length.toNat < 2 ^ 32 → mapNewPages base length s = some (r, s') → MemStep s s'
  | unmapNewPages {s base r s'} : s.cr3 ∈ s.pds → USER_MEM_START ≤ base.toNat →
      unmapNewPages base s = some (r, s') → MemStep s s'
  | clonePagingInfo {s pd o s'} : pd ∈ s.pds → clonePagingInfo pd s = (o, s') → MemStep s s'
  | handleCow {s addr r s'} : s.cr3 ∈ s.pds → USER_MEM_START ≤ addr.toNat → bit (s.pte s.cr3 addr) 0 = true →
      bit (s.pte s.cr3 addr) 1 = false → handleCow addr s = (r, s') → MemStep s s'
  | freePagingInfo {s pd} : pd ∈ s.pds → MemStep s (freePagingInfo pd s)
  | userStore {s va b e s'} : s.cr3 ∈ s.pds → userStore va b s = (e, s') → MemStep s s'

section
variable {s s' : Vm}

theorem HeapStep.tableAt (h : HeapStep s s') {pd t : Word} {i : Index} :
    TableAt s'.toTables pd i t ↔ TableAt s.toTables pd i t := by
  constructor
  · intro ht
    have hl : pd ∈ s.pds := h.pds ▸ ht.live
    have hk := h.dirs pd hl
    exact ⟨hl, ht.user, hk ▸ ht.present, hk ▸ ht.addr⟩
  · intro ht
    have hk := h.dirs pd ht.live
    exact ⟨h.pds ▸ ht.live, ht.user, hk.symm ▸ ht.present, hk.symm ▸ ht.addr⟩

theorem HeapStep.extends (h : HeapStep s s') : Extends s.toTables s'.toTables :=
  ⟨h.pds, h.directMap, h.zero, h.direct, fun ht => ⟨h.tableAt.mpr ht, h.tables ht⟩⟩

theorem HeapStep.owned (h : HeapStep s s') {use : Word → PageUse} (ho : Owned use s.toTables) :
    ∃ use', Owned use' s'.toTables := by
  let use' : Word → PageUse := fun p =>
    if p ∈ s'.avail then .free else match use p with
      | .free => .reserved
      | u => u
  have hkeep : ∀ p, use p ≠ .free → p ∉ s'.avail → use' p = use p := fun p hf ha => by
    simp only [use', if_neg ha]
  refine ⟨use', fun p hp => ?_, ?_, h.nodup, fun a ha => if_pos ha, fun pd => ?_, fun i hi => ?_, fun pd hpd i hi => ?_,
    fun pd hpd i hi hne => ?_⟩
  · by_cases ha : p ∈ s'.avail
    · exact (h.avail p ha).1
    · refine ho.aligned p fun hr => hp ?_
      rw [hkeep p (by simp [hr]) ha, hr]
  · rw [hkeep _ (by simp [ho.zero]) fun ha => (h.avail _ ha).2.1 rfl]
    exact ho.zero
  · rw [h.pds]
    by_cases ha : pd ∈ s'.avail
    · have : use' pd = .free := if_pos ha
      simp [this, (h.avail pd ha).2.2.1]
    · rw [ho.dirs]
      simp only [use', if_neg ha]
      split <;> simp_all
  · rw [h.directMap, hkeep _ (by simp [ho.direct i hi]) fun ha => (h.avail _ ha).2.2.2.1 i hi rfl]
    exact ho.direct i hi
  · rw [h.pds] at hpd
    rw [h.dirs pd hpd, h.directMap]
    exact ho.kernel pd hpd i hi
  · rw [h.pds] at hpd
    rw [h.dirs pd hpd] at hne ⊢
    have ht : TableAt s.toTables pd i _ := ⟨hpd, hi, hne, rfl⟩
    have hu := ho.use_table ht
    rw [hkeep _ (by simp [hu]) fun ha => (h.avail _ ha).2.2.2.2 pd i ht]
    exact ⟨hu, (ho.tables pd hpd i hi hne).2⟩

theorem HeapStep.inv (h : HeapStep s s') (hs : s.Inv) : s'.Inv := by
  obtain ⟨use, ho⟩ := hs.owned
  have he := h.extends
  have hrefs := he.refs fun ht => h.tableAt.mp ht
  refine ⟨h.owned ho, hs.kernel.congr he.directMap he.zero he.direct, by rw [hrefs, h.fr]; exact hs.agree,
    fun ht hne => ?_, fun ht hX hne hrw => ?_⟩
  · have ht₀ := h.tableAt.mp ht
    rw [h.tables ht₀] at hne ⊢
    exact hs.entries ht₀ hne
  · have ht₀ := h.tableAt.mp ht
    rw [h.tables ht₀] at hne hrw ⊢
    rw [hrefs]
    exact hs.sole ht₀ hX hne hrw

theorem user_index {va : Word} (h : USER_MEM_START ≤ va.toNat) : KERNEL_MAP_NUM_ENTRIES ≤ (getPdIndex va).val :=
  Nat.le_of_not_lt fun hk => Nat.not_lt.mpr h ((kernel_index_iff va).mp hk)

theorem isAddrCow_true {addr : Word} (h : isAddrCow addr s = true) :
    USER_MEM_START ≤ addr.toNat ∧ bit (s.pte s.cr3 addr) 0 = true ∧ bit (s.pte s.cr3 addr) 1 = false := by
  unfold isAddrCow at h
  split at h
  · cases h
  · rename_i hlt
    simp only [Bool.and_eq_true, decide_eq_true_eq, Bool.not_eq_true', decide_eq_false_iff_not, bit_write_mask,
      bit_present_mask] at h
    exact ⟨Nat.not_lt.mp hlt, h.2, by simpa using h.1.2⟩

theorem isAddrCow_of {addr : Word} (hu : USER_MEM_START ≤ addr.toNat) (hp : bit (s.pte s.cr3 addr) 0 = true)
    (hw : bit (s.pte s.cr3 addr) 1 = false) : isAddrCow addr s = true := by
  have hor : s.pte s.cr3 addr ||| COW_MODE ≠ 0#32 := by
    intro hz
    have : bit (s.pte s.cr3 addr ||| COW_MODE) 9 = false := by rw [hz]; decide
    rw [Words.bit_or, show bit COW_MODE 9 = true by decide, Bool.or_true] at this
    cases this
  have hp' := (bit_present_mask _).mpr hp
  have hw' : ¬ (s.pte s.cr3 addr &&& READ_WRITE_ENABLE ≠ 0#32) := by
    rw [bit_write_mask, hw]
    simp
  unfold isAddrCow
  rw [if_neg (Nat.not_lt.mpr hu)]
  simp [hor, hp', not_not.mp hw']

theorem putByte_inv (h : s.Inv) (va : Word) (b : Byte) : (s.putByte va b).Inv := h

theorem pageFaultHandlerC_inv (h : s.Inv) (hpd : s.cr3 ∈ s.pds) {addr : Word} {e : FaultEnd}
    (hf : pageFaultHandlerC addr s = (e, s')) : s'.Inv := by
  unfold pageFaultHandlerC at hf
  split at hf
  · rename_i hc
    obtain ⟨hu, hp, -⟩ := isAddrCow_true hc
    cases hh : handleCow addr s with
    | mk r s₁ =>
      have h₁ := (handleCow_spec h hpd (user_index hu) hp hh).1
      rw [hh] at hf
      dsimp only at hf
      split at hf <;> rw [Prod.mk.injEq] at hf <;> exact hf.2 ▸ h₁
  · rw [Prod.mk.injEq] at hf
    exact hf.2 ▸ h

theorem userStore_inv (h : s.Inv) (hpd : s.cr3 ∈ s.pds) {va : Word} {b : Byte} {e : FaultEnd}
    (hf : userStore va b s = (e, s')) : s'.Inv := by
  unfold userStore at hf
  split at hf
  · rw [Prod.mk.injEq] at hf
    exact hf.2 ▸ putByte_inv h va b
  · cases hh : pageFaultHandlerC va s with
    | mk e₁ s₁ =>
      have h₁ := pageFaultHandlerC_inv h hpd hh
      rw [hh] at hf
      cases e₁ with
      | resume =>
        simp only [Prod.mk.injEq] at hf
        rw [← hf.2]
        split
        · exact putByte_inv h₁ va b
        · exact h₁
      | killCurrentThread =>
        simp only [Prod.mk.injEq] at hf
        exact hf.2 ▸ h₁
      | handleFault =>
        simp only [Prod.mk.injEq] at hf
        exact hf.2 ▸ h₁

theorem MemStep.inv (hs : MemStep s s') (h : s.Inv) : s'.Inv := by
  cases hs with
  | heap hh => exact hh.inv h
  | setCurPd hpd => exact h
  | createPageDirectory hc => exact createPageDirectory_inv h hc
  | mapSegment hpd hf _ _ hm => exact (mapSegment_inv h hpd hf hm).1
  | mapNewPages hpd hb hl hfit hm => exact (mapNewPages_spec h hpd hb hl hfit hm).1
  | unmapNewPages hpd _ hm => exact (unmapNewPages_inv h hpd hm).1
  | clonePagingInfo hpd hc => exact clonePagingInfo_inv h hpd hc
  | handleCow hpd hu hp _ hc => exact (handleCow_spec h hpd (user_index hu) hp hc).1
  | freePagingInfo hpd => exact freePagingInfo_inv h hpd
  | userStore hpd hf => exact userStore_inv h hpd hf

theorem reach_inv (h : Reach Booted MemStep s) : s.Inv :=
  h.invariant (fun _ hb => hb.inv) fun _ _ hi hs => hs.inv hi

/-- In every state that a sequence of calls on memory can reach, the count of a
user frame is the number of entries that map it in the user tables of all live
directories, it is on the free list exactly when there is none, and no
assertion has failed. -/
theorem counts_agree_with_tables (h : Reach Booted MemStep s) :
    (∀ f, IsFrame s.fr f → s.fr.frameRefCount (frameIndex f) = refs s.toTables f ∧
      (OnFreeList s.fr f ↔ refs s.toTables f = 0)) ∧
    s.fr.panicked = false :=
  have hi := reach_inv h
  ⟨fun _ hf => ⟨hi.agree.counts _ hf, hi.agree.onFreeList_iff hf⟩, hi.agree.calm⟩

def smallBoot : Vm where
  kmem _ _ := PAGE_TABLE_ENTRY_DEFAULT
  directMap _ := 0#32
  pds := ∅
  avail := [0x1000#32, 0x2000#32, 0x3000#32, 0x4000#32, 0x5000#32, 0x6000#32, 0x7000#32, 0x8000#32,
    0x9000#32]
  cr3 := 0#32
  fr := initFreeList 0
  umem _ _ := 0#8

theorem smallBoot_boot : Boot smallBoot := by
  have hav : smallBoot.avail.all (fun a => decide (Aligned a ∧ a ≠ 0#32)) = true := by decide +kernel
  exact ⟨rfl, fun _ => rfl, by decide +kernel, fun a ha => of_decide_eq_true (List.all_eq_true.mp hav a ha)⟩

theorem smallBoot_booted : Booted (vmInit 2 smallBoot) :=
  ⟨2, smallBoot, by decide, by decide, smallBoot_boot, rfl, by decide +kernel⟩

def mappedVm : Vm := ((mapSegment 0x01000000#32 1#32 0x5000#32 DATA_FLAGS (vmInit 2 smallBoot)).getD (0, smallBoot)).2

theorem mappedVm_eq : ∃ r, mapSegment 0x01000000#32 1#32 0x5000#32 DATA_FLAGS (vmInit 2 smallBoot) = some (r,
    mappedVm) := by
  have hm : (mapSegment 0x01000000#32 1#32 0x5000#32 DATA_FLAGS (vmInit 2 smallBoot)).isSome = true := by decide +kernel
  obtain ⟨⟨r, s⟩, hm⟩ := Option.isSome_iff_exists.mp hm
  exact ⟨r, by rw [mappedVm, hm]; rfl⟩

theorem mappedVm_reach : Reach Booted MemStep mappedVm := by
  obtain ⟨r, hm⟩ := mappedVm_eq
  exact (Reach.start smallBoot_booted).tail (.mapSegment (by decide +kernel) mapFlags_data (by decide) (by decide) hm)

theorem counts_agree_with_tables_mapped :
    (∀ f, IsFrame mappedVm.fr f → mappedVm.fr.frameRefCount (frameIndex f) = refs mappedVm.toTables f ∧
      (OnFreeList mappedVm.fr f ↔ refs mappedVm.toTables f = 0)) ∧
    mappedVm.fr.panicked = false :=
  counts_agree_with_tables mappedVm_reach

end

end Vm

end Pebbles
