import Pebbles.VmSound

/-!
# The invariant of memory

Counts and free list agree with the tables, every entry of a user table is the
default entry or maps a present user page, and a writable entry is the only
reference to its frame. Each edit of the tables keeps the invariant.
-/

namespace Pebbles

open Words Sums

structure MemInv (X : Finset Word) (tb : Tables) (fr : Frames) : Prop where
  owned : ∃ use, Owned use tb
  kernel : KernelPages tb
  agree : Agree fr (refs tb)
  entries : ∀ {pd i t j}, TableAt tb pd i t → tb.kmem t j ≠ PAGE_TABLE_ENTRY_DEFAULT →
    bit (tb.kmem t j) 0 = true ∧ bit (tb.kmem t j) 2 = true
  sole : ∀ {pd i t j}, TableAt tb pd i t → pd ∉ X → tb.kmem t j ≠ PAGE_TABLE_ENTRY_DEFAULT →
    bit (tb.kmem t j) 1 = true → refs tb (base (tb.kmem t j)) = 1

section
variable {X : Finset Word} {tb tb' : Tables} {fr fr' : Frames}

theorem MemInv.mono {Y : Finset Word} (h : MemInv X tb fr) (hXY : X ⊆ Y) : MemInv Y tb fr :=
  ⟨h.owned, h.kernel, h.agree, h.entries, fun ht hY => h.sole ht fun hX => hY (hXY hX)⟩

/-! ## Entries seen from a directory -/

def Tables.entry (tb : Tables) (pd : Word) (i j : Index) : Word := tb.kmem (getAddrFromEntry (tb.kmem pd i)) j

theorem pte_eq_entry (tb : Tables) (pd va : Word) : tb.pte pd va = tb.entry pd (getPdIndex va) (getPtIndex va) := rfl

theorem TableAt.entry {pd t : Word} {i : Index} (ht : TableAt tb pd i t) (j : Index) :
    tb.entry pd i j = tb.kmem t j := by
  unfold Tables.entry
  rw [ht.addr]

theorem KernelPages.entry_absent (hk : KernelPages tb) {pd : Word} {i : Index}
    (hD : tb.kmem pd i = PAGE_DIR_ENTRY_DEFAULT) (j : Index) : tb.entry pd i j = PAGE_TABLE_ENTRY_DEFAULT := by
  unfold Tables.entry
  rw [hD]
  exact hk.zero j

theorem KernelPages.tableAt (hk : KernelPages tb) {pd : Word} {i j : Index} (hpd : pd ∈ tb.pds)
    (hi : KERNEL_MAP_NUM_ENTRIES ≤ i.val) (hne : tb.entry pd i j ≠ PAGE_TABLE_ENTRY_DEFAULT) :
    TableAt tb pd i (getAddrFromEntry (tb.kmem pd i)) :=
  ⟨hpd, hi, fun hD => hne (hk.entry_absent hD j), rfl⟩

theorem MemInv.kernel_entry (h : MemInv X tb fr) {pd : Word} (hpd : pd ∈ tb.pds) {i : Index}
    (hi : i.val < KERNEL_MAP_NUM_ENTRIES) (j : Index) : tb.entry pd i j = directEntry i j := by
  obtain ⟨use, ho⟩ := h.owned
  unfold Tables.entry
  rw [ho.kernel_addr hpd hi]
  exact h.kernel.direct i j hi

theorem MemInv.isFrame (h : MemInv X tb fr) {pd t : Word} {i j : Index} (ht : TableAt tb pd i t)
    (hne : tb.kmem t j ≠ PAGE_TABLE_ENTRY_DEFAULT) : IsFrame fr (base (tb.kmem t j)) :=
  h.agree.frames _ (refs_pos ht hne)

/-! ## One word of a table -/

theorem KernelPages.setWord (hk : KernelPages tb) {use : Word → PageUse} (ho : Owned use tb) {pd t : Word} {i : Index}
    (ht : TableAt tb pd i t) (j : Index) (w : Word) : KernelPages (tb.setWord t j w) := by
  refine ⟨fun k => ?_, fun i' k hi' => ?_⟩
  · rw [setWord_other (ho.table_ne_zero ht).symm]
    exact hk.zero k
  · have hne : tb.directMap i' ≠ t := by
      rintro rfl
      have := ho.use_table ht
      rw [ho.direct i' hi'] at this
      cases this
    show (tb.setWord t j w).kmem (tb.directMap i') k = _
    rw [setWord_other hne]
    exact hk.direct i' k hi'

theorem Owned.entry_setWord {use : Word → PageUse} (ho : Owned use tb) {pd t : Word} {i : Index}
    (ht : TableAt tb pd i t)
    (j : Index) (w : Word) {pd' : Word} (hpd' : pd' ∈ tb.pds) (i' j' : Index) :
    (tb.setWord t j w).entry pd' i' j' = if pd' = pd ∧ i' = i ∧ j' = j then w else tb.entry pd' i' j' := by
  have hdir := ho.table_not_dir ht
  unfold Tables.entry
  rw [setWord_other (ne_of_mem_of_not_mem hpd' hdir), setWord_kmem]
  by_cases hm : pd' = pd ∧ i' = i
  · obtain ⟨rfl, rfl⟩ := hm
    simp [ht.addr]
  · have hne : getAddrFromEntry (tb.kmem pd' i') ≠ t := by
      intro he
      rcases pde_cases tb hpd' i' with ⟨t', ht'⟩ | hk | hD
      · rw [ht'.addr] at he
        subst he
        exact hm (ho.table_inj ht ht')
      · have := ho.use_table ht
        rw [← he, ho.kernel_addr hpd' hk, ho.direct _ hk] at this
        cases this
      · rw [hD] at he
        exact ho.table_ne_zero ht (he ▸ by decide)
    rw [if_neg fun e => hne e.1, if_neg fun e => hm ⟨e.1, e.2.1⟩]

theorem count_entryFrames (e f : Word) :
    (entryFrames e).count f = if e ≠ PAGE_TABLE_ENTRY_DEFAULT ∧ base e = f then 1 else 0 := by
  by_cases h : e = PAGE_TABLE_ENTRY_DEFAULT
  · simp [h, entryFrames_default]
  · simp [entryFrames_of_ne h, h, List.count_singleton]

theorem MemInv.setWord (h : MemInv X tb fr) {pd t : Word} {i j : Index} (ht : TableAt tb pd i t) {w : Word}
    (hfr : Agree fr' (refs (tb.setWord t j w)))
    (hb : w ≠ PAGE_TABLE_ENTRY_DEFAULT → bit w 0 = true ∧ bit w 2 = true)
    (hw : w = PAGE_TABLE_ENTRY_DEFAULT ∨
      (tb.kmem t j ≠ PAGE_TABLE_ENTRY_DEFAULT ∧ base w = base (tb.kmem t j) ∧
        (bit w 1 = true → bit (tb.kmem t j) 1 = true ∨ refs tb (base (tb.kmem t j)) = 1)) ∨
      refs tb (base w) = 0) :
    MemInv X (tb.setWord t j w) fr' := by
  obtain ⟨use, ho⟩ := h.owned
  have hdir := ho.table_not_dir ht
  refine ⟨⟨use, ho.setWord hdir j w⟩, h.kernel.setWord ho ht j w, hfr, fun {pd' i' t' k} ht' hne => ?_,
    fun {pd' i' t' k} ht' hX hne hrw => ?_⟩
  · have ht' := ht'.of_setWord hdir
    by_cases e : t' = t ∧ k = j
    · obtain ⟨rfl, rfl⟩ := e
      rw [setWord_self] at hne ⊢
      exact hb hne
    · rw [setWord_of_ne e] at hne ⊢
      exact h.entries ht' hne
  · have hp := refs_pos (j := k) ht' hne
    replace ht' := ht'.of_setWord hdir
    by_cases e : t' = t ∧ k = j
    · obtain ⟨rfl, rfl⟩ := e
      obtain ⟨rfl, rfl⟩ := ho.table_inj ht ht'
      rw [setWord_self] at hne hrw ⊢
      rcases hw with rfl | ⟨hne', hbase, hsole⟩ | h0
      · exact absurd rfl hne
      · rw [refs_setWord_same ho ht hne' hne hbase, hbase]
        rcases hsole hrw with hrw' | h1
        · exact h.sole ht hX hne' hrw'
        · exact h1
      · have hr := refs_setWord ho ht k w (base w)
        rw [h0, count_entryFrames w, if_pos ⟨hne, rfl⟩, count_entryFrames, if_neg] at hr
        · exact hr
        · rintro ⟨hD, he⟩
          exact refs_pos ht hD (he ▸ h0)
    · -- another entry keeps its one reference
      rw [setWord_of_ne e] at hp hne hrw ⊢
      have h1 := h.sole ht' hX hne hrw
      have hr := refs_setWord ho ht j w (base (tb.kmem t' k))
      rw [count_entryFrames w, count_entryFrames (tb.kmem t j)] at hr
      by_cases hm : w ≠ PAGE_TABLE_ENTRY_DEFAULT ∧ base w = base (tb.kmem t' k)
      · rcases hw with hD | ⟨hne', hbase, -⟩ | h0
        · exact absurd hD hm.1
        · rw [if_pos ⟨hne', hbase.symm.trans hm.2⟩, if_pos hm] at hr
          omega
        · rw [hm.2] at h0
          omega
      · rw [if_neg hm] at hr
        omega

/-! ## Whole pages -/

theorem KernelPages.congr (hk : KernelPages tb) (hd : tb'.directMap = tb.directMap)
    (h0 : tb'.kmem 0#32 = tb.kmem 0#32)
    (hm : ∀ i : Index, i.val < KERNEL_MAP_NUM_ENTRIES → tb'.kmem (tb.directMap i) = tb.kmem (tb.directMap i)) :
    KernelPages tb' := by
  refine ⟨fun j => ?_, fun i j hi => ?_⟩
  · rw [h0]
    exact hk.zero j
  · rw [hd, hm i hi]
    exact hk.direct i j hi

theorem MemInv.attach (h : MemInv X tb fr) {pd a : Word} {i : Index} {c : Index → Word}
    (ha : tb.avail.head? = some a) (hpd : pd ∈ tb.pds) (hi : KERNEL_MAP_NUM_ENTRIES ≤ i.val)
    (hD : tb.kmem pd i = PAGE_DIR_ENTRY_DEFAULT) (hfr : Agree fr' (plus (refs tb) (tableFrames c)))
    (hc : ∀ j, c j ≠ PAGE_TABLE_ENTRY_DEFAULT → pd ∈ X ∧ bit (c j) 0 = true ∧ bit (c j) 2 = true)
    (hs : ∀ {pd' i' t' j'}, TableAt tb pd' i' t' → pd' ∉ X → tb.kmem t' j' ≠ PAGE_TABLE_ENTRY_DEFAULT →
      bit (tb.kmem t' j') 1 = true → base (tb.kmem t' j') ∉ tableFrames c) :
    MemInv X (tb.attach pd i a c) fr' := by
  obtain ⟨use, ho⟩ := h.owned
  have ham := List.mem_of_mem_head? ha
  obtain ⟨hal, -, hd, -, -⟩ := ho.fresh ham
  have hext := ho.extends_attach (c := c) ha hpd hD
  have hself : (tb.attach pd i a c).kmem a = c := attach_kmem_self (ne_of_mem_of_not_mem hpd hd)
  have hrefs := refs_attach (c := c) ho ham hpd hi hD
  refine ⟨⟨_, ho.attach ha hpd hi⟩, h.kernel.congr hext.directMap hext.zero hext.direct, hrefs ▸ hfr,
    fun ht hne => ?_, fun ht hX hne hrw => ?_⟩
  · rcases ht.of_attach hal hd with ⟨rfl, rfl, rfl⟩ | ht
    · rw [hself] at hne ⊢
      exact (hc _ hne).2
    · rw [(hext.tables ht).2] at hne ⊢
      exact h.entries ht hne
  · rcases ht.of_attach hal hd with ⟨rfl, rfl, rfl⟩ | ht
    · rw [hself] at hne
      exact absurd (hc _ hne).1 hX
    · rw [(hext.tables ht).2] at hne hrw ⊢
      rw [hrefs, plus, h.sole ht hX hne hrw, List.count_eq_zero_of_not_mem (hs ht hX hne hrw)]

theorem MemInv.attach_default (h : MemInv X tb fr) {pd a : Word} {i : Index} (ha : tb.avail.head? = some a)
    (hpd : pd ∈ tb.pds) (hi : KERNEL_MAP_NUM_ENTRIES ≤ i.val) (hD : tb.kmem pd i = PAGE_DIR_ENTRY_DEFAULT) :
    MemInv X (tb.attach pd i a fun _ => PAGE_TABLE_ENTRY_DEFAULT) fr := by
  refine h.attach ha hpd hi hD ?_ (fun _ hne => absurd rfl hne) fun _ _ _ _ => ?_
  · rw [tableFrames_default, plus_nil]
    exact h.agree
  · rw [tableFrames_default]
    simp

theorem MemInv.attach_copy (h : MemInv X tb fr) {pd newPd a t : Word} {i : Index} (ha : tb.avail.head? = some a)
    (ht : TableAt tb pd i t) (hX : pd ∈ X) (hnew : newPd ∈ tb.pds) (hnX : newPd ∈ X)
    (hD : tb.kmem newPd i = PAGE_DIR_ENTRY_DEFAULT) :
    MemInv X (tb.attach newPd i a (tb.kmem t)) ((tableFrames (tb.kmem t)).foldl (fun fr f => incRefCount f fr) fr) := by
  refine h.attach ha hnew ht.user hD ?_ (fun j hne => ⟨hnX, h.entries ht hne⟩)
    fun {pd' i' t' j'} ht' hX' hne' hrw hm => ?_
  · refine h.agree.incAll fun f hf => ?_
    obtain ⟨j, hne, rfl⟩ := mem_tableFrames.mp hf
    exact refs_pos ht hne
  · -- a writable entry is sole, but the table copied refers to the same frame
    obtain ⟨use, ho⟩ := h.owned
    obtain ⟨j, hne, he⟩ := mem_tableFrames.mp hm
    have h1 := h.sole ht' hX' hne' hrw
    have h2 := refs_two ht' ht hne' hne he fun e => by
      rw [e.1] at ht
      obtain ⟨rfl, -⟩ := ho.table_inj ht' ht
      exact hX' hX
    omega

theorem MemInv.newDirectory (h : MemInv X tb fr) {a : Word} (ha : tb.avail.head? = some a) :
    MemInv X (tb.newDirectory a) fr := by
  obtain ⟨use, ho⟩ := h.owned
  have ham := List.mem_of_mem_head? ha
  have hrefs := refs_newDirectory ho ham
  refine ⟨⟨_, ho.newDirectory ha⟩, h.kernel.congr rfl (ho.newDirectory_zero ham) (ho.newDirectory_direct ham),
    hrefs ▸ h.agree, fun ht hne => ?_, fun ht hX hne hrw => ?_⟩
  · have ht' := ht.of_newDirectory
    rw [(ho.newDirectory_table ham ht').2] at hne ⊢
    exact h.entries ht' hne
  · have ht' := ht.of_newDirectory
    rw [(ho.newDirectory_table ham ht').2] at hne hrw ⊢
    rw [hrefs]
    exact h.sole ht' hX hne hrw

theorem MemInv.freeDirectory (h : MemInv X tb fr) {pd : Word} (hpd : pd ∈ tb.pds) :
    MemInv X (tb.freeDirectory pd) ((dirFrames tb pd).foldl (fun fr f => dropRefCount true f fr) fr) := by
  obtain ⟨use, ho⟩ := h.owned
  have hrefs := refs_freeDirectory hpd
  have hagree := h.agree
  rw [hrefs] at hagree
  refine ⟨⟨_, ho.freeDirectory hpd⟩, h.kernel.congr (freeDirectory_directMap ..) (by rw [freeDirectory_kmem])
    (fun i _ => by rw [freeDirectory_kmem]), hagree.dropAll true, fun {pd' i t j} ht hne => ?_,
    fun {pd' i t j} ht hX hne hrw => ?_⟩
  · rw [freeDirectory_kmem] at hne ⊢
    exact h.entries ht.of_freeDirectory.1 hne
  have hp := refs_pos ht hne
  rw [freeDirectory_kmem] at hne hrw hp ⊢
  have h1 := h.sole ht.of_freeDirectory.1 hX hne hrw
  have hle : refs (tb.freeDirectory pd) (base (tb.kmem t j)) ≤ refs tb (base (tb.kmem t j)) := by
    rw [hrefs, plus]
    omega
  omega

theorem MemInv.cowDirectory {pd : Word} (h : MemInv (insert pd X) tb fr) (hpd : pd ∈ tb.pds) :
    MemInv X (tb.cowDirectory pd Vm.userIndices) fr := by
  obtain ⟨use, ho⟩ := h.owned
  have hrefs := ho.refs_cowDirectory hpd
  refine ⟨⟨use, ho.cowDirectory hpd⟩, h.kernel.congr (cowDirectory_directMap ..) (ho.cowDirectory_zero hpd)
    (ho.cowDirectory_direct hpd), by rw [hrefs]; exact h.agree, fun {pd' i t j} ht hne => ?_, fun {pd' i t j} ht hX hne hrw => ?_⟩
  · have ht' := (ho.tableAt_cowDirectory hpd).mp ht
    by_cases hm : pd' = pd
    · subst hm
      rw [cowDirectory_kmem_table ht'] at hne ⊢
      have hne' := mt cowEntry_eq_default.mpr hne
      obtain ⟨h₁, h₂⟩ := h.entries ht' hne'
      rw [bit_cowEntry hne' (by decide), bit_cowEntry hne' (by decide)]
      exact ⟨h₁, h₂⟩
    · rw [ho.cowDirectory_kmem_other hpd ht' hm] at hne ⊢
      exact h.entries ht' hne
  · have ht' := (ho.tableAt_cowDirectory hpd).mp ht
    by_cases hm : pd' = pd
    · subst hm
      rw [cowDirectory_kmem_table ht'] at hne hrw
      rw [cowEntry_write (mt cowEntry_eq_default.mpr hne)] at hrw
      cases hrw
    · rw [ho.cowDirectory_kmem_other hpd ht' hm] at hne hrw ⊢
      rw [hrefs]
      refine h.sole ht' ?_ hne hrw
      rw [Finset.mem_insert, not_or]
      exact ⟨hm, hX⟩

theorem Extends.refs (he : Extends tb tb') (hb : ∀ {pd i t}, TableAt tb' pd i t → TableAt tb pd i t) :
    Pebbles.refs tb' = Pebbles.refs tb := by
  refine refs_congr he.pds fun pd hpd i => ?_
  rcases pde_cases tb hpd i with ⟨t, ht⟩ | hn
  · obtain ⟨ht', hk⟩ := he.tables ht
    rw [pdeFrames_table ht', pdeFrames_table ht, hk]
  · rw [pdeFrames_absent hn]
    rcases pde_cases tb' (he.pds ▸ hpd) i with ⟨t, ht⟩ | hn'
    · have := hb ht
      rcases hn with hn | hn
      · exact absurd this.user (Nat.not_le.mpr hn)
      · exact absurd hn this.present
    · exact pdeFrames_absent hn'

end

end Pebbles
