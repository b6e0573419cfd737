import Pebbles.TablesSound

/-!
# Taking and giving back kernel pages

A page taken from `smemalign` becomes a directory or the table of one directory
entry; freeing a directory gives its page and those of its tables back. Uses
stay unique, and the references change by those of the tables concerned.
-/

namespace Pebbles

open Words Sums

section
variable {use : Word → PageUse} {tb : Tables}

/-! ## A table for an absent directory entry -/

def Tables.attach (tb : Tables) (pd : Word) (i : Index) (a : Word) (c : Index → Word) : Tables :=
  ({ tb with avail := tb.avail.tail }.setPage a c).setWord pd i (a ||| USER_PD_ENTRY_FLAGS)

theorem Owned.fresh (h : Owned use tb) {a : Word} (ha : a ∈ tb.avail) :
    Aligned a ∧ a ≠ 0#32 ∧ a ∉ tb.pds ∧ (∀ i : Index, i.val < KERNEL_MAP_NUM_ENTRIES → tb.directMap i ≠ a) ∧
      ∀ pd i t, TableAt tb pd i t → t ≠ a := by
  have hf := h.avail a ha
  refine ⟨h.aligned a (by rw [hf]; simp), ?_, ?_, ?_, ?_⟩
  · rintro rfl
    rw [h.zero] at hf
    cases hf
  · rw [h.dirs, hf]
    simp
  · rintro i hi rfl
    rw [h.direct i hi] at hf
    cases hf
  · rintro pd i t ht rfl
    rw [h.use_table ht] at hf
    cases hf

theorem Owned.take (h : Owned use tb) {a : Word} (ha : tb.avail.head? = some a) (u : PageUse) :
    (∀ p, Function.update use a u p ≠ .reserved → Aligned p) ∧ Function.update use a u 0#32 = .reserved ∧
      tb.avail.tail.Nodup ∧ (∀ b ∈ tb.avail.tail, Function.update use a u b = .free) ∧
      ∀ i : Index, i.val < KERNEL_MAP_NUM_ENTRIES → Function.update use a u (tb.directMap i) = .direct i := by
  obtain ⟨rest, hav⟩ : ∃ rest, tb.avail = a :: rest := List.head?_eq_some_iff.mp ha
  obtain ⟨hal, hz, -, hdm, -⟩ := h.fresh (a := a) (by simp [hav])
  have hnd := h.avail_nodup
  rw [hav, List.nodup_cons] at hnd
  have hu : ∀ p, p ≠ a → Function.update use a u p = use p := fun p hp => Function.update_of_ne hp ..
  refine ⟨fun p hp => ?_, ?_, ?_, fun b hb => ?_, fun k hk => ?_⟩
  · by_cases e : p = a
    · exact e ▸ hal
    · rw [hu p e] at hp
      exact h.aligned p hp
  · rw [hu _ hz.symm]
    exact h.zero
  · rw [hav]
    exact hnd.2
  · rw [hav] at hb
    rw [hu b (ne_of_mem_of_not_mem hb hnd.1)]
    exact h.avail b (by rw [hav]; exact List.mem_cons_of_mem _ hb)
  · rw [hu _ (hdm k hk)]
    exact h.direct k hk

section
variable {pd a : Word} {i : Index} {c : Index → Word}

theorem attach_kmem_self (hpa : pd ≠ a) : (tb.attach pd i a c).kmem a = c := by
  unfold Tables.attach
  rw [setWord_other hpa.symm]
  exact if_pos rfl

theorem attach_kmem_pde : (tb.attach pd i a c).kmem pd i = a ||| USER_PD_ENTRY_FLAGS := setWord_self ..

theorem attach_kmem_of_ne {p : Word} {k : Index} (hp : p ≠ a) (hk : ¬ (p = pd ∧ k = i)) :
    (tb.attach pd i a c).kmem p k = tb.kmem p k := by
  unfold Tables.attach
  rw [setWord_of_ne hk]
  exact congrFun (if_neg hp) k

theorem pde_addr (ha : Aligned a) : getAddrFromEntry (a ||| USER_PD_ENTRY_FLAGS) = a := base_or ha (by decide)

theorem pde_flags (ha : Aligned a) : getFlagsFromEntry (a ||| USER_PD_ENTRY_FLAGS) = USER_PD_ENTRY_FLAGS := by
  apply ext_bit
  intro k hk
  show bit (flags (a ||| USER_PD_ENTRY_FLAGS)) k = _
  rw [bit_flags]
  by_cases h : k < 12
  · simp [ha.bit_lt h, h]
  · have : ∀ k < 32, ¬ k < 12 → bit USER_PD_ENTRY_FLAGS k = false := by decide
    simp [h, this k hk h]

theorem pde_ne_default (a : Word) : a ||| USER_PD_ENTRY_FLAGS ≠ PAGE_DIR_ENTRY_DEFAULT := by
  apply ne_default_of_present
  have : bit USER_PD_ENTRY_FLAGS 0 = true := by decide
  simp [this]

theorem Owned.attach (h : Owned use tb) (ha : tb.avail.head? = some a) (hpd : pd ∈ tb.pds)
    (hi : KERNEL_MAP_NUM_ENTRIES ≤ i.val) :
    Owned (Function.update use a (.table pd i)) (tb.attach pd i a c) := by
  obtain ⟨hal, -, hd, -, htab⟩ := h.fresh (List.mem_of_mem_head? ha)
  obtain ⟨t₁, t₂, t₃, t₄, t₅⟩ := h.take ha (.table pd i)
  have hpda : ∀ pd' ∈ tb.pds, pd' ≠ a := fun pd' hp => ne_of_mem_of_not_mem hp hd
  have hu : ∀ p, p ≠ a → Function.update use a (.table pd i) p = use p := fun p hp => Function.update_of_ne hp ..
  refine ⟨t₁, t₂, t₃, t₄, fun q => ?_, t₅, fun q hq k hk => ?_, fun q hq k hk hne => ?_⟩
  · show q ∈ tb.pds ↔ _
    by_cases e : q = a
    · subst e
      simp [hd]
    · rw [hu q e]
      exact h.dirs q
  · change q ∈ tb.pds at hq
    rw [attach_kmem_of_ne (hpda q hq) fun e => by rw [e.2] at hk; omega]
    exact h.kernel q hq k hk
  · change q ∈ tb.pds at hq
    by_cases e : q = pd ∧ k = i
    · obtain ⟨rfl, rfl⟩ := e
      rw [attach_kmem_pde, pde_addr hal, pde_flags hal]
      exact ⟨Function.update_self .., rfl⟩
    · rw [attach_kmem_of_ne (hpda q hq) e] at hne ⊢
      obtain ⟨h₁, h₂⟩ := h.tables q hq k hk hne
      have : getAddrFromEntry (tb.kmem q k) ≠ a := htab q k _ ⟨hq, hk, hne, rfl⟩
      rw [hu _ this]
      exact ⟨h₁, h₂⟩

theorem TableAt.attach {pd' t : Word} {i' : Index} (hd : a ∉ tb.pds) (hD : tb.kmem pd i = PAGE_DIR_ENTRY_DEFAULT)
    (ht : TableAt tb pd' i' t) : TableAt (tb.attach pd i a c) pd' i' t := by
  have hk : (tb.attach pd i a c).kmem pd' i' = tb.kmem pd' i' := by
    refine attach_kmem_of_ne (ne_of_mem_of_not_mem ht.live hd) fun e => ht.present ?_
    rw [e.1, e.2]
    exact hD
  exact ⟨ht.live, ht.user, hk ▸ ht.present, hk ▸ ht.addr⟩

theorem TableAt.attach_new (hal : Aligned a) (hpd : pd ∈ tb.pds) (hi : KERNEL_MAP_NUM_ENTRIES ≤ i.val) :
    TableAt (tb.attach pd i a c) pd i a := by
  refine ⟨hpd, hi, ?_, ?_⟩
  · rw [attach_kmem_pde]; exact pde_ne_default a
  · rw [attach_kmem_pde]; exact pde_addr hal

theorem TableAt.of_attach {pd' t : Word} {i' : Index} (hal : Aligned a) (hd : a ∉ tb.pds)
    (ht : TableAt (tb.attach pd i a c) pd' i' t) : (pd' = pd ∧ i' = i ∧ t = a) ∨ TableAt tb pd' i' t := by
  have hl : pd' ∈ tb.pds := ht.live
  by_cases e : pd' = pd ∧ i' = i
  · obtain ⟨rfl, rfl⟩ := e
    have := ht.addr
    rw [attach_kmem_pde, pde_addr hal] at this
    exact Or.inl ⟨rfl, rfl, this.symm⟩
  · have hk : (tb.attach pd i a c).kmem pd' i' = tb.kmem pd' i' := attach_kmem_of_ne (ne_of_mem_of_not_mem hl hd) e
    exact Or.inr ⟨hl, ht.user, hk ▸ ht.present, hk ▸ ht.addr⟩

theorem attach_kmem_table {pd' t : Word} {i' : Index} (h : Owned use tb) (ha : a ∈ tb.avail) (hpd : pd ∈ tb.pds)
    (ht : TableAt tb pd' i' t) : (tb.attach pd i a c).kmem t = tb.kmem t := by
  funext k
  refine attach_kmem_of_ne ((h.fresh ha).2.2.2.2 _ _ _ ht) fun e => ?_
  exact h.table_not_dir ht (e.1 ▸ hpd)

theorem refs_attach (h : Owned use tb) (ha : a ∈ tb.avail) (hpd : pd ∈ tb.pds)
    (hi : KERNEL_MAP_NUM_ENTRIES ≤ i.val) (hD : tb.kmem pd i = PAGE_DIR_ENTRY_DEFAULT) :
    refs (tb.attach pd i a c) = plus (refs tb) (tableFrames c) := by
  funext f
  obtain ⟨hal, -, hd, -, -⟩ := h.fresh ha
  have hs := sum_change (S := tb.pds ×ˢ (Finset.univ : Finset Index)) (p := (pd, i))
    (g := fun p => (pdeFrames tb p.1 p.2).count f) (k := fun p => (pdeFrames (tb.attach pd i a c) p.1 p.2).count f)
    (Finset.mem_product.mpr ⟨hpd, Finset.mem_univ _⟩) (fun q hq hne => by
      obtain ⟨pd', i'⟩ := q
      have hpd' : pd' ∈ tb.pds := (Finset.mem_product.mp hq).1
      rcases pde_cases tb hpd' i' with ⟨t', ht'⟩ | hn
      · rw [pdeFrames_table (ht'.attach hd hD), pdeFrames_table ht', attach_kmem_table h ha hpd ht']
      · rw [pdeFrames_absent hn, pdeFrames_absent]
        rw [attach_kmem_of_ne (ne_of_mem_of_not_mem hpd' hd) fun e => hne (Prod.ext e.1 e.2)]
        exact hn)
  have hnew : pdeFrames (tb.attach pd i a c) pd i = tableFrames c := by
    rw [pdeFrames_table (TableAt.attach_new hal hpd hi), attach_kmem_self (ne_of_mem_of_not_mem hpd hd)]
  rw [hnew, pdeFrames_absent (Or.inr hD)] at hs
  exact hs

end

/-! ## A new directory -/

def Tables.newDirectory (tb : Tables) (a : Word) : Tables :=
  { tb with
    avail := tb.avail.tail
    pds := insert a tb.pds
    kmem := fun p => if p = a then fun i =>
        if i.val < KERNEL_MAP_NUM_ENTRIES then tb.directMap i ||| (PAGE_ENTRY_PRESENT ||| READ_WRITE_ENABLE)
        else PAGE_DIR_ENTRY_DEFAULT
      else tb.kmem p }

section
variable {a : Word}

theorem newDirectory_kmem_of_ne {p : Word} (hp : p ≠ a) : (tb.newDirectory a).kmem p = tb.kmem p := if_neg hp

theorem newDirectory_kmem_self (i : Index) : (tb.newDirectory a).kmem a i =
    if i.val < KERNEL_MAP_NUM_ENTRIES then tb.directMap i ||| (PAGE_ENTRY_PRESENT ||| READ_WRITE_ENABLE)
    else PAGE_DIR_ENTRY_DEFAULT :=
  congrFun (if_pos rfl) i

theorem Owned.newDirectory (h : Owned use tb) (ha : tb.avail.head? = some a) :
    Owned (Function.update use a .directory) (tb.newDirectory a) := by
  obtain ⟨-, -, -, -, htab⟩ := h.fresh (List.mem_of_mem_head? ha)
  obtain ⟨t₁, t₂, t₃, t₄, t₅⟩ := h.take ha .directory
  have hu : ∀ p, p ≠ a → Function.update use a .directory p = use p := fun p hp => Function.update_of_ne hp ..
  refine ⟨t₁, t₂, t₃, t₄, fun q => ?_, t₅, fun q hq k hk => ?_, fun q hq k hk hne => ?_⟩
  · show q ∈ insert a tb.pds ↔ _
    by_cases e : q = a
    · subst e
      simp
    · rw [hu q e, Finset.mem_insert, or_iff_right e]
      exact h.dirs q
  · by_cases e : q = a
    · subst e
      rw [newDirectory_kmem_self, if_pos hk]
      rfl
    · rw [newDirectory_kmem_of_ne e]
      exact h.kernel q (Finset.mem_of_mem_insert_of_ne hq e) k hk
  · by_cases e : q = a
    · subst e
      rw [newDirectory_kmem_self, if_neg (Nat.not_lt.mpr hk)] at hne
      exact absurd rfl hne
    · have hq' : q ∈ tb.pds := Finset.mem_of_mem_insert_of_ne hq e
      rw [newDirectory_kmem_of_ne e] at hne ⊢
      obtain ⟨h₁, h₂⟩ := h.tables q hq' k hk hne
      rw [hu _ (htab q k _ ⟨hq', hk, hne, rfl⟩)]
      exact ⟨h₁, h₂⟩

theorem TableAt.newDirectory {pd t : Word} {i : Index} (hd : a ∉ tb.pds) (ht : TableAt tb pd i t) :
    TableAt (tb.newDirectory a) pd i t := by
  have hk : (tb.newDirectory a).kmem pd = tb.kmem pd := newDirectory_kmem_of_ne (ne_of_mem_of_not_mem ht.live hd)
  exact ⟨Finset.mem_insert_of_mem ht.live, ht.user, hk ▸ ht.present, hk ▸ ht.addr⟩

theorem TableAt.of_newDirectory {pd t : Word} {i : Index} (ht : TableAt (tb.newDirectory a) pd i t) :
    TableAt tb pd i t := by
  have hne : pd ≠ a := by
    rintro rfl
    have := ht.present
    rw [newDirectory_kmem_self, if_neg (Nat.not_lt.mpr ht.user)] at this
    exact this rfl
  have hk : (tb.newDirectory a).kmem pd = tb.kmem pd := newDirectory_kmem_of_ne hne
  exact ⟨Finset.mem_of_mem_insert_of_ne ht.live hne, ht.user, hk ▸ ht.present, hk ▸ ht.addr⟩

theorem refs_newDirectory (h : Owned use tb) (ha : a ∈ tb.avail) : refs (tb.newDirectory a) = refs tb := by
  funext f
  obtain ⟨-, -, hd, -, htab⟩ := h.fresh ha
  unfold refs
  show ∑ p ∈ insert a tb.pds ×ˢ (Finset.univ : Finset Index), _ = _
  rw [Finset.sum_product, Finset.sum_product, Finset.sum_insert hd]
  have h0 : ∑ i : Index, (pdeFrames (tb.newDirectory a) a i).count f = 0 := by
    refine Finset.sum_eq_zero fun i _ => ?_
    rw [pdeFrames_absent]
    · rfl
    · by_cases hi : i.val < KERNEL_MAP_NUM_ENTRIES
      · exact Or.inl hi
      · right
        rw [newDirectory_kmem_self, if_neg hi]
  rw [h0, Nat.zero_add]
  refine Finset.sum_congr rfl fun pd hpd => Finset.sum_congr rfl fun i _ => ?_
  have hk : (tb.newDirectory a).kmem pd = tb.kmem pd := newDirectory_kmem_of_ne (ne_of_mem_of_not_mem hpd hd)
  rcases pde_cases tb hpd i with ⟨t, ht⟩ | hn
  · rw [pdeFrames_table (ht.newDirectory hd), pdeFrames_table ht, newDirectory_kmem_of_ne (htab _ _ _ ht)]
  · rw [pdeFrames_absent hn, pdeFrames_absent (by rw [hk]; exact hn)]

end

/-! ## A directory given back -/

def tablesOf (tb : Tables) (pd : Word) (is : List Index) : List Word :=
  (is.filter fun i => tb.kmem pd i ≠ PAGE_DIR_ENTRY_DEFAULT).map fun i => getAddrFromEntry (tb.kmem pd i)

def Tables.freeDirectory (tb : Tables) (pd : Word) : Tables :=
  { tb with
    pds := tb.pds.erase pd
    avail := pd :: ((tablesOf tb pd Vm.userIndices).reverse ++ tb.avail) }

theorem freeDirectory_kmem (tb : Tables) (pd : Word) : (tb.freeDirectory pd).kmem = tb.kmem := rfl

theorem freeDirectory_directMap (tb : Tables) (pd : Word) : (tb.freeDirectory pd).directMap = tb.directMap := rfl

theorem freeDirectory_pds (tb : Tables) (pd : Word) : (tb.freeDirectory pd).pds = tb.pds.erase pd := rfl

def freeUse (use : Word → PageUse) (pd p : Word) : PageUse :=
  match use p with
  | .table pd' i => if pd' = pd then .free else .table pd' i
  | u => if p = pd then .free else u

theorem mem_userIndices {i : Index} : i ∈ Vm.userIndices ↔ KERNEL_MAP_NUM_ENTRIES ≤ i.val := by
  unfold Vm.userIndices
  simp only [List.mem_filter, List.mem_finRange, true_and, decide_eq_true_eq]

theorem userIndices_nodup : Vm.userIndices.Nodup := by
  unfold Vm.userIndices
  exact (List.nodup_finRange 1024).filter _

theorem mem_tablesOf {pd t : Word} (hpd : pd ∈ tb.pds) :
    t ∈ tablesOf tb pd Vm.userIndices ↔ ∃ i, TableAt tb pd i t := by
  simp only [tablesOf, List.mem_map, List.mem_filter, mem_userIndices, decide_eq_true_eq]
  constructor
  · rintro ⟨i, ⟨hi, hne⟩, rfl⟩
    exact ⟨i, hpd, hi, hne, rfl⟩
  · rintro ⟨i, ht⟩
    exact ⟨i, ⟨ht.user, ht.present⟩, ht.addr⟩

theorem Owned.tablesOf_nodup (h : Owned use tb) {pd : Word} (hpd : pd ∈ tb.pds) :
    (tablesOf tb pd Vm.userIndices).Nodup := by
  refine List.Nodup.map_on ?_ (userIndices_nodup.filter _)
  intro i hi k hk he
  simp only [List.mem_filter, decide_eq_true_eq] at hi hk
  have hti : TableAt tb pd i _ := ⟨hpd, mem_userIndices.mp hi.1, hi.2, rfl⟩
  have htk : TableAt tb pd k _ := ⟨hpd, mem_userIndices.mp hk.1, hk.2, rfl⟩
  rw [← he] at htk
  exact (h.table_inj htk hti).2

section
variable {pd : Word}

theorem freeUse_table {p pd' : Word} {i : Index} (h : use p = .table pd' i) :
    freeUse use pd p = if pd' = pd then .free else .table pd' i := by
  unfold freeUse
  rw [h]

theorem freeUse_other {p : Word} (h : ∀ pd' i, use p ≠ .table pd' i) :
    freeUse use pd p = if p = pd then .free else use p := by
  unfold freeUse
  split
  · exact absurd ‹_› (h _ _)
  · rfl

theorem freeUse_eq_directory {p : Word} : freeUse use pd p = .directory ↔ use p = .directory ∧ p ≠ pd := by
  unfold freeUse
  split
  · rename_i hu
    split_ifs <;> simp [hu]
  · split_ifs <;> simp_all

theorem Owned.freeDirectory (h : Owned use tb) (hpd : pd ∈ tb.pds) :
    Owned (freeUse use pd) (tb.freeDirectory pd) := by
  have hdir := (h.dirs pd).mp hpd
  have hkeep : ∀ p, (∀ pd' i, use p ≠ .table pd' i) → p ≠ pd → freeUse use pd p = use p := fun p hp hne => by
    rw [freeUse_other hp, if_neg hne]
  have hfreed : ∀ t ∈ tablesOf tb pd Vm.userIndices, ∃ i, use t = .table pd i := fun t ht => by
    obtain ⟨i, hi⟩ := (mem_tablesOf hpd).mp ht
    exact ⟨i, h.use_table hi⟩
  refine ⟨fun p hp => ?_, ?_, ?_, fun b hb => ?_, fun q => ?_, fun k hk => ?_, fun q hq k hk => ?_,
    fun q hq k hk hne => ?_⟩
  · refine h.aligned p fun hu => hp ?_
    have hne : p ≠ pd := by
      rintro rfl
      rw [hdir] at hu
      cases hu
    rw [hkeep p (by simp [hu]) hne, hu]
  · rw [hkeep _ (by simp [h.zero]) (h.pd_ne_zero hpd).symm]
    exact h.zero
  · show (pd :: ((tablesOf tb pd Vm.userIndices).reverse ++ tb.avail)).Nodup
    rw [List.nodup_cons, List.nodup_append, List.nodup_reverse]
    refine ⟨?_, h.tablesOf_nodup hpd, h.avail_nodup, ?_⟩
    · rw [List.mem_append, List.mem_reverse]
      rintro (hm | hm)
      · obtain ⟨i, hi⟩ := hfreed _ hm
        rw [hdir] at hi
        cases hi
      · rw [h.avail _ hm] at hdir
        cases hdir
    · rintro a ha b hb rfl
      obtain ⟨i, hi⟩ := hfreed _ (List.mem_reverse.mp ha)
      rw [h.avail _ hb] at hi
      cases hi
  · change b ∈ pd :: ((tablesOf tb pd Vm.userIndices).reverse ++ tb.avail) at hb
    rw [List.mem_cons, List.mem_append, List.mem_reverse] at hb
    rcases hb with rfl | hb | hb
    · rw [freeUse_other (by simp [hdir]), if_pos rfl]
    · obtain ⟨i, hi⟩ := hfreed _ hb
      rw [freeUse_table hi, if_pos rfl]
    · have hf := h.avail b hb
      rw [freeUse_other (by simp [hf]), hf, ite_self]
  · show q ∈ tb.pds.erase pd ↔ _
    rw [Finset.mem_erase, h.dirs, freeUse_eq_directory, and_comm]
  · show freeUse use pd (tb.directMap k) = _
    have hu := h.direct k hk
    rw [hkeep _ (by simp [hu]) _, hu]
    rintro rfl
    rw [hdir] at hu
    cases hu
  · exact h.kernel q (Finset.mem_of_mem_erase hq) k hk
  · obtain ⟨hu, hfl⟩ := h.tables q (Finset.mem_of_mem_erase hq) k hk hne
    refine ⟨?_, hfl⟩
    show freeUse use pd (getAddrFromEntry (tb.kmem q k)) = _
    rw [freeUse_table hu, if_neg (Finset.ne_of_mem_erase hq)]

theorem TableAt.of_freeDirectory {pd' t : Word} {i : Index} (ht : TableAt (tb.freeDirectory pd) pd' i t) :
    TableAt tb pd' i t ∧ pd' ≠ pd :=
  ⟨⟨Finset.mem_of_mem_erase ht.live, ht.user, ht.present, ht.addr⟩, Finset.ne_of_mem_erase ht.live⟩

def dirFrames (tb : Tables) (pd : Word) : List Word := Vm.userIndices.flatMap (pdeFrames tb pd)

theorem count_dirFrames (tb : Tables) (pd f : Word) :
    (dirFrames tb pd).count f = ∑ i : Index, (pdeFrames tb pd i).count f := by
  unfold dirFrames Vm.userIndices
  rw [List.count_flatMap, sum_map_filter, Fin.sum_univ_def]
  · rfl
  · intro i _ hi
    simp only [decide_eq_false_iff_not, Nat.not_le] at hi
    simp [pdeFrames_absent (Or.inl hi)]

theorem refs_freeDirectory (hpd : pd ∈ tb.pds) : refs tb = plus (refs (tb.freeDirectory pd)) (dirFrames tb pd) := by
  funext f
  simp only [refs, plus]
  rw [count_dirFrames, Finset.sum_product, Finset.sum_product]
  exact (Finset.sum_erase_add _ _ hpd).symm

end

end

end Pebbles
