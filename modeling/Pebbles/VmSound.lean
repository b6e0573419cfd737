import Pebbles.PagesSound

/-!
# What each operation does to the tables

Every operation of `vm.c` comes down to a few edits: a page becomes a directory
or the table of one entry, one word of a table is written, a directory is given
back. The equations here say which edits, with no assumption on the counts.
-/

namespace Pebbles

open Words Sums

namespace Vm

/-! ## Kernel pages -/

theorem createPageDirectory_nil {s : Vm} (h : s.avail = []) : s.createPageDirectory = (none, s) := by
  unfold createPageDirectory smemalign
  rw [h]

theorem createPageDirectory_cons {s : Vm} {a : Word} (h : s.avail.head? = some a) :
    s.createPageDirectory = (some a, { s with toTables := s.toTables.newDirectory a }) := by
  obtain ⟨rest, hav⟩ : ∃ rest, s.avail = a :: rest := List.head?_eq_some_iff.mp h
  unfold createPageDirectory smemalign
  rw [hav]
  simp only [setPage, Tables.setPage, Tables.newDirectory, hav, List.tail_cons]

def tableFor (pd : Word) (i : Index) (s : Vm) : Option Vm :=
  if s.kmem pd i = PAGE_DIR_ENTRY_DEFAULT then
    s.avail.head?.map fun a => { s with toTables := s.toTables.attach pd i a fun _ => PAGE_TABLE_ENTRY_DEFAULT }
  else some s

def fillEntry (pd flags va : Word) (s : Vm) : Bool × Vm :=
  if s.pte pd va = PAGE_TABLE_ENTRY_DEFAULT then
    match allocateFrame s.fr with
    | (some f, fr) =>
      (true, ({ s with fr := incRefCount f fr }.setWord (s.ptAddr pd va) (getPtIndex va) (f ||| flags)).zeroFill va)
    | (none, fr) => (false, { s with fr := fr })
  else (true, s)

theorem mapPage_eq (pd flags va : Word) (s : Vm) :
    mapPage pd flags va s =
      match tableFor pd (getPdIndex va) s with
      | none => (false, s)
      | some s => fillEntry pd flags va s := by
  unfold mapPage tableFor
  by_cases hD : s.kmem pd (getPdIndex va) = PAGE_DIR_ENTRY_DEFAULT
  · cases hav : s.avail with
    | nil => simp only [hD, createPageTable, smemalign, hav, if_true]; rfl
    | cons a rest =>
      simp only [hD, createPageTable, smemalign, hav, if_true, List.head?_cons, Option.map_some, Tables.attach,
        List.tail_cons]
      rfl
  · simp only [hD, if_false, if_true]
    rfl

theorem allocateFrame_none {fr fr' : Frames} (h : allocateFrame fr = (none, fr')) : fr' = fr := by
  unfold allocateFrame at h
  split at h <;> simp_all

end Vm

section
variable {use : Word → PageUse} {tb : Tables}

theorem Owned.ptAddr_not_dir (h : Owned use tb) {pd : Word} (hpd : pd ∈ tb.pds) (va : Word) :
    tb.ptAddr pd va ∉ tb.pds := by
  rcases h.ptAddr_cases hpd va with ht | ⟨hi, he⟩ | ⟨-, -, he⟩
  · exact h.table_not_dir ht
  · rw [he, h.dirs, h.direct _ hi]
    simp
  · rw [he, h.dirs, h.zero]
    simp

end

namespace Vm

/-! ## Freeing -/

theorem foldl_entries (g : Word → Frames → Frames) (c : Index → Word) (fr : Frames) :
    (List.finRange 1024).foldl (fun fr i => if c i = PAGE_TABLE_ENTRY_DEFAULT then fr
      else g (getAddrFromEntry (c i)) fr) fr = (tableFrames c).foldl (fun fr f => g f fr) fr := by
  unfold tableFrames
  generalize List.finRange 1024 = l
  induction l generalizing fr with
  | nil => rfl
  | cons i l ih =>
    rw [List.foldl_cons, ih, List.flatMap_cons, List.foldl_append]
    congr 1
    unfold entryFrames
    split <;> rfl

theorem freePageTable_eq {pt : Word} (h : pt ≠ 0#32) (s : Vm) :
    freePageTable pt s = { s with
      fr := (tableFrames (s.kmem pt)).foldl (fun fr f => dropRefCount true f fr) s.fr
      avail := pt :: s.avail } := by
  unfold freePageTable withFrames sfree
  rw [if_neg h]
  dsimp only
  rw [foldl_entries (dropRefCount true)]

theorem incrementRefCount_eq {pt : Word} (h : pt ≠ 0#32) (s : Vm) :
    incrementRefCount pt s =
      { s with fr := (tableFrames (s.kmem pt)).foldl (fun fr f => incRefCount f fr) s.fr } := by
  unfold incrementRefCount withFrames
  rw [if_neg h, ← foldl_entries incRefCount]
  simp only [ne_eq, ite_not]

theorem freeTables_eq {pd : Word} (is : List Index) (s : Vm) (hu : ∀ i ∈ is, KERNEL_MAP_NUM_ENTRIES ≤ i.val)
    (h : ∀ i ∈ is, s.kmem pd i ≠ PAGE_DIR_ENTRY_DEFAULT → getAddrFromEntry (s.kmem pd i) ≠ 0#32) :
    is.foldl (fun s i => if s.kmem pd i ≠ PAGE_DIR_ENTRY_DEFAULT then
        freePageTable (getAddrFromEntry (s.kmem pd i)) s else s) s =
      { s with
        fr := (is.flatMap (pdeFrames s.toTables pd)).foldl (fun fr f => dropRefCount true f fr) s.fr
        avail := (tablesOf s.toTables pd is).reverse ++ s.avail } := by
  induction is generalizing s with
  | nil => rfl
  | cons i is ih =>
    have hk : ¬ i.val < KERNEL_MAP_NUM_ENTRIES := Nat.not_lt.mpr (hu i (by simp))
    have hu' : ∀ k ∈ is, KERNEL_MAP_NUM_ENTRIES ≤ k.val := fun k hk => hu k (List.mem_cons_of_mem i hk)
    have h' : ∀ k ∈ is, s.kmem pd k ≠ PAGE_DIR_ENTRY_DEFAULT → getAddrFromEntry (s.kmem pd k) ≠ 0#32 :=
      fun k hk => h k (List.mem_cons_of_mem i hk)
    rw [List.foldl_cons, List.flatMap_cons, List.foldl_append]
    by_cases hD : s.kmem pd i = PAGE_DIR_ENTRY_DEFAULT
    · rw [if_neg (not_not_intro hD), ih s hu' h']
      simp [pdeFrames, hD, tablesOf]
    · rw [if_pos hD, freePageTable_eq (h i (by simp) hD), ih]
      · simp only [pdeFrames, hD, hk, tablesOf, or_self, if_false, ne_eq, not_false_eq_true, decide_true,
          List.filter_cons_of_pos, List.map_cons, List.reverse_cons, List.append_assoc, List.singleton_append]
        rfl
      · exact hu'
      · exact h'

theorem freePagingInfo_eq {use : Word → PageUse} {s : Vm} (h : Owned use s.toTables) {pd : Word} (hpd : pd ∈ s.pds) :
    freePagingInfo pd s = { s with
      toTables := s.toTables.freeDirectory pd
      fr := (dirFrames s.toTables pd).foldl (fun fr f => dropRefCount true f fr) s.fr } := by
  have h0 := h.pd_ne_zero hpd
  unfold freePagingInfo freePageDirectory
  rw [if_neg h0, if_neg h0, freeTables_eq Vm.userIndices s (fun i hi => mem_userIndices.mp hi) fun i hi hne =>
    h.table_ne_zero ⟨hpd, mem_userIndices.mp hi, hne, rfl⟩]
  simp only [sfree, Tables.freeDirectory, dirFrames]

/-! ## Cloning -/

theorem clonePageTable_cons {pt a : Word} {s : Vm} (hpt : pt ≠ 0#32) (ha : s.avail.head? = some a) (h0 : a ≠ 0#32)
    (hne : pt ≠ a) :
    clonePageTable pt s = (some a, { s with
      toTables := { s.toTables with avail := s.avail.tail }.setPage a (s.kmem pt)
      fr := (tableFrames (s.kmem pt)).foldl (fun fr f => incRefCount f fr) s.fr }) := by
  obtain ⟨rest, hav⟩ : ∃ rest, s.avail = a :: rest := List.head?_eq_some_iff.mp ha
  unfold clonePageTable createPageTable smemalign
  rw [if_neg hpt, hav]
  simp only [incrementRefCount_eq h0, setPage, Tables.setPage, if_neg hne, List.tail_cons]
  simp only [Prod.mk.injEq, Vm.mk.injEq, Tables.mk.injEq, and_true, true_and]
  constructor
  · funext p
    split <;> rfl
  · simp

theorem clonePageTable_nil {pt : Word} {s : Vm} (h : s.avail = []) : clonePageTable pt s = (none, s) := by
  unfold clonePageTable createPageTable smemalign
  rw [h]
  split <;> rfl

def copyTable (newPd : Word) (i : Index) (a t : Word) (s : Vm) : Vm :=
  { s with
    toTables := s.toTables.attach newPd i a (s.kmem t)
    fr := (tableFrames (s.kmem t)).foldl (fun fr f => incRefCount f fr) s.fr }

section
variable {use : Word → PageUse} {pd newPd : Word} {s : Vm} {i : Index} {is : List Index}

theorem cloneTables_absent (hD : s.kmem pd i = PAGE_DIR_ENTRY_DEFAULT) :
    cloneTables pd newPd (i :: is) s = cloneTables pd newPd is s := by
  rw [cloneTables, if_neg (not_not_intro hD)]

theorem cloneTables_nomem (hD : s.kmem pd i ≠ PAGE_DIR_ENTRY_DEFAULT) (ha : s.avail = []) :
    cloneTables pd newPd (i :: is) s = (false, s) := by
  rw [cloneTables, if_pos hD, clonePageTable_nil ha]

theorem cloneTables_copy (h : Owned use s.toTables) {t a : Word} (ht : TableAt s.toTables pd i t)
    (ha : s.avail.head? = some a) :
    cloneTables pd newPd (i :: is) s = cloneTables pd newPd is (copyTable newPd i a t s) := by
  obtain ⟨-, h0, hd, -, htab⟩ := h.fresh (List.mem_of_mem_head? ha)
  have hpa : pd ≠ a := ne_of_mem_of_not_mem ht.live hd
  have hf := (h.tables pd ht.live i ht.user ht.present).2
  rw [cloneTables, if_pos ht.present, ht.addr, clonePageTable_cons (h.table_ne_zero ht) ha h0 (htab _ _ _ ht)]
  simp only [setWord, Tables.setPage, if_neg hpa, hf]
  rfl

end

end Vm

structure Extends (tb tb' : Tables) : Prop where
  pds : tb'.pds = tb.pds
  directMap : tb'.directMap = tb.directMap
  zero : tb'.kmem 0#32 = tb.kmem 0#32
  direct : ∀ i : Index, i.val < KERNEL_MAP_NUM_ENTRIES → tb'.kmem (tb.directMap i) = tb.kmem (tb.directMap i)
  tables : ∀ {pd i t}, TableAt tb pd i t → TableAt tb' pd i t ∧ tb'.kmem t = tb.kmem t

section
variable {use : Word → PageUse} {tb tb' tb'' : Tables}

theorem Extends.rfl' : Extends tb tb := ⟨rfl, rfl, rfl, fun _ _ => rfl, fun h => ⟨h, rfl⟩⟩

theorem Extends.trans (h : Extends tb tb') (h' : Extends tb' tb'') : Extends tb tb'' := by
  refine ⟨h'.pds.trans h.pds, h'.directMap.trans h.directMap, h'.zero.trans h.zero, fun i hi => ?_, fun ht => ?_⟩
  · have := h'.direct i hi
    rw [h.directMap] at this
    exact this.trans (h.direct i hi)
  · obtain ⟨h₁, h₂⟩ := h.tables ht
    obtain ⟨h₃, h₄⟩ := h'.tables h₁
    exact ⟨h₃, h₄.trans h₂⟩

theorem Owned.extends_attach (h : Owned use tb) {pd a : Word} {i : Index} {c : Index → Word}
    (ha : tb.avail.head? = some a) (hpd : pd ∈ tb.pds) (hD : tb.kmem pd i = PAGE_DIR_ENTRY_DEFAULT) :
    Extends tb (tb.attach pd i a c) := by
  have ham := List.mem_of_mem_head? ha
  obtain ⟨-, h0, hd, hdm, -⟩ := h.fresh ham
  refine ⟨rfl, rfl, ?_, fun k hk => ?_, fun ht => ⟨ht.attach hd hD, attach_kmem_table h ham hpd ht⟩⟩
  · funext k
    exact attach_kmem_of_ne h0.symm fun e => h.pd_ne_zero hpd e.1.symm
  · funext j
    refine attach_kmem_of_ne (hdm k hk) fun e => ?_
    have := (h.dirs pd).mp hpd
    rw [← e.1, h.direct k hk] at this
    cases this

end

namespace Vm

section
variable {use : Word → PageUse} {pd newPd : Word} {s : Vm}

theorem cloneTables_spec {is : List Index} (h : Owned use s.toTables) (hpd : pd ∈ s.pds) (hnew : newPd ∈ s.pds)
    (hu : ∀ i ∈ is, KERNEL_MAP_NUM_ENTRIES ≤ i.val) (hnd : is.Nodup) (hp : newPd ≠ pd)
    (hD : ∀ i ∈ is, s.kmem newPd i = PAGE_DIR_ENTRY_DEFAULT) {ok : Bool} {s' : Vm}
    (hc : cloneTables pd newPd is s = (ok, s')) :
    (∃ use', Owned use' s'.toTables) ∧ Extends s.toTables s'.toTables ∧ s'.cr3 = s.cr3 ∧ s'.umem = s.umem ∧
      (∀ {pd' i t}, TableAt s'.toTables pd' i t → TableAt s.toTables pd' i t ∨
        pd' = newPd ∧ ∃ t₀, TableAt s.toTables pd i t₀ ∧ s'.kmem t = s.kmem t₀) ∧
      (ok = true → ∀ i ∈ is, ∀ t₀, TableAt s.toTables pd i t₀ →
        ∃ t, TableAt s'.toTables newPd i t ∧ s'.kmem t = s.kmem t₀) := by
  induction is generalizing use s with
  | nil =>
    simp only [cloneTables, Prod.mk.injEq] at hc
    obtain ⟨rfl, rfl⟩ := hc
    exact ⟨⟨use, h⟩, Extends.rfl', rfl, rfl, Or.inl, by simp⟩
  | cons i is ih =>
    obtain ⟨hi, hnd⟩ := List.nodup_cons.mp hnd
    have hu' : ∀ k ∈ is, KERNEL_MAP_NUM_ENTRIES ≤ k.val := fun k hk => hu k (List.mem_cons_of_mem i hk)
    have hD' : ∀ k ∈ is, s.kmem newPd k = PAGE_DIR_ENTRY_DEFAULT := fun k hk => hD k (List.mem_cons_of_mem i hk)
    by_cases hp' : s.kmem pd i = PAGE_DIR_ENTRY_DEFAULT
    · rw [cloneTables_absent hp'] at hc
      obtain ⟨h₁, h₂, h₃, h₄, h₅, h₆⟩ := ih h hpd hnew hu' hnd hD' hc
      refine ⟨h₁, h₂, h₃, h₄, h₅, fun hok k hk t₀ ht₀ => ?_⟩
      rcases List.mem_cons.mp hk with rfl | hk
      · exact absurd hp' ht₀.present
      · exact h₆ hok k hk t₀ ht₀
    · cases hav : s.avail with
      | nil =>
        rw [cloneTables_nomem hp' hav] at hc
        simp only [Prod.mk.injEq] at hc
        obtain ⟨rfl, rfl⟩ := hc
        exact ⟨⟨use, h⟩, Extends.rfl', rfl, rfl, Or.inl, by simp⟩
      | cons a rest =>
        have ha : s.avail.head? = some a := by simp [hav]
        obtain ⟨hal, -, hd, -, -⟩ := h.fresh (List.mem_of_mem_head? ha)
        obtain ⟨t, ht⟩ : ∃ t, TableAt s.toTables pd i t := ⟨_, hpd, hu i (by simp), hp', rfl⟩
        rw [cloneTables_copy h ht ha] at hc
        obtain ⟨s₁, hs₁⟩ : ∃ s₁, s₁ = copyTable newPd i a t s := ⟨_, rfl⟩
        have htb : s₁.toTables = s.toTables.attach newPd i a (s.kmem t) := by rw [hs₁]; rfl
        rw [← hs₁] at hc
        have ho : Owned (Function.update use a (.table newPd i)) s₁.toTables := htb ▸ h.attach ha hnew ht.user
        have hext : Extends s.toTables s₁.toTables := htb ▸ h.extends_attach ha hnew (hD i (by simp))
        have hpds : s₁.pds = s.pds := hext.pds
        have hnewt : TableAt s₁.toTables newPd i a := htb ▸ TableAt.attach_new hal hnew ht.user
        have hcopy : s₁.kmem a = s.kmem t := by rw [htb, attach_kmem_self (ne_of_mem_of_not_mem hnew hd)]
        obtain ⟨h₁, h₂, h₃, h₄, h₅, h₆⟩ := ih ho (hpds ▸ hpd) (hpds ▸ hnew) hu' hnd (fun k hk => by
          rw [htb, attach_kmem_of_ne (ne_of_mem_of_not_mem hnew hd) fun e => ne_of_mem_of_not_mem hk hi e.2]
          exact hD' k hk) hc
        refine ⟨h₁, hext.trans h₂, h₃.trans (by rw [hs₁]; rfl), h₄.trans (by rw [hs₁]; rfl), fun ht' => ?_,
          fun hok k hk t₀ ht₀ => ?_⟩
        · rcases h₅ ht' with ht' | ⟨rfl, t₀, ht₀, he⟩
          · rcases (htb ▸ ht').of_attach hal hd with ⟨rfl, rfl, rfl⟩ | ht'
            · exact Or.inr ⟨rfl, t, ht, (h₂.tables hnewt).2.trans hcopy⟩
            · exact Or.inl ht'
          · rcases (htb ▸ ht₀).of_attach hal hd with ⟨rfl, -, -⟩ | ht₀
            · exact absurd rfl hp
            · exact Or.inr ⟨rfl, t₀, ht₀, he.trans (hext.tables ht₀).2⟩
        · rcases List.mem_cons.mp hk with rfl | hk
          · obtain rfl : t₀ = t := ht₀.addr.symm.trans ht.addr
            exact ⟨a, (h₂.tables hnewt).1, (h₂.tables hnewt).2.trans hcopy⟩
          · obtain ⟨ht₁, he₁⟩ := hext.tables ht₀
            obtain ⟨t', ht', he'⟩ := h₆ hok k hk t₀ ht₁
            exact ⟨t', ht', he'.trans he₁⟩

end

end Vm

/-! ## Copy-on-write marks -/

section
variable {e : Word}

theorem bit_cowEntry (h : e ≠ PAGE_TABLE_ENTRY_DEFAULT) {k : Nat} (hk : k < 32) :
    bit (Vm.cowEntry e) k = if k = 1 then false else if k = 9 then bit e 9 || bit e 1 else bit e k := by
  have hc : ∀ k < 32, bit COW_MODE k = decide (k = 9) := by decide
  have hm : ∀ k < 32, bit WRITE_DISABLE_MASK k = decide (k ≠ 1) := by decide
  have hw : getFlagsFromEntry e &&& READ_WRITE_ENABLE ≠ 0#32 ↔ bit e 1 = true := by
    rw [bit_write_mask]
    show bit (flags e) 1 = true ↔ _
    rw [bit_flags]
    simp
  unfold Vm.cowEntry
  rw [if_neg h]
  by_cases hb : bit e 1 = true
  · rw [if_pos (hw.mpr hb), bit_and, bit_or, hc k hk, hm k hk, hb]
    split_ifs <;> simp_all
  · rw [if_neg fun h => hb (hw.mp h)]
    split_ifs <;> simp_all

theorem cowEntry_default : Vm.cowEntry PAGE_TABLE_ENTRY_DEFAULT = PAGE_TABLE_ENTRY_DEFAULT := if_pos rfl

theorem base_cowEntry (e : Word) : base (Vm.cowEntry e) = base e := by
  by_cases h : e = PAGE_TABLE_ENTRY_DEFAULT
  · rw [h, cowEntry_default]
  · refine base_of_bits fun k hk h12 => ?_
    rw [bit_cowEntry h hk, if_neg (by omega), if_neg (by omega)]

theorem cowEntry_write (h : e ≠ PAGE_TABLE_ENTRY_DEFAULT) : bit (Vm.cowEntry e) 1 = false := by
  rw [bit_cowEntry h (by decide), if_pos rfl]

theorem cowEntry_eq_default : Vm.cowEntry e = PAGE_TABLE_ENTRY_DEFAULT ↔ e = PAGE_TABLE_ENTRY_DEFAULT := by
  refine ⟨fun he => ?_, fun he => by rw [he, cowEntry_default]⟩
  by_contra h
  have h1 := cowEntry_write h
  rw [he] at h1
  exact absurd h1 (by decide)

theorem cowEntry_cowEntry (e : Word) : Vm.cowEntry (Vm.cowEntry e) = Vm.cowEntry e := by
  by_cases h : e = PAGE_TABLE_ENTRY_DEFAULT
  · rw [h, cowEntry_default, cowEntry_default]
  · apply ext_bit
    intro k hk
    rw [bit_cowEntry (mt cowEntry_eq_default.mp h) hk, cowEntry_write h]
    split_ifs with h1 h9
    · rw [h1, cowEntry_write h]
    · simp [h9]
    · rfl

end

def Tables.cowDirectory (tb : Tables) (pd : Word) (is : List Index) : Tables :=
  { tb with kmem := fun p j => if p ∈ tablesOf tb pd is then Vm.cowEntry (tb.kmem p j) else tb.kmem p j }

section
variable (tb : Tables) (pd : Word) (is : List Index)

theorem cowDirectory_kmem (p : Word) (j : Index) : (tb.cowDirectory pd is).kmem p j =
    if p ∈ tablesOf tb pd is then Vm.cowEntry (tb.kmem p j) else tb.kmem p j := rfl

theorem cowDirectory_pds : (tb.cowDirectory pd is).pds = tb.pds := rfl

theorem cowDirectory_avail : (tb.cowDirectory pd is).avail = tb.avail := rfl

theorem cowDirectory_directMap : (tb.cowDirectory pd is).directMap = tb.directMap := rfl

end

theorem cowDirectory_cons {tb : Tables} {pd t : Word} {i : Index} (hD : tb.kmem pd i ≠ PAGE_DIR_ENTRY_DEFAULT)
    (ht : getAddrFromEntry (tb.kmem pd i) = t) (hpd : t ≠ pd) (is : List Index) :
    (tb.setPage t fun j => Vm.cowEntry (tb.kmem t j)).cowDirectory pd is = tb.cowDirectory pd (i :: is) := by
  have hk : (tb.setPage t fun j => Vm.cowEntry (tb.kmem t j)).kmem pd = tb.kmem pd := if_neg hpd.symm
  have h₁ : tablesOf tb pd (i :: is) = t :: tablesOf tb pd is := by simp [tablesOf, hD, ht]
  have h₂ : tablesOf (tb.setPage t fun j => Vm.cowEntry (tb.kmem t j)) pd is = tablesOf tb pd is := by
    unfold tablesOf
    rw [hk]
  unfold Tables.cowDirectory
  rw [h₁, h₂]
  simp only [Tables.setPage, Tables.mk.injEq, and_true]
  funext p j
  by_cases hp : p = t
  · simp [hp, cowEntry_cowEntry]
  · simp [hp]

theorem Vm.makePagesCow_fold {pd : Word} (is : List Index) (s : Vm)
    (h : ∀ i ∈ is, s.kmem pd i ≠ PAGE_DIR_ENTRY_DEFAULT →
      getAddrFromEntry (s.kmem pd i) ≠ 0#32 ∧ getAddrFromEntry (s.kmem pd i) ≠ pd) :
    is.foldl (fun s i => if s.kmem pd i ≠ PAGE_DIR_ENTRY_DEFAULT then
        makePtCow (getAddrFromEntry (s.kmem pd i)) s else s) s =
      { s with toTables := s.toTables.cowDirectory pd is } := by
  induction is generalizing s with
  | nil => simp [Tables.cowDirectory, tablesOf]
  | cons i is ih =>
    have h' := fun k hk => h k (List.mem_cons_of_mem i hk)
    rw [List.foldl_cons]
    by_cases hD : s.kmem pd i = PAGE_DIR_ENTRY_DEFAULT
    · rw [if_neg (not_not_intro hD), ih s h']
      simp [Tables.cowDirectory, tablesOf, hD]
    · obtain ⟨h0, hpd⟩ := h i (by simp) hD
      rw [if_pos hD, makePtCow, if_neg h0, ← cowDirectory_cons hD rfl hpd]
      -- the table written is not the directory, so the loop goes on as before
      refine ih _ ?_
      have hk : (s.setPage (getAddrFromEntry (s.kmem pd i)) fun j =>
          cowEntry (s.kmem (getAddrFromEntry (s.kmem pd i)) j)).kmem pd = s.kmem pd := if_neg hpd.symm
      rw [hk]
      exact h'

section
variable {use : Word → PageUse} {tb : Tables} {pd : Word}

theorem Vm.makePagesCow_eq {s : Vm} (h : Owned use s.toTables) (hpd : pd ∈ s.pds) :
    makePagesCow pd s = { s with toTables := s.toTables.cowDirectory pd userIndices } := by
  unfold makePagesCow
  rw [if_neg (h.pd_ne_zero hpd), makePagesCow_fold]
  intro i hi hne
  have ht : TableAt s.toTables pd i _ := ⟨hpd, mem_userIndices.mp hi, hne, rfl⟩
  exact ⟨h.table_ne_zero ht, (ne_of_mem_of_not_mem hpd (h.table_not_dir ht)).symm⟩

theorem cowDirectory_kmem_of_not_table (hpd : pd ∈ tb.pds) {p : Word} (h : ∀ i, ¬ TableAt tb pd i p) :
    (tb.cowDirectory pd Vm.userIndices).kmem p = tb.kmem p := by
  funext j
  rw [cowDirectory_kmem, if_neg]
  intro hm
  obtain ⟨i, hi⟩ := (mem_tablesOf hpd).mp hm
  exact h i hi

theorem cowDirectory_kmem_table {t : Word} {i : Index} (ht : TableAt tb pd i t) :
    (tb.cowDirectory pd Vm.userIndices).kmem t = fun j => Vm.cowEntry (tb.kmem t j) := by
  funext j
  rw [cowDirectory_kmem, if_pos ((mem_tablesOf ht.live).mpr ⟨i, ht⟩)]

theorem Owned.cowDirectory_dir (h : Owned use tb) (hpd : pd ∈ tb.pds) {q : Word} (hq : q ∈ tb.pds) :
    (tb.cowDirectory pd Vm.userIndices).kmem q = tb.kmem q :=
  cowDirectory_kmem_of_not_table hpd fun _ ht => h.table_not_dir ht hq

theorem Owned.cowDirectory (h : Owned use tb) (hpd : pd ∈ tb.pds) :
    Owned use (tb.cowDirectory pd Vm.userIndices) :=
  h.congr (cowDirectory_directMap ..) (cowDirectory_pds ..) (cowDirectory_avail ..) fun _ hq =>
  h.cowDirectory_dir hpd hq

theorem Owned.tableAt_cowDirectory (h : Owned use tb) (hpd : pd ∈ tb.pds) {pd' t : Word} {i : Index} :
    TableAt (tb.cowDirectory pd Vm.userIndices) pd' i t ↔ TableAt tb pd' i t := by
  constructor
  · intro ht
    have hl : pd' ∈ tb.pds := cowDirectory_pds tb pd Vm.userIndices ▸ ht.live
    have hk := h.cowDirectory_dir hpd hl
    exact ⟨hl, ht.user, hk ▸ ht.present, hk ▸ ht.addr⟩
  · intro ht
    have hk := h.cowDirectory_dir hpd ht.live
    exact ⟨ht.live, ht.user, hk.symm ▸ ht.present, hk.symm ▸ ht.addr⟩

theorem Owned.cowDirectory_kmem_other (h : Owned use tb) (hpd : pd ∈ tb.pds) {pd' t : Word} {i : Index}
    (ht : TableAt tb pd' i t) (hne : pd' ≠ pd) : (tb.cowDirectory pd Vm.userIndices).kmem t = tb.kmem t :=
  cowDirectory_kmem_of_not_table hpd fun _ ht' => hne (h.table_inj ht' ht).1

theorem tableFrames_cow (c : Index → Word) : tableFrames (fun j => Vm.cowEntry (c j)) = tableFrames c := by
  unfold tableFrames
  congr 1
  funext j
  unfold entryFrames getAddrFromEntry
  simp only [cowEntry_eq_default, base_cowEntry]

theorem Owned.refs_cowDirectory (h : Owned use tb) (hpd : pd ∈ tb.pds) :
    refs (tb.cowDirectory pd Vm.userIndices) = refs tb := by
  refine refs_congr (cowDirectory_pds ..) fun pd' hpd' i => ?_
  rcases pde_cases tb hpd' i with ⟨t, ht⟩ | hn
  · rw [pdeFrames_table ((h.tableAt_cowDirectory hpd).mpr ht), pdeFrames_table ht]
    by_cases hm : pd' = pd
    · subst hm
      rw [cowDirectory_kmem_table ht, tableFrames_cow]
    · rw [h.cowDirectory_kmem_other hpd ht hm]
  · rw [pdeFrames_absent hn, pdeFrames_absent (by rw [h.cowDirectory_dir hpd hpd']; exact hn)]

end

/-! ## clone_paging_info -/

structure Forked (pd newPd : Word) (tb tb' : Tables) : Prop where
  fresh : newPd ∉ tb.pds
  pds : tb'.pds = insert newPd tb.pds
  directMap : tb'.directMap = tb.directMap
  zero : tb'.kmem 0#32 = tb.kmem 0#32
  direct : ∀ i : Index, i.val < KERNEL_MAP_NUM_ENTRIES → tb'.kmem (tb.directMap i) = tb.kmem (tb.directMap i)
  own : ∀ {i t}, TableAt tb pd i t → TableAt tb' pd i t ∧ tb'.kmem t = fun j => Vm.cowEntry (tb.kmem t j)
  other : ∀ {pd' i t}, pd' ≠ pd → TableAt tb pd' i t → TableAt tb' pd' i t ∧ tb'.kmem t = tb.kmem t
  child : ∀ {i t₀}, TableAt tb pd i t₀ →
    ∃ t, TableAt tb' newPd i t ∧ tb'.kmem t = fun j => Vm.cowEntry (tb.kmem t₀ j)
  back : ∀ {pd' i t}, TableAt tb' pd' i t → TableAt tb pd' i t ∨
    pd' = newPd ∧ ∃ t₀, TableAt tb pd i t₀ ∧ tb'.kmem t = fun j => Vm.cowEntry (tb.kmem t₀ j)

section
variable {use : Word → PageUse} {pd newPd : Word} {tb : Tables}

theorem Owned.newDirectory_zero (h : Owned use tb) {a : Word} (ha : a ∈ tb.avail) :
    (tb.newDirectory a).kmem 0#32 = tb.kmem 0#32 :=
  newDirectory_kmem_of_ne (h.fresh ha).2.1.symm

theorem Owned.newDirectory_direct (h : Owned use tb) {a : Word} (ha : a ∈ tb.avail) (i : Index)
    (hi : i.val < KERNEL_MAP_NUM_ENTRIES) :
    (tb.newDirectory a).kmem (tb.directMap i) = tb.kmem (tb.directMap i) :=
  newDirectory_kmem_of_ne ((h.fresh ha).2.2.2.1 i hi)

theorem Owned.newDirectory_table (h : Owned use tb) {a : Word} (ha : a ∈ tb.avail) {pd t : Word} {i : Index}
    (ht : TableAt tb pd i t) : TableAt (tb.newDirectory a) pd i t ∧ (tb.newDirectory a).kmem t = tb.kmem t :=
  ⟨ht.newDirectory (h.fresh ha).2.2.1, newDirectory_kmem_of_ne ((h.fresh ha).2.2.2.2 _ _ _ ht)⟩

theorem Owned.cowDirectory_zero (h : Owned use tb) (hpd : pd ∈ tb.pds) :
    (tb.cowDirectory pd Vm.userIndices).kmem 0#32 = tb.kmem 0#32 :=
  cowDirectory_kmem_of_not_table hpd fun _ ht => h.table_ne_zero ht rfl

theorem Owned.cowDirectory_direct (h : Owned use tb) (hpd : pd ∈ tb.pds) (i : Index)
    (hi : i.val < KERNEL_MAP_NUM_ENTRIES) :
    (tb.cowDirectory pd Vm.userIndices).kmem (tb.directMap i) = tb.kmem (tb.directMap i) := by
  refine cowDirectory_kmem_of_not_table hpd fun k ht => ?_
  have := h.use_table ht
  rw [h.direct i hi] at this
  cases this

end

namespace Vm

section
variable {use : Word → PageUse} {pd newPd : Word} {s s' : Vm}

def withDirectory (newPd : Word) (s : Vm) : Vm := { s with toTables := s.toTables.newDirectory newPd }

theorem clonePagingInfo_eq (h0 : pd ≠ 0#32) {a : Word} (ha : s.avail.head? = some a) :
    clonePagingInfo pd s =
      match cloneTables pd a userIndices (s.withDirectory a) with
      | (false, s) => (none, freePagingInfo a s)
      | (true, s) => (some a, makePagesCow a (makePagesCow pd s)) := by
  unfold clonePagingInfo
  rw [if_neg h0, createPageDirectory_cons ha]
  rfl

theorem cloneTables_start (h : Owned use s.toTables) (hpd : pd ∈ s.pds) {a : Word} (ha : s.avail.head? = some a)
    {ok : Bool} {s₁ : Vm} (hc : cloneTables pd a userIndices (s.withDirectory a) = (ok, s₁)) :
    (∃ use', Owned use' s₁.toTables) ∧ Extends (s.toTables.newDirectory a) s₁.toTables ∧ s₁.cr3 = s.cr3 ∧
      s₁.umem = s.umem ∧
      (∀ {pd' i t}, TableAt s₁.toTables pd' i t → TableAt s.toTables pd' i t ∨
        pd' = a ∧ ∃ t₀, TableAt s.toTables pd i t₀ ∧ s₁.kmem t = s.kmem t₀) ∧
      (ok = true → ∀ i t₀, TableAt s.toTables pd i t₀ → ∃ t, TableAt s₁.toTables a i t ∧ s₁.kmem t = s.kmem t₀) := by
  have ham := List.mem_of_mem_head? ha
  obtain ⟨-, -, hd, -, -⟩ := h.fresh ham
  obtain ⟨h₁, h₂, h₃, h₄, h₅, h₆⟩ := cloneTables_spec (h.newDirectory ha) (Finset.mem_insert_of_mem hpd)
    (Finset.mem_insert_self a s.pds) (fun i hi => mem_userIndices.mp hi) userIndices_nodup
    (ne_of_mem_of_not_mem hpd hd).symm (fun i hi => by
      show (s.toTables.newDirectory a).kmem a i = _
      rw [newDirectory_kmem_self, if_neg (Nat.not_lt.mpr (mem_userIndices.mp hi))]) hc
  refine ⟨h₁, h₂, h₃, h₄, fun ht => ?_, fun hok i t₀ ht₀ => ?_⟩
  · rcases h₅ ht with ht | ⟨rfl, t₀, ht₀, he⟩
    · exact Or.inl (TableAt.of_newDirectory ht)
    · have ht₀' := TableAt.of_newDirectory ht₀
      exact Or.inr ⟨rfl, t₀, ht₀', he.trans (h.newDirectory_table ham ht₀').2⟩
  · obtain ⟨ht₁, he₁⟩ := h.newDirectory_table ham ht₀
    obtain ⟨t, ht, he⟩ := h₆ hok i (mem_userIndices.mpr ht₀.user) t₀ ht₁
    exact ⟨t, ht, he.trans he₁⟩

theorem clonePagingInfo_nil (h : s.avail = []) : clonePagingInfo pd s = (none, s) := by
  unfold clonePagingInfo
  rw [createPageDirectory_nil h]
  split <;> rfl

def Bare (s : Vm) : Prop := ∀ pd, ∀ i ∈ userIndices, s.kmem pd i = PAGE_DIR_ENTRY_DEFAULT

theorem Bare.withDirectory (h : s.Bare) (a : Word) : (s.withDirectory a).Bare := by
  intro pd i hi
  by_cases e : pd = a
  · rw [e]
    exact (newDirectory_kmem_self i).trans (if_neg (Nat.not_lt.mpr (mem_userIndices.mp hi)))
  · exact (congrFun (newDirectory_kmem_of_ne e) i).trans (h pd i hi)

theorem cloneTables_bare {is : List Index} (h : ∀ i ∈ is, s.kmem pd i = PAGE_DIR_ENTRY_DEFAULT) :
    cloneTables pd newPd is s = (true, s) := by
  induction is with
  | nil => rfl
  | cons i is ih =>
    unfold cloneTables
    rw [if_neg (by simp [h i]), ih fun j hj => h j (List.mem_cons_of_mem i hj)]

theorem makePagesCow_bare (h : s.Bare) : makePagesCow pd s = s := by
  have hpd := h pd
  unfold makePagesCow
  split
  · rfl
  · generalize userIndices = is at hpd
    induction is with
    | nil => rfl
    | cons i is ih =>
      rw [List.foldl_cons, if_neg (by simp [hpd i])]
      exact ih fun j hj => hpd j (List.mem_cons_of_mem i hj)

theorem clonePagingInfo_bare (h0 : pd ≠ 0#32) {a : Word} (ha : s.avail.head? = some a) (h : s.Bare) :
    clonePagingInfo pd s = (some a, s.withDirectory a) := by
  have hb := h.withDirectory a
  rw [clonePagingInfo_eq h0 ha, cloneTables_bare (hb pd)]
  dsimp only
  rw [makePagesCow_bare hb, makePagesCow_bare hb]

theorem clonePagingInfo_some (h : Owned use s.toTables) (hpd : pd ∈ s.pds)
    (hc : clonePagingInfo pd s = (some newPd, s')) :
    (∃ use', Owned use' s'.toTables) ∧ Forked pd newPd s.toTables s'.toTables ∧ s'.cr3 = s.cr3 ∧ s'.umem = s.umem := by
  cases hav : s.avail with
  | nil => simp [clonePagingInfo_nil hav] at hc
  | cons a rest =>
    have ha : s.avail.head? = some a := by simp [hav]
    have ham := List.mem_of_mem_head? ha
    have hd := (h.fresh ham).2.2.1
    rw [clonePagingInfo_eq (h.pd_ne_zero hpd) ha] at hc
    split at hc
    · simp at hc
    · rename_i s₁ hc₁
      obtain ⟨⟨use₁, h₁⟩, hext, hcr, hum, hback, hall⟩ := cloneTables_start h hpd ha hc₁
      have hpds : s₁.pds = insert a s.pds := hext.pds
      have hpd₁ : pd ∈ s₁.pds := hpds ▸ Finset.mem_insert_of_mem hpd
      have ha₁ : a ∈ s₁.pds := hpds ▸ Finset.mem_insert_self a s.pds
      have hpa : pd ≠ a := ne_of_mem_of_not_mem hpd hd
      have h₂ := h₁.cowDirectory hpd₁
      have ha₂ : a ∈ (s₁.toTables.cowDirectory pd userIndices).pds := by rwa [cowDirectory_pds]
      rw [makePagesCow_eq h₁ hpd₁,
        makePagesCow_eq (s := { s₁ with toTables := s₁.toTables.cowDirectory pd userIndices }) h₂ ha₂] at hc
      simp only [Prod.mk.injEq, Option.some.injEq] at hc
      obtain ⟨rfl, rfl⟩ := hc
      -- what the three stages keep of a table that was there before
      have hold : ∀ {pd' i t}, TableAt s.toTables pd' i t → TableAt s₁.toTables pd' i t ∧ s₁.kmem t = s.kmem t :=
        fun ht => by
          obtain ⟨h₃, h₄⟩ := h.newDirectory_table ham ht
          exact ⟨(hext.tables h₃).1, (hext.tables h₃).2.trans h₄⟩
      have hup : ∀ {pd' i t}, TableAt s₁.toTables pd' i t →
          TableAt (s₁.toTables.cowDirectory pd userIndices) pd' i t ∧
          TableAt ((s₁.toTables.cowDirectory pd userIndices).cowDirectory a userIndices) pd' i t := fun ht =>
        have ht₂ := (h₁.tableAt_cowDirectory hpd₁).mpr ht
        ⟨ht₂, (h₂.tableAt_cowDirectory ha₂).mpr ht₂⟩
      have hchild : ∀ {i t}, TableAt s₁.toTables a i t →
          ((s₁.toTables.cowDirectory pd userIndices).cowDirectory a userIndices).kmem t =
            fun j => cowEntry (s₁.kmem t j) := fun ht => by
        rw [cowDirectory_kmem_table (hup ht).1, h₁.cowDirectory_kmem_other hpd₁ ht hpa.symm]
      refine ⟨⟨use₁, h₂.cowDirectory ha₂⟩, ⟨hd, ?_, ?_, ?_, fun i hi => ?_, fun ht => ?_, fun hne ht => ?_,
        fun ht => ?_, fun ht => ?_⟩, hcr, hum⟩
      · rw [cowDirectory_pds, cowDirectory_pds, hpds]
      · rw [cowDirectory_directMap, cowDirectory_directMap]
        exact hext.directMap
      · rw [h₂.cowDirectory_zero ha₂, h₁.cowDirectory_zero hpd₁, hext.zero, h.newDirectory_zero ham]
      · have hdm : s₁.directMap = s.directMap := hext.directMap
        have e₃ := h₂.cowDirectory_direct ha₂ i hi
        have e₂ := h₁.cowDirectory_direct hpd₁ i hi
        rw [cowDirectory_directMap, hdm] at e₃
        rw [hdm] at e₂
        exact e₃.trans (e₂.trans ((hext.direct i hi).trans (h.newDirectory_direct ham i hi)))
      · obtain ⟨ht₁, he₁⟩ := hold ht
        refine ⟨(hup ht₁).2, ?_⟩
        rw [h₂.cowDirectory_kmem_other ha₂ (hup ht₁).1 hpa, cowDirectory_kmem_table ht₁, he₁]
      · obtain ⟨ht₁, he₁⟩ := hold ht
        refine ⟨(hup ht₁).2, ?_⟩
        rw [h₂.cowDirectory_kmem_other ha₂ (hup ht₁).1 (ne_of_mem_of_not_mem ht.live hd),
          h₁.cowDirectory_kmem_other hpd₁ ht₁ hne, he₁]
      · obtain ⟨t, ht₁, he₁⟩ := hall rfl _ _ ht
        exact ⟨t, (hup ht₁).2, by rw [hchild ht₁, he₁]⟩
      · have ht₁ := (h₁.tableAt_cowDirectory hpd₁).mp ((h₂.tableAt_cowDirectory ha₂).mp ht)
        rcases hback ht₁ with ht₀ | ⟨rfl, t₀, ht₀, he₀⟩
        · exact Or.inl ht₀
        · exact Or.inr ⟨rfl, t₀, ht₀, by rw [hchild ht₁, he₀]⟩

theorem clonePagingInfo_none (h : Owned use s.toTables) (hpd : pd ∈ s.pds)
    (hc : clonePagingInfo pd s = (none, s')) :
    (∃ use', Owned use' s'.toTables) ∧ Extends s.toTables s'.toTables ∧ s'.cr3 = s.cr3 ∧ s'.umem = s.umem ∧
      ∀ {pd' i t}, TableAt s'.toTables pd' i t → TableAt s.toTables pd' i t := by
  cases hav : s.avail with
  | nil =>
    rw [clonePagingInfo_nil hav, Prod.mk.injEq] at hc
    obtain ⟨-, rfl⟩ := hc
    exact ⟨⟨use, h⟩, Extends.rfl', rfl, rfl, id⟩
  | cons a rest =>
    have ha : s.avail.head? = some a := by simp [hav]
    have ham := List.mem_of_mem_head? ha
    have hd := (h.fresh ham).2.2.1
    rw [clonePagingInfo_eq (h.pd_ne_zero hpd) ha] at hc
    split at hc
    · rename_i s₁ hc₁
      obtain ⟨⟨use₁, h₁⟩, hext, hcr, hum, hback, -⟩ := cloneTables_start h hpd ha hc₁
      have hpds : s₁.pds = insert a s.pds := hext.pds
      have ha₁ : a ∈ s₁.pds := hpds ▸ Finset.mem_insert_self a s.pds
      rw [freePagingInfo_eq h₁ ha₁, Prod.mk.injEq] at hc
      obtain ⟨-, rfl⟩ := hc
      refine ⟨⟨_, h₁.freeDirectory ha₁⟩, ⟨?_, hext.directMap, ?_, fun i hi => ?_, fun ht => ?_⟩, hcr, hum, fun ht => ?_⟩
      · show s₁.pds.erase a = s.pds
        rw [hpds, Finset.erase_insert hd]
      · exact hext.zero.trans (h.newDirectory_zero ham)
      · exact (hext.direct i hi).trans (h.newDirectory_direct ham i hi)
      · obtain ⟨h₃, h₄⟩ := h.newDirectory_table ham ht
        obtain ⟨h₅, h₆⟩ := hext.tables h₃
        exact ⟨⟨Finset.mem_erase.mpr ⟨ne_of_mem_of_not_mem ht.live hd, h₅.live⟩, h₅.user, h₅.present, h₅.addr⟩,
          h₆.trans h₄⟩
      · obtain ⟨ht₁, hne⟩ := TableAt.of_freeDirectory ht
        rcases hback ht₁ with ht₀ | ⟨rfl, -⟩
        · exact ht₀
        · exact absurd rfl hne
    · simp at hc

end

/-! ## handle_cow -/

def cowDone (e f : Word) : Word := ((f ||| getFlagsFromEntry e) &&& COW_MODE_DISABLE_MASK) ||| READ_WRITE_ENABLE

section
variable {addr : Word} {s : Vm}

def cowFrame (addr : Word) (s : Vm) : Word := getAddrFromEntry (s.pte s.cr3 addr)

theorem handleCow_sole (h : (lockFrame (cowFrame addr s) s.fr).frameRefCount (frameIndex (cowFrame addr s)) = 1) :
    handleCow addr s = (0, { s with
      toTables := s.toTables.setWord (s.ptAddr s.cr3 addr) (getPtIndex addr)
        ((s.pte s.cr3 addr &&& COW_MODE_DISABLE_MASK) ||| READ_WRITE_ENABLE)
      fr := unlockFrame (cowFrame addr s) (lockFrame (cowFrame addr s) s.fr) }) := by
  unfold handleCow
  unfold cowFrame Tables.pte at h
  dsimp only [withFrames, setCurPd]
  rw [if_pos h]
  simp only [setWord, setWord_self, setWord_setWord]
  rfl

theorem handleCow_full {fr : Frames}
    (h : (lockFrame (cowFrame addr s) s.fr).frameRefCount (frameIndex (cowFrame addr s)) ≠ 1)
    (ha : allocateFrame (lockFrame (cowFrame addr s) s.fr) = (none, fr)) :
    handleCow addr s = (ERR_FAILURE, { s with fr := unlockFrame (cowFrame addr s) fr }) := by
  unfold handleCow
  unfold cowFrame Tables.pte at h ha
  dsimp only [withFrames, setCurPd]
  rw [if_neg h, ha]
  rfl

theorem handleCow_copy {fr : Frames} {g : Word}
    (h : (lockFrame (cowFrame addr s) s.fr).frameRefCount (frameIndex (cowFrame addr s)) ≠ 1)
    (ha : allocateFrame (lockFrame (cowFrame addr s) s.fr) = (some g, fr)) :
    handleCow addr s = (0, { s with
      toTables := s.toTables.setWord (s.ptAddr s.cr3 addr) (getPtIndex addr) (cowDone (s.pte s.cr3 addr) g)
      fr := unlockFrame (cowFrame addr s) (incRefCount g (addRefCount (cowFrame addr s) (-1) fr))
      umem := fun f => if f = getAddrFromEntry ((s.toTables.setWord (s.ptAddr s.cr3 addr) (getPtIndex addr)
          ((g ||| getFlagsFromEntry (s.pte s.cr3 addr)) &&& COW_MODE_DISABLE_MASK)).pte s.cr3 (pageRoundDown addr))
        then s.readPage (pageRoundDown addr) else s.umem f }) := by
  unfold handleCow
  unfold cowFrame Tables.pte at h ha
  dsimp only [withFrames, setCurPd]
  rw [if_neg h, ha]
  simp only [setWord, setWord_self, setWord_setWord, writePage, setFrame]
  rfl

end

end Vm

end Pebbles
