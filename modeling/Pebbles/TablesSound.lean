import Pebbles.Vm
import Pebbles.FramesSound
import Pebbles.Lib.Sums

/-!
# Who owns which kernel page

Every kernel page has one use: a directory, the table of one directory entry,
a page of the direct map, free, or none of these. Writing an entry of a table
therefore changes what one directory entry leads to and nothing else, and the
number of references to a frame changes by that entry.
-/

namespace Pebbles

open Words Sums

inductive PageUse where
  | free
  | reserved
  | direct (i : Index)
  | directory
  | table (pd : Word) (i : Index)

structure Owned (use : Word → PageUse) (tb : Tables) : Prop where
  aligned : ∀ p, use p ≠ .reserved → Aligned p
  zero : use 0#32 = .reserved
  avail_nodup : tb.avail.Nodup
  avail : ∀ a ∈ tb.avail, use a = .free
  dirs : ∀ pd, pd ∈ tb.pds ↔ use pd = .directory
  direct : ∀ i : Index, i.val < KERNEL_MAP_NUM_ENTRIES → use (tb.directMap i) = .direct i
  kernel : ∀ pd ∈ tb.pds, ∀ i : Index, i.val < KERNEL_MAP_NUM_ENTRIES →
    tb.kmem pd i = tb.directMap i ||| (PAGE_ENTRY_PRESENT ||| READ_WRITE_ENABLE)
  tables : ∀ pd ∈ tb.pds, ∀ i : Index, KERNEL_MAP_NUM_ENTRIES ≤ i.val → tb.kmem pd i ≠ PAGE_DIR_ENTRY_DEFAULT →
    use (getAddrFromEntry (tb.kmem pd i)) = .table pd i ∧ getFlagsFromEntry (tb.kmem pd i) = USER_PD_ENTRY_FLAGS

structure KernelPages (tb : Tables) : Prop where
  zero : ∀ j, tb.kmem 0#32 j = PAGE_TABLE_ENTRY_DEFAULT
  direct : ∀ i j : Index, i.val < KERNEL_MAP_NUM_ENTRIES → tb.kmem (tb.directMap i) j = directEntry i j

structure TableAt (tb : Tables) (pd : Word) (i : Index) (t : Word) : Prop where
  live : pd ∈ tb.pds
  user : KERNEL_MAP_NUM_ENTRIES ≤ i.val
  present : tb.kmem pd i ≠ PAGE_DIR_ENTRY_DEFAULT
  addr : getAddrFromEntry (tb.kmem pd i) = t

section
variable {use : Word → PageUse} {tb tb' : Tables}

theorem Owned.congr (h : Owned use tb) (hd : tb'.directMap = tb.directMap) (hp : tb'.pds = tb.pds)
    (ha : tb'.avail = tb.avail) (hk : ∀ pd ∈ tb.pds, tb'.kmem pd = tb.kmem pd) : Owned use tb' := by
  refine ⟨h.aligned, h.zero, ha ▸ h.avail_nodup, ha ▸ h.avail, hp ▸ h.dirs, hd ▸ h.direct, ?_, ?_⟩
  · intro pd hpd i hi
    rw [hp] at hpd
    rw [hk pd hpd, hd]
    exact h.kernel pd hpd i hi
  · intro pd hpd i hi hne
    rw [hp] at hpd
    rw [hk pd hpd] at hne ⊢
    exact h.tables pd hpd i hi hne

theorem Owned.use_table (h : Owned use tb) {pd t : Word} {i : Index} (ht : TableAt tb pd i t) :
    use t = .table pd i :=
  ht.addr ▸ (h.tables pd ht.live i ht.user ht.present).1

theorem Owned.table_inj (h : Owned use tb) {pd pd' t : Word} {i i' : Index} (ht : TableAt tb pd i t)
    (ht' : TableAt tb pd' i' t) : pd' = pd ∧ i' = i := by
  have := (h.use_table ht').symm.trans (h.use_table ht)
  simpa using this

theorem Owned.table_not_dir (h : Owned use tb) {pd t : Word} {i : Index} (ht : TableAt tb pd i t) : t ∉ tb.pds := by
  rw [h.dirs, h.use_table ht]
  simp

theorem Owned.pd_ne_zero (h : Owned use tb) {pd : Word} (hpd : pd ∈ tb.pds) : pd ≠ 0#32 := by
  rintro rfl
  have := (h.dirs _).mp hpd
  rw [h.zero] at this
  cases this

theorem Owned.table_ne_zero (h : Owned use tb) {pd t : Word} {i : Index} (ht : TableAt tb pd i t) : t ≠ 0#32 := by
  rintro rfl
  have := h.use_table ht
  rw [h.zero] at this
  cases this

theorem Owned.kernel_addr (h : Owned use tb) {pd : Word} (hpd : pd ∈ tb.pds) {i : Index}
    (hi : i.val < KERNEL_MAP_NUM_ENTRIES) : getAddrFromEntry (tb.kmem pd i) = tb.directMap i := by
  have hal : Aligned (tb.directMap i) := h.aligned _ (by rw [h.direct i hi]; simp)
  rw [h.kernel pd hpd i hi]
  exact base_or hal (by decide)

theorem Owned.user_of_default (h : Owned use tb) {pd : Word} (hpd : pd ∈ tb.pds) {i : Index}
    (hD : tb.kmem pd i = PAGE_DIR_ENTRY_DEFAULT) : KERNEL_MAP_NUM_ENTRIES ≤ i.val := by
  by_contra hk
  have hi := Nat.lt_of_not_le hk
  have ha := h.kernel_addr hpd hi
  have hz := h.direct i hi
  rw [hD] at ha
  rw [← ha, show getAddrFromEntry PAGE_DIR_ENTRY_DEFAULT = 0#32 by decide, h.zero] at hz
  cases hz

theorem Owned.ptAddr_cases (h : Owned use tb) {pd : Word} (hpd : pd ∈ tb.pds) (va : Word) :
    TableAt tb pd (getPdIndex va) (tb.ptAddr pd va) ∨
      ((getPdIndex va).val < KERNEL_MAP_NUM_ENTRIES ∧ tb.ptAddr pd va = tb.directMap (getPdIndex va)) ∨
      (KERNEL_MAP_NUM_ENTRIES ≤ (getPdIndex va).val ∧ tb.kmem pd (getPdIndex va) = PAGE_DIR_ENTRY_DEFAULT ∧
        tb.ptAddr pd va = 0#32) := by
  by_cases hi : (getPdIndex va).val < KERNEL_MAP_NUM_ENTRIES
  · exact Or.inr (Or.inl ⟨hi, h.kernel_addr hpd hi⟩)
  · by_cases hd : tb.kmem pd (getPdIndex va) = PAGE_DIR_ENTRY_DEFAULT
    · refine Or.inr (Or.inr ⟨Nat.le_of_not_lt hi, hd, ?_⟩)
      unfold Tables.ptAddr
      rw [hd]
      decide
    · exact Or.inl ⟨hpd, Nat.le_of_not_lt hi, hd, rfl⟩

end

theorem directEntry_flags (i j : Index) : getNewpageFlags (directEntry i j) = 0#32 := by
  have hal : Aligned (BitVec.ofNat 32 ((i.val * 1024 + j.val) * PAGE_SIZE)) := by
    rw [aligned_iff]
    simp only [BitVec.toNat_ofNat, PAGE_SIZE]
    omega
  exact (getNewpageFlags_or hal).trans (by decide)

theorem directEntry_ne_default (i j : Index) : directEntry i j ≠ PAGE_TABLE_ENTRY_DEFAULT := by
  apply ne_default_of_present
  unfold directEntry
  rw [bit_or]
  have : bit (PAGE_ENTRY_PRESENT ||| READ_WRITE_ENABLE ||| GLOBAL_PAGE_ENTRY) 0 = true := by decide
  simp [this]

/-! ## References to frames -/

def entryFrames (e : Word) : List Word := if e = PAGE_TABLE_ENTRY_DEFAULT then [] else [getAddrFromEntry e]

@[irreducible] def tableFrames (c : Index → Word) : List Word := (List.finRange 1024).flatMap fun j => entryFrames (c j)

def pdeFrames (tb : Tables) (pd : Word) (i : Index) : List Word :=
  if i.val < KERNEL_MAP_NUM_ENTRIES ∨ tb.kmem pd i = PAGE_DIR_ENTRY_DEFAULT then []
  else tableFrames (tb.kmem (getAddrFromEntry (tb.kmem pd i)))

/-- The number of non-default entries for frame `f` in the user tables of all
live directories. -/
def refs (tb : Tables) (f : Word) : Nat :=
  ∑ p ∈ tb.pds ×ˢ (Finset.univ : Finset Index), (pdeFrames tb p.1 p.2).count f

theorem entryFrames_default : entryFrames PAGE_TABLE_ENTRY_DEFAULT = [] := if_pos rfl

theorem entryFrames_of_ne {e : Word} (h : e ≠ PAGE_TABLE_ENTRY_DEFAULT) : entryFrames e = [base e] := if_neg h

theorem count_tableFrames (c : Index → Word) (f : Word) :
    (tableFrames c).count f = ∑ j : Index, (entryFrames (c j)).count f := by
  unfold tableFrames
  rw [List.count_flatMap, Fin.sum_univ_def]
  rfl

theorem tableFrames_default : tableFrames (fun _ => PAGE_TABLE_ENTRY_DEFAULT) = [] := by
  unfold tableFrames
  simp [entryFrames_default]

theorem mem_tableFrames {c : Index → Word} {f : Word} :
    f ∈ tableFrames c ↔ ∃ j, c j ≠ PAGE_TABLE_ENTRY_DEFAULT ∧ base (c j) = f := by
  unfold tableFrames
  simp only [List.mem_flatMap, List.mem_finRange, true_and]
  refine exists_congr fun j => ?_
  by_cases h : c j = PAGE_TABLE_ENTRY_DEFAULT
  · simp [h, entryFrames_default]
  · simp only [entryFrames_of_ne h, List.mem_singleton, h, not_false_eq_true, true_and, ne_eq]
    exact eq_comm

section
variable {use : Word → PageUse} {tb tb' : Tables}

theorem pdeFrames_table {pd t : Word} {i : Index} (ht : TableAt tb pd i t) :
    pdeFrames tb pd i = tableFrames (tb.kmem t) := by
  unfold pdeFrames
  rw [if_neg, ht.addr]
  rintro (h | h)
  · exact absurd ht.user (Nat.not_le.mpr h)
  · exact ht.present h

theorem pdeFrames_absent {pd : Word} {i : Index}
    (h : i.val < KERNEL_MAP_NUM_ENTRIES ∨ tb.kmem pd i = PAGE_DIR_ENTRY_DEFAULT) : pdeFrames tb pd i = [] := if_pos h

theorem pde_cases (tb : Tables) {pd : Word} (hpd : pd ∈ tb.pds) (i : Index) :
    (∃ t, TableAt tb pd i t) ∨ (i.val < KERNEL_MAP_NUM_ENTRIES ∨ tb.kmem pd i = PAGE_DIR_ENTRY_DEFAULT) := by
  by_cases h : i.val < KERNEL_MAP_NUM_ENTRIES ∨ tb.kmem pd i = PAGE_DIR_ENTRY_DEFAULT
  · exact Or.inr h
  · rw [not_or] at h
    exact Or.inl ⟨_, hpd, Nat.le_of_not_lt h.1, h.2, rfl⟩

theorem refs_congr (hp : tb'.pds = tb.pds) (h : ∀ pd ∈ tb.pds, ∀ i, pdeFrames tb' pd i = pdeFrames tb pd i) :
    refs tb' = refs tb := by
  funext f
  unfold refs
  rw [hp]
  refine Finset.sum_congr rfl fun p hq => ?_
  rw [h p.1 (Finset.mem_product.mp hq).1]

theorem mem_pairs {pd t : Word} {i : Index} (ht : TableAt tb pd i t) :
    (pd, i) ∈ tb.pds ×ˢ (Finset.univ : Finset Index) :=
  Finset.mem_product.mpr ⟨ht.live, Finset.mem_univ _⟩

theorem refs_pos {pd t : Word} {i j : Index} (ht : TableAt tb pd i t) (hne : tb.kmem t j ≠ PAGE_TABLE_ENTRY_DEFAULT) :
    refs tb (base (tb.kmem t j)) ≠ 0 := by
  have hm : base (tb.kmem t j) ∈ pdeFrames tb pd i := by
    rw [pdeFrames_table ht]
    exact mem_tableFrames.mpr ⟨j, hne, rfl⟩
  have h1 := List.count_pos_iff.mpr hm
  have h2 : (pdeFrames tb pd i).count (base (tb.kmem t j)) ≤ refs tb (base (tb.kmem t j)) :=
    Finset.single_le_sum (f := fun p : Word × Index => (pdeFrames tb p.1 p.2).count (base (tb.kmem t j)))
      (fun _ _ => Nat.zero_le _) (mem_pairs ht)
  omega

theorem refs_two {pd pd' t t' : Word} {i i' j j' : Index} (ht : TableAt tb pd i t)
    (ht' : TableAt tb pd' i' t') (hne : tb.kmem t j ≠ PAGE_TABLE_ENTRY_DEFAULT)
    (hne' : tb.kmem t' j' ≠ PAGE_TABLE_ENTRY_DEFAULT) (hb : base (tb.kmem t' j') = base (tb.kmem t j))
    (hp : ¬ (t' = t ∧ j' = j)) : 2 ≤ refs tb (base (tb.kmem t j)) := by
  let f := base (tb.kmem t j)
  show 2 ≤ ∑ p ∈ tb.pds ×ˢ (Finset.univ : Finset Index), (pdeFrames tb p.1 p.2).count f
  by_cases htt : t' = t
  · subst htt
    have hjj : j' ≠ j := fun e => hp ⟨rfl, e⟩
    have h2 : 2 ≤ (pdeFrames tb pd i).count f := by
      rw [pdeFrames_table ht, count_tableFrames]
      refine two_le_sum (Finset.mem_univ j) (Finset.mem_univ j') hjj.symm ?_ ?_
      · rw [entryFrames_of_ne hne]; simp [f]
      · rw [entryFrames_of_ne hne', hb]; simp [f]
    exact h2.trans (Finset.single_le_sum (f := fun p : Word × Index => (pdeFrames tb p.1 p.2).count f)
      (fun _ _ => Nat.zero_le _) (mem_pairs ht))
  · have hpi : (pd, i) ≠ (pd', i') := by
      intro e
      simp only [Prod.mk.injEq] at e
      obtain ⟨rfl, rfl⟩ := e
      exact htt (ht'.addr.symm.trans ht.addr)
    refine two_le_sum (mem_pairs ht) (mem_pairs ht') hpi ?_ ?_
    · rw [pdeFrames_table ht]
      exact List.count_pos_iff.mpr (mem_tableFrames.mpr ⟨j, hne, rfl⟩)
    · rw [pdeFrames_table ht']
      exact List.count_pos_iff.mpr (mem_tableFrames.mpr ⟨j', hne', hb⟩)

/-! ## Writing one entry -/

theorem setWord_kmem (tb : Tables) (t : Word) (j : Index) (w : Word) (p : Word) (k : Index) :
    (tb.setWord t j w).kmem p k = if p = t ∧ k = j then w else tb.kmem p k := rfl

theorem setWord_self (tb : Tables) (t : Word) (j : Index) (w : Word) : (tb.setWord t j w).kmem t j = w :=
  if_pos ⟨rfl, rfl⟩

theorem setWord_of_ne {t p : Word} {j k : Index} (h : ¬ (p = t ∧ k = j)) (tb : Tables) (w : Word) :
    (tb.setWord t j w).kmem p k = tb.kmem p k := if_neg h

theorem setWord_other {t p : Word} (h : p ≠ t) (tb : Tables) (j : Index) (w : Word) :
    (tb.setWord t j w).kmem p = tb.kmem p := by
  funext k
  exact setWord_of_ne (fun e => h e.1) tb w

theorem setWord_setWord (tb : Tables) (t : Word) (j : Index) (v w : Word) :
    (tb.setWord t j v).setWord t j w = tb.setWord t j w := by
  unfold Tables.setWord
  simp only [Tables.mk.injEq, and_true]
  funext p k
  split <;> rfl

theorem Owned.setWord (h : Owned use tb) {t : Word} (ht : t ∉ tb.pds) (j : Index) (w : Word) :
    Owned use (tb.setWord t j w) :=
  h.congr rfl rfl rfl fun _ hpd => setWord_other (ne_of_mem_of_not_mem hpd ht) tb j w

theorem TableAt.setWord {pd t p : Word} {i : Index} (ht : TableAt tb pd i t) (hp : p ∉ tb.pds) (j : Index)
    (w : Word) : TableAt (tb.setWord p j w) pd i t := by
  have : (tb.setWord p j w).kmem pd = tb.kmem pd := setWord_other (ne_of_mem_of_not_mem ht.live hp) tb j w
  exact ⟨ht.live, ht.user, this ▸ ht.present, this ▸ ht.addr⟩

theorem TableAt.of_setWord {pd t p : Word} {i j : Index} {w : Word} (ht : TableAt (tb.setWord p j w) pd i t)
    (hp : p ∉ tb.pds) : TableAt tb pd i t := by
  have : (tb.setWord p j w).kmem pd = tb.kmem pd := setWord_other (ne_of_mem_of_not_mem ht.live hp) tb j w
  exact ⟨ht.live, ht.user, this ▸ ht.present, this ▸ ht.addr⟩

theorem refs_setWord (ho : Owned use tb) {pd t : Word} {i : Index} (ht : TableAt tb pd i t) (j : Index) (w f : Word) :
    refs (tb.setWord t j w) f + (entryFrames (tb.kmem t j)).count f = refs tb f + (entryFrames w).count f := by
  have hdir := ho.table_not_dir ht
  have hc : (pdeFrames (tb.setWord t j w) pd i).count f + (entryFrames (tb.kmem t j)).count f =
      (pdeFrames tb pd i).count f + (entryFrames w).count f := by
    rw [pdeFrames_table (ht.setWord hdir j w), pdeFrames_table ht, count_tableFrames, count_tableFrames]
    have := sum_change (S := Finset.univ) (p := j) (g := fun k => (entryFrames (tb.kmem t k)).count f)
      (k := fun k => (entryFrames ((tb.setWord t j w).kmem t k)).count f) (Finset.mem_univ j)
      (fun k _ hk => by rw [setWord_of_ne (fun e => hk e.2)])
    rw [setWord_self] at this
    exact this
  have hs := sum_change (S := tb.pds ×ˢ (Finset.univ : Finset Index)) (p := (pd, i))
    (g := fun p => (pdeFrames tb p.1 p.2).count f) (k := fun p => (pdeFrames (tb.setWord t j w) p.1 p.2).count f)
    (mem_pairs ht) (fun q hq hne => by
      obtain ⟨pd', i'⟩ := q
      have hpd' : pd' ∈ tb.pds := (Finset.mem_product.mp hq).1
      have hk : (tb.setWord t j w).kmem pd' = tb.kmem pd' := setWord_other (ne_of_mem_of_not_mem hpd' hdir) tb j w
      rcases pde_cases tb hpd' i' with ⟨t', ht'⟩ | hn
      · have htt : t' ≠ t := by
          rintro rfl
          obtain ⟨rfl, rfl⟩ := ho.table_inj ht ht'
          exact hne rfl
        rw [pdeFrames_table (ht'.setWord hdir j w), pdeFrames_table ht', setWord_other htt]
      · rw [pdeFrames_absent hn, pdeFrames_absent (by rw [hk]; exact hn)])
  unfold refs
  simp only [Tables.setWord] at hs hc ⊢
  omega

theorem refs_setWord_same (ho : Owned use tb) {pd t : Word} {i j : Index} {w : Word} (ht : TableAt tb pd i t)
    (hne : tb.kmem t j ≠ PAGE_TABLE_ENTRY_DEFAULT) (hw : w ≠ PAGE_TABLE_ENTRY_DEFAULT)
    (hb : base w = base (tb.kmem t j)) : refs (tb.setWord t j w) = refs tb := by
  funext f
  have := refs_setWord ho ht j w f
  rw [entryFrames_of_ne hne, entryFrames_of_ne hw, hb] at this
  omega

theorem refs_clear (ho : Owned use tb) {pd t : Word} {i j : Index} (ht : TableAt tb pd i t)
    (hne : tb.kmem t j ≠ PAGE_TABLE_ENTRY_DEFAULT) (f : Word) :
    refs tb f = plus (refs (tb.setWord t j PAGE_TABLE_ENTRY_DEFAULT)) [base (tb.kmem t j)] f := by
  have := refs_setWord ho ht j PAGE_TABLE_ENTRY_DEFAULT f
  rw [entryFrames_default, entryFrames_of_ne hne] at this
  exact this.symm

theorem refs_put (ho : Owned use tb) {pd t w : Word} {i : Index} (ht : TableAt tb pd i t) (j : Index)
    (hw : w ≠ PAGE_TABLE_ENTRY_DEFAULT) (f : Word) :
    plus (refs (tb.setWord t j PAGE_TABLE_ENTRY_DEFAULT)) [base w] f = refs (tb.setWord t j w) f := by
  have h₁ := refs_setWord ho ht j PAGE_TABLE_ENTRY_DEFAULT f
  have h₂ := refs_setWord ho ht j w f
  rw [entryFrames_default, List.count_nil] at h₁
  rw [entryFrames_of_ne hw] at h₂
  simp only [plus]
  omega

end

end Pebbles
