import Pebbles.Lib.Traced
import Pebbles.NewPages

/-!
# The directory entries that tables are fetched through

The page fault handler, `remove_pages` and `new_pages`, with the directory entries through
which they come to a table that they read or write. An absent entry leads to page 0.
-/

namespace Pebbles

open Words Traced

namespace Vm

def fetch (pd va : Word) (s : Vm) : Run Word Word := .read (s.kmem pd (getPdIndex va)) (some (s.pte pd va))

def change {β : Type} (pd va : Word) (s : Vm) (t : β) : Run Word β := .write (s.kmem pd (getPdIndex va)) (some t)

def fetchAddrCow (addr : Word) (s : Vm) : Run Word Bool :=
  if addr.toNat < USER_MEM_START then return false
  else do
    let e ← s.fetch s.cr3 addr
    return e ||| COW_MODE ≠ 0#32 && !(e &&& READ_WRITE_ENABLE ≠ 0#32) && e &&& PAGE_ENTRY_PRESENT ≠ 0#32

def fetchHandleCow (addr : Word) (s : Vm) : Run Word (Int × Vm) := do
  let _ ← s.fetch s.cr3 addr
  s.change s.cr3 addr (handleCow addr s)

def fetchPageFault (addr : Word) (s : Vm) : Run Word (FaultEnd × Vm) := do
  let cow ← s.fetchAddrCow addr
  if cow then do
    let (r, s) ← s.fetchHandleCow addr
    return if r < 0 then (.killCurrentThread, s) else (.resume, s)
  else return (.handleFault, s)

def fetchUnmapPages (pd : Word) : Nat → Word → Vm → Run Word Vm
  | n, base, s => do
    let e ← s.fetch pd base
    if getNewpageFlags e = NEWPAGE_PAGE ∨ getNewpageFlags e = NEWPAGE_END then
      match n with
      | 0 => .lift none
      | n + 1 => s.change pd base (unmapPage pd base s) >>= fetchUnmapPages pd n (base + BitVec.ofNat 32 PAGE_SIZE)
    else return s

def fetchRemovePages (base : Word) (s : Vm) : Run Word (Int × Vm) :=
  if base.toNat % PAGE_SIZE ≠ 0 then return (ERR_INVAL, s)
  else do
    let e ← s.fetch s.cr3 base
    if getNewpageFlags e ≠ NEWPAGE_START then return (ERR_INVAL, s)
    else do
      let t ← s.change s.cr3 base (unmapPage s.cr3 base s)
      let t ← fetchUnmapPages s.cr3 addressPages (base + BitVec.ofNat 32 PAGE_SIZE) t
      return (0, t.setCurPd s.cr3)

def fetchMapped (base : Word) (s : Vm) : Run Word Bool :=
  if s.kmem s.cr3 (getPdIndex base) ≠ PAGE_DIR_ENTRY_DEFAULT then do
    let e ← s.fetch s.cr3 base
    return decide (e ≠ PAGE_TABLE_ENTRY_DEFAULT)
  else return false

def fetchScan (endAddr : Word) (s : Vm) : Nat → Word → Run Word Int
  | n, base =>
    if base.toNat ≤ endAddr.toNat then do
      let mapped ← s.fetchMapped base
      if mapped then return MEMORY_REGION_MAPPED
      else
        match n with
        | 0 => .lift none
        | n + 1 => fetchScan endAddr s n (base + BitVec.ofNat 32 PAGE_SIZE)
    else return MEMORY_REGION_UNMAPPED

def fetchRangeMapped (base len : Word) (s : Vm) : Run Word Int :=
  if base = 0#32 ∨ base.toNat > MAX_MEMORY_ADDR ∨ len.toInt ≤ 0 ∨
    len.toNat > MAX_AVAILABLE_USER_MEM then return ERR_INVAL
  else if base.toNat < USER_MEM_START then return MEMORY_REGION_MAPPED
  else fetchScan (base + len) s addressPages (pageRoundDown base)

def fetchMapPage (pd flags va : Word) (s : Vm) : Run Word (Bool × Vm) :=
  match tableFor pd (getPdIndex va) s with
  | none => return (false, s)
  | some t => do
    let e ← t.fetch pd va
    if e = PAGE_TABLE_ENTRY_DEFAULT then t.change pd va (fillEntry pd flags va t) else return (true, t)

def fetchMapPages (pd flags endAddr : Word) : Nat → Word → Vm → Run Word (Int × Vm)
  | n, va, s =>
    if va.toNat < endAddr.toNat then
      match n with
      | 0 => .lift none
      | n + 1 => do
        let (ok, s) ← fetchMapPage pd flags va s
        if ok then fetchMapPages pd flags endAddr n (va + BitVec.ofNat 32 PAGE_SIZE) s else return (ERR_NOMEM, s)
    else return (0, s)

def fetchMarks (pd base endFrame : Word) (s : Vm) : Run Word (Int × Vm) := do
  let e ← s.fetch pd endFrame
  let s ← s.change pd endFrame (s.setWord (s.ptAddr pd endFrame) (getPtIndex endFrame) (setNewpageEnd e))
  let e ← s.fetch pd base
  let s ← s.change pd base (s.setWord (s.ptAddr pd base) (getPtIndex base) (setNewpageStart e))
  return (0, s.setCurPd pd)

def fetchNewPages (base len : Word) (s : Vm) : Run Word (Int × Vm) :=
  if len.toInt ≤ 0 ∨ len.toNat % PAGE_SIZE ≠ 0 ∨ base.toNat % PAGE_SIZE ≠ 0 then return (ERR_INVAL, s)
  else do
    let r ← s.fetchRangeMapped base len
    if r ≠ MEMORY_REGION_UNMAPPED then return (ERR_INVAL, s)
    else do
      let (r, t) ← fetchMapPages s.cr3 NEW_PAGES_FLAGS (base + len) addressPages (pageRoundDown base) (s.setCurPd s.cr3)
      if r < 0 then return (r, t) else t.fetchMarks s.cr3 base (pageRoundDown (base + len - 1#32))

/-! ## They are the calls -/

section
variable {s t : Vm} {pd va addr base len flags e : Word} {n : Nat}

@[simp]
theorem value_fetch : (s.fetch pd va).value = some (s.pte pd va) := rfl

@[simp]
theorem value_change {β : Type} (b : β) : (s.change pd va b).value = some b := rfl

theorem value_fetchPageFault : (s.fetchPageFault addr).value = some (pageFaultHandlerC addr s) := by
  have hcow : (s.fetchAddrCow addr).value = some (isAddrCow addr s) := by
    unfold fetchAddrCow isAddrCow
    split <;> simp
  unfold fetchPageFault pageFaultHandlerC
  rw [Run.value_bind, hcow]
  cases isAddrCow addr s with
  | false => simp
  | true =>
    simp only [fetchHandleCow, Option.bind_some, if_true, Run.value_bind, value_fetch, value_change]
    split <;> simp_all

theorem value_fetchUnmapPages : (fetchUnmapPages pd n va s).value = unmapPages pd n va s := by
  induction n generalizing va s with
  | zero =>
    rw [fetchUnmapPages, unmapPages, Run.value_bind, value_fetch, Option.bind_some]
    split <;> simp
  | succ n ih =>
    rw [fetchUnmapPages, unmapPages, Run.value_bind, value_fetch, Option.bind_some]
    split
    · rw [Run.value_bind, value_change, Option.bind_some, ih]
    · simp

theorem value_fetchRemovePages : (s.fetchRemovePages base).value = removePagesHandlerC base s := by
  unfold fetchRemovePages removePagesHandlerC unmapNewPages
  split
  · simp
  · rw [Run.value_bind, value_fetch, Option.bind_some]
    dsimp only
    split
    · simp
    · rw [Run.value_bind, value_change, Option.bind_some, Run.value_bind, value_fetchUnmapPages]
      cases unmapPages s.cr3 addressPages (base + BitVec.ofNat 32 PAGE_SIZE) (unmapPage s.cr3 base s) <;> simp

theorem value_fetchMapped : (s.fetchMapped va).value = some (decide (s.PageMapped va)) := by
  unfold fetchMapped PageMapped
  split <;> simp_all

theorem value_fetchScan : (fetchScan e s n va).value = scanRange e s n va := by
  induction n generalizing va with
  | zero =>
    rw [fetchScan, scanRange]
    split
    · rw [Run.value_bind, value_fetchMapped, Option.bind_some]
      by_cases hm : s.PageMapped va
      · rw [if_pos (decide_eq_true hm)]
        exact (if_pos hm).symm
      · rw [if_neg (by simpa using hm)]
        exact (if_neg hm).symm
    · simp
  | succ n ih =>
    rw [fetchScan, scanRange]
    split
    · rw [Run.value_bind, value_fetchMapped, Option.bind_some]
      by_cases hm : s.PageMapped va
      · rw [if_pos (decide_eq_true hm)]
        exact (if_pos hm).symm
      · rw [if_neg (by simpa using hm), ih]
        exact (if_neg hm).symm
    · simp

theorem value_fetchRangeMapped : (s.fetchRangeMapped base len).value = isMemoryRangeMapped base len s := by
  unfold fetchRangeMapped isMemoryRangeMapped
  split
  · simp
  · split
    · simp
    · exact value_fetchScan

theorem value_fetchMapPage : (fetchMapPage pd flags va s).value = some (mapPage pd flags va s) := by
  rw [mapPage_eq]
  unfold fetchMapPage
  cases tableFor pd (getPdIndex va) s with
  | none => simp
  | some t =>
    dsimp only
    rw [Run.value_bind, value_fetch, Option.bind_some]
    split
    · simp
    · rename_i hne
      unfold fillEntry
      rw [if_neg hne, Run.value_pure]

theorem value_fetchMapPages : (fetchMapPages pd flags e n va s).value = mapPages pd flags e n va s := by
  induction n generalizing va s with
  | zero =>
    rw [fetchMapPages, mapPages]
    split <;> simp
  | succ n ih =>
    rw [fetchMapPages, mapPages]
    split
    · dsimp only
      rw [Run.value_bind, value_fetchMapPage, Option.bind_some]
      cases mapPage pd flags va s with
      | mk ok t => cases ok <;> simp [ih]
    · simp

theorem value_fetchNewPages : (s.fetchNewPages base len).value = newPagesHandlerC base len s := by
  unfold fetchNewPages newPagesHandlerC
  split
  · simp
  · rw [Run.value_bind, value_fetchRangeMapped]
    cases isMemoryRangeMapped base len s with
    | none => simp
    | some r =>
      rw [Option.bind_some]
      dsimp only
      split
      · simp
      · unfold mapNewPages mapSegment
        rw [Run.value_bind, value_fetchMapPages]
        dsimp only
        cases mapPages s.cr3 NEW_PAGES_FLAGS (base + len) addressPages (pageRoundDown base) (s.setCurPd s.cr3) with
        | none => simp
        | some x =>
          obtain ⟨r, t⟩ := x
          rw [Option.bind_some]
          dsimp only
          split
          · simp
          · simp only [fetchMarks, Run.value_bind, value_fetch, value_change, Option.bind_some, Run.value_pure]

/-! ## Entries that are present -/

def TablePresent (pd : Word) (s : Vm) (va : Word) : Prop := s.kmem pd (getPdIndex va) ≠ PAGE_DIR_ENTRY_DEFAULT

def Fetched {β : Type} (x : Run Word β) : Prop := x.Within (· ≠ PAGE_DIR_ENTRY_DEFAULT) (· ≠ PAGE_DIR_ENTRY_DEFAULT)

@[simp]
theorem fetched_fetch : Fetched (s.fetch pd va) ↔ s.TablePresent pd va := Run.within_read _ _

@[simp]
theorem fetched_change {β : Type} (b : β) : Fetched (s.change pd va b) ↔ s.TablePresent pd va := Run.within_write _ _

@[simp]
theorem fetched_pure {β : Type} (b : β) : Fetched (pure b : Run Word β) := Run.within_pure b

@[simp]
theorem fetched_lift {β : Type} (o : Option β) : Fetched (.lift o : Run Word β) := Run.within_lift o

theorem fetched_bind {β γ : Type} (x : Run Word β) (f : β → Run Word γ) :
    Fetched (x >>= f) ↔ Fetched x ∧ ∀ b, x.value = some b → Fetched (f b) := Run.within_bind x f

theorem fetched_fetch_bind {γ : Type} (f : Word → Run Word γ) :
    Fetched (s.fetch pd va >>= f) ↔ s.TablePresent pd va ∧ Fetched (f (s.pte pd va)) := by
  rw [fetched_bind, fetched_fetch]
  simp

theorem fetched_change_bind {β γ : Type} (b : β) (f : β → Run Word γ) :
    Fetched (s.change pd va b >>= f) ↔ s.TablePresent pd va ∧ Fetched (f b) := by
  rw [fetched_bind, fetched_change]
  simp

theorem fetchPageFault_iff :
    Fetched (s.fetchPageFault addr) ↔ (USER_MEM_START ≤ addr.toNat → s.TablePresent s.cr3 addr) := by
  have hcow : Fetched (s.fetchAddrCow addr) ↔ (USER_MEM_START ≤ addr.toNat → s.TablePresent s.cr3 addr) := by
    unfold fetchAddrCow
    split
    · rename_i hlt
      exact iff_of_true (fetched_pure _) fun hu => absurd hu (Nat.not_le.mpr hlt)
    · rename_i hge
      rw [fetched_fetch_bind]
      exact ⟨fun h _ => h.1, fun h => ⟨h (Nat.le_of_not_lt hge), fetched_pure _⟩⟩
  unfold fetchPageFault
  rw [fetched_bind, hcow]
  refine ⟨fun h => h.1, fun h => ⟨h, fun cow hc => ?_⟩⟩
  split
  · rename_i htrue
    -- a page below user memory is not copy-on-write
    have hu : USER_MEM_START ≤ addr.toNat := by
      by_contra hlt
      unfold fetchAddrCow at hc
      rw [if_pos (Nat.lt_of_not_le hlt), Run.value_pure, Option.some.injEq] at hc
      exact absurd (hc.trans htrue) (by decide)
    unfold fetchHandleCow
    rw [fetched_bind, fetched_fetch_bind, fetched_change]
    exact ⟨⟨h hu, h hu⟩, fun _ _ => fetched_pure _⟩
  · exact fetched_pure _

theorem fetchScan_fetched : Fetched (fetchScan e s n va) := by
  have hmapped : ∀ va, Fetched (s.fetchMapped va) := by
    intro va
    unfold fetchMapped
    split
    · rename_i hD
      rw [fetched_fetch_bind]
      exact ⟨hD, fetched_pure _⟩
    · exact fetched_pure _
  induction n generalizing va with
  | zero =>
    rw [fetchScan]
    split
    · rw [fetched_bind]
      refine ⟨hmapped va, fun b _ => ?_⟩
      split
      · exact fetched_pure _
      · exact fetched_lift _
    · exact fetched_pure _
  | succ n ih =>
    rw [fetchScan]
    split
    · rw [fetched_bind]
      refine ⟨hmapped va, fun b _ => ?_⟩
      split
      · exact fetched_pure _
      · exact ih
    · exact fetched_pure _

theorem fetchRangeMapped_fetched : Fetched (s.fetchRangeMapped base len) := by
  unfold fetchRangeMapped
  split
  · exact fetched_pure _
  · split
    · exact fetched_pure _
    · exact fetchScan_fetched

theorem tableFor_present {i : Index} (ht : tableFor pd i s = some t) : t.kmem pd i ≠ PAGE_DIR_ENTRY_DEFAULT := by
  unfold tableFor at ht
  split at ht
  · simp only [Option.map_eq_some_iff] at ht
    obtain ⟨a, -, rfl⟩ := ht
    show (s.toTables.attach pd i a _).kmem pd i ≠ _
    rw [attach_kmem_pde]
    exact pde_ne_default a
  · cases ht
    assumption

theorem fetchMapPage_fetched : Fetched (fetchMapPage pd flags va s) := by
  unfold fetchMapPage
  split
  · exact fetched_pure _
  · rename_i t ht
    have hp : t.TablePresent pd va := tableFor_present ht
    rw [fetched_fetch_bind]
    refine ⟨hp, ?_⟩
    split
    · exact (fetched_change _).mpr hp
    · exact fetched_pure _

theorem fetchMapPages_fetched : Fetched (fetchMapPages pd flags e n va s) := by
  induction n generalizing va s with
  | zero =>
    rw [fetchMapPages]
    split
    · exact fetched_lift _
    · exact fetched_pure _
  | succ n ih =>
    rw [fetchMapPages]
    split
    · dsimp only
      rw [fetched_bind]
      refine ⟨fetchMapPage_fetched, fun b _ => ?_⟩
      split
      · exact ih
      · exact fetched_pure _
    · exact fetched_pure _

/-! ## Tables that are where they belong

Nothing is assumed of page 0, of the entries of user tables or of the frames. -/

structure Laid (pd : Word) (s : Vm) : Prop where
  live : pd ∈ s.pds
  owned : ∃ use, Owned use s.toTables
  direct : ∀ i j : Index, i.val < KERNEL_MAP_NUM_ENTRIES → s.kmem (s.directMap i) j = directEntry i j

theorem Inv.laid (h : s.Inv) (hpd : pd ∈ s.pds) : Laid pd s := ⟨hpd, h.owned, h.kernel.direct⟩

theorem Laid.kernel_flags (h : Laid pd s) (hva : va.toNat < USER_MEM_START) : getNewpageFlags (s.pte pd va) = 0#32 := by
  have hk := (kernel_index_iff va).mpr hva
  obtain ⟨use, ho⟩ := h.owned
  rw [pte_eq_entry]
  unfold Tables.entry
  rw [ho.kernel_addr h.live hk, h.direct _ _ hk]
  exact directEntry_flags _ _

theorem Laid.tableAt (h : Laid pd s) (hp : s.TablePresent pd va) (hne : getNewpageFlags (s.pte pd va) ≠ 0#32) :
    TableAt s.toTables pd (getPdIndex va) (s.ptAddr pd va) := by
  refine ⟨h.live, Nat.le_of_not_lt fun hk => ?_, hp, rfl⟩
  exact hne (h.kernel_flags ((kernel_index_iff va).mp hk))

theorem Laid.unmapPage (h : Laid pd s) (hp : s.TablePresent pd va) (hne : getNewpageFlags (s.pte pd va) ≠ 0#32) :
    Laid pd (unmapPage pd va s) ∧ (∀ a, (Vm.unmapPage pd va s).TablePresent pd a ↔ s.TablePresent pd a) ∧
      ∀ a : Word, (Vm.unmapPage pd va s).pte pd a =
        if a.toNat / 4096 = va.toNat / 4096 then PAGE_TABLE_ENTRY_DEFAULT else s.pte pd a := by
  have ht := h.tableAt hp hne
  obtain ⟨use, ho⟩ := h.owned
  have hdir := ho.table_not_dir ht
  have htb : (Vm.unmapPage pd va s).toTables =
      s.toTables.setWord (s.ptAddr pd va) (getPtIndex va) PAGE_TABLE_ENTRY_DEFAULT := rfl
  refine ⟨⟨h.live, ⟨use, ho.setWord hdir _ _⟩, fun i j hi => ?_⟩, fun a => ?_, fun a => ?_⟩
  · have hother : s.directMap i ≠ s.ptAddr pd va := by
      intro he
      have hu := ho.use_table ht
      rw [← he, ho.direct i hi] at hu
      cases hu
    rw [htb]
    show (s.toTables.setWord _ _ _).kmem (s.directMap i) j = _
    rw [setWord_other hother]
    exact h.direct i j hi
  · unfold TablePresent
    rw [htb, setWord_other (ne_of_mem_of_not_mem h.live hdir)]
  · rw [htb, pte_eq_entry, ho.entry_setWord ht _ _ h.live]
    simp only [true_and, same_page_iff]
    rfl

/-! ## remove_pages -/

def Follows (pd : Word) (s : Vm) (va : Word) : Prop :=
  getNewpageFlags (s.pte pd va) = NEWPAGE_PAGE ∨ getNewpageFlags (s.pte pd va) = NEWPAGE_END

def pageAfter (va : Word) (k : Nat) : Word := va + BitVec.ofNat 32 (k * 4096)

theorem pageAfter_zero : pageAfter va 0 = va := by simp [pageAfter]

theorem pageAfter_succ (k : Nat) : pageAfter (va + BitVec.ofNat 32 PAGE_SIZE) k = pageAfter va (k + 1) := by
  unfold pageAfter PAGE_SIZE
  rw [BitVec.add_assoc, ← BitVec.ofNat_add]
  congr 2
  omega

theorem toNat_pageAfter (va : Word) (k : Nat) : (pageAfter va k).toNat = (va.toNat + k * 4096) % 2 ^ 32 := by
  unfold pageAfter
  rw [BitVec.toNat_add, BitVec.toNat_ofNat]
  omega

theorem Follows.marked (h : Follows pd s va) : getNewpageFlags (s.pte pd va) ≠ 0#32 := by
  rcases h with h | h <;> rw [h] <;> decide

theorem Follows.user (hl : Laid pd s) (h : Follows pd s va) : USER_MEM_START ≤ va.toNat := by
  by_contra hlt
  exact h.marked (hl.kernel_flags (Nat.lt_of_not_le hlt))

theorem follows_bound (hl : Laid pd s) (hal : Aligned va) {k : Nat} (hk : ∀ m < k, Follows pd s (pageAfter va m)) :
    va.toNat + k * 4096 ≤ 2 ^ 32 := by
  by_contra hgt
  rw [aligned_iff] at hal
  have hlt := va.isLt
  have hu := (hk ((2 ^ 32 - va.toNat) / 4096) (by omega)).user hl
  rw [toNat_pageAfter, show (va.toNat + (2 ^ 32 - va.toNat) / 4096 * 4096) % 2 ^ 32 = 0 by omega] at hu
  exact absurd hu (by decide)

def RunPresent (pd : Word) (s : Vm) (va : Word) : Prop :=
  ∀ k, (∀ m < k, Follows pd s (pageAfter va m)) → s.TablePresent pd (pageAfter va k)

theorem RunPresent.first (h : RunPresent pd s va) : s.TablePresent pd va := by
  have h0 := h 0 fun m hm => absurd hm (Nat.not_lt_zero m)
  rwa [pageAfter_zero] at h0

theorem runPresent_stop (hf : ¬ Follows pd s va) : RunPresent pd s va ↔ s.TablePresent pd va := by
  refine ⟨RunPresent.first, fun h k hk => ?_⟩
  cases k with
  | zero => rwa [pageAfter_zero]
  | succ k =>
    have h0 := hk 0 (Nat.succ_pos k)
    rw [pageAfter_zero] at h0
    exact absurd h0 hf

theorem runPresent_next (hl : Laid pd s) (hal : Aligned va) (hp : s.TablePresent pd va)
    (hne : getNewpageFlags (s.pte pd va) ≠ 0#32) :
    RunPresent pd (unmapPage pd va s) (va + BitVec.ofNat 32 PAGE_SIZE) ↔
      ∀ k, (∀ m < k, Follows pd s (pageAfter va (m + 1))) → s.TablePresent pd (pageAfter va (k + 1)) := by
  obtain ⟨hl', hpres, hpte⟩ := hl.unmapPage hp hne
  have hback : ∀ a, Follows pd (Vm.unmapPage pd va s) a → Follows pd s a := by
    intro a ha
    unfold Follows at ha ⊢
    rw [hpte] at ha
    split at ha
    · exact absurd ha (by decide)
    · exact ha
  have hforth : ∀ a : Word, a.toNat / 4096 ≠ va.toNat / 4096 → Follows pd s a →
    Follows pd (Vm.unmapPage pd va s) a := by
    intro a ha hf
    unfold Follows at hf ⊢
    rw [hpte, if_neg ha]
    exact hf
  unfold RunPresent
  refine forall_congr' fun k => ?_
  rw [pageAfter_succ, hpres]
  refine imp_congr_left ?_
  constructor
  · intro hk m hm
    have hf := hback _ (hk m hm)
    rwa [pageAfter_succ] at hf
  · intro hk m hm
    -- the run does not come back to the page that was removed
    have hrun : ∀ j < k, Follows pd s (pageAfter (va + BitVec.ofNat 32 PAGE_SIZE) j) := by
      intro j hj
      rw [pageAfter_succ]
      exact hk j hj
    have hbound := follows_bound hl (aligned_next hal) hrun
    have hfirst := (hk 0 (by omega)).user hl
    rw [pageAfter_succ]
    refine hforth _ ?_ (hk m hm)
    rw [aligned_iff] at hal
    rw [BitVec.toNat_add] at hbound
    rw [toNat_pageAfter] at hfirst ⊢
    have hlt := va.isLt
    change 0x01000000 ≤ _ at hfirst
    change (va.toNat + 4096) % 2 ^ 32 + _ ≤ _ at hbound
    omega

theorem fetchUnmapPages_stop (hf : ¬ Follows pd s va) : Fetched (fetchUnmapPages pd n va s) ↔ s.TablePresent pd va := by
  unfold Follows at hf
  cases n <;> rw [fetchUnmapPages, fetched_fetch_bind, if_neg hf] <;> exact and_iff_left (fetched_pure _)

theorem fetchUnmapPages_go (hf : Follows pd s va) : Fetched (fetchUnmapPages pd (n + 1) va s) ↔ s.TablePresent pd va ∧
    Fetched (fetchUnmapPages pd n (va + BitVec.ofNat 32 PAGE_SIZE) (unmapPage pd va s)) := by
  unfold Follows at hf
  rw [fetchUnmapPages, fetched_fetch_bind, if_pos hf, fetched_change_bind, and_self_left]

theorem runPresent_go (hf : Follows pd s va) : RunPresent pd s va ↔ s.TablePresent pd va ∧
    ∀ k, (∀ m < k, Follows pd s (pageAfter va (m + 1))) → s.TablePresent pd (pageAfter va (k + 1)) := by
  constructor
  · intro h
    refine ⟨h.first, fun k hk => h (k + 1) fun m hm => ?_⟩
    cases m with
    | zero => rwa [pageAfter_zero]
    | succ m => exact hk m (Nat.lt_of_succ_lt_succ hm)
  · intro h k hk
    cases k with
    | zero =>
      rw [pageAfter_zero]
      exact h.1
    | succ k => exact h.2 k fun m hm => hk (m + 1) (Nat.succ_lt_succ hm)

theorem fetchUnmapPages_iff (hl : Laid pd s) (hal : Aligned va) (hn : va.toNat = 0 ∨ 2 ^ 32 ≤ va.toNat + n * 4096) :
    Fetched (fetchUnmapPages pd n va s) ↔ RunPresent pd s va := by
  have hlt := va.isLt
  by_cases hf : Follows pd s va
  · have hu := hf.user hl
    change 0x01000000 ≤ _ at hu
    induction n generalizing va s with
    | zero => omega
    | succ n ih =>
      rw [fetchUnmapPages_go hf, runPresent_go hf]
      refine and_congr_right fun hp => ?_
      obtain ⟨hl', -, -⟩ := hl.unmapPage hp hf.marked
      rw [← runPresent_next hl hal hp hf.marked]
      by_cases hf' : Follows pd (unmapPage pd va s) (va + BitVec.ofNat 32 PAGE_SIZE)
      · have hnext : (va + BitVec.ofNat 32 PAGE_SIZE).toNat = (va.toNat + 4096) % 2 ^ 32 := BitVec.toNat_add ..
        have hal' := (aligned_iff va).mp hal
        exact ih hl' (aligned_next hal) (by omega) (BitVec.isLt _) hf' (hf'.user hl')
      · rw [fetchUnmapPages_stop hf', runPresent_stop hf']
  · rw [fetchUnmapPages_stop hf, runPresent_stop hf]

def RemoveFetches (base : Word) (s : Vm) : Prop :=
  base.toNat % PAGE_SIZE = 0 → s.TablePresent s.cr3 base ∧ (getNewpageFlags (s.pte s.cr3 base) = NEWPAGE_START →
    ∀ k, (∀ m < k, Follows s.cr3 s (pageAfter base (m + 1))) → s.TablePresent s.cr3 (pageAfter base (k + 1)))

theorem fetchRemovePages_iff (hl : Laid s.cr3 s) : Fetched (s.fetchRemovePages base) ↔ RemoveFetches base s := by
  unfold fetchRemovePages RemoveFetches
  by_cases hal : base.toNat % PAGE_SIZE = 0
  · rw [if_neg (not_not_intro hal), fetched_fetch_bind, forall_prop_of_true hal]
    refine and_congr_right fun hp => ?_
    by_cases hs : getNewpageFlags (s.pte s.cr3 base) = NEWPAGE_START
    · have hne : getNewpageFlags (s.pte s.cr3 base) ≠ 0#32 := by
        rw [hs]
        decide
      have hal' : Aligned base := (aligned_iff base).mpr hal
      rw [if_neg (not_not_intro hs), forall_prop_of_true hs, ← runPresent_next hl hal' hp hne, fetched_change_bind,
        and_iff_right hp, fetched_bind, fetchUnmapPages_iff (hl.unmapPage hp hne).1 (aligned_next hal') (Or.inr ?_)]
      · exact and_iff_left fun _ _ => fetched_pure _
      · unfold addressPages
        omega
    · rw [if_pos hs]
      exact iff_of_true (fetched_pure _) fun h => absurd h hs
  · rw [if_pos hal]
    exact iff_of_true (fetched_pure _) fun h => absurd h hal

/-! ## new_pages -/

structure Mapping (pd : Word) (s t : Vm) : Prop where
  live : pd ∈ t.pds
  owned : ∃ use, Owned use t.toTables
  kept : ∀ va, s.TablePresent pd va → t.TablePresent pd va

theorem tableFor_mapping (hpd : pd ∈ s.pds) (ho : ∃ use, Owned use s.toTables) {i : Index}
    (ht : tableFor pd i s = some t) :
    Mapping pd s t := by
  obtain ⟨use, ho⟩ := ho
  refine ⟨?_, ?_, fun va hp => ?_⟩
  · unfold tableFor at ht
    split at ht
    · simp only [Option.map_eq_some_iff] at ht
      obtain ⟨a, -, rfl⟩ := ht
      exact hpd
    · cases ht
      exact hpd
  · unfold tableFor at ht
    split at ht
    · rename_i hD
      simp only [Option.map_eq_some_iff] at ht
      obtain ⟨a, ha, rfl⟩ := ht
      exact ⟨_, ho.attach ha hpd (ho.user_of_default hpd hD)⟩
    · cases ht
      exact ⟨use, ho⟩
  · unfold TablePresent at hp ⊢
    rcases tableFor_kmem ho ht hpd (getPdIndex va) with he | ⟨-, he, hD⟩
    · rw [he]
      exact hp
    · exact absurd (he ▸ hD) hp

theorem fillEntry_mapping (hpd : pd ∈ s.pds) (ho : ∃ use, Owned use s.toTables) {ok : Bool}
    (hm : fillEntry pd flags va s = (ok, t)) : Mapping pd s t := by
  obtain ⟨use, ho⟩ := ho
  have hdir := fillEntry_kmem ho hpd hm hpd
  unfold fillEntry at hm
  refine ⟨?_, ?_, fun a hp => ?_⟩
  · split at hm
    · split at hm <;> cases hm
      · rw [zeroFill_toTables]
        exact hpd
      · exact hpd
    · cases hm
      exact hpd
  · split at hm
    · split at hm <;> cases hm
      · rw [zeroFill_toTables]
        exact ⟨use, ho.setWord (ho.ptAddr_not_dir hpd va) _ _⟩
      · exact ⟨use, ho⟩
    · cases hm
      exact ⟨use, ho⟩
  · unfold TablePresent
    rw [hdir]
    exact hp

theorem Mapping.trans {t' : Vm} (h : Mapping pd s t) (h' : Mapping pd t t') : Mapping pd s t' :=
  ⟨h'.live, h'.owned, fun va hp => h'.kept va (h.kept va hp)⟩

theorem mapPage_mapping (hpd : pd ∈ s.pds) (ho : ∃ use, Owned use s.toTables) {ok : Bool}
    (hm : mapPage pd flags va s = (ok, t)) : Mapping pd s t ∧ (ok = true → t.TablePresent pd va) := by
  rw [mapPage_eq] at hm
  cases ht : tableFor pd (getPdIndex va) s with
  | none =>
    rw [ht] at hm
    cases hm
    exact ⟨⟨hpd, ho, fun _ h => h⟩, fun h => absurd h (by decide)⟩
  | some s₁ =>
    rw [ht] at hm
    have h₁ := tableFor_mapping hpd ho ht
    have h₂ := fillEntry_mapping h₁.live h₁.owned hm
    exact ⟨h₁.trans h₂, fun _ => h₂.kept va (tableFor_present ht)⟩

theorem mapPages_mapping (hpd : pd ∈ s.pds) (ho : ∃ use, Owned use s.toTables) {r : Int}
    (hm : mapPages pd flags e n va s = some (r, t)) : Mapping pd s t :=
  mapPages_rule (P := Mapping pd s) (fun _ _ _ _ h hp => h.trans (mapPage_mapping h.live h.owned hp).1)
    ⟨hpd, ho, fun _ h => h⟩ hm

theorem mapPages_present (hpd : pd ∈ s.pds) (ho : ∃ use, Owned use s.toTables) (hal : Aligned va) {r : Int}
    (hm : mapPages pd flags e n va s = some (r, t)) (hr : 0 ≤ r) {p : Word} (hp : Aligned p) (h₁ : va.toNat ≤ p.toNat)
    (h₂ : p.toNat < e.toNat) : t.TablePresent pd p := by
  induction n generalizing va s with
  | zero =>
    rw [mapPages, if_pos (by omega)] at hm
    cases hm
  | succ n ih =>
    rw [mapPages, if_pos (by omega)] at hm
    split at hm
    · rename_i s₁ hp₁
      obtain ⟨hmap, hpres⟩ := mapPage_mapping hpd ho hp₁
      by_cases he : p = va
      · exact (mapPages_mapping hmap.live hmap.owned hm).kept p (he ▸ hpres rfl)
      · have hne : va.toNat ≠ p.toNat := fun e' => he (BitVec.eq_of_toNat_eq e'.symm)
        have hplt := p.isLt
        have hal' := (aligned_iff va).mp hal
        have hp' := (aligned_iff p).mp hp
        have hnext : (va + BitVec.ofNat 32 PAGE_SIZE).toNat = va.toNat + 4096 := toNat_next (by omega)
        exact ih hmap.live hmap.owned (aligned_next hal) hm (by omega)
    · cases hm
      exact absurd hr (by decide)

def NewPagesFetches (base len : Word) (s : Vm) : Prop :=
  Accepted base len s → 2 ^ 32 ≤ base.toNat + len.toNat →
    s.TablePresent s.cr3 (pageRoundDown (base + len - 1#32)) ∧ s.TablePresent s.cr3 base

theorem fetchMarks_iff (hpd : pd ∈ s.pds) (ho : ∃ use, Owned use s.toTables) (endFrame : Word) :
    Fetched (s.fetchMarks pd base endFrame) ↔ s.TablePresent pd endFrame ∧ s.TablePresent pd base := by
  obtain ⟨use, ho⟩ := ho
  have hdir := ho.ptAddr_not_dir hpd endFrame
  unfold fetchMarks
  rw [fetched_fetch_bind, fetched_change_bind, and_self_left, fetched_fetch_bind, fetched_change_bind, and_self_left,
    and_iff_left (fetched_pure _)]
  refine and_congr_right fun _ => ?_
  unfold TablePresent
  rw [show (s.setWord _ _ _).kmem pd = s.kmem pd from setWord_other (ne_of_mem_of_not_mem hpd hdir) _ _ _]

theorem fetchNewPages_iff (hl : Laid s.cr3 s) : Fetched (s.fetchNewPages base len) ↔ NewPagesFetches base len s := by
  unfold fetchNewPages
  by_cases hargs : len.toInt ≤ 0 ∨ len.toNat % PAGE_SIZE ≠ 0 ∨ base.toNat % PAGE_SIZE ≠ 0
  · rw [if_pos hargs]
    refine iff_of_true (fetched_pure _) fun ha => ?_
    rcases hargs with h | h | h
    · exact absurd ha.pos (Int.not_lt.mpr h)
    · exact absurd ha.lenAligned h
    · exact absurd ha.baseAligned h
  rw [if_neg hargs, fetched_bind, and_iff_right fetchRangeMapped_fetched, value_fetchRangeMapped]
  simp only [not_or, not_not, Int.not_le] at hargs
  obtain ⟨hpos, hlen, hbase⟩ := hargs
  by_cases hun : isMemoryRangeMapped base len s = some MEMORY_REGION_UNMAPPED
  · have ha : Accepted base len s := ⟨hpos, hlen, hbase, hun⟩
    have hal : Aligned base := (aligned_iff base).mpr hbase
    have hround : pageRoundDown base = base := base_of_aligned hal
    have hb : base.toNat % 4096 = 0 := hbase
    have hln : len.toNat % 4096 = 0 := hlen
    have hp := (toNat_of_pos hpos).1
    simp only [hun, Option.some.injEq, forall_eq', ne_eq, not_true_eq_false, if_false]
    rw [fetched_bind, and_iff_right fetchMapPages_fetched, value_fetchMapPages, hround]
    change (∀ x, mapPages s.cr3 NEW_PAGES_FLAGS (base + len) addressPages base s = some x → _) ↔ _
    by_cases hwrap : 2 ^ 32 ≤ base.toNat + len.toNat
    · have hm : mapPages s.cr3 NEW_PAGES_FLAGS (base + len) addressPages base s = some (0, s) :=
        (mapSegment_aligned hal _ _).symm.trans (mapSegment_wraps ha hwrap)
      simp only [hm, Option.some.injEq, forall_eq', Int.lt_irrefl, if_false]
      rw [fetchMarks_iff hl.live hl.owned]
      exact ⟨fun h _ _ => h, fun h => h ha hwrap⟩
    · refine iff_of_true (fun x hm => ?_) fun _ h => absurd h hwrap
      obtain ⟨r, t⟩ := x
      dsimp only
      split
      · exact fetched_pure _
      · rename_i hr
        have hmap := mapPages_mapping hl.live hl.owned hm
        have hend : (base + len).toNat = base.toNat + len.toNat := toNat_fit (Nat.lt_of_not_le hwrap)
        have hlast : (pageRoundDown (base + len - 1#32)).toNat = base.toNat + len.toNat - 4096 := by
          rw [pageRoundDown, toNat_base, BitVec.toNat_sub, hend]
          simp only [BitVec.toNat_ofNat]
          omega
        have hall := fun p => mapPages_present (p := p) hl.live hl.owned hal hm (Int.not_lt.mp hr)
        rw [fetchMarks_iff hmap.live hmap.owned]
        exact ⟨hall _ (aligned_base _) (by omega) (by omega), hall base hal (Nat.le_refl _) (by omega)⟩
  · refine iff_of_true (fun r hr => ?_) fun ha => absurd ha.unmapped hun
    rw [if_pos]
    · exact fetched_pure _
    · rintro rfl
      exact hun hr

/-! ## The three calls -/

inductive MemCall where
  | pageFault (addr : Word)
  | removePages (base : Word)
  | newPages (base len : Word)

def MemCall.Fetched (s : Vm) : MemCall → Prop
  | .pageFault addr => Vm.Fetched (s.fetchPageFault addr)
  | .removePages base => Vm.Fetched (s.fetchRemovePages base)
  | .newPages base len => Vm.Fetched (s.fetchNewPages base len)

def MemCall.Present (s : Vm) : MemCall → Prop
  | .pageFault addr => USER_MEM_START ≤ addr.toNat → s.TablePresent s.cr3 addr
  | .removePages base => RemoveFetches base s
  | .newPages base len => NewPagesFetches base len s

theorem tables_fetched_present_iff (hl : Laid s.cr3 s) (c : MemCall) : c.Fetched s ↔ c.Present s := by
  cases c with
  | pageFault addr => exact fetchPageFault_iff
  | removePages base => exact fetchRemovePages_iff hl
  | newPages base len => exact fetchNewPages_iff hl

/-- A fault on the page that is mapped. -/
theorem tables_fetched_mapped : MemCall.Fetched mappedVm (.pageFault 0x01000000#32) :=
  (tables_fetched_present_iff (Inv.laid (reach_inv mappedVm_reach) (by decide +kernel)) _).mpr
    fun _ => show mappedVm.kmem _ _ ≠ _ by decide +kernel

/-- A fault at an address without a table, and `new_pages` for the last page of memory. -/
theorem tables_fetched_absent : ¬ MemCall.Fetched mappedVm (.pageFault 0x02000000#32) ∧
    ¬ MemCall.Fetched mappedVm (.newPages 0xfffff000#32 0x1000#32) := by
  constructor
  · intro h
    exact fetchPageFault_iff.mp h (by decide) (by decide +kernel)
  · intro h
    have hp := (fetchNewPages_iff (Inv.laid (reach_inv mappedVm_reach) (by decide +kernel))).mp h
      ⟨by decide, by decide, by decide, by decide +kernel⟩ (by decide)
    exact hp.2 (by decide +kernel)

end

end Vm

end Pebbles
