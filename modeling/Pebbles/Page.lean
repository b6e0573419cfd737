import Pebbles.Lib.Words

/-!
# Page table entries and the split of an address

The constants and macros of `vm.h`, `page.h` and `common_kern.h`. Directories
and tables are pages of 1024 words; an entry holds a page address and flags.
-/

namespace Pebbles

open Words

abbrev Byte := BitVec 8

def PAGE_SIZE : Nat := 4096
def USER_MEM_START : Nat := 0x01000000
def NUM_PAGE_TABLE_ENTRIES : Nat := 1024
def KERNEL_MAP_NUM_ENTRIES : Nat := USER_MEM_START / (PAGE_SIZE * NUM_PAGE_TABLE_ENTRIES)

def PAGE_ENTRY_PRESENT : Word := 1
def READ_WRITE_ENABLE : Word := 2
def WRITE_DISABLE_MASK : Word := 0xFFFFFFFD
def USER_MODE : Word := 4
def COW_MODE : Word := 512
def COW_MODE_DISABLE_MASK : Word := 0xFFFFFDFF
def GLOBAL_PAGE_ENTRY : Word := 256
def NEWPAGE_PAGE : Word := 1024
def NEWPAGE_START : Word := 2048
def NEWPAGE_END : Word := 3072
def PAGE_DIR_ENTRY_DEFAULT : Word := 2
def PAGE_TABLE_ENTRY_DEFAULT : Word := 2
def USER_PD_ENTRY_FLAGS : Word := PAGE_ENTRY_PRESENT ||| READ_WRITE_ENABLE ||| USER_MODE

def DEFAULT_STACK_SIZE : Nat := 2 * 1024 * 1024
def STACK_START : Word := 0xc0000000
def STACK_END : Word := STACK_START - BitVec.ofNat 32 DEFAULT_STACK_SIZE

def MEMORY_REGION_MAPPED : Int := 0
def MEMORY_REGION_UNMAPPED : Int := 1
def MAX_MEMORY_ADDR : Nat := 0xffffffff
def MAX_AVAILABLE_USER_MEM : Nat := MAX_MEMORY_ADDR - USER_MEM_START

def ERR_FAILURE : Int := -1
def ERR_INVAL : Int := -2
def ERR_NOMEM : Int := -4
def ERR_BIG : Int := -6

abbrev Index := Fin 1024

abbrev Offset := Fin 4096

def getAddrFromEntry (e : Word) : Word := base e

def getFlagsFromEntry (e : Word) : Word := flags e

def getPdIndex (a : Word) : Index :=
  ⟨((a &&& 0xffc00000#32) >>> 22).toNat, by
    have h := (a &&& 0xffc00000#32).isLt
    rw [BitVec.toNat_ushiftRight, Nat.shiftRight_eq_div_pow]
    omega⟩

theorem ptField_lt (a : Word) : ((a &&& 0x003ff000#32) >>> 12).toNat < 1024 := by
  rw [toNat_field (by decide)]
  omega

def getPtIndex (a : Word) : Index := ⟨((a &&& 0x003ff000#32) >>> 12).toNat, ptField_lt a⟩

def pageOffset (a : Word) : Offset := ⟨a.toNat % 4096, by omega⟩

def pageRoundDown (a : Word) : Word := base a

def getNewpageFlags (e : Word) : Word := e &&& 0x00000c00#32

def setNewpageStart (e : Word) : Word := (e &&& 0xfffff3ff#32) ||| NEWPAGE_START

def setNewpageEnd (e : Word) : Word := (e &&& 0xfffff3ff#32) ||| NEWPAGE_END

/-! ## The fields of an address -/

theorem getPdIndex_val (a : Word) : (getPdIndex a).val = a.toNat / 2 ^ 22 := by
  have := a.isLt
  show ((a &&& 0xffc00000#32) >>> 22).toNat = _
  rw [toNat_field (by decide)]
  omega

theorem getPtIndex_val (a : Word) : (getPtIndex a).val = a.toNat / 4096 % 1024 := by
  show ((a &&& 0x003ff000#32) >>> 12).toNat = a.toNat / 2 ^ 12 % 1024
  rw [toNat_field (by decide)]

theorem address_ext {a b : Word} (hd : getPdIndex a = getPdIndex b) (ht : getPtIndex a = getPtIndex b)
    (ho : pageOffset a = pageOffset b) : a = b := by
  have hd := congrArg Fin.val hd
  have ht := congrArg Fin.val ht
  have ho := congrArg Fin.val ho
  simp only [getPdIndex_val, getPtIndex_val, pageOffset] at hd ht ho
  apply BitVec.eq_of_toNat_eq
  omega

theorem getPdIndex_round (a : Word) : getPdIndex (pageRoundDown a) = getPdIndex a := by
  apply Fin.ext
  rw [getPdIndex_val, getPdIndex_val, pageRoundDown, toNat_base]
  omega

theorem getPtIndex_round (a : Word) : getPtIndex (pageRoundDown a) = getPtIndex a := by
  apply Fin.ext
  rw [getPtIndex_val, getPtIndex_val, pageRoundDown, toNat_base]
  omega

theorem exists_address (i j : Index) : ∃ a, getPdIndex a = i ∧ getPtIndex a = j := by
  have hi := i.isLt
  have hj := j.isLt
  refine ⟨BitVec.ofNat 32 (i.val * 2 ^ 22 + j.val * 4096), ?_⟩
  rw [Fin.ext_iff, Fin.ext_iff, getPdIndex_val, getPtIndex_val, BitVec.toNat_ofNat]
  omega

theorem kernel_index_iff (a : Word) : (getPdIndex a).val < KERNEL_MAP_NUM_ENTRIES ↔ a.toNat < USER_MEM_START := by
  rw [getPdIndex_val]
  show _ < 4 ↔ _ < 0x01000000
  omega

/-! ## The flags of an entry

Bit 0 is the present bit, bit 1 read/write, bit 2 user, bit 9 copy-on-write
and bits 10 and 11 mark the pages of a `new_pages` region. -/

theorem bit_present_mask (e : Word) : e &&& PAGE_ENTRY_PRESENT ≠ 0#32 ↔ bit e 0 = true :=
  and_ne_zero_iff e 0 (by decide)

theorem bit_write_mask (e : Word) : e &&& READ_WRITE_ENABLE ≠ 0#32 ↔ bit e 1 = true :=
  and_ne_zero_iff e 1 (by decide)

theorem ne_default_of_present {e : Word} (h : bit e 0 = true) : e ≠ PAGE_TABLE_ENTRY_DEFAULT := by
  rintro rfl
  exact absurd h (by decide)

theorem bit_cowMask (e : Word) {i : Nat} (hi : i < 32) :
    bit (e &&& COW_MODE_DISABLE_MASK) i = (bit e i && decide (i ≠ 9)) := by
  have : ∀ j < 32, bit COW_MODE_DISABLE_MASK j = decide (j ≠ 9) := by decide
  rw [bit_and, this i hi]

theorem bit_write_or (e : Word) {i : Nat} (hi : i < 32) :
    bit (e ||| READ_WRITE_ENABLE) i = (bit e i || decide (i = 1)) := by
  have : ∀ j < 32, bit READ_WRITE_ENABLE j = decide (j = 1) := by decide
  rw [bit_or, this i hi]

theorem bit_setNewpage {m : Word} (e : Word) (hm : ∀ j < 32, bit m j = true → j = 10 ∨ j = 11) {i : Nat}
    (hi : i < 32) (h₁ : i ≠ 10) (h₂ : i ≠ 11) : bit ((e &&& 0xfffff3ff#32) ||| m) i = bit e i := by
  have hk : ∀ j < 32, bit 0xfffff3ff#32 j = decide (j ≠ 10 ∧ j ≠ 11) := by decide
  have : bit m i = false := by
    by_contra hb
    rcases hm i hi (by simpa using hb) with h | h
    · exact h₁ h
    · exact h₂ h
  simp [hk i hi, this, h₁, h₂]

theorem bit_setNewpageStart (e : Word) {i : Nat} (hi : i < 32) (h₁ : i ≠ 10) (h₂ : i ≠ 11) :
    bit (setNewpageStart e) i = bit e i :=
  bit_setNewpage e (by decide) hi h₁ h₂

theorem bit_setNewpageEnd (e : Word) {i : Nat} (hi : i < 32) (h₁ : i ≠ 10) (h₂ : i ≠ 11) :
    bit (setNewpageEnd e) i = bit e i :=
  bit_setNewpage e (by decide) hi h₁ h₂

theorem base_of_bits {e e' : Word} (h : ∀ i < 32, 12 ≤ i → bit e' i = bit e i) : base e' = base e := by
  apply base_congr
  intro i hi
  by_cases h32 : i < 32
  · exact h i h32 hi
  · rw [bit_of_ge _ (Nat.le_of_not_lt h32), bit_of_ge _ (Nat.le_of_not_lt h32)]

/-! ## The marks of an entry -/

theorem getNewpageFlags_congr {e e' : Word} (h₁ : bit e 10 = bit e' 10) (h₂ : bit e 11 = bit e' 11) :
    getNewpageFlags e = getNewpageFlags e' := by
  have hk : ∀ j < 32, bit 0x00000c00#32 j = decide (j = 10 ∨ j = 11) := by decide
  apply ext_bit
  intro i hi
  unfold getNewpageFlags
  rw [bit_and, bit_and, hk i hi]
  by_cases hi₁ : i = 10
  · rw [hi₁, h₁]
  · by_cases hi₂ : i = 11
    · rw [hi₂, h₂]
    · simp [hi₁, hi₂]

theorem getNewpageFlags_mark (e m : Word) : getNewpageFlags (e &&& 0xfffff3ff#32 ||| m) = getNewpageFlags m := by
  have h : ∀ i ∈ [10, 11], bit 0xfffff3ff#32 i = false := by decide
  have hbit : ∀ i ∈ [10, 11], bit (e &&& 0xfffff3ff#32 ||| m) i = bit m i := by
    intro i hi
    rw [bit_or, bit_and, h i hi, Bool.and_false, Bool.false_or]
  exact getNewpageFlags_congr (hbit 10 (by simp)) (hbit 11 (by simp))

theorem getNewpageFlags_start (e : Word) : getNewpageFlags (setNewpageStart e) = NEWPAGE_START :=
  (getNewpageFlags_mark e NEWPAGE_START).trans (by decide)

theorem getNewpageFlags_end (e : Word) : getNewpageFlags (setNewpageEnd e) = NEWPAGE_END :=
  (getNewpageFlags_mark e NEWPAGE_END).trans (by decide)

theorem getNewpageFlags_or {f w : Word} (hf : Aligned f) : getNewpageFlags (f ||| w) = getNewpageFlags w :=
  getNewpageFlags_congr (bit_or_flags hf (by decide)) (bit_or_flags hf (by decide))

end Pebbles
