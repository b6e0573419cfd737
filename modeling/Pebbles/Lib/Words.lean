import Mathlib

/-!
# Flag bits and page numbers of 32-bit words

A word that describes a page keeps the page's address in its upper twenty bits
and twelve flags below. Masks act on one half and leave the other alone; the
lemmas here say so bit by bit.
-/

namespace Words

abbrev Word := BitVec 32

instance (w : Word) (l : List Word) : Decidable (w ∈ l) := List.instDecidableMemOfLawfulBEq w l

theorem length_le_of_nodup {l : List Word} (h : l.Nodup) : l.length ≤ 2 ^ 32 := by
  have hm : (l.map BitVec.toFin).Nodup := h.map fun a b he => BitVec.eq_of_toFin_eq he
  have hle := hm.length_le_card
  rwa [List.length_map, Fintype.card_fin] at hle

def bit (w : Word) (i : Nat) : Bool := w.getLsbD i

theorem ext_bit {v w : Word} (h : ∀ i < 32, bit v i = bit w i) : v = w :=
  BitVec.eq_of_getLsbD_eq h

@[simp] theorem bit_and (v w : Word) (i : Nat) : bit (v &&& w) i = (bit v i && bit w i) :=
  BitVec.getLsbD_and

@[simp] theorem bit_or (v w : Word) (i : Nat) : bit (v ||| w) i = (bit v i || bit w i) :=
  BitVec.getLsbD_or

@[simp] theorem bit_zero (i : Nat) : bit 0#32 i = false :=
  BitVec.getLsbD_zero

theorem bit_of_ge (w : Word) {i : Nat} (h : 32 ≤ i) : bit w i = false :=
  BitVec.getLsbD_of_ge w i h

theorem and_ne_zero_iff (w : Word) (i : Nat) (hi : i < 32) :
    w &&& BitVec.twoPow 32 i ≠ 0#32 ↔ bit w i = true := by
  rw [BitVec.and_twoPow]
  unfold bit
  by_cases h : w.getLsbD i = true
  · simp only [h, ite_true, iff_true]
    intro e
    have := congrArg (fun v => BitVec.getLsbD v i) e
    simp [hi] at this
  · simp [h]

/-! ## The two halves of a word -/

def base (w : Word) : Word := w &&& 0xFFFFF000#32

def flags (w : Word) : Word := w &&& 0x00000FFF#32

def Aligned (w : Word) : Prop := flags w = 0#32

instance (w : Word) : Decidable (Aligned w) := inferInstanceAs (Decidable (flags w = 0#32))

theorem bit_hi {i : Nat} (hi : i < 32) : bit 0xFFFFF000#32 i = decide (12 ≤ i) := by
  revert i; decide

theorem bit_lo {i : Nat} (hi : i < 32) : bit 0x00000FFF#32 i = decide (i < 12) := by
  revert i; decide

theorem bit_base (w : Word) (i : Nat) : bit (base w) i = (bit w i && decide (12 ≤ i)) := by
  by_cases hi : i < 32
  · simp only [base, bit_and, bit_hi hi]
  · simp only [bit_of_ge _ (Nat.le_of_not_lt hi), Bool.false_and]

theorem bit_flags (w : Word) (i : Nat) : bit (flags w) i = (bit w i && decide (i < 12)) := by
  by_cases hi : i < 32
  · simp only [flags, bit_and, bit_lo hi]
  · simp only [bit_of_ge _ (Nat.le_of_not_lt hi), Bool.false_and]

theorem Aligned.bit_lt {w : Word} (h : Aligned w) {i : Nat} (hi : i < 12) : bit w i = false := by
  have := congrArg (fun v => bit v i) h
  simpa [bit_flags, hi] using this

theorem aligned_of_bits {w : Word} (h : ∀ i < 12, bit w i = false) : Aligned w := by
  apply ext_bit
  intro i hi
  rw [bit_flags]
  by_cases h12 : i < 12
  · simp [h i h12]
  · simp [h12]

theorem aligned_base (w : Word) : Aligned (base w) := by
  apply aligned_of_bits
  intro i hi
  simp [bit_base, Nat.not_le.mpr hi]

theorem base_congr {v w : Word} (h : ∀ i, 12 ≤ i → bit v i = bit w i) : base v = base w := by
  apply ext_bit
  intro i _
  rw [bit_base, bit_base]
  by_cases hi : 12 ≤ i
  · simp [h i hi]
  · simp [hi]

theorem base_of_aligned {w : Word} (h : Aligned w) : base w = w := by
  apply ext_bit
  intro i _
  rw [bit_base]
  by_cases hi : 12 ≤ i
  · simp [hi]
  · simp [hi, h.bit_lt (Nat.lt_of_not_le hi)]

@[simp] theorem base_base (w : Word) : base (base w) = base w := base_of_aligned (aligned_base w)

theorem bit_of_base_zero {w : Word} (h : base w = 0#32) {i : Nat} (hi : 12 ≤ i) : bit w i = false := by
  have := congrArg (fun v => bit v i) h
  simpa [bit_base, hi] using this

theorem base_or {f w : Word} (hf : Aligned f) (hw : base w = 0#32) : base (f ||| w) = f := by
  rw [← base_of_aligned hf]
  refine (base_congr fun i hi => ?_).trans (base_base f)
  simp [bit_of_base_zero hw hi, base_of_aligned hf]

theorem bit_or_flags {f w : Word} (hf : Aligned f) {i : Nat} (hi : i < 12) : bit (f ||| w) i = bit w i := by
  simp [hf.bit_lt hi]

/-! ## Page numbers -/

theorem toNat_base (w : Word) : (base w).toNat = w.toNat / 4096 * 4096 := by
  have h : base w = (w >>> 12) <<< 12 := by
    apply ext_bit
    intro i hi
    rw [bit_base]
    unfold bit
    by_cases h12 : 12 ≤ i
    · simp [h12, hi, show ¬ i < 12 by omega]
    · simp [h12, show i < 12 by omega]
  have hw := w.isLt
  rw [h, BitVec.toNat_shiftLeft, BitVec.toNat_ushiftRight, Nat.shiftRight_eq_div_pow, Nat.shiftLeft_eq]
  omega

theorem toNat_flags (w : Word) : (flags w).toNat = w.toNat % 4096 := by
  unfold flags
  rw [BitVec.toNat_and]
  exact Nat.and_two_pow_sub_one_eq_mod _ 12

theorem aligned_iff (w : Word) : Aligned w ↔ w.toNat % 4096 = 0 := by
  rw [← toNat_flags]
  unfold Aligned
  constructor
  · intro h; rw [h]; rfl
  · intro h; exact BitVec.eq_of_toNat_eq h

theorem toNat_field {m : Word} {k : Nat} (hm : ∀ i < 32, bit m i = decide (k ≤ i ∧ i < k + 10)) (w : Word) :
    ((w &&& m) >>> k).toNat = w.toNat / 2 ^ k % 1024 := by
  have h : (w &&& m) >>> k = (w >>> k) &&& 0x3ff#32 := by
    apply ext_bit
    intro i hi
    have hlow : ∀ j < 32, bit 0x3ff#32 j = decide (j < 10) := by decide
    rw [bit_and, hlow i hi]
    by_cases hk : k + i < 32
    · have hb : bit (w &&& m) (k + i) = (bit w (k + i) && decide (i < 10)) := by
        simp [hm _ hk]
      simpa [bit] using hb
    · have hz : ∀ v : Word, bit (v >>> k) i = false := by
        intro v
        have := bit_of_ge v (Nat.le_of_not_lt hk)
        simpa [bit] using this
      simp [hz]
  rw [h, BitVec.toNat_and, BitVec.toNat_ushiftRight, Nat.shiftRight_eq_div_pow]
  exact Nat.and_two_pow_sub_one_eq_mod _ 10

/-! ## Signed values -/

theorem toInt_of_nonneg {a : Word} (h : 0 ≤ a.toInt) : a.toInt = a.toNat := by
  have ha := a.isLt
  rw [BitVec.toInt_eq_toNat_cond] at h ⊢
  split at h <;> omega

theorem toInt_add_of_lt {a b : Word} (hb : 0 ≤ b.toInt) (h : a.toInt + b.toInt < 2 ^ 31) :
    (a + b).toInt = a.toInt + b.toInt := by
  have ha := a.le_toInt
  rw [BitVec.toInt_add, Int.bmod_eq_of_le]
  · omega
  · omega

theorem toInt_add_of_ge {a b : Word} (h : 2 ^ 31 ≤ a.toInt + b.toInt) :
    (a + b).toInt = a.toInt + b.toInt - 2 ^ 32 := by
  have ha := a.toInt_lt
  have hb := b.toInt_lt
  rw [BitVec.toInt_add, Int.bmod_def]
  split <;> omega

end Words
