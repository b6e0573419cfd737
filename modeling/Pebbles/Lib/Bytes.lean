import Mathlib

/-!
# Blocks in a flat memory

A memory is a function of addresses that wrap around. A block of `n` cells from `a` on is
read and written; what is outside stays.
-/

namespace Bytes

variable {w : Nat} {β : Type*}

def Inside (a : BitVec w) (n : Nat) (x : BitVec w) : Prop := (x - a).toNat < n

def put (a : BitVec w) : List β → (BitVec w → β) → BitVec w → β
  | [], m => m
  | b :: bs, m => put (a + 1#w) bs (Function.update m a b)

def get (m : BitVec w → β) (a : BitVec w) (n : Nat) : List β := (List.range n).map fun i => m (a + BitVec.ofNat w i)

section
variable {a x : BitVec w} {n : Nat} {b : β} {bs : List β} {m m' : BitVec w → β}

instance : Decidable (Inside a n x) := inferInstanceAs (Decidable (_ < _))

theorem toNat_sub_succ (h : x ≠ a) : (x - (a + 1#w)).toNat + 1 = (x - a).toNat := by
  have h0 : x - a ≠ 0#w := fun e => h (sub_eq_zero.mp e)
  have hpos : 0 < (x - a).toNat := Nat.pos_of_ne_zero fun e => h0 (BitVec.eq_of_toNat_eq e)
  rw [← sub_sub]
  generalize x - a = d at hpos ⊢
  cases w with
  | zero =>
    have := d.isLt
    omega
  | succ w =>
    have hd := d.isLt
    have hone : (1#(w + 1)).toNat = 1 := by simp
    rw [BitVec.toNat_sub, hone, show 2 ^ (w + 1) - 1 + d.toNat = d.toNat - 1 + 2 ^ (w + 1) by omega, Nat.add_mod_right,
      Nat.mod_eq_of_lt (by omega)]
    omega

theorem inside_succ : Inside a (n + 1) x ↔ x = a ∨ Inside (a + 1#w) n x := by
  unfold Inside
  by_cases h : x = a
  · subst h
    simp
  · have := toNat_sub_succ h
    simp only [h, false_or]
    omega

theorem inside_add {i : Nat} (h : i < n) (hn : n ≤ 2 ^ w) : Inside a n (a + BitVec.ofNat w i) := by
  unfold Inside
  rw [add_sub_cancel_left, BitVec.toNat_ofNat, Nat.mod_eq_of_lt (by omega)]
  exact h

theorem not_inside_next (h : n < 2 ^ w) : ¬ Inside (a + 1#w) n a := by
  unfold Inside
  rw [sub_add_cancel_left, BitVec.neg_one_eq_allOnes, BitVec.toNat_allOnes]
  omega

theorem put_outside (h : ¬ Inside a bs.length x) : put a bs m x = m x := by
  induction bs generalizing a m with
  | nil => rfl
  | cons b bs ih =>
    rw [List.length_cons, inside_succ, not_or] at h
    rw [put, ih h.2, Function.update_of_ne h.1]

theorem put_congr (h : m' x = m x) : put a bs m' x = put a bs m x := by
  induction bs generalizing a m m' with
  | nil => exact h
  | cons b bs ih =>
    refine ih ?_
    by_cases e : x = a
    · rw [e, Function.update_self, Function.update_self]
    · rw [Function.update_of_ne e, Function.update_of_ne e, h]

theorem put_inside {i : Nat} (hi : i < bs.length) (hlen : bs.length ≤ 2 ^ w) :
    put a bs m (a + BitVec.ofNat w i) = bs[i] := by
  induction bs generalizing a m i with
  | nil => simp at hi
  | cons b bs ih =>
    rw [List.length_cons] at hlen hi
    rw [put]
    cases i with
    | zero =>
      rw [show BitVec.ofNat w 0 = 0 from rfl, add_zero, put_outside (not_inside_next (by omega)), Function.update_self]
      rfl
    | succ i =>
      rw [show a + BitVec.ofNat w (i + 1) = a + 1#w + BitVec.ofNat w i by
        rw [add_assoc, Nat.add_comm, BitVec.ofNat_add]]
      exact ih (by omega) (by omega)

theorem length_get : (get m a n).length = n := by simp [get]

theorem get_put (hlen : bs.length ≤ 2 ^ w) : get (put a bs m) a bs.length = bs := by
  refine List.ext_getElem length_get fun i h₁ h₂ => ?_
  simp only [get, List.getElem_map, List.getElem_range]
  exact put_inside h₂ hlen

theorem get_congr (h : ∀ i < n, m' (a + BitVec.ofNat w i) = m (a + BitVec.ofNat w i)) : get m' a n = get m a n :=
  List.map_congr_left fun i hi => h i (List.mem_range.mp hi)

theorem get_succ : get m a (n + 1) = m a :: get m (a + 1#w) n := by
  rw [get, List.range_succ_eq_map, List.map_cons, List.map_map, show BitVec.ofNat w 0 = 0 from rfl, add_zero]
  refine congrArg (m a :: ·) (List.map_congr_left fun i _ => ?_)
  rw [Function.comp_apply, Nat.succ_eq_add_one, Nat.add_comm i 1, BitVec.ofNat_add, add_assoc]

end

/-! ## Blocks one below the other -/

def putAll (l : List (BitVec w × List β)) (m : BitVec w → β) : BitVec w → β := l.foldl (fun m p => put p.1 p.2 m) m

def Descending : Nat → List (BitVec w × List β) → Prop
  | _, [] => True
  | top, p :: l => p.1.toNat + p.2.length ≤ top ∧ Descending p.1.toNat l

def Above (low : Nat) (l : List (BitVec w × List β)) : Prop := ∀ p ∈ l, low ≤ p.1.toNat

section
variable {a x : BitVec w} {n top low : Nat} {bs : List β} {m : BitVec w → β} {l l' : List (BitVec w × List β)}
  {p : BitVec w × List β}

theorem Descending.mono {top' : Nat} (h : Descending top l) (ht : top ≤ top') : Descending top' l := by
  cases l with
  | nil => trivial
  | cons p l => exact ⟨h.1.trans ht, h.2⟩

theorem Descending.append (h : Descending top l) (hl : Above low l) (ht : low ≤ top) (h' : Descending low l') :
    Descending top (l ++ l') := by
  induction l generalizing top with
  | nil => exact h'.mono ht
  | cons p l ih => exact ⟨h.1, ih h.2 (fun q hq => hl q (List.mem_cons_of_mem _ hq)) (hl p List.mem_cons_self)⟩

theorem Descending.bound (h : Descending top l) (hp : p ∈ l) : p.1.toNat + p.2.length ≤ top := by
  induction l generalizing top with
  | nil => cases hp
  | cons q l ih =>
    rcases List.mem_cons.mp hp with rfl | hp
    · exact h.1
    · exact (ih h.2 hp).trans ((Nat.le_add_right ..).trans h.1)

theorem Descending.map_some (h : Descending top l) : Descending top (l.map fun p => (p.1, p.2.map some)) := by
  induction l generalizing top with
  | nil => trivial
  | cons p l ih => exact ⟨by simpa using h.1, ih h.2⟩

theorem inside_iff (h : a.toNat + n ≤ 2 ^ w) : Inside a n x ↔ a.toNat ≤ x.toNat ∧ x.toNat < a.toNat + n := by
  unfold Inside
  have hx := x.isLt
  have ha := a.isLt
  rw [BitVec.toNat_sub]
  by_cases hle : a.toNat ≤ x.toNat
  · rw [show 2 ^ w - a.toNat + x.toNat = x.toNat - a.toNat + 2 ^ w by omega, Nat.add_mod_right, Nat.mod_eq_of_lt (by omega)]
    omega
  · rw [Nat.mod_eq_of_lt (by omega)]
    omega

theorem putAll_above (h : Descending top l) (ht : top ≤ 2 ^ w) (hx : top ≤ x.toNat) : putAll l m x = m x := by
  induction l generalizing top m with
  | nil => rfl
  | cons p l ih =>
    have hp := h.1
    have hlt := p.1.isLt
    refine (ih h.2 (by omega) (by omega)).trans (put_outside ?_)
    rw [inside_iff (by omega)]
    omega

theorem putAll_outside (h : ∀ p ∈ l, ¬ Inside p.1 p.2.length x) : putAll l m x = m x := by
  induction l generalizing m with
  | nil => rfl
  | cons p l ih =>
    exact (ih fun q hq => h q (List.mem_cons_of_mem _ hq)).trans (put_outside (h p List.mem_cons_self))

theorem get_putAll (h : Descending top l) (ht : top ≤ 2 ^ w) (hp : p ∈ l) : get (putAll l m) p.1 p.2.length = p.2 := by
  induction l generalizing top m with
  | nil => cases hp
  | cons q l ih =>
    have hq := h.1
    have hlt := q.1.isLt
    rcases List.mem_cons.mp hp with rfl | hp
    · refine (get_congr fun i hi => putAll_above h.2 (by omega) ?_).trans (get_put (by omega))
      have hin : Inside p.1 p.2.length (p.1 + BitVec.ofNat w i) := inside_add hi (by omega)
      exact ((inside_iff (by omega)).mp hin).1
    · exact ih h.2 (by omega) hp

theorem putAll_inside {i : Nat} (hd : l.Pairwise fun p q => ∀ x, ¬ (Inside p.1 p.2.length x ∧ Inside q.1 q.2.length x))
    (hp : p ∈ l) (hi : i < p.2.length) (hlen : p.2.length ≤ 2 ^ w) : putAll l m (p.1 + BitVec.ofNat w i) = p.2[i] := by
  have hin : Inside p.1 p.2.length (p.1 + BitVec.ofNat w i) := inside_add hi hlen
  induction l generalizing m with
  | nil => cases hp
  | cons q l ih =>
    obtain ⟨hq, hl⟩ := List.pairwise_cons.mp hd
    rcases List.mem_cons.mp hp with rfl | hp
    · exact (putAll_outside fun r hr hr' => hq r hr _ ⟨hin, hr'⟩).trans (put_inside hi hlen)
    · exact ih hl hp

theorem putAll_congr {m' : BitVec w → β} (h : m' x = m x) : putAll l m' x = putAll l m x := by
  induction l generalizing m m' with
  | nil => exact h
  | cons p l ih => exact ih (put_congr h)

theorem get_part {i k : Nat} (h : i + k ≤ n) : get m (a + BitVec.ofNat w i) k = ((get m a n).drop i).take k := by
  refine List.ext_getElem ?_ fun j h₁ h₂ => ?_
  · simp [get]
    omega
  · simp only [get, List.getElem_map, List.getElem_range, List.getElem_take, List.getElem_drop]
    rw [BitVec.ofNat_add, add_assoc]

end

end Bytes
