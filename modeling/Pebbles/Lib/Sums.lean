import Mathlib

/-!
# Sums that change at one place

Counting by a finite sum: when one summand changes, the total changes by it.
-/

namespace Sums

variable {ι : Type*} [DecidableEq ι]

theorem sum_change {S : Finset ι} {p : ι} {g k : ι → Nat} (hp : p ∈ S) (h : ∀ q ∈ S, q ≠ p → k q = g q) :
    ∑ q ∈ S, k q + g p = ∑ q ∈ S, g q + k p := by
  rw [← Finset.add_sum_erase S k hp, ← Finset.add_sum_erase S g hp]
  have : ∑ q ∈ S.erase p, k q = ∑ q ∈ S.erase p, g q :=
    Finset.sum_congr rfl fun q hq => h q (Finset.mem_of_mem_erase hq) (Finset.ne_of_mem_erase hq)
  omega

theorem two_le_sum {S : Finset ι} {p q : ι} {g : ι → Nat} (hp : p ∈ S) (hq : q ∈ S) (hpq : p ≠ q)
    (h₁ : 1 ≤ g p) (h₂ : 1 ≤ g q) : 2 ≤ ∑ r ∈ S, g r := by
  rw [← Finset.add_sum_erase S g hp]
  have : g q ≤ ∑ r ∈ S.erase p, g r :=
    Finset.single_le_sum (f := g) (fun _ _ => Nat.zero_le _) (Finset.mem_erase.mpr ⟨hpq.symm, hq⟩)
  omega

theorem sum_map_filter {α : Type*} {g : α → Nat} {q : α → Bool} {l : List α} (h : ∀ a ∈ l, q a = false → g a = 0) :
    ((l.filter q).map g).sum = (l.map g).sum := by
  induction l with
  | nil => rfl
  | cons a l ih =>
    have ih := ih fun b hb => h b (List.mem_cons_of_mem a hb)
    cases hq : q a with
    | true => simp [hq, ih]
    | false => simp [hq, ih, h a (by simp) hq]

end Sums
