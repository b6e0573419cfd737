import Mathlib

/-!
# Elements in queues

A family of lists that holds every element of a set in exactly one place. An
element is taken from its list or put into one, at any position.
-/

namespace Queues

variable {ι α : Type*}

/-- The lists hold the elements of `S`, each once. -/
structure Placed (S : Finset α) (q : ι → List α) : Prop where
  nodup : ∀ i, (q i).Nodup
  unique : ∀ {i j a}, a ∈ q i → a ∈ q j → i = j
  mem_iff : ∀ {a}, a ∈ S ↔ ∃ i, a ∈ q i

section
variable {S : Finset α} {q : ι → List α} {i : ι} {a : α} {l : List α}

theorem Placed.empty : Placed (∅ : Finset α) fun _ : ι => [] :=
  ⟨fun _ => List.nodup_nil, fun h => absurd h List.not_mem_nil, by simp⟩

theorem Placed.mem (h : Placed S q) (ha : a ∈ q i) : a ∈ S := h.mem_iff.mpr ⟨i, ha⟩

theorem Placed.place (h : Placed S q) (ha : a ∈ S) : ∃! i, a ∈ q i := by
  obtain ⟨i, hi⟩ := h.mem_iff.mp ha
  exact ⟨i, hi, fun j hj => h.unique hj hi⟩

open Classical in
theorem Placed.comp {κ : Type*} {e : κ → ι} (h : Placed S q) (he : Function.Injective e) :
    Placed (S.filter fun a => ∃ k, a ∈ q (e k)) (q ∘ e) where
  nodup k := h.nodup (e k)
  unique hi hj := he (h.unique hi hj)
  mem_iff {a} := by
    rw [Finset.mem_filter]
    exact ⟨And.right, fun ⟨k, hk⟩ => ⟨h.mem hk, k, hk⟩⟩

variable [DecidableEq ι] [DecidableEq α]

theorem Placed.put (h : Placed S q) (ha : a ∉ S) (hl : l.Perm (a :: q i)) :
    Placed (insert a S) (Function.update q i l) := by
  have hout : ∀ j, a ∉ q j := fun j hj => ha (h.mem hj)
  have hmem : ∀ {j b}, b ∈ Function.update q i l j ↔ (b = a ∧ j = i) ∨ b ∈ q j := by
    intro j b
    by_cases hj : j = i
    · subst hj
      simp [hl.mem_iff]
    · simp [hj]
  refine ⟨fun j => ?_, fun hj hk => ?_, fun {b} => ?_⟩
  · by_cases hj : j = i
    · subst hj
      rw [Function.update_self, hl.nodup_iff]
      exact List.nodup_cons.mpr ⟨hout j, h.nodup j⟩
    · rw [Function.update_of_ne hj]
      exact h.nodup j
  · rcases hmem.mp hj with ⟨rfl, rfl⟩ | hj' <;> rcases hmem.mp hk with ⟨hb, rfl⟩ | hk'
    · rfl
    · exact absurd hk' (hout _)
    · exact absurd (hb ▸ hj') (hout _)
    · exact h.unique hj' hk'
  · rw [Finset.mem_insert, h.mem_iff]
    constructor
    · rintro (rfl | ⟨j, hj⟩)
      · exact ⟨i, hmem.mpr (.inl ⟨rfl, rfl⟩)⟩
      · exact ⟨j, hmem.mpr (.inr hj)⟩
    · rintro ⟨j, hj⟩
      rcases hmem.mp hj with ⟨rfl, -⟩ | hj
      · exact .inl rfl
      · exact .inr ⟨j, hj⟩

theorem Placed.take (h : Placed S q) (hl : (q i).Perm (a :: l)) : Placed (S.erase a) (Function.update q i l) := by
  have hnd := hl.nodup_iff.mp (h.nodup i)
  have ha : a ∈ q i := hl.mem_iff.mpr List.mem_cons_self
  have hmem : ∀ {j b}, b ∈ Function.update q i l j ↔ b ≠ a ∧ b ∈ q j := by
    intro j b
    by_cases hj : j = i
    · subst hj
      rw [Function.update_self, hl.mem_iff, List.mem_cons]
      constructor
      · intro hb
        exact ⟨fun he => (List.nodup_cons.mp hnd).1 (he ▸ hb), .inr hb⟩
      · rintro ⟨hne, he | hb⟩
        · exact absurd he hne
        · exact hb
    · rw [Function.update_of_ne hj]
      exact ⟨fun hb => ⟨fun he => hj (h.unique (he ▸ hb) ha), hb⟩, fun hb => hb.2⟩
  refine ⟨fun j => ?_, fun hj hk => h.unique (hmem.mp hj).2 (hmem.mp hk).2, fun {b} => ?_⟩
  · by_cases hj : j = i
    · subst hj
      rw [Function.update_self]
      exact (List.nodup_cons.mp hnd).2
    · rw [Function.update_of_ne hj]
      exact h.nodup j
  · rw [Finset.mem_erase, h.mem_iff]
    simp only [hmem]
    tauto

theorem Placed.put_tail (h : Placed S q) (ha : a ∉ S) : Placed (insert a S) (Function.update q i (q i ++ [a])) :=
  h.put ha (List.perm_append_singleton a (q i))

end

end Queues
