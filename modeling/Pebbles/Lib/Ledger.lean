import Mathlib

/-!
# Ledgers

A heap gives out blocks of a size and takes them back. The ledger holds the size of every block
that is out, and counts the releases that name a block that is not out or has another size.
-/

structure Ledger (α : Type*) where
  size : α → Option Nat
  wrong : Nat

namespace Ledger

variable {α : Type*} [DecidableEq α] {L L' : Ledger α} {p q x : α} {m n k : Nat} {l l' : List (α × Nat)}

def grant (L : Ledger α) (p : α) (n : Nat) : Ledger α := { L with size := Function.update L.size p (some n) }

def release (L : Ledger α) (p : α) (n : Nat) : Ledger α :=
  if L.size p = some n then { L with size := Function.update L.size p none } else { L with wrong := L.wrong + 1 }

def grantAll (L : Ledger α) (l : List (α × Nat)) : Ledger α := l.foldl (fun L b => L.grant b.1 b.2) L

def releaseAll (L : Ledger α) (l : List (α × Nat)) : Ledger α := l.foldl (fun L b => L.release b.1 b.2) L

theorem size_grant_self : (L.grant p n).size p = some n := Function.update_self ..

theorem size_grant_of_ne (h : x ≠ p) : (L.grant p n).size x = L.size x := Function.update_of_ne h ..

theorem releaseAll_append : L.releaseAll (l ++ l') = (L.releaseAll l).releaseAll l' := List.foldl_append

theorem release_grant_self (h : L.size p = none) : (L.grant p n).release p n = L := by
  rw [release, if_pos size_grant_self]
  simp only [grant, Function.update_idem, ← h, Function.update_eq_self]

theorem release_grant_ne (h : q ≠ p) : (L.grant p m).release q n = (L.release q n).grant p m := by
  unfold release
  rw [size_grant_of_ne h]
  split
  · simp only [grant]
    rw [Function.update_comm h.symm]
  · rfl

theorem release_grantAll_of_notMem (h : ∀ b ∈ l, q ≠ b.1) :
    (L.grantAll l).release q n = (L.release q n).grantAll l := by
  induction l generalizing L with
  | nil => rfl
  | cons b l ih =>
    rw [List.forall_mem_cons] at h
    change ((L.grant b.1 b.2).grantAll l).release q n = ((L.release q n).grant b.1 b.2).grantAll l
    rw [ih h.2, release_grant_ne h.1]

theorem release_grantAll {b : α × Nat} (hn : (l.map Prod.fst).Nodup) (hf : ∀ b ∈ l, L.size b.1 = none) (hb : b ∈ l) :
    (L.grantAll l).release b.1 b.2 = L.grantAll (l.erase b) := by
  induction l generalizing L with
  | nil => cases hb
  | cons a l ih =>
    obtain ⟨ha, hn⟩ := List.nodup_cons.mp hn
    rw [List.forall_mem_cons] at hf
    change ((L.grant a.1 a.2).grantAll l).release b.1 b.2 = _
    by_cases e : a = b
    · subst e
      have hne : ∀ c ∈ l, a.1 ≠ c.1 := fun c hc e => ha (e ▸ List.mem_map_of_mem hc)
      rw [List.erase_cons_head, release_grantAll_of_notMem hne, release_grant_self hf.1]
    · have hb : b ∈ l := (List.mem_cons.mp hb).resolve_left fun e' => e e'.symm
      have hf' : ∀ c ∈ l, (L.grant a.1 a.2).size c.1 = none := by
        intro c hc
        have hne : c.1 ≠ a.1 := fun e => ha (e ▸ List.mem_map_of_mem hc)
        exact (size_grant_of_ne hne).trans (hf.2 c hc)
      rw [ih hn hf' hb, List.erase_cons_tail (by simpa using e)]
      rfl

theorem releaseAll_grantAll (hn : (l.map Prod.fst).Nodup) (hf : ∀ b ∈ l, L.size b.1 = none) (hp : l'.Perm l) :
    (L.grantAll l).releaseAll l' = L := by
  induction l' generalizing l with
  | nil =>
    rw [hp.symm.eq_nil]
    rfl
  | cons b l' ih =>
    have hb : b ∈ l := hp.subset List.mem_cons_self
    change ((L.grantAll l).release b.1 b.2).releaseAll l' = L
    rw [release_grantAll hn hf hb]
    have hsub : (l.erase b).Sublist l := List.erase_sublist
    exact ih (hn.sublist (hsub.map _)) (fun c hc => hf c (hsub.subset hc)) (List.cons_perm_iff_perm_erase.mp hp).2

/-! ## Releases that go wrong -/

theorem wrong_le_release : L.wrong ≤ (L.release p n).wrong := by
  unfold release
  split
  · exact Nat.le_refl _
  · exact Nat.le_succ _

theorem wrong_le_releaseAll : L.wrong ≤ (L.releaseAll l).wrong := by
  induction l generalizing L with
  | nil => exact Nat.le_refl _
  | cons b l ih => exact wrong_le_release.trans ih

theorem size_of_release (h : (L.release p n).size x = some k) : L.size x = some k := by
  unfold release at h
  split at h
  · by_cases e : x = p
    · rw [e] at h
      simp at h
    · exact (Function.update_of_ne e ..).symm.trans h
  · exact h

theorem size_of_releaseAll (h : (L.releaseAll l).size x = some k) : L.size x = some k := by
  induction l generalizing L with
  | nil => exact h
  | cons b l ih => exact size_of_release (ih h)

theorem releaseAll_ne (hw : L.wrong ≤ L'.wrong) (hk : ∀ x, L'.size x = some k → L.size x = some k) (hp : (p, k) ∈ l) :
    L'.releaseAll l ≠ L := by
  induction l generalizing L' with
  | nil => cases hp
  | cons b l ih =>
    rcases List.mem_cons.mp hp with rfl | hp
    · intro e
      by_cases hout : L'.size p = some k
      · -- the block was one of `L`, and is gone
        have hL := hk p hout
        rw [← e] at hL
        have hgone := size_of_releaseAll (L := L'.release p k) hL
        rw [release, if_pos hout] at hgone
        simp at hgone
      · have hcount : (L'.release p k).wrong = L'.wrong + 1 := by rw [release, if_neg hout]
        have hle : (L'.release p k).wrong ≤ L.wrong := e ▸ wrong_le_releaseAll (L := L'.release p k)
        omega
    · exact ih (hw.trans wrong_le_release) (fun x hx => hk x (size_of_release hx)) hp

end Ledger
