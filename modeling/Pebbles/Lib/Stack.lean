import Mathlib

/-!
# Stacks threaded through an array

A stack of cells whose links are kept in a table `next`: the list it holds is
read from the head by following the links up to the end mark.
-/

namespace Stack

variable {α : Type*}

/-- Following `next` from `h` reads exactly the cells `l` and then the end mark. -/
def Chain (next : α → α) (stop : α) : α → List α → Prop
  | h, [] => h = stop
  | h, a :: l => h = a ∧ a ≠ stop ∧ Chain next stop (next a) l

section
variable {next next' : α → α} {stop h a : α} {l : List α}

theorem Chain.congr (hl : Chain next stop h l) (he : ∀ b ∈ l, next' b = next b) : Chain next' stop h l := by
  induction l generalizing h with
  | nil => exact hl
  | cons b l ih =>
    obtain ⟨rfl, hb, hl⟩ := hl
    refine ⟨rfl, hb, ?_⟩
    rw [he h (by simp)]
    exact ih hl fun c hc => he c (by simp [hc])

theorem Chain.unique {l' : List α} (hl : Chain next stop h l) (hl' : Chain next stop h l') : l = l' := by
  induction l generalizing h l' with
  | nil =>
    cases l' with
    | nil => rfl
    | cons b l' => exact absurd (hl'.1.symm.trans hl) hl'.2.1
  | cons b l ih =>
    obtain ⟨rfl, hb, hl⟩ := hl
    cases l' with
    | nil => exact absurd hl' hb
    | cons c l' =>
      obtain ⟨rfl, -, hl'⟩ := hl'
      rw [ih hl hl']

theorem Chain.suffix (l₁ : List α) {l₂ : List α} (hl : Chain next stop h (l₁ ++ a :: l₂)) :
    Chain next stop a (a :: l₂) := by
  induction l₁ generalizing h with
  | nil => exact ⟨rfl, hl.2⟩
  | cons b l₁ ih => exact ih hl.2.2

theorem Chain.nodup (hl : Chain next stop h l) : l.Nodup := by
  induction l generalizing h with
  | nil => exact List.nodup_nil
  | cons b l ih =>
    have hb : Chain next stop b (b :: l) := ⟨rfl, hl.2⟩
    refine List.nodup_cons.mpr ⟨fun hm => ?_, ih hl.2.2⟩
    obtain ⟨l₁, l₂, rfl⟩ := List.append_of_mem hm
    have := congrArg List.length (hb.unique (Chain.suffix (b :: l₁) hb))
    simp at this
    omega

theorem Chain.push (hl : Chain next stop h l) (ha : a ≠ stop) (hn : next' a = h)
    (he : ∀ b ∈ l, next' b = next b) : Chain next' stop a (a :: l) :=
  ⟨rfl, ha, hn ▸ hl.congr he⟩

theorem Chain.pop (hl : Chain next stop h l) (hh : h ≠ stop) : ∃ l', l = h :: l' ∧ Chain next stop (next h) l' := by
  cases l with
  | nil => exact absurd hl hh
  | cons b l =>
    obtain ⟨rfl, -, hl⟩ := hl
    exact ⟨l, rfl, hl⟩

end

theorem chain_range (next : α → α) (stop : α) (c : Nat → α) (n : Nat) (hc : ∀ i < n, c i ≠ stop)
    (hn : ∀ i < n, next (c i) = if i + 1 < n then c (i + 1) else stop) :
    ∀ k i, i + k = n → 0 < k → Chain next stop (c i) ((List.range' i k).map c)
  | 0, _, _, h => absurd h (Nat.lt_irrefl 0)
  | 1, i, hi, _ => by
    have : ¬ i + 1 < n := by omega
    refine ⟨rfl, hc i (by omega), ?_⟩
    rw [hn i (by omega), if_neg this]
    rfl
  | k + 2, i, hi, _ => by
    refine ⟨rfl, hc i (by omega), ?_⟩
    rw [hn i (by omega), if_pos (by omega)]
    exact chain_range next stop c n hc hn (k + 1) (i + 1) (by omega) (by omega)

end Stack
