import Mathlib

/-!
# Runs of a step relation

States reached from an initial state, and the rule that what holds initially
and survives every step holds in all of them.
-/

namespace Runs

variable {σ τ : Type*}

theorem update_alone {ι α : Type*} [DecidableEq ι] {P : α → Prop} {f : ι → α} {t : ι} {pos : α}
    (hf : ∀ {a b}, P (f a) → P (f b) → a = b) (hpos : P pos → ∀ u, u ≠ t → ¬ P (f u)) {a b : ι}
    (ha : P (Function.update f t pos a)) (hb : P (Function.update f t pos b)) : a = b := by
  by_cases ea : a = t <;> by_cases eb : b = t
  · rw [ea, eb]
  · rw [ea, Function.update_self] at ha
    rw [Function.update_of_ne eb] at hb
    exact absurd hb (hpos ha b eb)
  · rw [eb, Function.update_self] at hb
    rw [Function.update_of_ne ea] at ha
    exact absurd ha (hpos hb a ea)
  · rw [Function.update_of_ne ea] at ha
    rw [Function.update_of_ne eb] at hb
    exact hf ha hb

/-- `s` is reached from an initial state by finitely many steps. -/
def Reach (init : σ → Prop) (step : σ → σ → Prop) (s : σ) : Prop :=
  ∃ s₀, init s₀ ∧ Relation.ReflTransGen step s₀ s

section
variable {init : σ → Prop} {step : σ → σ → Prop}

theorem Reach.start {s : σ} (h : init s) : Reach init step s := ⟨s, h, .refl⟩

theorem Reach.tail {s t : σ} (h : Reach init step s) (hs : step s t) : Reach init step t := by
  obtain ⟨s₀, h₀, hr⟩ := h
  exact ⟨s₀, h₀, hr.tail hs⟩

theorem Reach.invariant {P : σ → Prop} (h₀ : ∀ s, init s → P s) (hstep : ∀ s t, P s → step s t → P t)
    {s : σ} (h : Reach init step s) : P s := by
  obtain ⟨s₀, hi, hr⟩ := h
  induction hr with
  | refl => exact h₀ _ hi
  | tail _ hs ih => exact hstep _ _ ih hs

theorem Reach.foldlM {α : Type*} {act : σ → α → Option σ} (hact : ∀ s a t, act s a = some t → step s t) {s t : σ}
    {l : List α} (h : Reach init step s) (hl : l.foldlM act s = some t) : Reach init step t := by
  induction l generalizing s with
  | nil =>
    cases hl
    exact h
  | cons a l ih =>
    rw [List.foldlM_cons] at hl
    obtain ⟨u, hu, hl⟩ := Option.bind_eq_some_iff.mp hl
    exact ih (h.tail (hact _ _ _ hu)) hl

theorem Reach.script {α : Type*} {act : σ → α → Option σ} (hact : ∀ s a t, act s a = some t → step s t) {s : σ}
    {l : List α} {p : σ → Bool} (h : Reach init step s) (hp : (l.foldlM act s).any p) :
    ∃ t, Reach init step t ∧ p t := by
  obtain ⟨t, ht, hpt⟩ := (Option.any_eq_true _ _).mp hp
  exact ⟨t, h.foldlM hact ht, hpt⟩

/-- The rule of refinement: where every step of a reachable state is matched by
steps of a second system, reachable states are reachable there. -/
theorem Reach.refines {init' : τ → Prop} {step' : τ → τ → Prop} {f : σ → τ} (h₀ : ∀ s, init s → init' (f s))
    (hstep : ∀ s t, Reach init step s → step s t → Relation.ReflTransGen step' (f s) (f t)) {s : σ}
    (h : Reach init step s) : Reach init' step' (f s) := by
  obtain ⟨s₀, hi, hr⟩ := h
  induction hr with
  | refl => exact .start (h₀ _ hi)
  | tail hr hs ih =>
    obtain ⟨t₀, ht₀, htr⟩ := ih
    exact ⟨t₀, ht₀, htr.trans (hstep _ _ ⟨s₀, hi, hr⟩ hs)⟩

end

/-! ## Runs with their actions -/

inductive Trace {α : Type*} (step : α → σ → σ → Prop) : List α → σ → σ → Prop
  | nil {s} : Trace step [] s s
  | cons {a l s t u} : step a s t → Trace step l t u → Trace step (a :: l) s u

/-- The rule of ranks: where every step reaches the goal or pays its cost, a run that
costs more than the rank passes the goal. -/
theorem Trace.passes {α : Type*} {step : α → σ → σ → Prop} {cost : α → Nat} {P goal : σ → Prop} {rank : σ → Nat}
    (hstep : ∀ a s t, P s → step a s t → goal t ∨ P t ∧ rank t + cost a ≤ rank s) {l : List α} {s u : σ}
    (h : Trace step l s u) (hs : P s) (hl : rank s < (l.map cost).sum) :
    ∃ l₁ l₂ t, l = l₁ ++ l₂ ∧ Trace step l₁ s t ∧ goal t ∧ Trace step l₂ t u := by
  induction h with
  | nil => simp at hl
  | @cons a l s t u ht h ih =>
    rcases hstep a s t hs ht with hg | ⟨hP, hr⟩
    · exact ⟨[a], l, t, rfl, .cons ht .nil, hg, h⟩
    · rw [List.map_cons, List.sum_cons] at hl
      obtain ⟨l₁, l₂, v, rfl, h₁, hg, h₂⟩ := ih hP (by omega)
      exact ⟨a :: l₁, l₂, v, rfl, .cons ht h₁, hg, h₂⟩

end Runs
