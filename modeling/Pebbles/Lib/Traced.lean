import Mathlib

/-!
# Computations with the addresses they touch

A run has a value, unless it stops on the way, and two lists: the addresses it
has read and those it has written, the last one of a run that stops included.
-/

namespace Traced

structure Run (α β : Type) where
  value : Option β
  reads : List α
  writes : List α

namespace Run

variable {α β γ : Type}

instance : Monad (Run α) where
  pure b := ⟨some b, [], []⟩
  bind x f :=
    match x.value with
    | none => ⟨none, x.reads, x.writes⟩
    | some b => ⟨(f b).value, x.reads ++ (f b).reads, x.writes ++ (f b).writes⟩

def lift (o : Option β) : Run α β := ⟨o, [], []⟩

def read (a : α) (o : Option β) : Run α β := ⟨o, [a], []⟩

def write (a : α) (o : Option β) : Run α β := ⟨o, [], [a]⟩

@[simp]
theorem value_pure (b : β) : (pure b : Run α β).value = some b := rfl

@[simp]
theorem value_lift (o : Option β) : (lift o : Run α β).value = o := rfl

@[simp]
theorem value_bind (x : Run α β) (f : β → Run α γ) : (x >>= f).value = x.value.bind fun b => (f b).value := by
  simp only [bind]
  cases x.value <;> rfl

theorem bind_none {x : Run α β} (h : x.value = none) (f : β → Run α γ) : x >>= f = ⟨none, x.reads, x.writes⟩ := by
  simp only [bind, h]

theorem bind_some {x : Run α β} {b : β} (h : x.value = some b) (f : β → Run α γ) :
    x >>= f = ⟨(f b).value, x.reads ++ (f b).reads, x.writes ++ (f b).writes⟩ := by
  simp only [bind, h]

def Within (R W : α → Prop) (x : Run α β) : Prop := (∀ a ∈ x.reads, R a) ∧ ∀ a ∈ x.writes, W a

section
variable {R W : α → Prop}

@[simp]
theorem within_pure (b : β) : (pure b : Run α β).Within R W := by simp [Within, pure]

@[simp]
theorem within_lift (o : Option β) : (lift o : Run α β).Within R W := by simp [Within, lift]

@[simp]
theorem within_read (a : α) (o : Option β) : (read a o).Within R W ↔ R a := by simp [Within, read]

@[simp]
theorem within_write (a : α) (o : Option β) : (write a o).Within R W ↔ W a := by simp [Within, write]

theorem within_bind (x : Run α β) (f : β → Run α γ) :
    (x >>= f).Within R W ↔ x.Within R W ∧ ∀ b, x.value = some b → (f b).Within R W := by
  cases h : x.value with
  | none => simp [bind_none h, Within]
  | some b =>
    simp only [bind_some h, Within, List.forall_mem_append, Option.some.injEq, forall_eq']
    tauto

end

def Quiet (x : Run α β) : Prop := x.writes = []

@[simp]
theorem quiet_pure (b : β) : (pure b : Run α β).Quiet := rfl

@[simp]
theorem quiet_read (a : α) (o : Option β) : (read a o).Quiet := rfl

theorem quiet_bind (x : Run α β) (f : β → Run α γ) :
    (x >>= f).Quiet ↔ x.Quiet ∧ ∀ b, x.value = some b → (f b).Quiet := by
  cases h : x.value with
  | none => simp [bind_none h, Quiet]
  | some b => simp [bind_some h, Quiet]

end Run

end Traced
