import Mathlib

/-!
# Windows of a ring buffer

A buffer of `N` cells is walked in a circle. The window of length `len` from
`start` is what the cells hold from there on; the other cells keep what was
written to them before.
-/

namespace Window

variable {α : Type*} {N : Nat}

def next (N i : Nat) : Nat := (i + 1) % N

def prev (N i : Nat) : Nat := if i = 0 then N - 1 else i - 1

def window (N : Nat) (buf : Nat → α) (start len : Nat) : List α := (List.range len).map fun i => buf ((start + i) % N)

@[simp]
theorem length_window (buf : Nat → α) (start len : Nat) : (window N buf start len).length = len := by simp [window]

@[simp]
theorem window_zero (buf : Nat → α) (start : Nat) : window N buf start 0 = [] := rfl

theorem next_mod (i : Nat) : next N (i % N) = (i + 1) % N := by simp [next]

theorem prev_mod (h : 0 < N) (i : Nat) : prev N ((i + 1) % N) = i % N := by
  unfold prev
  have hi : i % N < N := Nat.mod_lt _ h
  rw [← Nat.mod_add_mod]
  rcases Nat.lt_or_eq_of_le (Nat.succ_le_of_lt hi) with hlt | heq
  · rw [Nat.mod_eq_of_lt hlt]
    simp
  · have heq : i % N + 1 = N := heq
    rw [heq, Nat.mod_self, if_pos rfl]
    omega

theorem cell_inj {start i j : Nat} (hi : i < N) (hj : j < N) (h : (start + i) % N = (start + j) % N) : i = j :=
  (Nat.ModEq.add_left_cancel' start h).eq_of_lt_of_lt hi hj

theorem window_append (buf : Nat → α) (start a b : Nat) :
    window N buf start (a + b) = window N buf start a ++ window N buf ((start + a) % N) b := by
  simp [window, List.range_add, Nat.add_assoc, Function.comp_def]

theorem window_one (buf : Nat → α) (start : Nat) : window N buf start 1 = [buf (start % N)] := by simp [window]

theorem window_snoc (buf : Nat → α) (start len : Nat) :
    window N buf start (len + 1) = window N buf start len ++ [buf ((start + len) % N)] := by
  rw [window_append, window_one, Nat.mod_mod]

theorem window_cons (buf : Nat → α) (start len : Nat) :
    window N buf start (len + 1) = buf (start % N) :: window N buf (next N start) len := by
  rw [Nat.add_comm, window_append, window_one]
  rfl

theorem window_update {start len : Nat} (h : len < N) (buf : Nat → α) (c : α) :
    window N (Function.update buf ((start + len) % N) c) start len = window N buf start len := by
  apply List.map_congr_left
  intro i hi
  have hi : i < len := List.mem_range.mp hi
  refine Function.update_of_ne (fun he => ?_) _ _
  have := cell_inj (Nat.lt_trans hi h) h he
  omega

theorem window_push {start len : Nat} (h : len < N) (buf : Nat → α) (c : α) :
    window N (Function.update buf ((start + len) % N) c) start (len + 1) = window N buf start len ++ [c] := by
  rw [window_snoc, window_update h, Function.update_self]

theorem take_window (buf : Nat → α) (start len n : Nat) :
    (window N buf start len).take n = window N buf start (min n len) := by
  simp [window, ← List.map_take, List.take_range]

theorem window_start_mod (buf : Nat → α) (start len : Nat) :
    window N buf (start % N) len = window N buf start len := by simp [window]

end Window
