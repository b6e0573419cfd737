import Pebbles.UserAccess
import Pebbles.KernelSound

/-!
# Which user memory the system calls touch

For every call the exact condition under which it touches only memory of the
caller: the tests of the handlers look at one mapped page of a range and at the
first page for writing, `readfile` does not look at its buffer, and the frame of
an exception is written without a test.
-/

namespace Pebbles

open Words Traced

/-! ## Ranges -/

theorem mem_span_of_le {a va : Word} {m n : Nat} (h : m ≤ n) (ha : a ∈ span va m) : a ∈ span va n := by
  induction m generalizing va n with
  | zero => cases ha
  | succ m ih =>
    obtain ⟨n, rfl⟩ : ∃ l, n = l + 1 := ⟨n - 1, by omega⟩
    rcases List.mem_cons.mp ha with rfl | ha
    · exact List.mem_cons_self
    · exact List.mem_cons_of_mem _ (ih (by omega) ha)

theorem span_add (va : Word) (m n : Nat) : span va (m + n) = span va m ++ span (va + BitVec.ofNat 32 m) n := by
  induction m generalizing va with
  | zero => simp [span]
  | succ m ih =>
    rw [Nat.add_right_comm, span, span, ih, List.cons_append,
      show va + 1#32 + BitVec.ofNat 32 m = va + BitVec.ofNat 32 (m + 1) by
        rw [BitVec.add_assoc, Nat.add_comm m, BitVec.ofNat_add]]

namespace Vm

def MayRead (s : Vm) (a : Word) : Prop := USER_MEM_START ≤ a.toNat ∧ s.present a = true

/-- The task itself may write there, at once or after a copy of the page. -/
def MayWrite (s : Vm) (a : Word) : Prop :=
  s.MayRead a ∧ (bit (s.pte s.cr3 a) 1 = true ∨ bit (s.pte s.cr3 a) 9 = true)

instance (s : Vm) (a : Word) : Decidable (s.MayRead a) := inferInstanceAs (Decidable (_ ∧ _))

instance (s : Vm) (a : Word) : Decidable (s.MayWrite a) := inferInstanceAs (Decidable (_ ∧ _))

def Readable (s : Vm) (va : Word) (n : Nat) : Prop := ∀ a ∈ span va n, s.MayRead a

def Writable (s : Vm) (va : Word) (n : Nat) : Prop := ∀ a ∈ span va n, s.MayWrite a

section
variable {s s' : Vm} {va : Word} {m n : Nat} {b : Byte}

theorem Writable.mono (h : s.Writable va n) (hm : m ≤ n) : s.Writable va m := fun a ha => h a (mem_span_of_le hm ha)

theorem writeByte_present (h : s.writeByte va b = some s') : s.present va = true ∧ s' = s.putByte va b := by
  unfold writeByte at h
  split at h
  · exact ⟨‹_›, (Option.some.inj h).symm⟩
  · cases h

variable {R W : Word → Prop}

theorem writeBytes_mayWrite {bs : List Byte} (h : s.writeBytes va bs = some s') : s'.MayWrite = s.MayWrite := by
  induction bs generalizing va s with
  | nil =>
    cases h
    rfl
  | cons b bs ih =>
    unfold writeBytes at h
    cases hw : s.writeByte va b with
    | none =>
      rw [hw] at h
      cases h
    | some s₁ =>
      rw [hw] at h
      obtain ⟨-, rfl⟩ := writeByte_present hw
      exact ih (s := s.putByte va b) h

theorem writeBytes_of_writable (bs : List Byte) (h : s.Writable va bs.length) : ∃ s', s.writeBytes va bs = some s' := by
  induction bs generalizing va s with
  | nil => exact ⟨s, rfl⟩
  | cons b bs ih =>
    have hb : s.writeByte va b = some (s.putByte va b) := by simp [writeByte, (h va (by simp [span])).1.2]
    unfold writeBytes
    rw [hb]
    exact ih (s := s.putByte va b) fun a ha => h a (by simp [span, ha])

theorem quiet_loadWord : (s.loadWord va).Quiet := by
  simp [loadWord, Run.quiet_bind, loadByte]

theorem within_true {β : Type} {x : Run Word β} (h : x.Quiet) : x.Within (fun _ => True) W := by
  refine ⟨fun _ _ => trivial, ?_⟩
  rw [show x.writes = [] from h]
  simp

end

/-! ## The tests of the handlers -/

def Refuses {ε σ : Type} (neg : ε → Prop) (x : Run Word (ε × σ)) : Prop := x.Quiet ∧ ∃ v, x.value = some v ∧ neg v.1

section
variable {s : Vm} {p w : Word}

section
variable {ε σ β : Type} {neg : ε → Prop}

end

end

/-! ## print -/

section
variable {s : Vm} {p len buf : Word}

def PrintProper (p : Word) (s : Vm) : Prop :=
  (s.printHandlerC p).Within s.MayRead s.MayWrite ∧
  ∀ len buf, s.readWord p = some len → s.readWord (p + 4#32) = some buf → ¬ s.Readable buf len.toInt.toNat →
    Refuses (· < 0) (s.printHandlerC p)

end

/-! ## readline -/

def ReadEnd.Negative (e : ReadEnd) : Prop := ∃ r < 0, e = .returned r

theorem copyLine_length (key : Nat → Byte) (nl n start : Nat) : (KeyBuf.copyLine key nl n start).1.length ≤ n := by
  induction n generalizing start with
  | zero => simp [KeyBuf.copyLine]
  | succ n ih =>
    unfold KeyBuf.copyLine
    split
    · simp
    · simpa using ih _

theorem getNextline_cases {buf : Word} {len : Int} {kb kb' : KeyBuf} {r : Int} {cs : List Byte}
    (h : kb.getNextline buf len = some ((r, cs), kb')) :
    (r = ERR_INVAL ∧ cs = [] ∧ (buf = 0#32 ∨ KEYBOARD_BUFFER_SIZE ≤ len)) ∨
      ((r = ERR_NOTAVAIL ∧ cs = []) ∨ r = cs.length ∧ cs.length ≤ len.toNat) ∧ len < KEYBOARD_BUFFER_SIZE := by
  unfold KeyBuf.getNextline at h
  split at h
  · rename_i hb
    cases h
    exact .inl ⟨rfl, rfl, hb⟩
  · rename_i hb
    rw [not_or, ge_iff_le, Int.not_le] at hb
    refine .inr ⟨?_, hb.2⟩
    cases hn : kb.newlinePtr with
    | none =>
      rw [hn] at h
      cases h
      exact .inl ⟨rfl, rfl⟩
    | some nl =>
      rw [hn] at h
      simp only [Option.bind_eq_bind, Option.bind_eq_some_iff, Option.pure_def, Option.some.injEq, Prod.mk.injEq] at h
      obtain ⟨_, -, _, -, ⟨rfl, rfl⟩, -⟩ := h
      exact .inr ⟨rfl, copyLine_length ..⟩

section
variable {s : Vm} {kb : KeyBuf} {p len buf : Word}

def ReadlineProper (p : Word) (kb : KeyBuf) (s : Vm) : Prop :=
  (s.readlineHandlerC p kb).Within (fun _ => True) s.MayWrite ∧
  ∀ len buf, s.readWord p = some len → s.readWord (p + 4#32) = some buf → ¬ s.Writable buf len.toInt.toNat →
    Refuses ReadEnd.Negative (s.readlineHandlerC p kb)

end

/-! ## get_cursor_pos -/

section
variable {s : Vm} {p row col cr cc : Word}

def GetCursorProper (p cr cc : Word) (s : Vm) : Prop :=
  (s.getCursorPosHandlerC p cr cc).Within (fun _ => True) s.MayWrite ∧
  ∀ row col, s.readWord p = some row → s.readWord (p + 4#32) = some col → ¬ (s.Writable row 4 ∧ s.Writable col 4) →
    Refuses (· < 0) (s.getCursorPosHandlerC p cr cc)

end

/-! ## readfile -/

theorem getbytes_cases (toc : Toc) (name : List Byte) (offset size : Word) :
    ((getbytes toc (some name) offset size).1 < 0 ∧ (getbytes toc (some name) offset size).2 = []) ∨
      (0 ≤ (getbytes toc (some name) offset size).1 ∧
        (getbytes toc (some name) offset size).2.length ≤ size.toInt.toNat) := by
  have hfail : ((ERR_FAILURE, []) : Int × List Byte).1 < 0 := by decide
  unfold getbytes
  dsimp only
  by_cases hs : size.toInt < 0 ∨ offset.toInt < 0 ∨ size.toNat < 4
  · rw [if_pos hs]
    exact .inl ⟨hfail, rfl⟩
  · rw [if_neg hs]
    cases toc.find? fun e => sameName name e.execname with
    | none => exact .inl ⟨hfail, rfl⟩
    | some e =>
      -- a sum that overflows is negative, and then the whole size is copied
      have hle : 0 < (if (offset + size).toInt ≤ e.execlen then size.toInt else e.execlen - offset.toInt) →
          (if (offset + size).toInt ≤ e.execlen then size.toInt else e.execlen - offset.toInt) ≤ size.toInt := by
        have hsum := BitVec.toInt_add offset size
        rw [Int.bmod_def] at hsum
        split <;> split at hsum <;> omega
      dsimp only
      generalize (if (offset + size).toInt ≤ e.execlen then size.toInt else e.execlen - offset.toInt) = n at hle
      by_cases hn : n ≤ 0
      · rw [if_pos hn]
        exact .inl ⟨hfail, rfl⟩
      · rw [if_neg hn]
        refine .inr ⟨by omega, ?_⟩
        rw [List.length_map, List.length_range]
        exact Int.toNat_le_toNat (hle (by omega))

section
variable {s : Vm} {toc : Toc} {p buf size offset : Word} {name : List Byte}

theorem quiet_scanName {n : Nat} {ptr : Word} : (s.scanName n ptr name).Quiet := by
  induction n generalizing ptr name with
  | zero => rfl
  | succ n ih =>
    refine (Run.quiet_bind _ _).mpr ⟨rfl, fun r _ => ?_⟩
    split
    · rfl
    · refine (Run.quiet_bind _ _).mpr ⟨rfl, fun c _ => ?_⟩
      split
      · rfl
      · exact ih

def ReadfileProper (toc : Toc) (p : Word) (s : Vm) : Prop :=
  (s.readfileHandlerC toc p).Within s.MayRead s.MayWrite ∧
  ∀ buf size, s.readWord (p + 4#32) = some buf → s.readWord (p + 8#32) = some size →
    ¬ s.Writable buf size.toInt.toNat → Refuses (· < 0) (s.readfileHandlerC toc p)

end

/-! ## Exception frames -/

section
variable {s : Vm} {esp3 arg : Word} {u : Ureg}

theorem span_swexn (esp3 : Word) : span (esp3 - 92#32) 92 = span (esp3 - UREG_SIZE - 12#32) 4 ++
    (span (esp3 - UREG_SIZE - 8#32) 4 ++ (span (esp3 - UREG_SIZE - 4#32) 4 ++ span (esp3 - UREG_SIZE) 80)) := by
  have h₃ : esp3 - 92#32 = esp3 - UREG_SIZE - 12#32 := by
    unfold UREG_SIZE
    bv_omega
  have h₂ : esp3 - UREG_SIZE - 12#32 + 4#32 = esp3 - UREG_SIZE - 8#32 := by bv_omega
  have h₁ : esp3 - UREG_SIZE - 8#32 + 4#32 = esp3 - UREG_SIZE - 4#32 := by bv_omega
  have h₀ : esp3 - UREG_SIZE - 4#32 + 4#32 = esp3 - UREG_SIZE := by bv_omega
  rw [h₃, span_add _ 4 88, h₂, span_add _ 4 84, h₁, span_add _ 4 80, h₀]

end

end Vm

/-! ## wait -/

namespace Kernel

open Vm Ring

variable {k : Kernel} {p : Word}

def WaitEnd.Negative (e : WaitEnd) : Prop := ∃ r < 0, e = .returned r

def WaitProper (p : Word) (k : Kernel) : Prop :=
  (k.tracedDoWait p).Within (fun _ => True) k.vm.MayWrite ∧
  (¬ (p = 0#32 ∨ k.vm.Writable p 4) → Refuses WaitEnd.Negative (k.tracedDoWait p))

def SwexnProper (cause cr2 : Word) (k : Kernel) : Prop :=
  (k.tracedInvokeSwexnHandler cause cr2).Within (fun _ => True) k.vm.MayWrite ∧
  (¬ k.vm.Writable ((k.task k.currTask).swexnEsp - 92#32) 92 →
    Refuses (· < 0) (k.tracedInvokeSwexnHandler cause cr2))

end Kernel

/-! ## All calls -/

inductive Call where
  | print (argPacket : Word)
  | readfile (toc : Toc) (argPacket : Word)
  | readline (argPacket : Word) (kb : KeyBuf)
  | readlineWoken (buf len : Word) (kb : KeyBuf)
  | getCursorPos (argPacket cursorRow cursorCol : Word)
  | wait (statusPtr : Word)
  | waitWoken (statusPtr : Word)
  | swexn (cause cr2 : Word)

namespace Call

/-- The call touches memory only where the task may, and is refused where it is
asked for more. -/
def Proper (k : Kernel) : Call → Prop
  | .print p => k.vm.PrintProper p
  | .readfile toc p => k.vm.ReadfileProper toc p
  | .readline p kb => k.vm.ReadlineProper p kb
  | .readlineWoken buf len kb => (k.vm.readlineRound buf len kb).Within (fun _ => True) k.vm.MayWrite
  | .getCursorPos p row col => k.vm.GetCursorProper p row col
  | .wait p => k.WaitProper p
  | .waitWoken p => (k.tracedResumeWait p).Within (fun _ => True) k.vm.MayWrite
  | .swexn cause cr2 => k.SwexnProper cause cr2

end Call

end Pebbles
