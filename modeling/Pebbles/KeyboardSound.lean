import Pebbles.Keyboard
import Pebbles.Lib.Runs

/-!
# The keyboard buffer as a queue of lines

The cells from `start_ptr` up to `end_ptr` hold the content of a line queue.
Every operation keeps this, except a backspace that reaches into a completed
line, and taking the last completed line while the cell at `end_ptr` still holds
an old newline.
-/

namespace Pebbles

open Words Window Runs

namespace LineQueue

variable {q : LineQueue} {c : Byte}

theorem content_cons (l : List Byte) (ls : List (List Byte)) (e : List Byte) :
    content ⟨l :: ls, e⟩ = l ++ newline :: content ⟨ls, e⟩ := by simp [content]

theorem content_complete (q : LineQueue) : content ⟨q.lines ++ [q.edit], []⟩ = q.content ++ [newline] := by
  simp [content]

theorem content_type (q : LineQueue) (c : Byte) : content ⟨q.lines, q.edit ++ [c]⟩ = q.content ++ [c] := by
  simp [content]

theorem findIdx_content_cons {l : List Byte} (h : newline ∉ l) (rest : List Byte) :
    (l ++ newline :: rest).findIdx? (· = newline) = some l.length := by
  rw [List.findIdx?_append, List.findIdx?_eq_none_iff.mpr]
  · simp [List.findIdx?_cons]
  · intro x hx
    simpa using fun he : x = newline => h (he ▸ hx)

theorem findIdx_content (hl : ∀ l ∈ q.lines, newline ∉ l) (he : newline ∉ q.edit) :
    q.content.findIdx? (· = newline) = q.lines.head?.map List.length := by
  obtain ⟨ls, e⟩ := q
  cases ls with
  | nil =>
    refine List.findIdx?_eq_none_iff.mpr fun x hx => ?_
    simpa using fun h : x = newline => he (h ▸ by simpa [content] using hx)
  | cons l ls => simpa [content_cons] using findIdx_content_cons (hl l (by simp)) _

end LineQueue

namespace KeyBuf

theorem size_pos : 0 < KEYBOARD_BUFFER_SIZE := by decide

structure Holds (kb : KeyBuf) (q : LineQueue) : Prop where
  start_lt : kb.startPtr < KEYBOARD_BUFFER_SIZE
  length_lt : q.content.length < KEYBOARD_BUFFER_SIZE
  end_eq : kb.endPtr = (kb.startPtr + q.content.length) % KEYBOARD_BUFFER_SIZE
  window_eq : window KEYBOARD_BUFFER_SIZE kb.keyBuf kb.startPtr q.content.length = q.content
  newline_eq : kb.newlinePtr = q.lines.head?.map fun l => (kb.startPtr + l.length) % KEYBOARD_BUFFER_SIZE
  clean : ∀ l ∈ q.lines, newline ∉ l
  edit_clean : newline ∉ q.edit

section
variable {kb : KeyBuf} {q : LineQueue}

theorem holds_init : Holds init .empty where
  start_lt := by decide
  length_lt := by decide
  end_eq := by decide
  window_eq := rfl
  newline_eq := rfl
  clean := by simp [LineQueue.empty]
  edit_clean := by simp [LineQueue.empty]

theorem Holds.pending_eq (h : Holds kb q) : kb.pending = q.content.length := by
  unfold pending
  rw [h.end_eq, Nat.mod_add_mod, show kb.startPtr + q.content.length + (KEYBOARD_BUFFER_SIZE - kb.startPtr) =
    q.content.length + KEYBOARD_BUFFER_SIZE by have := h.start_lt; omega, Nat.add_mod_right]
  exact Nat.mod_eq_of_lt h.length_lt

theorem Holds.contents_eq (h : Holds kb q) : kb.contents = q.content := by
  rw [contents, h.pending_eq, h.window_eq]

theorem Holds.start_eq (h : Holds kb q) : (kb.startPtr + 0) % KEYBOARD_BUFFER_SIZE = kb.startPtr :=
  Nat.mod_eq_of_lt h.start_lt

theorem Holds.next_end (h : Holds kb q) :
    next KEYBOARD_BUFFER_SIZE kb.endPtr = (kb.startPtr + (q.content.length + 1)) % KEYBOARD_BUFFER_SIZE := by
  rw [h.end_eq, next_mod, Nat.add_assoc]

theorem Holds.full_iff (h : Holds kb q) : next KEYBOARD_BUFFER_SIZE kb.endPtr = kb.startPtr ↔ q.full := by
  rw [h.next_end]
  have hlt := h.length_lt
  constructor
  · intro he
    refine Nat.le_of_not_lt fun hf => ?_
    have := cell_inj (by omega) size_pos (he.trans h.start_eq.symm)
    omega
  · intro hf
    have : q.content.length + 1 = KEYBOARD_BUFFER_SIZE := by
      have : KEYBOARD_BUFFER_SIZE - 1 ≤ q.content.length := hf
      omega
    rw [this, Nat.add_mod_right]
    exact h.start_eq

theorem Holds.end_eq_start_iff (h : Holds kb q) : kb.endPtr = kb.startPtr ↔ q.content = [] := by
  rw [h.end_eq]
  constructor
  · intro he
    exact List.length_eq_zero_iff.mp (cell_inj h.length_lt size_pos (he.trans h.start_eq.symm))
  · intro he
    rw [he]
    exact h.start_eq

theorem Holds.newline_none_iff (h : Holds kb q) : kb.newlinePtr = none ↔ q.lines = [] := by
  rw [h.newline_eq]
  simp

theorem Holds.newline_first (h : Holds kb q) : kb.newlinePtr =
    (kb.contents.findIdx? (· = newline)).map fun i => (kb.startPtr + i) % KEYBOARD_BUFFER_SIZE := by
  rw [h.contents_eq, LineQueue.findIdx_content h.clean h.edit_clean, h.newline_eq, Option.map_map]
  rfl

/-! ## Keys -/

theorem LineQueue.length_of_not_full (hf : ¬ q.full) : q.content.length + 1 < KEYBOARD_BUFFER_SIZE := by
  have := Nat.lt_of_not_le hf
  omega

theorem Holds.type {c : Byte} (h : Holds kb q) (hf : ¬ q.full) (hn : c ≠ newline) (hb : c ≠ backspace) :
    Holds (addKeystroke c kb).1 ⟨q.lines, q.edit ++ [c]⟩ := by
  have hlen := LineQueue.length_of_not_full hf
  have hadd : addKeystroke c kb = ({ kb with
      keyBuf := Function.update kb.keyBuf kb.endPtr c, endPtr := next KEYBOARD_BUFFER_SIZE kb.endPtr }, [c]) := by
    simp [addKeystroke, h.full_iff, hf, hn, hb]
  rw [hadd]
  have hl : (LineQueue.content ⟨q.lines, q.edit ++ [c]⟩).length = q.content.length + 1 := by
    simp [LineQueue.content_type]
  refine ⟨h.start_lt, hl ▸ hlen, ?_, ?_, h.newline_eq, h.clean, ?_⟩
  · rw [hl]
    exact h.next_end
  · rw [hl, h.end_eq, window_push h.length_lt, h.window_eq, LineQueue.content_type]
  · simpa using ⟨h.edit_clean, hn.symm⟩

theorem Holds.complete (h : Holds kb q) (hf : ¬ q.full) :
    Holds (addKeystroke newline kb).1 ⟨q.lines ++ [q.edit], []⟩ := by
  have hlen := LineQueue.length_of_not_full hf
  have hadd : addKeystroke newline kb = ({ kb with
      keyBuf := Function.update kb.keyBuf kb.endPtr newline, endPtr := next KEYBOARD_BUFFER_SIZE kb.endPtr,
      newlinePtr := if kb.newlinePtr = none then some kb.endPtr else kb.newlinePtr }, [newline]) := by
    have hb : newline ≠ backspace := by decide
    by_cases hn : kb.newlinePtr = none <;> simp [addKeystroke, h.full_iff, hf, hb, hn]
  rw [hadd]
  have hl : (LineQueue.content ⟨q.lines ++ [q.edit], []⟩).length = q.content.length + 1 := by
    simp [LineQueue.content_complete]
  refine ⟨h.start_lt, hl ▸ hlen, ?_, ?_, ?_, ?_, by simp⟩
  · rw [hl]
    exact h.next_end
  · rw [hl, h.end_eq, window_push h.length_lt, h.window_eq, LineQueue.content_complete]
  · -- the pointer is set by the first completed line only
    have hnl := h.newline_eq
    cases hq : q.lines with
    | nil =>
      have hc : q.content = q.edit := by simp [LineQueue.content, hq]
      have he : kb.endPtr = (kb.startPtr + q.edit.length) % KEYBOARD_BUFFER_SIZE := hc ▸ h.end_eq
      rw [hq] at hnl
      simp [show kb.newlinePtr = none from hnl, he]
    | cons l ls =>
      rw [hq] at hnl
      simp [hnl]
  · intro l hl
    rcases List.mem_append.mp hl with hl | hl
    · exact h.clean l hl
    · rw [List.mem_singleton.mp hl]
      exact h.edit_clean

theorem window_deleted {kb : KeyBuf} {n : Nat} (hn : n + 1 < KEYBOARD_BUFFER_SIZE) (c : Byte) :
    window KEYBOARD_BUFFER_SIZE (Function.update kb.keyBuf ((kb.startPtr + (n + 1)) % KEYBOARD_BUFFER_SIZE) c)
      kb.startPtr n = (window KEYBOARD_BUFFER_SIZE kb.keyBuf kb.startPtr (n + 1)).dropLast := by
  rw [← window_update hn kb.keyBuf c, window_snoc]
  simp

theorem Holds.deleted (h : Holds kb q) (hf : ¬ q.full) (hne : q.content ≠ []) :
    addKeystroke backspace kb = ({ kb with
      keyBuf := Function.update kb.keyBuf kb.endPtr backspace,
      endPtr := (kb.startPtr + (q.content.length - 1)) % KEYBOARD_BUFFER_SIZE }, [backspace]) := by
  have hb : backspace ≠ newline := by decide
  have hpos : q.content.length - 1 + 1 = q.content.length :=
    Nat.sub_add_cancel (List.length_pos_iff.mpr hne)
  have hprev : prev KEYBOARD_BUFFER_SIZE kb.endPtr =
      (kb.startPtr + (q.content.length - 1)) % KEYBOARD_BUFFER_SIZE := by
    rw [h.end_eq, ← hpos, ← Nat.add_assoc, prev_mod size_pos]
    simp
  simp [addKeystroke, h.full_iff, hf, hb, h.end_eq_start_iff, hne, hprev]

theorem content_delete {q : LineQueue} (he : q.edit ≠ []) :
    LineQueue.content ⟨q.lines, q.edit.dropLast⟩ = q.content.dropLast := by
  simp [LineQueue.content, List.dropLast_append_of_ne_nil he]

theorem Holds.delete (h : Holds kb q) (hf : ¬ q.full) (hedit : q.lines ≠ [] → q.edit ≠ []) :
    Holds (addKeystroke backspace kb).1 ⟨q.lines, q.edit.dropLast⟩ := by
  by_cases he : q.edit = []
  · -- nothing is pending and only the cell at the end is overwritten
    have hq : q.lines = [] := by
      by_contra hq
      exact hedit hq he
    have hc : q.content = [] := by simp [LineQueue.content, hq, he]
    have hadd : addKeystroke backspace kb =
        ({ kb with keyBuf := Function.update kb.keyBuf kb.endPtr backspace }, []) := by
      have hb : backspace ≠ newline := by decide
      rw [addKeystroke, if_neg (mt h.full_iff.mp hf)]
      simp [hb, h.end_eq_start_iff.mpr hc]
    have hc' : LineQueue.content ⟨q.lines, q.edit.dropLast⟩ = [] := by simp [LineQueue.content, hq, he]
    rw [hadd]
    refine ⟨h.start_lt, ?_, ?_, ?_, h.newline_eq, h.clean, by simp [he]⟩
    · simpa [hc'] using size_pos
    · simpa [hc', hc] using h.end_eq
    · simp [hc']
  · have hne : q.content ≠ [] := by simp [LineQueue.content, he]
    have hpos : q.content.length - 1 + 1 = q.content.length :=
      Nat.sub_add_cancel (List.length_pos_iff.mpr hne)
    have hl : (LineQueue.content ⟨q.lines, q.edit.dropLast⟩).length = q.content.length - 1 := by
      rw [content_delete he, List.length_dropLast]
    rw [h.deleted hf hne]
    refine ⟨h.start_lt, ?_, by rw [hl], ?_, h.newline_eq, h.clean, fun hm => h.edit_clean (List.mem_of_mem_dropLast hm)⟩
    · have := h.length_lt
      omega
    · have hend : kb.endPtr = (kb.startPtr + (q.content.length - 1 + 1)) % KEYBOARD_BUFFER_SIZE := by
        rw [hpos]
        exact h.end_eq
      rw [hl, content_delete he]
      simp only [hend]
      rw [window_deleted (by have := h.length_lt; omega), hpos, h.window_eq]

theorem Holds.key {c : Byte} (h : Holds kb q)
    (hok : c = backspace → ¬ q.full → q.lines ≠ [] → q.edit ≠ []) : Holds (addKeystroke c kb).1 (q.key c) := by
  unfold LineQueue.key
  by_cases hf : q.full
  · rw [if_pos hf, addKeystroke, if_pos (h.full_iff.mpr hf)]
    exact h
  · rw [if_neg hf]
    by_cases hn : c = newline
    · subst hn
      rw [if_pos rfl]
      exact h.complete hf
    · rw [if_neg hn]
      by_cases hb : c = backspace
      · subst hb
        rw [if_pos rfl]
        exact h.delete hf (hok rfl hf)
      · rw [if_neg hb]
        exact h.type hf hn hb

/-! ## Lines -/

theorem copyLine_eq (key : Nat → Byte) (start : Nat) {m : Nat} (hm : m < KEYBOARD_BUFFER_SIZE) (n i : Nat)
    (hi : i ≤ m) :
    copyLine key ((start + m) % KEYBOARD_BUFFER_SIZE) n ((start + i) % KEYBOARD_BUFFER_SIZE) =
      (window KEYBOARD_BUFFER_SIZE key (start + i) (min n (m - i)),
        (start + (i + min n (m - i))) % KEYBOARD_BUFFER_SIZE) := by
  induction n generalizing i with
  | zero => simp [copyLine]
  | succ n ih =>
    unfold copyLine
    by_cases he : i = m
    · simp [he]
    · have hne : (start + i) % KEYBOARD_BUFFER_SIZE ≠ (start + m) % KEYBOARD_BUFFER_SIZE :=
        fun h => he (cell_inj (by omega) hm h)
      have hmin : min (n + 1) (m - i) = min n (m - (i + 1)) + 1 := by omega
      rw [if_neg hne, next_mod, Nat.add_assoc, ih (i + 1) (by omega), hmin, window_cons]
      simp only [next, window_start_mod, Nat.add_assoc, Nat.add_comm 1]

theorem updateStartPtr_eq (start : Nat) {m : Nat} (hm : m < KEYBOARD_BUFFER_SIZE) (n i : Nat) (hi : i ≤ m)
    (hn : m - i ≤ n) :
    updateStartPtr ((start + m) % KEYBOARD_BUFFER_SIZE) n ((start + i) % KEYBOARD_BUFFER_SIZE) =
      some ((start + (m + 1)) % KEYBOARD_BUFFER_SIZE) := by
  induction n generalizing i with
  | zero =>
    have : i = m := by omega
    subst this
    unfold updateStartPtr
    rw [if_pos rfl, next_mod, Nat.add_assoc]
  | succ n ih =>
    unfold updateStartPtr
    by_cases he : i = m
    · subst he
      rw [if_pos rfl, next_mod, Nat.add_assoc]
    · have hne : (start + i) % KEYBOARD_BUFFER_SIZE ≠ (start + m) % KEYBOARD_BUFFER_SIZE :=
        fun h => he (cell_inj (by omega) hm h)
      rw [if_neg hne]
      simp only [next_mod, Nat.add_assoc]
      exact ih (i + 1) (by omega) (by omega)

theorem scanNewline_eq {key : Nat → Byte} (k : Nat) (hk : k < KEYBOARD_BUFFER_SIZE) (n p : Nat) (hn : k ≤ n) :
    scanNewline key ((p + k) % KEYBOARD_BUFFER_SIZE) n (p % KEYBOARD_BUFFER_SIZE) =
      some (match (window KEYBOARD_BUFFER_SIZE key p k).findIdx? (· = newline) with
        | some j => some ((p + j) % KEYBOARD_BUFFER_SIZE)
        | none =>
          if key ((p + k) % KEYBOARD_BUFFER_SIZE) = newline then some ((p + k) % KEYBOARD_BUFFER_SIZE) else none) := by
  induction k generalizing n p with
  | zero =>
    unfold scanNewline
    by_cases hc : key (p % KEYBOARD_BUFFER_SIZE) = newline <;> simp [hc]
  | succ k ih =>
    obtain ⟨n, rfl⟩ : ∃ m, n = m + 1 := ⟨n - 1, by omega⟩
    unfold scanNewline
    rw [window_cons, List.findIdx?_cons]
    by_cases hc : key (p % KEYBOARD_BUFFER_SIZE) = newline
    · simp [hc]
    · have hne : p % KEYBOARD_BUFFER_SIZE ≠ (p + (k + 1)) % KEYBOARD_BUFFER_SIZE := by
        intro h
        have := cell_inj (i := 0) size_pos hk h
        omega
      have ih := ih (by omega) n (p + 1) (by omega)
      rw [show p + (k + 1) = p + 1 + k by omega] at hne ⊢
      rw [if_neg hc, if_neg hne]
      simp only [next_mod]
      rw [ih]
      simp only [next, window_start_mod]
      cases (window KEYBOARD_BUFFER_SIZE key (p + 1) k).findIdx? (· = newline) with
      | none => simp [hc]
      | some j => simp [hc, Nat.add_assoc, Nat.add_comm 1]

def newlineAfter (kb : KeyBuf) (startPtr : Nat) (rest : List (List Byte)) : Option Nat :=
  match rest with
  | [] => if kb.keyBuf kb.endPtr = newline then some kb.endPtr else none
  | l :: _ => some ((startPtr + l.length) % KEYBOARD_BUFFER_SIZE)

section
variable {l : List Byte} {ls : List (List Byte)}

theorem content_split (hq : q.lines = l :: ls) :
    q.content = l ++ newline :: LineQueue.content ⟨ls, q.edit⟩ := by
  rw [← LineQueue.content_cons, ← hq]

theorem length_split (hq : q.lines = l :: ls) :
    q.content.length = l.length + 1 + (LineQueue.content ⟨ls, q.edit⟩).length := by
  rw [content_split hq, List.length_append, List.length_cons]
  omega

theorem Holds.window_rest (h : Holds kb q) (hq : q.lines = l :: ls) :
    window KEYBOARD_BUFFER_SIZE kb.keyBuf (kb.startPtr + (l.length + 1)) (LineQueue.content ⟨ls, q.edit⟩).length =
      LineQueue.content ⟨ls, q.edit⟩ := by
  have hw := h.window_eq
  rw [length_split hq, window_append, content_split hq, List.append_cons, window_start_mod] at hw
  exact (List.append_inj hw (by simp)).2

theorem Holds.window_line (h : Holds kb q) (hq : q.lines = l :: ls) (n : Nat) :
    window KEYBOARD_BUFFER_SIZE kb.keyBuf kb.startPtr (min n l.length) = l.take n := by
  have hw : (window KEYBOARD_BUFFER_SIZE kb.keyBuf kb.startPtr q.content.length).take l.length = l := by
    rw [h.window_eq, content_split hq]
    simp
  rw [take_window, length_split hq, Nat.min_eq_left (by omega)] at hw
  rw [← take_window, hw]

theorem Holds.scan_rest (h : Holds kb q) (hq : q.lines = l :: ls) :
    kb.updateNewlinePtr ((kb.startPtr + l.length) % KEYBOARD_BUFFER_SIZE) =
      some (kb.newlineAfter ((kb.startPtr + (l.length + 1)) % KEYBOARD_BUFFER_SIZE) ls) := by
  have hlen := length_split hq
  have hlt := h.length_lt
  have hend : kb.endPtr = (kb.startPtr + (l.length + 1) + (LineQueue.content ⟨ls, q.edit⟩).length) %
      KEYBOARD_BUFFER_SIZE := by
    rw [h.end_eq, hlen, Nat.add_assoc kb.startPtr]
  have hclean : ∀ x ∈ ls, newline ∉ x := fun x hx => h.clean x (by simp [hq, hx])
  unfold updateNewlinePtr
  rw [next_mod, Nat.add_assoc, hend, scanNewline_eq _ (by omega) _ _ (by omega), h.window_rest hq,
    @LineQueue.findIdx_content ⟨ls, q.edit⟩ hclean h.edit_clean, ← hend]
  cases ls with
  | nil => simp [newlineAfter]
  | cons x xs => simp [newlineAfter]

theorem Holds.getNextline_eq (h : Holds kb q) (hq : q.lines = l :: ls) {buf : Word} (hb : buf ≠ 0#32) {len : Nat}
    (hlen : len < KEYBOARD_BUFFER_SIZE) :
    kb.getNextline buf len = some ((min (len : Int) l.length, l.take len), { kb with
      startPtr := (kb.startPtr + (l.length + 1)) % KEYBOARD_BUFFER_SIZE,
      newlinePtr := kb.newlineAfter ((kb.startPtr + (l.length + 1)) % KEYBOARD_BUFFER_SIZE) ls }) := by
  have hm : l.length < KEYBOARD_BUFFER_SIZE := by
    have := length_split hq
    have := h.length_lt
    omega
  have hnl : kb.newlinePtr = some ((kb.startPtr + l.length) % KEYBOARD_BUFFER_SIZE) := by simp [h.newline_eq, hq]
  have hcopy := copyLine_eq kb.keyBuf kb.startPtr hm len 0 (Nat.zero_le _)
  have hupd := updateStartPtr_eq kb.startPtr hm KEYBOARD_BUFFER_SIZE (0 + min len (l.length - 0)) (by omega)
    (by omega)
  rw [h.start_eq, Nat.add_zero, Nat.sub_zero, h.window_line hq] at hcopy
  rw [Nat.sub_zero] at hupd
  unfold getNextline
  rw [if_neg (by simp only [not_or, ge_iff_le, Int.not_le]; exact ⟨hb, by exact_mod_cast hlen⟩), hnl]
  simp only [Int.toNat_natCast, hcopy, hupd, h.scan_rest hq, Option.bind_eq_bind, Option.bind_some]
  simp

theorem Holds.line (h : Holds kb q) (hq : q.lines = l :: ls) (hok : ls = [] → kb.keyBuf kb.endPtr ≠ newline) :
    Holds { kb with
      startPtr := (kb.startPtr + (l.length + 1)) % KEYBOARD_BUFFER_SIZE,
      newlinePtr := kb.newlineAfter ((kb.startPtr + (l.length + 1)) % KEYBOARD_BUFFER_SIZE) ls } ⟨ls, q.edit⟩ := by
  have hlen := length_split hq
  refine ⟨Nat.mod_lt _ size_pos, ?_, ?_, ?_, ?_, fun x hx => h.clean x (by simp [hq, hx]), h.edit_clean⟩
  · have := h.length_lt
    omega
  · rw [Nat.mod_add_mod, h.end_eq, hlen, Nat.add_assoc kb.startPtr]
  · rw [window_start_mod, h.window_rest hq]
  · cases ls with
    | nil => simp [newlineAfter, hok rfl]
    | cons x xs => simp [newlineAfter]

end

/-! ## Runs of the driver -/

inductive Op where
  | key (c : Byte)
  | line (len : Nat)

/-- A step of the driver next to the same step of the queue, where `ok` allows
the operation. -/
inductive Step (ok : Op → KeyBuf × LineQueue → Prop) : KeyBuf × LineQueue → KeyBuf × LineQueue → Prop
  | key {x : KeyBuf × LineQueue} (c : Byte) : ok (.key c) x → Step ok x ((x.1.addKeystroke c).1, x.2.key c)
  | line {x : KeyBuf × LineQueue} {buf : Word} {len : Nat} {r : Int × List Byte} {kb : KeyBuf} :
    ok (.line len) x → buf ≠ 0#32 → 1 ≤ len → len < KEYBOARD_BUFFER_SIZE → x.1.getNextline buf len = some (r, kb) →
    Step ok x (kb, (x.2.line len).2)

/-- A backspace finds a character of its own line, and the last completed line
is not taken while the cell at `end_ptr` holds a newline. -/
def Allowed : Op → KeyBuf × LineQueue → Prop
  | .key c, x => c = backspace → ¬ x.2.full → x.2.lines ≠ [] → x.2.edit ≠ []
  | .line _, x => x.2.lines.length = 1 → x.1.keyBuf x.1.endPtr ≠ newline

abbrev Reached : KeyBuf × LineQueue → Prop := Reach (· = (init, .empty)) (Step Allowed)

structure Implements (kb : KeyBuf) (q : LineQueue) : Prop where
  contents : kb.contents = q.content
  none_iff : kb.newlinePtr = none ↔ q.lines = []
  first : kb.newlinePtr =
    (kb.contents.findIdx? (· = newline)).map fun i => (kb.startPtr + i) % KEYBOARD_BUFFER_SIZE
  line : ∀ (buf : Word) (len : Nat), buf ≠ 0#32 → 1 ≤ len → len < KEYBOARD_BUFFER_SIZE →
    (kb.getNextline buf len).map Prod.fst = some (q.line len).1

theorem getNextline_none (hn : kb.newlinePtr = none) {buf : Word} (hb : buf ≠ 0#32) {len : Nat}
    (hlen : len < KEYBOARD_BUFFER_SIZE) : kb.getNextline buf len = some ((ERR_NOTAVAIL, []), kb) := by
  unfold getNextline
  rw [if_neg (by simp only [not_or, ge_iff_le, Int.not_le]; exact ⟨hb, by exact_mod_cast hlen⟩), hn]

theorem Holds.implements (h : Holds kb q) : Implements kb q := by
  refine ⟨h.contents_eq, h.newline_none_iff, h.newline_first, fun buf len hb _ hlen => ?_⟩
  unfold LineQueue.line
  cases hq : q.lines with
  | nil => rw [getNextline_none (h.newline_none_iff.mpr hq) hb hlen, Option.map_some]
  | cons l ls => rw [h.getNextline_eq hq hb hlen, Option.map_some]

theorem Holds.taken (h : Holds kb q) {buf : Word} (hb : buf ≠ 0#32) {len : Nat} (hlen : len < KEYBOARD_BUFFER_SIZE)
    {r : Int × List Byte} {kb' : KeyBuf} (hs : kb.getNextline buf len = some (r, kb')) :
    (q.lines = [] ∧ kb' = kb ∧ (q.line len).2 = q) ∨
      ∃ l ls, q.lines = l :: ls ∧ (q.line len).2 = ⟨ls, q.edit⟩ ∧ kb' = { kb with
        startPtr := (kb.startPtr + (l.length + 1)) % KEYBOARD_BUFFER_SIZE,
        newlinePtr := kb.newlineAfter ((kb.startPtr + (l.length + 1)) % KEYBOARD_BUFFER_SIZE) ls } := by
  cases hq : q.lines with
  | nil =>
    rw [getNextline_none (h.newline_none_iff.mpr hq) hb hlen] at hs
    cases hs
    exact .inl ⟨rfl, rfl, by simp [LineQueue.line, hq]⟩
  | cons l ls =>
    rw [h.getNextline_eq hq hb hlen] at hs
    cases hs
    exact .inr ⟨l, ls, rfl, by simp [LineQueue.line, hq], rfl⟩

theorem Holds.step {x y : KeyBuf × LineQueue} (h : Holds x.1 x.2) (hs : Step Allowed x y) : Holds y.1 y.2 := by
  cases hs with
  | key c hok => exact h.key hok
  | line hok hb _ hlen hs =>
    rcases h.taken hb hlen hs with ⟨-, he, hq⟩ | ⟨l, ls, hq, hq', he⟩
    · simpa only [he, hq] using h
    · simp only [he, hq']
      exact h.line hq fun hls => hok (by simp [hq, hls])

theorem Holds.of_reached {x : KeyBuf × LineQueue} (h : Reached x) : Holds x.1 x.2 :=
  h.invariant (P := fun x => Holds x.1 x.2) (by rintro _ rfl; exact holds_init) fun _ _ h hs => h.step hs

theorem Holds.not_implements_delete (h : Holds kb q) (hf : ¬ q.full) (hq : q.lines ≠ []) (he : q.edit = []) :
    ¬ Implements (addKeystroke backspace kb).1 (q.key backspace) := by
  intro hi
  obtain ⟨l, ls, hl⟩ := List.exists_cons_of_ne_nil hq
  have hlen : 0 < q.content.length := by
    rw [length_split hl]
    omega
  have hkey : q.key backspace = q := by
    have hb : backspace ≠ newline := by decide
    rw [LineQueue.key, if_neg hf, if_neg hb, if_pos rfl]
    exact congrArg (LineQueue.mk q.lines) (by simp [he])
  have hc := congrArg List.length hi.contents
  rw [hkey, h.deleted hf (List.length_pos_iff.mp hlen), KeyBuf.contents, length_window, pending, Nat.mod_add_mod,
    show kb.startPtr + (q.content.length - 1) + (KEYBOARD_BUFFER_SIZE - kb.startPtr) =
      q.content.length - 1 + KEYBOARD_BUFFER_SIZE by have := h.start_lt; omega, Nat.add_mod_right,
    Nat.mod_eq_of_lt (by have := h.length_lt; omega)] at hc
  omega

theorem Holds.not_implements_stale {l : List Byte} {n : Nat} (hc : kb.keyBuf kb.endPtr = newline) :
    ¬ Implements { kb with startPtr := n, newlinePtr := kb.newlineAfter n [] } ⟨[], l⟩ := by
  intro hi
  have := hi.none_iff.mpr rfl
  simp [newlineAfter, hc] at this

/-- In every run whose operations are allowed the buffer implements the line
queue, and the first operation that is not allowed ends this. -/
theorem keyboard_implements_lines {x : KeyBuf × LineQueue} (h : Reached x) : Implements x.1 x.2 ∧
    ∀ y, Step (fun op x => ¬ Allowed op x) x y → ¬ Implements y.1 y.2 := by
  have h := Holds.of_reached h
  refine ⟨h.implements, fun y hs => ?_⟩
  cases hs with
  | key c hok =>
    simp only [Allowed, Classical.not_imp, not_not] at hok
    obtain ⟨rfl, hf, hq, he⟩ := hok
    exact h.not_implements_delete hf hq he
  | line hok hb _ hlen hs =>
    simp only [Allowed, Classical.not_imp, not_not] at hok
    obtain ⟨hone, hc⟩ := hok
    rcases h.taken hb hlen hs with ⟨hq, -, -⟩ | ⟨l, ls, hq, hq', he⟩
    · simp [hq] at hone
    · have hls : ls = [] := by simpa [hq] using hone
      subst hls
      simp only [he, hq']
      exact Holds.not_implements_stale hc

end

/-! ## Concrete runs -/

def typed (cs : List Byte) : KeyBuf × LineQueue :=
  (cs.foldl (fun kb c => (addKeystroke c kb).1) init, cs.foldl (fun q c => q.key c) .empty)

theorem reached_typed {ok : Op → KeyBuf × LineQueue → Prop} {cs : List Byte}
    (h : ∀ as c bs, cs = as ++ c :: bs → ok (.key c) (typed as)) : Reach (· = (init, .empty)) (Step ok) (typed cs) := by
  induction cs using List.reverseRecOn with
  | nil => exact .start rfl
  | append_singleton cs c ih =>
    have hlast := Step.key c (h cs c [] rfl)
    have hcs := ih fun as d bs he => h as d (bs ++ [c]) (by simp [he])
    simpa [typed] using hcs.tail hlast

theorem keyboard_implements_lines_typed : Implements (typed [97#8, newline, 98#8]).1 ⟨[[97#8]], [98#8]⟩ := by
  have hr : Reached (typed [97#8, newline, 98#8]) := by
    refine reached_typed fun as c bs he hc => ?_
    have hm : backspace ∈ [97#8, newline, 98#8] := hc ▸ he ▸ by simp
    exact absurd hm (by decide)
  exact (keyboard_implements_lines hr).1

theorem newline_typed {kb : KeyBuf} {n : Nat} (hr : Reached (kb, .empty)) (hs : kb.startPtr = n)
    (hk : ∀ i, kb.keyBuf i = newline ↔ i < n) :
    ∃ kb' : KeyBuf, Reached (kb', ⟨[[]], []⟩) ∧ kb'.startPtr = n ∧ kb'.endPtr = next KEYBOARD_BUFFER_SIZE n ∧
      ∀ i, kb'.keyBuf i = newline ↔ i < n + 1 := by
  have h : Holds kb .empty := Holds.of_reached hr
  have hf : ¬ LineQueue.full .empty := by decide
  have hend : kb.endPtr = n := by
    rw [h.end_eq_start_iff.mpr rfl, hs]
  have hadd : (addKeystroke newline kb).1 = { kb with
      keyBuf := Function.update kb.keyBuf n newline, endPtr := next KEYBOARD_BUFFER_SIZE n, newlinePtr := some n } := by
    have hb : newline ≠ backspace := by decide
    have hnone : kb.newlinePtr = none := h.newline_none_iff.mpr rfl
    rw [addKeystroke, if_neg (mt h.full_iff.mp hf)]
    simp [hb, hnone, hend]
  refine ⟨_, hr.tail (.key newline fun hb => absurd hb (by decide)), ?_⟩
  rw [hadd]
  refine ⟨hs, rfl, fun i => ?_⟩
  by_cases hi : i = n
  · simp [hi]
  · simp only [Function.update_of_ne hi, hk]
    omega

theorem newline_rounds (n : Nat) (hn : n < KEYBOARD_BUFFER_SIZE) :
    ∃ kb : KeyBuf, Reached (kb, .empty) ∧ kb.startPtr = n ∧ ∀ i, kb.keyBuf i = newline ↔ i < n := by
  induction n with
  | zero => exact ⟨init, .start rfl, rfl, fun i => by simp [init, newline]⟩
  | succ n ih =>
    obtain ⟨kb, hr, hs, hk⟩ := ih (by omega)
    obtain ⟨kb₁, hr₁, hs₁, he₁, hk₁⟩ := newline_typed hr hs hk
    have hnext : next KEYBOARD_BUFFER_SIZE n = n + 1 := Nat.mod_eq_of_lt hn
    have hline := (Holds.of_reached hr₁).getNextline_eq rfl (show 1#32 ≠ 0#32 by decide)
      (show 1 < KEYBOARD_BUFFER_SIZE by decide)
    have hok : Allowed (.line 1) (kb₁, ⟨[[]], []⟩) := by
      intro _ hc
      rw [hk₁, he₁, hnext] at hc
      omega
    refine ⟨_, hr₁.tail (.line hok (by decide) (by decide) (by decide) hline), ?_, hk₁⟩
    simpa [hs₁] using Nat.mod_eq_of_lt hn

/-- A backspace over a newline leaves `newline_ptr` outside of the window; and
after a round of the ring an old newline is taken for a line. -/
theorem keyboard_loses_lines :
    (Reach (· = (init, .empty)) (Step fun _ _ => True) (typed [97#8, newline, backspace]) ∧
      (typed [97#8, newline, backspace]).1.contents = [97#8] ∧
      (typed [97#8, newline, backspace]).1.newlinePtr = some 1 ∧
      (typed [97#8, newline, backspace]).2.lines = [[97#8]]) ∧
    ∃ kb : KeyBuf, Reached (kb, ⟨[[]], []⟩) ∧ ∃ kb', kb.getNextline 1#32 1 = some ((0, []), kb') ∧
      kb'.pending = 0 ∧ kb'.newlinePtr = some 0 := by
  refine ⟨⟨reached_typed fun _ _ _ _ => trivial, by decide +kernel, by decide +kernel, by decide +kernel⟩, ?_⟩
  obtain ⟨kb, hr, hs, hk⟩ := newline_rounds (KEYBOARD_BUFFER_SIZE - 1) (by decide)
  obtain ⟨kb₁, hr₁, hs₁, he₁, hk₁⟩ := newline_typed hr hs hk
  have hend : kb₁.endPtr = 0 := he₁
  have hline := (Holds.of_reached hr₁).getNextline_eq rfl (show 1#32 ≠ 0#32 by decide)
    (show 1 < KEYBOARD_BUFFER_SIZE by decide)
  refine ⟨kb₁, hr₁, _, hline, ?_, ?_⟩
  · simp only [pending, hs₁, hend]
    decide
  · simp only [newlineAfter, hend, (hk₁ 0).mpr (by decide), if_true]

end KeyBuf

end Pebbles
