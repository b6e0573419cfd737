import Pebbles.KeyboardSound

/-!
# The stream of keys

What readers get of the keys that were typed. A full buffer without a newline takes no
key at all, so nobody gets a line any more. `get_nextchar` moves `start_ptr` without a
wrap and leaves `newline_ptr`, so a stream is read rightly only as long as it stops
before a newline and before the last cell.
-/

namespace Pebbles

open Words Window Runs

namespace KeyBuf

/-! ## Lines that can still come -/

def strokes (cs : List Byte) (kb : KeyBuf) : KeyBuf := cs.foldl (fun kb c => (addKeystroke c kb).1) kb

def LineComes (kb : KeyBuf) : Prop := ∃ cs, (kb.strokes cs).newlinePtr ≠ none

inductive LineStep : KeyBuf → KeyBuf → Prop
  | key {kb} (c : Byte) : LineStep kb (addKeystroke c kb).1
  | line {kb kb' buf len r} : kb.getNextline buf len = some (r, kb') → LineStep kb kb'

section
variable {kb : KeyBuf}

theorem strokes_full (hf : next KEYBOARD_BUFFER_SIZE kb.endPtr = kb.startPtr) (cs : List Byte) :
    kb.strokes cs = kb := by
  induction cs with
  | nil => rfl
  | cons c cs ih =>
    have hc : (addKeystroke c kb).1 = kb := by rw [addKeystroke, if_pos hf]
    rw [strokes, List.foldl_cons, hc]
    exact ih

/-- Without a line, one can still come exactly where the buffer is not full. -/
theorem line_comes_iff (kb : KeyBuf) : (kb.newlinePtr = none → LineComes kb) ↔
    (kb.newlinePtr = none → next KEYBOARD_BUFFER_SIZE kb.endPtr ≠ kb.startPtr) := by
  refine forall_congr' fun hn => ⟨fun ⟨cs, hcs⟩ hf => ?_, fun hf => ⟨[newline], ?_⟩⟩
  · rw [strokes_full hf] at hcs
    exact hcs hn
  · have hb : newline ≠ backspace := by decide
    simp [strokes, addKeystroke, hf, hn, hb]

theorem strokes_letters (n : Nat) (hn : n < KEYBOARD_BUFFER_SIZE) :
    (init.strokes (List.replicate n 97#8)).startPtr = 0 ∧ (init.strokes (List.replicate n 97#8)).endPtr = n ∧
      (init.strokes (List.replicate n 97#8)).newlinePtr = none ∧
      Reach (· = init) LineStep (init.strokes (List.replicate n 97#8)) := by
  induction n with
  | zero => exact ⟨rfl, rfl, rfl, .start rfl⟩
  | succ n ih =>
    obtain ⟨hs, he, hl, hr⟩ := ih (by omega)
    have hlast : init.strokes (List.replicate (n + 1) 97#8) =
        (addKeystroke 97#8 (init.strokes (List.replicate n 97#8))).1 := by
      rw [List.replicate_succ']
      simp [strokes]
    have hnext : next KEYBOARD_BUFFER_SIZE n = n + 1 := Nat.mod_eq_of_lt hn
    have h₁ : (97#8 : Byte) ≠ newline := by decide
    have h₂ : (97#8 : Byte) ≠ backspace := by decide
    refine ⟨?_, ?_, ?_, hlast ▸ hr.tail (.key 97#8)⟩
    · simp [hlast, addKeystroke, hs, he, hnext, h₁, h₂]
    · simp [hlast, addKeystroke, hs, he, hnext, h₁, h₂]
    · simp [hlast, addKeystroke, hs, he, hl, hnext, h₁, h₂]

/-- After as many letters as the buffer takes no line comes any more. -/
theorem keyboard_stuck : ∃ kb, Reach (· = init) LineStep kb ∧ kb.newlinePtr = none ∧ ¬ LineComes kb := by
  obtain ⟨hs, he, hl, hr⟩ := strokes_letters (KEYBOARD_BUFFER_SIZE - 1) (by decide)
  refine ⟨_, hr, hl, fun ⟨cs, hcs⟩ => hcs ?_⟩
  rw [strokes_full _ cs]
  · exact hl
  · rw [hs, he]
    decide

end

/-! ## Two readers of one stream -/

structure KeyRun where
  keys : KeyBuf
  accepted : List Byte
  taken : List Byte
  left : List Byte

namespace KeyRun

def start : KeyRun := ⟨init, [], [], []⟩

def key (c : Byte) (x : KeyRun) : KeyRun :=
  if next KEYBOARD_BUFFER_SIZE x.keys.endPtr = x.keys.startPtr then { x with keys := (x.keys.addKeystroke c).1 }
  else { x with keys := (x.keys.addKeystroke c).1, accepted := x.accepted ++ [c], left := x.left ++ [c] }

def line (buf : Word) (len : Int) (x : KeyRun) : Option KeyRun :=
  (x.keys.getNextline buf len).map fun r =>
    if r.1.1 < 0 then { x with keys := r.2 }
    else { x with
      keys := r.2
      taken := x.taken ++ r.1.2
      left := (x.left.dropWhile (· ≠ newline)).tail }

def char (x : KeyRun) : KeyRun :=
  if x.keys.newlinePtr = none then { x with keys := x.keys.getNextchar.2 }
  else { x with
    keys := x.keys.getNextchar.2
    taken := x.taken ++ [x.keys.keyBuf x.keys.startPtr]
    left := x.left.tail }

inductive Call where
  | key
  | line
  | char

/-- Keys without backspaces and calls of the readers, where `ok` allows them. -/
inductive Step (ok : Call → KeyBuf → Prop) : KeyRun → KeyRun → Prop
  | key {x} (c : Byte) : ok .key x.keys → c ≠ backspace → Step ok x (x.key c)
  | line {x y buf len} : ok .line x.keys → x.line buf len = some y → Step ok x y
  | char {x} : ok .char x.keys → Step ok x x.char

/-- `get_nextchar` is not called at a newline nor at the last cell, and the last complete
line is not taken while the cell at `end_ptr` holds a newline. -/
def Careful : Call → KeyBuf → Prop
  | .key, _ => True
  | .line, kb => kb.contents.count newline = 1 → kb.keyBuf kb.endPtr ≠ newline
  | .char, kb => kb.newlinePtr ≠ some kb.startPtr ∧ kb.startPtr ≠ KEYBOARD_BUFFER_SIZE - 1

/-- The readers get the typed keys in order and none of them twice, and no character
when there is no newline ahead. -/
structure OneStream (x : KeyRun) : Prop where
  start_lt : x.keys.startPtr < KEYBOARD_BUFFER_SIZE
  end_lt : x.keys.endPtr < KEYBOARD_BUFFER_SIZE
  inOrder : x.taken.Sublist x.accepted
  notAvail : newline ∉ x.left → x.keys.getNextchar.1 = ERR_NOTAVAIL
  returns : ∀ buf len, x.keys.getNextline buf len ≠ none

structure Inv (x : KeyRun) (q : LineQueue) : Prop where
  holds : Holds x.keys q
  left : x.left = q.content
  taken : ∃ before, x.accepted = before ++ x.left ∧ x.taken.Sublist before

end KeyRun

section
variable {kb : KeyBuf} {q : LineQueue}

theorem Holds.char {c : Byte} {l : List Byte} {ls : List (List Byte)} (h : Holds kb q) (hq : q.lines = (c :: l) :: ls)
    (hs : kb.startPtr ≠ KEYBOARD_BUFFER_SIZE - 1) :
    kb.keyBuf kb.startPtr = c ∧ Holds { kb with startPtr := kb.startPtr + 1 } ⟨l :: ls, q.edit⟩ := by
  have hlt := h.start_lt
  have hc : q.content = c :: LineQueue.content ⟨l :: ls, q.edit⟩ := by simp [LineQueue.content, hq]
  have hlen : q.content.length = (LineQueue.content ⟨l :: ls, q.edit⟩).length + 1 := by rw [hc, List.length_cons]
  have hnext : next KEYBOARD_BUFFER_SIZE kb.startPtr = kb.startPtr + 1 := Nat.mod_eq_of_lt (by omega)
  have hw := h.window_eq
  rw [hlen, window_cons, hc, hnext, Nat.mod_eq_of_lt hlt] at hw
  obtain ⟨hfirst, hrest⟩ := List.cons_eq_cons.mp hw
  have hclean := h.clean (c :: l) (by simp [hq])
  refine ⟨hfirst, ⟨by dsimp only; omega, ?_, ?_, hrest, ?_, fun x hx => ?_, h.edit_clean⟩⟩
  · have := h.length_lt
    omega
  · dsimp only
    rw [h.end_eq, hlen]
    congr 1
    omega
  · have hn := h.newline_eq
    rw [hq] at hn
    simp only [List.head?_cons, Option.map_some, List.length_cons] at hn ⊢
    rw [hn]
    congr 2
    omega
  · cases List.mem_cons.mp hx with
    | inl e => exact fun hm => hclean (List.mem_cons_of_mem c (e ▸ hm))
    | inr hx => exact h.clean x (by simp [hq, hx])

theorem Holds.getNextline_cases (h : Holds kb q) (buf : Word) (len : Int) :
    (∃ n < 0, kb.getNextline buf len = some ((n, []), kb)) ∨
      ∃ l ls, q.lines = l :: ls ∧ kb.getNextline buf len = some
      ((min (len.toNat : Int) l.length, l.take len.toNat), { kb with
        startPtr := (kb.startPtr + (l.length + 1)) % KEYBOARD_BUFFER_SIZE,
        newlinePtr := kb.newlineAfter ((kb.startPtr + (l.length + 1)) % KEYBOARD_BUFFER_SIZE) ls }) := by
  by_cases hr : buf = 0#32 ∨ len ≥ KEYBOARD_BUFFER_SIZE
  · exact .inl ⟨ERR_INVAL, by decide, if_pos hr⟩
  · obtain ⟨hb, hlen⟩ := not_or.mp hr
    have hlt : len.toNat < KEYBOARD_BUFFER_SIZE := by
      have : KEYBOARD_BUFFER_SIZE = 2000 := rfl
      omega
    have hnat : kb.getNextline buf len = kb.getNextline buf len.toNat := by
      unfold getNextline
      rw [if_neg hr, if_neg (by rw [not_or]; exact ⟨hb, by omega⟩), Int.toNat_natCast]
    rw [hnat]
    cases hq : q.lines with
    | nil => exact .inl ⟨ERR_NOTAVAIL, by decide, getNextline_none (h.newline_none_iff.mpr hq) hb hlt⟩
    | cons l ls => exact .inr ⟨l, ls, rfl, h.getNextline_eq hq hb hlt⟩

end

namespace KeyRun

section
variable {x y : KeyRun} {q : LineQueue}

theorem Inv.oneStream (h : Inv x q) : OneStream x := by
  obtain ⟨before, ha, ht⟩ := h.taken
  refine ⟨h.holds.start_lt, ?_, ?_, fun hn => ?_, fun buf len => ?_⟩
  · rw [h.holds.end_eq]
    exact Nat.mod_lt _ size_pos
  · rw [ha]
    exact ht.trans (List.sublist_append_left before x.left)
  · have hlines : q.lines = [] := by
      cases hq : q.lines with
      | nil => rfl
      | cons l ls =>
        rw [h.left, content_split hq] at hn
        simp at hn
    unfold getNextchar
    rw [h.holds.newline_none_iff.mpr hlines]
  · rcases h.holds.getNextline_cases buf len with ⟨n, -, he⟩ | ⟨l, ls, -, he⟩
    · simp [he]
    · simp [he]

theorem Inv.key {c : Byte} (h : Inv x q) (hc : c ≠ backspace) : Inv (x.key c) (q.key c) := by
  obtain ⟨before, ha, ht⟩ := h.taken
  have hk := h.holds.key (c := c) fun e => absurd e hc
  unfold KeyRun.key
  by_cases hf : q.full
  · have hq : q.key c = q := by rw [LineQueue.key, if_pos hf]
    rw [if_pos (h.holds.full_iff.mpr hf)]
    exact ⟨hk, by rw [hq]; exact h.left, before, ha, ht⟩
  · have hq : (q.key c).content = q.content ++ [c] := by
      rw [LineQueue.key, if_neg hf, if_neg hc]
      split
      · rename_i e
        rw [LineQueue.content_complete, e]
      · exact LineQueue.content_type q c
    rw [if_neg (mt h.holds.full_iff.mp hf)]
    refine ⟨hk, by rw [hq, h.left], before, ?_, ht⟩
    rw [ha, List.append_assoc]

theorem Inv.char (h : Inv x q) (hok : Careful .char x.keys) : ∃ q', Inv x.char q' := by
  obtain ⟨before, ha, ht⟩ := h.taken
  obtain ⟨hne, hlast⟩ := hok
  unfold KeyRun.char
  cases hq : q.lines with
  | nil =>
    have hn := h.holds.newline_none_iff.mpr hq
    have hg : x.keys.getNextchar.2 = x.keys := by
      unfold getNextchar
      rw [hn]
    rw [if_pos hn, hg]
    exact ⟨q, h⟩
  | cons l ls =>
    have hn : x.keys.newlinePtr = some ((x.keys.startPtr + l.length) % KEYBOARD_BUFFER_SIZE) := by
      simp [h.holds.newline_eq, hq]
    have hg : x.keys.getNextchar.2 = { x.keys with startPtr := x.keys.startPtr + 1 } := by
      unfold getNextchar
      split
      · rename_i e
        simp [hn] at e
      · rfl
    rw [if_neg (by simp [hn]), hg]
    cases l with
    | nil =>
      rw [hn, List.length_nil, Nat.add_zero, Nat.mod_eq_of_lt h.holds.start_lt] at hne
      exact absurd rfl hne
    | cons c l =>
      obtain ⟨hc, hh⟩ := h.holds.char hq hlast
      have hleft : x.left = c :: LineQueue.content ⟨l :: ls, q.edit⟩ := by
        rw [h.left]
        simp [LineQueue.content, hq]
      refine ⟨_, hh, by rw [hleft, List.tail_cons], before ++ [c], ?_, ?_⟩
      · simp [ha, hleft]
      · rw [hc]
        exact ht.append_right [c]

theorem left_after_line {l rest : List Byte} (h : newline ∉ l) :
    ((l ++ newline :: rest).dropWhile (· ≠ newline)).tail = rest := by
  rw [List.dropWhile_append_of_pos fun c hc => by simpa using ne_of_mem_of_not_mem hc h]
  simp

theorem Inv.line {buf : Word} {len : Int} (h : Inv x q) (hok : Careful .line x.keys) (hs : x.line buf len = some y) :
    ∃ q', Inv y q' := by
  obtain ⟨before, ha, ht⟩ := h.taken
  unfold KeyRun.line at hs
  rcases h.holds.getNextline_cases buf len with ⟨n, hn, he⟩ | ⟨l, ls, hq, he⟩
  · rw [he, Option.map_some, if_pos hn] at hs
    cases hs
    exact ⟨q, h⟩
  · have hge : ¬ min (len.toNat : Int) l.length < 0 := by omega
    rw [he, Option.map_some, if_neg hge] at hs
    cases hs
    have hclean := h.holds.clean l (by simp [hq])
    have hcontent := content_split hq
    refine ⟨_, h.holds.line hq fun hls => hok ?_, ?_, before ++ (l ++ [newline]), ?_, ?_⟩
    · rw [h.holds.contents_eq, hcontent, hls, List.count_append, List.count_cons_self, LineQueue.content,
        List.count_eq_zero.mpr hclean]
      simpa using List.count_eq_zero.mpr h.holds.edit_clean
    · rw [h.left, hcontent]
      exact left_after_line hclean
    · rw [ha, h.left, hcontent, left_after_line hclean]
      simp
    · exact ht.append ((List.take_sublist _ l).trans (List.sublist_append_left l [newline]))

theorem Inv.step (h : Inv x q) (hs : Step Careful x y) : ∃ q', Inv y q' := by
  cases hs with
  | key c _ hc => exact ⟨_, h.key hc⟩
  | line hok hl => exact h.line hok hl
  | char hok => exact h.char hok

/-- In every run of careful calls the two readers consume one stream. -/
theorem readers_share_stream (h : Reach (· = start) (Step Careful) x) : OneStream x := by
  have hinv : ∃ q, Inv x q := by
    refine h.invariant (P := fun x => ∃ q, Inv x q) (fun x hx => ?_) fun x y ⟨q, hq⟩ hs => hq.step hs
    rw [hx]
    exact ⟨.empty, holds_init, rfl, [], rfl, List.Sublist.refl []⟩
  obtain ⟨q, hq⟩ := hinv
  exact hq.oneStream

end

theorem readers_share_stream_typed :
    ((start.key 97#8).key newline).char.taken = [97#8] ∧ OneStream ((start.key 97#8).key newline).char := by
  have h₀ : Reach (· = start) (Step Careful) start := .start rfl
  have h₁ := h₀.tail (Step.key 97#8 trivial (by decide))
  have h₂ := h₁.tail (Step.key newline trivial (by decide))
  have hchar : Careful .char ((start.key 97#8).key newline).keys := by
    unfold Careful
    decide +kernel
  exact ⟨by decide +kernel, readers_share_stream (h₂.tail (Step.char hchar))⟩

/-- A newline that `get_nextchar` has read still counts as a complete line. -/
theorem readers_pass_newline : ∃ x, Reach (· = start) (Step fun _ _ => True) x ∧ ¬ OneStream x := by
  have h₀ : Reach (· = start) (Step fun _ _ => True) start := .start rfl
  have h₁ := h₀.tail (Step.key newline trivial (by decide))
  refine ⟨_, h₁.tail (Step.char trivial), fun h => ?_⟩
  have hleft : newline ∉ (start.key newline).char.left := by decide +kernel
  exact absurd (h.notAvail hleft) (by decide +kernel)

end KeyRun

end KeyBuf

end Pebbles
