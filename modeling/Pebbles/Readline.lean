import Pebbles.KeyboardSound

/-!
# Readers and the keyboard

The threads in `readline_handler_c` and `getchar_handler_c`, and the interrupts
that put keys into the buffer and signal `readline_cond_var` at a newline. The
interrupt does not take `readline_mutex`: a newline that comes after a reader has
found no line and before it is on the waiting list wakes nobody.
-/

namespace Pebbles

open Words Runs

inductive Request where
  | line (buf : Word) (len : Nat)
  | char
  deriving DecidableEq

/-- Where a thread is in its handler. `signalled`: it was woken in this call and
has not tested the buffer since. -/
inductive ReaderAt where
  | out
  /-- At `mutex_lock`, on entry or at the end of `cond_wait`. -/
  | lock (signalled : Bool) (req : Request)
  | test (signalled : Bool) (req : Request)
  /-- In `cond_wait`, not yet on the waiting list. -/
  | link (req : Request)
  /-- On the waiting list and still running. -/
  | linked (req : Request)
  | asleep (req : Request)
  | unlock
  deriving DecidableEq

/-- `signalling`: the interrupt handler has yet to call `cond_signal`. The queue of
lines is what the keys and the readers have made of it. -/
structure Readers where
  keys : KeyBuf
  lines : LineQueue
  waiting : List Word
  locked : Bool
  signalling : Bool
  pc : Word → ReaderAt

namespace Readers

def read (keys : KeyBuf) : Request → Option (Int × KeyBuf)
  | .line buf len => (keys.getNextline buf len).map fun r => (r.1.1, r.2)
  | .char => some keys.getNextchar

def linesLeft (lines : LineQueue) : Request → LineQueue
  | .line _ len => if len < KEYBOARD_BUFFER_SIZE then (lines.line len).2 else lines
  | .char => lines

def goto (thr : Word) (pos : ReaderAt) (x : Readers) : Readers := { x with pc := Function.update x.pc thr pos }

inductive Act where
  | key (c : Byte)
  | test (req : Request)

/-- The steps of the interrupt handler and of the readers; keys and tests of the
buffer are taken where `ok` allows them. A test is one step. -/
inductive Step (ok : Act → Readers → Prop) : Readers → Readers → Prop
  | key {x c} : x.signalling = false → ok (.key c) x →
    Step ok x { x with
      keys := (x.keys.addKeystroke c).1
      lines := x.lines.key c
      signalling := c = newline }
  | signal {x} : x.signalling = true → Step ok x { x with waiting := x.waiting.tail, signalling := false }
  | call {x thr req} : x.pc thr = .out → (∀ buf len, req = .line buf len → buf ≠ 0#32 ∧ 1 ≤ len) →
    Step ok x (x.goto thr (.lock false req))
  | acquire {x thr s req} : x.pc thr = .lock s req → x.locked = false →
    Step ok x ({ x with locked := true }.goto thr (.test s req))
  | test {x thr s req r keys} : x.pc thr = .test s req → read x.keys req = some (r, keys) → ok (.test req) x →
    Step ok x ({ x with keys := keys, lines := linesLeft x.lines req }.goto thr
      (if r = ERR_NOTAVAIL then .link req else .unlock))
  | link {x thr req} : x.pc thr = .link req →
    Step ok x ({ x with waiting := x.waiting ++ [thr] }.goto thr (.linked req))
  | release {x thr req} : x.pc thr = .linked req → Step ok x ({ x with locked := false }.goto thr (.asleep req))
  | wake {x thr req} : x.pc thr = .asleep req → thr ∉ x.waiting → Step ok x (x.goto thr (.lock true req))
  | unlock {x thr} : x.pc thr = .unlock → Step ok x ({ x with locked := false }.goto thr .out)

def init : Readers := ⟨.init, .empty, [], false, false, fun _ => .out⟩

def Pending (x : Readers) (thr : Word) : Prop :=
  match x.pc thr with
  | .lock _ _ | .test _ _ => True
  | .linked _ | .asleep _ => thr ∉ x.waiting
  | _ => False

/-- A reader sleeps on a complete line, and nobody is on the way to take it. -/
def Stranded (x : Readers) : Prop :=
  x.waiting ≠ [] ∧ x.keys.newlinePtr ≠ none ∧ x.signalling = false ∧ ∀ thr, ¬ x.Pending thr

/-- The buffer keeps its lines, no newline comes while a reader that has found no
line is not yet on the waiting list, and `getchar` finds no line. -/
def Careful : Act → Readers → Prop
  | .key c, x => KeyBuf.Allowed (.key c) (x.keys, x.lines) ∧ (c = newline → ∀ thr req, x.pc thr ≠ .link req)
  | .test (.line _ len), x => KeyBuf.Allowed (.line len) (x.keys, x.lines)
  | .test .char, x => x.keys.newlinePtr = none

end Readers

def Request.Fits : Request → Prop
  | .line buf len => buf ≠ 0#32 ∧ len < KEYBOARD_BUFFER_SIZE
  | .char => True

def Request.NonNull : Request → Prop
  | .line buf _ => buf ≠ 0#32
  | .char => True

namespace ReaderAt

def Signalled (onList : Prop) : ReaderAt → Prop
  | .lock s _ | .test s _ => s = true
  | .linked _ | .asleep _ => ¬ onList
  | _ => False

def Fits : ReaderAt → Prop
  | .lock s req | .test s req => req.NonNull ∧ (s = true → req.Fits)
  | .link req | .linked req | .asleep req => req.Fits
  | _ => True

def Slept : ReaderAt → Prop
  | .linked _ | .asleep _ => True
  | _ => False

end ReaderAt

theorem Request.Fits.nonNull {req : Request} (h : req.Fits) : req.NonNull := by
  cases req with
  | line buf len => exact h.1
  | char => trivial

namespace Readers

open Classical in
noncomputable def signalled (pc : Word → ReaderAt) (waiting : List Word) : Finset Word :=
  Finset.univ.filter fun thr => (pc thr).Signalled (thr ∈ waiting)

structure Inv (x : Readers) : Prop where
  holds : KeyBuf.Holds x.keys x.lines
  fits : ∀ thr, (x.pc thr).Fits
  link : ∀ {thr req}, x.pc thr = .link req → x.lines.lines = []
  slept : ∀ {thr}, thr ∈ x.waiting → (x.pc thr).Slept
  nodup : x.waiting.Nodup
  count : x.waiting ≠ [] → x.lines.lines.length ≤ (signalled x.pc x.waiting).card + if x.signalling then 1 else 0

section
variable {x y : Readers} {thr : Word} {pos : ReaderAt} {req : Request}

theorem mem_signalled {pc : Word → ReaderAt} {waiting : List Word} :
    thr ∈ signalled pc waiting ↔ (pc thr).Signalled (thr ∈ waiting) := by
  simp [signalled]

theorem goto_pc (t : Word) : (x.goto thr pos).pc t = if t = thr then pos else x.pc t := by
  simp [goto, Function.update_apply]

theorem goto_fits (h : ∀ t, (x.pc t).Fits) (hpos : pos.Fits) (t : Word) : ((x.goto thr pos).pc t).Fits := by
  rw [goto_pc]
  split
  · exact hpos
  · exact h t

/-! ## Steps of one reader -/

theorem Inv.goto (h : Inv x) (locked : Bool) (hfits : pos.Fits) (hlink : ∀ req, pos ≠ .link req)
    (hslept : (x.pc thr).Slept → pos.Slept ∨ thr ∉ x.waiting)
    (hsig : (x.pc thr).Signalled (thr ∈ x.waiting) → pos.Signalled (thr ∈ x.waiting)) :
    Inv ({ x with locked := locked }.goto thr pos) := by
  refine ⟨h.holds, goto_fits h.fits hfits, fun {t req} ht => ?_, fun {t} ht => ?_, h.nodup, fun hw => ?_⟩
  · rw [goto_pc] at ht
    split at ht
    · exact absurd ht (hlink req)
    · exact h.link ht
  · rw [goto_pc]
    split
    · rename_i e
      subst e
      exact (hslept (h.slept ht)).resolve_right fun hn => hn ht
    · exact h.slept ht
  · refine (h.count hw).trans (Nat.add_le_add_right (Finset.card_le_card fun t ht => ?_) _)
    rw [mem_signalled] at ht ⊢
    rw [goto_pc]
    split
    · rename_i e
      subst e
      exact hsig ht
    · exact ht

theorem Inv.link_step (h : Inv x) (hpc : x.pc thr = .link req) :
    Inv ({ x with waiting := x.waiting ++ [thr] }.goto thr (.linked req)) := by
  have hfits := h.fits thr
  rw [hpc] at hfits
  have hnew : thr ∉ x.waiting := fun hm => by
    have := h.slept hm
    rw [hpc] at this
    exact this
  refine ⟨h.holds, goto_fits h.fits hfits, fun {t r} ht => ?_, fun {t} ht => ?_, ?_, fun _ => ?_⟩
  · rw [goto_pc] at ht
    split at ht
    · cases ht
    · exact h.link ht
  · rw [goto_pc]
    split
    · trivial
    · rename_i hne
      exact h.slept ((List.mem_append.mp ht).resolve_right fun e => hne (List.mem_singleton.mp e))
  · exact h.nodup.append (List.nodup_singleton thr) (List.disjoint_singleton.mpr hnew)
  · show x.lines.lines.length ≤ _
    simp [h.link hpc]

theorem Inv.read_cases (h : Inv x) {s : Bool} {r : Int} {keys : KeyBuf} (hpc : x.pc thr = .test s req)
    (hr : read x.keys req = some (r, keys)) (hok : Careful (.test req) x) :
    (r = ERR_NOTAVAIL ∧ req.Fits ∧ x.lines.lines = [] ∧ keys = x.keys ∧ linesLeft x.lines req = x.lines) ∨
    (r ≠ ERR_NOTAVAIL ∧ s = false ∧ keys = x.keys ∧ linesLeft x.lines req = x.lines) ∨
    (r ≠ ERR_NOTAVAIL ∧ KeyBuf.Holds keys (linesLeft x.lines req) ∧
      x.lines.lines.length = (linesLeft x.lines req).lines.length + 1) := by
  have hfits := h.fits thr
  rw [hpc] at hfits
  cases req with
  | char =>
    have hn : x.keys.newlinePtr = none := hok
    simp only [read, KeyBuf.getNextchar, hn, Option.some.injEq, Prod.mk.injEq] at hr
    exact .inl ⟨hr.1.symm, trivial, h.holds.newline_none_iff.mp hn, hr.2.symm, rfl⟩
  | line buf len =>
    have hb : buf ≠ 0#32 := hfits.1
    obtain ⟨⟨⟨r', cs⟩, kb⟩, hg, he⟩ := Option.map_eq_some_iff.mp hr
    cases he
    by_cases hlen : len < KEYBOARD_BUFFER_SIZE
    · have hleft : linesLeft x.lines (.line buf len) = (x.lines.line len).2 := if_pos hlen
      rw [hleft]
      cases hl : x.lines.lines with
      | nil =>
        rw [KeyBuf.getNextline_none (h.holds.newline_none_iff.mpr hl) hb hlen] at hg
        cases hg
        exact .inl ⟨rfl, ⟨hb, hlen⟩, rfl, rfl, by simp [LineQueue.line, hl]⟩
      | cons l ls =>
        rw [h.holds.getNextline_eq hl hb hlen] at hg
        cases hg
        have hq : (x.lines.line len).2 = ⟨ls, x.lines.edit⟩ := by simp [LineQueue.line, hl]
        refine .inr (.inr ⟨?_, ?_, ?_⟩)
        · show min (len : Int) l.length ≠ -5
          omega
        · rw [hq]
          exact h.holds.line hl fun e => hok (by simp [hl, e])
        · simp [hq]
    · have hs : s = false := by
        cases s with
        | false => rfl
        | true => exact absurd (hfits.2 rfl).2 hlen
      have hinv : x.keys.getNextline buf len = some ((ERR_INVAL, []), x.keys) :=
        if_pos (.inr (by exact_mod_cast Nat.not_lt.mp hlen))
      rw [hinv] at hg
      cases hg
      exact .inr (.inl ⟨show ERR_INVAL ≠ ERR_NOTAVAIL by decide, hs, rfl, if_neg hlen⟩)

theorem Inv.test_step (h : Inv x) {s : Bool} {r : Int} {keys : KeyBuf} (hpc : x.pc thr = .test s req)
    (hr : read x.keys req = some (r, keys)) (hok : Careful (.test req) x) :
    Inv ({ x with keys := keys, lines := linesLeft x.lines req }.goto thr
      (if r = ERR_NOTAVAIL then .link req else .unlock)) := by
  have hslept : ¬ (x.pc thr).Slept := by rw [hpc]; exact id
  rcases h.read_cases hpc hr hok with ⟨hna, hfits, hl, rfl, hq⟩ | ⟨hna, rfl, rfl, hq⟩ | ⟨hna, hholds, hlen⟩
  · rw [if_pos hna, hq]
    refine ⟨h.holds, goto_fits h.fits hfits, fun _ => hl, fun {t} ht => ?_, h.nodup, fun _ => ?_⟩
    · rw [goto_pc]
      split
      · rename_i e
        exact absurd (h.slept (e ▸ ht)) hslept
      · exact h.slept ht
    · show x.lines.lines.length ≤ _
      simp [hl]
  · rw [if_neg hna, hq]
    refine h.goto x.locked trivial (fun _ => nofun) (fun hs => absurd hs hslept) fun hs => ?_
    rw [hpc] at hs
    cases hs
  · rw [if_neg hna]
    refine ⟨hholds, goto_fits h.fits trivial, fun {t req'} ht => ?_, fun {t} ht => ?_, h.nodup, fun hw => ?_⟩
    · rw [goto_pc] at ht
      split at ht
      · cases ht
      · have := h.link ht
        simp [this] at hlen
    · rw [goto_pc]
      split
      · rename_i e
        exact absurd (h.slept (e ▸ ht)) hslept
      · exact h.slept ht
    · have hsub : (signalled x.pc x.waiting).erase thr ⊆ signalled (Function.update x.pc thr .unlock) x.waiting := by
        intro t ht
        obtain ⟨hne, ht⟩ := Finset.mem_erase.mp ht
        rw [mem_signalled, Function.update_of_ne hne]
        exact mem_signalled.mp ht
      have hcard := Finset.card_le_card hsub
      have herase := Finset.pred_card_le_card_erase (s := (signalled x.pc x.waiting)) (a := thr)
      have hcount := h.count hw
      show (linesLeft x.lines req).lines.length ≤
        (signalled (Function.update x.pc thr .unlock) x.waiting).card + if x.signalling then 1 else 0
      omega

/-! ## Steps of the interrupt handler -/

theorem lines_key_of_ne {c : Byte} {q : LineQueue} (hc : c ≠ newline) : (q.key c).lines = q.lines := by
  unfold LineQueue.key
  split
  · rfl
  · split <;> rfl

theorem length_lines_key {c : Byte} {q : LineQueue} : (q.key c).lines.length ≤ q.lines.length + 1 := by
  unfold LineQueue.key
  split
  · exact Nat.le_succ _
  · split
    · simp
    · split <;> exact Nat.le_succ _

theorem Inv.key_step (h : Inv x) {c : Byte} (hs : x.signalling = false) (hok : Careful (.key c) x) :
    Inv { x with keys := (x.keys.addKeystroke c).1, lines := x.lines.key c, signalling := c = newline } := by
  refine ⟨h.holds.key hok.1, h.fits, fun {t req} ht => ?_, h.slept, h.nodup, fun hw => ?_⟩
  · by_cases hc : c = newline
    · exact absurd ht (hok.2 hc t req)
    · exact (lines_key_of_ne hc).trans (h.link ht)
  · have hcount := h.count hw
    rw [hs, if_neg Bool.false_ne_true] at hcount
    show (x.lines.key c).lines.length ≤ (signalled x.pc x.waiting).card + if decide (c = newline) = true then 1 else 0
    by_cases hc : c = newline
    · rw [if_pos (decide_eq_true hc)]
      have := length_lines_key (c := c) (q := x.lines)
      omega
    · rw [if_neg (by simpa using hc), lines_key_of_ne hc]
      omega

theorem Inv.signal_step (h : Inv x) (hs : x.signalling = true) :
    Inv { x with waiting := x.waiting.tail, signalling := false } := by
  refine ⟨h.holds, h.fits, h.link, fun ht => h.slept (List.mem_of_mem_tail ht), h.nodup.tail, fun hw => ?_⟩
  cases hl : x.waiting with
  | nil => simp [hl] at hw
  | cons w ws =>
    have hwmem : w ∈ x.waiting := by simp [hl]
    have hnd := h.nodup
    rw [hl] at hnd
    -- The first waiter joins those that were signalled.
    have hnew : w ∉ (signalled x.pc x.waiting) := by
      rw [mem_signalled]
      have := h.slept hwmem
      cases hp : x.pc w <;> simp_all [ReaderAt.Signalled, ReaderAt.Slept]
    have hsub : insert w (signalled x.pc x.waiting) ⊆ signalled x.pc ws := by
      intro t ht
      rw [mem_signalled]
      rcases Finset.mem_insert.mp ht with rfl | ht
      · have := h.slept hwmem
        cases hp : x.pc t <;> simp_all [ReaderAt.Signalled, ReaderAt.Slept]
      · have := mem_signalled.mp ht
        rw [hl] at this
        cases hp : x.pc t <;> simp_all [ReaderAt.Signalled]
    have hcard := Finset.card_le_card hsub
    rw [Finset.card_insert_of_notMem hnew] at hcard
    have hcount := h.count (List.ne_nil_of_mem hwmem)
    rw [hs, if_pos rfl] at hcount
    show x.lines.lines.length ≤ (signalled x.pc ws).card + 0
    omega

/-! ## Runs -/

theorem Inv.step (h : Inv x) (hs : Step Careful x y) : Inv y := by
  cases hs with
  | key hs hok => exact h.key_step hs hok
  | signal hs => exact h.signal_step hs
  | @call thr req hpc hreq =>
    refine h.goto x.locked ⟨?_, nofun⟩ (fun _ => nofun) (fun hs => ?_) fun hs => ?_
    · cases req with
      | line buf len => exact (hreq buf len rfl).1
      | char => trivial
    · rw [hpc] at hs
      exact hs.elim
    · rw [hpc] at hs
      exact hs.elim
  | @acquire thr s req hpc hl =>
    have hfits := h.fits thr
    rw [hpc] at hfits
    refine h.goto true hfits (fun _ => nofun) (fun hs => ?_) fun hs => ?_
    · rw [hpc] at hs
      exact hs.elim
    · rwa [hpc] at hs
  | test hpc hr hok => exact h.test_step hpc hr hok
  | link hpc => exact h.link_step hpc
  | @release thr req hpc =>
    have hfits := h.fits thr
    rw [hpc] at hfits
    refine h.goto false hfits (fun _ => nofun) (fun _ => .inl trivial) fun hs => ?_
    rwa [hpc] at hs
  | @wake thr req hpc hn =>
    have hfits := h.fits thr
    rw [hpc] at hfits
    exact h.goto x.locked ⟨hfits.nonNull, fun _ => hfits⟩ (fun _ => nofun) (fun _ => .inr hn) fun _ => rfl
  | @unlock thr hpc =>
    refine h.goto false trivial (fun _ => nofun) (fun hs => ?_) fun hs => ?_
    · rw [hpc] at hs
      exact hs.elim
    · rw [hpc] at hs
      exact hs.elim

theorem Inv.not_stranded (h : Inv x) : ¬ x.Stranded := by
  rintro ⟨hw, hn, hs, hp⟩
  have hcount := h.count hw
  rw [hs] at hcount
  have hlines : x.lines.lines ≠ [] := mt h.holds.newline_none_iff.mpr hn
  have hpos := List.length_pos_iff.mpr hlines
  obtain ⟨thr, ht⟩ := Finset.card_pos.mp (show 0 < (signalled x.pc x.waiting).card by simp only [Bool.false_eq_true, if_false] at hcount; omega)
  rw [mem_signalled] at ht
  refine hp thr ?_
  unfold Pending
  cases hpc : x.pc thr <;> simp_all [ReaderAt.Signalled]

end

def eighty : Request := .line 4#32 80

def tested : Readers := { init with locked := true }.goto 1#32 (.link eighty)

def typed : Readers :=
  { tested with
    keys := (KeyBuf.init.addKeystroke newline).1
    lines := LineQueue.empty.key newline
    signalling := true }

def asleep : Readers :=
  { { { typed with waiting := [1#32], signalling := false }.goto 1#32 (.linked eighty) with locked := false }.goto 1#32
      (.asleep eighty) with locked := false }

end Readers

end Pebbles
