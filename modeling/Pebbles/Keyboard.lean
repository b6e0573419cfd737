import Pebbles.Page
import Pebbles.Lib.Window

/-!
# The keyboard buffer

`keyboard_circular_buffer.c`: keys are put into a ring of cells by the interrupt
handler and taken out by the line. A cell keeps its key when the key has been
read or deleted.
-/

namespace Pebbles

open Words Window

def ERR_NOTAVAIL : Int := -5
def KEYBOARD_BUFFER_SIZE : Nat := 2000

def newline : Byte := 10#8
def backspace : Byte := 8#8

/-- The static data of the driver; `newlinePtr` is `none` where it is -1. -/
structure KeyBuf where
  keyBuf : Nat → Byte
  startPtr : Nat
  endPtr : Nat
  newlinePtr : Option Nat

namespace KeyBuf

def init : KeyBuf := ⟨fun _ => 0#8, 0, 0, none⟩

/-- The second component is what is put on the console. -/
def addKeystroke (c : Byte) (kb : KeyBuf) : KeyBuf × List Byte :=
  if next KEYBOARD_BUFFER_SIZE kb.endPtr = kb.startPtr then (kb, [])
  else
    let kb := { kb with keyBuf := Function.update kb.keyBuf kb.endPtr c }
    let kb := if c = newline ∧ kb.newlinePtr = none then { kb with newlinePtr := some kb.endPtr } else kb
    if c = backspace then
      if kb.endPtr ≠ kb.startPtr then ({ kb with endPtr := prev KEYBOARD_BUFFER_SIZE kb.endPtr }, [c]) else (kb, [])
    else ({ kb with endPtr := next KEYBOARD_BUFFER_SIZE kb.endPtr }, [c])

def copyLine (keyBuf : Nat → Byte) (newlinePtr : Nat) : Nat → Nat → List Byte × Nat
  | 0, startPtr => ([], startPtr)
  | n + 1, startPtr =>
    if startPtr = newlinePtr then ([], startPtr)
    else
      let (cs, ptr) := copyLine keyBuf newlinePtr n (next KEYBOARD_BUFFER_SIZE startPtr)
      (keyBuf startPtr :: cs, ptr)

/-- `none`: the loop does not end. -/
def updateStartPtr (newlinePtr : Nat) : Nat → Nat → Option Nat
  | n, startPtr =>
    if startPtr = newlinePtr then some (next KEYBOARD_BUFFER_SIZE startPtr)
    else
      match n with
      | 0 => none
      | n + 1 => updateStartPtr newlinePtr n (next KEYBOARD_BUFFER_SIZE startPtr)

def scanNewline (keyBuf : Nat → Byte) (endPtr : Nat) : Nat → Nat → Option (Option Nat)
  | n, newlinePtr =>
    if keyBuf newlinePtr = newline then some (some newlinePtr)
    else if newlinePtr = endPtr then some none
    else
      match n with
      | 0 => none
      | n + 1 => scanNewline keyBuf endPtr n (next KEYBOARD_BUFFER_SIZE newlinePtr)

def updateNewlinePtr (newlinePtr : Nat) (kb : KeyBuf) : Option (Option Nat) :=
  scanNewline kb.keyBuf kb.endPtr KEYBOARD_BUFFER_SIZE (next KEYBOARD_BUFFER_SIZE newlinePtr)

/-- The result and the characters put into the buffer of the caller. -/
def getNextline (buf : Word) (len : Int) (kb : KeyBuf) : Option ((Int × List Byte) × KeyBuf) :=
  if buf = 0#32 ∨ len ≥ KEYBOARD_BUFFER_SIZE then some ((ERR_INVAL, []), kb)
  else
    match kb.newlinePtr with
    | none => some ((ERR_NOTAVAIL, []), kb)
    | some newlinePtr => do
      let (cs, startPtr) := copyLine kb.keyBuf newlinePtr len.toNat kb.startPtr
      let startPtr ← updateStartPtr newlinePtr KEYBOARD_BUFFER_SIZE startPtr
      let newlinePtr ← updateNewlinePtr newlinePtr kb
      return ((cs.length, cs), { kb with startPtr := startPtr, newlinePtr := newlinePtr })

/-- `get_nextchar` moves `start_ptr` without a wrap and leaves `newline_ptr`. -/
def getNextchar (kb : KeyBuf) : Int × KeyBuf :=
  match kb.newlinePtr with
  | none => (ERR_NOTAVAIL, kb)
  | some _ => ((kb.keyBuf kb.startPtr).toInt, { kb with startPtr := kb.startPtr + 1 })

def pending (kb : KeyBuf) : Nat := (kb.endPtr + (KEYBOARD_BUFFER_SIZE - kb.startPtr)) % KEYBOARD_BUFFER_SIZE

def contents (kb : KeyBuf) : List Byte := window KEYBOARD_BUFFER_SIZE kb.keyBuf kb.startPtr kb.pending

end KeyBuf

/-! ## The line queue -/

structure LineQueue where
  lines : List (List Byte)
  edit : List Byte

namespace LineQueue

def empty : LineQueue := ⟨[], []⟩

def content (q : LineQueue) : List Byte := q.lines.flatMap (· ++ [newline]) ++ q.edit

def full (q : LineQueue) : Prop := KEYBOARD_BUFFER_SIZE - 1 ≤ q.content.length

instance (q : LineQueue) : Decidable q.full := inferInstanceAs (Decidable (_ ≤ _))

def key (c : Byte) (q : LineQueue) : LineQueue :=
  if q.full then q
  else if c = newline then { lines := q.lines ++ [q.edit], edit := [] }
  else if c = backspace then { q with edit := q.edit.dropLast }
  else { q with edit := q.edit ++ [c] }

def line (len : Nat) (q : LineQueue) : (Int × List Byte) × LineQueue :=
  match q.lines with
  | [] => ((ERR_NOTAVAIL, []), q)
  | l :: ls => ((min len l.length, l.take len), { q with lines := ls })

end LineQueue

end Pebbles
