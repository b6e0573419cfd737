import Pebbles.Page

/-!
# The interrupt descriptor table

`idt_entry.c` and the handlers that `install_handlers` and `install_syscall_handlers`
put into the table, and the table as the processor reads it.
-/

namespace Pebbles

open Words

def TRAP_GATE : Int := 0
def INTERRUPT_GATE : Int := 1
def TRAP_GATE_FLAGS : BitVec 5 := 15#5
def INTERRUPT_GATE_FLAGS : BitVec 5 := 14#5
def KERNEL_DPL : Word := 0#32
def USER_DPL : Word := 3#32
def SEGSEL_KERNEL_CS : BitVec 16 := 0x10#16
def IDT_OF : Int := 4
def IDT_UD : Int := 6
def IDT_SS : Int := 12

/-- The bit fields of `idt_entry`, the lowest first. -/
structure IdtEntry where
  offset1 : BitVec 16
  segSelector : BitVec 16
  reserved : BitVec 5
  zeroes : BitVec 3
  flags : BitVec 5
  dpl : BitVec 2
  present : BitVec 1
  offset2 : BitVec 16

/-- The entries of the table by their numbers, each as the word at its address and the
one after it. -/
abbrev Idt : Type := Int → Word × Word

namespace IdtEntry

def access (e : IdtEntry) : BitVec 16 := e.present ++ (e.dpl ++ (e.flags ++ (e.zeroes ++ e.reserved)))

def words (e : IdtEntry) : Word × Word := (e.segSelector ++ e.offset1, e.offset2 ++ e.access)

def getDefaultTrapIdt (dpl : Word) (e : IdtEntry) : IdtEntry :=
  { e with
    segSelector := SEGSEL_KERNEL_CS
    zeroes := 0#3
    flags := TRAP_GATE_FLAGS
    dpl := dpl.setWidth 2
    present := 1#1 }

def getDefaultInterruptIdt (dpl : Word) (e : IdtEntry) : IdtEntry :=
  { e with
    segSelector := SEGSEL_KERNEL_CS
    zeroes := 0#3
    flags := INTERRUPT_GATE_FLAGS
    dpl := dpl.setWidth 2
    present := 1#1 }

end IdtEntry

/-- `entry` is what the stack holds where the entry is built. -/
def addIdtEntry (entry : IdtEntry) (handler : Word) (interruptNum type : Int) (dpl : Word) (idt : Idt) : Int × Idt :=
  if type ≠ TRAP_GATE ∧ type ≠ INTERRUPT_GATE then (ERR_FAILURE, idt)
  else
    let entry := if type = TRAP_GATE then entry.getDefaultTrapIdt dpl else entry.getDefaultInterruptIdt dpl
    let entry := { entry with
      offset1 := (handler &&& 0xffff#32).setWidth 16
      offset2 := (handler.sshiftRight 16 &&& 0xffff#32).setWidth 16 }
    (0, Function.update idt interruptNum entry.words)

/-! ## The gates of the processor -/

structure Gate where
  offset : Word
  selector : BitVec 16
  flags : BitVec 5
  dpl : BitVec 2
  present : BitVec 1
  deriving DecidableEq

def gateOf (d : Word × Word) : Gate where
  offset := d.2.extractLsb' 16 16 ++ d.1.extractLsb' 0 16
  selector := d.1.extractLsb' 16 16
  flags := d.2.extractLsb' 8 5
  dpl := d.2.extractLsb' 13 2
  present := d.2.extractLsb' 15 1

theorem extract_access (e : IdtEntry) {start len : Nat} (h : start + len ≤ 16) :
    e.words.2.extractLsb' start len = e.access.extractLsb' start len := BitVec.extractLsb'_append_eq_of_add_le h

theorem gateOf_words (e : IdtEntry) :
    gateOf e.words = ⟨e.offset2 ++ e.offset1, e.segSelector, e.flags, e.dpl, e.present⟩ := by
  have hoffset : e.words.2.extractLsb' 16 16 ++ e.words.1.extractLsb' 0 16 = e.offset2 ++ e.offset1 :=
    congrArg₂ (· ++ ·) BitVec.extractLsb'_append_eq_left BitVec.extractLsb'_append_eq_right
  have hselector : e.words.1.extractLsb' 16 16 = e.segSelector := BitVec.extractLsb'_append_eq_left
  have hflags : e.access.extractLsb' 8 5 = e.flags :=
    (BitVec.extractLsb'_append_eq_of_add_le (by decide)).trans
      ((BitVec.extractLsb'_append_eq_of_add_le (by decide)).trans BitVec.extractLsb'_append_eq_left)
  have hdpl : e.access.extractLsb' 13 2 = e.dpl :=
    (BitVec.extractLsb'_append_eq_of_add_le (by decide)).trans BitVec.extractLsb'_append_eq_left
  have hpresent : e.access.extractLsb' 15 1 = e.present := BitVec.extractLsb'_append_eq_left
  rw [gateOf, hoffset, hselector, extract_access e (by decide), extract_access e (by decide),
    extract_access e (by decide), hflags, hdpl, hpresent]

theorem halves (w : Word) :
    (w.sshiftRight 16 &&& 0xffff#32).setWidth 16 ++ (w &&& 0xffff#32).setWidth 16 = w := by
  have hmask : ∀ j, j < 16 → (0xffff#32).getLsbD j = true := by decide
  ext i hi
  rw [BitVec.getElem_append]
  split
  · rw [BitVec.getElem_setWidth, BitVec.getLsbD_and, hmask i (by omega), Bool.and_true, BitVec.getLsbD_eq_getElem hi]
  · rw [BitVec.getElem_setWidth, BitVec.getLsbD_and, hmask (i - 16) (by omega), Bool.and_true,
      BitVec.getLsbD_sshiftRight, if_pos (by omega)]
    simp [show 16 + (i - 16) = i by omega, hi]
    omega

/-! ## The handlers -/

inductive Handler where
  | timer | keyboard
  | divideError | debugException | nonMaskableInterrupt | breakpoint | overflow | boundRange | undefinedOpcode
  | noMathCoprocessor | cso | invalidTss | snp | gpf | pageFault | mathFault | alignmentCheck | machineCheck
  | floatingPointExp
  | print | fork | threadFork | exec | setStatus | halt | wait | vanish | newPages | removePages | readline | yield
  | memoryCheck | gettid | deschedule | makeRunnable | getTicks | sleep | swexn | readfile | setTermColor
  | setCursorPos | getCursorPos | getchar
  deriving DecidableEq

namespace Handler

/-- The number that the handler's install function gives. -/
def vector : Handler → Int
  | .timer => 0x20
  | .keyboard => 0x21
  | .divideError => 0
  | .debugException => 1
  | .nonMaskableInterrupt => 2
  | .breakpoint => 3
  | .overflow => IDT_OF
  | .boundRange => 5
  -- `install_undefined_opcode_handler` names the overflow exception
  | .undefinedOpcode => IDT_OF
  | .noMathCoprocessor => 7
  | .cso => 9
  | .invalidTss => 10
  | .snp => 11
  | .gpf => 13
  | .pageFault => 14
  | .mathFault => 16
  | .alignmentCheck => 17
  | .machineCheck => 18
  | .floatingPointExp => 19
  | .fork => 0x41
  | .exec => 0x42
  | .wait => 0x44
  | .yield => 0x45
  | .deschedule => 0x46
  | .makeRunnable => 0x47
  | .gettid => 0x48
  | .newPages => 0x49
  | .removePages => 0x4A
  | .sleep => 0x4B
  | .getchar => 0x4C
  | .readline => 0x4D
  | .print => 0x4E
  | .setTermColor => 0x4F
  | .setCursorPos => 0x50
  | .getCursorPos => 0x51
  | .threadFork => 0x52
  | .getTicks => 0x53
  | .halt => 0x55
  | .setStatus => 0x59
  | .vanish => 0x60
  | .readfile => 0x62
  | .swexn => 0x74
  | .memoryCheck => 0x81

def gateType : Handler → Int
  | .timer | .memoryCheck => INTERRUPT_GATE
  | _ => TRAP_GATE

/-- The order of `install_handlers`; the stack segment fault has no handler there. -/
def faults : List Handler :=
  [.timer, .keyboard, .divideError, .debugException, .nonMaskableInterrupt, .breakpoint, .overflow, .boundRange,
    .undefinedOpcode, .noMathCoprocessor, .cso, .invalidTss, .snp, .gpf, .pageFault, .mathFault, .alignmentCheck,
    .machineCheck, .floatingPointExp]

/-- The order of `install_syscall_handlers`. -/
def syscalls : List Handler :=
  [.print, .fork, .threadFork, .exec, .setStatus, .halt, .wait, .vanish, .newPages, .removePages, .readline, .yield,
    .memoryCheck, .gettid, .deschedule, .makeRunnable, .getTicks, .sleep, .swexn, .readfile, .setTermColor,
    .setCursorPos, .getCursorPos, .getchar]

def dpl (h : Handler) : Word := if h ∈ syscalls then USER_DPL else KERNEL_DPL

end Handler

section
variable (addr : Handler → Word) (entry : Handler → IdtEntry)

/-- The calls of the install functions up to one that fails. -/
def installHandlers : List Handler → Idt → Int × Idt
  | [], idt => (0, idt)
  | h :: hs, idt =>
    let (ret, idt) := addIdtEntry (entry h) (addr h) h.vector h.gateType h.dpl idt
    if ret < 0 then (ret, idt) else installHandlers hs idt

/-- The table of `kernel_main`, with what the two calls return. -/
def installAll (idt : Idt) : Int × Int × Idt :=
  let (ret₁, idt) := installHandlers addr entry Handler.faults idt
  let (ret₂, idt) := installHandlers addr entry Handler.syscalls idt
  (ret₁, ret₂, idt)

def Handler.gate (h : Handler) : Gate where
  offset := addr h
  selector := SEGSEL_KERNEL_CS
  flags := if h.gateType = TRAP_GATE then TRAP_GATE_FLAGS else INTERRUPT_GATE_FLAGS
  dpl := h.dpl.setWidth 2
  present := 1#1

/-- The handler that was installed last for a number. -/
def handlerAt (hs : List Handler) (n : Int) : Option Handler := hs.reverse.find? fun h => h.vector = n

theorem handlerAt_append (hs hs' : List Handler) (n : Int) :
    handlerAt (hs ++ hs') n = (handlerAt hs' n).or (handlerAt hs n) := by
  unfold handlerAt
  rw [List.reverse_append, List.find?_append]

/-- The table has the gates of the last handlers, and is as before elsewhere. -/
structure Holds (hs : List Handler) (idt idt' : Idt) : Prop where
  installed : ∀ n h, handlerAt hs n = some h → gateOf (idt' n) = h.gate addr
  kept : ∀ n, handlerAt hs n = none → idt' n = idt n

variable {addr entry}

theorem Holds.append {hs hs' : List Handler} {idt idt₁ idt₂ : Idt} (h : Holds addr hs idt idt₁)
    (h' : Holds addr hs' idt₁ idt₂) : Holds addr (hs ++ hs') idt idt₂ := by
  constructor
  · intro n g hg
    rw [handlerAt_append, Option.or_eq_some_iff] at hg
    rcases hg with hg | ⟨hn, hg⟩
    · exact h'.installed n g hg
    · rw [h'.kept n hn]
      exact h.installed n g hg
  · intro n hn
    rw [handlerAt_append, Option.or_eq_none_iff] at hn
    rw [h'.kept n hn.1, h.kept n hn.2]

theorem addIdtEntry_handler (h : Handler) (idt : Idt) :
    ∃ idt', addIdtEntry (entry h) (addr h) h.vector h.gateType h.dpl idt = (0, idt') ∧ Holds addr [h] idt idt' := by
  have htype : ¬ (h.gateType ≠ TRAP_GATE ∧ h.gateType ≠ INTERRUPT_GATE) := by
    cases h <;> decide
  unfold addIdtEntry
  rw [if_neg htype]
  refine ⟨_, rfl, fun n g hg => ?_, fun n hn => ?_⟩
  · have hfound : h.vector = n ∧ h = g := by simpa [handlerAt, List.find?_singleton] using hg
    obtain ⟨rfl, rfl⟩ := hfound
    rw [Function.update_self, gateOf_words, halves]
    unfold Handler.gate
    split_ifs <;> rfl
  · have hne : h.vector ≠ n := by simpa [handlerAt, List.find?_singleton] using hn
    exact Function.update_of_ne hne.symm _ _

theorem installHandlers_holds (hs : List Handler) (idt : Idt) :
    ∃ idt', installHandlers addr entry hs idt = (0, idt') ∧ Holds addr hs idt idt' := by
  induction hs generalizing idt with
  | nil => exact ⟨idt, rfl, nofun, fun _ _ => rfl⟩
  | cons h hs ih =>
    obtain ⟨idt₁, hadd, hfirst⟩ := addIdtEntry_handler h idt
    obtain ⟨idt₂, hrest, hholds⟩ := ih idt₁
    refine ⟨idt₂, ?_, hfirst.append hholds⟩
    rw [installHandlers, hadd]
    exact hrest

theorem installAll_holds (addr : Handler → Word) (entry : Handler → IdtEntry) (idt : Idt) :
    ∃ idt', installAll addr entry idt = (0, 0, idt') ∧ Holds addr (Handler.faults ++ Handler.syscalls) idt idt' := by
  obtain ⟨idt₁, hfaults, h₁⟩ := installHandlers_holds Handler.faults idt
  obtain ⟨idt₂, hsyscalls, h₂⟩ := installHandlers_holds Handler.syscalls idt₁
  refine ⟨idt₂, ?_, h₁.append h₂⟩
  rw [installAll, hfaults]
  dsimp only
  rw [hsyscalls]

end

/-- Wherever the handlers are linked and whatever was in the table and on the stack, the
processor reads back what was installed. The overflow exception enters the handler of
undefined opcodes, which together with stack segment faults have no gate. -/
theorem installed_gates (addr : Handler → Word) (entry : Handler → IdtEntry) (idt : Idt) :
    ∃ idt', installAll addr entry idt = (0, 0, idt') ∧
      (∀ h ∈ Handler.faults ++ Handler.syscalls, h ≠ .overflow → gateOf (idt' h.vector) = h.gate addr) ∧
      (∀ n, (∀ h ∈ Handler.faults ++ Handler.syscalls, h.vector ≠ n) → idt' n = idt n) ∧
      (gateOf (idt' IDT_OF)).offset = addr .undefinedOpcode ∧ idt' IDT_UD = idt IDT_UD ∧ idt' IDT_SS = idt IDT_SS := by
  obtain ⟨idt', hrun, h⟩ := installAll_holds addr entry idt
  refine ⟨idt', hrun, fun g hg hne => h.installed _ g ?_, fun n hn => h.kept n ?_, ?_, ?_, ?_⟩
  · revert g
    decide
  · exact List.find?_eq_none.mpr fun g hg => by simpa using hn g (List.mem_reverse.mp hg)
  · rw [h.installed IDT_OF .undefinedOpcode (by decide)]
    rfl
  · exact h.kept IDT_UD (by decide)
  · exact h.kept IDT_SS (by decide)

end Pebbles
