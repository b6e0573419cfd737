import Pebbles.ExecSound
import Pebbles.UserBytes

/-!
# The arguments of a new program

`copy_user_args` puts the strings, the vector of their addresses and the words for `main` one
below the other, from the top of the stack down. The new program finds all of them; but the
vector ends with the address of an empty string and not with `NULL`, so that `get_num_args`
counts one string too many.
-/

namespace Pebbles

open Words Bytes

namespace Vm

def stringsSize (args : List (List Byte)) : Nat := (args.map fun arg => arg.length + 1).sum

def stringBlocks : List (List Byte) → Word → List (Word × List Byte)
  | [], _ => []
  | arg :: args, top =>
    (top - BitVec.ofNat 32 (arg.length + 1), arg ++ [0#8]) :: stringBlocks args (top - BitVec.ofNat 32 (arg.length + 1))

def stringPtrs (args : List (List Byte)) (top : Word) : List Word := (stringBlocks args top).map Prod.fst

def emptyString (args : List (List Byte)) : Word := STACK_START - BitVec.ofNat 32 (stringsSize args + 1)

def argvUsr (args : List (List Byte)) : Word := emptyString args - BitVec.ofNat 32 (4 * (args.length + 1))

def argBlocks (args : List (List Byte)) : List (Word × List Byte) :=
  stringBlocks args STACK_START ++
    [(emptyString args, [0#8]),
      (argvUsr args, (stringPtrs args STACK_START ++ [emptyString args]).flatMap wordBytes),
      (argvUsr args - 4#32, wordBytes STACK_END),
      (argvUsr args - 8#32, wordBytes STACK_START),
      (argvUsr args - 12#32, wordBytes (argvUsr args)),
      (argvUsr args - 16#32, [BitVec.ofNat 8 args.length]),
      (argvUsr args - 20#32, [0#8])]

section
variable {s : Vm} {args : List (List Byte)} {top : Word} {ptrs : List Word} {heap : ExecHeap}

theorem pushStrings_eq : pushStrings args top ptrs s = (s.writeAll (stringBlocks args top)).map fun s =>
    (top - BitVec.ofNat 32 (stringsSize args), ptrs ++ stringPtrs args top, s) := by
  induction args generalizing top ptrs s with
  | nil => simp [pushStrings, stringBlocks, stringPtrs, stringsSize, writeAll]
  | cons arg args ih =>
    simp only [pushStrings, stringBlocks, writeAll, List.foldlM_cons]
    cases hw : s.writeBytes (top - BitVec.ofNat 32 (arg.length + 1)) (arg ++ [0#8]) with
    | none => rfl
    | some s' =>
      dsimp only
      rw [ih]
      simp only [Option.bind_eq_bind, Option.bind_some, writeAll]
      refine congrArg (Option.map · _) (funext fun s => ?_)
      rw [sub_sub, ← BitVec.ofNat_add]
      simp [stringPtrs, stringBlocks, stringsSize]

theorem writeAll_append (l l' : List (Word × List Byte)) (s : Vm) :
    s.writeAll (l ++ l') = (s.writeAll l).bind (writeAll l') :=
  List.foldlM_append

theorem writeAll_cons (p : Word × List Byte) (l : List (Word × List Byte)) (s : Vm) :
    s.writeAll (p :: l) = (s.writeBytes p.1 p.2).bind (writeAll l) :=
  List.foldlM_cons

theorem writeBytes_single (va : Word) (b : Byte) (s : Vm) : s.writeBytes va [b] = s.writeByte va b := by
  unfold writeBytes
  cases s.writeByte va b <;> rfl

theorem copyUserArgs_eq (hh : heap.argvecCopy = true) :
    s.copyUserArgs heap args = (s.writeAll (argBlocks args)).map fun s => (some (argvUsr args - 20#32), s) := by
  unfold copyUserArgs
  rw [if_pos hh, argBlocks, writeAll_append, pushStrings_eq]
  cases s.writeAll (stringBlocks args STACK_START) with
  | none => rfl
  | some s =>
    have htop : STACK_START - BitVec.ofNat 32 (stringsSize args) - 1#32 = emptyString args := by
      rw [sub_sub, emptyString, BitVec.ofNat_add]
    have hvec : emptyString args - BitVec.ofNat 32 (4 * (args.length + 1)) = argvUsr args := rfl
    simp only [Option.map_some, Option.bind_eq_bind, Option.bind_some, htop, hvec, List.nil_append, writeAll_cons,
      writeBytes_single,
      writeWord]
    rw [Option.map_eq_bind]
    simp only [Option.bind_assoc]
    rfl

/-! ## The layout -/

theorem stringsSize_le (hn : args.length ≤ NUM_ARGS_MAX) (hlen : ∀ arg ∈ args, arg.length < ARGNAME_MAX) :
    stringsSize args ≤ 4080 := by
  have h : stringsSize args ≤ args.length * 255 := by
    unfold stringsSize
    refine (List.sum_le_card_nsmul _ 255 fun x hx => ?_).trans (by simp)
    obtain ⟨arg, ha, rfl⟩ := List.mem_map.mp hx
    exact hlen arg ha
  exact h.trans (Nat.mul_le_mul_right 255 hn)

theorem toNat_sub_ofNat {a : Word} {n : Nat} (h : n ≤ a.toNat) : (a - BitVec.ofNat 32 n).toNat = a.toNat - n := by
  have := a.isLt
  rw [BitVec.toNat_sub, BitVec.toNat_ofNat]
  omega

theorem stringBlocks_layout (args : List (List Byte)) (top : Word) (h : stringsSize args ≤ top.toNat) :
    Descending top.toNat (stringBlocks args top) ∧ Above (top.toNat - stringsSize args) (stringBlocks args top) := by
  induction args generalizing top with
  | nil => exact ⟨trivial, fun p hp => by cases hp⟩
  | cons arg args ih =>
    have hsum : stringsSize (arg :: args) = arg.length + 1 + stringsSize args := by simp [stringsSize]
    have htop := toNat_sub_ofNat (a := top) (n := arg.length + 1) (by omega)
    obtain ⟨hd, ha⟩ := ih (top - BitVec.ofNat 32 (arg.length + 1)) (by omega)
    refine ⟨⟨?_, hd⟩, fun p hp => ?_⟩
    · rw [htop, List.length_append, List.length_singleton]
      omega
    · rcases List.mem_cons.mp hp with rfl | hp
      · dsimp only
        omega
      · have := ha p hp
        omega

structure ArgLayout (args : List (List Byte)) : Prop where
  small : stringsSize args ≤ 4080
  count : args.length ≤ 16
  empty : (emptyString args).toNat = 0xc0000000 - (stringsSize args + 1)
  argv : (argvUsr args).toNat = 0xc0000000 - (stringsSize args + 1) - 4 * (args.length + 1)

theorem argLayout (hn : args.length ≤ NUM_ARGS_MAX) (hlen : ∀ arg ∈ args, arg.length < ARGNAME_MAX) :
    ArgLayout args := by
  have hs := stringsSize_le hn hlen
  have hn : args.length ≤ 16 := hn
  have he : (emptyString args).toNat = 0xc0000000 - (stringsSize args + 1) :=
    toNat_sub_ofNat (a := STACK_START) (by show _ ≤ 0xc0000000; omega)
  refine ⟨hs, hn, he, ?_⟩
  rw [← he]
  exact toNat_sub_ofNat (by omega)

theorem ArgLayout.below (h : ArgLayout args) {n : Nat} (hn : n ≤ 20) :
    (argvUsr args - BitVec.ofNat 32 n).toNat = 0xc0000000 - (stringsSize args + 1) - 4 * (args.length + 1) - n := by
  have h₁ := h.small
  have h₂ := h.count
  have h₃ := h.argv
  rw [toNat_sub_ofNat (by omega), h₃]

theorem ArgLayout.words (h : ArgLayout args) :
    (argvUsr args - 4#32).toNat = 0xc0000000 - (stringsSize args + 1) - 4 * (args.length + 1) - 4 ∧
    (argvUsr args - 8#32).toNat = 0xc0000000 - (stringsSize args + 1) - 4 * (args.length + 1) - 8 ∧
    (argvUsr args - 12#32).toNat = 0xc0000000 - (stringsSize args + 1) - 4 * (args.length + 1) - 12 ∧
    (argvUsr args - 16#32).toNat = 0xc0000000 - (stringsSize args + 1) - 4 * (args.length + 1) - 16 ∧
    (argvUsr args - 20#32).toNat = 0xc0000000 - (stringsSize args + 1) - 4 * (args.length + 1) - 20 :=
  ⟨h.below (by decide), h.below (by decide), h.below (by decide), h.below (by decide), h.below (by decide)⟩

theorem length_wordBytes (v : Word) : (wordBytes v).length = 4 := rfl

theorem length_flatMap_wordBytes (l : List Word) : (l.flatMap wordBytes).length = 4 * l.length := by
  induction l with
  | nil => rfl
  | cons v l ih =>
    rw [List.flatMap_cons, List.length_append, ih, length_wordBytes, List.length_cons]
    omega

theorem length_stringPtrs : (stringPtrs args top).length = args.length := by
  induction args generalizing top with
  | nil => rfl
  | cons arg args ih => simpa [stringPtrs, stringBlocks] using ih

theorem ArgLayout.descending (h : ArgLayout args) : Descending 0xc0000000 (argBlocks args) := by
  obtain ⟨hd, ha⟩ := stringBlocks_layout args STACK_START (by have := h.small; show _ ≤ 0xc0000000; omega)
  have h₁ := h.small
  have h₂ := h.count
  have h₃ := h.empty
  have h₄ := h.argv
  refine hd.append ha (by show 0xc0000000 - _ ≤ 0xc0000000; omega) ?_
  have hlen : ((stringPtrs args STACK_START ++ [emptyString args]).flatMap wordBytes).length = 4 * (args.length + 1) := by
    rw [length_flatMap_wordBytes, List.length_append, length_stringPtrs, List.length_singleton]
  simp only [Descending, hlen, length_wordBytes, List.length_singleton, and_true]
  have hstart : STACK_START.toNat = 0xc0000000 := rfl
  obtain ⟨b₄, b₈, b₁₂, b₁₆, b₂₀⟩ := h.words
  refine ⟨?_, ?_, ?_, ?_, ?_, ?_, ?_⟩ <;> omega

/-! ## What the new program finds -/

def FreshStack (s : Vm) : Prop :=
  ∀ x : Word, STACK_END.toNat ≤ x.toNat → x.toNat < STACK_START.toNat → s.readByte x = some 0#8

theorem FreshStack.mayRead (hf : s.FreshStack) {x : Word} (h₁ : 0xbfe00000 ≤ x.toNat) (h₂ : x.toNat < 0xc0000000) :
    s.MayRead x := by
  refine ⟨by show 0x01000000 ≤ _; omega, ?_⟩
  have hr := hf x (by show 0xbfe00000 ≤ _; omega) (by show _ < 0xc0000000; omega)
  unfold readByte at hr
  by_contra hne
  rw [if_neg hne] at hr
  cases hr

theorem ArgLayout.bounds (h : ArgLayout args) {p : Word × List Byte} (hp : p ∈ argBlocks args) :
    0xbfe00000 ≤ p.1.toNat ∧ p.1.toNat + p.2.length ≤ 0xc0000000 := by
  have h₁ := h.small
  have h₂ := h.count
  have hd := h.descending
  have hlow : Above (0xc0000000 - (stringsSize args + 1) - 4 * (args.length + 1) - 20) (argBlocks args) := by
    intro q hq
    rcases List.mem_append.mp hq with hq | hq
    · have := (stringBlocks_layout args STACK_START (by show _ ≤ 0xc0000000; omega)).2 q hq
      change 0xc0000000 - _ ≤ _ at this
      omega
    · have h₃ := h.empty
      have h₄ := h.argv
      obtain ⟨b₄, b₈, b₁₂, b₁₆, b₂₀⟩ := h.words
      simp only [List.mem_cons, List.not_mem_nil, or_false] at hq
      rcases hq with rfl | rfl | rfl | rfl | rfl | rfl | rfl <;> dsimp only <;> omega
  exact ⟨by have := hlow p hp; omega, hd.bound hp⟩

theorem ArgLayout.present (h : ArgLayout args) (hm : ∀ x : Word, 0xbfe00000 ≤ x.toNat → x.toNat < 0xc0000000 →
    s.MayRead x)
    {p : Word × List Byte} (hp : p ∈ argBlocks args) : s.Present p.1 p.2.length := by
  intro x hx
  have hb := h.bounds hp
  rw [inside_iff (by omega)] at hx
  exact hm x (by omega) (by omega)

theorem copyUserArgs_some (h : ArgLayout args) (hh : heap.argvecCopy = true)
    (hm : ∀ x : Word, 0xbfe00000 ≤ x.toNat → x.toNat < 0xc0000000 → s.MayRead x) :
    ∃ umem, s.copyUserArgs heap args = some (some (argvUsr args - 20#32), { s with umem := umem }) := by
  obtain ⟨umem, hw⟩ := writeAll_present fun p hp => h.present hm hp
  exact ⟨umem, by rw [copyUserArgs_eq hh, hw]; rfl⟩

theorem copyUserArgs_spec (h : ArgLayout args) (hh : heap.argvecCopy = true) (hs : s.Unaliased) (hf : s.FreshStack) :
    ∃ umem, s.copyUserArgs heap args = some (some (argvUsr args - 20#32), { s with umem := umem }) ∧
      (∀ p ∈ argBlocks args, get ({ s with umem := umem } : Vm).readByte p.1 p.2.length = p.2.map some) ∧
      ∀ x : Word, USER_MEM_START ≤ x.toNat → (∀ p ∈ argBlocks args, ¬ Inside p.1 p.2.length x) →
        ({ s with umem := umem } : Vm).readByte x = s.readByte x := by
  have hpresent : ∀ p ∈ argBlocks args, s.Present p.1 p.2.length := fun p hp => h.present (fun _ => hf.mayRead) hp
  obtain ⟨umem, hw⟩ := writeAll_present hpresent
  have hread := fun x => readByte_writeAll (x := x) hs hpresent hw
  refine ⟨umem, by rw [copyUserArgs_eq hh, hw]; rfl, fun p hp => ?_, fun x hx hout => ?_⟩
  · have hb := h.bounds hp
    have hget := get_putAll (m := s.readByte) h.descending.map_some (by decide)
      (List.mem_map_of_mem (f := fun p => (p.1, p.2.map some)) hp)
    rw [List.length_map] at hget
    refine (get_congr fun i hi => hread _ ?_).trans hget
    have hin := (inside_iff (by omega)).mp (inside_add (a := p.1) hi (by omega))
    show 0x01000000 ≤ _
    omega
  · rw [hread x hx]
    refine putAll_outside fun q hq => ?_
    obtain ⟨p, hp, rfl⟩ := List.mem_map.mp hq
    rw [List.length_map]
    exact hout p hp

theorem ArgLayout.gap (h : ArgLayout args) {x : Word} (h₁ : (argvUsr args - 16#32).toNat < x.toNat)
    (h₂ : x.toNat < (argvUsr args - 12#32).toNat) {p : Word × List Byte} (hp : p ∈ argBlocks args) :
    ¬ Inside p.1 p.2.length x := by
  have hb := h.bounds hp
  have h₃ := h.small
  have h₄ := h.count
  rw [inside_iff (by omega)]
  obtain ⟨b₄, b₈, b₁₂, b₁₆, b₂₀⟩ := h.words
  rcases List.mem_append.mp hp with hq | hq
  · have := (stringBlocks_layout args STACK_START (by show _ ≤ 0xc0000000; omega)).2 p hq
    change 0xc0000000 - _ ≤ _ at this
    omega
  · have h₅ := h.empty
    have h₆ := h.argv
    simp only [List.mem_cons, List.not_mem_nil, or_false] at hq
    rcases hq with rfl | rfl | rfl | rfl | rfl | rfl | rfl <;> dsimp only at hb ⊢ <;>
      simp only [length_wordBytes, List.length_singleton, length_flatMap_wordBytes] <;> omega

theorem wordBytes_count {n : Nat} (h : n ≤ 16) : wordBytes (BitVec.ofNat 32 n) = [BitVec.ofNat 8 n, 0#8, 0#8, 0#8] := by
  interval_cases n <;> rfl

theorem take_flatMap_wordBytes {l : List Word} {i : Nat} {v : Word} (hi : l[i]? = some v) :
    ((l.flatMap wordBytes).drop (4 * i)).take 4 = wordBytes v := by
  induction l generalizing i with
  | nil => simp at hi
  | cons u l ih =>
    cases i with
    | zero =>
      cases hi
      rfl
    | succ i =>
      rw [List.flatMap_cons, show 4 * (i + 1) = (wordBytes u).length + 4 * i by rw [length_wordBytes]; omega,
        List.drop_length_add_append]
      exact ih hi

theorem stringBlocks_mem (top : Word) {i : Nat} {arg : List Byte} (hi : args[i]? = some arg) :
    ∃ ptr, (stringPtrs args top)[i]? = some ptr ∧ (ptr, arg ++ [0#8]) ∈ stringBlocks args top := by
  induction args generalizing top i with
  | nil => simp at hi
  | cons a args ih =>
    cases i with
    | zero =>
      cases hi
      exact ⟨_, rfl, List.mem_cons_self⟩
    | succ i =>
      obtain ⟨ptr, hp, hm⟩ := ih (top - BitVec.ofNat 32 (a.length + 1)) hi
      exact ⟨ptr, hp, List.mem_cons_of_mem _ hm⟩

/-- At `ptr` is the string `arg`: its bytes are not `NUL`, and the one after them is. -/
def StringAt (s : Vm) (ptr : Word) (arg : List Byte) : Prop :=
  0#8 ∉ arg ∧ get s.readByte ptr (arg.length + 1) = (arg ++ [0#8]).map some

theorem readWord_argv {s' : Vm} (hb : ∀ p ∈ argBlocks args, get s'.readByte p.1 p.2.length = p.2.map some) {i : Nat}
    {ptr : Word}
    (hi : (stringPtrs args STACK_START ++ [emptyString args])[i]? = some ptr) :
    s'.readWord (argvUsr args + BitVec.ofNat 32 (4 * i)) = some ptr := by
  have hblock := hb (argvUsr args, (stringPtrs args STACK_START ++ [emptyString args]).flatMap wordBytes)
    (by simp [argBlocks])
  have hlt : i < (stringPtrs args STACK_START ++ [emptyString args]).length := (List.getElem?_eq_some_iff.mp hi).1
  dsimp only at hblock
  apply readWord_of_get
  rw [get_part (n := ((stringPtrs args STACK_START ++ [emptyString args]).flatMap wordBytes).length)
    (by rw [length_flatMap_wordBytes]; omega), hblock, ← List.map_drop, ← List.map_take, take_flatMap_wordBytes hi]

theorem get_count {s' : Vm} (h : ArgLayout args) (hf : s.FreshStack)
    (hb : ∀ p ∈ argBlocks args, get s'.readByte p.1 p.2.length = p.2.map some)
    (hout : ∀ x : Word, USER_MEM_START ≤ x.toNat → (∀ p ∈ argBlocks args, ¬ Inside p.1 p.2.length x) →
      s'.readByte x = s.readByte x) :
    get s'.readByte (argvUsr args - 16#32) 4 = (wordBytes (BitVec.ofNat 32 args.length)).map some := by
  have h₁ := h.small
  have h₂ := h.count
  obtain ⟨-, -, b₁₂, b₁₆, -⟩ := h.words
  have hzero : ∀ j, 1 ≤ j → j < 4 → s'.readByte (argvUsr args - 16#32 + BitVec.ofNat 32 j) = some 0#8 := by
    intro j hj hj'
    have hx : (argvUsr args - 16#32 + BitVec.ofNat 32 j).toNat = (argvUsr args - 16#32).toNat + j := by
      rw [BitVec.toNat_add, BitVec.toNat_ofNat]
      omega
    rw [hout _ (by show 0x01000000 ≤ _; omega) fun p hp => h.gap (by omega) (by omega) hp]
    exact hf _ (by show 0xbfe00000 ≤ _; omega) (by show _ < 0xc0000000; omega)
  have hcount := hb (argvUsr args - 16#32, [BitVec.ofNat 8 args.length]) (by simp [argBlocks])
  simp only [List.length_singleton, get_succ, List.map_cons, List.cons.injEq] at hcount
  have h₂' : argvUsr args - 16#32 + 1#32 + 1#32 = argvUsr args - 16#32 + 2#32 := add_assoc ..
  have h₃' : argvUsr args - 16#32 + 2#32 + 1#32 = argvUsr args - 16#32 + 3#32 := add_assoc ..
  rw [wordBytes_count h₂]
  simp only [get_succ, h₂', h₃', hcount.1, hzero 1 (by decide) (by decide), hzero 2 (by decide) (by decide),
    hzero 3 (by decide) (by decide)]
  rfl

/-- The new program finds its arguments, and only the stack is written. -/
theorem new_program_sees_arguments (args : List (List Byte)) (heap : ExecHeap) (hn : args.length ≤ NUM_ARGS_MAX)
    (hlen : ∀ arg ∈ args, arg.length < ARGNAME_MAX)
    (hnul : ∀ arg ∈ args, 0#8 ∉ arg) (hh : heap.argvecCopy = true) (hs : s.Unaliased) (hf : s.FreshStack) :
    ∃ p argv s', s.copyUserArgs heap args = some (some p, s') ∧
      s'.readWord (p + 4#32) = some (BitVec.ofNat 32 args.length) ∧ s'.readWord (p + 8#32) = some argv ∧
      s'.readWord (p + 12#32) = some STACK_START ∧ s'.readWord (p + 16#32) = some STACK_END ∧
      (∀ i arg, args[i]? = some arg → ∃ ptr, s'.readWord (argv + BitVec.ofNat 32 (4 * i)) = some ptr ∧
      s'.StringAt ptr arg) ∧
      s'.toTables = s.toTables ∧ s'.cr3 = s.cr3 ∧
      ∀ x : Word, USER_MEM_START ≤ x.toNat → ¬ (STACK_END.toNat ≤ x.toNat ∧ x.toNat < STACK_START.toNat) →
        s'.readByte x = s.readByte x := by
  have h := argLayout hn hlen
  obtain ⟨umem, hc, hb, hout⟩ := copyUserArgs_spec h hh hs hf
  have hsub : ∀ a b : Word, argvUsr args - a + b = argvUsr args - (a - b) := fun a b => sub_add ..
  refine ⟨_, argvUsr args, _, hc, ?_, ?_, ?_, ?_, ?_, rfl, rfl, ?_⟩
  · rw [hsub]
    exact readWord_of_get (get_count h hf hb hout)
  · rw [hsub]
    exact readWord_of_get (hb (argvUsr args - 12#32, wordBytes (argvUsr args)) (by simp [argBlocks]))
  · rw [hsub]
    exact readWord_of_get (hb (argvUsr args - 8#32, wordBytes STACK_START) (by simp [argBlocks]))
  · rw [hsub]
    exact readWord_of_get (hb (argvUsr args - 4#32, wordBytes STACK_END) (by simp [argBlocks]))
  · intro i arg hi
    obtain ⟨ptr, hp, hm⟩ := stringBlocks_mem STACK_START hi
    refine ⟨ptr, readWord_argv hb ?_, hnul arg (List.mem_of_getElem? hi), ?_⟩
    · rw [List.getElem?_append_left (List.getElem?_eq_some_iff.mp hp).1, hp]
    · have := hb (ptr, arg ++ [0#8]) (List.mem_append_left _ hm)
      simpa using this
  · intro x hx hne
    refine hout x hx fun p hp hin => hne ?_
    have hbd := h.bounds hp
    rw [inside_iff (by omega)] at hin
    show 0xbfe00000 ≤ _ ∧ _ < 0xc0000000
    omega

/-! ## Counting them again -/

theorem isPointerValid_present {s : Vm} {ptr : Word} (h : s.MayRead ptr) (hlt : ptr.toNat < 0xfffffff0) :
    s.isPointerValid ptr 4#32 = some 0 := by
  have hu : 0x01000000 ≤ ptr.toNat := h.1
  have hp := h.2
  unfold present at hp
  rw [Bool.and_eq_true] at hp
  have hne : ptr ≠ 0#32 := by
    rintro rfl
    simp at hu
  have hround : (pageRoundDown ptr).toNat ≤ (ptr + 4#32).toNat := by
    rw [pageRoundDown, toNat_base, BitVec.toNat_add]
    show _ ≤ (ptr.toNat + 4) % 2 ^ 32
    omega
  have hscan : isMemoryRangeMapped ptr 4#32 s = some MEMORY_REGION_MAPPED := by
    unfold isMemoryRangeMapped
    rw [if_neg (by
      simp only [hne, false_or]
      rintro (hc | hc | hc)
      · exact absurd hc (by show ¬ ptr.toNat > 0xffffffff; omega)
      · exact absurd hc (by decide)
      · exact absurd hc (by decide)), if_neg (by show ¬ ptr.toNat < 0x01000000; omega)]
    unfold scanRange
    rw [if_pos hround, if_pos]
    rw [getPdIndex_round, pte_round]
    exact ⟨ne_default_of_present hp.1, ne_default_of_present hp.2⟩
  unfold isPointerValid
  rw [if_neg (by show ¬ ptr.toNat < 0x01000000; omega), hscan]
  rfl

end

section
variable {s : Vm} {argv ptr : Word} {m c : Nat}

theorem countArgs_valid (hr : s.readWord (argv + BitVec.ofNat 32 (4 * c)) = some ptr)
    (hv : s.isPointerValid ptr 4#32 = some 0)
    (hne : ptr ≠ 0#32) : s.countArgs argv (m + 1) c = s.countArgs argv m (c + 1) ∧
      s.countArgs argv 0 c = some ERR_BIG := by
  constructor <;>
  · rw [countArgs, hr]
    dsimp only
    rw [hv]
    exact if_pos ⟨rfl, hne⟩

theorem getNumArgs_valid (h : s.isPointerValid argv 4#32 = some 0) :
    s.getNumArgs argv = s.countArgs argv NUM_ARGS_MAX 0 := by
  simp only [getNumArgs, h, lt_irrefl, if_false]

theorem countArgs_ge {r : Int} (h : s.countArgs argv m c = some r) : r = ERR_BIG ∨ (c : Int) ≤ r := by
  induction m generalizing c with
  | zero =>
    unfold countArgs at h
    split at h
    · cases h
    · split at h
      · cases h
      · split_ifs at h <;> cases h
        · exact .inl rfl
        · exact .inr le_rfl
  | succ m ih =>
    unfold countArgs at h
    split at h
    · cases h
    · split at h
      · cases h
      · split_ifs at h
        · have := ih h
          omega
        · cases h
          exact .inr le_rfl

theorem countArgs_skip {n : Nat} (hv : ∀ i < n, ∃ ptr, s.readWord (argv + BitVec.ofNat 32 (4 * i)) = some ptr ∧
    s.isPointerValid ptr 4#32 = some 0 ∧ ptr ≠ 0#32) (hn : n ≤ m) :
    s.countArgs argv m 0 = s.countArgs argv (m - n) n := by
  induction n with
  | zero => rfl
  | succ n ih =>
    obtain ⟨ptr, hr, hp, hne⟩ := hv n (by omega)
    rw [ih (fun i hi => hv i (by omega)) (by omega), show m - n = m - (n + 1) + 1 by omega]
    exact (countArgs_valid hr hp hne).1

end

section
variable {s : Vm} {args : List (List Byte)} {heap : ExecHeap}

theorem stringBlocks_nonempty {top : Word} {p : Word × List Byte} (hp : p ∈ stringBlocks args top) :
    0 < p.2.length := by
  induction args generalizing top with
  | nil => cases hp
  | cons arg args ih =>
    rcases List.mem_cons.mp hp with rfl | hp
    · simp
    · exact ih hp

theorem ArgLayout.ptr_bounds (h : ArgLayout args) {i : Nat} {ptr : Word}
    (hi : (stringPtrs args STACK_START ++ [emptyString args])[i]? = some ptr) :
    0xbfe00000 ≤ ptr.toNat ∧ ptr.toNat < 0xc0000000 := by
  have h₁ := h.small
  rcases List.mem_append.mp (List.mem_of_getElem? hi) with hm | hm
  · obtain ⟨p, hp, rfl⟩ := List.mem_map.mp hm
    have hb := h.bounds (List.mem_append_left _ hp)
    have hne := stringBlocks_nonempty hp
    omega
  · rw [List.mem_singleton.mp hm, h.empty]
    omega

theorem argv_valid (h : ArgLayout args) (hp : ∀ x : Word, 0xbfe00000 ≤ x.toNat → x.toNat < 0xc0000000 → s.MayRead x)
    (hb : ∀ p ∈ argBlocks args, get s.readByte p.1 p.2.length = p.2.map some) {i : Nat} (hi : i < args.length + 1) :
    ∃ ptr, s.readWord (argvUsr args + BitVec.ofNat 32 (4 * i)) = some ptr ∧ s.isPointerValid ptr 4#32 = some 0 ∧
      ptr ≠ 0#32 := by
  have hlt : i < (stringPtrs args STACK_START ++ [emptyString args]).length := by
    rw [List.length_append, length_stringPtrs, List.length_singleton]
    exact hi
  obtain ⟨ptr, hget⟩ : ∃ ptr, (stringPtrs args STACK_START ++ [emptyString args])[i]? = some ptr :=
    ⟨_, List.getElem?_eq_getElem hlt⟩
  obtain ⟨hp₁, hp₂⟩ := h.ptr_bounds hget
  refine ⟨ptr, readWord_argv hb hget, isPointerValid_present (hp ptr hp₁ hp₂) (by omega), ?_⟩
  intro e
  rw [e, BitVec.toNat_zero] at hp₁
  omega

theorem getNumArgs_argv (h : ArgLayout args) (hp : ∀ x : Word, 0xbfe00000 ≤ x.toNat → x.toNat < 0xc0000000 →
    s.MayRead x)
    (hb : ∀ p ∈ argBlocks args, get s.readByte p.1 p.2.length = p.2.map some) {r : Int}
    (hr : s.getNumArgs (argvUsr args) = some r) : r = ERR_BIG ∨ (args.length : Int) < r := by
  have h₁ := h.small
  have h₂ := h.count
  have h₃ := h.argv
  have hlow : 0xbfe00000 ≤ (argvUsr args).toNat := by omega
  have hhigh : (argvUsr args).toNat < 0xc0000000 := by omega
  have hvec : s.isPointerValid (argvUsr args) 4#32 = some 0 := isPointerValid_present (hp _ hlow hhigh) (by omega)
  rw [getNumArgs_valid hvec] at hr
  by_cases hmax : args.length + 1 ≤ NUM_ARGS_MAX
  · rw [countArgs_skip (fun i hi => argv_valid h hp hb hi) hmax] at hr
    have := countArgs_ge hr
    omega
  · -- the count is at its bound when the end of the vector is found valid
    have hn : NUM_ARGS_MAX = args.length := Nat.le_antisymm (by omega) h₂
    obtain ⟨ptr, hptr, hv, hne⟩ := argv_valid h hp hb (i := args.length) (by omega)
    rw [hn, countArgs_skip (n := args.length) (fun i hi => argv_valid h hp hb (by omega)) le_rfl, Nat.sub_self,
      (countArgs_valid (m := 0) hptr hv hne).2] at hr
    cases hr
    exact .inl rfl

/-- The vector of a new program is never counted right: it ends with a valid pointer. -/
theorem argv_not_accepted_back (args : List (List Byte)) (heap : ExecHeap) (hn : args.length ≤ NUM_ARGS_MAX)
    (hlen : ∀ arg ∈ args, arg.length < ARGNAME_MAX)
    (hh : heap.argvecCopy = true) (hs : s.Unaliased) (hf : s.FreshStack) :
    ∃ p argv s', s.copyUserArgs heap args = some (some p, s') ∧ s'.readWord (p + 8#32) = some argv ∧
      s'.getNumArgs argv ≠ some (args.length : Int) ∧
      ∀ r, s'.getNumArgs argv = some r → r = ERR_BIG ∨ (args.length : Int) < r := by
  have h := argLayout hn hlen
  obtain ⟨umem, hc, hb, -⟩ := copyUserArgs_spec h hh hs hf
  have hp : ∀ x : Word, 0xbfe00000 ≤ x.toNat → x.toNat < 0xc0000000 → ({ s with umem := umem } : Vm).MayRead x :=
    fun x h₁ h₂ => hf.mayRead h₁ h₂
  refine ⟨_, argvUsr args, _, hc, ?_, fun he => ?_, fun r hr => getNumArgs_argv h hp hb hr⟩
  · rw [sub_add]
    exact readWord_of_get (hb (argvUsr args - 12#32, wordBytes (argvUsr args)) (by simp [argBlocks]))
  · rcases getNumArgs_argv h hp hb he with he | he
    · have : ERR_BIG < 0 := by decide
      omega
    · omega

end

/-! ## A stack -/

def stackVm : Vm where
  kmem p i := if p = 0x5000#32 ∧ i.val = 767 then 0x6007#32
    else if p = 0x6000#32 then BitVec.ofNat 32 (0x01000000 + 4096 * i.val + 7) else PAGE_TABLE_ENTRY_DEFAULT
  directMap _ := 0#32
  pds := {0x5000#32}
  avail := []
  cr3 := 0x5000#32
  fr := initFreeList 1
  umem _ _ := 0#8

theorem stackVm_pte {x : Word} (h : (getPdIndex x).val = 767) :
    stackVm.pte stackVm.cr3 x = BitVec.ofNat 32 (0x01000000 + 4096 * (getPtIndex x).val + 7) := by
  have hpt : stackVm.ptAddr stackVm.cr3 x = 0x6000#32 := by
    unfold Tables.ptAddr
    rw [show stackVm.kmem stackVm.cr3 (getPdIndex x) = 0x6007#32 from if_pos ⟨rfl, h⟩]
    decide
  unfold Tables.pte
  rw [hpt]
  simp [stackVm]

theorem stackVm_present {x : Word} : stackVm.present x = true ↔ (getPdIndex x).val = 767 := by
  unfold present
  by_cases h : (getPdIndex x).val = 767
  · have hd : stackVm.kmem stackVm.cr3 (getPdIndex x) = 0x6007#32 := if_pos ⟨rfl, h⟩
    have hodd : (0x01000000 + 4096 * (getPtIndex x).val + 7) % 2 = 1 := by omega
    have hbit : bit (BitVec.ofNat 32 (0x01000000 + 4096 * (getPtIndex x).val + 7)) 0 = true := by
      simp [bit, BitVec.getLsbD_ofNat, Nat.testBit_zero, hodd]
    rw [hd, stackVm_pte h, hbit]
    simp [h, bit]
  · have hd : stackVm.kmem stackVm.cr3 (getPdIndex x) = PAGE_TABLE_ENTRY_DEFAULT := by
      simp [stackVm, h]
    rw [hd]
    simp [h, bit, PAGE_TABLE_ENTRY_DEFAULT]

theorem stackVm_unaliased : stackVm.Unaliased := by
  intro a b _ _ ha hb he
  rw [stackVm_present] at ha hb
  rw [stackVm_pte ha, stackVm_pte hb] at he
  have he := congrArg BitVec.toNat he
  have hj : (getPtIndex a).val = (getPtIndex b).val := by
    have h₁ := (getPtIndex a).isLt
    have h₂ := (getPtIndex b).isLt
    simp only [getAddrFromEntry, toNat_base, BitVec.toNat_ofNat] at he
    omega
  have hi : (getPdIndex a).val = (getPdIndex b).val := ha.trans hb.symm
  rw [getPdIndex_val, getPdIndex_val] at hi
  rw [getPtIndex_val, getPtIndex_val] at hj
  apply BitVec.eq_of_toNat_eq
  rw [pageRoundDown, pageRoundDown, toNat_base, toNat_base]
  omega

theorem stackVm_fresh : stackVm.FreshStack := by
  intro x h₁ h₂
  change 0xbfe00000 ≤ _ at h₁
  change _ < 0xc0000000 at h₂
  have hp : stackVm.present x = true := by
    rw [stackVm_present, getPdIndex_val]
    omega
  exact if_pos hp

/-- Two arguments and their vector. -/
theorem new_program_sees_arguments_two :
    ∃ p argv s' ptr, stackVm.copyUserArgs Kernel.fullHeap [[0x6c#8, 0x73#8], [0x61#8]] = some (some p, s') ∧
      s'.readWord (p + 4#32) = some 2#32 ∧ s'.readWord (p + 8#32) = some argv ∧ s'.readWord (argv + 4#32) = some ptr ∧
      s'.StringAt ptr [0x61#8] := by
  obtain ⟨p, argv, s', hc, hn, hv, -, -, hargs, -⟩ :=
    new_program_sees_arguments [[0x6c#8, 0x73#8], [0x61#8]] Kernel.fullHeap
    (by decide) (by decide) (by decide) rfl stackVm_unaliased stackVm_fresh
  obtain ⟨ptr, hptr, hstr⟩ := hargs 1 [0x61#8] rfl
  exact ⟨p, argv, s', ptr, hc, hn, hv, hptr, hstr⟩

theorem argv_not_accepted_back_one :
    ∃ p argv s', stackVm.copyUserArgs Kernel.fullHeap [[0x61#8, 0x62#8, 0x63#8]] = some (some p, s') ∧
      s'.readWord (p + 8#32) = some argv ∧ s'.getNumArgs argv ≠ some 1 := by
  obtain ⟨p, argv, s', hc, hv, hne, -⟩ := argv_not_accepted_back [[0x61#8, 0x62#8, 0x63#8]] Kernel.fullHeap
    (by decide) (by decide) rfl stackVm_unaliased stackVm_fresh
  exact ⟨p, argv, s', hc, hv, hne⟩

/-- One argument `abc` is counted as two: the second one is the empty string at the end. -/
theorem argv_counts_empty_string :
    ∃ p s', stackVm.copyUserArgs Kernel.fullHeap [[0x61#8, 0x62#8, 0x63#8]] = some (some p, s') ∧
      s'.readWord (p + 8#32) = some 0xbffffff3#32 ∧ s'.getNumArgs 0xbffffff3#32 = some 2 := by
  have h : (stackVm.copyUserArgs Kernel.fullHeap [[0x61#8, 0x62#8, 0x63#8]]).map
      (fun x => (x.1, x.2.readWord 0xbfffffe7#32, x.2.getNumArgs 0xbffffff3#32)) =
      some (some 0xbfffffdf#32, some 0xbffffff3#32, some 2) := by decide +kernel
  obtain ⟨⟨o, s'⟩, hx, he⟩ := Option.map_eq_some_iff.mp h
  simp only [Prod.mk.injEq] at he
  obtain ⟨rfl, hr, hn⟩ := he
  exact ⟨_, s', hx, hr, hn⟩

/-! ## From the old program to the new one -/

section
variable {s s' : Vm} {heap : ExecHeap} {ptr argvec : Word} {r : Int} {buf out : List Byte}

theorem copyString_spec {n : Nat} (h : s.copyString n ptr buf = some (r, out)) (hr : ¬ r < 0) :
    ∃ str, out = buf ++ str ∧ str.length < n ∧ s.StringAt ptr str := by
  fun_induction copyString s n ptr buf with
  | case1 | case3 =>
    cases h
    exact absurd (by decide) hr
  | case2 | case4 => cases h
  | case5 n ptr buf _ _ _ hb =>
    cases h
    exact ⟨[], by simp, by simp, by simp, by simp [Bytes.get, hb]⟩
  | case6 n ptr buf _ _ _ b hb h0 ih =>
    obtain ⟨str, rfl, hlen, hnul, hget⟩ := ih h
    refine ⟨b :: str, by simp, Nat.succ_lt_succ hlen, by simp [hnul, Ne.symm h0], ?_⟩
    rw [List.length_cons, get_succ, hget, hb]
    rfl

theorem copyUserData_spec {n : Nat} (h : s.copyUserData ptr n = some (r, out)) (hr : ¬ r < 0) :
    out.length < n ∧ s.StringAt ptr out := by
  unfold copyUserData at h
  split at h
  · cases h
    exact absurd (by decide) hr
  · obtain ⟨str, rfl, hs⟩ := copyString_spec h hr
    exact hs

theorem countArgs_le {n count : Nat} (h : s.countArgs argvec n count = some r) (hr : ¬ r < 0) :
    r.toNat ≤ count + n := by
  fun_induction countArgs s argvec n count with
  | case1 | case2 => cases h
  | case3 =>
    cases h
    exact absurd (by decide) hr
  | case4 _ _ _ _ _ _ _ ih => exact (ih h).trans (by omega)
  | case5 =>
    cases h
    omega

theorem copyArgStrings_spec {n i : Nat} {args : List (List Byte)}
    (h : s.copyArgStrings heap argvec n i = some (some args)) :
    args.length = n ∧ ∀ j arg, args[j]? = some arg → arg.length < ARGNAME_MAX ∧
      ∃ ptr, s.readWord (argvec + BitVec.ofNat 32 (4 * (i + j))) = some ptr ∧ s.StringAt ptr arg := by
  fun_induction copyArgStrings heap argvec s n i generalizing args with
  | case1 =>
    cases h
    exact ⟨rfl, nofun⟩
  | case2 | case3 | case4 | case7 => cases h
  | case5 n i _ ptr hptr r arg hcopy hr args' hrest ih =>
    cases h
    obtain ⟨hlen, hargs⟩ := ih hrest
    refine ⟨congrArg Nat.succ hlen, fun j arg' hj => ?_⟩
    cases j with
    | zero =>
      cases hj
      obtain ⟨hl, hs⟩ := copyUserData_spec hcopy hr
      exact ⟨hl, ptr, hptr, hs⟩
    | succ j =>
      rw [← Nat.succ_add_eq_add_succ]
      exact hargs j arg' hj
  | case6 n i _ ptr hptr r arg hcopy hr hne ih => exact absurd h (hne args)

theorem execArgs_spec {toc : Toc} {argPacket : Word} {name : List Byte} {args : List (List Byte)}
    (h : s.execArgs toc heap argPacket = some (.ok (name, args))) :
    ∃ execname argvec, s.readWord argPacket = some execname ∧ s.StringAt execname name ∧
      s.readWord (argPacket + 4#32) = some argvec ∧ s.getNumArgs argvec = some (args.length : Int) ∧
      args.length ≤ NUM_ARGS_MAX ∧ ∀ i arg, args[i]? = some arg → arg.length < ARGNAME_MAX ∧
      ∃ ptr, s.readWord (argvec + BitVec.ofNat 32 (4 * i)) = some ptr ∧ s.StringAt ptr arg := by
  simp only [execArgs, Option.bind_eq_bind, Option.bind_eq_some_iff] at h
  obtain ⟨execname, he, argvec, ha, ⟨r, name'⟩, hname, h⟩ := h
  split_ifs at h with hr hp
  · cases h
  · cases h
  · simp only [Option.bind_eq_some_iff] at h
    obtain ⟨num, hnum, h⟩ := h
    split_ifs at h with hneg
    · cases h
    · simp only [Option.bind_eq_some_iff] at h
      obtain ⟨_ | args', hcopy, h⟩ := h
      all_goals cases h
      have hstrings : s.copyArgStrings heap argvec num.toNat 0 = some (some args) := by
        unfold copyArgs at hcopy
        split at hcopy
        · split at hcopy
          · split at hcopy
            · cases hcopy
              assumption
            · cases hcopy
          · exact hcopy
        · cases hcopy
      obtain ⟨hlen, hargs⟩ := copyArgStrings_spec hstrings
      have hle : num.toNat ≤ 0 + NUM_ARGS_MAX := by
        unfold getNumArgs at hnum
        split at hnum
        · cases hnum
        · split_ifs at hnum
          · cases hnum
            exact absurd (by decide) hneg
          · exact countArgs_le hnum hneg
      refine ⟨execname, argvec, he, (copyUserData_spec hname hr).2, ha, ?_, by omega, fun i arg hi => ?_⟩
      · rw [hnum, hlen, Int.toNat_of_nonneg (Int.not_lt.mp hneg)]
      · simpa using hargs i arg hi

/-- What `exec` was given in its packet is what the new program has on its stack. -/
theorem exec_passes_arguments {toc : Toc} {argPacket : Word} {name : List Byte} {args : List (List Byte)}
    (h : s.execArgs toc heap argPacket = some (.ok (name, args))) (hh : heap.argvecCopy = true)
    (hs : s'.Unaliased) (hf : s'.FreshStack) :
    ∃ execname argvec p argv s'', s.readWord argPacket = some execname ∧ s.StringAt execname name ∧
      s.readWord (argPacket + 4#32) = some argvec ∧ s.getNumArgs argvec = some (args.length : Int) ∧
      s'.copyUserArgs heap args = some (some p, s'') ∧
      s''.readWord (p + 4#32) = some (BitVec.ofNat 32 args.length) ∧ s''.readWord (p + 8#32) = some argv ∧
      ∀ i arg, args[i]? = some arg → ∃ old new, s.readWord (argvec + BitVec.ofNat 32 (4 * i)) = some old ∧
        s''.readWord (argv + BitVec.ofNat 32 (4 * i)) = some new ∧ s.StringAt old arg ∧ s''.StringAt new arg := by
  obtain ⟨execname, argvec, he, hname, ha, hnum, hn, hargs⟩ := execArgs_spec h
  have hl : ArgLayout args := argLayout hn fun arg harg => by
    obtain ⟨i, hi⟩ := List.mem_iff_getElem?.mp harg
    exact (hargs i arg hi).1
  obtain ⟨umem, hc, hb, hout⟩ := copyUserArgs_spec hl hh hs hf
  refine ⟨execname, argvec, _, argvUsr args, _, he, hname, ha, hnum, hc, ?_, ?_, fun i arg hi => ?_⟩
  · rw [sub_add]
    exact readWord_of_get (get_count hl hf hb hout)
  · rw [sub_add]
    exact readWord_of_get (hb (argvUsr args - 12#32, wordBytes (argvUsr args)) (by simp [argBlocks]))
  · obtain ⟨-, old, hold, hstr⟩ := hargs i arg hi
    obtain ⟨new, hp, hm⟩ := stringBlocks_mem STACK_START hi
    refine ⟨old, new, hold, readWord_argv hb ?_, hstr, hstr.1, ?_⟩
    · rw [List.getElem?_append_left (List.getElem?_eq_some_iff.mp hp).1, hp]
    · simpa using hb _ (List.mem_append_left _ hm)

end

theorem exec_passes_arguments_one :
    ∃ p argv s'' new, stackVm.copyUserArgs Kernel.fullHeap [[0x61#8]] = some (some p, s'') ∧
      s''.readWord (p + 8#32) = some argv ∧ s''.readWord argv = some new ∧ s''.StringAt new [0x61#8] := by
  have h : ({ mappedVm with umem := fun _ o => [0x10#8, 0#8, 0#8, 1#8, 8#8, 0#8, 0#8, 1#8, 0x10#8, 0#8, 0#8, 1#8, 0#8,
      0#8, 0#8, 0#8, 0x61#8].getD o 0#8 } : Vm).execArgs Kernel.headerOnly Kernel.fullHeap 0x01000000#32 =
      some (.ok ([0x61#8], [[0x61#8]])) := by decide +kernel
  obtain ⟨_, _, p, argv, s'', -, -, -, -, hc, -, hv, hargs⟩ :=
    exec_passes_arguments h rfl stackVm_unaliased stackVm_fresh
  obtain ⟨_, new, -, hnew, -, hstr⟩ := hargs 0 _ rfl
  exact ⟨p, argv, s'', new, hc, hv, by simpa using hnew, hstr⟩

end Vm

end Pebbles
