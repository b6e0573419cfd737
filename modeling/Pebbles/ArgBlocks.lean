import Pebbles.Exec
import Pebbles.Lib.Ledger

/-!
# The blocks of the argument copies

`copy_args` takes a block for the vector and one for every string, and `free_args` gives them
back. The ledger of the heap goes along; what the user strings are does not matter here, only
which of the calls fail.
-/

namespace Pebbles

open Words

/-- The blocks that `smalloc` returns in one `copy_args`, and which of the copies succeed. The words
of the new vector are what its memory held before. -/
structure ArgBlocks where
  argvecKern : Option Word
  uninit : Nat → Word
  arg : Nat → Option Word
  copied : Nat → Bool
  argEnd : Option Word

def vectorSize (numArgs : Nat) : Nat := (numArgs + 1) * 4 % 2 ^ 32

def freeArgs (argvec : Word) (slots : Nat → Word) (numArgs : Nat) (L : Ledger Word) : Ledger Word :=
  let L := (List.range numArgs).foldl (fun L i => L.release (slots i) ARGNAME_MAX) L
  let L := L.release (slots numArgs) 1
  L.release argvec (vectorSize numArgs)

namespace ArgBlocks

/-- The loop of `copy_args` from argument `i` on, with `n` left, and what comes after it. -/
def copyLoop (h : ArgBlocks) (argvec : Word) : Nat → Nat → (Nat → Word) → Ledger Word →
    Option (Nat → Word) × Ledger Word
  | 0, i, slots, L =>
    match h.argEnd with
    | none => (none, freeArgs argvec slots i L)
    | some arg => (some (Function.update slots i arg), L.grant arg 1)
  | n + 1, i, slots, L =>
    match h.arg i with
    | none => (none, freeArgs argvec slots i L)
    | some arg =>
      let L := L.grant arg ARGNAME_MAX
      if h.copied i then h.copyLoop argvec n (i + 1) (Function.update slots i arg) L
      else (none, freeArgs argvec slots i L)

def copyArgs (h : ArgBlocks) (numArgs : Nat) (L : Ledger Word) : Option (Word × (Nat → Word)) × Ledger Word :=
  match h.argvecKern with
  | none => (none, L)
  | some argvec =>
    match h.copyLoop argvec numArgs 0 h.uninit (L.grant argvec (vectorSize numArgs)) with
    | (none, L) => (none, L)
    | (some slots, L) => (some (argvec, slots), L)

/-- The ledger is restored: by `copy_args` itself when it fails, by `free_args` when it succeeds. As the ledger counts
the releases that name no block or the wrong size, there are none. -/
structure Released (h : ArgBlocks) (numArgs : Nat) (L : Ledger Word) : Prop where
  failed : (h.copyArgs numArgs L).1 = none → (h.copyArgs numArgs L).2 = L
  copied : ∀ argvec slots, (h.copyArgs numArgs L).1 = some (argvec, slots) →
    freeArgs argvec slots numArgs (h.copyArgs numArgs L).2 = L

def Complete (h : ArgBlocks) (numArgs : Nat) : Prop :=
  h.argvecKern.isSome = true ∧ (∀ i < numArgs, (h.arg i).isSome = true ∧ h.copied i = true) ∧ h.argEnd.isSome = true

def blocks (h : ArgBlocks) (numArgs : Nat) : List (Word × Nat) :=
  (h.argvecKern.getD 0#32, vectorSize numArgs) ::
    ((List.range numArgs).map (fun i => ((h.arg i).getD 0#32, ARGNAME_MAX)) ++ [(h.argEnd.getD 0#32, 1)])

def Fresh (h : ArgBlocks) (numArgs : Nat) (L : Ledger Word) : Prop :=
  ((h.blocks numArgs).map Prod.fst).Nodup ∧ ∀ b ∈ h.blocks numArgs, L.size b.1 = none

section
variable {h : ArgBlocks} {a : Word} {v : Nat → Word} {n i : Nat} {L K : Ledger Word}

theorem freeArgs_eq : freeArgs a v n L =
    L.releaseAll ((List.range n).map (fun i => (v i, ARGNAME_MAX)) ++ [(v n, 1), (a, vectorSize n)]) := by
  rw [Ledger.releaseAll_append, Ledger.releaseAll, Ledger.releaseAll, List.foldl_map]
  rfl

theorem vectorSize_ne_one : vectorSize n ≠ 1 := by
  unfold vectorSize
  omega

/-! ## Failure -/

/-- The ledger goes on from `L`: no block of one byte is new. -/
structure From (L K : Ledger Word) : Prop where
  wrong : L.wrong ≤ K.wrong
  ones : ∀ x, K.size x = some 1 → L.size x = some 1

theorem From.grant {p : Word} {m : Nat} (hL : From L K) (hm : m ≠ 1) : From L (K.grant p m) where
  wrong := hL.wrong
  ones x hx := by
    by_cases e : x = p
    · rw [e, Ledger.size_grant_self] at hx
      exact absurd (Option.some.inj hx) hm
    · rw [Ledger.size_grant_of_ne e] at hx
      exact hL.ones x hx

theorem From.freeArgs_ne (hL : From L K) : freeArgs a v n K ≠ L := by
  rw [freeArgs_eq]
  exact Ledger.releaseAll_ne hL.wrong hL.ones (p := v n) (by simp)

theorem copyLoop_failed (hL : From L K) (hr : (h.copyLoop a n i v K).1 = none) :
    (h.copyLoop a n i v K).2 ≠ L := by
  induction n generalizing i v K with
  | zero =>
    unfold copyLoop at hr ⊢
    cases he : h.argEnd with
    | none => exact hL.freeArgs_ne
    | some arg =>
      rw [he] at hr
      cases hr
  | succ n ih =>
    unfold copyLoop at hr ⊢
    cases ha : h.arg i with
    | none => exact hL.freeArgs_ne
    | some arg =>
      rw [ha] at hr
      have hL' : From L (K.grant arg ARGNAME_MAX) := hL.grant (by decide)
      dsimp only at hr ⊢
      by_cases hc : h.copied i = true
      · rw [if_pos hc] at hr ⊢
        exact ih hL' hr
      · rw [if_neg hc]
        exact hL'.freeArgs_ne

theorem copyLoop_complete (ha : ∀ j, i ≤ j → j < i + n → (h.arg j).isSome = true ∧ h.copied j = true)
    (he : h.argEnd.isSome = true) : ∃ v', h.copyLoop a n i v K =
      (some v', K.grantAll ((List.range' i n).map (fun j => ((h.arg j).getD 0#32, ARGNAME_MAX)) ++
        [(h.argEnd.getD 0#32, 1)])) ∧
      (∀ j < i, v' j = v j) ∧ (∀ j, i ≤ j → j < i + n → v' j = (h.arg j).getD 0#32) ∧
      v' (i + n) = h.argEnd.getD 0#32 := by
  induction n generalizing i v K with
  | zero =>
    obtain ⟨arg, he⟩ := Option.isSome_iff_exists.mp he
    unfold copyLoop
    rw [he]
    refine ⟨_, rfl, fun j hj => ?_, fun j h₁ h₂ => ?_, ?_⟩
    · exact Function.update_of_ne (by omega) ..
    · omega
    · exact Function.update_self ..
  | succ n ih =>
    obtain ⟨hsome, hc⟩ := ha i (Nat.le_refl _) (by omega)
    obtain ⟨arg, harg⟩ := Option.isSome_iff_exists.mp hsome
    obtain ⟨v', hloop, hlow, hset, hend⟩ := ih (i := i + 1) (v := Function.update v i arg)
      (K := K.grant arg ARGNAME_MAX) (fun j h₁ h₂ => ha j (by omega) (by omega))
    unfold copyLoop
    rw [harg]
    dsimp only
    rw [if_pos hc, hloop]
    refine ⟨v', ?_, fun j hj => ?_, fun j h₁ h₂ => ?_, ?_⟩
    · rw [List.range'_succ, List.map_cons, harg]
      rfl
    · rw [hlow j (by omega), Function.update_of_ne (by omega)]
    · by_cases e : j = i
      · rw [e, hlow i (by omega), Function.update_self, harg]
        rfl
      · exact hset j (by omega) (by omega)
    · rw [← hend]
      congr 1
      omega

/-! ## Success -/

theorem copyArgs_complete (hc : h.Complete n) : ∃ a slots, h.argvecKern = some a ∧
    h.copyArgs n L = (some (a, slots), L.grantAll (h.blocks n)) ∧ (∀ j < n, slots j = (h.arg j).getD 0#32) ∧
      slots n = h.argEnd.getD 0#32 := by
  obtain ⟨hvec, hargs, hend⟩ := hc
  obtain ⟨a, hvec⟩ := Option.isSome_iff_exists.mp hvec
  obtain ⟨slots, hloop, -, hset, hlast⟩ := copyLoop_complete (h := h) (a := a) (i := 0) (n := n) (v := h.uninit)
    (K := L.grant a (vectorSize n)) (fun j _ hj => hargs j (by omega)) hend
  rw [Nat.zero_add] at hlast
  refine ⟨a, slots, hvec, ?_, fun j hj => hset j (Nat.zero_le j) (by omega), hlast⟩
  unfold copyArgs blocks
  rw [hvec]
  dsimp only
  rw [hloop, List.range_eq_range']
  rfl

theorem freeArgs_complete (hf : h.Fresh n L) {slots : Nat → Word} (hv : h.argvecKern = some a)
    (hset : ∀ j < n, slots j = (h.arg j).getD 0#32) (hlast : slots n = h.argEnd.getD 0#32) :
    freeArgs a slots n (L.grantAll (h.blocks n)) = L := by
  rw [freeArgs_eq]
  refine Ledger.releaseAll_grantAll hf.1 hf.2 ?_
  have hmap : (List.range n).map (fun i => (slots i, ARGNAME_MAX)) =
      (List.range n).map fun i => ((h.arg i).getD 0#32, ARGNAME_MAX) := by
    refine List.map_congr_left fun i hi => ?_
    rw [hset i (List.mem_range.mp hi)]
  unfold blocks
  rw [hmap, hlast, hv, List.append_cons]
  exact List.perm_append_comm

theorem copyArgs_failed (hv : h.argvecKern = some a) (hr : (h.copyArgs n L).1 = none) : (h.copyArgs n L).2 ≠ L := by
  have hL : From L (L.grant a (vectorSize n)) := From.grant ⟨Nat.le_refl _, fun _ hx => hx⟩ vectorSize_ne_one
  unfold copyArgs at hr ⊢
  rw [hv] at hr ⊢
  dsimp only at hr ⊢
  have hloop := copyLoop_failed (h := h) (a := a) (i := 0) (n := n) (v := h.uninit) hL
  generalize h.copyLoop a n 0 h.uninit (L.grant a (vectorSize n)) = r at hr hloop ⊢
  obtain ⟨o, K⟩ := r
  cases o with
  | none => exact hloop rfl
  | some v => cases hr

theorem copyLoop_some (hr : (h.copyLoop a n i v K).1 ≠ none) :
    (∀ j, i ≤ j → j < i + n → (h.arg j).isSome = true ∧ h.copied j = true) ∧ h.argEnd.isSome = true := by
  induction n generalizing i v K with
  | zero =>
    refine ⟨fun j h₁ h₂ => by omega, ?_⟩
    unfold copyLoop at hr
    cases he : h.argEnd with
    | none =>
      rw [he] at hr
      exact absurd rfl hr
    | some arg => rfl
  | succ n ih =>
    unfold copyLoop at hr
    cases ha : h.arg i with
    | none =>
      rw [ha] at hr
      exact absurd rfl hr
    | some arg =>
      rw [ha] at hr
      dsimp only at hr
      by_cases hc : h.copied i = true
      · rw [if_pos hc] at hr
        obtain ⟨hargs, he⟩ := ih hr
        refine ⟨fun j h₁ h₂ => ?_, he⟩
        by_cases e : j = i
        · rw [e, ha]
          exact ⟨rfl, hc⟩
        · exact hargs j (by omega) (by omega)
      · rw [if_neg hc] at hr
        exact absurd rfl hr

theorem copyArgs_some_iff : (h.copyArgs n L).1 ≠ none ↔ h.Complete n := by
  constructor
  · intro hr
    unfold copyArgs at hr
    cases hv : h.argvecKern with
    | none =>
      rw [hv] at hr
      exact absurd rfl hr
    | some a =>
      rw [hv] at hr
      dsimp only at hr
      have hloop := copyLoop_some (h := h) (a := a) (i := 0) (n := n) (v := h.uninit) (K := L.grant a (vectorSize n))
      generalize h.copyLoop a n 0 h.uninit (L.grant a (vectorSize n)) = r at hr hloop
      obtain ⟨o, K⟩ := r
      cases o with
      | none => exact absurd rfl hr
      | some v =>
        obtain ⟨hargs, he⟩ := hloop (Option.some_ne_none v)
        exact ⟨by rw [hv]; rfl, fun j hj => hargs j (Nat.zero_le j) (by omega), he⟩
  · intro hc
    obtain ⟨a, slots, -, hcopy, -⟩ := copyArgs_complete (L := L) hc
    rw [hcopy]
    exact Option.some_ne_none _

theorem argument_blocks_released_iff (hf : h.Complete n → h.Fresh n L) :
    h.Released n L ↔ h.argvecKern = none ∨ h.Complete n := by
  constructor
  · intro hrel
    cases hv : h.argvecKern with
    | none => exact .inl rfl
    | some a =>
      refine .inr ((copyArgs_some_iff (L := L)).mp fun hnone => ?_)
      exact copyArgs_failed hv hnone (hrel.failed hnone)
  · rintro (hnone | hc)
    · have hcopy : h.copyArgs n L = (none, L) := by
        unfold copyArgs
        rw [hnone]
      refine ⟨fun _ => by rw [hcopy], fun a slots hs => ?_⟩
      rw [hcopy] at hs
      cases hs
    · obtain ⟨a, slots, hv, hcopy, hset, hlast⟩ := copyArgs_complete (L := L) hc
      refine ⟨fun hnone => absurd hnone (copyArgs_some_iff.mpr hc), fun a' slots' hs => ?_⟩
      rw [hcopy] at hs ⊢
      cases hs
      exact freeArgs_complete (hf hc) hv hset hlast

/-! ## The copies of exec -/

def argCopied (s : Vm) (argvec : Word) (i : Nat) : Bool :=
  match s.readWord (argvec + BitVec.ofNat 32 (4 * i)) with
  | none => false
  | some ptr =>
    match s.copyUserData ptr ARGNAME_MAX with
    | none => false
    | some (r, _) => decide (¬ r < 0)

structure Of (heap : ExecHeap) (s : Vm) (argvec : Word) (h : ArgBlocks) : Prop where
  vector : h.argvecKern.isSome = heap.argvecKern
  args : ∀ i, (h.arg i).isSome = heap.arg i
  last : h.argEnd.isSome = heap.argEnd
  copied : ∀ i, h.copied i = argCopied s argvec i

variable {heap : ExecHeap} {s : Vm}

theorem copyArgStrings_some {r : Option (List (List Byte))} (ho : Of heap s a h)
    (hr : s.copyArgStrings heap a n i = some r) :
    r.isSome = true ↔ ∀ j, i ≤ j → j < i + n → (h.arg j).isSome = true ∧ h.copied j = true := by
  induction n generalizing i r with
  | zero =>
    cases hr
    refine ⟨fun _ j h₁ h₂ => by omega, fun _ => rfl⟩
  | succ n ih =>
    have hcases : (∀ j, i ≤ j → j < i + (n + 1) → (h.arg j).isSome = true ∧ h.copied j = true) ↔
        ((h.arg i).isSome = true ∧ h.copied i = true) ∧
          ∀ j, i + 1 ≤ j → j < i + 1 + n → (h.arg j).isSome = true ∧ h.copied j = true := by
      refine ⟨fun hall => ⟨hall i (by omega) (by omega), fun j h₁ h₂ => hall j (by omega) (by omega)⟩,
        fun hall j h₁ h₂ => ?_⟩
      by_cases e : j = i
      · exact e ▸ hall.1
      · exact hall.2 j (by omega) (by omega)
    rw [hcases, ho.args, ho.copied]
    unfold Vm.copyArgStrings at hr
    unfold argCopied
    by_cases hheap : heap.arg i = true
    · rw [if_pos hheap] at hr
      cases hread : s.readWord (a + BitVec.ofNat 32 (4 * i)) with
      | none =>
        rw [hread] at hr
        cases hr
      | some ptr =>
        rw [hread] at hr
        dsimp only at hr ⊢
        cases hcopy : s.copyUserData ptr ARGNAME_MAX with
        | none =>
          rw [hcopy] at hr
          cases hr
        | some x =>
          obtain ⟨res, arg⟩ := x
          rw [hcopy] at hr
          dsimp only at hr ⊢
          by_cases hneg : res < 0
          · rw [if_pos hneg] at hr
            cases hr
            simp [hneg]
          · rw [if_neg hneg] at hr
            cases hrest : s.copyArgStrings heap a n (i + 1) with
            | none =>
              rw [hrest] at hr
              cases hr
            | some o =>
              rw [hrest] at hr
              rw [← ih hrest]
              cases o with
              | none =>
                cases hr
                simp
              | some args =>
                cases hr
                simp [hheap, hneg]
    · rw [if_neg hheap] at hr
      cases hr
      simp [hheap]

theorem copyArgs_of {r : Option (List (List Byte))} (ho : Of heap s a h) (hr : s.copyArgs heap n a = some r) :
    (h.copyArgs n L).1 ≠ none ↔ r.isSome = true := by
  rw [copyArgs_some_iff]
  unfold Complete
  rw [ho.vector, ho.last]
  unfold Vm.copyArgs at hr
  by_cases hv : heap.argvecKern = true
  · rw [if_pos hv] at hr
    cases hs : s.copyArgStrings heap a n 0 with
    | none =>
      rw [hs] at hr
      cases hr
    | some o =>
      rw [hs] at hr
      have hiff := copyArgStrings_some ho hs
      simp only [Nat.zero_le, Nat.zero_add, true_implies] at hiff
      rw [← hiff]
      cases o with
      | none =>
        cases hr
        simp
      | some args =>
        dsimp only at hr
        by_cases he : heap.argEnd = true
        · rw [if_pos he] at hr
          cases hr
          simp [hv, he]
        · rw [if_neg he] at hr
          cases hr
          simp [he]
  · rw [if_neg hv] at hr
    cases hr
    simp [hv]

end

def twoArgs (good : Nat) : ArgBlocks where
  argvecKern := some 0x1000#32
  uninit _ := 0#32
  arg i := some (0x2000#32 + BitVec.ofNat 32 (0x100 * i))
  copied i := i < good
  argEnd := some 0x3000#32

def emptyLedger : Ledger Word := ⟨fun _ => none, 0⟩

theorem argument_blocks_released_two : (twoArgs 2).Released 2 emptyLedger :=
  (argument_blocks_released_iff fun _ => ⟨by decide, fun _ _ => rfl⟩).mpr (.inr ⟨rfl, by decide, rfl⟩)

/-- The second string cannot be copied: its block and the vector stay out, and two releases are wrong. -/
theorem argument_blocks_leaked : ((twoArgs 1).copyArgs 2 emptyLedger).1 = none ∧
    ((twoArgs 1).copyArgs 2 emptyLedger).2.size 0x2100#32 = some ARGNAME_MAX ∧
    ((twoArgs 1).copyArgs 2 emptyLedger).2.size 0x1000#32 = some 12 ∧
    ((twoArgs 1).copyArgs 2 emptyLedger).2.wrong = 2 := by
  refine ⟨rfl, ?_, ?_, ?_⟩ <;> decide +kernel

end ArgBlocks

end Pebbles
