import Pebbles.Page
import Pebbles.Lib.Stack

/-!
# The frame allocator and the reference counts

`frame_allocator.c` keeps the free user frames on a stack threaded through
`free_frames_arr`; `vm.c` counts in `frame_ref_count` the page table entries
that map a frame. `Agree` compares both with the references there really are.
-/

namespace Pebbles

open Words Stack

def FREE_FRAME_LIST_END : Word := 0xFFFFFFFF
def PAGE_ALIGNMENT_CHECK : Word := 0x00000fff

/-- The allocator's arrays. `panicked` records a failed `kernel_assert`, after
which the kernel does not go on. -/
structure Frames where
  freeFramesCount : Nat
  freeFramesArr : Nat → Word
  freeListHead : Word
  frameRefCount : Nat → Int
  panicked : Bool

def frameIndex (a : Word) : Nat := (a - BitVec.ofNat 32 USER_MEM_START).toNat / PAGE_SIZE

def kernelAssert (p : Bool) (fr : Frames) : Frames := if p then fr else { fr with panicked := true }

def initFreeList (freeFramesCount : Nat) : Frames where
  freeFramesCount := freeFramesCount
  freeFramesArr i :=
    if i < freeFramesCount - 1 then BitVec.ofNat 32 (USER_MEM_START + (i + 1) * PAGE_SIZE)
    else FREE_FRAME_LIST_END
  freeListHead := BitVec.ofNat 32 USER_MEM_START
  frameRefCount _ := 0
  panicked := false

def allocateFrame (fr : Frames) : Option Word × Frames :=
  if fr.freeListHead = FREE_FRAME_LIST_END then (none, fr)
  else
    let frameAddr := fr.freeListHead
    let fr := { fr with freeListHead := fr.freeFramesArr (frameIndex frameAddr) }
    let fr := kernelAssert (frameAddr &&& PAGE_ALIGNMENT_CHECK = 0#32) fr
    let fr := kernelAssert (frameIndex frameAddr < fr.freeFramesCount) fr
    (some frameAddr, fr)

def deallocateFrame (frameAddr : Word) (fr : Frames) : Frames :=
  let fr := kernelAssert (frameAddr &&& PAGE_ALIGNMENT_CHECK = 0#32) fr
  let fr := kernelAssert (frameAddr ≠ 0#32) fr
  let fr := kernelAssert (frameIndex frameAddr < fr.freeFramesCount) fr
  { fr with
    freeFramesArr := fun i => if i = frameIndex frameAddr then fr.freeListHead else fr.freeFramesArr i
    freeListHead := frameAddr }

-- The lock itself is free whenever it is asked for: calls run one at a time here.
def lockFrame (frameAddr : Word) (fr : Frames) : Frames :=
  let fr := kernelAssert (frameAddr ≠ 0#32) fr
  kernelAssert (frameIndex frameAddr < fr.freeFramesCount) fr

def unlockFrame (frameAddr : Word) (fr : Frames) : Frames := lockFrame frameAddr fr

def addRefCount (frameAddr : Word) (d : Int) (fr : Frames) : Frames :=
  { fr with frameRefCount := fun i => if i = frameIndex frameAddr then fr.frameRefCount i + d else fr.frameRefCount i }

def incRefCount (frameAddr : Word) (fr : Frames) : Frames :=
  unlockFrame frameAddr (addRefCount frameAddr 1 (lockFrame frameAddr fr))

/-- One reference less, and the frame freed with its last one, as in
`unmap_new_pages`; `free_page_table` also asserts the count (`check`). -/
def dropRefCount (check : Bool) (frameAddr : Word) (fr : Frames) : Frames :=
  let fr := addRefCount frameAddr (-1) (lockFrame frameAddr fr)
  let fr := if check then kernelAssert (fr.frameRefCount (frameIndex frameAddr) ≥ 0) fr else fr
  let fr := if fr.frameRefCount (frameIndex frameAddr) = 0 then deallocateFrame frameAddr fr else fr
  unlockFrame frameAddr fr

/-! ## User frames -/

def IsFrame (fr : Frames) (f : Word) : Prop :=
  Aligned f ∧ USER_MEM_START ≤ f.toNat ∧ frameIndex f < fr.freeFramesCount

instance (fr : Frames) (f : Word) : Decidable (IsFrame fr f) :=
  inferInstanceAs (Decidable (Aligned f ∧ USER_MEM_START ≤ f.toNat ∧ frameIndex f < fr.freeFramesCount))

theorem frameIndex_val {f : Word} (h : USER_MEM_START ≤ f.toNat) : frameIndex f = (f.toNat - 0x01000000) / 4096 := by
  unfold USER_MEM_START at h
  have := f.isLt
  show (f - 0x01000000#32).toNat / 4096 = _
  rw [BitVec.toNat_sub]
  simp only [BitVec.toNat_ofNat]
  omega

theorem frameIndex_inj {fr : Frames} {f g : Word} (hf : IsFrame fr f) (hg : IsFrame fr g)
    (h : frameIndex f = frameIndex g) : f = g := by
  obtain ⟨af, uf, -⟩ := hf
  obtain ⟨ag, ug, -⟩ := hg
  rw [frameIndex_val uf, frameIndex_val ug] at h
  rw [aligned_iff] at af ag
  unfold USER_MEM_START at uf ug
  apply BitVec.eq_of_toNat_eq
  omega

theorem IsFrame.ne_zero {fr : Frames} {f : Word} (h : IsFrame fr f) : f ≠ 0#32 := by
  rintro rfl
  exact absurd h.2.1 (by decide)

theorem IsFrame.ne_end {fr : Frames} {f : Word} (h : IsFrame fr f) : f ≠ FREE_FRAME_LIST_END := by
  rintro rfl
  exact absurd h.1 (by decide)

def frameAt (i : Nat) : Word := BitVec.ofNat 32 (USER_MEM_START + i * PAGE_SIZE)

theorem frameAt_toNat {n i : Nat} (hn : USER_MEM_START + n * PAGE_SIZE ≤ 2 ^ 32) (hi : i < n) :
    (frameAt i).toNat = 0x01000000 + i * 4096 := by
  have : 0x01000000 + i * 4096 < 2 ^ 32 := by
    unfold USER_MEM_START PAGE_SIZE at hn; omega
  exact (BitVec.toNat_ofNat ..).trans (Nat.mod_eq_of_lt this)

theorem frameIndex_frameAt {n i : Nat} (hn : USER_MEM_START + n * PAGE_SIZE ≤ 2 ^ 32) (hi : i < n) :
    frameIndex (frameAt i) = i := by
  have ht := frameAt_toNat hn hi
  rw [frameIndex_val (by rw [ht]; unfold USER_MEM_START; omega), ht]
  omega

theorem isFrame_frameAt (fr : Frames) {i : Nat} (hn : USER_MEM_START + fr.freeFramesCount * PAGE_SIZE ≤ 2 ^ 32)
    (hi : i < fr.freeFramesCount) : IsFrame fr (frameAt i) := by
  have ht := frameAt_toNat hn hi
  refine ⟨?_, ?_, ?_⟩
  · rw [aligned_iff, ht]; omega
  · rw [ht]; unfold USER_MEM_START; omega
  · rw [frameIndex_frameAt hn hi]; exact hi

theorem frameAt_frameIndex {fr : Frames} {f : Word} (hf : IsFrame fr f) : frameAt (frameIndex f) = f := by
  obtain ⟨af, uf, -⟩ := hf
  rw [frameIndex_val uf]
  rw [aligned_iff] at af
  unfold USER_MEM_START at uf
  have := f.isLt
  have hs : 0x01000000 + (f.toNat - 0x01000000) / 4096 * 4096 = f.toNat := by omega
  show BitVec.ofNat 32 (0x01000000 + (f.toNat - 0x01000000) / 4096 * 4096) = f
  rw [hs, BitVec.ofNat_toNat, BitVec.setWidth_eq]

/-! ## Assertions that hold -/

theorem lockFrame_frame {fr : Frames} {f : Word} (h : IsFrame fr f) : lockFrame f fr = fr := by
  have hz := h.ne_zero
  have hi := h.2.2
  simp [lockFrame, kernelAssert, hz, hi]

theorem unlockFrame_frame (fr : Frames) {f : Word} (h : IsFrame fr f) : unlockFrame f fr = fr :=
  lockFrame_frame h

theorem deallocateFrame_frame (fr : Frames) {f : Word} (h : IsFrame fr f) :
    deallocateFrame f fr = { fr with
      freeFramesArr := fun i => if i = frameIndex f then fr.freeListHead else fr.freeFramesArr i
      freeListHead := f } := by
  have ha : f &&& PAGE_ALIGNMENT_CHECK = 0#32 := h.1
  have hz := h.ne_zero
  have hi := h.2.2
  simp [deallocateFrame, kernelAssert, ha, hz, hi]

theorem incRefCount_frame {fr : Frames} {f : Word} (h : IsFrame fr f) : incRefCount f fr = addRefCount f 1 fr := by
  unfold incRefCount
  rw [lockFrame_frame h]
  exact unlockFrame_frame (addRefCount f 1 fr) h

end Pebbles
