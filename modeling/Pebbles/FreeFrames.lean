import Pebbles.FramesSound
import Pebbles.Lib.Runs

/-!
# The frame allocator by itself

Runs of `allocate_frame` and `deallocate_frame` on a machine of any size. The
links of allocated frames are left as they were, so nothing is known of them; the
walk from the head still meets each unallocated frame once and then the end.
-/

namespace Pebbles

open Words Stack Runs

def FREE_FRAMES_COUNT (machinePhysFrames : Nat) : Nat := machinePhysFrames - USER_MEM_START / PAGE_SIZE

structure MachineSize (machinePhysFrames : Nat) : Prop where
  user : USER_MEM_START / PAGE_SIZE < machinePhysFrames
  reached : machinePhysFrames * PAGE_SIZE ≤ 2 ^ 32

/-- The loop of `check_physical_memory`. `none`: the end is not met. -/
def countFreeFrames : Nat → Word → Nat → Frames → Option (Nat × Frames)
  | fuel, first, freeCount, fr =>
    if first = FREE_FRAME_LIST_END then some (freeCount, fr)
    else
      match fuel with
      | 0 => none
      | fuel + 1 =>
        let fr := kernelAssert (USER_MEM_START ≤ first.toNat) fr
        let fr := kernelAssert (first ≤ FREE_FRAME_LIST_END) fr
        countFreeFrames fuel (fr.freeFramesArr (frameIndex first)) (freeCount + 1) fr

def checkPhysicalMemory (fuel : Nat) (fr : Frames) : Option (Nat × Frames) :=
  countFreeFrames fuel fr.freeListHead 0 fr

structure FrameRun where
  frames : Frames
  allocated : Finset Word

namespace FrameRun

def Booted (machinePhysFrames : Nat) (x : FrameRun) : Prop :=
  x = ⟨initFreeList (FREE_FRAMES_COUNT machinePhysFrames), ∅⟩

inductive Step : FrameRun → FrameRun → Prop
  | allocate {x : FrameRun} {f : Word} {fr : Frames} (h : allocateFrame x.frames = (some f, fr)) :
    Step x ⟨fr, insert f x.allocated⟩
  | refuse {x : FrameRun} {fr : Frames} (h : allocateFrame x.frames = (none, fr)) : Step x ⟨fr, x.allocated⟩
  | deallocate {x : FrameRun} {f : Word} (h : f ∈ x.allocated) :
    Step x ⟨deallocateFrame f x.frames, x.allocated.erase f⟩

structure Inv (machinePhysFrames : Nat) (x : FrameRun) : Prop where
  count : x.frames.freeFramesCount = FREE_FRAMES_COUNT machinePhysFrames
  frames : ∀ f ∈ x.allocated, IsFrame x.frames f
  list : ∃ l, FreeList x.frames l (· ∈ x.allocated)

structure Exact (machinePhysFrames : Nat) (x : FrameRun) (l : List Word) : Prop where
  count : x.frames.freeFramesCount = FREE_FRAMES_COUNT machinePhysFrames
  calm : x.frames.panicked = false
  walk : Chain (nextFree x.frames) FREE_FRAME_LIST_END x.frames.freeListHead l
  once : l.Nodup
  unallocated : ∀ f, f ∈ l ↔ IsFrame x.frames f ∧ f ∉ x.allocated
  top : (allocateFrame x.frames).1 = l.head?
  null : (allocateFrame x.frames).1 = none ↔ x.allocated.card = FREE_FRAMES_COUNT machinePhysFrames
  fresh : ∀ f, (allocateFrame x.frames).1 = some f → IsFrame x.frames f ∧ f ∉ x.allocated
  counted : ∀ fuel, FREE_FRAMES_COUNT machinePhysFrames ≤ fuel →
    checkPhysicalMemory fuel x.frames = some (FREE_FRAMES_COUNT machinePhysFrames - x.allocated.card, x.frames)

end FrameRun

theorem FreeList.congr {fr : Frames} {l : List Word} {used used' : Word → Prop} (h : FreeList fr l used)
    (hu : ∀ f, used f ↔ used' f) : FreeList fr l used' :=
  (funext fun f => propext (hu f) : used = used') ▸ h

theorem card_frames {fr : Frames} {A : Finset Word} (hn : USER_MEM_START + fr.freeFramesCount * PAGE_SIZE ≤ 2 ^ 32)
    (hA : ∀ f, f ∈ A ↔ IsFrame fr f) : A.card = fr.freeFramesCount := by
  have himage : A = (Finset.range fr.freeFramesCount).image frameAt := by
    ext f
    rw [hA, Finset.mem_image]
    constructor
    · intro hf
      exact ⟨frameIndex f, Finset.mem_range.mpr hf.2.2, frameAt_frameIndex hf⟩
    · rintro ⟨i, hi, rfl⟩
      exact isFrame_frameAt fr hn (Finset.mem_range.mp hi)
  rw [himage, Finset.card_image_of_injOn, Finset.card_range]
  intro i hi j hj he
  have hi := frameIndex_frameAt hn (Finset.mem_range.mp hi)
  have hj := frameIndex_frameAt hn (Finset.mem_range.mp hj)
  rw [← hi, ← hj]
  exact congrArg frameIndex he

theorem FreeList.length {fr : Frames} {l : List Word} {A : Finset Word} (h : FreeList fr l (· ∈ A))
    (hA : ∀ f ∈ A, IsFrame fr f) : l.length + A.card = fr.freeFramesCount := by
  have hdisj : Disjoint l.toFinset A :=
    Finset.disjoint_left.mpr fun f hf => ((h.mem f).mp (List.mem_toFinset.mp hf)).2
  rw [← List.toFinset_card_of_nodup h.chain.nodup, ← Finset.card_union_of_disjoint hdisj]
  refine card_frames h.fits fun f => ?_
  rw [Finset.mem_union, List.mem_toFinset, h.mem]
  have := hA f
  tauto

theorem countFreeFrames_chain {fr : Frames} {l : List Word} (hl : ∀ f ∈ l, USER_MEM_START ≤ f.toNat) {first : Word}
    (h : Chain (nextFree fr) FREE_FRAME_LIST_END first l) (fuel freeCount : Nat) (hf : l.length ≤ fuel) :
    countFreeFrames fuel first freeCount fr = some (freeCount + l.length, fr) := by
  induction l generalizing first fuel freeCount with
  | nil =>
    unfold countFreeFrames
    exact if_pos h
  | cons f l ih =>
    obtain ⟨rfl, hne, h⟩ := h
    cases fuel with
    | zero => simp at hf
    | succ fuel =>
      have hlow := hl first List.mem_cons_self
      have hhigh : first ≤ FREE_FRAME_LIST_END := BitVec.le_def.mpr (by have := first.isLt; show _ ≤ 4294967295; omega)
      have hrest := ih (fun f hm => hl f (List.mem_cons_of_mem _ hm)) h fuel (freeCount + 1) (by simpa using hf)
      unfold countFreeFrames
      rw [if_neg hne]
      simp only [kernelAssert, hlow, hhigh, decide_true, if_true]
      rw [List.length_cons, Nat.add_comm l.length 1, ← Nat.add_assoc]
      exact hrest

namespace FrameRun

variable {n : Nat} {x y : FrameRun}

theorem Booted.inv (hn : MachineSize n) (h : Booted n x) : Inv n x := by
  unfold Booted at h
  have hpos : 0 < FREE_FRAMES_COUNT n := Nat.sub_pos_of_lt hn.user
  have hfits : USER_MEM_START + FREE_FRAMES_COUNT n * PAGE_SIZE ≤ 2 ^ 32 := by
    have := hn.reached
    have := hn.user
    unfold FREE_FRAMES_COUNT USER_MEM_START PAGE_SIZE at *
    omega
  rw [h]
  exact ⟨rfl, by simp, _, (freeList_init hpos hfits).congr (by simp)⟩

theorem Inv.step (h : Inv n x) (hs : Step x y) : Inv n y := by
  obtain ⟨l, hl⟩ := h.list
  cases hs with
  | allocate ha =>
    cases l with
    | nil =>
      rw [hl.exhausted] at ha
      cases ha
    | cons g l =>
      obtain ⟨ha', hl'⟩ := hl.allocate
      rw [ha'] at ha
      obtain ⟨hg, rfl⟩ := Prod.mk.inj ha
      cases hg
      have hnew := ((hl.mem _).mp List.mem_cons_self).1
      refine ⟨h.count, fun f hf => ?_, l, hl'.congr fun f => ?_⟩
      · cases Finset.mem_insert.mp hf with
        | inl e => exact e ▸ hnew
        | inr hf => exact h.frames f hf
      · rw [Finset.mem_insert, or_comm]
  | refuse ha =>
    cases l with
    | nil =>
      rw [hl.exhausted] at ha
      cases ha
      exact h
    | cons g l =>
      rw [hl.allocate.1] at ha
      cases ha
  | deallocate hf =>
    have hnew := hl.deallocate (h.frames _ hf) hf
    rw [deallocateFrame_frame x.frames (h.frames _ hf)] at hnew ⊢
    refine ⟨h.count, fun g hg => h.frames g (Finset.mem_of_mem_erase hg), _, hnew.congr fun g => ?_⟩
    rw [Finset.mem_erase, and_comm]

theorem Inv.exact (h : Inv n x) : ∃ l, Exact n x l := by
  obtain ⟨l, hl⟩ := h.list
  have hlen := hl.length h.frames
  rw [h.count] at hlen
  have htop : (allocateFrame x.frames).1 = l.head? := by
    cases l with
    | nil => rw [hl.exhausted, List.head?_nil]
    | cons f l => rw [hl.allocate.1, List.head?_cons]
  refine ⟨l, h.count, hl.calm, hl.chain, hl.chain.nodup, hl.mem, htop, ?_, fun f hf => ?_, fun fuel hfuel => ?_⟩
  · rw [htop, List.head?_eq_none_iff, ← List.length_eq_zero_iff]
    omega
  · rw [htop] at hf
    exact (hl.mem f).mp (List.mem_of_mem_head? hf)
  · have hcount := countFreeFrames_chain (fun f hf => ((hl.mem f).mp hf).1.2.1) hl.chain fuel 0 (by omega)
    have he : 0 + l.length = FREE_FRAMES_COUNT n - x.allocated.card := by omega
    rw [← he]
    exact hcount

theorem free_list_exact (hn : MachineSize n) (hx : Reach (Booted n) Step x) : ∃ l, Exact n x l :=
  (hx.invariant (P := Inv n) (fun _ => Booted.inv hn) fun _ _ h hs => h.step hs).exact

/-- Both frames of a machine with two of them handed out, and one given back. -/
theorem free_list_exact_two :
    MachineSize 4098 ∧ ∃ x, Reach (Booted 4098) Step x ∧ x.allocated = {frameAt 1} ∧ ∃ l, Exact 4098 x l := by
  have hn : MachineSize 4098 := ⟨by decide, by decide⟩
  have h₀ : Reach (Booted 4098) Step ⟨initFreeList 2, ∅⟩ := .start rfl
  have h₁ := h₀.tail (.allocate rfl)
  have h₂ := h₁.tail (.allocate rfl)
  have h₃ := h₂.tail (.deallocate (f := frameAt 0) (by decide))
  exact ⟨hn, _, h₃, by decide, free_list_exact hn h₃⟩

end FrameRun

end Pebbles
