import Pebbles.Frames

/-!
# Counts and free list against the references

`Agree fr R`: with `R f` references to each frame `f`, the counts are exact,
the free list holds exactly the frames without a reference, and no assertion
has failed. Each allocator operation keeps `Agree` for the references after it.
-/

namespace Pebbles

open Words Stack

def plus (R : Word → Nat) (l : List Word) (f : Word) : Nat := R f + l.count f

theorem plus_nil (R : Word → Nat) : plus R [] = R := by
  funext f; simp [plus]

theorem plus_plus (R : Word → Nat) (l m : List Word) : plus (plus R l) m = plus R (l ++ m) := by
  funext f; simp only [plus, List.count_append]; omega

theorem plus_comm (R : Word → Nat) (l m : List Word) : plus (plus R l) m = plus (plus R m) l := by
  funext f; simp only [plus]; omega

theorem plus_self (R : Word → Nat) (f : Word) : plus R [f] f = R f + 1 := by simp [plus]

theorem plus_ne (R : Word → Nat) {f g : Word} (h : g ≠ f) : plus R [f] g = R g := by
  simp [plus, Ne.symm h]

def nextFree (fr : Frames) (f : Word) : Word := fr.freeFramesArr (frameIndex f)

def OnFreeList (fr : Frames) (f : Word) : Prop :=
  ∃ l, Chain (nextFree fr) FREE_FRAME_LIST_END fr.freeListHead l ∧ f ∈ l

structure FreeList (fr : Frames) (l : List Word) (used : Word → Prop) : Prop where
  fits : USER_MEM_START + fr.freeFramesCount * PAGE_SIZE ≤ 2 ^ 32
  calm : fr.panicked = false
  chain : Chain (nextFree fr) FREE_FRAME_LIST_END fr.freeListHead l
  mem : ∀ f, f ∈ l ↔ IsFrame fr f ∧ ¬ used f

structure Agree (fr : Frames) (R : Word → Nat) : Prop where
  fits : USER_MEM_START + fr.freeFramesCount * PAGE_SIZE ≤ 2 ^ 32
  calm : fr.panicked = false
  frames : ∀ f, R f ≠ 0 → IsFrame fr f
  counts : ∀ f, IsFrame fr f → fr.frameRefCount (frameIndex f) = R f
  free : ∃ l, Chain (nextFree fr) FREE_FRAME_LIST_END fr.freeListHead l ∧ ∀ f, f ∈ l ↔ IsFrame fr f ∧ R f = 0

section
variable {fr : Frames} {R : Word → Nat}

theorem Agree.congr {R' : Word → Nat} (h : Agree fr R) (he : ∀ f, R f = R' f) : Agree fr R' :=
  (funext he : R = R') ▸ h

theorem Agree.onFreeList (h : Agree fr R) (f : Word) : OnFreeList fr f ↔ IsFrame fr f ∧ R f = 0 := by
  obtain ⟨l, hl, hm⟩ := h.free
  rw [← hm f]
  constructor
  · rintro ⟨l', hl', hf'⟩
    rwa [hl'.unique hl] at hf'
  · intro hf
    exact ⟨l, hl, hf⟩

theorem Agree.onFreeList_iff (h : Agree fr R) {f : Word} (hf : IsFrame fr f) : OnFreeList fr f ↔ R f = 0 :=
  (h.onFreeList f).trans (and_iff_right hf)

theorem chain_initFreeList {n : Nat} (h₁ : 0 < n) (hn : USER_MEM_START + n * PAGE_SIZE ≤ 2 ^ 32) :
    Chain (nextFree (initFreeList n)) FREE_FRAME_LIST_END (initFreeList n).freeListHead ((List.range' 0 n).map frameAt) := by
  let fr := initFreeList n
  refine chain_range (nextFree fr) FREE_FRAME_LIST_END frameAt n (fun i hi => (isFrame_frameAt fr hn hi).ne_end)
    (fun i hi => ?_) n 0 (by omega) h₁
  show fr.freeFramesArr (frameIndex (frameAt i)) = _
  rw [frameIndex_frameAt hn hi]
  by_cases h : i + 1 < n
  · rw [if_pos h]; exact if_pos (by omega)
  · rw [if_neg h]; exact if_neg (by omega)

theorem freeList_init {n : Nat} (h₁ : 0 < n) (hn : USER_MEM_START + n * PAGE_SIZE ≤ 2 ^ 32) :
    FreeList (initFreeList n) ((List.range' 0 n).map frameAt) fun _ => False := by
  refine ⟨hn, rfl, chain_initFreeList h₁ hn, fun f => ?_⟩
  simp only [List.mem_map, List.mem_range'_1, not_false_eq_true, and_true]
  constructor
  · rintro ⟨i, ⟨-, hi⟩, rfl⟩
    have hi : i < n := by omega
    exact isFrame_frameAt (initFreeList n) hn hi
  · intro hf
    have hi : frameIndex f < n := hf.2.2
    exact ⟨frameIndex f, ⟨Nat.zero_le _, by omega⟩, frameAt_frameIndex hf⟩

section
variable {used : Word → Prop} {f : Word} {l : List Word}

theorem FreeList.exhausted (h : FreeList fr [] used) : allocateFrame fr = (none, fr) := if_pos h.chain

theorem FreeList.allocate (h : FreeList fr (f :: l) used) :
    allocateFrame fr = (some f, { fr with freeListHead := nextFree fr f }) ∧
      FreeList { fr with freeListHead := nextFree fr f } l fun g => used g ∨ g = f := by
  obtain ⟨rfl, hne, hl⟩ := h.chain
  have hf : IsFrame fr fr.freeListHead := ((h.mem _).mp (by simp)).1
  have hal : fr.freeListHead &&& PAGE_ALIGNMENT_CHECK = 0#32 := hf.1
  have hi := hf.2.2
  refine ⟨?_, h.fits, h.calm, hl, fun g => ?_⟩
  · unfold allocateFrame
    rw [if_neg hne]
    simp [kernelAssert, hal, hi, nextFree]
  · have hm := h.mem g
    show g ∈ l ↔ IsFrame fr g ∧ _
    by_cases e : g = fr.freeListHead
    · have hnot := (List.nodup_cons.mp h.chain.nodup).1
      simpa [e] using hnot
    · simp only [List.mem_cons, e, false_or] at hm
      simpa [e] using hm

theorem FreeList.deallocate (h : FreeList fr l used) (hf : IsFrame fr f) (hu : used f) :
    FreeList (deallocateFrame f fr) (f :: l) fun g => used g ∧ g ≠ f := by
  have hfl : f ∉ l := fun hm => ((h.mem f).mp hm).2 hu
  rw [deallocateFrame_frame fr hf]
  refine ⟨h.fits, h.calm, h.chain.push hf.ne_end (if_pos rfl) fun g hg => ?_, fun g => ?_⟩
  · have hg' := ((h.mem g).mp hg).1
    exact if_neg fun he => hfl (frameIndex_inj hg' hf he ▸ hg)
  · show g ∈ f :: l ↔ IsFrame fr g ∧ _
    by_cases e : g = f
    · simpa [e] using hf
    · have hm := h.mem g
      simpa [e] using hm

theorem FreeList.addRefCount (h : FreeList fr l used) (f : Word) (d : Int) : FreeList (addRefCount f d fr) l used :=
  ⟨h.fits, h.calm, h.chain, h.mem⟩

end

theorem Agree.freeList (h : Agree fr R) : ∃ l, FreeList fr l fun f => R f ≠ 0 := by
  obtain ⟨l, hl, hm⟩ := h.free
  exact ⟨l, h.fits, h.calm, hl, fun f => (hm f).trans (and_congr_right' not_not.symm)⟩

theorem FreeList.free {l : List Word} {used : Word → Prop} (h : FreeList fr l used) (hu : ∀ f, used f ↔ R f ≠ 0) :
    ∃ l, Chain (nextFree fr) FREE_FRAME_LIST_END fr.freeListHead l ∧ ∀ f, f ∈ l ↔ IsFrame fr f ∧ R f = 0 :=
  ⟨l, h.chain, fun f => (h.mem f).trans (and_congr_right' ((not_congr (hu f)).trans not_not))⟩

theorem agree_initFreeList {n : Nat} (h₁ : 0 < n) (hn : USER_MEM_START + n * PAGE_SIZE ≤ 2 ^ 32) :
    Agree (initFreeList n) fun _ => 0 :=
  ⟨hn, rfl, fun _ h => absurd rfl h, fun _ _ => rfl, (freeList_init h₁ hn).free (by simp)⟩

theorem Agree.addRefCount {R' : Word → Nat} {f : Word} {d : Int} (h : Agree fr R) (hf : IsFrame fr f)
    (hd : (R' f : Int) = R f + d) (hne : ∀ g, g ≠ f → R' g = R g) (hz : R' f = 0 ↔ R f = 0) :
    Agree (addRefCount f d fr) R' := by
  refine ⟨h.fits, h.calm, fun g hg => ?_, fun g hg => ?_, ?_⟩
  · by_cases e : g = f
    · exact e ▸ hf
    · exact h.frames g (hne g e ▸ hg)
  · have hc := h.counts g hg
    show (if frameIndex g = frameIndex f then fr.frameRefCount (frameIndex g) + d else _) = _
    by_cases e : g = f
    · subst e; rw [if_pos rfl, hc, hd]
    · rw [if_neg fun he => e (frameIndex_inj hg hf he), hc, hne g e]
  · obtain ⟨l, hl, hm⟩ := h.free
    refine ⟨l, hl, fun g => (hm g).trans ?_⟩
    by_cases e : g = f
    · subst e; rw [hz]; exact Iff.rfl
    · rw [hne g e]; exact Iff.rfl

theorem Agree.allocate {f : Word} {fr' : Frames} (h : Agree fr R) (ha : allocateFrame fr = (some f, fr')) :
    IsFrame fr f ∧ R f = 0 ∧ fr'.freeFramesCount = fr.freeFramesCount ∧
      Agree (Pebbles.addRefCount f 1 fr') (plus R [f]) := by
  obtain ⟨l, hl⟩ := h.freeList
  cases l with
  | nil =>
    rw [hl.exhausted] at ha
    cases ha
  | cons g l =>
    obtain ⟨ha', hl'⟩ := hl.allocate
    rw [ha'] at ha
    obtain ⟨hg, rfl⟩ := Prod.mk.inj ha
    cases hg
    obtain ⟨hf, hR⟩ := (hl.mem f).mp List.mem_cons_self
    have hR : R f = 0 := not_not.mp hR
    refine ⟨hf, hR, rfl, h.fits, h.calm, fun g hg => ?_, fun g hg => ?_, (hl'.addRefCount f 1).free fun g => ?_⟩
    · by_cases e : g = f
      · exact e ▸ hf
      · exact h.frames g (plus_ne R e ▸ hg)
    · have hc := h.counts g hg
      show (if frameIndex g = frameIndex f then fr.frameRefCount (frameIndex g) + 1 else _) = _
      by_cases e : g = f
      · rw [if_pos (by rw [e]), hc, e, plus_self]; simp
      · rw [if_neg fun he => e (frameIndex_inj hg hf he), plus_ne R e]; exact hc
    · -- the head leaves the list and gains its first reference
      by_cases e : g = f
      · simp [e, plus_self]
      · simp [e, plus_ne R e]

theorem Agree.inc {f : Word} (h : Agree fr R) (hf : R f ≠ 0) : Agree (incRefCount f fr) (plus R [f]) := by
  have hfr := h.frames f hf
  rw [incRefCount_frame hfr]
  refine h.addRefCount hfr ?_ (fun g hg => plus_ne R hg) ?_
  · rw [plus_self]; simp
  · rw [plus_self]; omega

theorem Agree.sub {f : Word} (h : Agree fr (plus R [f])) (hf : R f ≠ 0) : Agree (Pebbles.addRefCount f (-1) fr) R := by
  have hfr := h.frames f (by rw [plus_self]; omega)
  refine h.addRefCount hfr ?_ (fun g hg => (plus_ne R hg).symm) ?_
  · rw [plus_self]; omega
  · rw [plus_self]; omega

theorem Agree.last {f : Word} (h : Agree fr (plus R [f])) (hf : R f = 0) :
    Agree (deallocateFrame f (Pebbles.addRefCount f (-1) fr)) R := by
  have hfr : IsFrame fr f := h.frames f (by rw [plus_self]; omega)
  obtain ⟨l, hl⟩ := h.freeList
  have hused : plus R [f] f ≠ 0 := by rw [plus_self]; omega
  have hnew := (hl.addRefCount f (-1)).deallocate hfr hused
  rw [deallocateFrame_frame (Pebbles.addRefCount f (-1) fr) hfr] at hnew ⊢
  refine ⟨hnew.fits, hnew.calm, fun g hg => ?_, fun g hg => ?_, hnew.free fun g => ?_⟩
  · refine h.frames g ?_
    simp only [plus]
    omega
  · have hc := h.counts g hg
    show (if frameIndex g = frameIndex f then fr.frameRefCount (frameIndex g) + -1 else _) = _
    by_cases e : g = f
    · subst e; rw [if_pos rfl, hc, plus_self]; omega
    · rw [if_neg fun he => e (frameIndex_inj hg hfr he), hc, plus_ne R e]
  · by_cases e : g = f
    · simp [e, hf]
    · simp [e, plus_ne R e]

theorem Agree.drop {f : Word} (check : Bool) (h : Agree fr (plus R [f])) : Agree (dropRefCount check f fr) R := by
  have hfr : IsFrame fr f := h.frames f (by rw [plus_self]; omega)
  have hc : (Pebbles.addRefCount f (-1) fr).frameRefCount (frameIndex f) = R f := by
    show (if frameIndex f = frameIndex f then fr.frameRefCount (frameIndex f) + -1 else _) = _
    rw [if_pos rfl, h.counts f hfr, plus_self]
    omega
  have hck : (if check then kernelAssert ((Pebbles.addRefCount f (-1) fr).frameRefCount (frameIndex f) ≥ 0)
      (Pebbles.addRefCount f (-1) fr) else Pebbles.addRefCount f (-1) fr) = Pebbles.addRefCount f (-1) fr := by
    rw [hc]
    simp [kernelAssert]
  unfold dropRefCount
  dsimp only
  rw [lockFrame_frame hfr, hck, hc]
  by_cases hf : R f = 0
  · rw [if_pos (by rw [hf]; rfl)]
    have := h.last hf
    rw [deallocateFrame_frame (Pebbles.addRefCount f (-1) fr) hfr] at this ⊢
    rwa [unlockFrame_frame]
    exact hfr
  · rw [if_neg (by omega)]
    have := h.sub hf
    rwa [unlockFrame_frame]
    exact hfr

theorem Agree.incAll {l : List Word} (h : Agree fr R) (hl : ∀ f ∈ l, R f ≠ 0) :
    Agree (l.foldl (fun fr f => incRefCount f fr) fr) (plus R l) := by
  induction l generalizing fr R with
  | nil => rw [plus_nil]; exact h
  | cons f l ih =>
    have := ih (h.inc (hl f (by simp))) fun g hg => by
      have := hl g (by simp [hg])
      simp only [plus]
      omega
    rwa [plus_plus] at this

theorem Agree.dropAll {l : List Word} (check : Bool) (h : Agree fr (plus R l)) :
    Agree (l.foldl (fun fr f => dropRefCount check f fr) fr) R := by
  induction l generalizing fr with
  | nil => rwa [plus_nil] at h
  | cons f l ih =>
    refine ih (Agree.drop check ?_)
    rw [plus_plus]
    refine h.congr fun g => ?_
    simp only [plus, List.count_append, List.count_cons, List.count_nil]
    omega

theorem addRefCount_comm (f g : Word) (c d : Int) (fr : Frames) :
    addRefCount f c (addRefCount g d fr) = addRefCount g d (addRefCount f c fr) := by
  simp only [Pebbles.addRefCount, Frames.mk.injEq, true_and, and_true]
  funext i
  split_ifs <;> omega

theorem Agree.move {f g : Word} {fr' : Frames} (h : Agree fr (plus R [f])) (hf : R f ≠ 0)
    (ha : allocateFrame fr = (some g, fr')) :
    IsFrame fr g ∧ plus R [f] g = 0 ∧ fr'.freeFramesCount = fr.freeFramesCount ∧
      Agree (incRefCount g (Pebbles.addRefCount f (-1) fr')) (plus R [g]) := by
  obtain ⟨hg, h0, hn, h'⟩ := h.allocate ha
  refine ⟨hg, h0, hn, ?_⟩
  have hg' : IsFrame (Pebbles.addRefCount f (-1) fr') g := ⟨hg.1, hg.2.1, hn.symm ▸ hg.2.2⟩
  rw [incRefCount_frame hg', addRefCount_comm]
  rw [plus_comm] at h'
  refine h'.sub ?_
  simp only [plus]
  omega

theorem Agree.determines {fr' : Frames} (h : Agree fr R) (h' : Agree fr' R)
    (hn : fr'.freeFramesCount = fr.freeFramesCount) {f : Word} (hf : IsFrame fr f) :
    fr'.frameRefCount (frameIndex f) = fr.frameRefCount (frameIndex f) ∧ (OnFreeList fr' f ↔ OnFreeList fr f) := by
  have hf' : IsFrame fr' f := ⟨hf.1, hf.2.1, hn.symm ▸ hf.2.2⟩
  rw [h.counts f hf, h'.counts f hf', h.onFreeList_iff hf, h'.onFreeList_iff hf']
  exact ⟨rfl, Iff.rfl⟩

end

/-! ## Frames left -/

def FramesLeft (k : Nat) (fr : Frames) : Prop :=
  ∃ l, Chain (nextFree fr) FREE_FRAME_LIST_END fr.freeListHead l ∧ k ≤ l.length

theorem kernelAssert_arr (p : Bool) (fr : Frames) : (kernelAssert p fr).freeFramesArr = fr.freeFramesArr := by
  cases p <;> rfl

theorem kernelAssert_head (p : Bool) (fr : Frames) : (kernelAssert p fr).freeListHead = fr.freeListHead := by
  cases p <;> rfl

theorem FramesLeft.mono {k m : Nat} {fr : Frames} (h : FramesLeft k fr) (hm : m ≤ k) : FramesLeft m fr := by
  obtain ⟨l, hl, hk⟩ := h
  exact ⟨l, hl, hm.trans hk⟩

theorem FramesLeft.congr {k : Nat} {fr fr' : Frames} (h : FramesLeft k fr) (ha : fr'.freeFramesArr = fr.freeFramesArr)
    (hh : fr'.freeListHead = fr.freeListHead) : FramesLeft k fr' := by
  unfold FramesLeft nextFree at h ⊢
  rw [ha, hh]
  exact h

theorem FramesLeft.incRefCount {k : Nat} {fr : Frames} (h : FramesLeft k fr) (f : Word) :
    FramesLeft k (incRefCount f fr) := by
  apply h.congr <;> simp [Pebbles.incRefCount, unlockFrame, lockFrame, addRefCount, kernelAssert_arr, kernelAssert_head]

theorem FramesLeft.allocate {k : Nat} {fr : Frames} (h : FramesLeft (k + 1) fr) :
    ∃ f fr', allocateFrame fr = (some f, fr') ∧ FramesLeft k fr' := by
  obtain ⟨l, hl, hk⟩ := h
  cases l with
  | nil => simp at hk
  | cons f l =>
    obtain ⟨rfl, hne, hl⟩ := hl
    unfold allocateFrame
    rw [if_neg hne]
    refine ⟨_, _, rfl, l, ?_, by simpa using hk⟩
    unfold nextFree at hl ⊢
    simpa only [kernelAssert_arr, kernelAssert_head] using hl

theorem FramesLeft.of_allocate {k : Nat} {fr fr' : Frames} {f : Word} (ha : allocateFrame fr = (some f, fr'))
    (h : FramesLeft k fr') : FramesLeft (k + 1) fr := by
  obtain ⟨l, hl, hk⟩ := h
  unfold allocateFrame at ha
  split at ha
  · cases ha
  · rename_i hne
    simp only [Prod.mk.injEq, Option.some.injEq] at ha
    obtain ⟨rfl, rfl⟩ := ha
    refine ⟨fr.freeListHead :: l, ⟨rfl, hne, ?_⟩, by simpa using hk⟩
    unfold nextFree at hl ⊢
    simpa only [kernelAssert_arr, kernelAssert_head] using hl

/-! ## The number of frames -/

section
variable (p : Bool) (f : Word) (d : Int) (fr : Frames)

@[simp]
theorem kernelAssert_count : (kernelAssert p fr).freeFramesCount = fr.freeFramesCount := by
  cases p <;> rfl

@[simp]
theorem lockFrame_count : (lockFrame f fr).freeFramesCount = fr.freeFramesCount := by simp [lockFrame]

@[simp]
theorem addRefCount_count : (addRefCount f d fr).freeFramesCount = fr.freeFramesCount := rfl

@[simp]
theorem deallocateFrame_count : (deallocateFrame f fr).freeFramesCount = fr.freeFramesCount := by
  simp [deallocateFrame]

@[simp]
theorem incRefCount_count : (incRefCount f fr).freeFramesCount = fr.freeFramesCount := by
  simp [incRefCount, unlockFrame]

@[simp]
theorem dropRefCount_count : (dropRefCount p f fr).freeFramesCount = fr.freeFramesCount := by
  simp only [dropRefCount, unlockFrame, lockFrame_count]
  split_ifs <;> simp

@[simp]
theorem allocateFrame_count : (allocateFrame fr).2.freeFramesCount = fr.freeFramesCount := by
  unfold allocateFrame
  split <;> simp

end

/-! ## Failed assertions

A failed assertion stays recorded. -/

section
variable {fr fr' : Frames} {f : Word}

theorem kernelAssert_panicked {p : Bool} (h : (kernelAssert p fr).panicked = false) :
    p = true ∧ fr.panicked = false := by
  cases p with
  | true => exact ⟨rfl, h⟩
  | false => cases h

theorem lockFrame_panicked (h : (lockFrame f fr).panicked = false) : fr.panicked = false :=
  (kernelAssert_panicked (kernelAssert_panicked h).2).2

theorem incRefCount_panicked (h : (incRefCount f fr).panicked = false) : fr.panicked = false := by
  have h₁ : (addRefCount f 1 (lockFrame f fr)).panicked = false := lockFrame_panicked h
  exact lockFrame_panicked (f := f) h₁

theorem allocateFrame_panicked (ha : allocateFrame fr = (some f, fr')) (h : fr'.panicked = false) :
    Aligned f ∧ fr.panicked = false := by
  unfold allocateFrame at ha
  split at ha
  · simp at ha
  · simp only [Prod.mk.injEq, Option.some.injEq] at ha
    obtain ⟨rfl, rfl⟩ := ha
    obtain ⟨hal, hp⟩ := kernelAssert_panicked (kernelAssert_panicked h).2
    exact ⟨of_decide_eq_true hal, hp⟩

end

end Pebbles
