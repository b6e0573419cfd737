import Pebbles.RemovePages
import Pebbles.SegmentAccess

/-!
# Runs of new_pages and remove_pages

A task and the tasks forked from it call `new_pages` and `remove_pages` and take
copy-on-write faults. What is recorded of a region are two bits in the entries of its
pages, which faults and forks carry along; beside them a run keeps the set of regions of
each address space.
-/

namespace Pebbles

open Words Runs

namespace Vm

section
variable {s s' : Vm} {pd pd' newPd va base len : Word} {r : Int}

/-! ## Marks that stay -/

theorem getNewpageFlags_cowEntry (e : Word) : getNewpageFlags (cowEntry e) = getNewpageFlags e := by
  by_cases h : e = PAGE_TABLE_ENTRY_DEFAULT
  · rw [h, cowEntry_default]
  · apply getNewpageFlags_congr
    · rw [bit_cowEntry h (by decide)]
      rfl
    · rw [bit_cowEntry h (by decide)]
      rfl

theorem getNewpageFlags_cowDone {e f : Word} (hf : Aligned f) : getNewpageFlags (cowDone e f) = getNewpageFlags e := by
  apply getNewpageFlags_congr
  · rw [bit_cowDone hf (by decide)]
    rfl
  · rw [bit_cowDone hf (by decide)]
    rfl

theorem marks_of_tables (h : s.Inv) (h' : s'.Inv) (hpd : pd ∈ s.pds) (hpd' : pd' ∈ s'.pds)
    (hT : ∀ {i t}, TableAt s.toTables pd i t → ∃ t', TableAt s'.toTables pd' i t' ∧
      ∀ j, getNewpageFlags (s'.kmem t' j) = getNewpageFlags (s.kmem t j))
    (hN : ∀ {i t'}, TableAt s'.toTables pd' i t' → ∃ t, TableAt s.toTables pd i t) (va : Word) :
    getNewpageFlags (s'.pte pd' va) = getNewpageFlags (s.pte pd va) := by
  rw [pte_eq_entry, pte_eq_entry]
  by_cases hk : (getPdIndex va).val < KERNEL_MAP_NUM_ENTRIES
  · rw [h.kernel_entry hpd hk, h'.kernel_entry hpd' hk]
  have hu := Nat.le_of_not_lt hk
  by_cases ht : ∃ t, TableAt s.toTables pd (getPdIndex va) t
  · obtain ⟨t, ht⟩ := ht
    obtain ⟨t', ht', he⟩ := hT ht
    rw [ht.entry, ht'.entry]
    exact he _
  · -- neither has a table, so both read the default entry
    have hdef : s.entry pd (getPdIndex va) (getPtIndex va) = PAGE_TABLE_ENTRY_DEFAULT := by
      by_contra hne
      exact ht ⟨_, h.kernel.tableAt hpd hu hne⟩
    have hdef' : s'.entry pd' (getPdIndex va) (getPtIndex va) = PAGE_TABLE_ENTRY_DEFAULT := by
      by_contra hne
      exact ht (hN (h'.kernel.tableAt hpd' hu hne))
    rw [hdef, hdef']

theorem forked_marks (h : s.Inv) (hpd : pd ∈ s.pds) (hc : clonePagingInfo pd s = (some newPd, s')) :
    (∀ va, getNewpageFlags (s'.pte newPd va) = getNewpageFlags (s.pte pd va)) ∧
      ∀ pd' ∈ s.pds, ∀ va, getNewpageFlags (s'.pte pd' va) = getNewpageFlags (s.pte pd' va) := by
  obtain ⟨use, ho⟩ := h.owned
  have h' := clonePagingInfo_inv h hpd hc
  obtain ⟨-, hf, -, -⟩ := clonePagingInfo_some ho hpd hc
  have hnew : newPd ∈ s'.pds := hf.pds ▸ Finset.mem_insert_self newPd s.pds
  have hcow : ∀ {t t' : Word}, (s'.kmem t' = fun j => cowEntry (s.kmem t j)) →
      ∀ j, getNewpageFlags (s'.kmem t' j) = getNewpageFlags (s.kmem t j) := by
    intro t t' he j
    rw [he]
    exact getNewpageFlags_cowEntry _
  constructor
  · refine marks_of_tables h h' hpd hnew (fun ht => ?_) fun ht' => ?_
    · obtain ⟨t', ht', he⟩ := hf.child ht
      exact ⟨t', ht', hcow he⟩
    · rcases hf.back ht' with ht | ⟨-, t, ht, -⟩
      · exact absurd ht.live hf.fresh
      · exact ⟨t, ht⟩
  · intro pd' hpd'
    refine marks_of_tables h h' hpd' (hf.pds ▸ Finset.mem_insert_of_mem hpd') (fun {i t} ht => ?_) fun ht' => ?_
    · by_cases e : pd' = pd
      · subst e
        obtain ⟨ht', he⟩ := hf.own ht
        exact ⟨t, ht', hcow he⟩
      · obtain ⟨ht', he⟩ := hf.other e ht
        exact ⟨t, ht', fun j => by rw [he]⟩
    · rcases hf.back ht' with ht | ⟨rfl, -⟩
      · exact ⟨_, ht⟩
      · exact absurd hpd' hf.fresh

theorem unforked_marks (h : s.Inv) (hpd : pd ∈ s.pds) (hc : clonePagingInfo pd s = (none, s')) (hpd' : pd' ∈ s.pds)
    (va : Word) : getNewpageFlags (s'.pte pd' va) = getNewpageFlags (s.pte pd' va) := by
  obtain ⟨use, ho⟩ := h.owned
  have h' := clonePagingInfo_inv h hpd hc
  obtain ⟨-, hext, -, -, hback⟩ := clonePagingInfo_none ho hpd hc
  refine marks_of_tables h h' hpd' (hext.pds ▸ hpd') (fun {i t} ht => ?_) (fun ht' => ⟨_, hback ht'⟩) va
  obtain ⟨ht', he⟩ := hext.tables ht
  exact ⟨t, ht', fun j => by rw [he]⟩

theorem handleCow_marks (h : s.Inv) (hpd : s.cr3 ∈ s.pds) {addr : Word} (hcow : isAddrCow addr s = true)
    (hc : handleCow addr s = (r, s')) : s'.Inv ∧ s'.pds = s.pds ∧ s'.cr3 = s.cr3 ∧
      ∀ pd ∈ s.pds, ∀ va, getNewpageFlags (s'.pte pd va) = getNewpageFlags (s.pte pd va) := by
  obtain ⟨hu, hp, -⟩ := isAddrCow_true hcow
  obtain ⟨h', ⟨-, hs⟩ | ⟨-, f, m, hf, -, hw, -⟩⟩ := handleCow_spec h hpd (user_index hu) hp hc
  · refine ⟨h', hs.pds, hs.cr3, fun pd hpd' va => ?_⟩
    rw [pte_eq_entry, hs.entry pd hpd']
    rfl
  · refine ⟨h', hw.pds, hw.cr3, fun pd hpd' va => ?_⟩
    rw [hw.pte hpd']
    split_ifs with he
    · rw [getNewpageFlags_cowDone hf, he.1, pte_same_page s.cr3 he.2]
    · rfl

theorem newPages_result (h : s.Inv) (hpd : s.cr3 ∈ s.pds) (hfit : base.toNat + len.toNat < 2 ^ 32)
    (hm : newPagesHandlerC base len s = some (r, s')) (hr : r ≠ ERR_NOMEM) :
    s'.Inv ∧ (r = 0 ∨ r = ERR_INVAL ∧ s' = s) := by
  by_cases ha : Accepted base len s
  · rw [newPages_accepted ha] at hm
    refine ⟨(mapNewPages_writes h hpd ha.user (toNat_of_pos ha.pos).1 hfit hm).1, Or.inl ?_⟩
    obtain ⟨r', s₁, hs₁, hr'⟩ := ha.mapNewPages h hpd hfit
    rw [hs₁] at hm
    cases hm
    exact hr'.resolve_right hr
  · rw [newPages_refused (Inv.kernelMapped h hpd) ha] at hm
    cases hm
    exact ⟨h, Or.inr ⟨rfl, rfl⟩⟩

theorem mapPage_frames (pd flags va : Word) (s : Vm) :
    (mapPage pd flags va s).2.fr.freeFramesCount = s.fr.freeFramesCount := by
  rw [mapPage_eq]
  cases ht : tableFor pd (getPdIndex va) s with
  | none => rfl
  | some s₁ =>
    have hfr : s₁.fr = s.fr := by
      unfold tableFor at ht
      split at ht
      · obtain ⟨a, -, rfl⟩ := Option.map_eq_some_iff.mp ht
        rfl
      · cases ht
        rfl
    rw [← hfr]
    dsimp only
    unfold fillEntry
    split
    · have hcount := allocateFrame_count s₁.fr
      cases ha : allocateFrame s₁.fr with
      | mk o fr =>
        rw [ha] at hcount
        cases o with
        | none => exact hcount
        | some f =>
          dsimp only
          rw [zeroFill_fr]
          exact (incRefCount_count f fr).trans hcount
    · rfl

theorem mapNewPages_frames (hm : mapNewPages base len s = some (r, s')) :
    s'.fr.freeFramesCount = s.fr.freeFramesCount := by
  have hpage : ∀ s₁ va ok s₂, s₁.fr.freeFramesCount = s.fr.freeFramesCount →
      mapPage s.cr3 NEW_PAGES_FLAGS va s₁ = (ok, s₂) → s₂.fr.freeFramesCount = s.fr.freeFramesCount := by
    intro s₁ va ok s₂ h₁ hp
    have hcount := mapPage_frames s.cr3 NEW_PAGES_FLAGS va s₁
    rw [hp] at hcount
    exact hcount.trans h₁
  cases hs : mapSegment base len s.cr3 NEW_PAGES_FLAGS s with
  | none =>
    unfold mapNewPages at hm
    dsimp only at hm
    rw [hs] at hm
    cases hm
  | some x =>
    obtain ⟨r₁, s₁⟩ := x
    have hfr := mapPages_rule hpage (s := s.setCurPd s.cr3) rfl hs
    by_cases hr : r₁ < 0
    · rw [mapNewPages_failed hs hr] at hm
      cases hm
      exact hfr
    · rw [mapNewPages_ok hs (Int.not_lt.mp hr)] at hm
      cases hm
      exact hfr

/-! ## What a removal does -/

/-- The pages of the region were mapped and are no longer, no other entry of any
directory changed, and the frames whose count went to 0 were put on the free list. -/
structure Removed (g : Region) (s s' : Vm) : Prop where
  mapped : ∀ va, g.Has va → bit (s.pte s.cr3 va) 0 = true
  unmapped : ∀ va, g.Has va → s'.pte s.cr3 va = PAGE_TABLE_ENTRY_DEFAULT
  others : ∀ pd ∈ s.pds, ∀ va, ¬ (pd = s.cr3 ∧ g.Has va) → s'.pte pd va = s.pte pd va
  freed : ∀ f, OnFreeList s'.fr f ↔ OnFreeList s.fr f ∨
    (IsFrame s.fr f ∧ s.fr.frameRefCount (frameIndex f) ≠ 0 ∧ s'.fr.frameRefCount (frameIndex f) = 0)

structure Restored (s s' : Vm) : Prop where
  pds : s'.pds = s.pds
  entries : ∀ pd ∈ s.pds, ∀ va, s'.pte pd va = s.pte pd va
  counts : ∀ f, IsFrame s.fr f → s'.fr.frameRefCount (frameIndex f) = s.fr.frameRefCount (frameIndex f)
  free : ∀ f, OnFreeList s'.fr f ↔ OnFreeList s.fr f

theorem isFrame_congr (hn : s'.fr.freeFramesCount = s.fr.freeFramesCount) (f : Word) :
    IsFrame s'.fr f ↔ IsFrame s.fr f := by
  unfold IsFrame
  rw [hn]

theorem Clears.removed {g : Region} (h : s.Inv) (hpd : s.cr3 ∈ s.pds)
    (hmark : ∀ va, g.Has va → getNewpageFlags (s.pte s.cr3 va) ≠ 0#32)
    (hc : Clears s.cr3 g.base.toNat (g.base.toNat + g.len.toNat) s s') : Removed g s s' := by
  refine ⟨fun va hin => ?_, fun va hin => hc.inside va hin.1 hin.2, hc.outside, fun f => ?_⟩
  · obtain ⟨ht, hD⟩ := tableAt_of_mark h hpd (hmark va hin)
    exact (h.entries ht hD).1
  · rw [hc.inv.agree.onFreeList, h.agree.onFreeList, isFrame_congr hc.frames]
    by_cases hf : IsFrame s.fr f
    · have hle := hc.refs f
      rw [h.agree.counts f hf, hc.inv.agree.counts f ((isFrame_congr hc.frames f).mpr hf)]
      simp only [hf, true_and, Nat.cast_ne_zero, Nat.cast_eq_zero]
      omega
    · simp [hf]

theorem restored_of_entries (h : s.Inv) (h' : s'.Inv) (hp : s'.pds = s.pds)
    (hn : s'.fr.freeFramesCount = s.fr.freeFramesCount) (he : ∀ pd ∈ s.pds, ∀ va, s'.pte pd va = s.pte pd va) :
    Restored s s' := by
  have hagree : Agree s'.fr (refs s.toTables) := refs_of_pte h.kernel h'.kernel hp he ▸ h'.agree
  refine ⟨hp, he, fun f hf => (h.agree.determines hagree hn hf).1, fun f => ?_⟩
  rw [hagree.onFreeList, h.agree.onFreeList, isFrame_congr hn]

theorem newPages_undone {gs : Finset Region} (hd : Decoded s.cr3 gs s) (h : s.Inv) (hpd : s.cr3 ∈ s.pds)
    (hfit : base.toNat + len.toNat < 2 ^ 32) (hm : newPagesHandlerC base len s = some (0, s')) :
    ∃ s'', removePagesHandlerC base s' = some (0, s'') ∧ Restored s s'' := by
  obtain ⟨hdone, habs, hd'⟩ := hd.insert h hpd hfit hm
  obtain ⟨h', -⟩ := newPages_result h hpd hfit hm (by decide)
  have hframes : s'.fr.freeFramesCount = s.fr.freeFramesCount := by
    have ha : Accepted base len s := by
      by_contra ha
      rw [newPages_refused (Inv.kernelMapped h hpd) ha] at hm
      cases hm
    rw [newPages_accepted ha] at hm
    exact mapNewPages_frames hm
  rw [← hdone.cr3] at hd'
  have hpd' : s'.cr3 ∈ s'.pds := by
    rw [hdone.cr3, hdone.pds]
    exact hpd
  obtain ⟨s'', hr, hc⟩ := hd'.removes h' hpd' (Finset.mem_insert_self ⟨base, len⟩ gs)
  refine ⟨s'', hr, restored_of_entries h hc.inv (hc.pds.trans hdone.pds) (hc.frames.trans hframes) fun pd hpd₁ va => ?_⟩
  by_cases hin : pd = s.cr3 ∧ InRegion base len va
  · obtain ⟨rfl, hin⟩ := hin
    rw [habs va hin, ← hdone.cr3]
    exact hc.inside va hin.1 hin.2
  · rw [hc.outside pd (hdone.pds ▸ hpd₁) va (hdone.cr3 ▸ hin)]
    exact hdone.entries pd hpd₁ va hin

end

end Vm

open Vm

/-- Memory, the address spaces of a task and of the tasks forked from it, and the regions
that were mapped in each and not removed since. -/
structure RegionRun where
  vm : Vm
  tasks : Finset Word
  regions : Word → Finset Region

namespace RegionRun

structure Started (x : RegionRun) : Prop where
  inv : x.vm.Inv
  live : x.vm.cr3 ∈ x.vm.pds
  tasks : x.tasks = {x.vm.cr3}
  unmarked : ∀ va, getNewpageFlags (x.vm.pte x.vm.cr3 va) = 0#32
  regions : x.regions x.vm.cr3 = ∅

def here (x : RegionRun) : Finset Region := x.regions x.vm.cr3

def setHere (x : RegionRun) (gs : Finset Region) : Word → Finset Region := Function.update x.regions x.vm.cr3 gs

inductive Step : RegionRun → RegionRun → Prop
  | newPages {x : RegionRun} {base len : Word} {r : Int} {vm : Vm} (hfit : base.toNat + len.toNat < 2 ^ 32)
    (h : newPagesHandlerC base len x.vm = some (r, vm)) (hr : r ≠ ERR_NOMEM) :
    Step x { x with vm := vm, regions := if r = 0 then x.setHere (insert ⟨base, len⟩ x.here) else x.regions }
  | removePages {x : RegionRun} {base : Word} {r : Int} {vm : Vm} (h : removePagesHandlerC base x.vm = some (r, vm)) :
    Step x { x with vm := vm, regions := if r = 0 then x.setHere (x.here.filter (·.base ≠ base)) else x.regions }
  | handleCow {x : RegionRun} {addr : Word} {r : Int} {vm : Vm} (hcow : isAddrCow addr x.vm = true)
    (h : Vm.handleCow addr x.vm = (r, vm)) : Step x { x with vm := vm }
  | fork {x : RegionRun} {newPd : Word} {vm : Vm} (h : clonePagingInfo x.vm.cr3 x.vm = (some newPd, vm)) :
    Step x ⟨vm, insert newPd x.tasks, Function.update x.regions newPd x.here⟩
  | forkFailed {x : RegionRun} {vm : Vm} (h : clonePagingInfo x.vm.cr3 x.vm = (none, vm)) : Step x { x with vm := vm }
  | switch {x : RegionRun} {pd : Word} (h : pd ∈ x.tasks) : Step x { x with vm := x.vm.setCurPd pd }

structure Inv (x : RegionRun) : Prop where
  vm : x.vm.Inv
  current : x.vm.cr3 ∈ x.tasks
  live : ∀ pd ∈ x.tasks, pd ∈ x.vm.pds
  decoded : ∀ pd ∈ x.tasks, Decoded pd (x.regions pd) x.vm

section
variable {x y : RegionRun} {vm : Vm} {gs : Finset Region}

theorem Started.invariant (h : Started x) : Inv x := by
  refine ⟨h.inv, ?_, ?_, ?_⟩
  · simp [h.tasks]
  · simpa [h.tasks] using h.live
  · have hd : Decoded x.vm.cr3 ∅ x.vm := ⟨by simp, by simp, by simp, fun va _ => h.unmarked va⟩
    simpa [h.tasks, h.regions] using hd

theorem Inv.keeps (h : Inv x) (hvm : vm.Inv) (hcr : vm.cr3 = x.vm.cr3) (hpds : vm.pds = x.vm.pds)
    (he : ∀ pd ∈ x.vm.pds, ∀ va, getNewpageFlags (vm.pte pd va) = getNewpageFlags (x.vm.pte pd va)) :
    Inv { x with vm := vm } :=
  ⟨hvm, hcr ▸ h.current, fun pd hpd => hpds ▸ h.live pd hpd, fun pd hpd => (h.decoded pd hpd).congr
  (he pd (h.live pd hpd))⟩

theorem Inv.here (h : Inv x) (hvm : vm.Inv) (hcr : vm.cr3 = x.vm.cr3) (hpds : vm.pds = x.vm.pds)
    (hd : Decoded x.vm.cr3 gs vm) (he : ∀ pd ∈ x.vm.pds, pd ≠ x.vm.cr3 → ∀ va, vm.pte pd va = x.vm.pte pd va) :
    Inv { x with vm := vm, regions := x.setHere gs } := by
  refine ⟨hvm, hcr ▸ h.current, fun pd hpd => hpds ▸ h.live pd hpd, fun pd hpd => ?_⟩
  show Decoded pd (Function.update x.regions x.vm.cr3 gs pd) vm
  by_cases e : pd = x.vm.cr3
  · rw [e, Function.update_self]
    exact hd
  · rw [Function.update_of_ne e]
    exact (h.decoded pd hpd).congr fun va => by rw [he pd (h.live pd hpd) e va]

theorem Inv.step (h : Inv x) (hs : Step x y) : Inv y := by
  have hpd := h.live _ h.current
  have hd : Decoded x.vm.cr3 x.here x.vm := h.decoded _ h.current
  cases hs with
  | newPages hfit hm hr =>
    obtain ⟨hvm, rfl | ⟨rfl, rfl⟩⟩ := newPages_result h.vm hpd hfit hm hr
    · obtain ⟨hdone, -, hd'⟩ := hd.insert h.vm hpd hfit hm
      exact h.here hvm hdone.cr3 hdone.pds hd' fun pd hpd' e va => hdone.entries pd hpd' va fun hin => e hin.1
    · exact h
  | @removePages base r vm hm =>
    by_cases hany : ∃ g ∈ x.here, g.base = base
    · obtain ⟨g, hg, rfl⟩ := hany
      obtain ⟨s', hr, hc⟩ := hd.removes h.vm hpd hg
      rw [hr] at hm
      cases hm
      exact h.here hc.inv hc.cr3 hc.pds (hd.removed hpd hg hc) fun pd hpd' e va => hc.outside pd hpd' va fun hin =>
        e hin.1
    · rw [hd.refuses fun g hg e => hany ⟨g, hg, e⟩] at hm
      cases hm
      exact h
  | handleCow hcow hm =>
    obtain ⟨hvm, hpds, hcr, he⟩ := handleCow_marks h.vm hpd hcow hm
    exact h.keeps hvm hcr hpds he
  | @fork newPd vm hm =>
    obtain ⟨use, ho⟩ := h.vm.owned
    obtain ⟨-, hf, hcr, -⟩ := clonePagingInfo_some ho hpd hm
    obtain ⟨hchild, he⟩ := forked_marks h.vm hpd hm
    refine ⟨clonePagingInfo_inv h.vm hpd hm, ?_, fun pd hpd' => ?_, fun pd hpd' => ?_⟩
    · rw [hcr]
      exact Finset.mem_insert_of_mem h.current
    · show pd ∈ vm.toTables.pds
      rw [hf.pds]
      exact Finset.insert_subset_insert newPd (fun pd hpd => h.live pd hpd) hpd'
    · show Decoded pd (Function.update x.regions newPd x.here pd) vm
      by_cases e : pd = newPd
      · rw [e, Function.update_self]
        exact hd.congr hchild
      · have hold := (Finset.mem_insert.mp hpd').resolve_left e
        rw [Function.update_of_ne e]
        exact (h.decoded pd hold).congr (he pd (h.live pd hold))
  | forkFailed hm =>
    obtain ⟨use, ho⟩ := h.vm.owned
    obtain ⟨-, hext, hcr, -, -⟩ := clonePagingInfo_none ho hpd hm
    exact h.keeps (clonePagingInfo_inv h.vm hpd hm) hcr hext.pds fun pd hpd' va => unforked_marks h.vm hpd hm hpd' va
  | switch hm => exact ⟨h.vm, hm, h.live, fun pd hpd' => (h.decoded pd hpd').congr fun _ => rfl⟩

theorem reach_inv (hx : Reach Started Step x) : Inv x :=
  hx.invariant (fun _ h => h.invariant) fun _ _ h hs => h.step hs

/-- In every state of every run a removal succeeds exactly at the base of a region of the
current address space and then removes that region, and a region just made can be undone. -/
theorem remove_pages_undoes_one (hx : Reach Started Step x) :
    (∀ base, ∃ r vm, removePagesHandlerC base x.vm = some (r, vm) ∧ (r = 0 ↔ ∃ g ∈ x.here, g.base = base) ∧
      (∀ g ∈ x.here, g.base = base → Removed g x.vm vm) ∧ (r ≠ 0 → vm = x.vm)) ∧
    ∀ base len vm, base.toNat + len.toNat < 2 ^ 32 → newPagesHandlerC base len x.vm = some (0, vm) →
      ∃ vm', removePagesHandlerC base vm = some (0, vm') ∧ Restored x.vm vm' := by
  have h := reach_inv hx
  have hpd := h.live _ h.current
  have hd : Decoded x.vm.cr3 x.here x.vm := h.decoded _ h.current
  refine ⟨fun base => ?_, fun base len vm hfit hm => newPages_undone hd h.vm hpd hfit hm⟩
  by_cases hany : ∃ g ∈ x.here, g.base = base
  · obtain ⟨g, hg, rfl⟩ := hany
    obtain ⟨vm, hr, hc⟩ := hd.removes h.vm hpd hg
    refine ⟨0, vm, hr, iff_of_true rfl ⟨g, hg, rfl⟩, fun g' hg' e => ?_, fun hne => absurd rfl hne⟩
    have hbase : g'.Has g.base := e ▸ (hd.proper g' hg').has_base
    rw [hd.apart g' hg' g hg g.base hbase (hd.proper g hg).has_base]
    refine hc.removed h.vm hpd fun va hin => ?_
    rw [hd.marks g hg va hin]
    exact regionMark_ne_zero
  · refine ⟨ERR_INVAL, x.vm, hd.refuses fun g hg e => hany ⟨g, hg, e⟩, iff_of_false (by decide) hany,
      fun g hg e => absurd ⟨g, hg, e⟩ hany, fun _ => rfl⟩

theorem exists_region : ∃ x, Reach Started Step x ∧ x.here = {⟨0x02000000#32, 0x2000#32⟩} := by
  obtain ⟨s, pd, h, hpd, hfresh, sp⟩ := SimpleElf.exists_freshDirectory
  have hdef : ∀ va : Word, USER_MEM_START ≤ va.toNat → s.pte pd va = PAGE_TABLE_ENTRY_DEFAULT :=
    fun va hu => hfresh.pte h hpd hu
  have h₀ : Started ⟨s.setCurPd pd, {pd}, fun _ => ∅⟩ := by
    refine ⟨h, hpd, rfl, fun va => ?_, rfl⟩
    show getNewpageFlags (s.pte pd va) = 0#32
    by_cases hu : USER_MEM_START ≤ va.toNat
    · rw [hdef va hu]
      decide
    · exact (h.laid hpd).kernel_flags (Nat.lt_of_not_le hu)
  have ha : Accepted 0x02000000#32 0x2000#32 (s.setCurPd pd) := by
    refine accepted_of_range (Inv.kernelMapped (s := s.setCurPd pd) h hpd) (by decide) (by decide) (by decide)
      (by decide)
      (by decide) fun p h₁ _ hp => hp.2 (hdef p (Nat.le_trans ?_ h₁))
    decide
  obtain ⟨s₁, hs₁, -⟩ := Spare.mapSegment 0x02000000#32 0x2000#32 (k := 2) (m := 587) (s := s.setCurPd pd)
    ⟨sp.pages, sp.frames⟩ pd NEW_PAGES_FLAGS (by decide) (by decide)
  have hm := (newPages_accepted ha).trans (mapNewPages_ok hs₁ (Int.le_refl 0))
  refine ⟨_, (Reach.start h₀).tail (.newPages (by decide) hm (by decide)), ?_⟩
  simp [RegionRun.here, setHere, Vm.setCurPd]

theorem remove_pages_undoes_two : ∃ x, Reach Started Step x ∧ ∃ g ∈ x.here, g = ⟨0x02000000#32, 0x2000#32⟩ ∧
    ∃ r vm, removePagesHandlerC 0x02000000#32 x.vm = some (r, vm) ∧ r = 0 ∧ Removed g x.vm vm := by
  obtain ⟨x, hx, hhere⟩ := exists_region
  have hg : ⟨0x02000000#32, 0x2000#32⟩ ∈ x.here := by simp [hhere]
  obtain ⟨r, vm, hm, hr, hremoved, -⟩ := (remove_pages_undoes_one hx).1 0x02000000#32
  exact ⟨x, hx, _, hg, rfl, r, vm, hm, hr.mpr ⟨_, hg, rfl⟩, hremoved _ hg rfl⟩

end

end RegionRun

end Pebbles
