import Pebbles.RemovePages

/-!
# Two new_pages calls at a time

`new_pages_handler_c` looks at the pages of its range one by one and then maps them one
by one, with no lock on the address space. Two threads of a task call it on ranges that
overlap, and the steps of the two calls interleave.
-/

namespace Pebbles

open Words Runs

/-- Where a call is: before a page in the loop of `is_memory_range_mapped` or in that of
`map_segment`, or before one of the marks. `pd` is what `map_new_pages` keeps of `cr3`. -/
inductive NewPagesAt where
  | call
  | scan (va : Word)
  | map (pd va : Word)
  | markEnd (pd : Word)
  | markStart (pd : Word)
  | done (ret : Int)
  deriving DecidableEq

def NewPagesAt.idle : NewPagesAt → Bool
  | .call | .done _ => true
  | _ => false

namespace Vm

def newPagesNext (base len : Word) (s : Vm) : NewPagesAt → Option (NewPagesAt × Vm)
  | .call =>
    if len.toInt ≤ 0 ∨ len.toNat % PAGE_SIZE ≠ 0 ∨ base.toNat % PAGE_SIZE ≠ 0 then some (.done ERR_INVAL, s)
    else if base = 0#32 ∨ base.toNat > MAX_MEMORY_ADDR ∨ len.toInt ≤ 0 ∨ len.toNat > MAX_AVAILABLE_USER_MEM then
      some (.done ERR_INVAL, s)
    else if base.toNat < USER_MEM_START then some (.done ERR_INVAL, s)
    else some (.scan (pageRoundDown base), s)
  | .scan va =>
    if va.toNat ≤ (base + len).toNat then
      if s.PageMapped va then some (.done ERR_INVAL, s) else some (.scan (va + BitVec.ofNat 32 PAGE_SIZE), s)
    else some (.map s.cr3 (pageRoundDown base), s.setCurPd s.cr3)
  | .map pd va =>
    if va.toNat < (base + len).toNat then
      match mapPage pd NEW_PAGES_FLAGS va s with
      | (true, s) => some (.map pd (va + BitVec.ofNat 32 PAGE_SIZE), s)
      | (false, s) => some (.done ERR_NOMEM, s)
    else some (.markEnd pd, s)
  | .markEnd pd =>
    let endFrame := pageRoundDown (base + len - 1#32)
    some (.markStart pd, s.setWord (s.ptAddr pd endFrame) (getPtIndex endFrame) (setNewpageEnd (s.pte pd endFrame)))
  | .markStart pd =>
    some (.done 0, (s.setWord (s.ptAddr pd base) (getPtIndex base) (setNewpageStart (s.pte pd base))).setCurPd pd)
  | .done _ => none

def mapFinish (pd base len : Word) : Option (Int × Vm) → Option (Int × Vm)
  | none => none
  | some (r, s) =>
    if r < 0 then some (r, s) else some (0, (s.markEnds pd base (pageRoundDown (base + len - 1#32))).setCurPd pd)

def Progress (base len : Word) (s₀ : Vm) : NewPagesAt → Vm → Prop
  | .call, s => s = s₀
  | .scan va, s => s = s₀ ∧ 0 < len.toInt ∧ len.toNat % PAGE_SIZE = 0 ∧ base.toNat % PAGE_SIZE = 0 ∧
    ∃ n, scanRange (base + len) s₀ n va = isMemoryRangeMapped base len s₀
  | .map pd va, s => Accepted base len s₀ ∧
    ∃ n, mapFinish pd base len (mapPages pd NEW_PAGES_FLAGS (base + len) n va s) = mapNewPages base len s₀
  | .markEnd pd, s => Accepted base len s₀ ∧
    some (0, (s.markEnds pd base (pageRoundDown (base + len - 1#32))).setCurPd pd) = mapNewPages base len s₀
  | .markStart pd, s => Accepted base len s₀ ∧
    some (0, (s.setWord (s.ptAddr pd base) (getPtIndex base) (setNewpageStart (s.pte pd base))).setCurPd pd) =
      mapNewPages base len s₀
  | .done r, s => newPagesHandlerC base len s₀ = some (r, s)

section
variable {s s₀ s' : Vm} {base len va pd : Word} {pos pos' : NewPagesAt} {r : Int}

theorem Progress.call (hk : s.KernelMapped) (h : newPagesNext base len s .call = some (pos', s')) :
    Progress base len s pos' s' := by
  unfold newPagesNext at h
  split_ifs at h with hargs hbad hlow <;> cases h
  · refine newPages_refused hk fun ha => ?_
    rcases hargs with hargs | hargs | hargs
    · exact absurd ha.pos (Int.not_lt.mpr hargs)
    · exact hargs ha.lenAligned
    · exact hargs ha.baseAligned
  · refine newPages_refused hk fun ha => ?_
    have hr := ha.unmapped
    unfold isMemoryRangeMapped at hr
    rw [if_pos hbad] at hr
    cases hr
  · exact newPages_refused hk fun ha => absurd ha.user (Nat.not_le.mpr hlow)
  · simp only [not_or, not_not, Int.not_le] at hargs
    refine ⟨rfl, hargs.1, hargs.2.1, hargs.2.2, addressPages, ?_⟩
    unfold isMemoryRangeMapped
    rw [if_neg hbad, if_neg hlow]

theorem Progress.scan (hk : s₀.KernelMapped) (hp : Progress base len s₀ (.scan va) s)
    (h : newPagesNext base len s (.scan va) = some (pos', s')) : Progress base len s₀ pos' s' := by
  obtain ⟨rfl, hpos, hlen, hbase, n, hn⟩ := hp
  unfold newPagesNext at h
  dsimp only at h
  by_cases hle : va.toNat ≤ (base + len).toNat
  · rw [if_pos hle] at h
    by_cases hm : s.PageMapped va
    · rw [if_pos hm] at h
      cases h
      rw [scanRange_mapped hle hm] at hn
      refine newPages_refused hk fun ha => ?_
      rw [ha.unmapped] at hn
      cases hn
    · rw [if_neg hm] at h
      cases h
      refine ⟨rfl, hpos, hlen, hbase, ?_⟩
      cases n with
      | zero =>
        obtain ⟨r, hr⟩ := isMemoryRangeMapped_ends hk base len
        rw [hr, scanRange, if_pos hle] at hn
        cases (if_neg hm).symm.trans hn
      | succ n =>
        rw [scanRange_next hle hm] at hn
        exact ⟨n, hn⟩
  · rw [if_neg hle] at h
    cases h
    rw [scanRange_done (Nat.lt_of_not_le hle)] at hn
    exact ⟨⟨hpos, hlen, hbase, hn.symm⟩, addressPages, rfl⟩

theorem Progress.map (h₀ : s₀.Inv) (hpd : s₀.cr3 ∈ s₀.pds) (hfit : base.toNat + len.toNat < 2 ^ 32)
    (hp : Progress base len s₀ (.map pd va) s) (h : newPagesNext base len s (.map pd va) = some (pos', s')) :
    Progress base len s₀ pos' s' := by
  obtain ⟨ha, n, hn⟩ := hp
  unfold newPagesNext at h
  by_cases hlt : va.toNat < (base + len).toNat
  · dsimp only at h
    rw [if_pos hlt] at h
    cases n with
    | zero =>
      obtain ⟨r, s₁, hs₁, -⟩ := ha.mapNewPages h₀ hpd hfit
      rw [mapPages, if_pos hlt, hs₁] at hn
      cases hn
    | succ n =>
      rw [mapPages, if_pos hlt] at hn
      cases hm : mapPage pd NEW_PAGES_FLAGS va s with
      | mk ok s₁ =>
        rw [hm] at h hn
        cases ok with
        | true =>
          cases h
          exact ⟨ha, n, hn⟩
        | false =>
          cases h
          exact (newPages_accepted ha).trans hn.symm
  · dsimp only at h
    rw [if_neg hlt] at h
    cases h
    refine ⟨ha, ?_⟩
    rw [← hn]
    cases n <;> rw [mapPages, if_neg hlt] <;> rfl

theorem Progress.next (h₀ : s₀.Inv) (hpd : s₀.cr3 ∈ s₀.pds) (hfit : base.toNat + len.toNat < 2 ^ 32)
    (hp : Progress base len s₀ pos s) (h : newPagesNext base len s pos = some (pos', s')) :
    Progress base len s₀ pos' s' := by
  have hk := Inv.kernelMapped h₀ hpd
  cases pos with
  | call =>
    obtain rfl : s = s₀ := hp
    exact .call hk h
  | scan va => exact hp.scan hk h
  | map pd va => exact hp.map h₀ hpd hfit h
  | markEnd pd =>
    cases h
    exact hp
  | markStart pd =>
    cases h
    exact (newPages_accepted hp.1).trans hp.2.symm
  | done r => cases h

theorem newPages_keeps (h : s.Inv) (hpd : s.cr3 ∈ s.pds) (hfit : base.toNat + len.toNat < 2 ^ 32)
    (hm : newPagesHandlerC base len s = some (r, s')) : s'.Inv ∧ s'.cr3 ∈ s'.pds := by
  by_cases ha : Accepted base len s
  · rw [newPages_accepted ha] at hm
    obtain ⟨h', r₁, s₁, hs, ⟨-, -, rfl⟩ | ⟨-, -, s₂, hw₂, hw₃⟩⟩ :=
      mapNewPages_writes h hpd ha.user (toNat_of_pos ha.pos).1 hfit hm
    · obtain ⟨-, hpd₁, hcr₁⟩ := mapSegment_inv h hpd mapFlags_newPages hs
      exact ⟨h', hcr₁ ▸ hpd₁⟩
    · obtain ⟨-, hpd₁, hcr₁⟩ := mapSegment_inv h hpd mapFlags_newPages hs
      refine ⟨h', ?_⟩
      rw [hw₃.pds, hw₂.pds, hw₃.cr3, hw₂.cr3, hcr₁]
      exact hpd₁
  · rw [newPages_refused (Inv.kernelMapped h hpd) ha] at hm
    cases hm
    exact ⟨h, hpd⟩

end

end Vm

structure NewPagesCalls where
  base : Bool → Word
  len : Bool → Word
  overlap : ∃ va, ∀ t, Vm.InRegion (base t) (len t) va

structure NewPagesRun where
  vm : Vm
  pc : Bool → NewPagesAt

namespace NewPagesRun

def start (s : Vm) : NewPagesRun where
  vm := s
  pc _ := .call

def next (C : NewPagesCalls) (t : Bool) (x : NewPagesRun) : Option NewPagesRun :=
  (x.vm.newPagesNext (C.base t) (C.len t) (x.pc t)).map fun r => ⟨r.2, Function.update x.pc t r.1⟩

def Step (C : NewPagesCalls) (ok : NewPagesRun → Bool → Prop) (x y : NewPagesRun) : Prop :=
  ∃ t, ok x t ∧ x.next C t = some y

def Marked (C : NewPagesCalls) (t : Bool) (s : Vm) : Prop :=
  ∀ va, Vm.InRegion (C.base t) (C.len t) va →
    getNewpageFlags (s.pte s.cr3 va) = Vm.regionMark (C.base t) (C.len t) va

structure Right (C : NewPagesCalls) (x : NewPagesRun) : Prop where
  once : ¬ ∀ t, x.pc t = .done 0
  marked : ∀ t, x.pc t = .done 0 → Marked C t x.vm

/-- A call begins only while the other one has not begun or is over. -/
def Careful (x : NewPagesRun) (t : Bool) : Prop := x.pc t = .call → (x.pc !t).idle

structure Turn (C : NewPagesCalls) (t : Bool) (s₀ : Vm) (x : NewPagesRun) : Prop where
  inv : s₀.Inv
  cr3 : s₀.cr3 ∈ s₀.pds
  idle : (x.pc !t).idle
  marked : (x.pc !t) = .done 0 → Marked C (!t) s₀
  progress : Vm.Progress (C.base t) (C.len t) s₀ (x.pc t) x.vm

section
variable {C : NewPagesCalls} {x y : NewPagesRun} {t : Bool} {s₀ : Vm}

theorem Marked.refuses (hfit : ∀ t, (C.base t).toNat + (C.len t).toNat < 2 ^ 32) (h₀ : s₀.Inv)
    (hpd : s₀.cr3 ∈ s₀.pds) (hm : Marked C (!t) s₀) : ¬ Vm.Accepted (C.base t) (C.len t) s₀ := by
  intro ha
  obtain ⟨va, hva⟩ := C.overlap
  have habs := ha.absent (Vm.Inv.kernelMapped h₀ hpd) h₀ (hfit t) (hva t).1 (hva t).2
  have hmark := hm va (hva !t)
  rw [habs] at hmark
  exact Vm.regionMark_ne_zero (hmark.symm.trans (by decide))

theorem Turn.right (hfit : ∀ t, (C.base t).toNat + (C.len t).toNat < 2 ^ 32) (h : Turn C t s₀ x) : Right C x := by
  have hk := Vm.Inv.kernelMapped h.inv h.cr3
  have hp := h.progress
  -- once the other call has returned 0, this one leaves the memory as it was and fails
  have hother : (x.pc !t) = .done 0 → x.vm = s₀ ∧ x.pc t ≠ .done 0 := by
    intro hu
    have hna := (h.marked hu).refuses hfit h.inv h.cr3
    cases hpos : x.pc t with
    | call =>
      rw [hpos] at hp
      exact ⟨hp, by simp⟩
    | scan va =>
      rw [hpos] at hp
      exact ⟨hp.1, by simp⟩
    | map pd va =>
      rw [hpos] at hp
      exact absurd hp.1 hna
    | markEnd pd =>
      rw [hpos] at hp
      exact absurd hp.1 hna
    | markStart pd =>
      rw [hpos] at hp
      exact absurd hp.1 hna
    | done r =>
      rw [hpos] at hp
      cases (Vm.newPages_refused hk hna).symm.trans hp
      exact ⟨rfl, by decide⟩
  refine ⟨fun hall => (hother (hall !t)).2 (hall t), fun u hu => ?_⟩
  by_cases hut : u = t
  · subst hut
    rw [hu] at hp
    have hm : Vm.newPagesHandlerC (C.base u) (C.len u) s₀ = some (0, x.vm) := hp
    have ha : Vm.Accepted (C.base u) (C.len u) s₀ := by
      by_contra ha
      rw [Vm.newPages_refused hk ha] at hm
      cases hm
    have hlast : (C.base u).toNat + (C.len u).toNat < 0xfffff000 := by
      rcases ha.range hk with hwrap | hrange
      · have hlt := hfit u
        omega
      · exact hrange.1
    have hdone := Vm.newPagesDone h.inv h.cr3 ha hlast ((Vm.newPages_accepted ha).symm.trans hm)
    intro va hva
    rw [hdone.cr3]
    exact hdone.marks va hva
  · obtain rfl : u = !t := Bool.eq_not.mpr hut
    rw [(hother hu).1]
    exact h.marked hu

theorem Turn.next {pos : NewPagesAt} {s : Vm} (hfit : (C.base t).toNat + (C.len t).toNat < 2 ^ 32) (h : Turn C t s₀ x)
    (hn : x.vm.newPagesNext (C.base t) (C.len t) (x.pc t) = some (pos, s)) :
    Turn C t s₀ ⟨s, Function.update x.pc t pos⟩ := by
  have hother : Function.update x.pc t pos (!t) = x.pc !t := Function.update_of_ne (by simp) ..
  have hself : Function.update x.pc t pos t = pos := Function.update_self ..
  refine ⟨h.inv, h.cr3, ?_, ?_, ?_⟩
  · show (Function.update x.pc t pos !t).idle
    rw [hother]
    exact h.idle
  · show (Function.update x.pc t pos !t) = .done 0 → _
    rw [hother]
    exact h.marked
  · show Vm.Progress _ _ s₀ (Function.update x.pc t pos t) s
    rw [hself]
    exact h.progress.next h.inv h.cr3 hfit hn

theorem Turn.pass (hfit : ∀ t, (C.base t).toNat + (C.len t).toNat < 2 ^ 32) (h : Turn C t s₀ x)
    (hcall : (x.pc !t) = .call) (hidle : (x.pc t).idle) : Turn C (!t) x.vm x := by
  have hright := h.right hfit
  have hp := h.progress
  have hvm : x.vm.Inv ∧ x.vm.cr3 ∈ x.vm.pds := by
    cases hpos : x.pc t with
    | call =>
      rw [hpos] at hp
      rw [show x.vm = s₀ from hp]
      exact ⟨h.inv, h.cr3⟩
    | done r =>
      rw [hpos] at hp
      exact Vm.newPages_keeps h.inv h.cr3 (hfit t) hp
    | scan | map | markEnd | markStart =>
      rw [hpos] at hidle
      cases hidle
  refine ⟨hvm.1, hvm.2, ?_, ?_, ?_⟩
  · rwa [Bool.not_not]
  · rw [Bool.not_not]
    exact hright.marked t
  · rw [hcall]
    exact rfl

theorem Turn.step (hfit : ∀ t, (C.base t).toNat + (C.len t).toNat < 2 ^ 32) (h : Turn C t s₀ x)
    (hs : Step C Careful x y) : ∃ t s₀, Turn C t s₀ y := by
  obtain ⟨v, hok, he⟩ := hs
  obtain ⟨⟨pos, s⟩, hn, rfl⟩ := Option.map_eq_some_iff.mp he
  by_cases hvt : v = t
  · subst hvt
    exact ⟨v, s₀, h.next (hfit v) hn⟩
  · obtain rfl : v = !t := Bool.eq_not.mpr hvt
    cases hpos : x.pc !t with
    | call =>
      have hidle := hok hpos
      rw [Bool.not_not] at hidle
      exact ⟨!t, x.vm, (h.pass hfit hpos hidle).next (hfit _) hn⟩
    | done r =>
      rw [hpos] at hn
      cases hn
    | scan | map | markEnd | markStart =>
      have hidle := h.idle
      rw [hpos] at hidle
      cases hidle

end

instance (x : NewPagesRun) (t : Bool) : Decidable (Careful x t) := inferInstanceAs (Decidable (_ → _))

def act (C : NewPagesCalls) (ok : NewPagesRun → Bool → Prop) [∀ x t, Decidable (ok x t)] (x : NewPagesRun)
    (t : Bool) : Option NewPagesRun :=
  if ok x t then x.next C t else none

theorem act_step (C : NewPagesCalls) (ok : NewPagesRun → Bool → Prop) [∀ x t, Decidable (ok x t)] (x : NewPagesRun)
    (t : Bool) (y : NewPagesRun) (h : x.act C ok t = some y) : Step C ok x y := by
  obtain ⟨hok, hy⟩ := Option.ite_none_right_eq_some.mp h
  exact ⟨t, hok, hy⟩

end NewPagesRun

end Pebbles
