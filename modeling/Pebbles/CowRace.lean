import Pebbles.RefCount

/-!
# Two faults on one copy-on-write page

`handle_cow` reads the frame address from the entry before it takes the frame's
lock. Two threads of one task fault on the same page, and the sections of their
handlers interleave.
-/

namespace Pebbles

open Words Runs

structure CowLocals where
  pt : Word
  frameAddr : Word

namespace Vm

/-! ## The sections of handle_cow -/

def cowRead (addr : Word) (s : Vm) : CowLocals :=
  ⟨s.ptAddr s.cr3 addr, getAddrFromEntry (s.kmem (s.ptAddr s.cr3 addr) (getPtIndex addr))⟩

def cowBody (addr : Word) (l : CowLocals) (s : Vm) : Option Vm :=
  let pd := s.cr3
  let j := getPtIndex addr
  let pageAddr := pageRoundDown addr
  if s.fr.frameRefCount (frameIndex l.frameAddr) = 1 then
    some (s.setWord l.pt j (s.kmem l.pt j &&& COW_MODE_DISABLE_MASK))
  else
    let frameContents := s.readPage pageAddr
    match allocateFrame s.fr with
    | (none, _) => none
    | (some newFrame, fr) =>
      let s := { s with fr := fr }
      let flags := getFlagsFromEntry (s.kmem l.pt j)
      let s := s.setWord l.pt j (newFrame ||| flags)
      let s := s.setWord l.pt j (s.kmem l.pt j &&& COW_MODE_DISABLE_MASK)
      let s := s.setCurPd pd
      let s := s.writePage pageAddr frameContents
      let s := s.withFrames (addRefCount l.frameAddr (-1))
      some (s.withFrames (incRefCount newFrame))

def cowFinish (addr : Word) (l : CowLocals) (s : Vm) : Vm :=
  let j := getPtIndex addr
  (s.setWord l.pt j (s.kmem l.pt j ||| READ_WRITE_ENABLE)).setCurPd s.cr3

def cowCopied (e g : Word) : Word := (g ||| getFlagsFromEntry e) &&& COW_MODE_DISABLE_MASK

section
variable {s : Vm} {addr g : Word} {l : CowLocals} {fr : Frames}

theorem cowBody_sole (h : s.fr.frameRefCount (frameIndex l.frameAddr) = 1) :
    cowBody addr l s = some (s.setWord l.pt (getPtIndex addr) (s.kmem l.pt (getPtIndex addr) &&& COW_MODE_DISABLE_MASK)) :=
  if_pos h

theorem cowBody_full (h : s.fr.frameRefCount (frameIndex l.frameAddr) ≠ 1) (ha : allocateFrame s.fr = (none, fr)) :
    cowBody addr l s = none := by
  unfold cowBody
  dsimp only
  rw [if_neg h, ha]

theorem cowBody_copy (addr : Word) (h : s.fr.frameRefCount (frameIndex l.frameAddr) ≠ 1)
    (ha : allocateFrame s.fr = (some g, fr)) :
    ∃ m, cowBody addr l s =
      some { s.setWord l.pt (getPtIndex addr) (cowCopied (s.kmem l.pt (getPtIndex addr)) g) with
        fr := incRefCount g (addRefCount l.frameAddr (-1) fr)
        umem := m } := by
  unfold cowBody
  dsimp only [withFrames, setCurPd]
  rw [if_neg h, ha]
  simp only [setWord, setWord_self, setWord_setWord, writePage, setFrame]
  exact ⟨_, rfl⟩

theorem handleCow_sections (hl : s.cowRead addr = l) : handleCow addr s =
    match cowBody addr l (s.withFrames (lockFrame l.frameAddr)) with
    | none => (ERR_FAILURE, s.withFrames fun fr => unlockFrame l.frameAddr (lockFrame l.frameAddr fr))
    | some s₁ => (0, cowFinish addr l (s₁.withFrames (unlockFrame l.frameAddr))) := by
  have hpt : s.ptAddr s.cr3 addr = l.pt := by rw [← hl]; rfl
  have hfr : getAddrFromEntry (s.kmem l.pt (getPtIndex addr)) = l.frameAddr := by rw [← hl]; rfl
  unfold handleCow
  dsimp only
  rw [hpt, hfr]
  by_cases h1 : (s.withFrames (lockFrame l.frameAddr)).fr.frameRefCount (frameIndex l.frameAddr) = 1
  · rw [cowBody_sole h1, if_pos h1]
    rfl
  · unfold cowBody
    dsimp only
    rw [if_neg h1, if_neg h1]
    cases ha : allocateFrame (s.withFrames (lockFrame l.frameAddr)).fr with
    | mk o fr =>
      cases o with
      | none =>
        rw [allocateFrame_none ha]
        rfl
      | some g => rfl

end

end Vm

/-! ## Interleavings -/

inductive CowAt where
  | check
  | read
  | lock (l : CowLocals)
  | body (l : CowLocals)
  | unlock (l : CowLocals)
  | finish (l : CowLocals)
  | done
  /-- The page is not copy-on-write, and `handle_fault` goes on. -/
  | fault
  /-- No frame was left; the lock is still held. -/
  | fail (l : CowLocals)
  | killed

def CowAt.Returned : CowAt → Prop
  | .done | .fault => True
  | _ => False

structure CowFaults where
  addr : Bool → Word
  same : pageRoundDown (addr true) = pageRoundDown (addr false)

structure CowRun where
  vm : Vm
  pc : Bool → CowAt
  locks : Nat → Bool

namespace CowRun

def goto (t : Bool) (pos : CowAt) (vm : Vm) (x : CowRun) : CowRun :=
  { x with vm := vm, pc := Function.update x.pc t pos }

def unlockFrame (l : CowLocals) (x : CowRun) : CowRun :=
  { x with
    vm := x.vm.withFrames (Pebbles.unlockFrame l.frameAddr)
    locks := Function.update x.locks (frameIndex l.frameAddr) false }

inductive Step (F : CowFaults) : CowRun → CowRun → Prop
  | check {x t} : x.pc t = .check → Step F x (x.goto t (if x.vm.isAddrCow (F.addr t) then .read else .fault) x.vm)
  | read {x t} : x.pc t = .read → Step F x (x.goto t (.lock (x.vm.cowRead (F.addr t))) x.vm)
  | lock {x t l} : x.pc t = .lock l → x.locks (frameIndex l.frameAddr) = false →
    Step F x { x.goto t (.body l) (x.vm.withFrames (lockFrame l.frameAddr)) with
      locks := Function.update x.locks (frameIndex l.frameAddr) true }
  | body {x t l s} : x.pc t = .body l → x.vm.cowBody (F.addr t) l = some s → Step F x (x.goto t (.unlock l) s)
  | full {x t l} : x.pc t = .body l → x.vm.cowBody (F.addr t) l = none → Step F x (x.goto t (.fail l) x.vm)
  | unlock {x t l} : x.pc t = .unlock l →
    Step F x ((x.unlockFrame l).goto t (.finish l) (x.unlockFrame l).vm)
  | finish {x t l} : x.pc t = .finish l → Step F x (x.goto t .done (x.vm.cowFinish (F.addr t) l))
  | kill {x t l} : x.pc t = .fail l → Step F x ((x.unlockFrame l).goto t .killed (x.unlockFrame l).vm)

def start (s : Vm) : CowRun where
  vm := s
  pc := fun _ => .check
  locks := fun _ => false

def Right (F : CowFaults) (x : CowRun) : Prop :=
  (∀ f, IsFrame x.vm.fr f → x.vm.fr.frameRefCount (frameIndex f) = refs x.vm.toTables f) ∧
    ∀ t, bit (x.vm.pte x.vm.cr3 (F.addr t)) 1 = true ∧
      x.vm.fr.frameRefCount (frameIndex (base (x.vm.pte x.vm.cr3 (F.addr t)))) = 1

end CowRun

/-! ## One entry -/

structure CowPage (pd t : Word) (i j : Index) (s : Vm) : Prop where
  inv : s.Inv
  cr3 : s.cr3 = pd
  table : TableAt s.toTables pd i t
  present : bit (s.kmem t j) 0 = true

section
variable {pd t w f g : Word} {i j : Index} {s : Vm} {fr : Frames} {m : Word → Offset → Byte}

theorem CowPage.ne_default (h : CowPage pd t i j s) :
    s.kmem t j ≠ PAGE_TABLE_ENTRY_DEFAULT := ne_default_of_present h.present

theorem CowPage.isFrame (h : CowPage pd t i j s) :
    IsFrame s.fr (base (s.kmem t j)) := h.inv.isFrame h.table h.ne_default

theorem CowPage.put (h : CowPage pd t i j s) (hfr : Agree fr (refs (s.toTables.setWord t j w)))
    (hbits : bit w 0 = bit (s.kmem t j) 0 ∧ bit w 2 = bit (s.kmem t j) 2)
    (hw : base w = base (s.kmem t j) ∧ (bit w 1 = true → bit (s.kmem t j) 1 = true ∨
      refs s.toTables (base (s.kmem t j)) = 1) ∨
      refs s.toTables (base w) = 0) : CowPage pd t i j { s.setWord t j w with fr := fr, umem := m } := by
  obtain ⟨use, ho⟩ := h.inv.owned
  have hb := h.inv.entries h.table h.ne_default
  have hw0 : bit w 0 = true := hbits.1.trans h.present
  refine ⟨MemInv.setWord h.inv h.table hfr (fun _ => ⟨hw0, hbits.2.trans hb.2⟩)
    (.inr (hw.imp_left fun hw => ⟨h.ne_default, hw⟩)), h.cr3, h.table.setWord (ho.table_not_dir h.table) j w, ?_⟩
  show bit ((s.toTables.setWord t j w).kmem t j) 0 = true
  rw [setWord_self]
  exact hw0

theorem CowPage.refs_same (h : CowPage pd t i j s) (h0 : bit w 0 = true) (hb : base w = base (s.kmem t j)) :
    refs (s.toTables.setWord t j w) = refs s.toTables := by
  obtain ⟨use, ho⟩ := h.inv.owned
  exact refs_setWord_same ho h.table h.ne_default (ne_default_of_present h0) hb

theorem CowPage.flags (h : CowPage pd t i j s) (hbits : bit w 0 = bit (s.kmem t j) 0 ∧ bit w 2 = bit (s.kmem t j) 2)
    (hb : base w = base (s.kmem t j)) (h1 : refs s.toTables (base (s.kmem t j)) = 1) :
    CowPage pd t i j (s.setWord t j w) ∧ refs (s.setWord t j w).toTables = refs s.toTables ∧
      (s.setWord t j w).kmem t j = w := by
  have hrefs := h.refs_same (hbits.1.trans h.present) hb
  exact ⟨h.put (m := s.umem) (hrefs ▸ h.inv.agree) hbits (.inl ⟨hb, fun _ => .inr h1⟩), hrefs, setWord_self ..⟩

theorem bit_cowCopied {e : Word} (hg : Aligned g) {k : Nat} (hk : k < 12) (h9 : k ≠ 9) :
    bit (Vm.cowCopied e g) k = bit e k := by
  unfold Vm.cowCopied getFlagsFromEntry
  rw [bit_cowMask _ (by omega), Words.bit_or, bit_flags]
  simp [hg.bit_lt hk, hk, h9]

theorem bit_write_of_ne (e : Word) {k : Nat} (hk : k < 32) (hne : k ≠ 1) :
    bit (e ||| READ_WRITE_ENABLE) k = bit e k := by
  rw [bit_write_or e hk]
  simp [hne]

theorem base_write (e : Word) : base (e ||| READ_WRITE_ENABLE) = base e :=
  base_of_bits fun _ hk h12 => bit_write_of_ne e hk (by omega)

theorem withFrames_lockFrame (h : IsFrame s.fr f) : s.withFrames (lockFrame f) = s := by
  unfold Vm.withFrames
  rw [lockFrame_frame h]

theorem withFrames_unlockFrame (h : IsFrame s.fr f) : s.withFrames (unlockFrame f) = s := by
  unfold Vm.withFrames
  rw [unlockFrame_frame _ h]

theorem base_cowCopied {e : Word} (hg : Aligned g) : base (Vm.cowCopied e g) = g := Vm.base_cowCopy hg

theorem CowPage.refs_put (h : CowPage pd t i j s) (h0 : bit w 0 = true) (f : Word) :
    refs (s.toTables.setWord t j w) f + [base (s.kmem t j)].count f = refs s.toTables f + [base w].count f := by
  obtain ⟨use, ho⟩ := h.inv.owned
  have hput := Pebbles.refs_put ho h.table j (ne_default_of_present h0) f
  have hclear := refs_clear ho h.table h.ne_default f
  simp only [plus] at hput hclear
  omega

theorem CowPage.copy (h : CowPage pd t i j s) (h2 : 2 ≤ refs s.toTables (base (s.kmem t j)))
    (ha : allocateFrame s.fr = (some g, fr)) :
    CowPage pd t i j { s.setWord t j (Vm.cowCopied (s.kmem t j) g) with
      fr := incRefCount g (addRefCount (base (s.kmem t j)) (-1) fr)
      umem := m } := by
  obtain ⟨use, ho⟩ := h.inv.owned
  let R := refs (s.toTables.setWord t j PAGE_TABLE_ENTRY_DEFAULT)
  have hR : ∀ f, refs s.toTables f = plus R [base (s.kmem t j)] f := refs_clear ho h.table h.ne_default
  have hRne : R (base (s.kmem t j)) ≠ 0 := by
    have := hR (base (s.kmem t j))
    rw [plus_self] at this
    omega
  obtain ⟨hg, hg0, -, hag⟩ := (h.inv.agree.congr hR).move hRne ha
  rw [← hR] at hg0
  have h0 : bit (Vm.cowCopied (s.kmem t j) g) 0 = true := (bit_cowCopied hg.1 (by decide) (by decide)).trans h.present
  have hrefs : ∀ f, plus R [g] f = refs (s.toTables.setWord t j (Vm.cowCopied (s.kmem t j) g)) f := fun f => by
    have := Pebbles.refs_put ho h.table j (ne_default_of_present h0) f
    rwa [base_cowCopied hg.1] at this
  refine h.put (hag.congr hrefs) ⟨bit_cowCopied hg.1 (by decide) (by decide), bit_cowCopied hg.1 (by decide)
    (by decide)⟩
    (.inr ?_)
  rw [base_cowCopied hg.1]
  exact hg0

theorem framesLeft_counts {k : Nat} (fr : Frames) (f g : Word) :
    FramesLeft k (incRefCount g (addRefCount f (-1) fr)) ↔ FramesLeft k fr := by
  constructor <;> intro h <;> apply h.congr <;>
    simp [incRefCount, unlockFrame, lockFrame, addRefCount, kernelAssert_arr, kernelAssert_head]

structure Copied (pd t : Word) (i j : Index) (f g : Word) (fr : Frames) (s s' : Vm) : Prop where
  page : CowPage pd t i j s'
  frame : base (s'.kmem t j) = g
  ne : g ≠ f
  sole : refs s'.toTables g = 1
  less : refs s'.toTables f + 1 = refs s.toTables f
  left : ∀ k, FramesLeft k s'.fr ↔ FramesLeft k fr

theorem CowPage.copies (h : CowPage pd t i j s) {l : CowLocals} {addr : Word} (hpt : l.pt = t)
    (hj : getPtIndex addr = j)
    (hf : l.frameAddr = base (s.kmem t j)) (h2 : 2 ≤ refs s.toTables (base (s.kmem t j)))
    (ha : allocateFrame s.fr = (some g, fr)) :
    ∃ s', s.cowBody addr l = some s' ∧ Copied pd t i j (base (s.kmem t j)) g fr s s' := by
  have hcount : s.fr.frameRefCount (frameIndex l.frameAddr) ≠ 1 := by
    rw [hf, h.inv.agree.counts _ h.isFrame]
    omega
  obtain ⟨m, hm⟩ := Vm.cowBody_copy addr hcount ha
  rw [hpt, hj, hf] at hm
  obtain ⟨hg, hg0, -⟩ := h.inv.agree.allocate ha
  have hne : g ≠ base (s.kmem t j) := fun e => by
    rw [← e, hg0] at h2
    omega
  have hrefs := h.refs_put ((bit_cowCopied hg.1 (by decide) (by decide)).trans h.present)
  rw [base_cowCopied hg.1] at hrefs
  refine ⟨_, hm, h.copy h2 ha, ?_, hne, ?_, ?_, fun k => framesLeft_counts fr _ _⟩
  · show base ((s.toTables.setWord _ _ _).kmem t j) = g
    rw [setWord_self, base_cowCopied hg.1]
  · have := hrefs g
    rw [List.count_singleton_self, List.count_singleton, if_neg (by simpa using hne.symm), hg0] at this
    exact this.trans (Nat.zero_add 1)
  · have := hrefs (base (s.kmem t j))
    rw [List.count_singleton_self, List.count_singleton, if_neg (by simpa using hne)] at this
    exact this

end

/-! ## Runs -/

namespace CowFaults

variable (F : CowFaults)

def pdIndex : Index := getPdIndex (F.addr false)

def ptIndex : Index := getPtIndex (F.addr false)

theorem round_addr (u : Bool) : pageRoundDown (F.addr u) = pageRoundDown (F.addr false) := by
  cases u with
  | false => rfl
  | true => exact F.same

theorem getPdIndex_addr (u : Bool) : getPdIndex (F.addr u) = F.pdIndex := by
  rw [← getPdIndex_round, F.round_addr, getPdIndex_round]
  rfl

theorem getPtIndex_addr (u : Bool) : getPtIndex (F.addr u) = F.ptIndex := by
  rw [← getPtIndex_round, F.round_addr, getPtIndex_round]
  rfl

end CowFaults

namespace CowAt

def locals : CowAt → Option CowLocals
  | .lock l | .body l | .unlock l | .finish l | .fail l => some l
  | _ => none

def Early : CowAt → Prop
  | .check | .read | .lock _ | .body _ | .fail _ | .killed => True
  | _ => False

end CowAt

namespace CowRun

section
variable {F : CowFaults} {pd t f : Word} {x y : CowRun} {u : Bool} {l : CowLocals} {s : Vm}

def entry (F : CowFaults) (t : Word) (x : CowRun) : Word := x.vm.kmem t F.ptIndex

structure Before (F : CowFaults) (t f : Word) (x : CowRun) : Prop where
  frame : base (x.entry F t) = f
  shared : 2 ≤ refs x.vm.toTables f
  bound : refs x.vm.toTables f = 2 ∨ ¬ FramesLeft 2 x.vm.fr
  readOnly : bit (x.entry F t) 1 = false
  early : ∀ u, (x.pc u).Early

structure After (F : CowFaults) (t f : Word) (x : CowRun) : Prop where
  sole : refs x.vm.toTables (base (x.entry F t)) = 1
  mapped : refs x.vm.toTables f ≠ 0
  bound : refs x.vm.toTables f = 1 ∨ ¬ FramesLeft 1 x.vm.fr
  writable : ∀ u, (x.pc u).Returned → bit (x.entry F t) 1 = true

structure Inv (F : CowFaults) (pd t f : Word) (x : CowRun) : Prop where
  page : CowPage pd t F.pdIndex F.ptIndex x.vm
  locals : ∀ {u l}, (x.pc u).locals = some l → l.pt = t ∧ (l.frameAddr = f ∨ l.frameAddr = base (x.entry F t))
  phase : x.Before F t f ∨ x.After F t f

theorem ptAddr_eq (h : CowPage pd t F.pdIndex F.ptIndex x.vm) (u : Bool) : x.vm.ptAddr x.vm.cr3 (F.addr u) = t := by
  unfold Tables.ptAddr
  rw [F.getPdIndex_addr, h.cr3]
  exact h.table.addr

theorem pte_eq (h : CowPage pd t F.pdIndex F.ptIndex x.vm) (u : Bool) : x.vm.pte x.vm.cr3 (F.addr u) = x.entry F t := by
  unfold Tables.pte
  rw [ptAddr_eq h, F.getPtIndex_addr]
  rfl

theorem cowRead_eq (h : CowPage pd t F.pdIndex F.ptIndex x.vm) (u : Bool) :
    x.vm.cowRead (F.addr u) = ⟨t, base (x.entry F t)⟩ := by
  unfold Vm.cowRead
  rw [ptAddr_eq h, F.getPtIndex_addr]
  rfl

theorem cowFinish_eq : s.cowFinish (F.addr u) l =
    s.setWord l.pt F.ptIndex (s.kmem l.pt F.ptIndex ||| READ_WRITE_ENABLE) := by
  unfold Vm.cowFinish
  dsimp only
  rw [F.getPtIndex_addr]
  rfl

theorem Inv.mapped (h : Inv F pd t f x) : refs x.vm.toTables f ≠ 0 := by
  rcases h.phase with hb | ha
  · have := hb.shared
    omega
  · exact ha.mapped

theorem Inv.isFrame (h : Inv F pd t f x) (hl : (x.pc u).locals = some l) : IsFrame x.vm.fr l.frameAddr := by
  rcases (h.locals hl).2 with e | e
  · exact e ▸ h.page.inv.agree.frames _ h.mapped
  · exact e ▸ h.page.isFrame

theorem Inv.stays (h : Inv F pd t f x) {pos : CowAt} (hvm : y.vm = x.vm) (hpc : y.pc = Function.update x.pc u pos)
    (hlocals : ∀ {l}, pos.locals = some l → l.pt = t ∧ (l.frameAddr = f ∨ l.frameAddr = base (x.entry F t)))
    (hearly : (x.pc u).Early → bit (x.entry F t) 1 = false → pos.Early)
    (hret : pos.Returned → bit (x.entry F t) 1 = true) : Inv F pd t f y := by
  have hentry : y.entry F t = x.entry F t := by simp [entry, hvm]
  refine ⟨hvm ▸ h.page, fun {v l} hl => ?_, ?_⟩
  · rw [hentry]
    by_cases hv : v = u
    · subst hv
      rw [hpc, Function.update_self] at hl
      exact hlocals hl
    · rw [hpc, Function.update_of_ne hv] at hl
      exact h.locals hl
  · refine h.phase.imp (fun hb => ?_) fun ha => ?_
    · refine ⟨hentry ▸ hb.frame, hvm ▸ hb.shared, hvm ▸ hb.bound, hentry ▸ hb.readOnly, fun v => ?_⟩
      by_cases hv : v = u
      · subst hv
        rw [hpc, Function.update_self]
        exact hearly (hb.early v) hb.readOnly
      · rw [hpc, Function.update_of_ne hv]
        exact hb.early v
    · refine ⟨by rw [hentry, hvm]; exact ha.sole, hvm ▸ ha.mapped, hvm ▸ ha.bound, fun v hr => ?_⟩
      rw [hentry]
      by_cases hv : v = u
      · subst hv
        rw [hpc, Function.update_self] at hr
        exact hret hr
      · rw [hpc, Function.update_of_ne hv] at hr
        exact ha.writable v hr

theorem After.flags (h : CowPage pd t F.pdIndex F.ptIndex x.vm) (ha : x.After F t f) {w : Word} {pos : CowAt}
    (hlocals : ∀ {v l}, (x.pc v).locals = some l → l.pt = t ∧ (l.frameAddr = f ∨ l.frameAddr = base (x.entry F t)))
    (hvm : y.vm = x.vm.setWord t F.ptIndex w) (hpc : y.pc = Function.update x.pc u pos)
    (hbits : bit w 0 = bit (x.entry F t) 0 ∧ bit w 2 = bit (x.entry F t) 2) (hb : base w = base (x.entry F t))
    (h1 : bit (x.entry F t) 1 = true → bit w 1 = true) (hpos : ∀ {l}, pos.locals = some l → (x.pc u).locals = some l)
    (hret : pos.Returned → bit w 1 = true) : Inv F pd t f y := by
  obtain ⟨hp, hrefs, hkmem⟩ := h.flags hbits hb ha.sole
  have hentry : y.entry F t = w := by
    unfold entry
    rw [hvm]
    exact hkmem
  have hrefs' : refs y.vm.toTables = refs x.vm.toTables := hvm ▸ hrefs
  have hfr : y.vm.fr = x.vm.fr := by rw [hvm]; rfl
  refine ⟨hvm ▸ hp, fun {v l} hl => ?_, .inr ⟨?_, hrefs' ▸ ha.mapped, ?_, fun v hr => ?_⟩⟩
  · rw [hentry, hb]
    by_cases hv : v = u
    · subst hv
      rw [hpc, Function.update_self] at hl
      exact hlocals (hpos hl)
    · rw [hpc, Function.update_of_ne hv] at hl
      exact hlocals hl
  · rw [hentry, hb, hrefs']
    exact ha.sole
  · rw [hrefs', hfr]
    exact ha.bound
  · rw [hentry]
    by_cases hv : v = u
    · subst hv
      rw [hpc, Function.update_self] at hr
      exact hret hr
    · rw [hpc, Function.update_of_ne hv] at hr
      exact h1 (ha.writable v hr)

@[simp] theorem goto_pc_self {pos : CowAt} {s : Vm} : (x.goto u pos s).pc u = pos := Function.update_self ..

theorem goto_pc_of_ne {v : Bool} {pos : CowAt} {s : Vm} (h : v ≠ u) : (x.goto u pos s).pc v = x.pc v :=
  Function.update_of_ne h ..

theorem Before.copy (h : Inv F pd t f x) (hb : x.Before F t f) (hl : (x.pc u).locals = some l) {s : Vm}
    (hs : x.vm.cowBody (F.addr u) l = some s) : Inv F pd t f (x.goto u (.unlock l) s) := by
  have hfrom : ∀ {v k}, (x.pc v).locals = some k → k.pt = t ∧ k.frameAddr = f := fun hk =>
    ⟨(h.locals hk).1, (h.locals hk).2.elim id fun e => e.trans hb.frame⟩
  have hbase : base (x.vm.kmem t F.ptIndex) = f := hb.frame
  have hshared := hbase.symm ▸ hb.shared
  cases ha : allocateFrame x.vm.fr with
  | mk o fr =>
    cases o with
    | none =>
      have hcount : x.vm.fr.frameRefCount (frameIndex l.frameAddr) ≠ 1 := by
        rw [h.page.inv.agree.counts _ (h.isFrame hl), (hfrom hl).2]
        have := hb.shared
        omega
      rw [Vm.cowBody_full hcount ha] at hs
      cases hs
    | some g =>
      obtain ⟨s', hs', hc⟩ := h.page.copies (hfrom hl).1 (F.getPtIndex_addr u)
        ((hfrom hl).2.trans hbase.symm) hshared ha
      rw [hs', Option.some.injEq] at hs
      subst hs
      rw [hbase] at hc
      have hless := hc.less
      refine ⟨hc.page, fun {v k} hk => ?_, .inr ⟨?_, ?_, ?_, fun v hr => ?_⟩⟩
      · have : k.pt = t ∧ k.frameAddr = f := by
          by_cases hv : v = u
          · subst hv
            rw [goto_pc_self] at hk
            cases hk
            exact hfrom hl
          · rw [goto_pc_of_ne hv] at hk
            exact hfrom hk
        exact ⟨this.1, .inl this.2⟩
      · exact (congrArg (refs s'.toTables) hc.frame).trans hc.sole
      · have := hb.shared
        show refs s'.toTables f ≠ 0
        omega
      · refine hb.bound.imp (fun h2 => ?_) fun hn hleft => hn ?_
        · show refs s'.toTables f = 1
          omega
        · exact ((hc.left 1).mp hleft).of_allocate ha
      · exfalso
        by_cases hv : v = u
        · subst hv
          rw [goto_pc_self] at hr
          exact hr
        · rw [goto_pc_of_ne hv] at hr
          have := hb.early v
          cases hp : x.pc v <;> simp_all [CowAt.Early, CowAt.Returned]

theorem After.body (h : Inv F pd t f x) (ha : x.After F t f) (hl : (x.pc u).locals = some l) {s : Vm}
    (hs : x.vm.cowBody (F.addr u) l = some s) : Inv F pd t f (x.goto u (.unlock l) s) := by
  obtain ⟨rfl, hf⟩ := h.locals hl
  have hcount : x.vm.fr.frameRefCount (frameIndex l.frameAddr) = 1 := by
    by_contra hne
    have hfull : ∀ {o fr}, allocateFrame x.vm.fr = (o, fr) → o = none → False := fun he ho => by
      subst ho
      rw [Vm.cowBody_full hne he] at hs
      cases hs
    rw [h.page.inv.agree.counts _ (h.isFrame hl)] at hne
    rcases hf with hf | hf
    · rw [hf] at hne
      have hnone := ha.bound.resolve_left fun h1 => hne (by rw [h1]; rfl)
      cases he : allocateFrame x.vm.fr with
      | mk o fr =>
        cases o with
        | none => exact hfull he rfl
        | some g =>
          obtain ⟨c, hc, -⟩ := (h.page.inv.agree.allocate he).2.2.2.free
          exact hnone (FramesLeft.of_allocate he (k := 0) ⟨c, hc, Nat.zero_le _⟩)
    · rw [hf] at hne
      exact hne (by rw [ha.sole]; rfl)
  rw [Vm.cowBody_sole hcount, Option.some.injEq, F.getPtIndex_addr] at hs
  have hbit : ∀ {k}, k < 32 → k ≠ 9 → bit (x.entry F l.pt &&& COW_MODE_DISABLE_MASK) k = bit (x.entry F l.pt) k :=
    fun hk h9 => by simp [bit_cowMask _ hk, h9]
  refine ha.flags (u := u) h.page h.locals hs.symm rfl ⟨hbit (by decide) (by decide), hbit (by decide) (by decide)⟩
    (base_of_bits fun k hk h12 => hbit hk (by omega)) (fun h1 => (hbit (by decide) (by decide)).trans h1)
    (fun e => ?_) nofun
  cases e
  exact hl

theorem Inv.step (h : Inv F pd t f x) (hu : ∀ u, USER_MEM_START ≤ (F.addr u).toNat) (hs : Step F x y) :
    Inv F pd t f y := by
  cases hs with
  | @check u hp =>
    refine h.stays (u := u) rfl rfl (fun {l} hl => ?_) (fun _ hw => ?_) fun hr => ?_
    · split at hl <;> cases hl
    · have hcow := Vm.isAddrCow_of (s := x.vm) (hu u) (by rw [pte_eq h.page]; exact h.page.present)
        (by rwa [pte_eq h.page])
      rw [if_pos hcow]
      trivial
    · split at hr
      · exact hr.elim
      · rename_i hcow
        by_contra hw
        refine hcow (Vm.isAddrCow_of (hu u) (by rw [pte_eq h.page]; exact h.page.present) ?_)
        rw [pte_eq h.page]
        simpa using hw
  | @read u hp =>
    refine h.stays (u := u) rfl rfl (fun {l} hl => ?_) (fun _ _ => trivial) nofun
    rw [cowRead_eq h.page] at hl
    cases hl
    exact ⟨rfl, .inr rfl⟩
  | @lock u l hp hfree =>
    have hl : (x.pc u).locals = some l := by rw [hp]; rfl
    refine h.stays (u := u) (withFrames_lockFrame (h.isFrame hl)) rfl (fun e => ?_) (fun _ _ => trivial) nofun
    cases e
    exact h.locals hl
  | @body u l s hp hs =>
    have hl : (x.pc u).locals = some l := by rw [hp]; rfl
    rcases h.phase with hb | ha
    · exact hb.copy h hl hs
    · exact ha.body h hl hs
  | @full u l hp hs =>
    have hl : (x.pc u).locals = some l := by rw [hp]; rfl
    refine h.stays (u := u) rfl rfl (fun e => ?_) (fun _ _ => trivial) nofun
    cases e
    exact h.locals hl
  | @unlock u l hp =>
    have hl : (x.pc u).locals = some l := by rw [hp]; rfl
    refine h.stays (u := u) (withFrames_unlockFrame (h.isFrame hl)) rfl (fun e => ?_) (fun he _ => ?_) nofun
    · cases e
      exact h.locals hl
    · rw [hp] at he
      exact he.elim
  | @finish u l hp =>
    have hl : (x.pc u).locals = some l := by rw [hp]; rfl
    obtain ⟨rfl, -⟩ := h.locals hl
    have ha : x.After F l.pt f := by
      refine h.phase.resolve_left fun hb => ?_
      have := hb.early u
      rw [hp] at this
      exact this
    have h1 : bit (x.entry F l.pt ||| READ_WRITE_ENABLE) 1 = true := by
      rw [bit_write_or _ (by decide)]
      simp
    exact ha.flags (u := u) h.page h.locals cowFinish_eq rfl
      ⟨bit_write_of_ne _ (by decide) (by decide), bit_write_of_ne _ (by decide) (by decide)⟩ (base_write _)
      (fun _ => h1)
      nofun fun _ => h1
  | @kill u l hp =>
    have hl : (x.pc u).locals = some l := by rw [hp]; rfl
    exact h.stays (u := u) (withFrames_unlockFrame (h.isFrame hl)) rfl nofun (fun _ _ => trivial) nofun

theorem Inv.right (h : Inv F pd t f x) (hr : ∀ u, (x.pc u).Returned) : x.Right F := by
  have ha : x.After F t f := by
    refine h.phase.resolve_left fun hb => ?_
    have hearly := hb.early true
    have hret := hr true
    cases hp : x.pc true <;> simp_all [CowAt.Early, CowAt.Returned]
  refine ⟨fun g hg => h.page.inv.agree.counts g hg, fun u => ?_⟩
  rw [pte_eq h.page]
  refine ⟨ha.writable u (hr u), ?_⟩
  exact (h.page.inv.agree.counts _ h.page.isFrame).trans (congrArg Nat.cast ha.sole)

theorem run_locked (hp : x.pc u = .lock l) (hlock : x.locks (frameIndex l.frameAddr) = false) {s : Vm}
    (hfr : IsFrame x.vm.fr l.frameAddr) (hs : x.vm.cowBody (F.addr u) l = some s) (hfr' : IsFrame s.fr l.frameAddr) :
    ∃ y, Relation.ReflTransGen (Step F) x y ∧ y.vm = s.cowFinish (F.addr u) l ∧ y.pc = Function.update x.pc u .done ∧
      y.locks (frameIndex l.frameAddr) = false := by
  let locked : CowRun := { x.goto u (.body l) (x.vm.withFrames (lockFrame l.frameAddr)) with
    locks := Function.update x.locks (frameIndex l.frameAddr) true }
  let copied := locked.goto u (.unlock l) s
  let unlocked := (copied.unlockFrame l).goto u (.finish l) (copied.unlockFrame l).vm
  have h1 : Step F x locked := .lock hp hlock
  have h2 : Step F locked copied := .body (Function.update_self ..) (by
    show Vm.cowBody _ _ (Vm.withFrames _ _) = _
    rwa [withFrames_lockFrame hfr])
  have h3 : Step F copied unlocked := .unlock (Function.update_self ..)
  have h4 : Step F unlocked (unlocked.goto u .done (unlocked.vm.cowFinish (F.addr u) l)) :=
    .finish (Function.update_self ..)
  refine ⟨_, .head h1 (.head h2 (.head h3 (.single h4))), ?_, ?_, ?_⟩
  · exact congrArg (Vm.cowFinish (F.addr u) l) (withFrames_unlockFrame hfr')
  · simp [goto, unlocked, copied, locked, unlockFrame]
  · simp [goto, unlocked, copied, unlockFrame]

theorem cowFinish_page (h : CowPage pd t F.pdIndex F.ptIndex s) (hpt : l.pt = t)
    (h1 : refs s.toTables (base (s.kmem t F.ptIndex)) = 1) :
    CowPage pd t F.pdIndex F.ptIndex (s.cowFinish (F.addr u) l) ∧
      refs (s.cowFinish (F.addr u) l).toTables = refs s.toTables ∧ (s.cowFinish (F.addr u) l).fr = s.fr ∧
      base ((s.cowFinish (F.addr u) l).kmem t F.ptIndex) = base (s.kmem t F.ptIndex) := by
  subst hpt
  obtain ⟨hp, hrefs, hkmem⟩ := h.flags
    ⟨bit_write_of_ne _ (by decide) (by decide), bit_write_of_ne _ (by decide) (by decide)⟩ (base_write _) h1
  rw [cowFinish_eq]
  exact ⟨hp, hrefs, rfl, (congrArg base hkmem).trans (base_write _)⟩

theorem copy_again (h : CowPage pd t F.pdIndex F.ptIndex s) (hpt : l.pt = t) (hf : IsFrame s.fr l.frameAddr)
    (hne : base (s.kmem t F.ptIndex) ≠ l.frameAddr) (h2 : 2 ≤ refs s.toTables l.frameAddr) (hleft : FramesLeft 1 s.fr) :
    ∃ s', s.cowBody (F.addr u) l = some s' ∧ IsFrame s'.fr l.frameAddr ∧
      (s'.cowFinish (F.addr u) l).fr.frameRefCount (frameIndex l.frameAddr) + 1 =
        refs (s'.cowFinish (F.addr u) l).toTables l.frameAddr := by
  obtain ⟨g, fr, ha, -⟩ := hleft.allocate
  have hcount : s.fr.frameRefCount (frameIndex l.frameAddr) ≠ 1 := by
    rw [h.inv.agree.counts _ hf]
    omega
  obtain ⟨m, hm⟩ := Vm.cowBody_copy (F.addr u) hcount ha
  obtain ⟨hg, hg0, hn, hag⟩ := h.inv.agree.allocate ha
  have hgne : g ≠ l.frameAddr := fun e => by
    rw [← e, hg0] at h2
    omega
  rw [hpt, F.getPtIndex_addr] at hm
  have hg' : IsFrame (addRefCount l.frameAddr (-1) fr) g := ⟨hg.1, hg.2.1, hn.symm ▸ hg.2.2⟩
  have hfr : incRefCount g (addRefCount l.frameAddr (-1) fr) = addRefCount l.frameAddr (-1) (addRefCount g 1 fr) := by
    rw [incRefCount_frame hg', addRefCount_comm]
  rw [hfr] at hm
  have hf' : IsFrame (addRefCount g 1 fr) l.frameAddr := ⟨hf.1, hf.2.1, hn.symm ▸ hf.2.2⟩
  refine ⟨_, hm, hf', ?_⟩
  -- the entry that is written leads from one frame to another, and neither is the shared one
  have hbase : base (Vm.cowCopied (s.kmem t F.ptIndex) g ||| READ_WRITE_ENABLE) = g :=
    (base_write _).trans (base_cowCopied hg.1)
  have h0 : bit (Vm.cowCopied (s.kmem t F.ptIndex) g ||| READ_WRITE_ENABLE) 0 = true :=
    calc _ = bit (Vm.cowCopied (s.kmem t F.ptIndex) g) 0 := bit_write_of_ne _ (by decide) (by decide)
      _ = bit (s.kmem t F.ptIndex) 0 := bit_cowCopied hg.1 (by decide) (by decide)
      _ = true := h.present
  have hrefs := h.refs_put h0 l.frameAddr
  rw [hbase, List.count_singleton, if_neg (by simpa using hne), List.count_singleton, if_neg
    (by simpa using hgne)] at hrefs
  have hcountf := hag.counts _ hf'
  rw [plus_ne _ hgne.symm] at hcountf
  unfold Vm.cowFinish
  dsimp only [Vm.setWord, Vm.setCurPd]
  rw [hpt, F.getPtIndex_addr, setWord_self, setWord_setWord]
  show (if frameIndex l.frameAddr = frameIndex l.frameAddr then
    (addRefCount g 1 fr).frameRefCount (frameIndex l.frameAddr) + -1 else _) + 1 = _
  rw [if_pos rfl, hcountf]
  omega

theorem start_wrong (h : CowPage pd t F.pdIndex F.ptIndex s) (hu : ∀ u, USER_MEM_START ≤ (F.addr u).toNat)
    (hw : bit (s.kmem t F.ptIndex) 1 = false) (h3 : 3 ≤ refs s.toTables (base (s.kmem t F.ptIndex)))
    (hleft : FramesLeft 2 s.fr) :
    ∃ x, Relation.ReflTransGen (Step F) (start s) x ∧ (∀ u, (x.pc u).Returned) ∧ ¬ x.Right F := by
  let l : CowLocals := ⟨t, base (s.kmem t F.ptIndex)⟩
  have hpte : ∀ u, s.pte s.cr3 (F.addr u) = s.kmem t F.ptIndex := fun u => pte_eq (x := start s) h u
  have hcow : ∀ u, s.isAddrCow (F.addr u) = true := fun u =>
    Vm.isAddrCow_of (hu u) (by rw [hpte]; exact h.present) (by rw [hpte]; exact hw)
  have hread : ∀ u, s.cowRead (F.addr u) = l := fun u => cowRead_eq (x := start s) h u
  -- both threads read the frame address
  let x₁ := (start s).goto false .read s
  let x₂ := x₁.goto false (.lock l) s
  let x₃ := x₂.goto true .read s
  let x₄ := x₃.goto true (.lock l) s
  have h₁ : Step F (start s) x₁ := by
    have := Step.check (F := F) (x := start s) (t := false) rfl
    rwa [show (start s).vm.isAddrCow (F.addr false) = true from hcow false, if_pos rfl] at this
  have h₂ : Step F x₁ x₂ := by
    have := Step.read (F := F) (x := x₁) (t := false) goto_pc_self
    rwa [show x₁.vm.cowRead (F.addr false) = l from hread false] at this
  have h₃ : Step F x₂ x₃ := by
    have := Step.check (F := F) (x := x₂) (t := true) rfl
    rwa [show x₂.vm.isAddrCow (F.addr true) = true from hcow true, if_pos rfl] at this
  have h₄ : Step F x₃ x₄ := by
    have := Step.read (F := F) (x := x₃) (t := true) goto_pc_self
    rwa [show x₃.vm.cowRead (F.addr true) = l from hread true] at this
  -- the first thread copies the page
  obtain ⟨g, fr, ha, hleft₁⟩ := hleft.allocate
  obtain ⟨s₁, hs₁, hc⟩ := h.copies (l := l) rfl (F.getPtIndex_addr false) rfl (by omega) ha
  have hless := hc.less
  have hfr₁ : IsFrame s₁.fr l.frameAddr := hc.page.inv.agree.frames _ (by show refs s₁.toTables (base _) ≠ 0; omega)
  obtain ⟨y, hy, hvm, hpc, hlocks⟩ := run_locked (x := x₄) (u := false) (l := l) rfl rfl h.isFrame hs₁ hfr₁
  have hwrite := cowFinish_page (u := false) (l := l) hc.page rfl (hc.frame.symm ▸ hc.sole)
  rw [← hvm] at hwrite
  -- the second thread copies it again
  have hrefs : refs y.vm.toTables l.frameAddr = refs s₁.toTables l.frameAddr := congrFun hwrite.2.1 _
  obtain ⟨s₂, hs₂, hfr₂, hwrong⟩ := copy_again (u := true) (l := l) hwrite.1 rfl (hwrite.2.2.1 ▸ hfr₁)
    (hwrite.2.2.2 ▸ hc.frame ▸ hc.ne) (by rw [hrefs]; show 2 ≤ refs s₁.toTables (base _); omega)
    (hwrite.2.2.1 ▸ (hc.left 1).mpr hleft₁)
  have hpc' : y.pc true = .lock l := by
    rw [hpc]
    rfl
  obtain ⟨z, hz, hvm', hpc₂, -⟩ := run_locked hpc' hlocks (hwrite.2.2.1 ▸ hfr₁) hs₂ hfr₂
  refine ⟨z, .head h₁ (.head h₂ (.head h₃ (.head h₄ (hy.trans hz)))), fun u => ?_, fun hr => ?_⟩
  · rw [hpc₂, hpc]
    cases u <;> trivial
  · have hcount := hr.1 l.frameAddr (by rw [hvm']; exact hfr₂)
    rw [hvm'] at hcount
    omega

/-- The handlers keep the counts in every interleaving if and only if no third
entry shares the frame, or there are no two free frames. -/
theorem cow_faults_right_iff (F : CowFaults) {s : Vm} (h : s.Inv) (hpd : s.cr3 ∈ s.pds)
    (hu : USER_MEM_START ≤ (F.addr false).toNat) (hp : bit (s.pte s.cr3 (F.addr false)) 0 = true)
    (hw : bit (s.pte s.cr3 (F.addr false)) 1 = false) (hn : 2 ≤ refs s.toTables (base (s.pte s.cr3 (F.addr false)))) :
    (∀ x, Reach (· = start s) (Step F) x → (∀ u, (x.pc u).Returned) → x.Right F) ↔
      refs s.toTables (base (s.pte s.cr3 (F.addr false))) = 2 ∨ ¬ FramesLeft 2 s.fr := by
  have hidx : KERNEL_MAP_NUM_ENTRIES ≤ F.pdIndex.val := Vm.user_index hu
  have hus : ∀ u, USER_MEM_START ≤ (F.addr u).toNat := fun u => by
    rw [← Nat.not_lt, ← kernel_index_iff, F.getPdIndex_addr]
    omega
  have hpage : CowPage s.cr3 (s.ptAddr s.cr3 (F.addr false)) F.pdIndex F.ptIndex s :=
    ⟨h, rfl, h.kernel.tableAt hpd hidx (ne_default_of_present hp), hp⟩
  constructor
  · intro hall
    by_contra hcon
    obtain ⟨hne, hleft⟩ := not_or.mp hcon
    obtain ⟨x, hx, hret, hwrong⟩ := start_wrong hpage hus hw (by
      show 3 ≤ refs s.toTables (base (s.pte s.cr3 (F.addr false)))
      omega) (not_not.mp hleft)
    exact hwrong (hall x ⟨_, rfl, hx⟩ hret)
  · intro hbound x hx hret
    have hinv : Inv F s.cr3 (s.ptAddr s.cr3 (F.addr false)) (base (s.pte s.cr3 (F.addr false))) x := by
      refine hx.invariant (fun y hy => ?_) fun _ _ hi hs => hi.step hus hs
      subst hy
      exact ⟨hpage, nofun, .inl ⟨rfl, hn, hbound, hw, fun _ => trivial⟩⟩
    exact hinv.right hret

end

end CowRun

/-! ## A page of three tasks -/

namespace Vm

def cowLoop (pd : Word) : List Index → Vm → Vm
  | [], s => s
  | i :: is, s =>
    if s.kmem pd i ≠ PAGE_DIR_ENTRY_DEFAULT then cowLoop pd is (makePtCow (getAddrFromEntry (s.kmem pd i)) s)
    else cowLoop pd is s

theorem makePagesCow_loop {pd : Word} (h : pd ≠ 0#32) (s : Vm) : makePagesCow pd s = cowLoop pd userIndices s := by
  unfold makePagesCow
  rw [if_neg h]
  generalize userIndices = is
  induction is generalizing s with
  | nil => rfl
  | cons i is ih =>
    rw [List.foldl_cons, ih, cowLoop]
    split <;> rfl

def cloned (pd newPd : Word) (s : Vm) : Vm :=
  cowLoop newPd userIndices (cowLoop pd userIndices (cloneTables pd newPd userIndices s.createPageDirectory.2).2)

theorem clonePagingInfo_cloned {pd newPd : Word} {s : Vm} (h : pd ≠ 0#32) (hnew : newPd ≠ 0#32)
    (hc : s.createPageDirectory.1 = some newPd)
    (ht : (cloneTables pd newPd userIndices s.createPageDirectory.2).1 = true) :
    clonePagingInfo pd s = (some newPd, cloned pd newPd s) := by
  unfold clonePagingInfo
  rw [if_neg h, show s.createPageDirectory = (some newPd, s.createPageDirectory.2) from Prod.ext hc rfl]
  dsimp only
  rw [show cloneTables pd newPd userIndices s.createPageDirectory.2 =
    (true, (cloneTables pd newPd userIndices s.createPageDirectory.2).2) from Prod.ext ht rfl]
  dsimp only
  rw [makePagesCow_loop h, makePagesCow_loop hnew]
  rfl

def largerBoot : Vm :=
  { smallBoot with avail := (List.range 13).map fun i => BitVec.ofNat 32 ((i + 1) * PAGE_SIZE) }

def oneTask : Vm := ((mapSegment 0x01000000#32 1#32 0x5000#32 DATA_FLAGS (vmInit 4 largerBoot)).getD (0, largerBoot)).2

def twoTasks : Vm := oneTask.cloned 0x5000#32 0x7000#32

def threeTasks : Vm := twoTasks.cloned 0x5000#32 0x9000#32

theorem oneTask_reach : Reach Booted MemStep oneTask := by
  have hav : largerBoot.avail.all (fun a => decide (Aligned a ∧ a ≠ 0#32)) = true := by decide +kernel
  have hboot : Boot largerBoot :=
    ⟨rfl, fun _ => rfl, by decide +kernel, fun a ha => of_decide_eq_true (List.all_eq_true.mp hav a ha)⟩
  have hbooted : Booted (vmInit 4 largerBoot) := ⟨4, largerBoot, by decide, by decide, hboot, rfl, by decide +kernel⟩
  have hm : (mapSegment 0x01000000#32 1#32 0x5000#32 DATA_FLAGS
    (vmInit 4 largerBoot)).isSome = true := by decide +kernel
  obtain ⟨⟨r, s⟩, hm⟩ := Option.isSome_iff_exists.mp hm
  have hs : s = oneTask := by
    unfold oneTask
    rw [hm]
    rfl
  exact (Reach.start hbooted).tail
    (.mapSegment (by decide +kernel) mapFlags_data (by decide) (by decide) (hs ▸ hm))

theorem twoTasks_reach : Reach Booted MemStep twoTasks :=
  oneTask_reach.tail (.clonePagingInfo (by decide +kernel)
    (clonePagingInfo_cloned (by decide) (by decide) (by decide +kernel) (by decide +kernel)))

theorem threeTasks_reach : Reach Booted MemStep threeTasks :=
  twoTasks_reach.tail (.clonePagingInfo (by decide +kernel)
    (clonePagingInfo_cloned (by decide) (by decide) (by decide +kernel) (by decide +kernel)))

end Vm

namespace CowRun

open Vm

def firstPage : CowFaults where
  addr u := if u then 0x01000004#32 else 0x01000000#32
  same := by decide

/-- With one other task the counts stay right. -/
theorem cow_faults_right_iff_twoTasks : refs twoTasks.toTables 0x01000000#32 = 2 ∧
    ∀ x, Reach (· = start twoTasks) (Step firstPage) x → (∀ u, (x.pc u).Returned) → x.Right firstPage := by
  have hi := reach_inv twoTasks_reach
  obtain ⟨hpd, hbase, hp, hw, hframe, hcount⟩ : twoTasks.cr3 ∈ twoTasks.pds ∧
      base (twoTasks.pte twoTasks.cr3 0x01000000#32) = 0x01000000#32 ∧
      bit (twoTasks.pte twoTasks.cr3 0x01000000#32) 0 = true ∧ bit (twoTasks.pte twoTasks.cr3 0x01000000#32) 1 = false ∧
      IsFrame twoTasks.fr 0x01000000#32 ∧ twoTasks.fr.frameRefCount (frameIndex 0x01000000#32) = 2 := by decide +kernel
  have hrefs : refs twoTasks.toTables 0x01000000#32 = 2 := by
    have := hi.agree.counts _ hframe
    rw [hcount] at this
    exact_mod_cast this.symm
  have hrefs' : refs twoTasks.toTables (base (twoTasks.pte twoTasks.cr3 (firstPage.addr false))) = 2 :=
    (congrArg (refs twoTasks.toTables) hbase).trans hrefs
  exact ⟨hrefs, (cow_faults_right_iff firstPage hi hpd (by decide) hp hw (by omega)).mpr (.inl hrefs')⟩

/-- With two other tasks, a run in which both threads read the frame first ends
with a count that is too low. -/
theorem cow_faults_wrong_threeTasks : Reach Booted MemStep threeTasks ∧ refs threeTasks.toTables 0x01000000#32 = 3 ∧
    ∃ x, Reach (· = start threeTasks) (Step firstPage) x ∧ (∀ u, (x.pc u).Returned) ∧ ¬ x.Right firstPage := by
  have hi := reach_inv threeTasks_reach
  obtain ⟨hpd, hbase, hp, hw, hframe, hcount, hhead, hnext, hthird, hend⟩ : threeTasks.cr3 ∈ threeTasks.pds ∧
      base (threeTasks.pte threeTasks.cr3 0x01000000#32) = 0x01000000#32 ∧
      bit (threeTasks.pte threeTasks.cr3 0x01000000#32) 0 = true ∧
      bit (threeTasks.pte threeTasks.cr3 0x01000000#32) 1 = false ∧
      IsFrame threeTasks.fr 0x01000000#32 ∧ threeTasks.fr.frameRefCount (frameIndex 0x01000000#32) = 3 ∧
      threeTasks.fr.freeListHead = 0x01001000#32 ∧ nextFree threeTasks.fr 0x01001000#32 = 0x01002000#32 ∧
      nextFree threeTasks.fr 0x01002000#32 = 0x01003000#32 ∧
      nextFree threeTasks.fr 0x01003000#32 = FREE_FRAME_LIST_END := by decide +kernel
  have hrefs : refs threeTasks.toTables 0x01000000#32 = 3 := by
    have := hi.agree.counts _ hframe
    rw [hcount] at this
    exact_mod_cast this.symm
  have hleft : FramesLeft 2 threeTasks.fr :=
    ⟨[0x01001000#32, 0x01002000#32, 0x01003000#32],
      ⟨hhead, by decide, hnext, by decide, hthird, by decide, hend⟩, by decide⟩
  have hpage : CowPage threeTasks.cr3 (threeTasks.ptAddr threeTasks.cr3 0x01000000#32) firstPage.pdIndex firstPage.ptIndex
      threeTasks := ⟨hi, rfl, hi.kernel.tableAt hpd (user_index (by decide)) (ne_default_of_present hp), hp⟩
  have h3 : 3 ≤ refs threeTasks.toTables (base (threeTasks.pte threeTasks.cr3 0x01000000#32)) := by
    rw [hbase, hrefs]
  obtain ⟨x, hx, hret, hwrong⟩ := start_wrong hpage (fun u => by cases u <;> decide) hw h3 hleft
  exact ⟨threeTasks_reach, hrefs, x, ⟨_, rfl, hx⟩, hret, hwrong⟩

end CowRun

end Pebbles
