import Pebbles.Args
import Pebbles.Loader

/-!
# What the loader reads

`getbytes` beside the file that it names, and the image that `load_program` leaves in user memory.
-/

namespace Pebbles

open Words Bytes

structure Toc.Valid (toc : Toc) : Prop where
  names : (toc.map TocEntry.execname).Nodup
  short : ∀ e ∈ toc, e.execname.length < MAX_EXECNAME_LEN
  lengths : ∀ e ∈ toc, 0 ≤ e.execlen ∧ e.execlen < 2 ^ 31

def Toc.Names (toc : Toc) (filename : Option (List Byte)) (e : TocEntry) : Prop := e ∈ toc ∧ filename = some e.execname

def slice (e : TocEntry) (offset n : Nat) : List Byte := (List.range n).map fun i => e.execbytes (offset + i)

section
variable {toc : Toc} {filename : Option (List Byte)} {e : TocEntry} {offset size : Word}

theorem length_slice {off n : Nat} : (slice e off n).length = n := by simp [slice]

theorem sameName_iff {name : List Byte} (h : toc.Valid) (he : e ∈ toc) :
    sameName name e.execname = true ↔ name = e.execname := by
  have hlen := h.short e he
  have htake : e.execname.take MAX_EXECNAME_LEN = e.execname := List.take_of_length_le (Nat.le_of_lt hlen)
  rw [sameName, decide_eq_true_iff, htake]
  constructor
  · intro heq
    -- a name that is cut would have the full length
    have hcut := congrArg List.length heq
    rw [List.length_take] at hcut
    rwa [List.take_of_length_le (by omega)] at heq
  · intro heq
    rw [heq, htake]

theorem Toc.Names.eq {f : TocEntry} (h : toc.Valid) (hf : toc.Names filename f) (he : toc.Names filename e) : f = e :=
  List.inj_on_of_nodup_map h.names hf.1 he.1 (Option.some.inj (hf.2.symm.trans he.2))

theorem find_named {name : List Byte} (h : toc.Valid) (he : toc.Names (some name) e) :
    toc.find? (fun f => sameName name f.execname) = some e := by
  cases hf : toc.find? fun f => sameName name f.execname with
  | none =>
    have hsame := (sameName_iff h he.1).mpr (Option.some.inj he.2)
    exact absurd hsame (List.find?_eq_none.mp hf e he.1)
  | some f =>
    have hmem := List.mem_of_find?_eq_some hf
    have hsame : sameName name f.execname = true := by simpa using List.find?_some hf
    rw [Toc.Names.eq h ⟨hmem, congrArg some ((sameName_iff h hmem).mp hsame)⟩ he]

theorem find_absent {name : List Byte} (h : toc.Valid) (he : ∀ e, ¬ toc.Names (some name) e) :
    toc.find? (fun f => sameName name f.execname) = none := by
  rw [List.find?_eq_none]
  intro f hf hsame
  exact he f ⟨hf, congrArg some ((sameName_iff h hf).mp hsame)⟩

/-! ## getbytes -/

theorem getbytes_refused (h : size.toInt < 4 ∨ offset.toInt < 0) :
    getbytes toc filename offset size = (ERR_FAILURE, []) := by
  have hbad : size.toInt < 0 ∨ offset.toInt < 0 ∨ size.toNat < 4 := by
    by_cases hneg : size.toInt < 0
    · exact .inl hneg
    · have := toInt_of_nonneg (a := size) (by omega)
      omega
  unfold getbytes
  cases filename with
  | none => rfl
  | some name => exact if_pos hbad

theorem getbytes_absent (h : toc.Valid) (he : ∀ e, ¬ toc.Names filename e) :
    getbytes toc filename offset size = (ERR_FAILURE, []) := by
  unfold getbytes
  cases filename with
  | none => rfl
  | some name =>
    dsimp only
    rw [find_absent h he]
    exact ite_self _

theorem getbytes_named (h : toc.Valid) (he : toc.Names filename e) (hs : 4 ≤ size.toInt) (ho : 0 ≤ offset.toInt)
    {n : Int}
    (hn : (if (offset + size).toInt ≤ e.execlen then size.toInt else e.execlen - offset.toInt) = n) :
    getbytes toc filename offset size = if n ≤ 0 then (ERR_FAILURE, []) else (n, slice e offset.toNat n.toNat) := by
  have hnat := toInt_of_nonneg (a := size) (by omega)
  have hok : ¬ (size.toInt < 0 ∨ offset.toInt < 0 ∨ size.toNat < 4) := by omega
  obtain ⟨name, rfl⟩ : ∃ name, filename = some name := ⟨_, he.2⟩
  unfold getbytes
  dsimp only
  rw [if_neg hok, find_named h he]
  dsimp only
  rw [hn]
  rfl

theorem getbytes_cut (h : toc.Valid) (he : toc.Names filename e) (hs : 4 ≤ size.toInt) (ho : 0 ≤ offset.toInt)
    (hsum : offset.toInt + size.toInt < 2 ^ 31) :
    getbytes toc filename offset size = if offset.toInt < e.execlen then
      (min size.toInt (e.execlen - offset.toInt), slice e offset.toNat
      (min size.toInt (e.execlen - offset.toInt)).toNat)
    else (ERR_FAILURE, []) := by
  have hadd := toInt_add_of_lt (a := offset) (b := size) (by omega) hsum
  have hn : (if (offset + size).toInt ≤ e.execlen then size.toInt else e.execlen - offset.toInt) =
      min size.toInt (e.execlen - offset.toInt) := by
    rw [hadd]
    split <;> omega
  rw [getbytes_named h he hs ho hn]
  by_cases hlt : offset.toInt < e.execlen
  · rw [if_pos hlt, if_neg (by omega)]
  · rw [if_neg hlt, if_pos (by omega)]

theorem getbytes_overflow (h : toc.Valid) (he : toc.Names filename e) (hs : 4 ≤ size.toInt) (ho : 0 ≤ offset.toInt)
    (hsum : 2 ^ 31 ≤ offset.toInt + size.toInt) :
    getbytes toc filename offset size = (size.toInt, slice e offset.toNat size.toNat) := by
  have hlen := h.lengths e he.1
  have hadd := toInt_add_of_ge hsum
  have h₁ := size.toInt_lt
  have h₂ := offset.toInt_lt
  have hnat := toInt_of_nonneg (a := size) (by omega)
  rw [getbytes_named h he hs ho (if_pos (by omega)), if_neg (by omega), hnat, Int.toNat_natCast]

def Readable (toc : Toc) (filename : Option (List Byte)) (offset size : Word) (e : TocEntry) : Prop :=
  toc.Names filename e ∧ 0 ≤ offset.toInt ∧ offset.toInt < e.execlen ∧ 0 < size.toInt

/-- The slice of the file is read, and nothing else. The bytes that are put into the buffer are
the ones that are read of the file, from `offset` on. -/
structure ReadsSlice (toc : Toc) (filename : Option (List Byte)) (offset size : Word) : Prop where
  inside : ∀ e, Readable toc filename offset size e → getbytes toc filename offset size =
    (min size.toInt (e.execlen - offset.toInt), slice e offset.toNat (min size.toInt (e.execlen - offset.toInt)).toNat)
  outside : (∀ e, ¬ Readable toc filename offset size e) →
    (getbytes toc filename offset size).1 < 0 ∧ (getbytes toc filename offset size).2 = []
  bounded : ∀ e, toc.Names filename e → ∀ i < (getbytes toc filename offset size).2.length,
    ((offset.toNat + i : Nat) : Int) < e.execlen

/-- No byte of the file is asked for with a size of one to three, and the sum does not overflow. -/
def SliceSafe (toc : Toc) (filename : Option (List Byte)) (offset size : Word) : Prop :=
  ∀ e, toc.Names filename e → 0 ≤ offset.toInt → 0 < size.toInt →
    (size.toInt < 4 → e.execlen ≤ offset.toInt) ∧ (4 ≤ size.toInt → offset.toInt + size.toInt < 2 ^ 31)

theorem ReadsSlice.of_refused (h : getbytes toc filename offset size = (ERR_FAILURE, []))
    (hno : ∀ e, ¬ Readable toc filename offset size e) : ReadsSlice toc filename offset size where
  inside e he := absurd he (hno e)
  outside _ := by
    rw [h]
    exact ⟨by decide, rfl⟩
  bounded e _ i hi := by
    rw [h] at hi
    exact absurd hi (Nat.not_lt_zero i)

theorem ReadsSlice.of_cut (h : toc.Valid) (he : toc.Names filename e) (hs : 4 ≤ size.toInt) (ho : 0 ≤ offset.toInt)
    (hlt : offset.toInt < e.execlen) (hsum : offset.toInt + size.toInt < 2 ^ 31) :
    ReadsSlice toc filename offset size := by
  have hget := getbytes_cut h he hs ho hsum
  rw [if_pos hlt] at hget
  refine ⟨fun f hf => ?_, fun hno => absurd ⟨he, ho, hlt, by omega⟩ (hno e), fun f hf i hi => ?_⟩
  · rw [hf.1.eq h he]
    exact hget
  · rw [hf.eq h he]
    rw [hget, length_slice] at hi
    have hnat := toInt_of_nonneg ho
    omega

theorem ReadsSlice.not_small (hr : ReadsSlice toc filename offset size) (hsmall : size.toInt < 4) :
    ¬ Readable toc filename offset size e := by
  intro he
  have hget := congrArg Prod.fst (hr.inside e he)
  rw [getbytes_refused (.inl hsmall)] at hget
  have hneg : ERR_FAILURE < 0 := by decide
  have hlt := he.2.2.1
  have hs := he.2.2.2
  dsimp only at hget
  omega

theorem ReadsSlice.sum_lt (hr : ReadsSlice toc filename offset size) (h : toc.Valid) (he : toc.Names filename e)
    (hs : 4 ≤ size.toInt) (ho : 0 ≤ offset.toInt) : offset.toInt + size.toInt < 2 ^ 31 := by
  by_contra hsum
  have hlen := h.lengths e he.1
  have hb := hr.bounded e he (size.toNat - 1)
  rw [getbytes_overflow h he hs ho (by omega), length_slice] at hb
  have hnat := toInt_of_nonneg (a := size) (by omega)
  have hoff := toInt_of_nonneg ho
  have := hb (by omega)
  omega

theorem getbytes_reads_slice_iff (h : toc.Valid) :
    ReadsSlice toc filename offset size ↔ SliceSafe toc filename offset size := by
  constructor
  · intro hr e he ho hs
    refine ⟨fun hsmall => ?_, fun hbig => hr.sum_lt h he hbig ho⟩
    by_contra hlt
    exact hr.not_small hsmall ⟨he, ho, by omega, hs⟩
  · intro hsafe
    by_cases hex : ∃ e, toc.Names filename e
    · obtain ⟨e, he⟩ := hex
      by_cases hbad : size.toInt < 4 ∨ offset.toInt < 0
      · refine .of_refused (getbytes_refused hbad) fun f ⟨hf, ho, hlt, hs⟩ => ?_
        have := (hsafe f hf ho hs).1
        omega
      · have hsum := (hsafe e he (by omega) (by omega)).2 (by omega)
        by_cases hlt : offset.toInt < e.execlen
        · exact .of_cut h he (by omega) (by omega) hlt hsum
        · refine .of_refused ((getbytes_cut h he (by omega) (by omega) hsum).trans (if_neg hlt)) fun f hf => hlt ?_
          rw [← hf.1.eq h he]
          exact hf.2.2.1
    · have hno : ∀ e, ¬ toc.Names filename e := fun e he => hex ⟨e, he⟩
      exact .of_refused (getbytes_absent h hno) fun e he => hno e he.1

end

def tenBytes : TocEntry := ⟨[0x66#8], fun i => BitVec.ofNat 8 i, 10⟩

theorem tenBytes_valid : Toc.Valid [tenBytes] where
  names := by simp
  short e he := by
    rw [List.mem_singleton.mp he]
    decide
  lengths e he := by
    rw [List.mem_singleton.mp he]
    decide

theorem tenBytes_names : Toc.Names [tenBytes] (some [0x66#8]) tenBytes := ⟨List.mem_singleton_self _, rfl⟩

/-- The last six bytes, of the eight that are asked for. -/
theorem getbytes_reads_slice_six : ReadsSlice [tenBytes] (some [0x66#8]) 4#32 8#32 := by
  refine (getbytes_reads_slice_iff tenBytes_valid).mpr fun e _ _ _ => ⟨fun h => ?_, fun _ => by decide⟩
  exact absurd h (by decide)

/-- Two bytes of the file are refused; a size that overflows the sum is copied in full. -/
theorem getbytes_small_and_overflow : Toc.Valid [tenBytes] ∧ ¬ ReadsSlice [tenBytes] (some [0x66#8]) 0#32 2#32 ∧
    ¬ ReadsSlice [tenBytes] (some [0x66#8]) 4#32 0x7ffffffc#32 := by
  refine ⟨tenBytes_valid, ?_, ?_⟩
  · intro h
    exact h.not_small (by decide) ⟨tenBytes_names, by decide, by decide, by decide⟩
  · intro h
    exact absurd (h.sum_lt tenBytes_valid tenBytes_names (by decide) (by decide)) (by decide)

/-! ## Segments -/

structure Segment where
  start : Word
  len : Word
  off : Word
  buf : Option (Nat → Byte)

def SimpleElf.segments (se : SimpleElf) (buf : Vm.SegmentBuffers) : List Segment :=
  [⟨se.eTxtstart, se.eTxtlen, se.eTxtoff, buf.text⟩, ⟨se.eDatstart, se.eDatlen, se.eDatoff, buf.data⟩,
    ⟨se.eRodatstart, se.eRodatlen, se.eRodatoff, buf.rodata⟩]

namespace Segment

def InFile (g : Segment) (e : TocEntry) : Prop := g.len = 0#32 ∨ ((g.off.toNat + g.len.toNat : Nat) : Int) ≤ e.execlen

def Buffered (g : Segment) : Prop := 0 < g.len.toInt → g.buf.isSome = true

def Accepted (g : Segment) (e : TocEntry) : Prop :=
  0 < g.len.toInt → g.buf.isSome = true ∧ 4 ≤ g.len.toInt ∧ 0 ≤ g.off.toInt ∧
    (g.off.toInt < e.execlen ∨ 2 ^ 31 ≤ g.off.toInt + g.len.toInt)

def bytes (g : Segment) (toc : Toc) (filename : Option (List Byte)) : List Byte :=
  if 0 < g.len.toInt then
    (List.range g.len.toNat).map fun i => (getbytes toc filename g.off g.len).2.getD i (g.buf.elim 0#8 (· i))
  else []

def load (g : Segment) (toc : Toc) (filename : Option (List Byte)) (s : Vm) : Option (Int × Vm) :=
  s.loadSegment toc g.buf filename g.start g.len g.off

end Segment

section
variable {toc : Toc} {filename : Option (List Byte)} {e : TocEntry} {g : Segment} {l : List Segment} {s : Vm}

namespace Segment

theorem length_bytes_le : (g.bytes toc filename).length ≤ g.len.toNat := by
  unfold bytes
  split
  · simp
  · exact Nat.zero_le _

theorem getbytes_accepted (h : toc.Valid) (he : toc.Names filename e) (hs : 4 ≤ g.len.toInt) (ho : 0 ≤ g.off.toInt) :
    0 ≤ (getbytes toc filename g.off g.len).1 ↔ g.off.toInt < e.execlen ∨ 2 ^ 31 ≤ g.off.toInt + g.len.toInt := by
  have hneg : ERR_FAILURE < 0 := by decide
  by_cases hsum : g.off.toInt + g.len.toInt < 2 ^ 31
  · rw [getbytes_cut h he hs ho hsum]
    split
    · dsimp only
      omega
    · dsimp only
      omega
  · rw [getbytes_overflow h he hs ho (by omega)]
    dsimp only
    omega

theorem load_accepted (h : toc.Valid) (he : toc.Names filename e) (hg : g.Accepted e) :
    g.load toc filename s = (s.writeBytes g.start (g.bytes toc filename)).map fun s => ((0 : Int), s) := by
  unfold load Vm.loadSegment bytes
  by_cases hlen : 0 < g.len.toInt
  · obtain ⟨hbuf, hs, ho, hin⟩ := hg hlen
    obtain ⟨junk, hjunk⟩ := Option.isSome_iff_exists.mp hbuf
    have hok := (getbytes_accepted h he hs ho).mpr hin
    rw [if_pos hlen, if_pos hlen, hjunk]
    dsimp only [Option.elim]
    rw [if_neg (by omega)]
    cases s.writeBytes g.start _ <;> rfl
  · rw [if_neg hlen, if_neg hlen]
    rfl

theorem load_refused (h : toc.Valid) (he : toc.Names filename e) (hg : ¬ g.Accepted e) :
    ∃ r < 0, g.load toc filename s = some (r, s) := by
  have hneg : ERR_FAILURE < 0 := by decide
  unfold Accepted at hg
  push Not at hg
  obtain ⟨hlen, hbad⟩ := hg
  unfold load Vm.loadSegment
  rw [if_pos hlen]
  cases hbuf : g.buf with
  | none => exact ⟨ERR_NOMEM, by decide, rfl⟩
  | some junk =>
    have hret : (getbytes toc filename g.off g.len).1 < 0 := by
      by_cases hr : g.len.toInt < 4 ∨ g.off.toInt < 0
      · rw [getbytes_refused hr]
        exact hneg
      · have hout := hbad (by rw [hbuf]; rfl) (by omega) (by omega)
        have hiff := getbytes_accepted (g := g) h he (by omega) (by omega)
        omega
    dsimp only
    rw [if_pos hret]
    exact ⟨_, hret, rfl⟩

theorem bytes_inFile (h : toc.Valid) (he : toc.Names filename e) (hg : g.Accepted e) (hin : g.InFile e) :
    g.bytes toc filename = slice e g.off.toNat g.len.toNat := by
  have hL := h.lengths e he.1
  unfold bytes
  rcases hin with h0 | hin
  · rw [h0]
    rfl
  · by_cases hlen : 0 < g.len.toInt
    · obtain ⟨-, hs, ho, -⟩ := hg hlen
      have hlen' := toInt_of_nonneg (a := g.len) (by omega)
      have ho' := toInt_of_nonneg ho
      have hmin : min g.len.toInt (e.execlen - g.off.toInt) = g.len.toNat := by omega
      rw [if_pos hlen, getbytes_cut h he hs ho (by omega), if_pos (by omega), hmin, Int.toNat_natCast]
      refine List.ext_getElem (by simp [slice]) fun i h₁ h₂ => ?_
      rw [length_slice] at h₂
      simp [slice, h₂]
    · have h0 : g.len.toNat = 0 := by
        have hlt := g.len.isLt
        rw [BitVec.toInt_eq_toNat_cond] at hlen
        split at hlen <;> omega
      rw [if_neg hlen, h0]
      rfl

end Segment

namespace Vm

def loadSegments (toc : Toc) (filename : Option (List Byte)) (next : Vm → Option (Int × Vm)) :
    List Segment → Vm → Option (Int × Vm)
  | [], s => next s
  | g :: l, s => andThen (g.load toc filename s) (loadSegments toc filename next l)

def zeroBss (se : SimpleElf) (s : Vm) : Option (Int × Vm) :=
  match s.writeBytes se.eBssstart (List.replicate se.eBsslen.toNat 0#8) with
  | none => none
  | some s => some (0, s)

theorem loadProgram_eq {buf : SegmentBuffers} {se : SimpleElf} :
    s.loadProgram toc buf se = loadSegments toc se.eFname (zeroBss se) (se.segments buf) s := rfl

variable {next : Vm → Option (Int × Vm)}

theorem loadSegments_accepted (h : toc.Valid) (he : toc.Names filename e) (hacc : ∀ g ∈ l, g.Accepted e) :
    loadSegments toc filename next l s = (s.writeAll (l.map fun g => (g.start, g.bytes toc filename))).bind next := by
  induction l generalizing s with
  | nil => rfl
  | cons g l ih =>
    rw [loadSegments, Segment.load_accepted h he (hacc g List.mem_cons_self), List.map_cons, writeAll, List.foldlM_cons]
    cases s.writeBytes g.start (g.bytes toc filename) with
    | none => rfl
    | some s₁ => exact ih fun g' hg' => hacc g' (List.mem_cons_of_mem _ hg')

theorem loadSegments_refused (h : toc.Valid) (he : toc.Names filename e) (hp : ∀ g ∈ l, s.Present g.start g.len.toNat)
    (hno : ∃ g ∈ l, ¬ g.Accepted e) : ∃ r s', r < 0 ∧ loadSegments toc filename next l s = some (r, s') := by
  induction l generalizing s with
  | nil =>
    obtain ⟨g, hg, -⟩ := hno
    cases hg
  | cons g l ih =>
    by_cases hg : g.Accepted e
    · have hle : (g.bytes toc filename).length ≤ g.len.toNat := g.length_bytes_le
      obtain ⟨umem, hw⟩ := writeBytes_present ((hp g List.mem_cons_self).mono hle)
      have hno' : ∃ g ∈ l, ¬ g.Accepted e := by
        obtain ⟨g', hg', hacc⟩ := hno
        rcases List.mem_cons.mp hg' with rfl | hg'
        · exact absurd hg hacc
        · exact ⟨g', hg', hacc⟩
      rw [loadSegments, Segment.load_accepted h he hg, hw]
      exact ih (s := { s with umem := umem }) (fun g' hg' => hp g' (List.mem_cons_of_mem _ hg')) hno'
    · obtain ⟨r, hr, hload⟩ := Segment.load_refused (s := s) h he hg
      rw [loadSegments, hload]
      exact ⟨r, s, hr, if_pos hr⟩

/-! ## The image -/

theorem writeAll_disjoint {blocks : List (Word × List Byte)} (hs : s.Unaliased)
    (hp : ∀ p ∈ blocks, s.Present p.1 p.2.length) (hlen : ∀ p ∈ blocks, p.2.length ≤ 2 ^ 32)
    (hd : blocks.Pairwise fun p q => ∀ x, ¬ (Inside p.1 p.2.length x ∧ Inside q.1 q.2.length x)) :
    ∃ umem, s.writeAll blocks = some { s with umem := umem } ∧
      (∀ p ∈ blocks, ∀ i (hi : i < p.2.length),
        readByte { s with umem := umem } (p.1 + BitVec.ofNat 32 i) = some p.2[i]) ∧
      (∀ x : Word, USER_MEM_START ≤ x.toNat → (∀ p ∈ blocks, ¬ Inside p.1 p.2.length x) →
        readByte { s with umem := umem } x = s.readByte x) ∧
      ∀ f, (∀ p ∈ blocks, ∀ x, Inside p.1 p.2.length x → getAddrFromEntry (s.pte s.cr3 x) ≠ f) → umem f = s.umem f := by
  obtain ⟨umem, hw⟩ := writeAll_present hp
  refine ⟨umem, hw, fun p hmem i hi => ?_, fun x hx hout => ?_, fun f hf => writeAll_frames hp hw hf⟩
  · have hin : Inside p.1 p.2.length (p.1 + BitVec.ofNat 32 i) := inside_add hi (hlen p hmem)
    rw [readByte_writeAll hs hp hw (hp p hmem _ hin).1]
    have hd' : (blocks.map fun p => (p.1, p.2.map some)).Pairwise
        fun p q => ∀ x, ¬ (Inside p.1 p.2.length x ∧ Inside q.1 q.2.length x) := by
      rw [List.pairwise_map]
      simpa only [List.length_map] using hd
    have hcell := putAll_inside (m := s.readByte) hd' (List.mem_map_of_mem hmem) (i := i) (by simpa using hi)
      (by simpa using hlen p hmem)
    simpa using hcell
  · rw [readByte_writeAll hs hp hw hx]
    refine putAll_outside fun q hq => ?_
    obtain ⟨p, hmem, rfl⟩ := List.mem_map.mp hq
    simpa using hout p hmem

end Vm

end

def SimpleElf.ranges (se : SimpleElf) : List (Word × Nat) :=
  [(se.eTxtstart, se.eTxtlen.toNat), (se.eDatstart, se.eDatlen.toNat), (se.eRodatstart, se.eRodatlen.toNat),
    (se.eBssstart, se.eBsslen.toNat)]

structure SimpleElf.Placed (se : SimpleElf) (s : Vm) : Prop where
  mapped : ∀ p ∈ se.ranges, s.Present p.1 p.2
  disjoint : se.ranges.Pairwise fun p q => ∀ x, ¬ (Inside p.1 p.2 x ∧ Inside q.1 q.2 x)

/-- The segments are in memory as the file has them and `bss` is zero. Nothing else has changed:
no other byte of the address space, no frame that is at none of the four ranges, and no table. -/
structure Loaded (e : TocEntry) (se : SimpleElf) (buf : Vm.SegmentBuffers) (s s' : Vm) : Prop where
  segments : ∀ g ∈ se.segments buf, ∀ i < g.len.toNat,
    s'.readByte (g.start + BitVec.ofNat 32 i) = some (e.execbytes (g.off.toNat + i))
  bss : ∀ i < se.eBsslen.toNat, s'.readByte (se.eBssstart + BitVec.ofNat 32 i) = some 0#8
  rest : ∀ x : Word, USER_MEM_START ≤ x.toNat → (∀ p ∈ se.ranges, ¬ Inside p.1 p.2 x) → s'.readByte x = s.readByte x
  frames : ∀ f, (∀ p ∈ se.ranges, ∀ x, Inside p.1 p.2 x → getAddrFromEntry (s.pte s.cr3 x) ≠ f) → s'.umem f = s.umem f
  tables : s' = { s with umem := s'.umem }

def ImageOfFile (toc : Toc) (buf : Vm.SegmentBuffers) (se : SimpleElf) (e : TocEntry) (s : Vm) : Prop :=
  ∃ r s', s.loadProgram toc buf se = some (r, s') ∧ (r = 0 → Loaded e se buf s s') ∧
    ((∃ g ∈ se.segments buf, ¬ g.InFile e) → r < 0) ∧
    ((∀ g ∈ se.segments buf, g.InFile e) → (∀ g ∈ se.segments buf, g.Buffered) → r = 0)

/-- A segment that leaves the file is refused, or one of the others is; a segment of one to three bytes
does not come with segments that are all in the file. -/
def ImageSafe (buf : Vm.SegmentBuffers) (se : SimpleElf) (e : TocEntry) : Prop :=
  ((∀ g ∈ se.segments buf, g.Accepted e) → ∀ g ∈ se.segments buf, g.InFile e) ∧
    ((∀ g ∈ se.segments buf, g.InFile e) → (∀ g ∈ se.segments buf, g.Buffered) →
      ∀ g ∈ se.segments buf, ¬ (0 < g.len.toNat ∧ g.len.toNat < 4))

section
variable {toc : Toc} {buf : Vm.SegmentBuffers} {se : SimpleElf} {e : TocEntry} {s : Vm}

theorem Segment.accepted_iff {g : Segment} (hL : e.execlen < 2 ^ 31) (hin : g.InFile e) (hbuf : g.Buffered) :
    g.Accepted e ↔ ¬ (0 < g.len.toNat ∧ g.len.toNat < 4) := by
  unfold Accepted
  rcases hin with h0 | hin
  · simp [h0]
  · have hlen : g.len.toInt = g.len.toNat := BitVec.toInt_eq_toNat_of_lt (by omega)
    have hoff : g.off.toInt = g.off.toNat := BitVec.toInt_eq_toNat_of_lt (by omega)
    constructor
    · intro hacc hshort
      have := (hacc (by omega)).2.1
      omega
    · intro hshort hpos
      exact ⟨hbuf hpos, by omega, by omega, .inl (by omega)⟩

def SimpleElf.blocks (se : SimpleElf) (toc : Toc) (buf : Vm.SegmentBuffers) : List (Word × List Byte) :=
  (se.segments buf).map (fun g => (g.start, g.bytes toc se.eFname)) ++
    [(se.eBssstart, List.replicate se.eBsslen.toNat 0#8)]

theorem loadProgram_accepted (ht : toc.Valid) (he : toc.Names se.eFname e)
    (hacc : ∀ g ∈ se.segments buf, g.Accepted e) :
    s.loadProgram toc buf se = (s.writeAll (se.blocks toc buf)).map fun s => ((0 : Int), s) := by
  rw [Vm.loadProgram_eq, Vm.loadSegments_accepted ht he hacc, SimpleElf.blocks, Vm.writeAll, Vm.writeAll,
    List.foldlM_append]
  cases List.foldlM (fun s p => Vm.writeBytes p.1 p.2 s) s
      (List.map (fun g => (g.start, Segment.bytes g toc se.eFname)) (se.segments buf)) with
  | none => rfl
  | some s₁ =>
    change Vm.zeroBss se s₁ = Option.map _ (Option.bind (s₁.writeBytes se.eBssstart _) some)
    unfold Vm.zeroBss
    cases s₁.writeBytes se.eBssstart (List.replicate se.eBsslen.toNat 0#8) <;> rfl

theorem blocks_inFile (ht : toc.Valid) (he : toc.Names se.eFname e) (hacc : ∀ g ∈ se.segments buf, g.Accepted e)
    (hin : ∀ g ∈ se.segments buf, g.InFile e) :
    se.blocks toc buf = (se.segments buf).map (fun g => (g.start, slice e g.off.toNat g.len.toNat)) ++
      [(se.eBssstart, List.replicate se.eBsslen.toNat 0#8)] := by
  unfold SimpleElf.blocks
  congr 1
  refine List.map_congr_left fun g hg => ?_
  rw [Segment.bytes_inFile ht he (hacc g hg) (hin g hg)]

theorem SimpleElf.Placed.segment {g : Segment} (hm : se.Placed s) (hg : g ∈ se.segments buf) :
    s.Present g.start g.len.toNat := by
  have hranges : se.ranges = (se.segments buf).map
    (fun g => (g.start, g.len.toNat)) ++ [(se.eBssstart, se.eBsslen.toNat)] :=
    rfl
  have hmem : (g.start, g.len.toNat) ∈ se.ranges := by
    rw [hranges]
    exact List.mem_append_left _ (List.mem_map_of_mem hg)
  exact hm.mapped _ hmem

theorem SimpleElf.Placed.blocks (hm : se.Placed s) : ∀ p ∈ se.blocks toc buf, s.Present p.1 p.2.length := by
  intro p hp
  rcases List.mem_append.mp hp with hp | hp
  · obtain ⟨g, hg, rfl⟩ := List.mem_map.mp hp
    exact (hm.segment hg).mono g.length_bytes_le
  · rw [List.mem_singleton.mp hp, List.length_replicate]
    exact hm.mapped (se.eBssstart, se.eBsslen.toNat) (by simp [SimpleElf.ranges])

theorem loadProgram_loads (ht : toc.Valid) (he : toc.Names se.eFname e) (hs : s.Unaliased) (hm : se.Placed s)
    (hacc : ∀ g ∈ se.segments buf, g.Accepted e) (hin : ∀ g ∈ se.segments buf, g.InFile e) :
    ∃ s', s.loadProgram toc buf se = some (0, s') ∧ Loaded e se buf s s' := by
  have hblocks := blocks_inFile ht he hacc hin
  have hranges : (se.blocks toc buf).map (fun p => (p.1, p.2.length)) = se.ranges := by
    rw [hblocks]
    simp [SimpleElf.segments, SimpleElf.ranges, length_slice]
  have hmem : ∀ p ∈ se.blocks toc buf, (p.1, p.2.length) ∈ se.ranges := by
    intro p hp
    rw [← hranges]
    exact List.mem_map_of_mem hp
  have hlen : ∀ p ∈ se.ranges, p.2 ≤ 2 ^ 32 := by
    simp only [SimpleElf.ranges, List.forall_mem_cons]
    exact ⟨se.eTxtlen.isLt.le, se.eDatlen.isLt.le, se.eRodatlen.isLt.le, se.eBsslen.isLt.le, List.forall_mem_nil _⟩
  have hd := hm.disjoint
  rw [← hranges, List.pairwise_map] at hd
  obtain ⟨umem, hw, hcells, hrest, hframes⟩ := Vm.writeAll_disjoint hs hm.blocks
    (fun p hp => hlen _ (hmem p hp)) hd
  refine ⟨_, by rw [loadProgram_accepted ht he hacc, hw]; rfl, ?_⟩
  rw [hblocks] at hcells
  exact {
    segments := fun g hg i hi => by
      have hcell := hcells _ (List.mem_append_left _ (List.mem_map_of_mem hg)) i (by rwa [length_slice])
      simpa [slice] using hcell
    bss := fun i hi => by
      have hcell := hcells _ (List.mem_append_right _ (List.mem_singleton_self _)) i (by rwa [List.length_replicate])
      simpa using hcell
    rest := fun x hx hout => hrest x hx fun p hp => hout _ (hmem p hp)
    frames := fun f hf => hframes f fun p hp => hf _ (hmem p hp)
    tables := rfl }

theorem loadProgram_accepts (ht : toc.Valid) (he : toc.Names se.eFname e) (hm : se.Placed s)
    (hacc : ∀ g ∈ se.segments buf, g.Accepted e) : ∃ s', s.loadProgram toc buf se = some (0, s') := by
  obtain ⟨umem, hw⟩ := Vm.writeAll_present hm.blocks
  exact ⟨_, by rw [loadProgram_accepted ht he hacc, hw]; rfl⟩

theorem loadProgram_refuses (ht : toc.Valid) (he : toc.Names se.eFname e) (hm : se.Placed s)
    (hno : ∃ g ∈ se.segments buf, ¬ g.Accepted e) : ∃ r s', r < 0 ∧ s.loadProgram toc buf se = some (r, s') := by
  rw [Vm.loadProgram_eq]
  exact Vm.loadSegments_refused ht he (fun g hg => hm.segment hg) hno

theorem ImageOfFile.inFile (h : ImageOfFile toc buf se e s) (ht : toc.Valid) (he : toc.Names se.eFname e)
    (hm : se.Placed s)
    (hacc : ∀ g ∈ se.segments buf, g.Accepted e) : ∀ g ∈ se.segments buf, g.InFile e := by
  obtain ⟨r, s', hload, -, hneg, -⟩ := h
  by_contra hout
  push Not at hout
  obtain ⟨s₁, hload'⟩ := loadProgram_accepts ht he hm hacc
  have hr : r = 0 := congrArg Prod.fst (Option.some.inj (hload.symm.trans hload'))
  have := hneg hout
  omega

theorem ImageOfFile.accepted (h : ImageOfFile toc buf se e s) (ht : toc.Valid) (he : toc.Names se.eFname e)
    (hm : se.Placed s) (hin : ∀ g ∈ se.segments buf, g.InFile e) (hbuf : ∀ g ∈ se.segments buf, g.Buffered) :
    ∀ g ∈ se.segments buf, g.Accepted e := by
  obtain ⟨r, s', hload, -, -, hzero⟩ := h
  by_contra hno
  push Not at hno
  obtain ⟨r', s₁, hr', hload'⟩ := loadProgram_refuses ht he hm hno
  have hr : r = r' := congrArg Prod.fst (Option.some.inj (hload.symm.trans hload'))
  have := hzero hin hbuf
  omega

theorem load_program_image_iff (ht : toc.Valid) (he : toc.Names se.eFname e) (hs : s.Unaliased) (hm : se.Placed s) :
    ImageOfFile toc buf se e s ↔ ImageSafe buf se e := by
  have hL := (ht.lengths e he.1).2
  constructor
  · intro h
    refine ⟨fun hacc => h.inFile ht he hm hacc, fun hin hbuf g hg => ?_⟩
    exact (Segment.accepted_iff hL (hin g hg) (hbuf g hg)).mp (h.accepted ht he hm hin hbuf g hg)
  · intro ⟨hinside, hshort⟩
    by_cases hacc : ∀ g ∈ se.segments buf, g.Accepted e
    · obtain ⟨s', hload, hloaded⟩ := loadProgram_loads ht he hs hm hacc (hinside hacc)
      refine ⟨0, s', hload, fun _ => hloaded, fun ⟨g, hg, hout⟩ => absurd (hinside hacc g hg) hout, fun _ _ => rfl⟩
    · push Not at hacc
      obtain ⟨r, s', hr, hload⟩ := loadProgram_refuses ht he hm hacc
      refine ⟨r, s', hload, fun h0 => by omega, fun _ => hr, fun hin hbuf => ?_⟩
      obtain ⟨g, hg, hrefused⟩ := hacc
      exact absurd ((Segment.accepted_iff hL (hin g hg) (hbuf g hg)).mpr (hshort hin hbuf g hg)) hrefused

end

/-! ## Images on a stack page -/

def stackElf (txtlen txtoff datlen : Word) : SimpleElf where
  eFname := some [0x66#8]
  eEntry := 0xbfc00000#32
  eTxtoff := txtoff
  eTxtlen := txtlen
  eTxtstart := 0xbfc00000#32
  eDatoff := 0#32
  eDatlen := datlen
  eDatstart := 0xbfc00100#32
  eRodatoff := 0#32
  eRodatlen := 0#32
  eRodatstart := 0xbfc00200#32
  eBsslen := 4#32
  eBssstart := 0xbfc00300#32

def filledBuffers : Vm.SegmentBuffers := ⟨some fun _ => 0x41#8, some fun _ => 0x41#8, some fun _ => 0x41#8⟩

theorem stackVm_range {va : Word} {n : Nat} (h₁ : 0xbfc00000 ≤ va.toNat) (h₂ : va.toNat + n ≤ 0xc0000000) :
    Vm.stackVm.Present va n := by
  intro x hx
  rw [inside_iff (by omega)] at hx
  refine ⟨?_, ?_⟩
  · change 0x1000000 ≤ _
    omega
  · rw [Vm.stackVm_present, getPdIndex_val]
    omega

theorem not_inside_both {a b x : Word} {m n : Nat} (h : a.toNat + n ≤ b.toNat) (hb : b.toNat + m ≤ 2 ^ 32) :
    ¬ (Inside a n x ∧ Inside b m x) := by
  rw [inside_iff (by omega), inside_iff hb]
  omega

theorem stackElf_placed {txtlen txtoff datlen : Word} (h₁ : txtlen.toNat ≤ 0x100) (h₂ : datlen.toNat ≤ 0x100) :
    (stackElf txtlen txtoff datlen).Placed Vm.stackVm where
  mapped := by
    simp only [SimpleElf.ranges, stackElf, List.forall_mem_cons]
    refine ⟨stackVm_range (by decide) ?_, stackVm_range (by decide) ?_, stackVm_range (by decide) (by decide),
      stackVm_range (by decide) (by decide), List.forall_mem_nil _⟩
    · simp only [BitVec.toNat_ofNat]
      omega
    · simp only [BitVec.toNat_ofNat]
      omega
  disjoint := by
    simp only [SimpleElf.ranges, stackElf, List.pairwise_cons, List.forall_mem_cons, List.not_mem_nil, false_implies,
      implies_true, List.Pairwise.nil, and_true]
    refine ⟨⟨fun x => ?_, fun x => ?_, fun x => ?_⟩, ⟨fun x => ?_, fun x => ?_⟩, fun x => ?_⟩
    all_goals
      refine not_inside_both ?_ ?_
      all_goals
        simp only [BitVec.toNat_ofNat]
        omega

theorem stackElf_names {txtlen txtoff datlen : Word} :
    Toc.Names [tenBytes] (stackElf txtlen txtoff datlen).eFname tenBytes := tenBytes_names

/-- Eight bytes of text from the third byte of the file on. -/
theorem load_program_image_eight : ImageOfFile [tenBytes] filledBuffers (stackElf 8#32 2#32 0#32) tenBytes Vm.stackVm := by
  refine (load_program_image_iff tenBytes_valid stackElf_names Vm.stackVm_unaliased
    (stackElf_placed (by decide) (by decide))).mpr ?_
  have hin : ∀ g ∈ (stackElf 8#32 2#32 0#32).segments filledBuffers, g.InFile tenBytes := by
    simp only [SimpleElf.segments, stackElf, List.forall_mem_cons]
    exact ⟨.inr (by decide), .inl rfl, .inl rfl, List.forall_mem_nil _⟩
  refine ⟨fun _ => hin, fun _ _ => ?_⟩
  simp only [SimpleElf.segments, stackElf, List.forall_mem_cons]
  exact ⟨by decide, by decide, by decide, List.forall_mem_nil _⟩

/-- Data of two bytes is not loaded; text that goes on behind the end of the file is, with what the buffer held. -/
theorem load_program_short_and_cut :
    ¬ ImageOfFile [tenBytes] filledBuffers (stackElf 8#32 2#32 2#32) tenBytes Vm.stackVm ∧
      ¬ ImageOfFile [tenBytes] filledBuffers (stackElf 8#32 6#32 0#32) tenBytes Vm.stackVm := by
  constructor
  · intro h
    have hacc := h.accepted tenBytes_valid stackElf_names (stackElf_placed (by decide) (by decide))
    simp only [SimpleElf.segments, stackElf, List.forall_mem_cons] at hacc
    obtain ⟨-, hdata, -⟩ := hacc ⟨.inr (by decide), .inr (by decide), .inl rfl, List.forall_mem_nil _⟩
      ⟨fun _ => rfl, fun _ => rfl, fun _ => rfl, List.forall_mem_nil _⟩
    exact absurd (hdata (by decide)).2.1 (by decide)
  · intro h
    have hin := h.inFile tenBytes_valid stackElf_names (stackElf_placed (by decide) (by decide))
    simp only [SimpleElf.segments, stackElf, List.forall_mem_cons] at hin
    obtain ⟨htext, -⟩ := hin ⟨fun _ => ⟨rfl, by decide, by decide, .inl (by decide)⟩, fun h => absurd h (by decide),
      fun h => absurd h (by decide), List.forall_mem_nil _⟩
    exact absurd htext (by unfold Segment.InFile; decide)

end Pebbles
