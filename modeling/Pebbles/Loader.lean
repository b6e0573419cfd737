import Pebbles.Access

/-!
# The loader

Programs are read from the table of contents of the RAM disk; `loader.c` checks
the ELF header, collects the section headers and copies the segments to their
addresses in the current directory.
-/

namespace Pebbles

open Words

def MAX_EXECNAME_LEN : Nat := 256
def MAX_SECTION_NAME_LEN : Nat := 10
def PROG_PRESENT_VALID : Int := 0
def PROG_ABSENT_INVALID : Int := 1
def ELF_SUCCESS : Int := 0
def ELF_NOTELF : Int := -1

def EHDR_SIZE : Nat := 52

def SHDR_SIZE : Nat := 40

/-- An entry of `exec2obj_userapp_TOC`. `execbytes` is what the pointer leads
to, of which the first `execlen` bytes are the file. -/
structure TocEntry where
  execname : List Byte
  execbytes : Nat → Byte
  execlen : Int

abbrev Toc := List TocEntry

def sameName (a b : List Byte) : Bool := a.take MAX_EXECNAME_LEN = b.take MAX_EXECNAME_LEN

def getbytes (toc : Toc) (filename : Option (List Byte)) (offset size : Word) : Int × List Byte :=
  match filename with
  | none => (ERR_FAILURE, [])
  | some filename =>
    if size.toInt < 0 ∨ offset.toInt < 0 ∨ size.toNat < 4 then (ERR_FAILURE, [])
    else
      match toc.find? fun e => sameName filename e.execname with
      | none => (ERR_FAILURE, [])
      | some e =>
        let n := if (offset + size).toInt ≤ e.execlen then size.toInt else e.execlen - offset.toInt
        if n ≤ 0 then (ERR_FAILURE, [])
        else (n, (List.range n.toNat).map fun i => e.execbytes (offset.toNat + i))

/-! ## ELF headers -/

def half (b : List Byte) (i : Nat) : BitVec 16 := b.getD (i + 1) 0#8 ++ b.getD i 0#8

def word (b : List Byte) (i : Nat) : Word := half b (i + 2) ++ half b i

def elfCheckHeader (toc : Toc) (fname : List Byte) : Int :=
  match getbytes toc (some fname) 0#32 (BitVec.ofNat 32 EHDR_SIZE) with
  | (ret, hdr) =>
    if ret ≠ EHDR_SIZE then ELF_NOTELF
    else if hdr.take 4 ≠ [0x7f#8, 0x45#8, 0x4c#8, 0x46#8] then ELF_NOTELF
    else if half hdr 16 ≠ 2#16 then ELF_NOTELF
    else if half hdr 18 ≠ 3#16 then ELF_NOTELF
    else if word hdr 20 ≠ 1#32 then ELF_NOTELF
    else ELF_SUCCESS

def checkProgram (toc : Toc) (progName : List Byte) : Int :=
  if toc.any fun e => sameName progName e.execname && decide (elfCheckHeader toc progName = ELF_SUCCESS) then
    PROG_PRESENT_VALID
  else PROG_ABSENT_INVALID

def ascii (s : List Char) : List Byte := s.map fun c => BitVec.ofNat 8 c.toNat

/-- What one section header contributes, by the name of the section. -/
def setSection (sectionName hdr : List Byte) (se : SimpleElf) : SimpleElf :=
  let name := sectionName.takeWhile fun b => b ≠ 0#8
  if name = ascii ['.', 't', 'e', 'x', 't'] then
    { se with eTxtoff := word hdr 16, eTxtlen := word hdr 20, eTxtstart := word hdr 12 }
  else if name = ascii ['.', 'r', 'o', 'd', 'a', 't', 'a'] then
    { se with eRodatoff := word hdr 16, eRodatlen := word hdr 20, eRodatstart := word hdr 12 }
  else if name = ascii ['.', 'd', 'a', 't', 'a'] then
    { se with eDatoff := word hdr 16, eDatlen := word hdr 20, eDatstart := word hdr 12 }
  else if name = ascii ['.', 'b', 's', 's'] then { se with eBsslen := word hdr 20, eBssstart := word hdr 12 }
  else se

def loadSections (toc : Toc) (fname : List Byte) (shoff stringOffset : Word) :
    List Nat → SimpleElf → Int × SimpleElf
  | [], se => (ELF_SUCCESS, se)
  | i :: is, se =>
    match getbytes toc (some fname) (shoff + BitVec.ofNat 32 (i * SHDR_SIZE)) (BitVec.ofNat 32 SHDR_SIZE) with
    | (ret, hdr) =>
      if ret ≠ SHDR_SIZE then (ELF_NOTELF, se)
      else if word hdr 0 = 0#32 then loadSections toc fname shoff stringOffset is se
      else
        match getbytes toc (some fname) (stringOffset + word hdr 0) (BitVec.ofNat 32 MAX_SECTION_NAME_LEN) with
        | (ret, name) =>
          if ret < 0 then (ELF_NOTELF, se)
          else loadSections toc fname shoff stringOffset is (setSection name hdr se)

def elfLoadHelper (toc : Toc) (fname : List Byte) : Int × SimpleElf :=
  let se : SimpleElf := default
  match getbytes toc (some fname) 0#32 (BitVec.ofNat 32 EHDR_SIZE) with
  | (ret, hdr) =>
    if ret ≠ EHDR_SIZE then (ELF_NOTELF, se)
    else
      let se := { se with eEntry := word hdr 24, eFname := some fname }
      let shoff := word hdr 32
      match getbytes toc (some fname) (shoff + BitVec.ofNat 32 ((half hdr 50).toNat * SHDR_SIZE))
          (BitVec.ofNat 32 SHDR_SIZE) with
      | (ret, strHdr) =>
        if ret ≠ SHDR_SIZE then (ELF_NOTELF, se)
        else loadSections toc fname shoff (word strHdr 16) (List.range (half hdr 48).toNat) se

/-! ## Segments -/

namespace Vm

/-- `buf` is what `smalloc` returns for the buffer: nothing, or a buffer with
some contents. What the file does not fill of it is copied as well. -/
def loadSegment (toc : Toc) (buf : Option (Nat → Byte)) (filename : Option (List Byte)) (start len offset : Word)
    (s : Vm) : Option (Int × Vm) :=
  if 0 < len.toInt then
    match buf with
    | none => some (ERR_NOMEM, s)
    | some junk =>
      match getbytes toc filename offset len with
      | (ret, bytes) =>
        if ret < 0 then some (ret, s)
        else
          match s.writeBytes start ((List.range len.toNat).map fun i => bytes.getD i (junk i)) with
          | none => none
          | some s => some (0, s)
  else some (0, s)

structure SegmentBuffers where
  text : Option (Nat → Byte)
  data : Option (Nat → Byte)
  rodata : Option (Nat → Byte)

def loadProgram (toc : Toc) (buf : SegmentBuffers) (se : SimpleElf) (s : Vm) : Option (Int × Vm) :=
  andThen (s.loadSegment toc buf.text se.eFname se.eTxtstart se.eTxtlen se.eTxtoff) fun s =>
  andThen (s.loadSegment toc buf.data se.eFname se.eDatstart se.eDatlen se.eDatoff) fun s =>
  andThen (s.loadSegment toc buf.rodata se.eFname se.eRodatstart se.eRodatlen se.eRodatoff) fun s =>
  match s.writeBytes se.eBssstart (List.replicate se.eBsslen.toNat 0#8) with
  | none => none
  | some s => some (0, s)

end Vm

end Pebbles
