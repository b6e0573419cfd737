import Pebbles.Frames

/-!
# Virtual memory

The functions of `vm.c` on an explicit state. Directories and tables are kernel
pages of words; user memory is a frame of bytes per frame address. A pointer to
a user page is followed through the directory in `%cr3`, as the processor does.
-/

namespace Pebbles

open Words

/-- Directories and tables. `avail` lists the kernel pages that `smemalign`
hands out next, in order; when it is empty the allocation fails. `pds` are the
directories that were created and not freed. -/
structure Tables where
  kmem : Word → Index → Word
  directMap : Index → Word
  pds : Finset Word
  avail : List Word

structure Vm extends Tables where
  cr3 : Word
  fr : Frames
  umem : Word → Offset → Byte

def directEntry (i j : Index) : Word :=
  BitVec.ofNat 32 ((i.val * 1024 + j.val) * PAGE_SIZE) |||
    (PAGE_ENTRY_PRESENT ||| READ_WRITE_ENABLE ||| GLOBAL_PAGE_ENTRY)

namespace Tables

def setWord (tb : Tables) (page : Word) (i : Index) (w : Word) : Tables :=
  { tb with kmem := fun p j => if p = page ∧ j = i then w else tb.kmem p j }

def setPage (tb : Tables) (page : Word) (c : Index → Word) : Tables :=
  { tb with kmem := fun p => if p = page then c else tb.kmem p }

def ptAddr (tb : Tables) (pd va : Word) : Word := getAddrFromEntry (tb.kmem pd (getPdIndex va))

def pte (tb : Tables) (pd va : Word) : Word := tb.kmem (tb.ptAddr pd va) (getPtIndex va)

end Tables

namespace Vm

def setWord (s : Vm) (page : Word) (i : Index) (w : Word) : Vm :=
  { s with toTables := s.toTables.setWord page i w }

def setPage (s : Vm) (page : Word) (c : Index → Word) : Vm := { s with toTables := s.toTables.setPage page c }

def setFrame (s : Vm) (frame : Word) (c : Offset → Byte) : Vm :=
  { s with umem := fun f => if f = frame then c else s.umem f }

def withFrames (s : Vm) (g : Frames → Frames) : Vm := { s with fr := g s.fr }

def setCurPd (s : Vm) (pdAddr : Word) : Vm := { s with cr3 := pdAddr }

def readPage (s : Vm) (va : Word) : Offset → Byte := s.umem (getAddrFromEntry (s.pte s.cr3 va))

def writePage (s : Vm) (va : Word) (c : Offset → Byte) : Vm :=
  s.setFrame (getAddrFromEntry (s.pte s.cr3 va)) c

/-! ## Kernel pages -/

def smemalign (s : Vm) : Option Word × Vm :=
  match s.avail with
  | [] => (none, s)
  | a :: rest => (some a, { s with avail := rest })

def sfree (page : Word) (s : Vm) : Vm := { s with avail := page :: s.avail }

def createPageDirectory (s : Vm) : Option Word × Vm :=
  match s.smemalign with
  | (none, s) => (none, s)
  | (some frameAddr, s) =>
    let s := s.setPage frameAddr fun i =>
      if i.val < KERNEL_MAP_NUM_ENTRIES then s.directMap i ||| (PAGE_ENTRY_PRESENT ||| READ_WRITE_ENABLE)
      else PAGE_DIR_ENTRY_DEFAULT
    (some frameAddr, { s with pds := insert frameAddr s.pds })

def freePageDirectory (pdAddr : Word) (s : Vm) : Vm :=
  if pdAddr = 0#32 then s else sfree pdAddr { s with pds := s.pds.erase pdAddr }

def createPageTable (s : Vm) : Option Word × Vm :=
  match s.smemalign with
  | (none, s) => (none, s)
  | (some frameAddr, s) => (some frameAddr, s.setPage frameAddr fun _ => PAGE_TABLE_ENTRY_DEFAULT)

@[irreducible] def userIndices : List Index := (List.finRange 1024).filter fun i => KERNEL_MAP_NUM_ENTRIES ≤ i.val

def incrementRefCount (pt : Word) (s : Vm) : Vm :=
  if pt = 0#32 then s
  else s.withFrames fun fr => (List.finRange 1024).foldl (fun fr i =>
    if s.kmem pt i ≠ PAGE_TABLE_ENTRY_DEFAULT then incRefCount (getAddrFromEntry (s.kmem pt i)) fr else fr) fr

def clonePageTable (pt : Word) (s : Vm) : Option Word × Vm :=
  if pt = 0#32 then (none, s)
  else
    match s.createPageTable with
    | (none, s) => (none, s)
    | (some newPt, s) => (some newPt, incrementRefCount newPt (s.setPage newPt (s.kmem pt)))

def freePageTable (pt : Word) (s : Vm) : Vm :=
  if pt = 0#32 then s
  else sfree pt (s.withFrames fun fr => (List.finRange 1024).foldl (fun fr i =>
    if s.kmem pt i = PAGE_TABLE_ENTRY_DEFAULT then fr
    else dropRefCount true (getAddrFromEntry (s.kmem pt i)) fr) fr)

def freePagingInfo (pd : Word) (s : Vm) : Vm :=
  if pd = 0#32 then s
  else freePageDirectory pd (userIndices.foldl (fun s i =>
    if s.kmem pd i ≠ PAGE_DIR_ENTRY_DEFAULT then freePageTable (getAddrFromEntry (s.kmem pd i)) s else s) s)

/-! ## Copy-on-write -/

def cowEntry (e : Word) : Word :=
  if e = PAGE_TABLE_ENTRY_DEFAULT then e
  else if getFlagsFromEntry e &&& READ_WRITE_ENABLE ≠ 0#32 then (e ||| COW_MODE) &&& WRITE_DISABLE_MASK
  else e

def makePtCow (pt : Word) (s : Vm) : Vm :=
  if pt = 0#32 then s else s.setPage pt fun i => cowEntry (s.kmem pt i)

def makePagesCow (pd : Word) (s : Vm) : Vm :=
  if pd = 0#32 then s
  else userIndices.foldl (fun s i =>
    if s.kmem pd i ≠ PAGE_DIR_ENTRY_DEFAULT then makePtCow (getAddrFromEntry (s.kmem pd i)) s else s) s

/-- The loop of `clone_paging_info`; `false` when a table could not be made. -/
def cloneTables (pd newPd : Word) : List Index → Vm → Bool × Vm
  | [], s => (true, s)
  | i :: is, s =>
    if s.kmem pd i ≠ PAGE_DIR_ENTRY_DEFAULT then
      match clonePageTable (getAddrFromEntry (s.kmem pd i)) s with
      | (none, s) => (false, s)
      | (some newPt, s) => cloneTables pd newPd is (s.setWord newPd i (newPt ||| getFlagsFromEntry (s.kmem pd i)))
    else cloneTables pd newPd is s

def clonePagingInfo (pd : Word) (s : Vm) : Option Word × Vm :=
  if pd = 0#32 then (none, s)
  else
    match s.createPageDirectory with
    | (none, s) => (none, s)
    | (some newPd, s) =>
      match cloneTables pd newPd userIndices s with
      | (false, s) => (none, freePagingInfo newPd s)
      | (true, s) => (some newPd, makePagesCow newPd (makePagesCow pd s))

def isAddrCow (addr : Word) (s : Vm) : Bool :=
  if addr.toNat < USER_MEM_START then false
  else
    let e := s.pte s.cr3 addr
    e ||| COW_MODE ≠ 0#32 && !(e &&& READ_WRITE_ENABLE ≠ 0#32) && e &&& PAGE_ENTRY_PRESENT ≠ 0#32

def handleCow (addr : Word) (s : Vm) : Int × Vm :=
  let pd := s.cr3
  let pt := s.ptAddr pd addr
  let j := getPtIndex addr
  let frameAddr := getAddrFromEntry (s.kmem pt j)
  let pageAddr := pageRoundDown addr
  let s := s.withFrames (lockFrame frameAddr)
  if s.fr.frameRefCount (frameIndex frameAddr) = 1 then
    let s := s.setWord pt j (s.kmem pt j &&& COW_MODE_DISABLE_MASK)
    let s := s.withFrames (unlockFrame frameAddr)
    let s := s.setWord pt j (s.kmem pt j ||| READ_WRITE_ENABLE)
    (0, s.setCurPd pd)
  else
    let frameContents := s.readPage pageAddr
    match allocateFrame s.fr with
    | (none, fr) => (ERR_FAILURE, { s with fr := unlockFrame frameAddr fr })
    | (some newFrame, fr) =>
      let s := { s with fr := fr }
      let flags := getFlagsFromEntry (s.kmem pt j)
      let s := s.setWord pt j (newFrame ||| flags)
      let s := s.setWord pt j (s.kmem pt j &&& COW_MODE_DISABLE_MASK)
      let s := s.setCurPd pd
      let s := s.writePage pageAddr frameContents
      let s := s.withFrames (addRefCount frameAddr (-1))
      let s := s.withFrames (incRefCount newFrame)
      let s := s.withFrames (unlockFrame frameAddr)
      let s := s.setWord pt j (s.kmem pt j ||| READ_WRITE_ENABLE)
      (0, s.setCurPd pd)

/-! ## Mapping and unmapping -/

/-- The number of pages of the address space. A scan that has not ended after
as many rounds has come back to its first page. -/
def addressPages : Nat := 2 ^ 20

def zeroFill (addr : Word) (s : Vm) : Vm := if addr = 0#32 then s else s.writePage addr fun _ => 0#8

/-- The body of the loop of `map_segment`; `false` for `ERR_NOMEM`. -/
def mapPage (pdAddr flags startAddr : Word) (s : Vm) : Bool × Vm :=
  let i := getPdIndex startAddr
  let j := getPtIndex startAddr
  let (ok, s) :=
    if s.kmem pdAddr i = PAGE_DIR_ENTRY_DEFAULT then
      match s.createPageTable with
      | (some newPt, s) => (true, s.setWord pdAddr i (newPt ||| USER_PD_ENTRY_FLAGS))
      | (none, s) => (false, s)
    else (true, s)
  if ok then
    let pt := getAddrFromEntry (s.kmem pdAddr i)
    if s.kmem pt j = PAGE_TABLE_ENTRY_DEFAULT then
      match allocateFrame s.fr with
      | (some newFrame, fr) =>
        let s := { s with fr := incRefCount newFrame fr }
        let s := s.setWord pt j (newFrame ||| flags)
        (true, s.zeroFill startAddr)
      | (none, fr) => (false, { s with fr := fr })
    else (true, s)
  else (false, s)

/-- The loop of `map_segment`. `none`: the loop does not end. -/
def mapPages (pdAddr flags endAddr : Word) : Nat → Word → Vm → Option (Int × Vm)
  | n, startAddr, s =>
    if startAddr.toNat < endAddr.toNat then
      match n with
      | 0 => none
      | n + 1 =>
        match mapPage pdAddr flags startAddr s with
        | (true, s) => mapPages pdAddr flags endAddr n (startAddr + BitVec.ofNat 32 PAGE_SIZE) s
        | (false, s) => some (ERR_NOMEM, s)
    else some (0, s)

def mapSegment (startAddr length pdAddr flags : Word) (s : Vm) : Option (Int × Vm) :=
  mapPages pdAddr flags (startAddr + length) addressPages (pageRoundDown startAddr) (s.setCurPd pdAddr)

def mapNewPages (base length : Word) (s : Vm) : Option (Int × Vm) :=
  let pdAddr := s.cr3
  let endFrame := pageRoundDown (base + length - 1#32)
  let flags := PAGE_ENTRY_PRESENT ||| READ_WRITE_ENABLE ||| USER_MODE ||| NEWPAGE_PAGE
  match mapSegment base length pdAddr flags s with
  | none => none
  | some (retval, s) =>
    if retval < 0 then some (retval, s)
    else
      let s := s.setWord (s.ptAddr pdAddr endFrame) (getPtIndex endFrame) (setNewpageEnd (s.pte pdAddr endFrame))
      let s := s.setWord (s.ptAddr pdAddr base) (getPtIndex base) (setNewpageStart (s.pte pdAddr base))
      some (0, s.setCurPd pdAddr)

def unmapPage (pdAddr base : Word) (s : Vm) : Vm :=
  let frameAddr := getAddrFromEntry (s.pte pdAddr base)
  let s := s.withFrames (dropRefCount false frameAddr)
  s.setWord (s.ptAddr pdAddr base) (getPtIndex base) PAGE_TABLE_ENTRY_DEFAULT

/-- The loop of `unmap_new_pages`. `none`: the loop does not end. -/
def unmapPages (pdAddr : Word) : Nat → Word → Vm → Option Vm
  | n, base, s =>
    if getNewpageFlags (s.pte pdAddr base) = NEWPAGE_PAGE ∨ getNewpageFlags (s.pte pdAddr base) = NEWPAGE_END then
      match n with
      | 0 => none
      | n + 1 => unmapPages pdAddr n (base + BitVec.ofNat 32 PAGE_SIZE) (unmapPage pdAddr base s)
    else some s

def unmapNewPages (base : Word) (s : Vm) : Option (Int × Vm) :=
  let pdAddr := s.cr3
  if getNewpageFlags (s.pte pdAddr base) ≠ NEWPAGE_START then some (ERR_INVAL, s)
  else
    match unmapPages pdAddr addressPages (base + BitVec.ofNat 32 PAGE_SIZE) (unmapPage pdAddr base s) with
    | none => none
    | some s => some (0, s.setCurPd pdAddr)

/-! ## Checks on user ranges -/

/-- The loop of `is_memory_range_mapped`. `none`: the loop does not end. -/
def scanRange (endAddr : Word) (s : Vm) : Nat → Word → Option Int
  | n, base =>
    if base.toNat ≤ endAddr.toNat then
      if s.kmem s.cr3 (getPdIndex base) ≠ PAGE_DIR_ENTRY_DEFAULT ∧ s.pte s.cr3 base ≠ PAGE_TABLE_ENTRY_DEFAULT then
        some MEMORY_REGION_MAPPED
      else
        match n with
        | 0 => none
        | n + 1 => scanRange endAddr s n (base + BitVec.ofNat 32 PAGE_SIZE)
    else some MEMORY_REGION_UNMAPPED

def isMemoryRangeMapped (base len : Word) (s : Vm) : Option Int :=
  if base = 0#32 ∨ base.toNat > MAX_MEMORY_ADDR ∨ len.toInt ≤ 0 ∨ len.toNat > MAX_AVAILABLE_USER_MEM then
    some ERR_INVAL
  else if base.toNat < USER_MEM_START then some MEMORY_REGION_MAPPED
  else scanRange (base + len) s addressPages (pageRoundDown base)

def isMemoryWritable (ptr : Word) (s : Vm) : Int :=
  if s.kmem s.cr3 (getPdIndex ptr) ≠ PAGE_DIR_ENTRY_DEFAULT ∧ s.pte s.cr3 ptr ≠ PAGE_TABLE_ENTRY_DEFAULT ∧
      s.pte s.cr3 ptr &&& READ_WRITE_ENABLE ≠ 0#32 then 0
  else ERR_INVAL

/-! ## The memory system calls -/

def newPagesHandlerC (base len : Word) (s : Vm) : Option (Int × Vm) :=
  if len.toInt ≤ 0 ∨ len.toNat % PAGE_SIZE ≠ 0 ∨ base.toNat % PAGE_SIZE ≠ 0 then some (ERR_INVAL, s)
  else
    match isMemoryRangeMapped base len s with
    | none => none
    | some r => if r ≠ MEMORY_REGION_UNMAPPED then some (ERR_INVAL, s) else mapNewPages base len s

def removePagesHandlerC (base : Word) (s : Vm) : Option (Int × Vm) :=
  if base.toNat % PAGE_SIZE ≠ 0 then some (ERR_INVAL, s) else unmapNewPages base s

/-! ## User mode

A user access is checked by the processor in the directory entry and in the
table entry. A store that is refused faults, and is done again when the fault
handler returns to it. -/

def userReadable (s : Vm) (pd va : Word) : Bool :=
  bit (s.kmem pd (getPdIndex va)) 0 && bit (s.kmem pd (getPdIndex va)) 2 && bit (s.pte pd va) 0 && bit (s.pte pd va) 2

def userWritable (s : Vm) (pd va : Word) : Bool :=
  s.userReadable pd va && bit (s.kmem pd (getPdIndex va)) 1 && bit (s.pte pd va) 1

/-- The byte that user code running on directory `pd` reads at `va`. -/
def userLoad (s : Vm) (pd va : Word) : Option Byte :=
  if s.userReadable pd va then some (s.umem (getAddrFromEntry (s.pte pd va)) (pageOffset va)) else none

def putByte (va : Word) (b : Byte) (s : Vm) : Vm :=
  s.writePage va (Function.update (s.readPage va) (pageOffset va) b)

inductive FaultEnd where
  | resume
  | killCurrentThread
  | handleFault
  deriving DecidableEq

def pageFaultHandlerC (pageFaultAddr : Word) (s : Vm) : FaultEnd × Vm :=
  if isAddrCow pageFaultAddr s then
    match handleCow pageFaultAddr s with
    | (r, s) => if r < 0 then (.killCurrentThread, s) else (.resume, s)
  else (.handleFault, s)

/-- A user store on the current directory: how its fault ended, if it had one,
and the state, with the byte stored unless the fault was not resolved. -/
def userStore (va : Word) (b : Byte) (s : Vm) : FaultEnd × Vm :=
  if s.userWritable s.cr3 va then (.resume, s.putByte va b)
  else
    match pageFaultHandlerC va s with
    | (.resume, s) => (.resume, if s.userWritable s.cr3 va then s.putByte va b else s)
    | (e, s) => (e, s)

end Vm

/-! ## Segments of a program -/

structure SimpleElf where
  eFname : Option (List Byte)
  eEntry : Word
  eTxtoff : Word
  eTxtlen : Word
  eTxtstart : Word
  eDatoff : Word
  eDatlen : Word
  eDatstart : Word
  eRodatoff : Word
  eRodatlen : Word
  eRodatstart : Word
  eBsslen : Word
  eBssstart : Word
  deriving DecidableEq, Inhabited

namespace Vm

def TEXT_FLAGS : Word := PAGE_ENTRY_PRESENT ||| USER_MODE
def DATA_FLAGS : Word := PAGE_ENTRY_PRESENT ||| READ_WRITE_ENABLE ||| USER_MODE

def mapTextSegment (se : SimpleElf) (pdAddr : Word) (s : Vm) : Option (Int × Vm) :=
  mapSegment se.eTxtstart se.eTxtlen pdAddr TEXT_FLAGS s

def mapDataSegment (se : SimpleElf) (pdAddr : Word) (s : Vm) : Option (Int × Vm) :=
  mapSegment se.eDatstart se.eDatlen pdAddr DATA_FLAGS s

def mapRodataSegment (se : SimpleElf) (pdAddr : Word) (s : Vm) : Option (Int × Vm) :=
  mapSegment se.eRodatstart se.eRodatlen pdAddr TEXT_FLAGS s

def mapBssSegment (se : SimpleElf) (pdAddr : Word) (s : Vm) : Option (Int × Vm) :=
  mapSegment se.eBssstart se.eBsslen pdAddr DATA_FLAGS s

def mapStackSegment (pdAddr : Word) (s : Vm) : Option (Int × Vm) :=
  mapSegment (STACK_START - BitVec.ofNat 32 DEFAULT_STACK_SIZE + 1#32) (BitVec.ofNat 32 DEFAULT_STACK_SIZE)
    pdAddr DATA_FLAGS s

def andThen {σ : Type} (r : Option (Int × σ)) (next : σ → Option (Int × σ)) : Option (Int × σ) :=
  match r with
  | none => none
  | some (retval, s) => if retval < 0 then some (retval, s) else next s

def setupPageTable (se : SimpleElf) (pdAddr : Word) (s : Vm) : Option (Int × Vm) :=
  if pdAddr = 0#32 then some (ERR_FAILURE, s)
  else
    andThen (s.mapTextSegment se pdAddr) fun s =>
    andThen (s.mapDataSegment se pdAddr) fun s =>
    andThen (s.mapRodataSegment se pdAddr) fun s =>
    andThen (s.mapBssSegment se pdAddr) fun s =>
    andThen (s.mapStackSegment pdAddr) fun s =>
    some (0, s)

/-! ## Boot -/

def panic (s : Vm) : Vm := s.withFrames fun fr => { fr with panicked := true }

def setupDirectTable (i : Index) (s : Vm) : Vm :=
  match s.createPageTable with
  | (none, s) => s.panic
  | (some frameAddr, s) =>
    { s.setPage frameAddr (directEntry i) with directMap := Function.update s.directMap i frameAddr }

def setupDirectMap (s : Vm) : Vm := ([0, 1, 2, 3] : List Index).foldl (fun s i => setupDirectTable i s) s

def setupKernelPd (s : Vm) : Vm :=
  match s.createPageDirectory with
  | (none, s) => s.panic
  | (some kernelPd, s) => s.setCurPd kernelPd

/-- `vm_init` and `init_frame_allocator`, which clears the counts and builds the
free list of `freeFramesCount` frames. -/
def vmInit (freeFramesCount : Nat) (s : Vm) : Vm :=
  setupKernelPd (setupDirectMap { s with fr := initFreeList freeFramesCount })

end Vm

end Pebbles
