/-
  Dram/ElfLoader.lean --- the ELF loader of the simulator library.

  `elfloader_read_elf` maps a file into memory, looks at it through the header
  structures of ELF32 or ELF64, copies the file bytes of the PT_LOAD segments
  into the buffer of a DRAM, and then checks the section headers and the symbol
  names.  The headers are read in the byte order of the host, which is little
  endian.

  Left out: the texts sent to `std::cout` and the table `symbols`, a local
  variable that is filled and never read.
-/
import SoftHier.Foundation.Bytes
import SoftHier.Foundation.Program

set_option autoImplicit false

namespace SoftHier.Dram.ElfLoader

open SoftHier.Foundation Program

/-- What ends the loader early. -/
inductive LoaderFault where
  /-- An `assert` fails. -/
  | assertion
  /-- A read past the end of the mapped file. -/
  | strayRead
  /-- Other behaviour C++ leaves undefined: a write past the buffer, an `int` that
  overflows. -/
  | undefined
  /-- `zeros.resize` is asked for more than a vector can hold. -/
  | lengthError
  /-- The 32-bit counter of the symbol loop never reaches its bound. -/
  | endless
deriving Repr, DecidableEq

/-! ## Reading the file -/

/-- The `n` bytes at `pos` as an unsigned number. -/
def field (file : Bytes) (pos n : Nat) : Except LoaderFault Nat :=
  if pos + n ≤ file.length then .ok (leValue (slice file pos n)) else .error .strayRead

/-- `assert`. -/
def check (b : Bool) : Except LoaderFault Unit :=
  if b then .ok () else .error .assertion

/-- `strcmp(s, literal) == 0`, where `s` points at `pos`. -/
def strEq (file : Bytes) (pos : Nat) : Bytes → Except LoaderFault Bool
  | [] =>
    match file[pos]? with
    | none => .error .strayRead
    | some b => .ok (b == 0)
  | c :: cs =>
    match file[pos]? with
    | none => .error .strayRead
    | some b => if b = c then strEq file (pos + 1) cs else .ok false

/-- `strnlen(s, n)`, where `s` points at `pos`. -/
def strnlen (file : Bytes) (pos : Nat) : Nat → Except LoaderFault Nat
  | 0 => .ok 0
  | n + 1 =>
    match file[pos]? with
    | none => .error .strayRead
    | some b => if b = 0 then .ok 0 else (· + 1) <$> strnlen file (pos + 1) n

/-! ## Headers -/

/-- Which set of structures `LOAD_ELF` is expanded with. -/
inductive ElfClass where
  | elf32
  | elf64
deriving Repr, DecidableEq

namespace ElfClass

/-- A sum of two file offsets or sizes keeps the width of their type. -/
def wrap : ElfClass → Nat → Nat
  | elf32, n => n % 2 ^ 32
  | elf64, n => n % 2 ^ 64

def phdrSize : ElfClass → Nat
  | elf32 => 32
  | elf64 => 56

def shdrSize : ElfClass → Nat
  | elf32 => 40
  | elf64 => 64

def symSize : ElfClass → Nat
  | elf32 => 16
  | elf64 => 24

/-- Where `st_value` stands in a symbol, and its size. -/
def stValueAt : ElfClass → Nat × Nat
  | elf32 => (4, 4)
  | elf64 => (8, 8)

end ElfClass

/-- `sizeof(Elf64_Ehdr)`. -/
def ehdrSize : Nat := 64

/-- `IS_ELF32` or `IS_ELF64`. -/
def elfClass? (file : Bytes) : Option ElfClass :=
  if file.take 4 = [0x7f, 0x45, 0x4c, 0x46] then
    if file[4]? = some 1 then some .elf32
    else if file[4]? = some 2 then some .elf64
    else none
  else none

/-- The fields of `Elf32_Ehdr` and `Elf64_Ehdr` that are used. -/
structure Ehdr where
  eEntry : Nat
  ePhoff : Nat
  eShoff : Nat
  ePhnum : Nat
  eShnum : Nat
  eShstrndx : Nat
deriving Repr, DecidableEq

def readEhdr (file : Bytes) : ElfClass → Except LoaderFault Ehdr
  | .elf32 => do
    let eEntry ← field file 24 4
    let ePhoff ← field file 28 4
    let eShoff ← field file 32 4
    let ePhnum ← field file 44 2
    let eShnum ← field file 48 2
    let eShstrndx ← field file 50 2
    return { eEntry, ePhoff, eShoff, ePhnum, eShnum, eShstrndx }
  | .elf64 => do
    let eEntry ← field file 24 8
    let ePhoff ← field file 32 8
    let eShoff ← field file 40 8
    let ePhnum ← field file 56 2
    let eShnum ← field file 60 2
    let eShstrndx ← field file 62 2
    return { eEntry, ePhoff, eShoff, ePhnum, eShnum, eShstrndx }

/-- The fields of `Elf32_Phdr` and `Elf64_Phdr` that are used. -/
structure Phdr where
  pType : Nat
  pOffset : Nat
  pPaddr : Nat
  pFilesz : Nat
  pMemsz : Nat
deriving Repr, DecidableEq

/-- `ph[i]`. -/
def readPhdr (file : Bytes) (c : ElfClass) (eh : Ehdr) (i : Nat) : Except LoaderFault Phdr :=
  let at_ := eh.ePhoff + i * c.phdrSize
  match c with
  | .elf32 => do
    let pType ← field file at_ 4
    let pOffset ← field file (at_ + 4) 4
    let pPaddr ← field file (at_ + 12) 4
    let pFilesz ← field file (at_ + 16) 4
    let pMemsz ← field file (at_ + 20) 4
    return { pType, pOffset, pPaddr, pFilesz, pMemsz }
  | .elf64 => do
    let pType ← field file at_ 4
    let pOffset ← field file (at_ + 8) 8
    let pPaddr ← field file (at_ + 24) 8
    let pFilesz ← field file (at_ + 32) 8
    let pMemsz ← field file (at_ + 40) 8
    return { pType, pOffset, pPaddr, pFilesz, pMemsz }

/-- The fields of `Elf32_Shdr` and `Elf64_Shdr` that are used. -/
structure Shdr where
  shName : Nat
  shType : Nat
  shOffset : Nat
  shSize : Nat
deriving Repr, DecidableEq

/-- `sh[i]`. -/
def readShdr (file : Bytes) (c : ElfClass) (eh : Ehdr) (i : Nat) : Except LoaderFault Shdr :=
  let at_ := eh.eShoff + i * c.shdrSize
  match c with
  | .elf32 => do
    let shName ← field file at_ 4
    let shType ← field file (at_ + 4) 4
    let shOffset ← field file (at_ + 16) 4
    let shSize ← field file (at_ + 20) 4
    return { shName, shType, shOffset, shSize }
  | .elf64 => do
    let shName ← field file at_ 4
    let shType ← field file (at_ + 4) 4
    let shOffset ← field file (at_ + 24) 8
    let shSize ← field file (at_ + 32) 8
    return { shName, shType, shOffset, shSize }

/-! ## Sections and symbols -/

/-- `unsigned max_len = size - name`. -/
def maxLen (size name : Nat) : Nat := (size + 2 ^ 64 - name) % 2 ^ 32

/-- `".strtab"`, `".shstrtab"` and `".symtab"`. -/
def strtabName : Bytes := [0x2e, 0x73, 0x74, 0x72, 0x74, 0x61, 0x62]
def shstrtabName : Bytes := [0x2e, 0x73, 0x68, 0x73, 0x74, 0x72, 0x74, 0x61, 0x62]
def symtabName : Bytes := [0x2e, 0x73, 0x79, 0x6d, 0x74, 0x61, 0x62]

/-- `strtabidx` and `symtabidx`. -/
structure Tables where
  strtabidx : Nat
  symtabidx : Nat
deriving Repr, DecidableEq

/-- One round of the loop over the section headers; `names` is the header of the
section that holds their names. -/
def checkSection (file : Bytes) (c : ElfClass) (eh : Ehdr) (names : Shdr) (found : Tables)
    (i : Nat) : Except LoaderFault Tables := do
  let sh ← readShdr file c eh i
  let name := names.shOffset + sh.shName
  if sh.shType &&& 0x11 ≠ 0 then
    if ! (← strEq file name strtabName) then
      if ! (← strEq file name shstrtabName) then
        let n := maxLen names.shSize sh.shName
        check (decide ((← strnlen file name n) < n))
  if sh.shType &&& 0x1 ≠ 0 then return found
  let found := if ← strEq file name strtabName then { found with strtabidx := i } else found
  return if ← strEq file name symtabName then { found with symtabidx := i } else found

/-- One round of the loop over the symbols. -/
def checkSymbol (file : Bytes) (c : ElfClass) (strtab symtab : Shdr) (i : Nat) :
    Except LoaderFault Unit := do
  let at_ := symtab.shOffset + i * c.symSize
  let stName ← field file at_ 4
  let n := maxLen strtab.shSize stName
  check (decide (stName < strtab.shSize))
  check (decide ((← strnlen file (strtab.shOffset + stName) n) < n))
  -- what is entered in `symbols`
  let _ ← field file (at_ + c.stValueAt.1) c.stValueAt.2

/-- The loop over the symbols.  Its counter is an `unsigned`, which never reaches a count
of `2 ^ 32` or more. -/
def checkSymbols (file : Bytes) (c : ElfClass) (strtab symtab : Shdr) :
    Except LoaderFault Unit := do
  let count := symtab.shSize / c.symSize
  (List.range (min count (2 ^ 32))).forM (checkSymbol file c strtab symtab)
  if 2 ^ 32 ≤ count then throw .endless

/-- `LOAD_ELF` behind the loop over the program headers. -/
def checkSections (file : Bytes) (c : ElfClass) (eh : Ehdr) : Except LoaderFault Unit := do
  check (decide ((eh.eShoff + eh.eShnum * c.shdrSize) % 2 ^ 64 ≤ file.length))
  check (decide (eh.eShstrndx < eh.eShnum))
  let names ← readShdr file c eh eh.eShstrndx
  check (decide (c.wrap (names.shOffset + names.shSize) ≤ file.length))
  let found ← (List.range eh.eShnum).foldlM (checkSection file c eh names) ⟨0, 0⟩
  if found.strtabidx ≠ 0 ∧ found.symtabidx ≠ 0 then
    let strtab ← readShdr file c eh found.strtabidx
    let symtab ← readShdr file c eh found.symtabidx
    checkSymbols file c strtab symtab

/-! ## Segments -/

/-- `dest_size` and `dest_base_addr`, each a `long long` that is used as an
unsigned number of 64 bits.  A size is not negative. -/
structure Dest where
  destSize : UInt64
  destBaseAddr : UInt64
  destSize_lt : destSize.toNat < 2 ^ 63
deriving DecidableEq

/-- The buffer of the DRAM, and the variables of the library the loader sets. -/
structure Loader where
  destBuffer : Bytes
  sections : List (Nat × Nat)
  entry : Nat
deriving Repr, DecidableEq

/-- One round of the loop of `write`; `buf` points at `pos` of the file. -/
def writeByte (file : Bytes) (dest : Dest) (address pos i : Nat) :
    Program LoaderFault Loader Unit := do
  let s ← get
  let index := UInt64.ofNat address - dest.destBaseAddr + UInt64.ofNat i
  if dest.destSize ≤ index then throw .assertion
  else
    match file[pos + i]? with
    | none => throw .strayRead
    | some byte =>
      if s.destBuffer.length ≤ index.toNat then throw .undefined
      else do
        modify fun s => { s with destBuffer := s.destBuffer.set index.toNat byte }
        -- `i` is an `int`
        if i + 1 = 2 ^ 31 then throw .undefined else pure ()

/-- `write`. -/
def write (file : Bytes) (dest : Dest) (address len pos : Nat) :
    Program LoaderFault Loader Unit :=
  forEach (writeByte file dest address pos) (List.range len)

/-- `PT_LOAD`. -/
def ptLoad : Nat := 1

/-- The body of the loop over the program headers. -/
def loadSegment (file : Bytes) (dest : Dest) (c : ElfClass) (ph : Phdr) :
    Program LoaderFault Loader Unit :=
  if ph.pType = ptLoad ∧ ph.pMemsz ≠ 0 then do
    if ph.pFilesz ≠ 0 then
      reading fun _ => check (decide (c.wrap (ph.pOffset + ph.pFilesz) ≤ file.length))
      modify fun s => { s with sections := s.sections ++ [(ph.pPaddr, ph.pMemsz)] }
      write file dest ph.pPaddr ph.pFilesz ph.pOffset
    -- `zeros.resize`
    if 2 ^ 63 ≤ c.wrap (ph.pMemsz + 2 ^ 64 - ph.pFilesz) then throw .lengthError
  else pure ()

/-- `elfloader_read_elf`. -/
def elfloaderReadElf (file : Bytes) (dest : Dest) : Program LoaderFault Loader Unit := do
  reading fun _ => check (decide (ehdrSize ≤ file.length))
  match elfClass? file with
  | none => throw .assertion
  | some c =>
    let eh ← reading fun _ => readEhdr file c
    modify fun s => { s with entry := eh.eEntry }
    reading fun _ =>
      check (decide ((eh.ePhoff + eh.ePhnum * c.phdrSize) % 2 ^ 64 ≤ file.length))
    forEach (fun i => do
        let ph ← reading fun _ => readPhdr file c eh i
        loadSegment file dest c ph)
      (List.range eh.ePhnum)
    reading fun _ => checkSections file c eh

end SoftHier.Dram.ElfLoader
