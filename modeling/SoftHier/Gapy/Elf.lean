/-
  Gapy/Elf.lean --- what the ELF reader of the Python tools hands over.

  `elftools` itself is not part of the repository.  The tools use an ELF file
  as an entry point and a list of segments, each with its header fields and its
  file bytes, and rely on `segment.data()` being the `p_filesz` bytes of the
  segment.
-/
import SoftHier.Foundation.Bytes

set_option autoImplicit false

namespace SoftHier.Gapy

open SoftHier.Foundation

/-- One segment of an ELF file, as `iter_segments()` yields it. -/
structure ElfSegment where
  pType : String
  pPaddr : Nat
  pFilesz : Nat
  pMemsz : Nat
  data : Bytes
  data_length : data.length = pFilesz
  deriving DecidableEq

/-- An ELF file, as `ELFFile` presents it. -/
structure ElfFile where
  eEntry : Nat
  segments : List ElfSegment
  deriving DecidableEq

namespace ElfSegment

/-- `segment['p_type'] == 'PT_LOAD'`. -/
def IsLoad (s : ElfSegment) : Prop := s.pType = "PT_LOAD"

instance (s : ElfSegment) : Decidable s.IsLoad := inferInstanceAs (Decidable (_ = _))

/-- The byte the loadable range of a segment puts at an address: the file bytes
first, then zeros up to the memory size. -/
def loadByte (s : ElfSegment) (a : Nat) : Option UInt8 :=
  if a < s.pPaddr then none
  else if a < s.pPaddr + s.pFilesz then s.data[a - s.pPaddr]?
  else if a < s.pPaddr + s.pMemsz then some 0
  else none

end ElfSegment

namespace ElfFile

/-- The segments to be loaded. -/
def loads (elf : ElfFile) : List ElfSegment := elf.segments.filter fun s => s.IsLoad

/-- No address belongs to two loadable ranges. -/
def DisjointLoads (elf : ElfFile) : Prop :=
  elf.loads.Pairwise fun s t => ∀ a, s.loadByte a = none ∨ t.loadByte a = none

end ElfFile

end SoftHier.Gapy
