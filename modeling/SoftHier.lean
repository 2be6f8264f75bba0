import SoftHier.Dram.Assembly
import SoftHier.Dram.Calls
import SoftHier.Dram.Conv
import SoftHier.Dram.ConvBuffers
import SoftHier.Dram.ConvOrder
import SoftHier.Dram.ConvRuns
import SoftHier.Dram.Ddr
import SoftHier.Dram.ElfBlocks
import SoftHier.Dram.ElfImage
import SoftHier.Dram.ElfLoader
import SoftHier.Dram.ElfReads
import SoftHier.Dram.ElfTables
import SoftHier.Dram.Exclusion
import SoftHier.Dram.Ledger
import SoftHier.Dram.LineCount
import SoftHier.Dram.Lines
import SoftHier.Dram.Memory
import SoftHier.Dram.Phases
import SoftHier.Dram.Polling
import SoftHier.Dram.Preload
import SoftHier.Dram.Progress
import SoftHier.Dram.Quiescence
import SoftHier.Dram.ReadOrder
import SoftHier.Dram.Responses
import SoftHier.Dram.Sections
import SoftHier.Dram.Sending
import SoftHier.Dram.Spans
import SoftHier.Dram.World
import SoftHier.Dram.WriteImage
import SoftHier.Foundation.BinaryPoly
import SoftHier.Foundation.Bitwise
import SoftHier.Foundation.Blocks
import SoftHier.Foundation.ByteMap
import SoftHier.Foundation.Bytes
import SoftHier.Foundation.Dict
import SoftHier.Foundation.Framing
import SoftHier.Foundation.Json
import SoftHier.Foundation.Lists
import SoftHier.Foundation.Numeral
import SoftHier.Foundation.Program
import SoftHier.Foundation.Refines
import SoftHier.Foundation.Reorder
import SoftHier.Foundation.Replay
import SoftHier.Foundation.Transition
import SoftHier.Foundation.Utf8
import SoftHier.Gapy.BlockSections
import SoftHier.Gapy.CStruct
import SoftHier.Gapy.CommandLine
import SoftHier.Gapy.Commands
import SoftHier.Gapy.Crc
import SoftHier.Gapy.DefaultFlash
import SoftHier.Gapy.DumpLayout
import SoftHier.Gapy.Elf
import SoftHier.Gapy.Flash
import SoftHier.Gapy.FlashAlignment
import SoftHier.Gapy.FlashArguments
import SoftHier.Gapy.FlashImage
import SoftHier.Gapy.FlashLayout
import SoftHier.Gapy.FlashOverlap
import SoftHier.Gapy.FlashPrepare
import SoftHier.Gapy.FlashProperties
import SoftHier.Gapy.FlashSection
import SoftHier.Gapy.FlashSession
import SoftHier.Gapy.FlashSize
import SoftHier.Gapy.ForcedSize
import SoftHier.Gapy.ImageCommand
import SoftHier.Gapy.ImageSoundness
import SoftHier.Gapy.LastWriter
import SoftHier.Gapy.LayoutFiles
import SoftHier.Gapy.LayoutPlan
import SoftHier.Gapy.LayoutPrefix
import SoftHier.Gapy.PartitionImage
import SoftHier.Gapy.PartitionSection
import SoftHier.Gapy.PlanEntries
import SoftHier.Gapy.PlannedContent
import SoftHier.Gapy.PlannedFiles
import SoftHier.Gapy.PlannedFlash
import SoftHier.Gapy.PlannedSections
import SoftHier.Gapy.ReadBack
import SoftHier.Gapy.ReadfsImage
import SoftHier.Gapy.ReadfsNames
import SoftHier.Gapy.ReadfsSection
import SoftHier.Gapy.RomHeader
import SoftHier.Gapy.RomImage
import SoftHier.Gapy.RomNext
import SoftHier.Gapy.RomSection
import SoftHier.Gapy.RtlTestbench
import SoftHier.Gapy.SectionBuild
import SoftHier.Gapy.SectionDefaults
import SoftHier.Gapy.SectionDumps
import SoftHier.Gapy.SectionIdentity
import SoftHier.Gapy.SectionImage
import SoftHier.Gapy.SectionLayout
import SoftHier.Gapy.SectionLookup
import SoftHier.Gapy.SectionPlacement
import SoftHier.Gapy.SectionSizes
import SoftHier.Gapy.SectionTables
import SoftHier.Gapy.SizeRejection
import SoftHier.Gapy.StimuliImage
import SoftHier.Gapy.StimuliOrder
import SoftHier.Gapy.StructAlloc
import SoftHier.Gapy.StructSpec
import SoftHier.Gapy.Target
import SoftHier.Gapy.TargetProperties
import SoftHier.Gapy.Templates
import SoftHier.Gapy.Truncation
import SoftHier.Gapy.Value
