import ClassAbi.Archive.Input
import ClassAbi.Archive.Output
import ClassAbi.Buffer
import ClassAbi.ClassFile.Access
import ClassAbi.ClassFile.Attribute
import ClassAbi.ClassFile.Constant
import ClassAbi.ClassFile.ConstantTable
import ClassAbi.ClassFile.Declaration
import ClassAbi.ClassFile.Delivery
import ClassAbi.ClassFile.EncodeFault
import ClassAbi.ClassFile.Encoder
import ClassAbi.ClassFile.Event
import ClassAbi.ClassFile.Layout
import ClassAbi.ClassFile.Magic
import ClassAbi.ClassFile.Pool
import ClassAbi.ClassFile.PoolEntry
import ClassAbi.ClassFile.ReadError
import ClassAbi.ClassFile.Reader
import ClassAbi.ClassFile.Scan
import ClassAbi.ClassFile.ValueEncoder
import ClassAbi.CommandLine.Integer
import ClassAbi.CommandLine.Options
import ClassAbi.CommandLine.TokenStream
import ClassAbi.CommandLine.UsageError
import ClassAbi.CommandLine.Words
import ClassAbi.Crc32
import ClassAbi.Decimal
import ClassAbi.Deflate.Bits
import ClassAbi.Deflate.Code
import ClassAbi.Deflate.Compress
import ClassAbi.Deflate.Inflate
import ClassAbi.Deflate.Symbol
import ClassAbi.Extraction.Collection
import ClassAbi.Extraction.EntryName
import ClassAbi.Extraction.Task
import ClassAbi.Fatal
import ClassAbi.Files.Disk
import ClassAbi.Files.FileStream
import ClassAbi.Files.FileView
import ClassAbi.Files.SystemError
import ClassAbi.Host
import ClassAbi.Logging.Handler
import ClassAbi.Logging.Level
import ClassAbi.Logging.Message
import ClassAbi.Main
import ClassAbi.Outline.Annotations
import ClassAbi.Outline.Class
import ClassAbi.Outline.Member
import ClassAbi.Outline.Order
import ClassAbi.Program
import ClassAbi.Proofs.Actions
import ClassAbi.Proofs.ArchiveLayout
import ClassAbi.Proofs.ArchiveReadBack
import ClassAbi.Proofs.ArchiveReading
import ClassAbi.Proofs.ArchiveRecords
import ClassAbi.Proofs.ArchiveSession
import ClassAbi.Proofs.Bits
import ClassAbi.Proofs.CanonicalOrder
import ClassAbi.Proofs.Chains
import ClassAbi.Proofs.Conformance
import ClassAbi.Proofs.Constants
import ClassAbi.Proofs.DeclarationParts
import ClassAbi.Proofs.DeflateRoundTrip
import ClassAbi.Proofs.Deliveries
import ClassAbi.Proofs.DiskPaths
import ClassAbi.Proofs.FixedCodes
import ClassAbi.Proofs.LegibleDeclarations
import ClassAbi.Proofs.Lookups
import ClassAbi.Proofs.NormalForm
import ClassAbi.Proofs.Numbers
import ClassAbi.Proofs.OutlineFiles
import ClassAbi.Proofs.ParameterTables
import ClassAbi.Proofs.PoolGrowth
import ClassAbi.Proofs.Positions
import ClassAbi.Proofs.ReadBack
import ClassAbi.Proofs.ReadDeclarations
import ClassAbi.Proofs.RecordedOutline
import ClassAbi.Proofs.RoundTrip
import ClassAbi.Proofs.StoredAnnotations
import ClassAbi.Proofs.StoredClass
import ClassAbi.Proofs.StoredLayout
import ClassAbi.Proofs.StoredPool
import ClassAbi.Proofs.StoredValues
import ClassAbi.Proofs.Surface
import ClassAbi.Proofs.Targets
import ClassAbi.Proofs.UniqueReading
import ClassAbi.Proofs.WellFormedFiles
import ClassAbi.Proofs.WrittenAttributes
import ClassAbi.Proofs.WrittenClass
import ClassAbi.Proofs.WrittenDrafts
import ClassAbi.Proofs.WrittenFile
import ClassAbi.Proofs.WrittenMembers
import ClassAbi.Proofs.WrittenSizes
import ClassAbi.Proofs.WrittenValues
import ClassAbi.Text
import ClassAbi.WorkerPool
import ClassAbi.WorkerPool.Shared
import ClassAbi.Zip.Number
import ClassAbi.Zip.Record
import ClassAbi.Proofs.DirectoryWalk
import ClassAbi.Proofs.Gathering
import ClassAbi.Proofs.DamagedDirectories
import ClassAbi.Proofs.ArchiveCommit
import ClassAbi.Extraction.Schedule
import ClassAbi.Proofs.PoolRuns
import ClassAbi.Proofs.Schedules
import ClassAbi.Proofs.ExtractionResults
import ClassAbi.Proofs.ProgramRuns
import ClassAbi.Proofs.FoundLayouts
import ClassAbi.Proofs.CarriedContents
import ClassAbi.Proofs.CutFiles
import ClassAbi.Proofs.DecodedAttributes
import ClassAbi.Proofs.PoolSupply
import ClassAbi.Proofs.StorableDeclarations
import ClassAbi.Proofs.SuppliedValues
import ClassAbi.Proofs.SuppliedClasses
import ClassAbi.Proofs.StorableReading
import ClassAbi.Proofs.StoredIntegers
import ClassAbi.Proofs.RebuiltPools
import ClassAbi.Proofs.CheckedReader
import ClassAbi.Proofs.CheckedLookups
import ClassAbi.Proofs.CheckedPool
import ClassAbi.Proofs.CheckedDeliveries
import ClassAbi.Proofs.CheckedReading
import ClassAbi.Proofs.PoolOrder
import ClassAbi.Proofs.PoolCalls
import ClassAbi.Proofs.QueuedOutlines
import ClassAbi.Proofs.ArchiveHistory
import ClassAbi.Proofs.WrittenCounts
import ClassAbi.Proofs.LocatedDirectories
import ClassAbi.Proofs.BoundedWalks
import ClassAbi.Proofs.ArchiveComments
import ClassAbi.Proofs.EntryContents
import ClassAbi.Proofs.CommandWords
import ClassAbi.Proofs.OptionGroups
import ClassAbi.Proofs.EntryNames
import ClassAbi.Proofs.SharedPools
import ClassAbi.Proofs.FirstItems
import ClassAbi.Proofs.AppendedValues
