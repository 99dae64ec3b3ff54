import JarRepair.Archive.Access
import JarRepair.Archive.Container
import JarRepair.Archive.Entry
import JarRepair.Archive.Memory
import JarRepair.Archive.Path
import JarRepair.Bytes
import JarRepair.ClassFile.Access
import JarRepair.ClassFile.Annotation
import JarRepair.ClassFile.Bridge
import JarRepair.ClassFile.Decode
import JarRepair.ClassFile.Descriptor
import JarRepair.ClassFile.Encode
import JarRepair.ClassFile.Fault
import JarRepair.ClassFile.Marker
import JarRepair.ClassFile.Model
import JarRepair.ClassFile.ParameterSlots
import JarRepair.ClassFile.Parser
import JarRepair.ClassFile.Pool
import JarRepair.CommandLine.Arguments
import JarRepair.CommandLine.Program
import JarRepair.Deflate.Bits
import JarRepair.Deflate.Block
import JarRepair.Deflate.CodeLengths
import JarRepair.Deflate.Huffman
import JarRepair.Deflate.Inflate
import JarRepair.Deflate.LengthCode
import JarRepair.Deflate.Token
import JarRepair.Deflate.Words
import JarRepair.Digest
import JarRepair.Directory.Tree
import JarRepair.Directory.Writer
import JarRepair.Error
import JarRepair.Log.Config
import JarRepair.Log.Filter
import JarRepair.Log.Level
import JarRepair.Log.Logger
import JarRepair.Log.Note
import JarRepair.Log.Sink
import JarRepair.Main
import JarRepair.Proofs.Archive.Contents
import JarRepair.Proofs.Bytes
import JarRepair.Proofs.ClassFile.Annotations
import JarRepair.Proofs.ClassFile.Codec
import JarRepair.Proofs.ClassFile.ConstantPool
import JarRepair.Proofs.ClassFile.Markers
import JarRepair.Proofs.ClassFile.Methods
import JarRepair.Proofs.ClassFile.PoolGrowth
import JarRepair.Proofs.ClassFile.Realignment
import JarRepair.Proofs.ClassFile.Repaired
import JarRepair.Proofs.Outcome
import JarRepair.Proofs.Reading
import JarRepair.Proofs.Repair.Ancestors
import JarRepair.Proofs.Repair.Answers
import JarRepair.Proofs.Repair.Edits
import JarRepair.Proofs.Repair.Entries
import JarRepair.Proofs.Repair.Frame
import JarRepair.Proofs.Repair.Idempotence
import JarRepair.Proofs.Repair.Lookup
import JarRepair.Proofs.Repair.Overriding
import JarRepair.Proofs.Repair.Settled
import JarRepair.Proofs.Task
import JarRepair.Proofs.Words
import JarRepair.Repair.Ancestors
import JarRepair.Repair.Cache
import JarRepair.Repair.Entries
import JarRepair.Repair.Override
import JarRepair.Repair.Run
import JarRepair.Task
import JarRepair.Volume.Basic
import JarRepair.Volume.Changes
import JarRepair.Volume.Operations
import JarRepair.Volume.Path
import JarRepair.Volume.Stream
import JarRepair.Zip.Archive
import JarRepair.Zip.Header
import JarRepair.Zip.Writer
import JarRepair.Proofs.Repair.Targets
import JarRepair.Proofs.Repair.Reachability
import JarRepair.Proofs.Repair.Tally
import JarRepair.Proofs.Repair.Order
import JarRepair.Proofs.Archive.Listing
import JarRepair.Proofs.Zip.Header
import JarRepair.Proofs.Zip.Calls
import JarRepair.Proofs.Zip.RoundTrip
import JarRepair.Proofs.Deflate.Ratio
import JarRepair.Proofs.Zip.Listing
import JarRepair.Proofs.Zip.Image
import JarRepair.Proofs.Repair.ZipToZip
import JarRepair.Proofs.Volume.Path
import JarRepair.Proofs.Volume.Nodes
import JarRepair.Proofs.Volume.Walk
import JarRepair.Proofs.Volume.Resolve
import JarRepair.Proofs.Volume.Operations
import JarRepair.Proofs.Volume.Creation
import JarRepair.Proofs.Volume.Enclosure
import JarRepair.Proofs.Volume.Sibling
import JarRepair.Proofs.Volume.Leftover
import JarRepair.Proofs.Directory.Staging
import JarRepair.Proofs.Zip.Save
import JarRepair.Proofs.Repair.Keeping
import JarRepair.Proofs.Archive.Output
import JarRepair.Proofs.Repair.Run
import JarRepair.Proofs.Repair.Projection
import JarRepair.Proofs.Repair.Requests
import JarRepair.Proofs.Repair.Copying
import JarRepair.Proofs.Repair.Fallback
import JarRepair.Proofs.Volume.Inside
import JarRepair.Proofs.Volume.Apart
import JarRepair.Proofs.Directory.Calls
import JarRepair.Proofs.Directory.Atomic
import JarRepair.Proofs.ClassFile.LeadingSlots
import JarRepair.Proofs.Zip.Comment
import JarRepair.Proofs.Zip.Fields
import JarRepair.Proofs.Zip.Bounds
import JarRepair.Proofs.Zip.Entries
import JarRepair.Proofs.ClassFile.PrefixFree
import JarRepair.Proofs.ClassFile.ParameterCounts
import JarRepair.Proofs.ClassFile.DescriptorGrammar
import JarRepair.Proofs.ClassFile.References
import JarRepair.Proofs.ClassFile.Forwarding
import JarRepair.Proofs.ClassFile.Bridges
import JarRepair.Proofs.Repair.Blame
import JarRepair.Proofs.Repair.FirstFailure
import JarRepair.Proofs.ClassFile.RepairCounts
import JarRepair.Proofs.Repair.Reported
import JarRepair.Proofs.Zip.Replay
import JarRepair.Proofs.Repair.Overridden
import JarRepair.Proofs.Log.Json
import JarRepair.Proofs.Log.Lines
import JarRepair.Proofs.Deflate.Canonical
import JarRepair.Proofs.Deflate.Format
import JarRepair.Proofs.Deflate.Parsing
import JarRepair.Proofs.Deflate.Lengths
import JarRepair.Proofs.Deflate.Content
import JarRepair.Proofs.Deflate.Streams
import JarRepair.Proofs.Deflate.Pieces
import JarRepair.Proofs.Log.Filter
import JarRepair.Proofs.Log.Thresholds
import JarRepair.Proofs.CommandLine.Spellings
import JarRepair.Proofs.ClassFile.PoolSlots
import JarRepair.Proofs.Archive.Confinement
