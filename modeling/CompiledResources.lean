import CompiledResources.Text
import CompiledResources.Text.Numeral
import CompiledResources.Text.Blank
import CompiledResources.Text.Quoted
import CompiledResources.Text.Utf8
import CompiledResources.Binary64
import CompiledResources.Binary64.Shortest
import CompiledResources.Keyed
import CompiledResources.OrderedMap
import CompiledResources.Fault
import CompiledResources.Bytes
import CompiledResources.Bytes.Cursor
import CompiledResources.Notice
import CompiledResources.Decoder
import CompiledResources.Chunk
import CompiledResources.Chunk.Header
import CompiledResources.StringPool
import CompiledResources.Qualifiers
import CompiledResources.Qualifiers.Field
import CompiledResources.ResourceId
import CompiledResources.Value
import CompiledResources.Value.Record
import CompiledResources.Value.Bag
import CompiledResources.Entry
import CompiledResources.Entry.Index
import CompiledResources.Model
import CompiledResources.Model.Merge
import CompiledResources.Model.Lookup
import CompiledResources.Contents
import CompiledResources.Contents.Decoding
import CompiledResources.Contents.Position
import CompiledResources.Path
import CompiledResources.FileTree
import CompiledResources.Table
import CompiledResources.Table.Stream
import CompiledResources.Table.Session
import CompiledResources.Table.History
import CompiledResources.Table.Object
import CompiledResources.Rendering
import CompiledResources.Console
import CompiledResources.CommandLine
import CompiledResources.Model.Store
import CompiledResources.Model.Ownership
import CompiledResources.Main
import CompiledResources.Layout.Number
import CompiledResources.Layout.StringPool
import CompiledResources.Layout.Qualifiers
import CompiledResources.Layout.Entry
import CompiledResources.Layout.Table
import CompiledResources.Layout.Contents
import CompiledResources.Proofs.Composition
import CompiledResources.Proofs.Evidence
import CompiledResources.Proofs.Policies
import CompiledResources.Proofs.KeyedMerge
import CompiledResources.Proofs.Histories
import CompiledResources.Proofs.DistinctKeys
import CompiledResources.Proofs.Merging
import CompiledResources.Proofs.StoredIds
import CompiledResources.Proofs.TableInvariant
import CompiledResources.Proofs.MergeAlgebra
import CompiledResources.Proofs.IdLookup
import CompiledResources.Proofs.LookupAgreement
import CompiledResources.Proofs.StreamCuts
import CompiledResources.Proofs.TrailingBytes
import CompiledResources.Proofs.Lifecycle
import CompiledResources.Proofs.PackageMerge
import CompiledResources.Proofs.Placement
import CompiledResources.Proofs.PoolRoundTrip
import CompiledResources.Proofs.QualifiersRoundTrip
import CompiledResources.Proofs.EntryRoundTrip
import CompiledResources.Proofs.TypeRoundTrip
import CompiledResources.Proofs.PackageRoundTrip
import CompiledResources.Proofs.TableRoundTrip
import CompiledResources.Proofs.Grouping
import CompiledResources.Proofs.StoreFrames
import CompiledResources.Proofs.Ownership
import CompiledResources.Proofs.Characters
import CompiledResources.Proofs.MapAggregation
import CompiledResources.Proofs.Notices
import CompiledResources.Proofs.Skips
import CompiledResources.Proofs.Visits
import CompiledResources.Proofs.Declarations
import CompiledResources.Proofs.StoredPools
import CompiledResources.Proofs.StagedRecords
import CompiledResources.Proofs.RecordIdentity
import CompiledResources.Proofs.IndexTables
import CompiledResources.Proofs.MergedLookup
import CompiledResources.Proofs.Reports
import CompiledResources.Proofs.Rounds
import CompiledResources.Proofs.Rounding
import CompiledResources.Proofs.IdText
import CompiledResources.Proofs.SingleLines
import CompiledResources.Proofs.EntryTraces
import CompiledResources.Proofs.FlagWarnings
import CompiledResources.Proofs.FixedPoint
import CompiledResources.Proofs.CursorReads
import CompiledResources.Proofs.PackedIds
import CompiledResources.Proofs.FileRuns
