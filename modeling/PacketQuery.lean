import PacketQuery.Frame.Assembly
import PacketQuery.Main
import PacketQuery.Proofs.Catalog.Agreement
import PacketQuery.Proofs.Search.Conjunction
import PacketQuery.Proofs.Search.Sequential
import PacketQuery.Segment.Writer
import PacketQuery.Proofs.Search.Diagnostics
import PacketQuery.Proofs.Search.Truncation
import PacketQuery.Proofs.Storage.Names
import PacketQuery.Proofs.Storage.Nodes
import PacketQuery.Proofs.Catalog.Tables
import PacketQuery.Proofs.Catalog.FileNames
import PacketQuery.Proofs.Segment.Records
import PacketQuery.Proofs.Catalog.Listing
import PacketQuery.Proofs.Catalog.Building
import PacketQuery.Proofs.Search.Roundtrip
import PacketQuery.Proofs.Storage.Walks
import PacketQuery.Proofs.Search.Catalogued
import PacketQuery.Proofs.Search.Uniqueness
import PacketQuery.Proofs.Search.Pruning
import PacketQuery.Proofs.Language.Derivation
import PacketQuery.Proofs.Language.Reading
import PacketQuery.Proofs.Language.Acceptance
import PacketQuery.Proofs.Language.Scanning
import PacketQuery.Proofs.Language.Sentences
import PacketQuery.Proofs.Time.Calendar
import PacketQuery.Proofs.Language.Fusing
import PacketQuery.Proofs.Language.Rendered
import PacketQuery.Proofs.Language.Endings
import PacketQuery.Proofs.Bytes
import PacketQuery.Proofs.Segment.Tiling
import PacketQuery.Proofs.Segment.Writing
import PacketQuery.Proofs.Language.Placement
import PacketQuery.Proofs.Search.Resegmentation
import PacketQuery.Proofs.Frame.Assembled
import PacketQuery.Proofs.Frame.Dissection
import PacketQuery.Proofs.Rows.Counting
import PacketQuery.Proofs.Search.Coherence
import PacketQuery.Proofs.Frame.Layering
import PacketQuery.Proofs.Frame.Contents
import PacketQuery.Proofs.Frame.Padding
import PacketQuery.Proofs.Catalog.Rebuilding
import PacketQuery.Proofs.Language.Parentheses
import PacketQuery.Proofs.Value.Comparable
import PacketQuery.Proofs.Language.Equality
import PacketQuery.Proofs.Language.Membership
import PacketQuery.Proofs.Number.Comparison
import PacketQuery.Proofs.Number.Rounding
import PacketQuery.Proofs.Value.Comparison
import PacketQuery.Proofs.Language.Inequality
import PacketQuery.Proofs.Rows.KeyOrder
import PacketQuery.Proofs.Rows.Partition
import PacketQuery.Proofs.Rows.Fingerprint
import PacketQuery.Proofs.Language.Composition
import PacketQuery.Proofs.Language.Positions
import PacketQuery.Proofs.Language.References
import PacketQuery.Proofs.Language.Arithmetic
import PacketQuery.Proofs.Rows.Aggregates
import PacketQuery.Proofs.Language.Caseless
import PacketQuery.Proofs.Language.Safety
import PacketQuery.Proofs.Language.Nesting
import PacketQuery.Proofs.Segment.Cutting
import PacketQuery.Proofs.Frame.Lookup
import PacketQuery.Proofs.Frame.Wire
import PacketQuery.Proofs.Language.Subscripts
import PacketQuery.Proofs.Report.Reading
import PacketQuery.Proofs.Report.RoundTrip
import PacketQuery.Proofs.Text.Utf8
import PacketQuery.Proofs.Frame.DomainName
import PacketQuery.Proofs.Frame.Question
import PacketQuery.Proofs.Frame.Claims
import PacketQuery.Proofs.Address.Network
import PacketQuery.Proofs.Frame.FieldNames
import PacketQuery.Proofs.Language.Networks
