import JsonShapes.Breach
import JsonShapes.Catalog.Basic
import JsonShapes.Catalog.Hoist
import JsonShapes.CommandLine
import JsonShapes.Decimal.Binary64
import JsonShapes.Digest.Sha256
import JsonShapes.Document
import JsonShapes.Emit.Module
import JsonShapes.Emit.Style
import JsonShapes.Emit.TypeText
import JsonShapes.Entries
import JsonShapes.Fault
import JsonShapes.Files.Path
import JsonShapes.Files.Tree
import JsonShapes.Identifier
import JsonShapes.Json.Basic
import JsonShapes.Json.Datum
import JsonShapes.Json.Order
import JsonShapes.Json.Reader
import JsonShapes.Json.Writer
import JsonShapes.Pointer
import JsonShapes.Run.Basic
import JsonShapes.Run.Effect
import JsonShapes.Run.Report
import JsonShapes.Settings
import JsonShapes.Shape.Basic
import JsonShapes.Shape.Datum
import JsonShapes.Shape.Guarded
import JsonShapes.Shape.Infer
import JsonShapes.Shape.Join
import JsonShapes.Shape.Key
import JsonShapes.Text.Blank
import JsonShapes.Text.ControlSequence
import JsonShapes.Text.Digits
import JsonShapes.Text.Newline
import JsonShapes.Text.Parsed
import JsonShapes.Text.Quoted
import JsonShapes.Text.Utf8
import JsonShapes.Toml.Basic
import JsonShapes.Toml.Builder
import JsonShapes.Toml.Moment
import JsonShapes.Toml.Quotation
import JsonShapes.Toml.Reader
import JsonShapes.Toml.Scalar
import JsonShapes.Main
import JsonShapes.Proofs.Shape.Equality
import JsonShapes.Proofs.Shape.Fields
import JsonShapes.Proofs.Entries
import JsonShapes.Proofs.Json.Keyed
import JsonShapes.Proofs.Shape.Discovery
import JsonShapes.Proofs.Shape.Grouping
import JsonShapes.Proofs.Shape.Widening
import JsonShapes.Proofs.Shape.Rearranged
import JsonShapes.Proofs.Catalog.Verifying
import JsonShapes.Proofs.Catalog.Conformance
import JsonShapes.Proofs.Catalog.Documents
import JsonShapes.Proofs.Catalog.Deduplication
import JsonShapes.Proofs.Catalog.Rearranging
import JsonShapes.Proofs.Run.Documents
import JsonShapes.Proofs.Catalog.Provenance
import JsonShapes.Proofs.Run.Module
import JsonShapes.Proofs.Run.Warning
import JsonShapes.Proofs.Run.Written
import JsonShapes.Proofs.Run.Enumerating
import JsonShapes.Proofs.CommandLine.Loading
import JsonShapes.Proofs.Run.Usable
import JsonShapes.Proofs.Run.Aborted
import JsonShapes.Proofs.Catalog.Growing
import JsonShapes.Proofs.Shape.Built
import JsonShapes.Proofs.Shape.Parts
import JsonShapes.Proofs.Shape.Listing
import JsonShapes.Proofs.Shape.Concatenation
import JsonShapes.Proofs.Catalog.NormalForm
import JsonShapes.Proofs.Emit.Lines
import JsonShapes.Proofs.Emit.Boundaries
import JsonShapes.Proofs.Emit.Unambiguous
import JsonShapes.Proofs.Catalog.Repeating
import JsonShapes.Proofs.Labels
import JsonShapes.Proofs.Catalog.Places
import JsonShapes.Proofs.Catalog.Converting
import JsonShapes.Proofs.Catalog.Rules
import JsonShapes.Proofs.Files.Stub
import JsonShapes.Proofs.Identifier
import JsonShapes.Proofs.Settings
import JsonShapes.Proofs.Shape.Termination
import JsonShapes.Proofs.Catalog.FieldOrder
