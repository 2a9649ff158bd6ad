import MetaRecord.Bytes.Basic
import MetaRecord.Calendar.Date
import MetaRecord.Calendar.Instant
import MetaRecord.Checksum.Status
import MetaRecord.Checksum.XxHash64
import MetaRecord.Decimal.Binary64
import MetaRecord.Decimal.Shortest
import MetaRecord.DecodeError
import MetaRecord.Document.Record
import MetaRecord.Document.Value
import MetaRecord.Files.Disk
import MetaRecord.Files.Error
import MetaRecord.Files.Path
import MetaRecord.Files.System
import MetaRecord.Inline.Store
import MetaRecord.Json.Basic
import MetaRecord.Json.Printer
import MetaRecord.Main
import MetaRecord.MessagePack.Error
import MetaRecord.MessagePack.Lead
import MetaRecord.MessagePack.Reader
import MetaRecord.MessagePack.Skip
import MetaRecord.MessagePack.Writer
import MetaRecord.Proofs.MessagePack.Spelling
import MetaRecord.Record.Basic
import MetaRecord.Record.Draft
import MetaRecord.Record.Payload
import MetaRecord.Record.Preamble
import MetaRecord.Text.Base64
import MetaRecord.Text.Hidden
import MetaRecord.Text.Numeral
import MetaRecord.Text.Quoted
import MetaRecord.Text.Utf8
import MetaRecord.Toml.Document
import MetaRecord.Toml.Moment
import MetaRecord.Toml.Number
import MetaRecord.Toml.Parse
import MetaRecord.Toml.Quoted
import MetaRecord.Toml.Value
import MetaRecord.Tool.CommandLine
import MetaRecord.Tool.Commands
import MetaRecord.Tool.Config
import MetaRecord.Tool.Export
import MetaRecord.Tool.Fault
import MetaRecord.Tool.Run
import MetaRecord.Version.Header
import MetaRecord.Version.Index
import MetaRecord.Proofs.Version.Codec
import MetaRecord.Proofs.Inline.Codec
import MetaRecord.Proofs.Record.RoundTrip
import MetaRecord.Proofs.Record.Checksum
import MetaRecord.Proofs.Version.Canonical
import MetaRecord.Proofs.Record.Damage
import MetaRecord.Proofs.MessagePack.Encoding
import MetaRecord.Proofs.Record.Layout
import MetaRecord.Proofs.Inline.Ordered
import MetaRecord.Proofs.Files.Lawful
import MetaRecord.Proofs.Tool.Delivery
import MetaRecord.Proofs.Inline.Repeats
import MetaRecord.Proofs.MessagePack.Grammar
import MetaRecord.Proofs.MessagePack.Skip
import MetaRecord.Proofs.MessagePack.Walk
import MetaRecord.Proofs.Document.Whole
import MetaRecord.Proofs.Document.Agreement
import MetaRecord.Proofs.Files.Orderly
import MetaRecord.Proofs.Tool.Preservation
import MetaRecord.Proofs.Version.Duplicates
import MetaRecord.Proofs.Record.Rewriting
import MetaRecord.Proofs.Document.Faithful
import MetaRecord.Proofs.Files.Dependable
import MetaRecord.Proofs.Tool.Cleanup
import MetaRecord.Proofs.Tool.Atomicity
import MetaRecord.Proofs.MessagePack.Local
import MetaRecord.Proofs.MessagePack.Cursor
import MetaRecord.Proofs.MessagePack.Discipline
import MetaRecord.Proofs.Version.Sorting
import MetaRecord.Proofs.Inline.Scanning
import MetaRecord.Proofs.Version.Visiting
import MetaRecord.Proofs.Version.Fields
import MetaRecord.Proofs.Inline.Erasing
import MetaRecord.Proofs.Json.Members
import MetaRecord.Proofs.Document.Complete
import MetaRecord.Proofs.Document.Sizes
import MetaRecord.Proofs.Record.Preamble
import MetaRecord.Proofs.Tool.Names
import MetaRecord.Proofs.Tool.Verification
import MetaRecord.Proofs.Decimal.Nearest
import MetaRecord.Proofs.Decimal.Shortest
import MetaRecord.Proofs.Json.Grammar
import MetaRecord.Proofs.Json.Numbers
import MetaRecord.Proofs.Json.Printing
import MetaRecord.Proofs.Document.Proper
import MetaRecord.Proofs.Json.Visible
import MetaRecord.Proofs.Tool.Inspection
import MetaRecord.Proofs.MessagePack.Ranges
import MetaRecord.Proofs.MessagePack.Smallest
import MetaRecord.Proofs.Calendar.Distinct
import MetaRecord.Proofs.Document.Times
import MetaRecord.Proofs.MessagePack.Refusals
import MetaRecord.Proofs.Version.Opening
import MetaRecord.Proofs.MessagePack.Refusals
import MetaRecord.Proofs.Version.Opening
import MetaRecord.Proofs.Text.Base64
