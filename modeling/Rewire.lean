import Rewire.Archive.Checksum
import Rewire.Archive.Inflate
import Rewire.Archive.Read
import Rewire.Archive.Words
import Rewire.Archive.Write
import Rewire.Attribute
import Rewire.Bytes.Basic
import Rewire.Bytes.Cursor
import Rewire.Bytes.Fit
import Rewire.ClassFile.Apply
import Rewire.ClassFile.Basic
import Rewire.ClassFile.Decode
import Rewire.Code.Assemble
import Rewire.Code.Control
import Rewire.Code.Decode
import Rewire.Code.Encode
import Rewire.Code.Extent
import Rewire.Code.Format
import Rewire.Code.Insn
import Rewire.Code.Layout
import Rewire.Code.Lengths
import Rewire.Code.Method
import Rewire.Code.Opcode
import Rewire.Code.Parts
import Rewire.Code.Resolved
import Rewire.Code.Stack
import Rewire.Code.WellFormed
import Rewire.CommandLine.Options
import Rewire.CommandLine.Run
import Rewire.Descriptor
import Rewire.Descriptor.Grammar
import Rewire.Descriptor.Scanner
import Rewire.Fault
import Rewire.Files.Path
import Rewire.Files.Tree
import Rewire.Frames.Basic
import Rewire.Frames.Meaning
import Rewire.Frames.Relocate
import Rewire.Json.Print
import Rewire.Json.Read
import Rewire.Json.Token
import Rewire.Json.Value
import Rewire.Log
import Rewire.Main
import Rewire.Pattern.Edit
import Rewire.Pattern.Match
import Rewire.Pattern.Predicate
import Rewire.Pattern.Window
import Rewire.Pool.Basic
import Rewire.Pool.Codec
import Rewire.Pool.Constant
import Rewire.Pool.Request
import Rewire.Redirect.Calls
import Rewire.Redirect.Filter
import Rewire.Redirect.Replacements
import Rewire.Redirect.Sandbox
import Rewire.Redirect.Table
import Rewire.Report.Sarif
import Rewire.Rule.Basic
import Rewire.Rule.Bundled
import Rewire.Scan.Findings
import Rewire.Scan.Walk
import Rewire.Text.Hex
import Rewire.Text.Modified
import Rewire.Text.Units
import Rewire.Transform.History
import Rewire.Transform.Settings
import Rewire.Transform.SettingsJson
import Rewire.Transform.Transformer
import Rewire.Proofs.Bytes.At
import Rewire.Proofs.Attribute
import Rewire.Proofs.ClassFile.Apply
import Rewire.Proofs.ClassFile.WriteBack
import Rewire.Proofs.Code.Calls
import Rewire.Proofs.Code.Counts
import Rewire.Proofs.Code.Depth
import Rewire.Proofs.Redirect.Calls
import Rewire.Proofs.Rule.Apply
import Rewire.Proofs.ClassFile.Meaning
import Rewire.Proofs.Code.LabelFaults
import Rewire.Proofs.Code.Labelled
import Rewire.Proofs.Code.InBounds
import Rewire.Proofs.Code.Writable
import Rewire.Proofs.Redirect.Depth
import Rewire.Proofs.Transform.History
import Rewire.Proofs.ClassFile.Framed
import Rewire.Proofs.Transform.Calls
import Rewire.Proofs.ClassFile.Lossless
import Rewire.Proofs.ClassFile.Untouched
import Rewire.Proofs.Transform.QuickTest
import Rewire.Proofs.Code.Control
import Rewire.Proofs.Transform.Landing
import Rewire.Proofs.Frames.Moved
import Rewire.Proofs.Redirect.Kept
import Rewire.Proofs.Redirect.Rewrites
import Rewire.Proofs.Redirect.TypedStack
import Rewire.Proofs.Pattern.Injection
import Rewire.Proofs.Pattern.Rescan
import Rewire.Proofs.Redirect.Table
import Rewire.Proofs.Code.KeptOperands
import Rewire.Proofs.Pattern.Scope
import Rewire.Proofs.Redirect.Failing
import Rewire.Proofs.Rule.Patching
