import Recast.Command.Arguments
import Recast.Command.FileTree
import Recast.Command.Files
import Recast.Command.Help
import Recast.Command.Path
import Recast.Command.Run
import Recast.Json.Basic
import Recast.Json.Decode
import Recast.Json.Printer
import Recast.Json.Reader
import Recast.Json.Token
import Recast.Lower.Body
import Recast.Lower.Dialect
import Recast.Lower.Encode
import Recast.Lower.Names
import Recast.Lower.Routine
import Recast.Lower.Scope
import Recast.Lower.State
import Recast.Main
import Recast.Output
import Recast.Program.Basic
import Recast.Program.Discovery
import Recast.Program.Encode
import Recast.Program.Lineage
import Recast.Program.Locals
import Recast.Program.Naming
import Recast.Program.Ordering
import Recast.Proofs.Discovery.Arena
import Recast.Proofs.Discovery.Declarations
import Recast.Proofs.Execution.Behaviours
import Recast.Proofs.Execution.Loops
import Recast.Proofs.Json.Text
import Recast.Proofs.Lineage.BaseChain
import Recast.Proofs.Lineage.Reach
import Recast.Proofs.Lines.Blocks
import Recast.Proofs.Lines.Items
import Recast.Proofs.Lines.Shapes
import Recast.Proofs.Lines.Tries
import Recast.Proofs.Locals.Agreement
import Recast.Proofs.Locals.Constants
import Recast.Proofs.Locals.Exactness
import Recast.Proofs.Locals.Layout
import Recast.Proofs.Locals.LexicalScopes
import Recast.Proofs.Locals.Nesting
import Recast.Proofs.Locals.Records
import Recast.Proofs.Locals.Regular
import Recast.Proofs.Locals.Scanned
import Recast.Proofs.Locals.Sight
import Recast.Proofs.Locals.Trace
import Recast.Proofs.Locals.Visits
import Recast.Proofs.Lookup.AnnotatedCalls
import Recast.Proofs.Lookup.DepthFirst
import Recast.Proofs.Lookup.Inherited
import Recast.Proofs.Lookup.LexicalNames
import Recast.Proofs.Lookup.Overloads
import Recast.Proofs.Lookup.Redirects
import Recast.Proofs.Lookup.WrittenNames
import Recast.Proofs.Lowering.Boxes
import Recast.Proofs.Lowering.Context
import Recast.Proofs.Lowering.Copies
import Recast.Proofs.Lowering.Courses
import Recast.Proofs.Lowering.Creations
import Recast.Proofs.Lowering.Failures
import Recast.Proofs.Lowering.Forms
import Recast.Proofs.Lowering.Hoisting
import Recast.Proofs.Lowering.Hurdles
import Recast.Proofs.Lowering.Operands
import Recast.Proofs.Lowering.OutLocals
import Recast.Proofs.Lowering.References
import Recast.Proofs.Lowering.Refusals
import Recast.Proofs.Lowering.Runs
import Recast.Proofs.Lowering.Sheets
import Recast.Proofs.Lowering.Shown
import Recast.Proofs.Lowering.ShownWithin
import Recast.Proofs.Lowering.Spared
import Recast.Proofs.Lowering.Splicing
import Recast.Proofs.Lowering.Written
import Recast.Proofs.Naming.AnyOrder
import Recast.Proofs.Naming.ClosedForm
import Recast.Proofs.Naming.Distinct
import Recast.Proofs.Naming.NumberedNames
import Recast.Proofs.Naming.Overriding
import Recast.Proofs.Naming.Resolution
import Recast.Proofs.Ordering.Choices
import Recast.Proofs.Ordering.Documents
import Recast.Proofs.Ordering.FinalOrder
import Recast.Proofs.Ordering.Renumbering
import Recast.Proofs.Ordering.StableSort
import Recast.Proofs.Output.Imports
import Recast.Proofs.Output.InitialValues
import Recast.Proofs.Output.Paths
import Recast.Proofs.Output.Strings
import Recast.Proofs.Scope.Isolation
import Recast.Proofs.Session.Frozen
import Recast.Proofs.Session.Prerequisites
import Recast.Proofs.Session.Reruns
import Recast.Proofs.Settings.Layers
import Recast.Proofs.Source.Conditions
import Recast.Proofs.Source.Decoding
import Recast.Proofs.Source.Regions
import Recast.Proofs.Source.RoundTrip
import Recast.Proofs.Temporaries.Handing
import Recast.Proofs.Temporaries.Hygiene
import Recast.Proofs.Temporaries.Requests
import Recast.Proofs.Type.Assembly
import Recast.Proofs.Type.Classification
import Recast.Proofs.Type.Keywords
import Recast.Proofs.Type.Nullability
import Recast.Proofs.Type.Tracking
import Recast.Rules
import Recast.Session
import Recast.Settings
import Recast.Sorted
import Recast.Source.Build
import Recast.Source.Document
import Recast.Source.Member
import Recast.Source.Operator
import Recast.Source.Oracle
import Recast.Source.Region
import Recast.Source.Tree
import Recast.Source.TreeDecode
import Recast.Source.TreeEncode
import Recast.Source.Type
import Recast.Target
import Recast.Text.Blank
import Recast.Text.Quoted
import Recast.Text.Search
import Recast.Toml.Reader
import Recast.Toml.Scalar
import Recast.Toml.Table
import Recast.Type.Descriptor
import Recast.Type.Mapping
import Recast.TypeScript.Dialect
import Recast.TypeScript.Page
