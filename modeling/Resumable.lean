import Resumable.Token
import Resumable.Lexer.Pattern
import Resumable.Lexer.Rules
import Resumable.Lexer
import Resumable.Grammar.Rule
import Resumable.Grammar
import Resumable.ParseTree
import Resumable.ParseTree.Parts
import Resumable.Parser
import Resumable.Edits
import Resumable.Edits.Text
import Resumable.Origin
import Resumable.Fault
import Resumable.IdMap
import Resumable.Log
import Resumable.Tree.Kind
import Resumable.Tree.Schema
import Resumable.Tree
import Resumable.Tree.Accounting
import Resumable.Text.Blank
import Resumable.Text.Digit
import Resumable.Text.Upper
import Resumable.Decimal.Reading
import Resumable.Decimal.Binary64
import Resumable.Listing
import Resumable.Persistence
import Resumable.Machine
import Resumable.Signature
import Resumable.Xml
import Resumable.Xml.Scan
import Resumable.Xml.Prolog
import Resumable.Xml.Reading
import Resumable.Manifest
import Resumable.Manifest.Field
import Resumable.Manifest.Transfer
import Resumable.Construction.Constituent
import Resumable.Construction.Types
import Resumable.Construction.Expressions
import Resumable.Construction.Statements
import Resumable.Construction.Declarations
import Resumable.Construction
import Resumable.Builtins
import Resumable.Manifest.Declarations
import Resumable.Scope
import Resumable.Resolution
import Resumable.Resolution.Overload
import Resumable.Resolution.Visit
import Resumable.Resolution.Settle
import Resumable.Cutting
import Resumable.Cutting.Statements
import Resumable.Cutting.Program
import Resumable.Printing
import Resumable.Printing.Printer
import Resumable.Printing.Machines
import Resumable.Printing.Headers
import Resumable.Printing.Program
import Resumable.Revision
import Resumable.Compilation
import Resumable.Query
import Resumable.Graph
import Resumable.Graph.Trees
import Resumable.Graph.Steps
import Resumable.Proofs.Tiling
import Resumable.Proofs.Munch
import Resumable.Proofs.Uncut
import Resumable.Proofs.Steps
import Resumable.Proofs.Walk
import Resumable.Proofs.Walk.Visit
import Resumable.Proofs.Walk.Function
import Resumable.Proofs.Numbering
import Resumable.Proofs.Lines
import Resumable.Proofs.Pieces
import Resumable.Proofs.Emission
import Resumable.Proofs.Labels
import Resumable.Proofs.Walk.Places
import Resumable.Proofs.Agreement
import Resumable.Proofs.Course
import Resumable.Proofs.Outliving
import Resumable.Proofs.Renaming
import Resumable.Proofs.Restoration
import Resumable.Proofs.Meaning
import Resumable.Proofs.Jobs
import Resumable.Proofs.Walk.Rows
import Resumable.Proofs.Pending
import Resumable.Proofs.Ends
import Resumable.Proofs.Resetting
import Resumable.Proofs.Temporaries
import Resumable.Proofs.Sparse
import Resumable.Proofs.Recalling
import Resumable.Proofs.Reentry
import Resumable.Proofs.Repetition
import Resumable.Proofs.Traces
import Resumable.Proofs.Hoisting
import Resumable.Proofs.Execution
import Resumable.Proofs.Runs
import Resumable.Proofs.Holding
import Resumable.Proofs.Making
import Resumable.Proofs.Given
import Resumable.Proofs.Constructed
import Resumable.Proofs.Lookup
import Resumable.Proofs.Resolving
import Resumable.Proofs.Settling
import Resumable.Proofs.Shape
import Resumable.Proofs.Walk.Nodes
import Resumable.Proofs.Walk.Program
import Resumable.Proofs.Accounting
import Resumable.Proofs.Definitions
import Resumable.Proofs.Passing
import Resumable.Proofs.Walk.Weights
import Resumable.Proofs.Blocking
import Resumable.Proofs.Merging
import Resumable.Proofs.Reading
import Resumable.Proofs.Overlaps
import Resumable.Proofs.Rereading
import Resumable.Proofs.Remaining
import Resumable.Proofs.Conflicts
import Resumable.Proofs.Naming
import Resumable.Proofs.Derivation
import Resumable.Proofs.Recognition
import Resumable.Proofs.Forms
import Resumable.Proofs.Wording
import Resumable.Proofs.Constructed.Program
import Resumable.Proofs.Kept
import Resumable.Proofs.Settled
import Resumable.Proofs.Compiled
import Resumable.Proofs.Entries
import Resumable.Proofs.Fields
import Resumable.Proofs.Attribution
import Resumable.Proofs.Capture
import Resumable.Proofs.Width
import Resumable.Proofs.Splitting
import Resumable.Proofs.Leaving
import Resumable.Proofs.Findings
import Resumable.Proofs.Prototypes
