import CodeMigration.ClassIndex.Memo
import CodeMigration.Main
import CodeMigration.Script.Rule
import CodeMigration.Proofs.Tree.Links
import CodeMigration.Proofs.Tree.Edits
import CodeMigration.Proofs.Attributes
import CodeMigration.Proofs.Tree.Undo
import CodeMigration.Proofs.Tree.History
import CodeMigration.Proofs.Tree.Revision
import CodeMigration.Proofs.Pass.Quiet
import CodeMigration.Proofs.Tree.Frame
import CodeMigration.Proofs.Pass.Tame
import CodeMigration.Proofs.Batch
import CodeMigration.Proofs.Catalogue.Bench
import CodeMigration.Proofs.Catalogue.Calls
import CodeMigration.Proofs.Catalogue.Declarations
import CodeMigration.Proofs.Catalogue.Run
import CodeMigration.Proofs.Pass.Abreast
import CodeMigration.Proofs.Pass.Invisible
import CodeMigration.Proofs.Rule.Commands
import CodeMigration.Proofs.Tree.Place
import CodeMigration.Proofs.Pass.Slotwise
import CodeMigration.Proofs.Catalogue.Acts
import CodeMigration.Proofs.Catalogue.Commands
import CodeMigration.Proofs.Catalogue.Idle
import CodeMigration.Proofs.Catalogue.Fixpoint
import CodeMigration.Proofs.Tree.Graft
import CodeMigration.Proofs.Catalogue.Mirror
import CodeMigration.Proofs.Rule.Grafts
import CodeMigration.Proofs.Catalogue.Rework
import CodeMigration.Proofs.Catalogue.Untyped
import CodeMigration.Proofs.Catalogue.Settled
import CodeMigration.Proofs.Document.Planting
import CodeMigration.Proofs.Document.Counterparts
import CodeMigration.Proofs.Catalogue.Convergence
import CodeMigration.Proofs.Document.Numbering
import CodeMigration.Proofs.Json.Assembling
import CodeMigration.Proofs.Document.Exchange
import CodeMigration.Proofs.Pass.Wrapping
import CodeMigration.Proofs.Search
import CodeMigration.Proofs.ClassIndex.Memo
import CodeMigration.Proofs.ClassIndex.Dialogue
import CodeMigration.Proofs.Pass.Inquiry
import CodeMigration.Proofs.Catalogue.Isolation
import CodeMigration.Proofs.Tree.Ledger
import CodeMigration.Proofs.Rule.Accounts
import CodeMigration.Proofs.Catalogue.Discards
import CodeMigration.Proofs.Pass.Story
import CodeMigration.Proofs.Pipeline.Chronicle
import CodeMigration.Proofs.Catalogue.Conservation
import CodeMigration.Proofs.Json.Scalars
import CodeMigration.Proofs.Document.Reading
import CodeMigration.Proofs.Catalogue.Rereading
import CodeMigration.Proofs.ClassIndex.Hops
import CodeMigration.Proofs.Decoration.Types
import CodeMigration.Proofs.Tree.Records
import CodeMigration.Proofs.Decoration.Classes
import CodeMigration.Proofs.Pass.Turnover
import CodeMigration.Proofs.Tree.Anchored
import CodeMigration.Proofs.Listing
import CodeMigration.Proofs.Rule.Greedy
import CodeMigration.Proofs.Catalogue.Positions
import CodeMigration.Proofs.Rule.Cycle
import CodeMigration.Proofs.Tree.Refusals
import CodeMigration.Proofs.Document.Splice
import CodeMigration.Proofs.Pass.Entries
import CodeMigration.Proofs.Pass.Termination
import CodeMigration.Proofs.ClassIndex.Instances
import CodeMigration.Proofs.Decoration.Scopes
import CodeMigration.Proofs.Tree.Extraction
import CodeMigration.Proofs.Catalogue.Assembly
import CodeMigration.Proofs.Catalogue.Rebuilding
import CodeMigration.Proofs.Catalogue.Fields
import CodeMigration.Proofs.Catalogue.Controllers
import CodeMigration.Proofs.Catalogue.MethodNames
import CodeMigration.Proofs.Catalogue.Requests
import CodeMigration.Proofs.Catalogue.Annotations
import CodeMigration.Proofs.Catalogue.Tidying
import CodeMigration.Proofs.Catalogue.Repetition
import CodeMigration.Proofs.Path
import CodeMigration.Proofs.Catalogue.AddedFiles
import CodeMigration.Proofs.CommandLine.Reports
import CodeMigration.Proofs.CommandLine.Writing
import CodeMigration.Proofs.CommandLine.Outputs
import CodeMigration.Proofs.CommandLine.Containment
import CodeMigration.Proofs.Attributes.Changes
import CodeMigration.Proofs.Tree.Views
import CodeMigration.Proofs.Pass.Revisits
import CodeMigration.Proofs.ClassIndex.Nearest
import CodeMigration.Proofs.Listing.Values
