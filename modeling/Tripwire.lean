import Tripwire.Opcode
import Tripwire.Instruction
import Tripwire.Block
import Tripwire.Fault
import Tripwire.Block.Binary
import Tripwire.Shift
import Tripwire.Splice.Relocation
import Tripwire.Splice
import Tripwire.LineTable
import Tripwire.LineTable.Compact
import Tripwire.Text.Property
import Tripwire.Text.Cluster.Role
import Tripwire.Text.Cluster
import Tripwire.Text.Blank
import Tripwire.Text.Quoted
import Tripwire.Text.Numeral
import Tripwire.Decimal.Double
import Tripwire.Decimal.Shortest
import Tripwire.Decimal.Reader
import Tripwire.Constant
import Tripwire.Pool
import Tripwire.Pool.Store
import Tripwire.Program
import Tripwire.Pool.Shared
import Tripwire.Breakpoint
import Tripwire.Function
import Tripwire.Call
import Tripwire.Injector
import Tripwire.Workspace
import Tripwire.Assembly.Item
import Tripwire.Assembly.Layout
import Tripwire.Assembly.Builder
import Tripwire.Assembly.Literal
import Tripwire.Assembly.Statement
import Tripwire.Assembly.Source
import Tripwire.Listing
import Tripwire.Command.Colour
import Tripwire.Command.Options
import Tripwire.Command.Log
import Tripwire.Command.Report
import Tripwire.Command.TypedLine
import Tripwire.Command.Console
import Tripwire.Command.Directory
import Tripwire.Command.Run
import Tripwire.Main
import Tripwire.Proofs.Outcome
import Tripwire.Proofs.Matching
import Tripwire.Proofs.Program
import Tripwire.Proofs.Pool.Merge
import Tripwire.Proofs.Pool.Shared
import Tripwire.Proofs.Block.RoundTrip
import Tripwire.Proofs.Block.Position
import Tripwire.Proofs.Block.Width
import Tripwire.Proofs.Block.Path
import Tripwire.Proofs.Relocation.Demand
import Tripwire.Proofs.Relocation.Settle
import Tripwire.Proofs.Relocation.Stage
import Tripwire.Proofs.Relocation.Nearest
import Tripwire.Proofs.Relocation.Adapted
import Tripwire.Proofs.Splice.Geometry
import Tripwire.Proofs.Splice.Faithful
import Tripwire.Proofs.Splice.Extent
import Tripwire.Proofs.Splice.Layout
import Tripwire.Proofs.Splice.Insertion
import Tripwire.Proofs.Splice.Removal
import Tripwire.Proofs.Splice.Settling
import Tripwire.Proofs.Splice.Route
import Tripwire.Proofs.Splice.Nearest
import Tripwire.Proofs.Splice.Undo
import Tripwire.Proofs.Splice.Exchange
import Tripwire.Proofs.Splice.Commute
import Tripwire.Proofs.LineTable.Recut
import Tripwire.Proofs.LineTable.Follow
import Tripwire.Proofs.LineTable.Expand
import Tripwire.Proofs.LineTable.Spans
import Tripwire.Proofs.LineTable.Adjust
import Tripwire.Proofs.LineTable.Shrink
import Tripwire.Proofs.Splice.Cuts
import Tripwire.Proofs.Assembly.Layout
import Tripwire.Proofs.Session.Weave
import Tripwire.Proofs.Session.Calls
import Tripwire.Proofs.Session.Carry
import Tripwire.Proofs.Assembly.Builder
import Tripwire.Proofs.Assembly.Source
import Tripwire.Proofs.Session.Requests
import Tripwire.Proofs.Session.Undo
import Tripwire.Proofs.Session.Restore
import Tripwire.Proofs.Session.Cycle
import Tripwire.Proofs.Session.Run
import Tripwire.Proofs.Session.Invariant
import Tripwire.Proofs.Session.Depth
import Tripwire.Proofs.Session.Progress
import Tripwire.Proofs.LineTable.Cover
import Tripwire.Proofs.Session.Lines
import Tripwire.Proofs.Workspace.Atomic
import Tripwire.Proofs.Workspace.Granted
import Tripwire.Proofs.Assembly.Pools
import Tripwire.Proofs.Pool.Batches
import Tripwire.Proofs.Session.Recognition
import Tripwire.Proofs.Session.Roaming
import Tripwire.Proofs.Workspace.Frame
import Tripwire.Proofs.Block.Slice
import Tripwire.Proofs.Splice.Attribution
import Tripwire.Proofs.Splice.Excision
import Tripwire.Proofs.Block.Grammar
import Tripwire.Proofs.Assembly.Least
import Tripwire.Proofs.LineTable.Recode
import Tripwire.Proofs.LineTable.Compact
import Tripwire.Proofs.Splice.Aim
import Tripwire.Proofs.Splice.Account
import Tripwire.Proofs.Assembly.Budget
import Tripwire.Proofs.Assembly.Quoted
import Tripwire.Proofs.LineTable.Tiling
import Tripwire.Proofs.LineTable.LookUp
import Tripwire.Proofs.Command.Options
import Tripwire.Proofs.Listing.Reading
import Tripwire.Proofs.Listing.Lines
import Tripwire.Proofs.Listing
