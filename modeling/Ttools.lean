import Ttools.Expr.Build
import Ttools.Expr.Sharing
import Ttools.Expr.Runs
import Ttools.Expr.Estimate
import Ttools.Expr.Halt
import Ttools.Expr.Vectors
import Ttools.Format.LoadSegments
import Ttools.Format.Numbering
import Ttools.Format.Markers
import Ttools.Format.Host
import Ttools.Format.Crossload
import Ttools.Cmd.Disassemble
import Ttools.Cmd.HostSize
import Ttools.Cmd.Stream
import Ttools.Link.Table
import Ttools.Link.Archive
import Ttools.Link.Fragments
import Ttools.Link.Needs
import Ttools.Pass.Images
import Ttools.Pass.Canonical
import Ttools.Pass.Offsets
import Ttools.T800.Drops
import Ttools.T800.Calls
import Ttools.T800.Search
import Ttools.T800.Compare
import Ttools.T800.Shifts
import Ttools.Ast.Scan
import Ttools.Ast.Literals
import Ttools.T800.Expand
import Ttools.Ast.Cycles
import Ttools.Ast.Labels
import Ttools.Ast.Common
import Ttools.Ast.Nodes
import Ttools.T800.Places
import Ttools.T800.Offsets
import Ttools.T800.Moves
import Ttools.Ast.Padding
import Ttools.Ast.Slots
import Ttools.Ast.Expressions
import Ttools.Oserver.Boot
