import CrossCall.Calls.CommandLine
import CrossCall.Calls.Overview
import CrossCall.Flow.Demonstration
import CrossCall.Flow.Record
import CrossCall.Main
import CrossCall.Proofs.ControlDependence
import CrossCall.Proofs.DataDependence
import CrossCall.Proofs.PathEnumeration
import CrossCall.Proofs.Piece
import CrossCall.Proofs.ClosedFlow
import CrossCall.Proofs.Position
import CrossCall.Proofs.Construct
import CrossCall.Proofs.Passage
import CrossCall.Proofs.Destination
import CrossCall.Proofs.JumpFlow
import CrossCall.Proofs.JumpTarget
import CrossCall.Proofs.Visit
import CrossCall.Proofs.DeadCode
import CrossCall.Proofs.Departure
import CrossCall.Proofs.Controller
import CrossCall.Proofs.EntryDependence
import CrossCall.Proofs.Course
import CrossCall.Proofs.GuardDependence
import CrossCall.Proofs.ReportRoundTrip
import CrossCall.Proofs.Linking
import CrossCall.Proofs.StoredGraph
import CrossCall.Proofs.ProgramDependence
import CrossCall.Proofs.Renaming
import CrossCall.Proofs.FrontierWalk
import CrossCall.Proofs.OutsideCallers
import CrossCall.Proofs.FirstLinking
import CrossCall.Proofs.OutsideAddress
import CrossCall.Proofs.OutsideViews
import CrossCall.Proofs.OutsideNames
import CrossCall.Proofs.Writing
import CrossCall.Proofs.CallReview
import CrossCall.Proofs.HelperResolution
import CrossCall.Proofs.DeclaredName
import CrossCall.Proofs.ReadAndWrite
import CrossCall.Proofs.Header
import CrossCall.Proofs.CallArgument
import CrossCall.Proofs.Connection
import CrossCall.Proofs.ContextIsolation
import CrossCall.Proofs.CallLine
import CrossCall.Proofs.OwnStatement
import CrossCall.Proofs.CursorWalk
import CrossCall.Proofs.Excerpt
import CrossCall.Proofs.Initialiser
import CrossCall.Proofs.SharedNumber
import CrossCall.Proofs.Reversal
