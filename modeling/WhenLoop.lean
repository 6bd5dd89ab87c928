import WhenLoop.Text.CharClass
import WhenLoop.Token.Scan
import WhenLoop.Node.Display
import WhenLoop.Parse.Statement
import WhenLoop.Run.Rounds
import WhenLoop.Interpret
import WhenLoop.Command.Run
import WhenLoop.Main
import WhenLoop.Proofs.Grammar
import WhenLoop.Proofs.Growth
import WhenLoop.Proofs.Quiet
import WhenLoop.Proofs.Soundness
import WhenLoop.Proofs.Completeness
import WhenLoop.Proofs.Acceptance
import WhenLoop.Proofs.Typing
import WhenLoop.Proofs.Execution
import WhenLoop.Proofs.TypeSafety
import WhenLoop.Proofs.Simulation
import WhenLoop.Proofs.SinkIndependence
import WhenLoop.Proofs.Containment
import WhenLoop.Proofs.Lexical
import WhenLoop.Proofs.Scanning
import WhenLoop.Proofs.Layout
import WhenLoop.Proofs.Words
import WhenLoop.Proofs.Concatenation
import WhenLoop.Proofs.Concrete
import WhenLoop.Proofs.Writing
import WhenLoop.Proofs.RoundTrip
import WhenLoop.Proofs.Unset
import WhenLoop.Proofs.Moves
import WhenLoop.Proofs.Routines
import WhenLoop.Proofs.Termination
import WhenLoop.Proofs.ReportOrder
import WhenLoop.Proofs.EarlierReports
import WhenLoop.Proofs.Lockstep
import WhenLoop.Proofs.Recovery
import WhenLoop.Proofs.Height
import WhenLoop.Proofs.Limits
import WhenLoop.Proofs.Panic
import WhenLoop.Proofs.ClosingBrace
import WhenLoop.Proofs.EvaluationOrder
import WhenLoop.Proofs.Unrolling
import WhenLoop.Proofs.Flattening
import WhenLoop.Proofs.Moments
import WhenLoop.Proofs.GivingUp
import WhenLoop.Proofs.Courses
import WhenLoop.Proofs.Frame
import WhenLoop.Proofs.Accounting
import WhenLoop.Proofs.Integers
import WhenLoop.Proofs.Comments
import WhenLoop.Proofs.Reader
import WhenLoop.Proofs.Lookahead
import WhenLoop.Proofs.Balance
import WhenLoop.Proofs.Decimals
import WhenLoop.Proofs.PrintedForm
import WhenLoop.Proofs.History
