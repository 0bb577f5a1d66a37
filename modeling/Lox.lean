import Lox.Main
import Lox.Proofs.Grammar.Derivation
import Lox.Proofs.Grammar.Progress
import Lox.Proofs.Grammar.Sound
import Lox.Proofs.Grammar.Complete
import Lox.Proofs.Grammar.Shape
import Lox.Proofs.Run.Growth
import Lox.Proofs.Lines.Scan
import Lox.Proofs.Lines.Grammar
import Lox.Proofs.Lines.Run
import Lox.Proofs.Scope.Globals
import Lox.Proofs.Scope.Widen
import Lox.Proofs.Scope.Names
import Lox.Proofs.Dispatch.Right
import Lox.Proofs.Lexical.Agree
import Lox.Proofs.Lexical.Declarations
import Lox.Proofs.Lexical.Ready
import Lox.Proofs.Lexical.Session
import Lox.Proofs.Lexical.Slots
import Lox.Proofs.Session.Rerun
import Lox.Proofs.Session.GlobalNames
import Lox.Proofs.Session.Renamed
import Lox.Proofs.Scope.Nearest
import Lox.Proofs.Token.Munch
import Lox.Proofs.Session.Safety
import Lox.Proofs.Session.OwnReads
import Lox.Proofs.Scope.Verdict
import Lox.Proofs.Grammar.FirstError
import Lox.Proofs.Grammar.Segments
import Lox.Proofs.Session.Wrapped
import Lox.Proofs.Session.Constructors
import Lox.Proofs.CommandLine.Evaluate
import Lox.Proofs.Run.Owner
import Lox.Proofs.Token.Rescan
import Lox.Proofs.Printer.Injective
import Lox.Proofs.Session.Broken
import Lox.Proofs.Number.Printed
import Lox.Proofs.FrontEnd.Finishes
