import Lox.Proofs.Scope.Occurrences
import Lox.Main
import Lox.Program.Nodes
import Lox.Program.Outline
import Lox.Proofs.Grammar.Printing
import Lox.Proofs.Session.Assignments
import Lox.Proofs.Session.Safety
import Lox.Proofs.Session.Scoping
import Lox.Proofs.Session.Invisibility
import Lox.Proofs.Session.Exits
import Lox.Proofs.Token.Items
import Lox.Proofs.Machine.Alike
import Lox.Proofs.Session.Numbering
import Lox.Proofs.Session.Renaming
import Lox.Proofs.Session.Limits
import Lox.Proofs.Session.Readings
import Lox.Proofs.Session.Growth
import Lox.Proofs.Session.Attribution
import Lox.Proofs.Session.Dispatch
import Lox.Proofs.Machine.Binding
import Lox.Proofs.Session.Receivers
import Lox.Proofs.Machine.Evaluation
import Lox.Proofs.Machine.Properties
import Lox.Proofs.Session.Properties
import Lox.Proofs.Machine.Calls
import Lox.Proofs.Session.Calls
import Lox.Proofs.Grammar.Exchange
import Lox.Proofs.Grammar.PlainLoops
import Lox.Proofs.Machine.Matching
import Lox.Proofs.Machine.Wrapping
import Lox.Proofs.Session.Observations
import Lox.Proofs.Session.PlainLoops
import Lox.Proofs.Machine.Chains
import Lox.Proofs.Grammar.Bounds
import Lox.Proofs.Grammar.Recovery
import Lox.Proofs.Token.Lines
import Lox.Proofs.Session.Numbers
import Lox.Proofs.Number.Literals
import Lox.Proofs.Scope.Identities
import Lox.Proofs.Scope.Balance
