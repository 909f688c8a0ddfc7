import Fieldwise.CommandLine.Run
import Fieldwise.Main
import Fieldwise.Session.Description
import Fieldwise.Tree.Callee
import Fieldwise.Proofs.Storage.Assignment
import Fieldwise.Proofs.Session.Resolving
import Fieldwise.Proofs.Session.Outcome
import Fieldwise.Proofs.Session.Worklist
import Fieldwise.Proofs.Aggregate.Positions
import Fieldwise.Proofs.Storage.Allocation
import Fieldwise.Proofs.Session.Sides
import Fieldwise.Proofs.Storage.Selection
import Fieldwise.Proofs.Session.ArrayInitializer
import Fieldwise.Proofs.Session.Dispatch
import Fieldwise.Proofs.Document.Exchange
import Fieldwise.Proofs.Session.InPlace
import Fieldwise.Proofs.Session.Prototypes
import Fieldwise.Proofs.Document.Lookup
import Fieldwise.Proofs.Document.Traversal
import Fieldwise.Proofs.FreshNames.Requests
import Fieldwise.Proofs.Text.Numeral
import Fieldwise.Proofs.Session.Evaluating
import Fieldwise.Proofs.Storage.Typing
import Fieldwise.Proofs.Storage.Passing
import Fieldwise.Proofs.Session.Hygiene
import Fieldwise.Proofs.Session.Arguments
import Fieldwise.Proofs.Session.StatementPlaces
import Fieldwise.Proofs.Session.Scoping
