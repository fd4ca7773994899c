import RowUnification.Engine.Basic
import RowUnification.Engine.Log
import RowUnification.Engine.Run
import RowUnification.Equation
import RowUnification.Failure
import RowUnification.FreshSupply
import RowUnification.Json
import RowUnification.Name
import RowUnification.Proofs.Alignment
import RowUnification.Proofs.BindingOutcomes
import RowUnification.Proofs.Bindings
import RowUnification.Proofs.Calls
import RowUnification.Proofs.Conclusions
import RowUnification.Proofs.Conservativity
import RowUnification.Proofs.Decomposition
import RowUnification.Proofs.Evidence
import RowUnification.Proofs.Handoff
import RowUnification.Proofs.JsonForm
import RowUnification.Proofs.KnownNames
import RowUnification.Proofs.Localisation
import RowUnification.Proofs.LooseTerms
import RowUnification.Proofs.MachineWords
import RowUnification.Proofs.Moves
import RowUnification.Proofs.OrderIndependence
import RowUnification.Proofs.Records
import RowUnification.Proofs.Recursion
import RowUnification.Proofs.Repetition
import RowUnification.Proofs.Representatives
import RowUnification.Proofs.RowDiscipline
import RowUnification.Proofs.RowFree
import RowUnification.Proofs.RowRoles
import RowUnification.Proofs.Searches
import RowUnification.Proofs.Seeding
import RowUnification.Proofs.Sessions
import RowUnification.Proofs.Soundness
import RowUnification.Proofs.StoreHistory
import RowUnification.Proofs.Substitution
import RowUnification.Proofs.Symmetry
import RowUnification.Proofs.Tails
import RowUnification.Proofs.Termination
import RowUnification.Proofs.Tracing
import RowUnification.Proofs.UniqueReading
import RowUnification.Proofs.Vocabulary
import RowUnification.Proofs.Weights
import RowUnification.Row.Alignment
import RowUnification.Row.Extension
import RowUnification.SortedMap
import RowUnification.Store
import RowUnification.Term.Basic
import RowUnification.Term.Json
import RowUnification.Term.Order
import RowUnification.Term.Rendering
import RowUnification.Term.Substitution
import RowUnification.Term.Variables
