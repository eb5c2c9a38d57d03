import Phasor.Arena
import Phasor.Callable
import Phasor.Capability
import Phasor.Code.Builder
import Phasor.Code.Listing
import Phasor.Code.Machine
import Phasor.Compile
import Phasor.Dictionary
import Phasor.Error
import Phasor.Evaluate
import Phasor.Proofs.Outcome
import Phasor.Proofs.Tree
import Phasor.Registry
import Phasor.Session
import Phasor.Settings
import Phasor.SymbolTable
import Phasor.Token.Json
import Phasor.Proofs.Building
import Phasor.Proofs.Library
import Phasor.Proofs.Simulation
import Phasor.Proofs.Calling
import Phasor.Proofs.Evaluation
import Phasor.Proofs.Refinement
import Phasor.Proofs.Realm
import Phasor.Proofs.History
import Phasor.Proofs.Slots
import Phasor.Proofs.Stores
import Phasor.Proofs.Typing
import Phasor.Proofs.Mantissa
import Phasor.Proofs.Canonical
import Phasor.Proofs.Descent
import Phasor.Proofs.Origin
import Phasor.Proofs.Ownership
import Phasor.Proofs.Publication
import Phasor.Proofs.Uses
import Phasor.Proofs.Resolution
import Phasor.Proofs.DecimalExponent
import Phasor.Proofs.Numeral
import Phasor.Proofs.Printing
import Phasor.Proofs.Nearest
import Phasor.Proofs.Addition
import Phasor.Proofs.Literal
import Phasor.Proofs.Lifecycle
import Phasor.Proofs.JsonText
import Phasor.Proofs.TokenText
import Phasor.Proofs.DecimalDigits
import Phasor.Proofs.SeriesError
import Phasor.Proofs.Logarithm
import Phasor.Proofs.Symmetry
import Phasor.Proofs.Conjugation
import Phasor.Proofs.Alternating
import Phasor.Proofs.SeriesBounds
import Phasor.Proofs.Estimate
import Phasor.Proofs.Reduction
import Phasor.Proofs.Range
import Phasor.Proofs.Quadrant
import Phasor.Proofs.ExactLaws
import Phasor.Proofs.Undefined
import Phasor.Proofs.Conversion
import Phasor.Proofs.HandOut
import Phasor.Proofs.Registration
import Phasor.Proofs.ScaleRange
import Phasor.Proofs.SeriesEnd
import Phasor.Proofs.CompleteSums
