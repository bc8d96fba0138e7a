import Sluice.Arena
import Sluice.Symbol
import Sluice.Proofs.Arithmetic
import Sluice.Proofs.Compile
import Sluice.Proofs.Place.StackMap
import Sluice.Proofs.Place.Temporaries
import Sluice.Proofs.Infer.RoundTrip
import Sluice.Proofs.Infer.Kept
import Sluice.Proofs.Infer.Symbols
import Sluice.Proofs.Infer.Separate
import Sluice.Proofs.Optimize.Settled
import Sluice.Proofs.Place.Written
import Sluice.Proofs.Lower.Graph
import Sluice.Proofs.Lower.Typed
import Sluice.Proofs.Unify.MostGeneral
import Sluice.Proofs.Unify.Partition
import Sluice.Proofs.Decision.Cover
