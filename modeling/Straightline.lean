import Straightline.Main
import Straightline.Proofs.Typing
import Straightline.Proofs.Typing.Structural
import Straightline.Proofs.Values
import Straightline.Proofs.Registers
import Straightline.Proofs.Evaluation
import Straightline.Proofs.Stepping
import Straightline.Proofs.Windows
import Straightline.Proofs.Aliasing
import Straightline.Proofs.Soundness
import Straightline.Proofs.Crashes
import Straightline.Proofs.ByteStore
import Straightline.Proofs.BitSet
import Straightline.Proofs.FiniteSets
import Straightline.Proofs.SetMemory
import Straightline.Proofs.Liveness
import Straightline.Proofs.Lockstep
import Straightline.Proofs.RegisterReads
import Straightline.Proofs.Sharing
import Straightline.Proofs.Chain
import Straightline.Proofs.Walk
import Straightline.Proofs.WindowReads
import Straightline.Proofs.Unobserved
import Straightline.Proofs.RegisterWrites
import Straightline.Proofs.WindowWrites
import Straightline.Proofs.Simplify
import Straightline.Proofs.Propagate
import Straightline.Proofs.Flat
import Straightline.Proofs.NormalForm
import Straightline.Proofs.Specialize
import Straightline.Proofs.Unroll
import Straightline.Proofs.Substitution
import Straightline.Proofs.Emission
import Straightline.Proofs.Nesting
import Straightline.Proofs.Pipeline
import Straightline.Proofs.Translation
import Straightline.Proofs.Refinement
import Straightline.Proofs.Idempotence
import Straightline.Proofs.Doubles
import Straightline.Proofs.Accesses
import Straightline.Proofs.DataModel
import Straightline.Proofs.Conservation
import Straightline.Proofs.Generated
import Straightline.Proofs.Text.Numeral
import Straightline.Proofs.Text.Lexer
import Straightline.Proofs.Text.Expressions
import Straightline.Proofs.Text.Blocks
import Straightline.Proofs.Text.Accepted
import Straightline.Proofs.Text.RoundTrip
import Straightline.Proofs.Text.Refused
import Straightline.Proofs.Text.Progress
import Straightline.Proofs.Text.Places
import Straightline.Proofs.Text.Locality
import Straightline.Proofs.Text.Pieces
import Straightline.Proofs.Text.Composition
