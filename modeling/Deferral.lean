import Deferral.Session.Lifted
import Deferral.Session.SeqScript
import Deferral.Proofs.Promise.Routine
import Deferral.Proofs.Promise.Steps
import Deferral.Proofs.Promise.Trace
import Deferral.Proofs.Promise.Law
import Deferral.Proofs.Promise.Settlement
import Deferral.Proofs.Promise.Drain
import Deferral.Proofs.Transparency.Fragment
import Deferral.Proofs.Pattern.StandIn
import Deferral.Proofs.Transparency.Rules
import Deferral.Proofs.Eval.Run
import Deferral.Proofs.Transparency.Direct
import Deferral.Proofs.Transparency.Plan
import Deferral.Proofs.Transparency.Invariant
import Deferral.Proofs.Transparency.Upkeep
import Deferral.Proofs.Transparency.Account
import Deferral.Proofs.Transparency.Settling
import Deferral.Proofs.Transparency.Simulation
import Deferral.Proofs.Transparency.Constructs
import Deferral.Proofs.Transparency.Futures
import Deferral.Proofs.Transparency.Tasks
import Deferral.Proofs.Eval.Conduct
import Deferral.Proofs.Value.Lawful
import Deferral.Proofs.Promise.Network
import Deferral.Proofs.Promise.Track
import Deferral.Proofs.Promise.Denotation
import Deferral.Proofs.Pattern.Patience
import Deferral.Proofs.Pattern.Stability
import Deferral.Proofs.Pattern.Guards
import Deferral.Proofs.Termination.Afford
import Deferral.Proofs.Termination.Constructs
import Deferral.Proofs.Session.Reach
import Deferral.Proofs.Termination.Programs
import Deferral.Proofs.Eval.Abreast
import Deferral.Proofs.Session.Beside
import Deferral.Proofs.Session.Transcript
import Deferral.Proofs.Module.Privacy
import Deferral.Proofs.Eval.Observed
import Deferral.Proofs.Eval.Protocol
import Deferral.Proofs.Eval.Private
import Deferral.Proofs.Eval.Link
import Deferral.Proofs.Eval.Turns
import Deferral.Proofs.Eval.Collection
import Deferral.Proofs.Eval.Completion
import Deferral.Proofs.Eval.Derived
import Deferral.Proofs.Eval.Gathering
import Deferral.Proofs.Eval.Lifting
import Deferral.Proofs.Eval.Blocks
import Deferral.Proofs.Promise.Finality
import Deferral.Proofs.Value.Resolve
import Deferral.Proofs.Eval.Comparison
import Deferral.Proofs.Pattern.Fits
import Deferral.Proofs.Pattern.Nested
import Deferral.Proofs.Eval.Choice
import Deferral.Proofs.Eval.PlainErrors
import Deferral.Proofs.Eval.Bond
import Deferral.Proofs.Eval.Tandem
import Deferral.Proofs.Eval.Delivery
import Deferral.Proofs.Eval.Interruption
import Deferral.Proofs.Eval.Selection
import Deferral.Proofs.Session.Alongside
import Deferral.Proofs.Session.Upheld
import Deferral.Proofs.Session.CallDepth
import Deferral.Proofs.Session.Once
import Deferral.Proofs.Session.Traces
import Deferral.Proofs.Eval.Panics
import Deferral.Proofs.Eval.Adoption
import Deferral.Proofs.Eval.Attempts
import Deferral.Proofs.Eval.Independent
import Deferral.Proofs.Eval.Attribution
import Deferral.Proofs.Pattern.Bindings
import Deferral.Proofs.Pattern.Keyed
import Deferral.Proofs.Threads.Entitlement
import Deferral.Proofs.Threads.Interleaving
import Deferral.Proofs.Eval.Algebra
import Deferral.Proofs.Value.Sequences
import Deferral.Proofs.Environment.Frames
import Deferral.Proofs.Operator.Exactness
import Deferral.Proofs.Operator.Bits
import Deferral.Proofs.Module.Structure
import Deferral.Proofs.Eval.Definitions
import Deferral.Proofs.Session.Invariants
import Deferral.Proofs.Module.Catalogue
import Deferral.Proofs.Threads.Awards
import Deferral.Proofs.Threads.FirstFailure
import Deferral.Proofs.Module.Names
import Deferral.Proofs.Promise.Ending
