import MuTypes.Program
import MuTypes.Proofs.Supply
import MuTypes.Proofs.Plain
import MuTypes.Proofs.Alpha
import MuTypes.Proofs.Equirecursive
import MuTypes.Proofs.InOrder
import MuTypes.Proofs.Resolution
import MuTypes.Proofs.BoundNames
import MuTypes.Proofs.Divergence
import MuTypes.Proofs.Hygiene.Annotations
import MuTypes.Proofs.Hygiene.OneBinder
import MuTypes.Proofs.InPlace
import MuTypes.Proofs.Pieces
import MuTypes.Proofs.Twins
import MuTypes.Proofs.OrderLaws
import MuTypes.Proofs.Permissive
import MuTypes.Proofs.GenericBodies
import MuTypes.Proofs.CaptureAvoidance
import MuTypes.Proofs.Spans.Opacity
import MuTypes.Proofs.Entries.Equivalence
import MuTypes.Proofs.Instantiation
import MuTypes.Proofs.ClauseTypes
import MuTypes.Proofs.Dispatch
import MuTypes.Proofs.Narrowing
import MuTypes.Proofs.Expansions
import MuTypes.Proofs.Answers
import MuTypes.Proofs.Reruns
import MuTypes.Proofs.Widening
import MuTypes.Proofs.WideningBack
import MuTypes.Proofs.Construction
import MuTypes.Proofs.FreeVariables
import MuTypes.Proofs.Declarations
import MuTypes.Proofs.Contractive
import MuTypes.Proofs.Verbatim
import MuTypes.Proofs.Freshness
import MuTypes.Proofs.Reordering
import MuTypes.Proofs.Reading.Injective
