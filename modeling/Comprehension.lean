import Comprehension.Evaluation
import Comprehension.Chain.Rendering
import Comprehension.Inspection
import Comprehension.Carrier.List
import Comprehension.Carrier.Optional
import Comprehension.Proofs.Capture
import Comprehension.Proofs.ReadBack
import Comprehension.Proofs.Delivery
import Comprehension.Proofs.DirectInterpreter
import Comprehension.Proofs.Independence
import Comprehension.Proofs.NestedLoops
import Comprehension.Proofs.StraightLine
import Comprehension.Proofs.Calls
import Comprehension.Proofs.Provenance
import Comprehension.Proofs.Tracing
import Comprehension.Proofs.FailureTrail
import Comprehension.Proofs.Scripts
import Comprehension.Proofs.Drafting
import Comprehension.Proofs.Visibility
import Comprehension.Proofs.Notes
import Comprehension.Proofs.CallTree
import Comprehension.Proofs.CallOrder
import Comprehension.Proofs.NameHistory
import Comprehension.Proofs.OrderedMap
import Comprehension.Proofs.Desugaring
import Comprehension.Proofs.Renaming
