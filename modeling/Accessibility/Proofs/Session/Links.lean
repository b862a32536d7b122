import Accessibility.Proofs.Derivation.Linking
import Accessibility.Proofs.Session.Tables

/-!
The destinations of the links of a session. They are what the tree tells, unless the root is a shadow root
and a batch moves nodes to other scopes without deriving links anew; then a destination can be missing.
-/

set_option autoImplicit false

namespace Accessibility.Session

end Accessibility.Session
