import Accessibility.Proofs.Session.Runs

/-!
What relations depend on. Of the changes that leave exposure as it is, each can alter only the relations
that it makes stale: from an attribute that a relation is not read from, the relation cannot be told. But
the node of the changed content is given its scope anew with its attributes. If the root is a shadow
root, the scopes on record are not those that the document tells, and then a change of any attribute can
alter every relation that looks up DOM ids.
-/

set_option autoImplicit false

namespace Accessibility

namespace Session

section Settled

variable {session : Session} (settled : session.Settled)
include settled

end Settled

end Session

end Accessibility
