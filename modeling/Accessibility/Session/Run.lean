import Accessibility.Document.WellFormed
import Accessibility.Session.Basic

/-!
Runs of sessions: batch after batch, from the first version on.
-/

set_option autoImplicit false

namespace Accessibility

namespace Change

/-- The handles that an inserted subtree carries are distinct, and the root of the document is not
among them. -/
def Sound (root : Handle) : Change → Prop
  | .inserted _ _ subtree => subtree.Distinct ∧ root ∉ subtree.handles
  | _ => True

instance (root : Handle) : (change : Change) → Decidable (change.Sound root)
  | .inserted _ _ subtree => inferInstanceAs (Decidable (subtree.Distinct ∧ root ∉ subtree.handles))
  | .removed _ => inferInstanceAs (Decidable True)
  | .attribute .. => inferInstanceAs (Decidable True)
  | .popoverTarget .. => inferInstanceAs (Decidable True)
  | .popoverShowing .. => inferInstanceAs (Decidable True)

end Change

namespace Session

/-- The session after some batches. -/
def run (session : Session) (batches : List (List Change)) : Session :=
  batches.foldl (fun session changes => (session.apply changes).state) session

/-- Every batch of a run makes a version. -/
def Succeeds (session : Session) : List (List Change) → Prop
  | [] => True
  | changes :: rest =>
    (∃ version, (session.apply changes).answer = .ok version) ∧
      (session.apply changes).state.Succeeds rest

/-- The sessions that sound batches lead to from a document. -/
inductive Reachable (subtree : Subtree) (capacity : Nat) (verifies : Bool) : Session → Prop
  | start {session : Session} (started : Session.start subtree capacity verifies = .ok session) :
      Reachable subtree capacity verifies session
  | apply {session : Session} (reached : Reachable subtree capacity verifies session)
      (changes : List Change) (sound : ∀ change ∈ changes, change.Sound subtree.handle) :
      Reachable subtree capacity verifies (session.apply changes).state

end Session

end Accessibility
