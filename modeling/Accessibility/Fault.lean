import Accessibility.Arena
import Accessibility.Document.Basic
import Accessibility.Version

/-!
The ways in which a call can fail. A reference that leads nowhere is an absent relation and no
fault.
-/

set_option autoImplicit false

namespace Accessibility

inductive Fault where
  | unknownNode (id : NodeId)
  | unknownContent (handle : Handle)
  | duplicateIdentity (content : Handle) (existing : NodeId)
  | circularParentage
  | versionUnavailable (requested oldest latest : Version)
  | timedOut
  | disconnected
deriving DecidableEq, Repr

namespace Fault

/-- The wording of a fault. An expired wait is told by its kind alone. -/
def message? : Fault → Option String
  | .unknownNode id => some ("Unknown or retired accessible node " ++ id.display)
  | .unknownContent handle => some ("Unknown content node " ++ handle.display)
  | .duplicateIdentity content existing =>
    some ("Content " ++ content.display ++ " is already exposed as live node " ++ existing.display)
  | .circularParentage => some "Cannot move an accessible node under itself or a descendant"
  | .versionUnavailable requested oldest latest =>
    some ("Version " ++ requested.display ++ " unavailable (retained "
      ++ oldest.display ++ "..=" ++ latest.display ++ ")")
  | .timedOut => none
  | .disconnected => some "The relation cache worker is no longer running"

end Fault

/-- What a call on a state leaves behind, whether it succeeds or fails. -/
structure Outcome (σ α : Type) where
  state : σ
  answer : Except Fault α

namespace Outcome

variable {σ α β : Type}

def done (state : σ) (answer : α) : Outcome σ α :=
  ⟨state, .ok answer⟩

def failed (state : σ) (fault : Fault) : Outcome σ α :=
  ⟨state, .error fault⟩

/-- Goes on after a success. A failure ends the sequence where it stands. -/
def andThen (outcome : Outcome σ α) (next : σ → α → Outcome σ β) : Outcome σ β :=
  match outcome.answer with
  | .ok answer => next outcome.state answer
  | .error fault => failed outcome.state fault

@[simp] theorem done_andThen (state : σ) (answer : α) (next : σ → α → Outcome σ β) :
    (done state answer).andThen next = next state answer :=
  rfl

@[simp] theorem failed_andThen (state : σ) (fault : Fault) (next : σ → α → Outcome σ β) :
    (failed state fault : Outcome σ α).andThen next = failed state fault :=
  rfl

end Outcome

end Accessibility
