import Accessibility.Change.Basic
import Accessibility.Derivation.Tables

/-!
What a list of changes does to a document, and what has to be renewed because of it.
-/

set_option autoImplicit false

namespace Accessibility

namespace Change

/-- Attributes that decide what is exposed, on any element. -/
def isExposureAttribute (name : String) : Bool :=
  name == "hidden" || name == "popover" || name == "slot"

/-- Whether a change can alter which content is exposed. Naming a slot anew moves content between
slots. -/
def altersExposure (document : Document) : Change → Bool
  | .attribute node name _ =>
    isExposureAttribute name
      || (name == "name" && (document.kind? node).any Kind.isSlot)
  | .popoverTarget .. => false
  | _ => true

/-- The relations that can differ after a change that leaves exposure as it is. -/
def stale : Change → RelationSet
  | .attribute _ name _ => .readFrom name
  | .popoverTarget .. => .ofPairs [.details]
  | _ => .none

/-- The node whose attributes a change sets. -/
def touched? : Change → Option Handle
  | .attribute node _ _ => some node
  | _ => none

end Change

/-- The effects of the changes applied so far. -/
structure Effects where
  document : Document
  altersExposure : Bool
  stale : RelationSet
  /-- Nodes whose attributes were set. -/
  touched : List Handle
  /-- Handles that an insertion took over from an earlier node. -/
  replaced : List Handle

namespace Effects

def start (document : Document) : Effects :=
  ⟨document, false, .none, [], []⟩

/-- Applies a change. If it fails, only its effect on the document is kept, and what it would have
made stale is renewed all the same. -/
def add (effects : Effects) (change : Change) : Effects :=
  let outcome := change.apply effects.document
  let (touched, replaced) :=
    match outcome.answer with
    | .ok replaced => (change.touched?.toList, replaced)
    | .error _ => ([], [])
  { document := outcome.state
    altersExposure := effects.altersExposure || change.altersExposure effects.document
    stale := effects.stale.union change.stale
    touched := effects.touched ++ touched
    replaced := effects.replaced ++ replaced }

def ofChanges (document : Document) (changes : List Change) : Effects :=
  changes.foldl add (start document)

end Effects

end Accessibility
