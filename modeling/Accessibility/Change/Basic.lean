import Accessibility.Document.Edit
import Accessibility.Relation.Basic
import Accessibility.Text.Ascii

/-!
Changes of a document, as they are applied, and the reports that they are made from.
-/

set_option autoImplicit false

namespace Accessibility

/-- A change of a document. -/
inductive Change where
  | inserted (parent : Handle) (index : Nat) (subtree : Subtree)
  | removed (node : Handle)
  | attribute (node : Handle) (name : String) (value : Option String)
  | popoverTarget (node : Handle) (target : Option Handle)
  | popoverShowing (node : Handle) (showing : Bool)
deriving DecidableEq

namespace Change

/-- The node whose data changes. -/
def target? : Change → Option Handle
  | .inserted .. => none
  | .removed _ => none
  | .attribute node _ _ => some node
  | .popoverTarget node _ => some node
  | .popoverShowing node _ => some node

/-- Whether content comes or goes. -/
def isStructural : Change → Bool
  | .inserted .. => true
  | .removed _ => true
  | _ => false

/-- Whether a node comes or goes as part of an inserted subtree or on its own. A removal speaks of
the node that it names, not of those below. -/
def relocates (handle : Handle) : Change → Bool
  | .inserted _ _ subtree => subtree.mentions handle
  | .removed node => node == handle
  | _ => false

/-- Whether two changes set the same datum of the same node. -/
def sameDatum : Change → Change → Bool
  | .attribute node name _, .attribute node' name' _ => node == node' && name == name'
  | .popoverTarget node _, .popoverTarget node' _ => node == node'
  | .popoverShowing node _, .popoverShowing node' _ => node == node'
  | _, _ => false

/-- Whether a change gives an attribute this value. -/
def setsTo (value : Option String) : Change → Bool
  | .attribute _ _ new => new == value
  | _ => false

/-- The change as an edit of a document. An insertion answers the handles that it took over. -/
def apply (document : Document) : Change → Outcome Document (List Handle)
  | .inserted parent index subtree => document.insert parent index subtree
  | .removed node => (document.remove node).andThen fun removed _ => .done removed []
  | .attribute node name value =>
    (document.setAttribute node name value).andThen fun changed _ => .done changed []
  | .popoverTarget node target =>
    (document.setPopoverTarget node target).andThen fun changed _ => .done changed []
  | .popoverShowing node showing =>
    (document.setPopoverShowing node showing).andThen fun changed _ => .done changed []

end Change

/-- The changes of one update cycle. -/
structure Batch where
  cycle : Nat
  changes : List Change
deriving DecidableEq

/-- What the owner of a document reports while an update cycle runs. -/
inductive Report where
  | attribute (node : Handle) (name : String) (old new : Option String)
  | inserted (parent : Handle) (index : Nat) (subtree : Subtree)
  | removed (node : Handle)
  /-- A property of the document model that holds a reference to an element. -/
  | reference (node : Handle) (property : String) (target : Option Handle)
  | popoverShowing (node : Handle) (showing : Bool)
deriving DecidableEq

namespace Report

/-- The only property of the document model that relations are derived from. -/
def popoverTargetProperty : String :=
  "popoverTargetElement"

/-- Whether a report can matter. References are known by the name of their property, in any case of
its letters. -/
def isKnown : Report → Bool
  | .reference _ property _ => Text.sameLetters property popoverTargetProperty
  | _ => true

/-- Whether a report tells of an attribute that keeps its value. -/
def isIdle : Report → Bool
  | .attribute _ _ old new => old == new
  | _ => false

def change : Report → Change
  | .attribute node name _ new => .attribute node (Text.lower name) new
  | .inserted parent index subtree => .inserted parent index subtree
  | .removed node => .removed node
  | .reference node _ target => .popoverTarget node target
  | .popoverShowing node showing => .popoverShowing node showing

/-- The value that a reported attribute had before. -/
def previous : Report → Option String
  | .attribute _ _ old _ => old
  | _ => none

end Report

end Accessibility
