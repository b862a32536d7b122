import Accessibility.Document.Nodes

/-!
Slots of shadow trees and the children of the host that are assigned to them.
-/

set_option autoImplicit false

namespace Accessibility

namespace ContentNode

/-- The name of a node as a slot. -/
def slotName (node : ContentNode) : String :=
  node.attributes.valueOrEmpty "name"

/-- Whether a child of a host goes to the slots of a name. An element names its slot; text goes to
the slot without a name. -/
def goesTo (node : ContentNode) (name : String) : Bool :=
  match node.kind with
  | .element _ => node.attributes.valueOrEmpty "slot" == name
  | .text => name.isEmpty
  | _ => false

end ContentNode

namespace Document

/-- The slots of a name met on the way down, in tree order. The search does not enter a shadow
tree from above, since that has slots of its own. -/
def slotsWithin (document : Document) (name : String) : (depth : Nat) → Handle → List Handle
  | 0, _ => []
  | depth + 1, handle =>
    match document.get? handle with
    | none => []
    | some node =>
      let inside := (node.children.filter (! document.isShadowRoot ·)).flatMap
        (document.slotsWithin name depth)
      if node.kind.isSlot && node.slotName == name then handle :: inside else inside

/-- The first slot of a name in a shadow tree. -/
def firstSlot? (document : Document) (shadowRoot : Handle) (name : String) : Option Handle :=
  (document.slotsWithin name document.size shadowRoot).head?

/-- The children of the host that take the place of a slot, in order. Of the slots of one name only
the first receives any. -/
def assigned (document : Document) (shadowRoot slot : Handle) : List Handle :=
  let name := ((document.get? slot).map ContentNode.slotName).getD ""
  if document.firstSlot? shadowRoot name = some slot then
    match ((document.get? shadowRoot).bind ContentNode.parent).bind document.get? with
    | none => []
    | some host =>
      host.children.filter fun child => (document.get? child).any (·.goesTo name)
  else []

end Document

end Accessibility
