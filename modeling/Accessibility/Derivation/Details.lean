import Accessibility.Derivation.Source
import Accessibility.Text.Blank

/-!
Details. The nodes that the `aria-details` attribute leads to come first. Where it leads nowhere, an
element that invokes a popover has that popover as its details, unless the popover follows it as
its next sibling. A popover is exposed only while it shows, so an exposed target is a showing one.
-/

set_option autoImplicit false

namespace Accessibility.Derivation

/-- Whether an element can invoke a popover. -/
def isInvoker (node : AccessibleNode) : Bool :=
  match node.tag? with
  | some "button" => true
  | some "input" =>
    ["button", "submit", "reset", "image"].any
      (Text.sameLetters (node.attributes.valueOrEmpty "type"))
  | _ => false

/-- Whether an element invokes a popover only to hide it. -/
def onlyHides (node : AccessibleNode) : Bool :=
  Text.sameLetters (Text.trim (node.attributes.valueOrEmpty "popovertargetaction")) "hide"

/-- The element that an invoker refers to. A reference held by the element itself wins over the
attribute, and must lead into the scope of the element or an enclosing one. -/
def Source.invoked? (source : Source) (node : AccessibleNode) : Option NodeId :=
  match (source.document.get? node.content).bind ContentNode.popoverTarget with
  | some target =>
    if source.document.contains target
        && source.document.encloses (source.document.scopeOf target) node.scope then
      source.tree.nodeFor? target
    else none
  | none =>
    node.attributes["popovertarget"]?.bind fun domId =>
      source.tree.lookup? (Text.trim domId) node.scope

/-- The popover that tells the details of its invoker. -/
def Source.popover? (source : Source) (id : NodeId) (node : AccessibleNode) : Option NodeId :=
  if isInvoker node && !onlyHides node then
    (source.invoked? node).filter fun target =>
      (source.tree.get? target).any (·.attributes.contains "popover")
        && source.tree.nextSibling? id != some target
  else none

def Source.detailsOf (source : Source) (id : NodeId) (node : AccessibleNode) : List NodeId :=
  match source.resolveAll (node.attributes.valueOrEmpty "aria-details") node.scope with
  | [] => (source.popover? id node).toList
  | named => named

def Source.details (source : Source) : Edges :=
  source.edges source.detailsOf

end Accessibility.Derivation
