import Accessibility.Derivation.Source
import Accessibility.Text.Blank

/-!
Labels. A node is labelled by the nodes that its `aria-labelledby` attribute leads to; if there are
none, by the `label` elements for it in tree order. A figure is labelled also by its first caption.
-/

set_option autoImplicit false

namespace Accessibility.Derivation

/-- Whether a `label` around a node labels it. -/
def isLabelable (node : AccessibleNode) : Bool :=
  match node.tag? with
  | some "input" => !Text.sameLetters (node.attributes.valueOrEmpty "type") "hidden"
  | some "select" | some "textarea" | some "button" => true
  | some "meter" | some "output" | some "progress" => true
  | _ => false

/-- The node that a `label` element labels: the one that its `for` attribute leads to, and without
such an attribute the first labelable node inside it. -/
def Source.labelled? (source : Source) (label : NodeId) (node : AccessibleNode) : Option NodeId :=
  match node.attributes["for"]? with
  | some domId => source.tree.lookup? (Text.trim domId) node.scope
  | none =>
    (source.tree.below label).tail.find? fun id => (source.tree.get? id).any isLabelable

/-- The `label` elements of each node that has any, in tree order. -/
def Source.labelElements (source : Source) : Edges :=
  source.nodes.foldl
    (fun found (label, node) =>
      if node.hasTag "label" then
        match source.labelled? label node with
        | some target => found.push target label
        | none => found
      else found)
    ∅

/-- The first caption of a figure. -/
def Source.caption? (source : Source) (node : AccessibleNode) : Option NodeId :=
  if node.hasTag "figure" then
    node.children.find? fun child => (source.tree.get? child).any (·.hasTag "figcaption")
  else none

/-- The labels of a node, given the `label` elements of every node. -/
def Source.labelsOf (source : Source) (labelElements : Edges) (id : NodeId)
    (node : AccessibleNode) : List NodeId :=
  let named := source.resolveAll (node.attributes.valueOrEmpty "aria-labelledby") node.scope
  let labels := if named.isEmpty then labelElements.targets id else named
  match source.caption? node with
  | some caption => if labels.contains caption then labels else labels ++ [caption]
  | none => labels

def Source.labels (source : Source) : Edges :=
  let labelElements := source.labelElements
  source.edges (source.labelsOf labelElements)

end Accessibility.Derivation
