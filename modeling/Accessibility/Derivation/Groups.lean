import Accessibility.Derivation.Source

/-!
Groups of radio buttons. Native radios form one group for each form and name; those outside any form
belong to the document. Other radios form one group for each radio group around them. Every member
of a group has all members as its targets.
-/

set_option autoImplicit false

namespace Accessibility.Derivation

/-- What the members of a group share. -/
inductive GroupKey where
  | native (owner : NodeId) (name : String)
  | aria (group : NodeId)
deriving DecidableEq, Repr

/-- The group of a node. A native radio without a name has none, nor has any other radio outside a
radio group. -/
def Source.groupKey? (source : Source) (id : NodeId) (node : AccessibleNode) : Option GroupKey :=
  if node.isNativeRadio then
    let name := node.attributes.valueOrEmpty "name"
    if name.isEmpty then none
    else
      ((source.tree.nearest? id (·.role == .form)).or source.tree.root).map (.native · name)
  else if node.role = .radioButton then
    (source.tree.nearest? id (·.role == .radioGroup)).map .aria
  else none

/-- The nodes that have a group, each with its group, in tree order. -/
def Source.grouped (source : Source) : List (NodeId × GroupKey) :=
  source.nodes.filterMap fun (id, node) => (source.groupKey? id node).map (id, ·)

def Source.groups (source : Source) : Edges :=
  let grouped := source.grouped
  grouped.foldl
    (fun edges (id, key) =>
      edges.insert id ((grouped.filter (·.2 == key)).map Prod.fst))
    ∅

end Accessibility.Derivation
