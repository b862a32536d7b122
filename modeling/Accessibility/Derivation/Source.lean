import Accessibility.Document.Scoping
import Accessibility.Relation.Edges
import Accessibility.Tree.Order

/-!
What relations are derived from: the live nodes of the accessible tree and the document that they
stand for.
-/

set_option autoImplicit false

namespace Accessibility

namespace Derivation

/-- A tree and its document, with the preorder of the tree worked out once. -/
structure Source where
  tree : Tree
  document : Document
  preorder : List NodeId := tree.preorder
  preorder_eq : preorder = tree.preorder := by rfl

namespace Source

/-- The live nodes in tree order. -/
def nodes (source : Source) : List (NodeId × AccessibleNode) :=
  source.preorder.filterMap fun id => (source.tree.get? id).map (id, ·)

/-- The nodes that the words of an id list lead to, in the order of the words and each once. Words
that lead nowhere are passed over. -/
def resolveAll (source : Source) (list : String) (scope : Scope) : List NodeId :=
  ((Text.words list).filterMap fun word => source.tree.lookup? word scope).eraseDups

/-- The edges from each live node to its targets. -/
def edges (source : Source) (targetsOf : NodeId → AccessibleNode → List NodeId) : Edges :=
  .ofTargets source.preorder fun id =>
    match source.tree.get? id with
    | none => []
    | some node => targetsOf id node

end Source

end Derivation

end Accessibility
