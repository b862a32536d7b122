import Accessibility.Tree.Basic

/-!
Tree order. A node is found either by walking the child lists from the root, or by the path of
child positions that leads to it; lookups compare paths, so that the first match in tree order wins
without a walk through the whole tree.
-/

set_option autoImplicit false

namespace Accessibility.Tree

def descend (tree : Tree) : (depth : Nat) → NodeId → List NodeId
  | 0, _ => []
  | depth + 1, id =>
    match tree.get? id with
    | none => []
    | some node => id :: node.children.flatMap (tree.descend depth)

/-- A node and all below it, in preorder. -/
def below (tree : Tree) (id : NodeId) : List NodeId :=
  tree.descend tree.size id

/-- Every live node in preorder. -/
def preorder (tree : Tree) : List NodeId :=
  match tree.root with
  | none => []
  | some root => tree.below root

def climb (tree : Tree) : (height : Nat) → NodeId → List Nat
  | 0, _ => []
  | height + 1, id =>
    match tree.parent? id with
    | none => []
    | some parent => tree.climb height parent ++ [(tree.children parent).idxOf id]

/-- The child positions on the way from the topmost ancestor down to a node. -/
def path (tree : Tree) (id : NodeId) : List Nat :=
  tree.climb (tree.size + 1) id

/-- The order of two nodes by their positions in the tree. -/
def order (tree : Tree) (left right : NodeId) : Ordering :=
  compare (tree.path left) (tree.path right)

/-- The first of some nodes in tree order. -/
def first? (tree : Tree) : List NodeId → Option NodeId
  | [] => none
  | id :: rest =>
    match tree.first? rest with
    | none => some id
    | some other => if tree.order other id = .lt then some other else some id

/-- The first live node in tree order with a DOM id in a scope. The empty id is nobody's. -/
def lookup? (tree : Tree) (domId : String) (scope : Scope) : Option NodeId :=
  if domId.isEmpty then none
  else tree.first? ((tree.byDomId[(⟨scope, domId⟩ : ScopedId)]?.getD []).filter tree.isAlive)

end Accessibility.Tree
