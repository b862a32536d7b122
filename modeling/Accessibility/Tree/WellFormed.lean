import Accessibility.Tree.Edit

/-!
Accessible trees as they come about: every tree that calls lead to from the empty one, and what
holds of all of them.
-/

set_option autoImplicit false

namespace Accessibility.Tree

/-- A call that changes a tree. -/
inductive Call where
  | createRoot (content : Handle) (seed : Seed)
  | create (content : Handle) (parent : NodeId) (index : Nat) (seed : Seed)
  | beginShutdown (id : NodeId)
  | retire (id : NodeId)
  | retirePending
  | reparent (child parent : NodeId) (index : Nat)
  | arrange (parent : NodeId) (order : List NodeId)
  | sync (id : NodeId) (attributes : Attributes) (scope : Scope)

namespace Call

/-- The tree that a call leaves behind, and the fault that it fails with. -/
def run (tree : Tree) : Call → Tree × Option Fault
  | .createRoot content seed => told (tree.createRoot content seed)
  | .create content parent index seed => told (tree.create content parent index seed)
  | .beginShutdown id => told (tree.beginShutdown id)
  | .retire id => told (tree.retire id)
  | .retirePending => (tree.retirePending, none)
  | .reparent child parent index => told (tree.reparent child parent index)
  | .arrange parent order => told (tree.arrange parent order)
  | .sync id attributes scope => told (tree.sync id attributes scope)
where
  told {α : Type} (outcome : Outcome Tree α) : Tree × Option Fault :=
    (outcome.state, match outcome.answer with
      | .ok _ => none
      | .error fault => some fault)

/-- A new order of children must hold the same children. -/
def Admissible (tree : Tree) : Call → Prop
  | .arrange parent order =>
    ∀ node, tree.get? parent = some node → order.Perm node.children
  | _ => True

end Call

/-- The trees that admissible calls lead to, whether they succeed or fail. -/
inductive Reachable : Tree → Prop
  | empty : Reachable empty
  | call {tree : Tree} (reached : Reachable tree) (call : Call)
      (admissible : call.Admissible tree) :
      Reachable (call.run tree).1

/-- Parent links lead from a node to an ancestor, or it is the node itself. -/
inductive Under (tree : Tree) : NodeId → NodeId → Prop
  | self (id : NodeId) : Under tree id id
  | above {id parent ancestor : NodeId} (linked : tree.parent? id = some parent)
      (rest : Under tree parent ancestor) : Under tree id ancestor

/-- The live nodes form one tree, the walk from the root meets each of them once, and lookups find
them and no others. Parent links run in no circle, not even those of pending nodes. -/
structure WellFormed (tree : Tree) : Prop where
  root_alive : ∀ {root : NodeId}, tree.root = some root →
    tree.isAlive root = true ∧ tree.parent? root = none
  grounded : ∀ {id : NodeId}, tree.isAlive id = true →
    ∃ root, tree.root = some root ∧ tree.Under id root
  parent_alive : ∀ {id parent : NodeId}, tree.isAlive id = true →
    tree.parent? id = some parent → tree.isAlive parent = true
  listed_iff : ∀ {parent child : NodeId}, tree.isAlive parent = true →
    (child ∈ tree.children parent ↔ tree.isAlive child = true ∧ tree.parent? child = some parent)
  nodup : ∀ {parent : NodeId}, tree.isAlive parent = true → (tree.children parent).Nodup
  acyclic : ∀ {id parent : NodeId}, tree.parent? id = some parent → ¬ tree.Under parent id
  preorder_nodup : tree.preorder.Nodup
  mem_preorder_iff : ∀ {id : NodeId}, id ∈ tree.preorder ↔ tree.isAlive id = true
  byContent_iff : ∀ {content : Handle} {id : NodeId}, tree.nodeFor? content = some id ↔
    ∃ node, tree.get? id = some node ∧ node.alive = true ∧ node.content = content
  content_injective : ∀ {left right : NodeId} {node other : AccessibleNode},
    tree.get? left = some node → tree.get? right = some other → node.alive = true →
    other.alive = true → node.content = other.content → left = right
  found_alive : ∀ {id : NodeId}, ((∃ content, tree.nodeFor? content = some id) ∨
    ∃ domId scope, tree.lookup? domId scope = some id) → tree.lifecycle id = .alive

end Accessibility.Tree
