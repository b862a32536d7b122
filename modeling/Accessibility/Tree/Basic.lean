import Accessibility.Document.Nodes
import Accessibility.Fault
import Accessibility.Role

/-!
The accessible tree. A node is alive from its creation until its shutdown begins; from then on it is
pending and no lookup finds it, until it is retired and its key is free.
-/

set_option autoImplicit false

namespace Accessibility

open Std

inductive Lifecycle where
  | alive
  | pendingShutdown
  /-- Retired, or never known. -/
  | dead
deriving DecidableEq, Repr

/-- What content tells of the node that stands for it. -/
structure Seed where
  kind : Kind
  attributes : Attributes
  scope : Scope
deriving DecidableEq

structure AccessibleNode where
  content : Handle
  kind : Kind
  attributes : Attributes
  scope : Scope
  alive : Bool
  parent : Option NodeId
  children : List NodeId
deriving DecidableEq

namespace AccessibleNode

def tag? (node : AccessibleNode) : Option String :=
  node.kind.tag?

def role (node : AccessibleNode) : Role :=
  .ofContent node.kind node.attributes

def domId? (node : AccessibleNode) : Option String :=
  node.attributes.domId?

def hasTag (node : AccessibleNode) (tag : String) : Bool :=
  node.tag? == some tag

/-- Whether the node is an `input` of type `radio`. -/
def isNativeRadio (node : AccessibleNode) : Bool :=
  node.hasTag "input" && Text.sameLetters (node.attributes.valueOrEmpty "type") "radio"

end AccessibleNode

/-- A DOM id as it is looked up: within one scope. -/
structure ScopedId where
  scope : Scope
  domId : String
deriving DecidableEq, Repr

namespace ScopedId

instance : Ord ScopedId :=
  ⟨compareLex (compareOn fun key => key.scope.root?) (compareOn ScopedId.domId)⟩

instance : TransOrd ScopedId :=
  inferInstanceAs
    (TransCmp (compareLex (compareOn fun key : ScopedId => key.scope.root?)
      (compareOn ScopedId.domId)))

instance : LawfulEqOrd ScopedId where
  eq_of_compare {a b} same := by
    have same : compareLex (compareOn fun key : ScopedId => key.scope.root?)
      (compareOn ScopedId.domId) a b = .eq := same
    obtain ⟨scope, domId⟩ := a
    obtain ⟨scope', domId'⟩ := b
    simp only [compareLex, compareOn, Ordering.then_eq_eq, Std.compare_eq_iff_eq] at same
    cases scope <;> cases scope' <;> simp_all [Scope.root?]

end ScopedId

/-- The nodes, with an index from content to the live node that stands for it and one from DOM ids
to the nodes that carry them. -/
structure Tree where
  nodes : Arena AccessibleNode
  byContent : ExtTreeMap Handle NodeId
  byDomId : ExtTreeMap ScopedId (List NodeId)
  root : Option NodeId

namespace Tree

def empty : Tree :=
  ⟨.empty, ∅, ∅, none⟩

def get? (tree : Tree) (id : NodeId) : Option AccessibleNode :=
  tree.nodes.get? id

/-- The number of nodes, pending ones included. -/
def size (tree : Tree) : Nat :=
  tree.nodes.size

def lifecycle (tree : Tree) (id : NodeId) : Lifecycle :=
  match tree.get? id with
  | none => .dead
  | some node => if node.alive then .alive else .pendingShutdown

def isAlive (tree : Tree) (id : NodeId) : Bool :=
  (tree.get? id).any AccessibleNode.alive

/-- The live node that stands for a content node. -/
def nodeFor? (tree : Tree) (content : Handle) : Option NodeId :=
  tree.byContent[content]?

def parent? (tree : Tree) (id : NodeId) : Option NodeId :=
  (tree.get? id).bind AccessibleNode.parent

def children (tree : Tree) (id : NodeId) : List NodeId :=
  ((tree.get? id).map AccessibleNode.children).getD []

def ascend (tree : Tree) : (height : Nat) → Option NodeId → List NodeId
  | 0, _ => []
  | _ + 1, none => []
  | height + 1, some id => id :: tree.ascend height (tree.parent? id)

/-- A node and its ancestors, nearest first. No parent chain of a tree is longer than the number of
its nodes. -/
def lineage (tree : Tree) (id : NodeId) : List NodeId :=
  tree.ascend (tree.size + 1) (some id)

/-- The proper ancestors of a node, nearest first. -/
def properAncestors (tree : Tree) (id : NodeId) : List NodeId :=
  tree.ascend (tree.size + 1) (tree.parent? id)

/-- The proper ancestors of a known node, nearest first. -/
def ancestors (tree : Tree) (id : NodeId) : Except Fault (List NodeId) :=
  if tree.nodes.contains id then .ok (tree.properAncestors id) else .error (.unknownNode id)

/-- Whether one node is another one or an ancestor of it. -/
def isAncestorOf (tree : Tree) (above below : NodeId) : Bool :=
  (tree.lineage below).contains above

/-- The nearest proper ancestor with a property. -/
def nearest? (tree : Tree) (id : NodeId) (holds : AccessibleNode → Bool) : Option NodeId :=
  (tree.properAncestors id).find? fun above => (tree.get? above).any holds

def nextSibling? (tree : Tree) (id : NodeId) : Option NodeId :=
  match tree.parent? id with
  | none => none
  | some parent =>
    let siblings := tree.children parent
    siblings[siblings.idxOf id + 1]?

end Tree

end Accessibility
