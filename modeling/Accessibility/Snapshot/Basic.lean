import Accessibility.Fault
import Accessibility.Relation.Edges
import Accessibility.Role

/-!
A snapshot is one version of the accessible tree with all its relations. It never changes, and every
question about relations is answered from one.
-/

set_option autoImplicit false

namespace Accessibility

open Std

/-- What a snapshot knows about a node; `order` is its position in preorder. -/
structure NodeInfo where
  content : Handle
  tag : Option String
  domId : Option String
  role : Role
  scope : Scope
  parent : Option NodeId
  children : List NodeId
  order : Nat
deriving DecidableEq, Repr

structure Snapshot where
  version : Version
  root : Option NodeId
  nodes : ExtTreeMap NodeId NodeInfo
  edges : Relation.Family Edges

namespace Snapshot

def empty : Snapshot :=
  ⟨0, none, ∅, .ofFn fun _ => ∅⟩

def get? (snapshot : Snapshot) (id : NodeId) : Option NodeInfo :=
  snapshot.nodes[id]?

def contains (snapshot : Snapshot) (id : NodeId) : Bool :=
  snapshot.nodes.contains id

def size (snapshot : Snapshot) : Nat :=
  snapshot.nodes.size

/-- The targets of a node, none for a node without any. -/
def targets (snapshot : Snapshot) (relation : Relation) (id : NodeId) : List NodeId :=
  (snapshot.edges.get relation).targets id

def edgeCount (snapshot : Snapshot) (relation : Relation) : Nat :=
  (snapshot.edges.get relation).count

/-- The node that stands for a content node. -/
def nodeFor? (snapshot : Snapshot) (content : Handle) : Option NodeId :=
  (snapshot.nodes.toList.find? (·.2.content == content)).map Prod.fst

/-- Puts an entry before the first one that stands later in the tree. -/
def insertInOrder (entry : NodeId × NodeInfo) :
    List (NodeId × NodeInfo) → List (NodeId × NodeInfo)
  | [] => [entry]
  | other :: rest =>
    if entry.2.order ≤ other.2.order then entry :: other :: rest
    else other :: insertInOrder entry rest

/-- The nodes with their data in tree order. -/
def entries (snapshot : Snapshot) : List (NodeId × NodeInfo) :=
  snapshot.nodes.toList.foldr insertInOrder []

/-- Every node in tree order. -/
def treeOrder (snapshot : Snapshot) : List NodeId :=
  snapshot.entries.map Prod.fst

/-- The first node in tree order with a DOM id, in any scope. -/
def findDomId? (snapshot : Snapshot) (domId : String) : Option NodeId :=
  (snapshot.entries.find? (·.2.domId == some domId)).map Prod.fst

/-- The targets of a node of the snapshot. An absent relation is told apart from an empty list of
targets. -/
def query (snapshot : Snapshot) (relation : Relation) (id : NodeId) :
    Except Fault (Option (List NodeId)) :=
  if snapshot.contains id then
    let targets := snapshot.targets relation id
    .ok (if targets.isEmpty && relation.absentWhenEmpty then none else some targets)
  else .error (.unknownNode id)

end Snapshot

end Accessibility
