import Accessibility.Document.Layout
import Accessibility.Relation.Edges
import Accessibility.Tree.Edit

/-!
Bringing the accessible tree in line with the exposed layout of its document. Content that has a
live node keeps it, wherever it is laid out now; other content gets a new node; and nodes whose
content is no longer exposed are shut down.
-/

set_option autoImplicit false

namespace Accessibility

/-- How many nodes an alignment created, moved to another parent, and shut down. -/
structure Alignment where
  created : Nat
  moved : Nat
  shutDown : Nat
deriving DecidableEq, Repr

namespace Alignment

/-- An alignment under way. The children met so far are listed below each parent. -/
structure Progress where
  tree : Tree
  counts : Alignment
  listed : Edges

namespace Progress

def start (tree : Tree) : Progress :=
  ⟨tree, ⟨0, 0, 0⟩, ∅⟩

/-- Makes a call on the tree. -/
def onTree {α : Type} (progress : Progress) (call : Tree → Outcome Tree α) : Outcome Progress α :=
  let outcome := call progress.tree
  ⟨{ progress with tree := outcome.state }, outcome.answer⟩

def countCreated (progress : Progress) : Progress :=
  { progress with counts := { progress.counts with created := progress.counts.created + 1 } }

def countMoved (progress : Progress) : Progress :=
  { progress with counts := { progress.counts with moved := progress.counts.moved + 1 } }

def countShutDown (progress : Progress) (nodes : Nat) : Progress :=
  { progress with counts := { progress.counts with shutDown := progress.counts.shutDown + nodes } }

/-- Gives exposed content its node under a parent: a new one at the end of the children, or the one
that it has, moved there if it is elsewhere. -/
def seat (progress : Progress) (node : ContentNode) (entry : Exposed) (parent : NodeId) :
    Outcome Progress NodeId :=
  let last := (progress.tree.children parent).length
  match progress.tree.nodeFor? entry.handle with
  | none =>
    progress.countCreated.onTree
      (·.create entry.handle parent last ⟨node.kind, node.attributes, entry.scope⟩)
  | some id =>
    let seated :=
      if progress.tree.parent? id = some parent then .done progress ()
      else
        (progress.onTree (·.reparent id parent last)).andThen fun moved _ =>
          .done moved.countMoved ()
    seated.andThen fun seated _ =>
      (seated.onTree (·.sync id node.attributes entry.scope)).andThen fun synced _ =>
        .done synced id

/-- Aligns the node of one entry of the layout. -/
def place (document : Document) (progress : Progress) (entry : Exposed) : Outcome Progress Unit :=
  match document.get? entry.handle with
  | none => .done progress ()
  | some node =>
    match entry.parent with
    | none =>
      match progress.tree.root with
      | none => .done progress ()
      | some root =>
        (progress.onTree (·.sync root node.attributes entry.scope)).andThen fun synced _ =>
          .done synced ()
    | some above =>
      match progress.tree.nodeFor? above with
      | none => .done progress ()
      | some parent =>
        (progress.seat node entry parent).andThen fun seated id =>
          .done { seated with listed := seated.listed.push parent id } ()

def placeAll (document : Document) (progress : Progress) : List Exposed → Outcome Progress Unit
  | [] => .done progress ()
  | entry :: rest =>
    (progress.place document entry).andThen fun placed _ => placeAll document placed rest

/-- Shuts down a node that is still alive if its content is not exposed. -/
def dismiss (exposed : List Handle) (progress : Progress) (id : NodeId) : Outcome Progress Unit :=
  match progress.tree.get? id with
  | none => .done progress ()
  | some node =>
    if node.alive && !exposed.contains node.content then
      (progress.onTree (·.beginShutdown id)).andThen fun dismissed leaving =>
        .done (dismissed.countShutDown leaving.length) ()
    else .done progress ()

def dismissAll (exposed : List Handle) (progress : Progress) : List NodeId → Outcome Progress Unit
  | [] => .done progress ()
  | id :: rest =>
    (progress.dismiss exposed id).andThen fun dismissed _ => dismissAll exposed dismissed rest

def arrangeAll (progress : Progress) : List (NodeId × List NodeId) → Outcome Progress Unit
  | [] => .done progress ()
  | (parent, order) :: rest =>
    (progress.onTree (·.arrange parent order)).andThen fun arranged _ => arrangeAll arranged rest

end Progress

/-- Aligns a tree with its document. -/
def run (document : Document) (tree : Tree) : Outcome Tree Alignment :=
  let layout := document.layout
  let outcome :=
    ((Progress.start tree).placeAll document layout).andThen fun placed _ =>
      (placed.dismissAll (layout.map Exposed.handle) placed.tree.preorder).andThen
        fun dismissed _ => dismissed.arrangeAll dismissed.listed.toList
  ⟨outcome.state.tree, outcome.answer.map fun _ => outcome.state.counts⟩

end Alignment

end Accessibility
