import Accessibility.Document.Subtree

/-!
A document as a finite map from handles to nodes. Child lists and parent links are both stored;
walks along either are bounded by the number of nodes, because no walk in a tree meets a handle
twice.
-/

set_option autoImplicit false

namespace Accessibility

open Std

/-- A content node with its links. -/
structure ContentNode where
  kind : Kind
  attributes : Attributes
  popoverShowing : Bool
  popoverTarget : Option Handle
  parent : Option Handle
  children : List Handle
deriving DecidableEq

namespace ContentNode

/-- Whether the node hides itself and everything below: it is marked hidden, or it is a popover
that does not show. -/
def isHidden (node : ContentNode) : Bool :=
  node.attributes.contains "hidden" || (node.attributes.contains "popover" && !node.popoverShowing)

end ContentNode

/-- The topmost node of a subtree as it stands under a parent. -/
def Subtree.node (subtree : Subtree) (parent : Option Handle) : ContentNode where
  kind := subtree.kind
  attributes := subtree.attributes
  popoverShowing := subtree.popoverShowing
  popoverTarget := subtree.popoverTarget
  parent := parent
  children := subtree.children.map Subtree.handle

structure Document where
  root : Handle
  nodes : ExtTreeMap Handle ContentNode
deriving DecidableEq

namespace Document

def get? (document : Document) (handle : Handle) : Option ContentNode :=
  document.nodes[handle]?

def contains (document : Document) (handle : Handle) : Bool :=
  document.nodes.contains handle

def size (document : Document) : Nat :=
  document.nodes.size

def modify (document : Document) (handle : Handle) (change : ContentNode → ContentNode) :
    Document :=
  { document with nodes := document.nodes.modify handle change }

def kind? (document : Document) (handle : Handle) : Option Kind :=
  (document.get? handle).map ContentNode.kind

def isShadowRoot (document : Document) (handle : Handle) : Bool :=
  document.kind? handle == some .shadowRoot

mutual

/-- Stores a subtree below a parent. Siblings are stored from the last to the first, so of two
nodes with one handle the one that stands first in the subtree remains, and of two on one path
the lower. -/
def store (nodes : ExtTreeMap Handle ContentNode) (parent : Option Handle) :
    Subtree → ExtTreeMap Handle ContentNode
  | ⟨handle, kind, attributes, popoverShowing, popoverTarget, children⟩ =>
    let topmost : Subtree := ⟨handle, kind, attributes, popoverShowing, popoverTarget, children⟩
    storeAll (nodes.insert handle (topmost.node parent)) handle children

def storeAll (nodes : ExtTreeMap Handle ContentNode) (parent : Handle) :
    List Subtree → ExtTreeMap Handle ContentNode
  | [] => nodes
  | child :: rest => store (storeAll nodes parent rest) (some parent) child

end

def ofSubtree (subtree : Subtree) : Document :=
  ⟨subtree.handle, store ∅ none subtree⟩

/-- The handles met on the way down from a handle, in preorder and at most `depth` levels deep.
Handles without a node are passed over. -/
def descend (document : Document) : (depth : Nat) → Handle → List Handle
  | 0, _ => []
  | depth + 1, handle =>
    match document.get? handle with
    | none => []
    | some node => handle :: node.children.flatMap (document.descend depth)

/-- A handle and all below it, each once, in preorder. -/
def below (document : Document) (handle : Handle) : List Handle :=
  (document.descend document.size handle).eraseDups

/-- Every node that child lists lead to from the root, in preorder. -/
def preorder (document : Document) : List Handle :=
  document.below document.root

def ascend (document : Document) : (height : Nat) → Option Handle → List Handle
  | 0, _ => []
  | _ + 1, none => []
  | height + 1, some handle =>
    match document.get? handle with
    | none => []
    | some node => handle :: document.ascend height node.parent

/-- A node and its ancestors, nearest first. -/
def lineage (document : Document) (handle : Handle) : List Handle :=
  document.ascend document.size (some handle)

theorem store_eq (nodes : ExtTreeMap Handle ContentNode) (parent : Option Handle)
    (subtree : Subtree) :
    store nodes parent subtree =
      storeAll (nodes.insert subtree.handle (subtree.node parent)) subtree.handle
        subtree.children := by
  cases subtree
  rfl

theorem contains_eq_isSome_get? (document : Document) (handle : Handle) :
    document.contains handle = (document.get? handle).isSome := by
  simp [contains, get?]

theorem get?_modify (document : Document) (handle other : Handle)
    (change : ContentNode → ContentNode) :
    (document.modify handle change).get? other =
      if handle = other then (document.get? handle).map change else document.get? other := by
  simp [modify, get?, ExtTreeMap.getElem?_modify]

end Document

end Accessibility
