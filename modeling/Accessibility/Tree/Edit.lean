import Accessibility.Document.Edit
import Accessibility.Tree.Order

/-!
Changes to the accessible tree. Every call checks its arguments before it changes anything, so a
call that fails leaves the tree as it was.
-/

set_option autoImplicit false

namespace Accessibility.Tree

open Std

def modify (tree : Tree) (id : NodeId) (change : AccessibleNode → AccessibleNode) : Tree :=
  { tree with nodes := tree.nodes.modify id change }

/-- Enters the DOM id of a node into the index. -/
def indexDomId (tree : Tree) (id : NodeId) : Tree :=
  match tree.get? id with
  | none => tree
  | some node =>
    match node.domId? with
    | none => tree
    | some domId =>
      let key : ScopedId := ⟨node.scope, domId⟩
      { tree with byDomId := tree.byDomId.insert key (tree.byDomId[key]?.getD [] ++ [id]) }

/-- Takes the DOM id of a node out of the index. -/
def unindexDomId (tree : Tree) (id : NodeId) : Tree :=
  match tree.get? id with
  | none => tree
  | some node =>
    match node.domId? with
    | none => tree
    | some domId =>
      let key : ScopedId := ⟨node.scope, domId⟩
      match (tree.byDomId[key]?.getD []).filter (· != id) with
      | [] => { tree with byDomId := tree.byDomId.erase key }
      | others => { tree with byDomId := tree.byDomId.insert key others }

/-- Takes a node out of both indexes. -/
def unindex (tree : Tree) (id : NodeId) : Tree :=
  let unnamed := tree.unindexDomId id
  match unnamed.get? id with
  | none => unnamed
  | some node =>
    if unnamed.nodeFor? node.content = some id then
      { unnamed with byContent := unnamed.byContent.erase node.content }
    else unnamed

/-- Stores a new live node without children, in both indexes. -/
def add (tree : Tree) (content : Handle) (parent : Option NodeId) (seed : Seed) : Tree :=
  let node : AccessibleNode := ⟨content, seed.kind, seed.attributes, seed.scope, true, parent, []⟩
  let id := tree.nodes.nextKey
  { tree with
    nodes := tree.nodes.insert node
    byContent := tree.byContent.insert content id }.indexDomId id

/-- Creates the root. -/
def createRoot (tree : Tree) (content : Handle) (seed : Seed) : Outcome Tree NodeId :=
  match tree.root with
  | some existing => .failed tree (.duplicateIdentity content existing)
  | none =>
    match tree.nodeFor? content with
    | some existing => .failed tree (.duplicateIdentity content existing)
    | none =>
      let id := tree.nodes.nextKey
      .done { tree.add content none seed with root := some id } id

/-- Puts a node into the child list of a parent. -/
def link (tree : Tree) (parent : NodeId) (index : Nat) (child : NodeId) : Tree :=
  tree.modify parent fun above =>
    { above with children := Document.insertAt index child above.children }

/-- Takes a node out of the child list of its parent. -/
def unlink (tree : Tree) (child : NodeId) : Tree :=
  match tree.parent? child with
  | none => tree
  | some parent =>
    tree.modify parent fun above => { above with children := above.children.filter (· != child) }

/-- Creates a node under a parent. -/
def create (tree : Tree) (content : Handle) (parent : NodeId) (index : Nat) (seed : Seed) :
    Outcome Tree NodeId :=
  if tree.isAlive parent then
    match tree.nodeFor? content with
    | some existing => .failed tree (.duplicateIdentity content existing)
    | none =>
      let id := tree.nodes.nextKey
      .done ((tree.add content (some parent) seed).link parent index id) id
  else .failed tree (.unknownNode parent)

/-- Makes one node pending. -/
def suspend (tree : Tree) (id : NodeId) : Tree :=
  (tree.unindex id).modify id fun node => { node with alive := false }

/-- Takes the root away if it is this node. -/
def forgetRoot (tree : Tree) (id : NodeId) : Tree :=
  if tree.root = some id then { tree with root := none } else tree

/-- Detaches a live node and makes it and all below it pending. Answers these nodes in preorder. A
pending node is left as it is. -/
def beginShutdown (tree : Tree) (id : NodeId) : Outcome Tree (List NodeId) :=
  match tree.get? id with
  | none => .failed tree (.unknownNode id)
  | some node =>
    if node.alive then
      let detached := (tree.unlink id).forgetRoot id
      let leaving := detached.below id
      let suspended := leaving.foldl suspend detached
      .done (suspended.modify id fun node => { node with parent := none }) leaving
    else .done tree []

def discard (tree : Tree) (id : NodeId) : Tree :=
  { tree with nodes := tree.nodes.remove id }

/-- Frees a node and all below it; a live node is shut down first. -/
def retire (tree : Tree) (id : NodeId) : Outcome Tree Unit :=
  (tree.beginShutdown id).andThen fun suspended _ =>
    .done ((suspended.below id).foldl discard suspended) ()

/-- The pending nodes in slot order. -/
def pending (tree : Tree) : List NodeId :=
  (tree.nodes.toList.filter (! ·.2.alive)).map Prod.fst

/-- Frees every pending node. -/
def retirePending (tree : Tree) : Tree :=
  tree.pending.foldl discard tree

/-- Moves a node under a new parent. Its key stays the same. -/
def reparent (tree : Tree) (child parent : NodeId) (index : Nat) : Outcome Tree Unit :=
  if !tree.isAlive child then .failed tree (.unknownNode child)
  else if !tree.isAlive parent then .failed tree (.unknownNode parent)
  else if tree.isAncestorOf child parent then .failed tree .circularParentage
  else
    let moved := (tree.unlink child).modify child fun node => { node with parent := some parent }
    .done (moved.link parent index child) ()

/-- Gives the children of a node a new order. Answers whether it differs from the old one. -/
def arrange (tree : Tree) (parent : NodeId) (order : List NodeId) : Outcome Tree Bool :=
  match tree.get? parent with
  | none => .failed tree (.unknownNode parent)
  | some node =>
    if node.children = order then .done tree false
    else .done (tree.modify parent fun node => { node with children := order }) true

/-- Gives a node the attributes and the scope of its content. Answers whether any differed. -/
def sync (tree : Tree) (id : NodeId) (attributes : Attributes) (scope : Scope) :
    Outcome Tree Bool :=
  match tree.get? id with
  | none => .failed tree (.unknownNode id)
  | some node =>
    if node.attributes = attributes ∧ node.scope = scope then .done tree false
    else
      let renewed := (tree.unindexDomId id).modify id fun node =>
        { node with attributes := attributes, scope := scope }
      .done (renewed.indexDomId id) true

end Accessibility.Tree
