import Accessibility.Hub
import Accessibility.Session.Alignment
import Accessibility.Session.Effects
import Accessibility.Snapshot.History
import Accessibility.Snapshot.Violation

/-!
A session keeps the accessible tree of one document up to date. Each batch of changes is applied as
a whole: the document is edited, the tree aligned with it if exposure can have changed, the stale
relations derived anew, and the new snapshot committed; then notices tell what it changed.
-/

set_option autoImplicit false

namespace Accessibility

open Std

/-- The snapshot of a tree with the edges of its relations. Its version is given by the commit. -/
def Tree.snapshot (tree : Tree) (edges : Relation.Family Edges) : Snapshot where
  version := 0
  root := tree.root
  nodes := tree.preorder.zipIdx.foldl
    (fun nodes (id, order) =>
      match tree.get? id with
      | none => nodes
      | some node =>
        nodes.insert id
          { content := node.content
            tag := node.tag?
            domId := node.domId?
            role := node.role
            scope := node.scope
            parent := node.parent
            children := node.children
            order := order })
    ∅
  edges := edges

structure Session where
  document : Document
  tree : Tree
  history : History
  hub : Hub
  /-- Whether snapshots are checked before they are committed. -/
  verifies : Bool
  /-- What the last batch that could alter exposure did to the tree. -/
  lastAlignment : Option Alignment

namespace Session

/-- A snapshot with violations gives way to one whose relations are all derived anew. Answers also
whether that happened. -/
def verified (verifies : Bool) (document : Document) (tree : Tree) (snapshot : Snapshot) :
    Snapshot × Bool :=
  if verifies && !snapshot.violations.isEmpty then
    let source : Derivation.Source := { tree, document }
    (tree.snapshot (source.renew .every Snapshot.empty.edges), true)
  else (snapshot, false)

/-- Begins a session with a document. Its first version is committed, and no notices tell of it. -/
def start (subtree : Subtree) (capacity : Nat) (verifies : Bool) : Except Fault Session := do
  let document := Document.ofSubtree subtree
  let some node := document.get? document.root | .error (.unknownContent document.root)
  let rooted := Tree.empty.createRoot document.root ⟨node.kind, node.attributes, .document⟩
  let _ ← rooted.answer
  let aligned := Alignment.run document rooted.state
  let alignment ← aligned.answer
  let tree := aligned.state
  let source : Derivation.Source := { tree, document }
  let snapshot := tree.snapshot (source.renew .every Snapshot.empty.edges)
  return {
    document
    tree
    history := (History.start capacity).commit (verified verifies document tree snapshot).1
    hub := .start
    verifies
    lastAlignment := some alignment }

/-- Shuts down the node of a content node, if it has one. -/
def dismissNodeOf (tree : Tree) (content : Handle) : Tree :=
  match tree.nodeFor? content with
  | none => tree
  | some id => (tree.beginShutdown id).state

/-- Gives the node of a content node its attributes and scope, if it has one. -/
def syncNodeOf (document : Document) (tree : Tree) (content : Handle) : Tree :=
  match tree.nodeFor? content, document.get? content with
  | some id, some node => (tree.sync id node.attributes (document.scopeOf content)).state
  | _, _ => tree

/-- Commits the snapshot of a tree whose stale relations are derived anew, and sends the notices. -/
def publish (session : Session) (stale : RelationSet) : Session :=
  let previous := session.history.current
  let source : Derivation.Source := { tree := session.tree, document := session.document }
  let edges := source.renew stale previous.edges
  let tree := session.tree.retirePending
  let (snapshot, renewed) :=
    verified session.verifies session.document tree (tree.snapshot edges)
  let history := session.history.commit snapshot
  let notices := previous.noticesTo history.current (if renewed then .every else stale)
  { session with tree, history, hub := session.hub.dispatch notices }

/-- Applies a batch and answers the version that it makes. Changes of unknown content are passed
over, and an empty batch makes a version too. -/
def apply (session : Session) (changes : List Change) : Outcome Session Version :=
  let effects := Effects.ofChanges session.document changes
  let document := effects.document
  let cleared := effects.replaced.foldl dismissNodeOf session.tree
  if effects.altersExposure then
    let aligned := Alignment.run document cleared
    let session := { session with document, tree := aligned.state }
    match aligned.answer with
    | .error fault => .failed session fault
    | .ok alignment =>
      let published := { session with lastAlignment := some alignment }.publish .every
      .done published published.history.version
  else
    let synced := effects.touched.foldl (syncNodeOf document) cleared
    let published := { session with document, tree := synced }.publish effects.stale
    .done published published.history.version

def describe (session : Session) : String :=
  "RelationEngine \x7b content_nodes: " ++ toString session.document.size
    ++ ", accessible_nodes: " ++ toString session.tree.size
    ++ ", version: " ++ session.history.version.display ++ " \x7d"

end Session

end Accessibility
