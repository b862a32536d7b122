import Accessibility.Snapshot.Basic

/-!
Notices tell what a new version changes. They come in four groups: nodes hidden, in the old tree
order, then nodes shown, child lists changed and relations changed, each in the new tree order. Of
a subtree that comes or goes only the topmost node is told.
-/

set_option autoImplicit false

namespace Accessibility

inductive Notice.Matter where
  | hidden (node : NodeId) (content : Handle) (parent : Option NodeId)
  | shown (node : NodeId) (content : Handle) (parent : Option NodeId)
  | reordered (node : NodeId) (content : Handle)
  | related (node : NodeId) (content : Handle) (relations : RelationSet)
deriving DecidableEq, Repr

/-- What changed, and the version that changed it. -/
structure Notice where
  version : Version
  matter : Notice.Matter
deriving DecidableEq, Repr

namespace Notice

def isHidden (notice : Notice) : Bool :=
  match notice.matter with
  | .hidden .. => true
  | _ => false

def isShown (notice : Notice) : Bool :=
  match notice.matter with
  | .shown .. => true
  | _ => false

def isReordered (notice : Notice) : Bool :=
  match notice.matter with
  | .reordered .. => true
  | _ => false

/-- Whether the notice tells of a change of this relation. -/
def changes (relation : Relation) (notice : Notice) : Bool :=
  match notice.matter with
  | .related _ _ relations => relations.contains relation
  | _ => false

end Notice

namespace Snapshot

/-- The topmost nodes that are gone in the next snapshot. -/
def hiddenSince (previous next : Snapshot) : List Notice.Matter :=
  previous.entries.filterMap fun (id, info) =>
    if !next.contains id && info.parent.any next.contains then
      some (.hidden id info.content info.parent)
    else none

/-- The topmost nodes that are new in the next snapshot. -/
def shownSince (previous next : Snapshot) : List Notice.Matter :=
  next.entries.filterMap fun (id, info) =>
    if !previous.contains id && info.parent.all previous.contains then
      some (.shown id info.content info.parent)
    else none

/-- The nodes of both snapshots whose child lists differ. -/
def reorderedSince (previous next : Snapshot) : List Notice.Matter :=
  next.entries.filterMap fun (id, info) =>
    if (previous.get? id).any (·.children != info.children) then
      some (.reordered id info.content)
    else none

/-- Those of some relations under which a node has other targets in the next snapshot. -/
def relationsChanged (previous next : Snapshot) (among : RelationSet) (id : NodeId) :
    RelationSet :=
  .ofFn fun relation =>
    among.contains relation && previous.targets relation id != next.targets relation id

/-- The nodes of both snapshots whose relations differ. -/
def relatedSince (previous next : Snapshot) (among : RelationSet) : List Notice.Matter :=
  next.entries.filterMap fun (id, info) =>
    let changed := previous.relationsChanged next among id
    if previous.contains id && !changed.isEmpty then
      some (.related id info.content changed)
    else none

/-- The notices that lead from one snapshot to the next. Only some relations are compared, those
that can have changed. -/
def noticesTo (previous next : Snapshot) (among : RelationSet) : List Notice :=
  (previous.hiddenSince next ++ previous.shownSince next ++ previous.reorderedSince next
    ++ previous.relatedSince next among).map (⟨next.version, ·⟩)

end Snapshot

end Accessibility
