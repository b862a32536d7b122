import Accessibility.Snapshot.Basic

/-!
Snapshots told by content: node keys give way to the handles of the content that they stand for.
Two snapshots with the same view expose the same content in the same way.
-/

set_option autoImplicit false

namespace Accessibility

/-- What a snapshot tells of exposed content, in terms of handles only. -/
structure NodeView where
  tag : Option String
  domId : Option String
  role : Role
  scope : Scope
  parent : Option Handle
  children : List Handle
  order : Nat
  targets : Relation.Family (List Handle)
deriving DecidableEq

namespace Snapshot

def contentOf? (snapshot : Snapshot) (id : NodeId) : Option Handle :=
  (snapshot.get? id).map NodeInfo.content

/-- The view of the node that stands for a content node. -/
def view? (snapshot : Snapshot) (content : Handle) : Option NodeView :=
  (snapshot.nodeFor? content).bind fun id =>
    (snapshot.get? id).map fun info =>
      { tag := info.tag
        domId := info.domId
        role := info.role
        scope := info.scope
        parent := info.parent.bind snapshot.contentOf?
        children := info.children.filterMap snapshot.contentOf?
        order := info.order
        targets := .ofFn fun relation =>
          (snapshot.targets relation id).filterMap snapshot.contentOf? }

end Snapshot

end Accessibility
