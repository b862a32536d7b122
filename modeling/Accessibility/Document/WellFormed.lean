import Accessibility.Document.Edit

/-!
Documents whose links form one tree, and the subtree that is read back from one.
-/

set_option autoImplicit false

namespace Accessibility

/-- No two nodes of the subtree have the same handle. -/
def Subtree.Distinct (subtree : Subtree) : Prop :=
  subtree.handles.Nodup

instance (subtree : Subtree) : Decidable subtree.Distinct :=
  inferInstanceAs (Decidable subtree.handles.Nodup)

namespace Document

/-- Parent links lead from a node to an ancestor, or it is the node itself. -/
inductive Under (document : Document) : Handle → Handle → Prop
  | self {handle : Handle} (stored : document.contains handle = true) :
      Under document handle handle
  | above {handle parent ancestor : Handle} {node : ContentNode}
      (stored : document.get? handle = some node) (linked : node.parent = some parent)
      (rest : Under document parent ancestor) : Under document handle ancestor

/-- The nodes form one tree below the root, and parent links and child lists agree. -/
structure WellFormed (document : Document) : Prop where
  root_stored : ∃ node, document.get? document.root = some node ∧ node.parent = none
  listed : ∀ {handle : Handle} {node : ContentNode}, document.get? handle = some node →
    handle ≠ document.root → ∃ parent above, node.parent = some parent ∧
      document.get? parent = some above ∧ handle ∈ above.children
  linked : ∀ {parent child : Handle} {above : ContentNode}, document.get? parent = some above →
    child ∈ above.children → ∃ node, document.get? child = some node ∧ node.parent = some parent
  nodup : ∀ {parent : Handle} {above : ContentNode}, document.get? parent = some above →
    above.children.Nodup
  grounded : ∀ {handle : Handle}, document.contains handle = true →
    document.Under handle document.root

/-- The subtree at a handle, at most `depth` levels of it; none if no node is stored there. -/
def readFrom (document : Document) : (depth : Nat) → Handle → List Subtree
  | 0, _ => []
  | depth + 1, handle =>
    match document.get? handle with
    | none => []
    | some node =>
      [{ handle
         kind := node.kind
         attributes := node.attributes
         popoverShowing := node.popoverShowing
         popoverTarget := node.popoverTarget
         children := node.children.flatMap (document.readFrom depth) }]

/-- The subtree at a handle. -/
def subtreeAt? (document : Document) (handle : Handle) : Option Subtree :=
  (document.readFrom document.size handle).head?

/-- The whole document as a subtree. -/
def toSubtree? (document : Document) : Option Subtree :=
  document.subtreeAt? document.root

end Document

end Accessibility
