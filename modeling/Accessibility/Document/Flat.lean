import Accessibility.Document.Layout

/-!
Exposure told from the content upwards. Every content node has at most one place where it is laid
out, its flat parent; content is exposed if the places lead up to the root and nothing on the way is
hidden.
-/

set_option autoImplicit false

namespace Accessibility.Document

/-- Whether a node is a slot of a shadow tree, and so transparent. -/
def isShadowSlot (document : Document) (handle : Handle) : Bool :=
  (document.kind? handle).any Kind.isSlot && document.scopeOf handle != .document

/-- All slots of a shadow tree in tree order, those of shadow trees inside it left out. -/
def slotsBelow (document : Document) : (depth : Nat) → Handle → List Handle
  | 0, _ => []
  | depth + 1, handle =>
    match document.get? handle with
    | none => []
    | some node =>
      let inside := (node.children.filter (! document.isShadowRoot ·)).flatMap
        (document.slotsBelow depth)
      if node.kind.isSlot then handle :: inside else inside

def slotsOf (document : Document) (shadowRoot : Handle) : List Handle :=
  document.slotsBelow document.size shadowRoot

/-- Where a child of a node is laid out: inside the parent, unless the parent is a slot that shows
assigned nodes; or, for a child of a host, in the slot that it is assigned to. -/
def placeUnder? (document : Document) (handle parent : Handle) (above : ContentNode) :
    Option Handle :=
  match document.shadowRootOf? above with
  | none => ownPlace
  | some root =>
    if root = handle then ownPlace
    else (document.slotsOf root).find? fun slot => (document.assigned root slot).contains handle
where
  ownPlace : Option Handle :=
    match document.scopeOf parent with
    | .document => some parent
    | .shadow root =>
      if above.kind.isSlot && !(document.assigned root parent).isEmpty then none else some parent

/-- The flat parent of a content node. -/
def flatParent? (document : Document) (handle : Handle) : Option Handle :=
  match (document.get? handle).bind ContentNode.parent with
  | none => none
  | some parent =>
    match document.get? parent with
    | none => none
    | some above => document.placeUnder? handle parent above

/-- Whether a node lets what is below it be exposed. -/
def letsThrough (node : ContentNode) : Bool :=
  match node.kind with
  | .shadowRoot => true
  | .document => false
  | _ => !node.isHidden

/-- Flat parents lead from a node up to the root through nodes that let it through. -/
inductive Shown (document : Document) : Handle → Prop
  | root : Shown document document.root
  | inside {handle place : Handle} {node : ContentNode} (stored : document.get? handle = some node)
      (lets : letsThrough node = true) (placed : document.flatParent? handle = some place)
      (rest : Shown document place) : Shown document handle

/-- Whether a node can have an accessible node of its own. -/
def canBeExposed (document : Document) (handle : Handle) : Bool :=
  match document.kind? handle with
  | some (.element _) => !document.isShadowSlot handle
  | some .text => true
  | _ => false

/-- Whether what is inside a node is laid out in its place: it is a shadow root or a slot of a shadow
tree. -/
def isTransparent (document : Document) (handle : Handle) : Bool :=
  document.isShadowRoot handle || document.isShadowSlot handle

/-- The first of the flat parents above a node that is not transparent. -/
inductive HangsBelow (document : Document) : Handle → Handle → Prop
  | place {handle place : Handle} (placed : document.flatParent? handle = some place)
      (solid : document.isTransparent place = false) : HangsBelow document handle place
  | through {handle place above : Handle} (placed : document.flatParent? handle = some place)
      (transparent : document.isTransparent place = true)
      (rest : HangsBelow document place above) : HangsBelow document handle above

end Accessibility.Document
