import Accessibility.Document.Basic
import Accessibility.Text.Ascii

/-!
A subtree as the owner of a document hands it over: the initial document, or an insertion. Tag and
attribute names are lower-cased when it is built.
-/

set_option autoImplicit false

namespace Accessibility

/-- A content node with everything below it, children in document order. -/
structure Subtree where
  handle : Handle
  kind : Kind
  attributes : Attributes
  popoverShowing : Bool
  popoverTarget : Option Handle
  children : List Subtree

namespace Subtree

/-- A node without attributes and children. -/
def single (handle : Handle) (kind : Kind) : Subtree :=
  ⟨handle, kind, ∅, false, none, []⟩

def element (handle : Handle) (tag : String) : Subtree :=
  single handle (.element (Text.lower tag))

def withAttribute (subtree : Subtree) (name value : String) : Subtree :=
  { subtree with attributes := subtree.attributes.insert (Text.lower name) value }

mutual

/-- All handles of a subtree in preorder. -/
def handles : Subtree → List Handle
  | ⟨handle, _, _, _, _, children⟩ => handle :: handlesOfAll children

def handlesOfAll : List Subtree → List Handle
  | [] => []
  | child :: rest => child.handles ++ handlesOfAll rest

end

theorem handles_eq (subtree : Subtree) :
    subtree.handles = subtree.handle :: handlesOfAll subtree.children := by
  cases subtree
  rfl

theorem handlesOfAll_eq (children : List Subtree) :
    handlesOfAll children = children.flatMap handles := by
  induction children with
  | nil => rfl
  | cons child rest ih => simp [handlesOfAll, ih]

/-- Whether a node of the subtree has this handle. -/
def mentions (subtree : Subtree) (handle : Handle) : Bool :=
  subtree.handles.contains handle

mutual

def decEq : (left right : Subtree) → Decidable (left = right)
  | ⟨h, k, a, s, t, c⟩, ⟨h', k', a', s', t', c'⟩ =>
    if same : h = h' ∧ k = k' ∧ a = a' ∧ s = s' ∧ t = t' then
      match decEqAll c c' with
      | isTrue below => isTrue (by simp [same, below])
      | isFalse below => isFalse (by simp [below])
    else isFalse (by
      intro equal
      injection equal with h k a s t
      exact same ⟨h, k, a, s, t⟩)

def decEqAll : (left right : List Subtree) → Decidable (left = right)
  | [], [] => isTrue rfl
  | [], _ :: _ => isFalse (by simp)
  | _ :: _, [] => isFalse (by simp)
  | c :: rest, c' :: rest' =>
    match decEq c c', decEqAll rest rest' with
    | isTrue first, isTrue others => isTrue (by simp [first, others])
    | isFalse first, _ => isFalse (by simp [first])
    | _, isFalse others => isFalse (by simp [others])

end

instance : DecidableEq Subtree :=
  decEq

end Subtree

end Accessibility
