import Std.Data.ExtTreeMap

/-!
The vocabulary of documents: handles, node kinds, tree scopes and attributes.
-/

set_option autoImplicit false

namespace Accessibility

open Std

/-- The name that the owner of a document gives a content node. It stays with the node across
moves. -/
structure Handle where
  number : Nat
deriving DecidableEq, Repr

namespace Handle

instance : Ord Handle :=
  ⟨compareOn Handle.number⟩

instance : TransOrd Handle :=
  inferInstanceAs (TransCmp (compareOn Handle.number))

instance : LawfulEqOrd Handle where
  eq_of_compare {a b} same := by
    have same : compareOn Handle.number a b = .eq := same
    cases a
    cases b
    simp [compareOn] at same
    simp [same]

def display (handle : Handle) : String :=
  "ContentHandle(" ++ toString handle.number ++ ")"

end Handle

/-- Attribute values by name. -/
abbrev Attributes := ExtTreeMap String String

namespace Attributes

/-- The value of an attribute, where a missing attribute counts as the empty one. -/
def valueOrEmpty (attributes : Attributes) (name : String) : String :=
  attributes[name]?.getD ""

def set (attributes : Attributes) (name : String) : Option String → Attributes
  | some value => attributes.insert name value
  | none => attributes.erase name

/-- The value of the `id` attribute. An empty id names nothing. -/
def domId? (attributes : Attributes) : Option String :=
  attributes["id"]?.filter (! ·.isEmpty)

end Attributes

/-- What a content node is. A shadow root hangs below its host like a child. -/
inductive Kind where
  | document
  | element (tag : String)
  | text
  | shadowRoot
deriving DecidableEq, Repr

namespace Kind

def tag? : Kind → Option String
  | .element tag => some tag
  | _ => none

def isElement : Kind → Bool
  | .element _ => true
  | _ => false

def isSlot (kind : Kind) : Bool :=
  kind.tag? == some "slot"

end Kind

/-- A tree scope: ids and slots are resolved inside one. -/
inductive Scope where
  | document
  | shadow (root : Handle)
deriving DecidableEq, Repr

namespace Scope

def root? : Scope → Option Handle
  | .document => none
  | .shadow root => some root

end Scope

end Accessibility
