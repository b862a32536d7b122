import Accessibility.Document.Scoping

/-!
The searches upwards as loops. Each takes one step after the other along the links and knows no bound;
so it has an answer only once it has ended.
-/

set_option autoImplicit false

namespace Accessibility.Document

/-- The search for the scope that holds a node: up from parent to parent until a shadow root is met or
there is no node. None if some steps are not enough. -/
def seekScope (document : Document) : (steps : Nat) → (current : Option Handle) → Option Scope
  | 0, _ => none
  | _ + 1, none => some .document
  | steps + 1, some handle =>
    match document.get? handle with
    | none => some .document
    | some node =>
      if node.kind = .shadowRoot then some (.shadow handle)
      else document.seekScope steps node.parent

/-- The search for a scope among another one and all that enclose it, outwards. None if some steps are
not enough. -/
def seekOuter (document : Document) (outer : Scope) :
    (steps : Nat) → (current : Option Scope) → Option Bool
  | 0, _ => none
  | _ + 1, none => some false
  | steps + 1, some scope =>
    if scope = outer then some true
    else document.seekOuter outer steps (document.enclosingScope? scope)

end Accessibility.Document
