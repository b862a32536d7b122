import Accessibility.Document.Nodes

/-!
Tree scopes: which scope holds a node, and which scopes enclose it.
-/

set_option autoImplicit false

namespace Accessibility.Document

/-- The scope that holds a node: that of the nearest shadow root among the node and its
ancestors. -/
def scopeOf (document : Document) (handle : Handle) : Scope :=
  match (document.lineage handle).find? document.isShadowRoot with
  | some root => .shadow root
  | none => .document

/-- The scope around a scope: the one that holds the host. -/
def enclosingScope? (document : Document) : Scope → Option Scope
  | .document => none
  | .shadow root => ((document.get? root).bind ContentNode.parent).map document.scopeOf

def ascendScopes (document : Document) : (height : Nat) → Scope → List Scope
  | 0, _ => []
  | height + 1, scope =>
    scope :: match document.enclosingScope? scope with
      | none => []
      | some around => document.ascendScopes height around

/-- A scope and all that enclose it, innermost first. Every step outward leaves a shadow root
behind for good, so the number of nodes bounds the steps. -/
def enclosingScopes (document : Document) (scope : Scope) : List Scope :=
  document.ascendScopes (document.size + 1) scope

/-- Whether a scope is another one or encloses it. -/
def encloses (document : Document) (outer inner : Scope) : Bool :=
  (document.enclosingScopes inner).contains outer

end Accessibility.Document
