import Accessibility.Document.Scoping
import Accessibility.Document.Slots

/-!
The exposed layout of a document: which content is exposed, under which parent, and in which order.

A host lays out its shadow tree in place of its own children. A slot of a shadow tree is
transparent: the children of the host that are assigned to it take its place, or its own children
if none are. Hidden content is not exposed, nor is anything below it.
-/

set_option autoImplicit false

namespace Accessibility

/-- One exposed content node. Only the root has no parent. -/
structure Exposed where
  handle : Handle
  parent : Option Handle
  scope : Scope
deriving DecidableEq, Repr

namespace Document

/-- The first shadow root among the children of a node. -/
def shadowRootOf? (document : Document) (node : ContentNode) : Option Handle :=
  node.children.find? document.isShadowRoot

/-- One task of laying out: the content inside a node, or a node itself. -/
inductive LayoutTask where
  | inside (node : Handle)
  | self (node : Handle)
deriving DecidableEq, Repr

/-- Lays out one task under an exposed parent, at most `depth` tasks deep. -/
def layOut (document : Document) :
    (depth : Nat) → (task : LayoutTask) → (parent : Handle) → Scope → List Exposed
  | 0, _, _, _ => []
  | depth + 1, .inside handle, parent, scope =>
    match document.get? handle with
    | none => []
    | some node =>
      match document.shadowRootOf? node with
      | some root => document.layOut depth (.inside root) parent (.shadow root)
      | none =>
        node.children.flatMap fun child => document.layOut depth (.self child) parent scope
  | depth + 1, .self handle, parent, scope =>
    match document.get? handle with
    | none => []
    | some node =>
      if node.kind = .shadowRoot ∨ node.kind = .document ∨ node.isHidden then []
      else
        match scope with
        | .shadow root =>
          if node.kind.isSlot then
            match document.assigned root handle with
            | [] => document.layOut depth (.inside handle) parent scope
            | lights =>
              let outside := (document.enclosingScope? scope).getD .document
              lights.flatMap fun light => document.layOut depth (.self light) parent outside
          else ⟨handle, some parent, scope⟩ :: document.layOut depth (.inside handle) handle scope
        | .document =>
          ⟨handle, some parent, scope⟩ :: document.layOut depth (.inside handle) handle scope

/-- No task recurs below itself in the same scope, so tasks nest no deeper than there are pairs of
a task and a scope. -/
def layoutDepth (document : Document) : Nat :=
  2 * (document.size + 1) * (document.size + 1)

/-- The exposed content in tree order. -/
def layout (document : Document) : List Exposed :=
  ⟨document.root, none, .document⟩ ::
    document.layOut document.layoutDepth (.inside document.root) document.root .document

end Document

end Accessibility
