import Accessibility.Document.Nodes
import Accessibility.Fault

/-!
Changes to a document. An insertion takes over every handle that it carries: the earlier nodes are
removed first, with all that is below them.
-/

set_option autoImplicit false

namespace Accessibility.Document

/-- The list with a value at a position, or at the end where the list is shorter. -/
def insertAt {α : Type} (index : Nat) (value : α) (values : List α) : List α :=
  values.take index ++ value :: values.drop index

/-- Takes a node out of the child list of its parent. -/
def unlink (document : Document) (handle : Handle) (node : ContentNode) : Document :=
  match node.parent with
  | none => document
  | some parent =>
    document.modify parent fun above =>
      { above with children := above.children.filter (· != handle) }

def erase (document : Document) (handle : Handle) : Document :=
  { document with nodes := document.nodes.erase handle }

/-- Removes a node with all below it, and answers the removed handles in preorder. The root stays:
its removal removes nothing. -/
def remove (document : Document) (handle : Handle) : Outcome Document (List Handle) :=
  if handle = document.root then .done document []
  else
    match document.get? handle with
    | none => .failed document (.unknownContent handle)
    | some node =>
      let unlinked := document.unlink handle node
      let removed := unlinked.below handle
      .done (removed.foldl erase unlinked) removed

/-- Removes each of the handles that is in the document, and answers which those were. -/
def evict (document : Document) : List Handle → Document × List Handle
  | [] => (document, [])
  | handle :: rest =>
    if document.contains handle then
      let (cleared, evicted) := (document.remove handle).state.evict rest
      (cleared, handle :: evicted)
    else document.evict rest

/-- Links a subtree below a parent and stores its nodes. -/
def attach (document : Document) (parent : Handle) (index : Nat) (subtree : Subtree) : Document :=
  { document with nodes := store document.nodes (some parent) subtree }.modify parent fun above =>
    { above with children := insertAt index subtree.handle above.children }

/-- Inserts a subtree and answers the handles that it took over. Taking them over can remove the
parent itself; then nothing is inserted, and the removals stand. -/
def insert (document : Document) (parent : Handle) (index : Nat) (subtree : Subtree) :
    Outcome Document (List Handle) :=
  if document.contains parent then
    let (cleared, evicted) := document.evict subtree.handles
    if cleared.contains parent then .done (cleared.attach parent index subtree) evicted
    else .failed cleared (.unknownContent parent)
  else .failed document (.unknownContent parent)

/-- Changes the data of one node. -/
def update (document : Document) (handle : Handle) (change : ContentNode → ContentNode) :
    Outcome Document Unit :=
  if document.contains handle then .done (document.modify handle change) ()
  else .failed document (.unknownContent handle)

def setAttribute (document : Document) (handle : Handle) (name : String)
    (value : Option String) : Outcome Document Unit :=
  document.update handle fun node => { node with attributes := node.attributes.set name value }

def setPopoverTarget (document : Document) (handle : Handle) (target : Option Handle) :
    Outcome Document Unit :=
  document.update handle fun node => { node with popoverTarget := target }

def setPopoverShowing (document : Document) (handle : Handle) (showing : Bool) :
    Outcome Document Unit :=
  document.update handle fun node => { node with popoverShowing := showing }

theorem mem_insertAt {α : Type} (index : Nat) (value other : α) (values : List α) :
    other ∈ insertAt index value values ↔ other = value ∨ other ∈ values := by
  have split : values.take index ++ values.drop index = values := List.take_append_drop index values
  constructor
  · intro listed
    rcases List.mem_append.1 listed with listed | listed
    · exact .inr (List.mem_of_mem_take listed)
    · rcases List.mem_cons.1 listed with same | listed
      · exact .inl same
      · exact .inr (List.mem_of_mem_drop listed)
  · rintro (same | listed)
    · simp [insertAt, same]
    · rw [← split] at listed
      rcases List.mem_append.1 listed with listed | listed
      · exact List.mem_append.2 (.inl listed)
      · exact List.mem_append.2 (.inr (List.mem_cons_of_mem _ listed))

end Accessibility.Document
