import Accessibility.Proofs.Document.Exchange
import Accessibility.Proofs.Document.Readback

/-!
Insertions that are undone. A subtree with new handles stands in the document as it was handed over, at
its place among the children of its parent, and its removal answers its handles and brings back the
document from before.
-/

set_option autoImplicit false

namespace Accessibility.Document

variable {document : Document} {parent : Handle} {subtree : Subtree}

theorem insertAt_eq_insertIdx {α : Type} (index : Nat) (value : α) (values : List α) :
    insertAt index value values = values.insertIdx (min index values.length) value := by
  induction values generalizing index with
  | nil => simp [insertAt]
  | cons first rest ih =>
    cases index with
    | zero => simp [insertAt]
    | succ index =>
      rw [List.length_cons, Nat.succ_min_succ, List.insertIdx_succ_cons, ← ih]
      rfl

namespace Attachable

theorem readFrom_attach (wellFormed : document.WellFormed)
    (attachable : document.Attachable parent subtree) (index : Nat) :
    (document.attach parent index subtree).readFrom (document.attach parent index subtree).size
      subtree.handle = [subtree] := by
  have stored := (attachable.contains_attach index subtree.handle).mpr
    (.inl subtree.handle_mem_handles)
  refine readFrom_of_entries (fun _ _ entered => attachable.get?_of_entry index entered) ?_
  exact fun _ _ reached => (wellFormed.attach attachable index).steps_lt_size_from stored reached

/-- What is below an attached subtree are its handles, in their order. -/
theorem below_attach (wellFormed : document.WellFormed)
    (attachable : document.Attachable parent subtree) (index : Nat) :
    (document.attach parent index subtree).below subtree.handle = subtree.handles := by
  have stored := (attachable.contains_attach index subtree.handle).mpr
    (.inl subtree.handle_mem_handles)
  rw [(wellFormed.attach attachable index).below_eq_descend stored, descend_eq_handles,
    attachable.readFrom_attach wellFormed, List.flatMap_singleton]

/-- The removal of an attached subtree answers its handles and leaves the document from before. -/
theorem remove_attach_eq (wellFormed : document.WellFormed)
    (attachable : document.Attachable parent subtree) (index : Nat) :
    (document.attach parent index subtree).remove subtree.handle =
      .done document subtree.handles := by
  have after := wellFormed.attach attachable index
  have stored := (attachable.contains_attach index subtree.handle).mpr
    (.inl subtree.handle_mem_handles)
  have answer := after.answer_remove stored (attachable.ne_root wellFormed index)
  rw [attachable.below_attach wellFormed] at answer
  have state := wellFormed.remove_attach attachable index
  cases removed : (document.attach parent index subtree).remove subtree.handle with
  | mk removedState removedAnswer =>
    rw [removed] at answer state
    cases answer
    cases state
    rfl

end Attachable

/-- How a subtree with new handles is inserted: it reads back as it was handed over, its parent has it
as a child at the index or at the end, all other nodes are as before, and its removal brings the
document back. -/
structure RoundTrip (document : Document) (parent : Handle) (above : ContentNode) (index : Nat)
    (subtree : Subtree) : Prop where
  answered : (document.insert parent index subtree).answer = .ok []
  readBack : (document.insert parent index subtree).state.subtreeAt? subtree.handle = some subtree
  placed : (document.insert parent index subtree).state.get? parent =
    some { above with
      children := above.children.insertIdx (min index above.children.length) subtree.handle }
  frame : ∀ {handle : Handle}, handle ∉ subtree.handles → handle ≠ parent →
    (document.insert parent index subtree).state.get? handle = document.get? handle
  undone : (document.insert parent index subtree).state.remove subtree.handle =
    .done document subtree.handles

/-- In a well-formed document a subtree with new handles can be inserted below every node and at every
index, and its removal undoes that. -/
theorem roundTrip (wellFormed : document.WellFormed) {above : ContentNode}
    (storedParent : document.get? parent = some above) (index : Nat) (distinct : subtree.Distinct)
    (fresh : ∀ handle ∈ subtree.handles, document.contains handle = false) :
    document.RoundTrip parent above index subtree := by
  have attachable : document.Attachable parent subtree :=
    ⟨contains_of_get? storedParent, distinct, fresh⟩
  have inserted := attachable.insert_eq index
  refine ⟨?_, ?_, ?_, ?_, ?_⟩ <;> rw [inserted]
  · rfl
  · rw [subtreeAt?]
    exact congrArg List.head? (attachable.readFrom_attach wellFormed index)
  · rw [← insertAt_eq_insertIdx]
    refine (attachable.get?_parent index).trans ?_
    rw [storedParent, Option.map_some]
  · intro handle outside apart
    exact Attachable.get?_of_ne index outside apart
  · exact attachable.remove_attach_eq wellFormed index

/-- A menu that shows, with two entries, the first of which has content. -/
def shownMenu : Subtree :=
  let entry (handle : Handle) (children : List Subtree) : Subtree :=
    { Subtree.single handle (.element "li") with children }
  { (Subtree.single ⟨3⟩ (.element "menu")).withAttribute "popover" "" with
    popoverShowing := true
    popoverTarget := some ⟨1⟩
    children := [entry ⟨5⟩ [.single ⟨4⟩ .text], entry ⟨6⟩ []] }

/-- The menu is inserted at an index that the child list does not reach. -/
theorem roundTrip_shownMenu :
    let page : Subtree :=
      { Subtree.single ⟨0⟩ .document with
        children := [.single ⟨1⟩ (.element "button"), .single ⟨2⟩ .text] }
    page.Distinct ∧ shownMenu.Distinct ∧
      (∀ handle ∈ shownMenu.handles, (ofSubtree page).contains handle = false) ∧
      ∃ above, (ofSubtree page).get? ⟨0⟩ = some above ∧
        (ofSubtree page).RoundTrip ⟨0⟩ above 7 shownMenu ∧
        ((ofSubtree page).insert ⟨0⟩ 7 shownMenu).state.preorder =
          [⟨0⟩, ⟨1⟩, ⟨2⟩, ⟨3⟩, ⟨5⟩, ⟨4⟩, ⟨6⟩] := by
  intro page
  have distinct : page.Distinct := by decide +kernel
  have distinctMenu : shownMenu.Distinct := by decide +kernel
  have fresh : ∀ handle ∈ shownMenu.handles, (ofSubtree page).contains handle = false := by
    decide +kernel
  obtain ⟨above, stored⟩ : ∃ node, (ofSubtree page).get? ⟨0⟩ = some node :=
    exists_of_contains (by decide +kernel)
  exact ⟨distinct, distinctMenu, fresh, above, stored,
    roundTrip (wellFormed_ofSubtree distinct) stored 7 distinctMenu fresh, by decide +kernel⟩

end Accessibility.Document
