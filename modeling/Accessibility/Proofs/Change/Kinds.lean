import Accessibility.Proofs.Change.Runs

/-!
Which kinds of content a document may hold. Changes keep to them, as long as what is inserted does:
no edit gives a node another kind.
-/

set_option autoImplicit false

namespace Accessibility

variable {allowed : Handle → Kind → Prop}

/-- Every node of a subtree is of a kind that it may have. -/
def Subtree.Allows (allowed : Handle → Kind → Prop) (subtree : Subtree) : Prop :=
  ∀ entry ∈ subtree.entries none, allowed entry.1 entry.2.kind

/-- Every node that a change inserts is of a kind that it may have. -/
def Change.Allows (allowed : Handle → Kind → Prop) : Change → Prop
  | .inserted _ _ subtree => subtree.Allows allowed
  | _ => True

section Decidable

variable [∀ handle kind, Decidable (allowed handle kind)]

instance (subtree : Subtree) : Decidable (subtree.Allows allowed) :=
  inferInstanceAs (Decidable (∀ entry ∈ subtree.entries none, allowed entry.1 entry.2.kind))

instance : (change : Change) → Decidable (change.Allows allowed)
  | .inserted _ _ subtree => inferInstanceAs (Decidable (subtree.Allows allowed))
  | .removed _ => inferInstanceAs (Decidable True)
  | .attribute .. => inferInstanceAs (Decidable True)
  | .popoverTarget .. => inferInstanceAs (Decidable True)
  | .popoverShowing .. => inferInstanceAs (Decidable True)

end Decidable

/-- Every node is of a kind that it may have. -/
def Document.Allows (allowed : Handle → Kind → Prop) (document : Document) : Prop :=
  ∀ (handle : Handle) (node : ContentNode), document.get? handle = some node →
    allowed handle node.kind

/-- The kinds of a subtree are the same under any parent. -/
theorem Subtree.Allows.entry {subtree : Subtree} (allows : subtree.Allows allowed)
    {parent : Option Handle} {handle : Handle} {node : ContentNode}
    (entered : (handle, node) ∈ subtree.entries parent) : allowed handle node.kind := by
  rcases mem_entries.mp entered with ⟨rfl, rfl⟩ | ⟨child, listed, below⟩
  · exact allows _ (subtree.topmost_entry none)
  · exact allows _ (mem_entries.mpr (.inr ⟨child, listed, below⟩))

namespace Document

variable {document : Document}

theorem allows_ofSubtree {subtree : Subtree} (distinct : subtree.Distinct)
    (allows : subtree.Allows allowed) : (ofSubtree subtree).Allows allowed := by
  intro handle node stored
  exact allows _ ((get?_ofSubtree distinct).mp stored)

theorem Allows.remove (allows : document.Allows allowed) (wellFormed : document.WellFormed)
    (handle : Handle) : (document.remove handle).state.Allows allowed := by
  intro other node stored
  obtain ⟨-, before, storedBefore, rfl⟩ := (wellFormed.get?_state_remove handle).mp stored
  exact allows other before storedBefore

theorem Allows.evict (allows : document.Allows allowed) (wellFormed : document.WellFormed)
    (handles : List Handle) : (document.evict handles).1.Allows allowed := by
  intro other node stored
  obtain ⟨-, before, storedBefore, rfl⟩ := (wellFormed.get?_evict_eq_some handles).mp stored
  exact allows other before storedBefore

theorem Allows.attach (allows : document.Allows allowed) {parent : Handle} {subtree : Subtree}
    (attachable : document.Attachable parent subtree) (inserted : subtree.Allows allowed)
    (index : Nat) : (document.attach parent index subtree).Allows allowed := by
  intro handle node stored
  rcases attachable.entry_or_stored stored with entered | ⟨-, earlier⟩
  · exact inserted.entry entered
  · obtain ⟨before, storedBefore⟩ := exists_of_contains earlier
    obtain ⟨after, storedAfter, kind, -⟩ := attachable.get?_of_get? index storedBefore
    rw [stored] at storedAfter
    cases storedAfter
    rw [kind]
    exact allows _ _ storedBefore

theorem Allows.insert (allows : document.Allows allowed) (wellFormed : document.WellFormed)
    {subtree : Subtree} (distinct : subtree.Distinct) (below : document.root ∉ subtree.handles)
    (inserted : subtree.Allows allowed) (parent : Handle) (index : Nat) :
    (document.insert parent index subtree).state.Allows allowed := by
  have evicted := allows.evict wellFormed subtree.handles
  rcases document.insert_cases parent index subtree with ⟨-, failed⟩ | ⟨-, -, failed⟩ |
    ⟨-, kept, made⟩
  · rw [failed]
    exact allows
  · rw [failed]
    exact evicted
  · rw [made]
    exact evicted.attach (wellFormed.attachable_evict distinct below kept) inserted index

theorem Allows.update (allows : document.Allows allowed) {change : ContentNode → ContentNode}
    (data : IsDataChange change) (handle : Handle) :
    (document.update handle change).state.Allows allowed := by
  intro other node stored
  obtain ⟨before, storedBefore, links, -⟩ := (data.alike document handle).exists_left stored
  rw [← links.kind]
  exact allows _ _ storedBefore

/-- A change keeps to the kinds that it is allowed. -/
theorem Allows.after (allows : document.Allows allowed) (wellFormed : document.WellFormed)
    {change : Change} (sound : change.Sound document.root) (inserted : change.Allows allowed) :
    (document.after change).Allows allowed := by
  rcases change.cases_target with ⟨parent, index, subtree, rfl⟩ | ⟨node, rfl⟩ | ⟨handle, targets⟩
  · exact allows.insert wellFormed sound.1 sound.2 inserted parent index
  · rw [Change.after_removed]
    exact allows.remove wellFormed node
  · rw [Change.after_eq_update targets]
    exact allows.update change.isDataChange_edit handle

theorem Allows.afterAll (allows : document.Allows allowed) (wellFormed : document.WellFormed)
    {changes : List Change} (sound : ∀ change ∈ changes, change.Sound document.root)
    (inserted : ∀ change ∈ changes, change.Allows allowed) :
    (document.afterAll changes).Allows allowed := by
  induction changes generalizing document with
  | nil => exact allows
  | cons change rest ih =>
    rw [List.forall_mem_cons] at sound inserted
    refine ih (allows.after wellFormed sound.1 inserted.1) (wellFormed.after sound.1) ?_ inserted.2
    rw [Change.root_after]
    exact sound.2

/-- The root keeps its kind. -/
theorem kind?_root_afterAll (wellFormed : document.WellFormed) {changes : List Change}
    (sound : ∀ change ∈ changes, change.Sound document.root) :
    (document.afterAll changes).kind? document.root = document.kind? document.root := by
  have held : document.Allows fun handle kind =>
      handle = document.root → document.kind? document.root = some kind := by
    intro handle node stored same
    rw [← same, Document.kind?, stored, Option.map_some]
  have inserted : ∀ change ∈ changes, change.Allows fun handle kind =>
      handle = document.root → document.kind? document.root = some kind := by
    intro change listed
    cases change with
    | inserted parent index subtree =>
      rintro ⟨handle, node⟩ entered same
      refine absurd ?_ (sound _ listed).2
      rw [← show handle = document.root from same]
      exact Subtree.mem_handles_of_entry entered
    | _ => trivial
  have after := held.afterAll wellFormed sound inserted
  obtain ⟨node, stored, -⟩ := (wellFormed.afterAll sound).root_stored
  rw [root_afterAll] at stored
  rw [after _ _ stored rfl, Document.kind?, stored, Option.map_some]

end Document

end Accessibility
