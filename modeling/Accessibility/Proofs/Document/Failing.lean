import Accessibility.Proofs.Document.Edits
import Accessibility.Proofs.Document.Eviction

/-!
Changes that fail. Only an insertion can leave something behind when it fails: where its place is at or
below a handle that it takes over, the place goes with it, and the removals stand.
-/

set_option autoImplicit false

namespace Accessibility

namespace Change

/-- The node that has to be stored for a change to be made. -/
def place : Change → Handle
  | .inserted parent _ _ => parent
  | .removed node => node
  | .attribute node _ _ => node
  | .popoverTarget node _ => node
  | .popoverShowing node _ => node

/-- The handles that a change brings with it. -/
def brought : Change → List Handle
  | .inserted _ _ subtree => subtree.handles
  | _ => []

theorem place_of_target {change : Change} {handle : Handle}
    (targets : change.target? = some handle) : change.place = handle ∧ change.brought = [] := by
  cases change <;> cases targets <;> exact ⟨rfl, rfl⟩

end Change

namespace Document.WellFormed

variable {document : Document}

/-- A removal fails just where the node is not stored. -/
theorem remove_outcome (wellFormed : document.WellFormed) (handle : Handle) :
    document.contains handle = false ∧
        document.remove handle = .failed document (.unknownContent handle) ∨
      document.contains handle = true ∧ ∃ after removed, document.remove handle = .done after removed := by
  by_cases atRoot : handle = document.root
  · rw [atRoot]
    exact .inr ⟨wellFormed.contains_root, document, [], document.remove_root⟩
  · rw [remove, if_neg atRoot]
    cases stored : document.get? handle with
    | none => exact .inl ⟨by rw [contains_eq_isSome_get?, stored]; rfl, rfl⟩
    | some node => exact .inr ⟨contains_of_get? stored, _, _, rfl⟩

/-- A change is made where its place is stored and stays when what it brings is taken over. -/
theorem apply_cases (wellFormed : document.WellFormed) (change : Change) :
    document.contains change.place = false ∧
        change.apply document = .failed document (.unknownContent change.place) ∨
      document.contains change.place = true ∧ ¬ document.Spares change.brought change.place ∧
        change.apply document =
          .failed (document.evict change.brought).1 (.unknownContent change.place) ∨
      document.contains change.place = true ∧ document.Spares change.brought change.place ∧
        ∃ after replaced, change.apply document = .done after replaced := by
  rcases change.cases_target with ⟨parent, index, subtree, rfl⟩ | ⟨node, rfl⟩ | ⟨handle, targets⟩
  · rcases wellFormed.insert_cases parent index subtree with absent | gone | made
    · exact .inl absent
    · exact .inr (.inl gone)
    · exact .inr (.inr ⟨made.1, made.2.1, _, _, made.2.2⟩)
  · rcases wellFormed.remove_outcome node with ⟨absent, failed⟩ | ⟨stored, after, removed, made⟩
    · exact .inl ⟨absent, by rw [Change.apply, failed]; rfl⟩
    · exact .inr (.inr ⟨stored, spares_nil document node, after, [], by rw [Change.apply, made]; rfl⟩)
  · obtain ⟨place, brought⟩ := Change.place_of_target targets
    rw [place, brought, Change.apply_of_target targets]
    cases stored : document.contains handle with
    | false => exact .inl ⟨rfl, rfl⟩
    | true => exact .inr (.inr ⟨rfl, spares_nil document handle, _, _, rfl⟩)

/-- A change that fails names its place, which is not stored or has gone with what was taken over. -/
theorem cases_of_error (wellFormed : document.WellFormed) {change : Change} {fault : Fault}
    (error : (change.apply document).answer = .error fault) :
    fault = .unknownContent change.place ∧
      (document.contains change.place = false ∧ document.after change = document ∨
        document.contains change.place = true ∧ ¬ document.Spares change.brought change.place ∧
          document.after change = (document.evict change.brought).1) := by
  rw [after]
  rcases wellFormed.apply_cases change with ⟨absent, failed⟩ | ⟨stored, taken, failed⟩ |
    ⟨-, -, after, replaced, made⟩
  · rw [failed] at error ⊢
    cases error
    exact ⟨rfl, .inl ⟨absent, rfl⟩⟩
  · rw [failed] at error ⊢
    cases error
    exact ⟨rfl, .inr ⟨stored, taken, rfl⟩⟩
  · rw [made] at error
    cases error

end Document.WellFormed

namespace Document

/-- When a change fails, and what it then leaves. It names its place. If that is not stored, the document
is as before; else the place has gone with what was taken over, and every other node has its children
that were not. -/
structure Failing (document : Document) (change : Change) : Prop where
  fails_iff : (∃ fault, (change.apply document).answer = .error fault) ↔
    document.contains change.place = false ∨ ¬ document.Spares change.brought change.place
  named : ∀ {fault : Fault}, (change.apply document).answer = .error fault →
    fault = .unknownContent change.place
  unchanged_iff : ∀ {fault : Fault}, (change.apply document).answer = .error fault →
    (document.after change = document ↔ document.contains change.place = false)
  left : ∀ {fault : Fault}, (change.apply document).answer = .error fault →
    document.contains change.place = true → ∀ {other : Handle} {node : ContentNode},
      (document.after change).get? other = some node ↔ document.Spares change.brought other ∧
        ∃ before, document.get? other = some before ∧ before.withoutAll change.brought = node

/-- A change of a well-formed document that fails leaves the document as it was, unless it is an
insertion whose place is at or below a handle that the subtree brings. -/
theorem failing_of_wellFormed {document : Document} (wellFormed : document.WellFormed)
    (change : Change) : document.Failing change := by
  refine ⟨⟨?_, ?_⟩, fun error => (wellFormed.cases_of_error error).1, fun error => ?_,
    fun error stored => ?_⟩
  · rintro ⟨fault, error⟩
    rcases (wellFormed.cases_of_error error).2 with ⟨absent, -⟩ | ⟨-, taken, -⟩
    · exact .inl absent
    · exact .inr taken
  · intro blocked
    rcases wellFormed.apply_cases change with ⟨-, failed⟩ | ⟨-, -, failed⟩ | ⟨stored, spared, -⟩
    · exact ⟨_, congrArg Outcome.answer failed⟩
    · exact ⟨_, congrArg Outcome.answer failed⟩
    · rcases blocked with absent | taken
      · rw [stored] at absent
        cases absent
      · exact absurd spared taken
  · rcases (wellFormed.cases_of_error error).2 with ⟨absent, same⟩ | ⟨stored, taken, left⟩
    · exact iff_of_true same absent
    · refine iff_of_false (fun same => taken ?_) (by simp [stored])
      rw [← same, left] at stored
      exact ((wellFormed.contains_evict change.brought).mp stored).2
  · rcases (wellFormed.cases_of_error error).2 with ⟨absent, -⟩ | ⟨-, -, left⟩
    · rw [stored] at absent
      cases absent
    · rw [left]
      exact wellFormed.get?_evict_eq_some change.brought

/-- An element is put into its own paragraph. -/
def swallowingChange : Change :=
  .inserted ⟨2⟩ 0 (.single ⟨1⟩ (.element "div"))

theorem failing_swallowingChange :
    (ofSubtree nestedPage).WellFormed ∧ (ofSubtree nestedPage).Failing swallowingChange ∧
      (swallowingChange.apply (ofSubtree nestedPage)).answer = .error (.unknownContent ⟨2⟩) ∧
      ((ofSubtree nestedPage).after swallowingChange).preorder = [⟨0⟩] := by
  have wellFormed : (ofSubtree nestedPage).WellFormed := wellFormed_ofSubtree (by decide)
  exact ⟨wellFormed, failing_of_wellFormed wellFormed swallowingChange, by decide +kernel,
    by decide +kernel⟩

/-- It is not so that every sound change that fails leaves the document as it was. -/
theorem not_unchanged_swallowingChange :
    ¬ ∀ (document : Document) (change : Change) (fault : Fault), document.WellFormed →
      change.Sound document.root → (change.apply document).answer = .error fault →
        document.after change = document := by
  intro unchanged
  have wellFormed : (ofSubtree nestedPage).WellFormed := wellFormed_ofSubtree (by decide)
  have same := unchanged (ofSubtree nestedPage) swallowingChange (.unknownContent ⟨2⟩) wellFormed
    (by decide) (by decide +kernel)
  exact absurd same (by decide +kernel)

end Document

end Accessibility
