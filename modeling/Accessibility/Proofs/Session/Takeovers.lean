import Accessibility.Proofs.Change.Runs

/-!
What a batch takes over: at each insertion those of its handles that are in the document when their
turn comes.
-/

set_option autoImplicit false

namespace Accessibility

/-- The handles that a change brings into a document. -/
def Change.carried : Change → List Handle
  | .inserted _ _ subtree => subtree.handles
  | _ => []

/-- The handles that a change takes over. A change that fails takes over none. -/
def Change.taken (document : Document) (change : Change) : List Handle :=
  match (change.apply document).answer with
  | .ok replaced => replaced
  | .error _ => []

/-- No change carries a handle that is in the document when it is applied. -/
def Document.NothingTaken (document : Document) : List Change → Prop
  | [] => True
  | change :: rest =>
    (∀ handle ∈ change.carried, document.contains handle = false) ∧
      NothingTaken (document.after change) rest

instance Document.decidableNothingTaken :
    (changes : List Change) → (document : Document) → Decidable (document.NothingTaken changes)
  | [], _ => inferInstanceAs (Decidable True)
  | change :: rest, document =>
    have := decidableNothingTaken rest (document.after change)
    inferInstanceAs (Decidable ((∀ handle ∈ change.carried, document.contains handle = false) ∧
      NothingTaken (document.after change) rest))

namespace Change

variable {document : Document}

/-- Only insertions take handles over. -/
theorem taken_eq_nil {change : Change} (data : change.carried = []) : change.taken document = [] := by
  have plain {α : Type} (outcome : Outcome Document α) :
      (match (outcome.andThen fun state _ => Outcome.done state ([] : List Handle)).answer with
        | .ok replaced => replaced
        | .error _ => []) = [] := by
    rw [Outcome.andThen]
    cases outcome.answer <;> rfl
  cases change with
  | inserted parent index subtree =>
    rw [carried, Subtree.handles_eq] at data
    cases data
  | _ => exact plain _

/-- Handles that are new are not taken over. -/
theorem taken_of_fresh {change : Change}
    (fresh : ∀ handle ∈ change.carried, document.contains handle = false) :
    change.taken document = [] := by
  cases change with
  | inserted parent index subtree =>
    have none : document.evict subtree.handles = (document, []) := Document.evict_of_fresh fresh
    rw [taken, apply, Document.insert, none]
    dsimp only
    cases document.contains parent <;> rfl
  | _ => exact taken_eq_nil rfl

end Change

namespace Effects

theorem replaced_add (effects : Effects) (change : Change) :
    (effects.add change).replaced = effects.replaced ++ change.taken effects.document := by
  rw [add, Change.taken]
  cases (change.apply effects.document).answer <;> rfl

/-- What a batch takes over is what its changes do, each where its turn comes. -/
theorem replaced_ofChanges_append (document : Document) (earlier : List Change) (change : Change)
    (later : List Change) : ∃ rest, (ofChanges document (earlier ++ change :: later)).replaced =
      (ofChanges document earlier).replaced ++ change.taken (document.afterAll earlier) ++ rest := by
  have grows (changes : List Change) (effects : Effects) :
      ∃ rest, (changes.foldl add effects).replaced = effects.replaced ++ rest := by
    induction changes generalizing effects with
    | nil => exact ⟨[], (List.append_nil _).symm⟩
    | cons first others ih =>
      obtain ⟨rest, same⟩ := ih (effects.add first)
      exact ⟨_, by rw [List.foldl_cons, same, replaced_add, List.append_assoc]⟩
  obtain ⟨rest, same⟩ := grows later ((ofChanges document earlier).add change)
  refine ⟨rest, ?_⟩
  rw [ofChanges, List.foldl_append, List.foldl_cons]
  rw [ofChanges] at same
  rw [same, replaced_add, ← ofChanges, document_ofChanges]

theorem replaced_of_nothingTaken {document : Document} {changes : List Change}
    (nothing : document.NothingTaken changes) : (ofChanges document changes).replaced = [] := by
  have folded (changes : List Change) (effects : Effects)
      (nothing : effects.document.NothingTaken changes) :
      (changes.foldl add effects).replaced = effects.replaced := by
    induction changes generalizing effects with
    | nil => rfl
    | cons change rest ih =>
      rw [List.foldl_cons, ih (effects.add change) nothing.2, replaced_add,
        Change.taken_of_fresh nothing.1, List.append_nil]
  exact folded changes (start document) nothing

end Effects

end Accessibility
