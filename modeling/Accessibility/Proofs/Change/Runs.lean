import Accessibility.Change.Normal
import Accessibility.Proofs.Document.Exchange
import Accessibility.Session.Run

/-!
Runs of changes over a document. A change that fails is passed over, as a batch does it.
-/

set_option autoImplicit false

namespace Accessibility

open Std

namespace Document

/-- The document after a change. A change that fails leaves what it has done. -/
def after (document : Document) (change : Change) : Document :=
  (change.apply document).state

/-- The document after some changes. -/
def afterAll (document : Document) (changes : List Change) : Document :=
  changes.foldl after document

theorem afterAll_cons (document : Document) (change : Change) (rest : List Change) :
    document.afterAll (change :: rest) = (document.after change).afterAll rest :=
  rfl

theorem afterAll_append (document : Document) (first second : List Change) :
    document.afterAll (first ++ second) = (document.afterAll first).afterAll second :=
  List.foldl_append

end Document

theorem Outcome.state_andThen_done {σ α β : Type} (outcome : Outcome σ α) (answer : β) :
    (outcome.andThen fun state _ => .done state answer).state = outcome.state := by
  rw [andThen]
  cases outcome.answer <;> rfl

theorem Attributes.getElem?_set (attributes : Attributes) (name other : String)
    (value : Option String) :
    (attributes.set name value)[other]? = if name = other then value else attributes[other]? := by
  cases value with
  | none => simp [set, ExtTreeMap.getElem?_erase]
  | some value => simp [set, ExtTreeMap.getElem?_insert]

namespace Change

/-- What a change of data does to its node. -/
def edit (change : Change) (node : ContentNode) : ContentNode :=
  match change with
  | .attribute _ name value => { node with attributes := node.attributes.set name value }
  | .popoverTarget _ target => { node with popoverTarget := target }
  | .popoverShowing _ showing => { node with popoverShowing := showing }
  | _ => node

theorem isDataChange_edit (change : Change) : Document.IsDataChange change.edit := by
  cases change <;> exact ⟨fun _ => ⟨rfl, rfl, rfl⟩, fun _ _ => rfl⟩

theorem after_inserted (document : Document) (parent : Handle) (index : Nat) (subtree : Subtree) :
    document.after (.inserted parent index subtree) =
      (document.insert parent index subtree).state :=
  rfl

theorem after_removed (document : Document) (node : Handle) :
    document.after (.removed node) = (document.remove node).state :=
  Outcome.state_andThen_done _ _

/-- A change of data is made where its node is stored. -/
theorem apply_of_target {change : Change} {handle : Handle}
    (targets : change.target? = some handle) (document : Document) :
    change.apply document =
      if document.contains handle then .done (document.modify handle change.edit) []
      else .failed document (.unknownContent handle) := by
  cases change <;> cases targets <;>
    simp only [apply, Document.setAttribute, Document.setPopoverTarget, Document.setPopoverShowing,
      Document.update] <;> split <;> rfl

/-- A change of data updates one node. -/
theorem after_eq_update {change : Change} {handle : Handle} (targets : change.target? = some handle)
    (document : Document) : document.after change = (document.update handle change.edit).state := by
  rw [Document.after, apply_of_target targets, Document.update]
  split <;> rfl

/-- A change comes or goes with content, or it updates the node that it names. -/
theorem cases_target : (change : Change) →
    (∃ parent index subtree, change = .inserted parent index subtree) ∨
      (∃ node, change = .removed node) ∨ ∃ handle, change.target? = some handle
  | .inserted parent index subtree => .inl ⟨parent, index, subtree, rfl⟩
  | .removed node => .inr (.inl ⟨node, rfl⟩)
  | .attribute node _ _ => .inr (.inr ⟨node, rfl⟩)
  | .popoverTarget node _ => .inr (.inr ⟨node, rfl⟩)
  | .popoverShowing node _ => .inr (.inr ⟨node, rfl⟩)

theorem root_after (document : Document) (change : Change) :
    (document.after change).root = document.root := by
  rcases change.cases_target with ⟨parent, index, subtree, rfl⟩ | ⟨node, rfl⟩ | ⟨handle, targets⟩
  · exact Document.root_insert document parent index subtree
  · rw [after_removed, Document.root_remove]
  · rw [after_eq_update targets, Document.root_update]

end Change

theorem ContentNode.SameData.edit {before after : ContentNode} (data : before.SameData after)
    (change : Change) : (change.edit before).SameData (change.edit after) := by
  obtain ⟨attributes, showing, target⟩ := data
  cases change <;> refine ⟨?_, ?_, ?_⟩ <;> simp only [Change.edit, attributes, showing, target]

namespace Document

theorem root_afterAll (document : Document) (changes : List Change) :
    (document.afterAll changes).root = document.root := by
  induction changes generalizing document with
  | nil => rfl
  | cons change rest ih => rw [afterAll_cons, ih, Change.root_after]

/-- A sound change keeps a document well formed. -/
protected theorem WellFormed.after {document : Document} (wellFormed : document.WellFormed)
    {change : Change} (sound : change.Sound document.root) : (document.after change).WellFormed := by
  rcases change.cases_target with ⟨parent, index, subtree, rfl⟩ | ⟨node, rfl⟩ | ⟨handle, targets⟩
  · exact wellFormed.insert sound.1 sound.2 parent index
  · rw [Change.after_removed]
    exact wellFormed.remove node
  · rw [Change.after_eq_update targets]
    exact wellFormed.update change.isDataChange_edit handle

protected theorem WellFormed.afterAll {document : Document} (wellFormed : document.WellFormed)
    {changes : List Change} (sound : ∀ change ∈ changes, change.Sound document.root) :
    (document.afterAll changes).WellFormed := by
  induction changes generalizing document with
  | nil => exact wellFormed
  | cons change rest ih =>
    rw [List.forall_mem_cons] at sound
    apply ih (wellFormed.after sound.1)
    rw [Change.root_after]
    exact sound.2

end Document

/-- A batch edits the document as its changes do, one after the other. -/
theorem Effects.document_ofChanges (document : Document) (changes : List Change) :
    (Effects.ofChanges document changes).document = document.afterAll changes := by
  have folded (effects : Effects) :
      (changes.foldl Effects.add effects).document = effects.document.afterAll changes := by
    induction changes generalizing effects with
    | nil => rfl
    | cons change rest ih =>
      rw [List.foldl_cons, ih]
      rfl
  exact folded (.start document)

/-! ### Records that fit a document -/

namespace Recorded

theorem ofReports_cons (report : Report) (rest : List Report) :
    ofReports (report :: rest) =
      if report.isIdle then ofReports rest
      else ⟨report.change, report.previous⟩ :: ofReports rest := by
  rw [ofReports, List.filter_cons]
  cases report.isIdle <;> rfl

/-- Whether a recorded change agrees with the document that it meets: an inserted subtree has its
place and new handles, the root is not removed, and an attribute of a stored node has the value that
was recorded for it. -/
def Fits (document : Document) (recorded : Recorded) : Prop :=
  match recorded.change with
  | .inserted parent _ subtree => document.Attachable parent subtree
  | .removed node => node ≠ document.root
  | .attribute node name _ =>
    ∀ stored, document.get? node = some stored → stored.attributes[name]? = recorded.previous
  | _ => True

/-- A change of data that fits a document fits any other one that gives its node, if it is there, the
same attributes. -/
theorem Fits.of_attributes {left right : Document} {change : Change} {previous : Option String}
    (fits : Fits left ⟨change, previous⟩) {handle : Handle} (targets : change.target? = some handle)
    (same : ∀ after, right.get? handle = some after →
      ∃ before, left.get? handle = some before ∧ before.attributes = after.attributes) :
    Fits right ⟨change, previous⟩ := by
  cases change with
  | inserted | removed => cases targets
  | popoverTarget | popoverShowing => trivial
  | _ node name value =>
    cases targets
    intro after storedAfter
    obtain ⟨before, stored, attributes⟩ := same after storedAfter
    rw [← attributes]
    exact fits before stored

/-- Every record agrees with the document that the ones before it lead to. -/
def AllFit (document : Document) : List Recorded → Prop
  | [] => True
  | recorded :: rest => recorded.Fits document ∧ AllFit (document.after recorded.change) rest

/-- The document after some recorded changes. -/
def replay (document : Document) (records : List Recorded) : Document :=
  document.afterAll (records.map Recorded.change)

theorem replay_nil (document : Document) : replay document [] = document :=
  rfl

theorem replay_cons (document : Document) (recorded : Recorded) (rest : List Recorded) :
    replay document (recorded :: rest) = replay (document.after recorded.change) rest :=
  rfl

theorem replay_append (document : Document) (first second : List Recorded) :
    replay document (first ++ second) = replay (replay document first) second := by
  rw [replay, List.map_append, Document.afterAll_append]
  rfl

theorem allFit_append {document : Document} {first second : List Recorded} :
    AllFit document (first ++ second) ↔
      AllFit document first ∧ AllFit (replay document first) second := by
  induction first generalizing document with
  | nil => simp only [List.nil_append, AllFit, replay_nil, true_and]
  | cons recorded rest ih => rw [List.cons_append, AllFit, AllFit, ih, replay_cons, and_assoc]

/-- A record that fits an insertion attaches its subtree. -/
theorem after_inserted_of_fits {document : Document} {parent : Handle} {subtree : Subtree}
    (attachable : document.Attachable parent subtree) (index : Nat) :
    document.after (.inserted parent index subtree) = document.attach parent index subtree := by
  rw [Change.after_inserted, attachable.insert_eq]
  rfl

theorem Fits.wellFormed {document : Document} {recorded : Recorded} (fits : recorded.Fits document)
    (wellFormed : document.WellFormed) : (document.after recorded.change).WellFormed := by
  obtain ⟨change, previous⟩ := recorded
  rcases change.cases_target with ⟨parent, index, subtree, rfl⟩ | ⟨node, rfl⟩ | ⟨handle, targets⟩
  · dsimp only
    rw [after_inserted_of_fits fits]
    exact wellFormed.attach fits index
  · exact wellFormed.after trivial
  · dsimp only
    rw [Change.after_eq_update targets]
    exact wellFormed.update change.isDataChange_edit handle

theorem AllFit.wellFormed {document : Document} {records : List Recorded}
    (fit : AllFit document records) (wellFormed : document.WellFormed) :
    (replay document records).WellFormed := by
  induction records generalizing document with
  | nil => exact wellFormed
  | cons recorded rest ih => exact ih fit.2 (fit.1.wellFormed wellFormed)

end Recorded

end Accessibility
