import Accessibility.Proofs.Change.Merging
import Accessibility.Proofs.Document.Failing

/-!
What dropping and merging leave of truthful records. Both passes leave out changes of data only, so the
documents on the way have the nodes and links that they would have had, and every change that is left
can still be made. At the end nothing is missed.
-/

set_option autoImplicit false

namespace Accessibility

open Document

/-- Every change can be made to the document that the ones before it lead to. -/
def Document.Admits (document : Document) : List Change → Prop
  | [] => True
  | change :: rest =>
    (∃ taken, (change.apply document).answer = .ok taken) ∧ (document.after change).Admits rest

namespace Recorded

/-- Whether a recorded change can be made to a document and tells the truth about it: an inserted subtree
has its place and distinct new handles, a removed node is there and is not the root, a changed node is
there, and an attribute had the value that was recorded for it. -/
def Truthful (document : Document) (recorded : Recorded) : Prop :=
  match recorded.change with
  | .inserted parent _ subtree => document.Attachable parent subtree
  | .removed node => document.contains node = true ∧ node ≠ document.root
  | .attribute node name _ =>
    ∃ stored, document.get? node = some stored ∧ stored.attributes[name]? = recorded.previous
  | .popoverTarget node _ => document.contains node = true
  | .popoverShowing node _ => document.contains node = true

/-- Every record is truthful about the document that the ones before it lead to. -/
def AllTruthful (document : Document) : List Recorded → Prop
  | [] => True
  | recorded :: rest => recorded.Truthful document ∧ AllTruthful (document.after recorded.change) rest

variable {document left right : Document} {recorded : Recorded} {part middle full : List Recorded}

theorem Truthful.fits (truthful : recorded.Truthful document) : recorded.Fits document := by
  obtain ⟨change, previous⟩ := recorded
  cases change with
  | inserted => exact truthful
  | removed => exact truthful.2
  | popoverTarget | popoverShowing => trivial
  | _ node name value =>
    obtain ⟨stored, here, recordedValue⟩ := truthful
    intro other there
    rw [here] at there
    rw [← Option.some.inj there]
    exact recordedValue

theorem AllTruthful.allFit (truthful : AllTruthful document full) : AllFit document full := by
  induction full generalizing document with
  | nil => trivial
  | cons recorded rest ih => exact ⟨truthful.1.fits, ih truthful.2⟩

/-- The node of a truthful change of data is there. -/
theorem Truthful.contains (truthful : recorded.Truthful document) {handle : Handle}
    (targets : recorded.change.target? = some handle) : document.contains handle = true := by
  obtain ⟨change, previous⟩ := recorded
  cases change with
  | inserted | removed => cases targets
  | popoverTarget | popoverShowing =>
    cases targets
    exact truthful
  | _ node name value =>
    cases targets
    obtain ⟨stored, here, -⟩ := truthful
    exact contains_of_get? here

/-! ### Records that are left out -/

/-- A list of records with some changes of data left out. -/
inductive Thins : (part full : List Recorded) → Prop
  | nil : Thins [] []
  | keep (recorded : Recorded) {part full : List Recorded} (thins : Thins part full) :
    Thins (recorded :: part) (recorded :: full)
  | skip {recorded : Recorded} {handle : Handle} (targets : recorded.change.target? = some handle)
    {part full : List Recorded} (thins : Thins part full) : Thins part (recorded :: full)

theorem Thins.trans (first : Thins part middle) (second : Thins middle full) : Thins part full := by
  induction second generalizing part with
  | nil => exact first
  | keep recorded _ ih =>
    cases first with
    | keep _ first => exact .keep recorded (ih first)
    | skip targets first => exact .skip targets (ih first)
  | skip targets _ ih => exact .skip targets (ih first)

theorem thins_dropRemoved (records : List Recorded) : Thins (dropRemoved records) records := by
  induction records with
  | nil => exact .nil
  | cons recorded rest ih =>
    rw [dropRemoved]
    split
    · rename_i goes
      cases targets : recorded.change.target? with
      | none => simp [targets] at goes
      | some handle => exact .skip targets ih
    · exact .keep recorded ih

theorem thins_coalesceAfter (before records : List Recorded) :
    Thins (coalesceAfter before records) records := by
  induction records generalizing before with
  | nil => exact .nil
  | cons recorded rest ih =>
    have later := ih (recorded :: before)
    rw [coalesceAfter]
    split
    · exact .keep recorded later
    · rename_i needless
      cases targets : recorded.change.target? with
      | none => exact absurd (by rw [isNeeded, targets]) needless
      | some handle => exact .skip targets later

/-- What can be made to one document can be made to another one with the same nodes and links, whatever
changes of data were left out before. -/
theorem Thins.admits (thins : Thins part full) (wellFormed : left.WellFormed)
    (alike : Alike (fun _ _ _ => True) left right) (truthful : AllTruthful left full) :
    right.Admits (part.map Recorded.change) := by
  have ignores : IgnoresChildren fun _ _ _ => True := fun _ _ _ _ _ _ => trivial
  induction thins generalizing left right with
  | nil => trivial
  | @keep recorded part rest thins ih =>
    obtain ⟨here, truthfulRest⟩ := truthful
    have goOn {after : Document} (alikeAfter : Alike (fun _ _ _ => True) _ after) :=
      ih (here.fits.wellFormed wellFormed) alikeAfter truthfulRest
    obtain ⟨change, previous⟩ := recorded
    rcases change.cases_target with ⟨parent, index, subtree, rfl⟩ | ⟨node, rfl⟩ | ⟨handle, targets⟩
    · have attachable : left.Attachable parent subtree := here
      refine ⟨⟨[], ?_⟩, goOn ?_⟩
      · exact congrArg Outcome.answer ((alike.attachable attachable).insert_eq index)
      · exact alike_inserted alike ignores attachable index (fun _ _ _ => trivial)
          fun _ _ _ _ _ => trivial
    · have stored : right.contains node = true := alike.contains_eq node ▸ here.1
      refine ⟨?_, goOn ?_⟩
      · rcases (alike.wellFormed wellFormed).remove_outcome node with
          ⟨absent, -⟩ | ⟨-, after, removed, made⟩
        · rw [stored] at absent
          cases absent
        · exact ⟨[], by rw [Change.apply, made]; rfl⟩
      · exact alike_removed alike wellFormed ignores here.2 fun _ _ _ _ _ => trivial
    · have stored : right.contains handle = true := alike.contains_eq handle ▸ here.contains targets
      have links := change.isDataChange_edit.links
      refine ⟨⟨[], ?_⟩, goOn ?_⟩
      · rw [Change.apply_of_target targets, if_pos stored]
        rfl
      · dsimp only
        rw [Change.after_eq_update targets, Change.after_eq_update targets]
        exact alike.update links links (fun _ _ _ _ _ => trivial) fun _ _ _ _ _ => trivial
  | @skip recorded handle targets part rest thins ih =>
    obtain ⟨here, truthfulRest⟩ := truthful
    apply ih (here.fits.wellFormed wellFormed) _ truthfulRest
    rw [Change.after_eq_update targets, ← update_id right handle]
    exact alike.update recorded.change.isDataChange_edit.links ContentNode.SameLinks.refl
      (fun _ _ _ _ _ => trivial) fun _ _ _ _ _ => trivial

/-- Changes to nodes that are gone at the end, and all but the last of several changes of one datum, can
be left out of truthful records: those that are left can all be made, and they lead to the same
document. -/
theorem remainder_preserves {document : Document} (wellFormed : document.WellFormed)
    {records : List Recorded} (truthful : AllTruthful document records) :
    document.Admits ((coalesce (dropRemoved records)).map Recorded.change) ∧
      replay document (coalesce (dropRemoved records)) = replay document records := by
  constructor
  · have thins := (thins_coalesceAfter [] (dropRemoved records)).trans (thins_dropRemoved records)
    exact thins.admits wellFormed (.refl (fun _ _ => trivial) document) truthful
  · exact replay_coalesce_dropRemoved wellFormed truthful.allFit

/-- An element with a paragraph in it, and another element. -/
def articlePage : Document :=
  .ofSubtree { Subtree.single ⟨0⟩ .document with
    children :=
      [{ Subtree.element ⟨1⟩ "div" with children := [.element ⟨2⟩ "p"] }, .element ⟨3⟩ "nav"] }

/-- The first element as it comes back. -/
def returned : Subtree :=
  { Subtree.element ⟨1⟩ "div" with
    children := [(Subtree.element ⟨2⟩ "p").withAttribute "title" "b"] }

/-- The title of the paragraph is set twice, and the other element opens and goes in between. Then the
paragraph leaves with the element around it and comes back, and loses its title for a moment. -/
def retitling : List Recorded :=
  [⟨.attribute ⟨2⟩ "title" (some "a"), none⟩, ⟨.popoverShowing ⟨3⟩ true, none⟩,
    ⟨.removed ⟨3⟩, none⟩, ⟨.attribute ⟨2⟩ "title" (some "b"), some "a"⟩, ⟨.removed ⟨1⟩, none⟩,
    ⟨.inserted ⟨0⟩ 0 returned, none⟩, ⟨.attribute ⟨2⟩ "title" none, some "b"⟩,
    ⟨.attribute ⟨2⟩ "title" (some "b"), none⟩]

theorem remainder_preserves_retitling :
    articlePage.WellFormed ∧ AllTruthful articlePage retitling ∧
      (coalesce (dropRemoved retitling)).map Recorded.change =
        [.removed ⟨3⟩, .attribute ⟨2⟩ "title" (some "b"), .removed ⟨1⟩,
          .inserted ⟨0⟩ 0 returned] ∧
      replay articlePage (coalesce (dropRemoved retitling)) = replay articlePage retitling := by
  have wellFormed : articlePage.WellFormed := wellFormed_ofSubtree (by decide)
  have truthful : AllTruthful articlePage retitling := by
    refine ⟨⟨_, rfl, ?_⟩, (?_ : Document.contains _ _ = true), ⟨?_, ?_⟩, ⟨_, rfl, ?_⟩,
      ⟨?_, ?_⟩, ⟨?_, ?_, ?_⟩, ⟨_, rfl, ?_⟩, ⟨_, rfl, ?_⟩, trivial⟩ <;> decide +kernel
  exact ⟨wellFormed, truthful, by decide +kernel, (remainder_preserves wellFormed truthful).2⟩

end Recorded

end Accessibility
