import Accessibility.Proofs.Change.Kinds
import Accessibility.Proofs.Tree.Continuity
import Accessibility.Session.Basic

/-!
The identity of nodes across batches. A batch is made of calls on the tree, so its nodes go on as
they do over calls, however the batch ends; and a new node has the kind of its content.
-/

set_option autoImplicit false

namespace Accessibility

open Accessibility.Tree (Continues)

/-- A document holds the kinds that it holds. -/
theorem Document.allows_kind? (document : Document) :
    document.Allows fun handle kind => document.kind? handle = some kind := by
  intro handle node stored
  rw [kind?, stored, Option.map_some]

/-- Every live node is of a kind that its content may have. -/
def Tree.Allows (allowed : Handle → Kind → Prop) (tree : Tree) : Prop :=
  ∀ {id : NodeId} {node : AccessibleNode}, tree.live id = some node → allowed node.content node.kind

variable {allowed : Handle → Kind → Prop} {before : Tree} {document : Document}

/-- Calls keep to the kinds that are allowed, as long as new nodes do. -/
theorem Tree.Continues.allows {after : Tree} (continues : Continues allowed before after)
    (allows : before.Allows allowed) : after.Allows allowed := by
  intro id node' alive
  rcases continues.origin alive with ⟨node, aliveBefore, content, kind⟩ | ⟨-, fits⟩
  · rw [content, kind]
    exact allows aliveBefore
  · exact fits

namespace Alignment.Progress

variable {progress : Progress}

/-- What calls keep, a sequence of them keeps, wherever it stops. -/
theorem continues_andThen {α β : Type} {outcome : Outcome Progress α}
    {next : Progress → α → Outcome Progress β}
    (first : Continues allowed before outcome.state.tree)
    (others : ∀ (progress : Progress) (answer : α), Continues allowed before progress.tree →
      Continues allowed before (next progress answer).state.tree) :
    Continues allowed before (outcome.andThen next).state.tree := by
  rw [Outcome.andThen]
  split
  · exact others _ _ first
  · exact first

theorem continues_seat (earlier : Continues allowed before progress.tree) {node : ContentNode}
    {entry : Exposed} (fits : allowed entry.handle node.kind) (parent : NodeId) :
    Continues allowed before (progress.seat node entry parent).state.tree := by
  unfold seat
  dsimp only
  split
  · exact earlier.create parent _ fits
  · rename_i id known
    refine continues_andThen ?_ fun seated _ soFar => ?_
    · split
      · exact earlier
      · exact continues_andThen (earlier.reparent id parent _) fun moved _ soFar => soFar
    · refine continues_andThen (soFar.sync id node.attributes entry.scope) ?_
      exact fun synced _ soFar => soFar

theorem continues_place (earlier : Continues allowed before progress.tree)
    (fits : document.Allows allowed) (entry : Exposed) :
    Continues allowed before (progress.place document entry).state.tree := by
  unfold place
  split
  · exact earlier
  · rename_i node stored
    split
    · split
      · exact earlier
      · refine continues_andThen (earlier.sync _ node.attributes entry.scope) ?_
        exact fun synced _ soFar => soFar
    · split
      · exact earlier
      · refine continues_andThen (continues_seat earlier (fits _ _ stored) _) ?_
        exact fun seated _ soFar => soFar

theorem continues_placeAll (earlier : Continues allowed before progress.tree)
    (fits : document.Allows allowed) (entries : List Exposed) :
    Continues allowed before (progress.placeAll document entries).state.tree := by
  induction entries generalizing progress with
  | nil => exact earlier
  | cons entry rest ih =>
    exact continues_andThen (continues_place earlier fits entry) fun placed _ soFar => ih soFar

theorem continues_dismiss (earlier : Continues allowed before progress.tree)
    (exposed : List Handle) (id : NodeId) :
    Continues allowed before (progress.dismiss exposed id).state.tree := by
  unfold dismiss
  split
  · exact earlier
  · split
    · exact continues_andThen (earlier.beginShutdown id) fun dismissed _ soFar => soFar
    · exact earlier

theorem continues_dismissAll (earlier : Continues allowed before progress.tree)
    (exposed : List Handle) (ids : List NodeId) :
    Continues allowed before (progress.dismissAll exposed ids).state.tree := by
  induction ids generalizing progress with
  | nil => exact earlier
  | cons id rest ih =>
    exact continues_andThen (continues_dismiss earlier exposed id) fun dismissed _ soFar => ih soFar

theorem continues_arrangeAll (earlier : Continues allowed before progress.tree)
    (orders : List (NodeId × List NodeId)) :
    Continues allowed before (progress.arrangeAll orders).state.tree := by
  induction orders generalizing progress with
  | nil => exact earlier
  | cons entry rest ih =>
    exact continues_andThen (earlier.arrange entry.1 entry.2) fun arranged _ soFar => ih soFar

end Alignment.Progress

/-- An alignment gives content new nodes, and keeps or shuts down those there were. -/
theorem Alignment.continues_run {tree : Tree} (earlier : Continues allowed before tree)
    (fits : document.Allows allowed) :
    Continues allowed before (Alignment.run document tree).state := by
  refine Progress.continues_andThen (Progress.continues_placeAll earlier fits _)
    fun placed _ placing => ?_
  exact Progress.continues_andThen (Progress.continues_dismissAll placing _ _)
    fun dismissed _ dismissing => Progress.continues_arrangeAll dismissing _

namespace Session

theorem continues_dismissNodeOf {tree : Tree} (earlier : Continues allowed before tree)
    (content : Handle) : Continues allowed before (dismissNodeOf tree content) := by
  unfold dismissNodeOf
  split
  · exact earlier
  · exact earlier.beginShutdown _

theorem continues_dismissAll {tree : Tree} (earlier : Continues allowed before tree)
    (contents : List Handle) : Continues allowed before (contents.foldl dismissNodeOf tree) :=
  .foldl (fun content soFar => continues_dismissNodeOf soFar content) earlier contents

theorem continues_syncNodeOf {tree : Tree} (earlier : Continues allowed before tree)
    (document : Document) (content : Handle) :
    Continues allowed before (syncNodeOf document tree content) := by
  unfold syncNodeOf
  split
  · exact earlier.sync _ _ _
  · exact earlier

/-- A batch gives content new nodes of its kind, and keeps or shuts down those there were. -/
theorem continues_apply {session : Session} (earlier : Continues allowed before session.tree)
    {changes : List Change} (fits : (session.document.afterAll changes).Allows allowed) :
    Continues allowed before (session.apply changes).state.tree := by
  rw [← Effects.document_ofChanges] at fits
  have cleared := continues_dismissAll earlier (Effects.ofChanges session.document changes).replaced
  unfold apply
  dsimp only
  split
  · have aligned := Alignment.continues_run cleared fits
    split
    · exact aligned
    · exact aligned.retirePending
  · exact (Continues.foldl (fun content soFar => continues_syncNodeOf soFar _ content)
      cleared (Effects.ofChanges session.document changes).touched).retirePending

end Session

end Accessibility
