import Accessibility.Proofs.Document.Edits
import Accessibility.Proofs.Session.Runs
import Accessibility.Proofs.Snapshot.Delta

/-!
The notices of a batch are the exact difference of the snapshots before and after it. Relations that
a batch does not mark stale are not compared, and they are the same in both.
-/

set_option autoImplicit false

namespace Accessibility.Session

variable {session next : Session} {changes : List Change} {compared : RelationSet}

theorem Settled.linked (settled : session.Settled) : session.history.current.Linked := by
  obtain ⟨version, edges, current⟩ := settled.current
  rw [current]
  exact (Tree.linked_snapshot settled.sound edges).versioned version

theorem Settled.root_current (settled : session.Settled) :
    session.history.current.root = session.tree.root := by
  obtain ⟨version, edges, current⟩ := settled.current
  rw [current]
  rfl

/-- What an advance tells is what it makes different. -/
theorem Advanced.delta (advanced : session.Advanced next changes compared)
    (settled : session.Settled) :
    session.history.current.Delta next.history.current
      (session.history.current.noticesTo next.history.current compared) := by
  refine Snapshot.delta_noticesTo settled.linked advanced.settled.linked ?_ fun relation fresh id => ?_
  · rw [advanced.settled.root_current, advanced.root, settled.root_current]
  · rw [Snapshot.targets, Snapshot.targets, advanced.carried relation fresh]

/-- From every reachable session a batch of sound changes makes the next version and sends out, to
any listeners, the notices of exactly what that version changes. -/
theorem apply_delta {subtree : Subtree} (distinct : subtree.Distinct) {capacity : Nat} {verifies : Bool}
    (reachable : Reachable subtree capacity verifies session)
    (sound : ∀ change ∈ changes, change.Sound subtree.handle) :
    ∃ notices, session.history.current.Delta (session.apply changes).state.history.current notices ∧
      ∀ hub, (session.rewire session.verifies hub).apply changes =
        .done ((session.apply changes).state.rewire session.verifies (hub.dispatch notices))
          (session.history.version + 1) := by
  obtain ⟨settled, root⟩ := reachable.settled distinct
  rw [← root] at sound
  obtain ⟨compared, advanced, applied⟩ := apply_advanced settled sound
  exact ⟨_, advanced.delta settled, applied⟩

/-- An element of a page is taken over, and its text goes with it. -/
theorem apply_delta_nestedChanges : ∃ session notices,
    Session.start Document.nestedPage 4 true = .ok session ∧
      session.history.current.Delta
        (session.apply Document.nestedChanges).state.history.current notices ∧
      (session.apply Document.nestedChanges).state.hub = session.hub.dispatch notices := by
  have distinct : Document.nestedPage.Distinct := by decide
  obtain ⟨session, -, -, -, -, starts, -⟩ := start_done distinct 4
  obtain ⟨notices, delta, applied⟩ := apply_delta distinct (.start (starts true))
    (show ∀ change ∈ Document.nestedChanges, change.Sound ⟨0⟩ by decide)
  exact ⟨_, notices, starts true, delta, congrArg (fun outcome => outcome.state.hub) (applied _)⟩

end Accessibility.Session
