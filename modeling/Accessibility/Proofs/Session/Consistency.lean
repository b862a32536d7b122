import Accessibility.Proofs.Document.Edits
import Accessibility.Proofs.Session.Runs

/-!
No batch can fail, and nothing is ever wrong with a snapshot: every version that a session commits is
a single tree below the node of the root, and its relations agree with each other. So a check of the
snapshots changes nothing.
-/

set_option autoImplicit false

namespace Accessibility.Session

/-- A settled session has committed a consistent snapshot. -/
theorem Settled.consistent {session : Session} (settled : session.Settled)
    (derived : session.Derived) : session.history.current.Consistent session.document.root := by
  obtain ⟨root, node, atTop, -, alive, content⟩ := settled.rooted
  obtain ⟨version, current⟩ := settled.current_eq derived
  have consistent : session.source.snapshot.Consistent node.content :=
    Derivation.Source.consistent_snapshot settled.sound atTop alive
  rw [current, ← content]
  exact consistent.versioned version

/-- A check passes over a snapshot without violations. -/
theorem verified_of_consistent {snapshot : Snapshot} {root : Handle}
    (consistent : snapshot.Consistent root) (verifies : Bool) (document : Document) (tree : Tree) :
    verified verifies document tree snapshot = (snapshot, false) := by
  rw [verified, consistent.sound, List.isEmpty_nil, Bool.not_true, Bool.and_false,
    if_neg Bool.false_ne_true]

/-- A session begins with version 1, and each batch makes the next version. Every version is
consistent and passes the check. Whether or not snapshots are checked, the same versions are
committed and every hub sends out the same notices. -/
theorem run_consistent {subtree : Subtree} (distinct : subtree.Distinct)
    (plain : subtree.kind ≠ .shadowRoot) (capacity : Nat) :
    ∃ session : Session,
      (∀ verifies, Session.start subtree capacity verifies =
        .ok (session.rewire verifies session.hub)) ∧
      ∀ batches : List (List Change),
        (∀ changes ∈ batches, ∀ change ∈ changes, change.Sound subtree.handle) →
        (session.run batches).history.version = batches.length + 1 ∧
        (session.run batches).history.current.Consistent subtree.handle ∧
        (∀ verifies document tree, verified verifies document tree
          (session.run batches).history.current = ((session.run batches).history.current, false)) ∧
        (∀ verifies, (session.rewire verifies session.hub).run batches =
          (session.run batches).rewire verifies (session.run batches).hub) ∧
        ∀ changes : List Change, (∀ change ∈ changes, change.Sound subtree.handle) →
          ∃ (next : Session) (notices : List Notice), ∀ verifies hub,
            ((session.run batches).rewire verifies hub).apply changes =
              .done (next.rewire verifies (hub.dispatch notices)) (batches.length + 2) := by
  obtain ⟨session, settled, derived, document, version, starts, kinds⟩ :=
    start_done distinct capacity
  refine ⟨session, starts, fun batches sound => ?_⟩
  have begun : Begun subtree session := ⟨settled, derived, document, version, kinds⟩
  have settledRun := begun.settled_run sound
  have derivedRun := begun.derived_run sound plain
  have rootRun := begun.root_run sound
  have versionRun := begun.version_run sound
  have consistent := settledRun.consistent derivedRun
  rw [rootRun] at consistent
  refine ⟨versionRun, consistent, verified_of_consistent consistent,
    ((derived plain).run settled (begun.sound_root sound)).2, fun changes soundChanges => ?_⟩
  rw [← rootRun] at soundChanges
  obtain ⟨-, notices, applied⟩ := derivedRun.apply settledRun soundChanges
  rw [versionRun] at applied
  exact ⟨_, _, applied⟩

/-- A page whose element is taken over, and an empty batch. -/
theorem run_consistent_nestedChanges :
    ∃ session : Session,
      Session.start Document.nestedPage 8 true = .ok (session.rewire true session.hub) ∧
      (session.run [Document.nestedChanges, []]).history.version = 3 ∧
      (session.run [Document.nestedChanges, []]).history.current.Consistent ⟨0⟩ := by
  have sound : ∀ changes ∈ [Document.nestedChanges, []], ∀ change ∈ changes,
      change.Sound Document.nestedPage.handle := by decide
  have distinct : Document.nestedPage.Distinct := by decide
  have plain : Document.nestedPage.kind ≠ .shadowRoot := by decide
  obtain ⟨session, starts, runs⟩ := run_consistent distinct plain 8
  obtain ⟨version, consistent, -⟩ := runs _ sound
  exact ⟨session, starts true, version, consistent⟩

end Accessibility.Session
