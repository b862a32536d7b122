import Accessibility.Proofs.Derivation.Scopes
import Accessibility.Proofs.Session.Mirroring

/-!
Tree scopes in the snapshots of a run. What is named by a DOM id is in the scope of the node that names
it, and what is told as details is never further inside than its invoker. That a popover shows is not
looked at where details are derived: it follows from the popover being exposed.
-/

set_option autoImplicit false

namespace Accessibility

namespace Snapshot

/-- Whether two nodes of a snapshot are in one scope. -/
def SharesScope (snapshot : Snapshot) (id other : NodeId) : Prop :=
  ∃ info otherInfo, snapshot.get? id = some info ∧ snapshot.get? other = some otherInfo ∧
    otherInfo.scope = info.scope

/-- The node behind a node in the child list of its parent. -/
def nextSibling? (snapshot : Snapshot) (id : NodeId) : Option NodeId :=
  match (snapshot.get? id).bind NodeInfo.parent with
  | none => none
  | some parent =>
    let siblings := ((snapshot.get? parent).map NodeInfo.children).getD []
    siblings[siblings.idxOf id + 1]?

end Snapshot

/-- A snapshot of a sound tree tells of the siblings that the tree has. -/
theorem Tree.nextSibling?_snapshot {tree : Tree} (sound : tree.Sound)
    {edges : Relation.Family Edges} {id : NodeId} {node : AccessibleNode}
    (alive : tree.live id = some node) :
    (tree.snapshot edges).nextSibling? id = tree.nextSibling? id := by
  have told : (tree.snapshot edges).get? id = _ := get?_snapshot_of_live sound alive
  rw [Snapshot.nextSibling?, nextSibling?, told, parent?_of_live alive, Option.bind_some]
  cases linked : node.parent with
  | none => simp only [AccessibleNode.info, linked]
  | some parent =>
    obtain ⟨above, aliveParent, -⟩ := sound.forest.parent_live alive linked
    have toldParent : (tree.snapshot edges).get? parent = _ :=
      get?_snapshot_of_live sound aliveParent
    simp only [AccessibleNode.info, linked, toldParent, Option.map_some, Option.getD_some,
      children_of_live aliveParent]

namespace Session

/-- How the current relations of a session keep to the scopes of its document. -/
structure KeepsScopes (session : Session) : Prop where
  links : ∀ {id target : NodeId}, target ∈ session.history.current.targets .linksTo id →
    session.history.current.SharesScope id target
  details : ∀ {id target : NodeId}, target ∈ session.history.current.targets .details id →
    ∃ info targetInfo, session.history.current.get? id = some info ∧
      session.history.current.get? target = some targetInfo ∧
      session.document.encloses targetInfo.scope info.scope = true
  /-- Every label has an origin. -/
  labels : ∀ {id label : NodeId}, label ∈ session.history.current.targets .labelledBy id ↔
    ∃ origin, session.source.Labels origin id label
  references : ∀ {origin : Derivation.LabelOrigin} {id label : NodeId},
    session.source.Labels origin id label → origin.isReference = true →
    session.history.current.SharesScope id label
  /-- Where no word of `aria-details` leads anywhere, all that is told as details is a popover that
  shows and does not follow its invoker. The root alone is told even if it does not show. -/
  popovers : ∀ {id target : NodeId} {info : NodeInfo} {invoker : ContentNode},
    target ∈ session.history.current.targets .details id →
    session.history.current.get? id = some info →
    session.document.get? info.content = some invoker →
    (∀ word ∈ Text.words (invoker.attributes.valueOrEmpty "aria-details"),
      session.tree.lookup? word info.scope = none) →
    session.history.current.nextSibling? id ≠ some target ∧ ∃ targetInfo content,
      session.history.current.get? target = some targetInfo ∧
        session.document.get? targetInfo.content = some content ∧
        content.attributes.contains "popover" = true ∧
        (targetInfo.content = session.document.root ∨ content.popoverShowing = true)

section Settled

variable {session : Session} (settled : session.Settled)
include settled

theorem Settled.get?_current {id : NodeId} {node : AccessibleNode}
    (alive : session.tree.live id = some node) :
    session.history.current.get? id = some (node.info (session.tree.preorder.idxOf id)) := by
  obtain ⟨version, edges, current⟩ := settled.current
  rw [current]
  exact @Tree.get?_snapshot_of_live session.tree edges id node settled.sound alive

theorem Settled.nextSibling?_current {id : NodeId} {node : AccessibleNode}
    (alive : session.tree.live id = some node) :
    session.history.current.nextSibling? id = session.tree.nextSibling? id := by
  obtain ⟨version, edges, current⟩ := settled.current
  rw [current]
  exact @Tree.nextSibling?_snapshot session.tree settled.sound edges id node alive

theorem Settled.sharesScope {id other : NodeId} (shares : session.source.SharesScope id other) :
    session.history.current.SharesScope id other := by
  obtain ⟨node, otherNode, alive, aliveOther, scope⟩ := shares
  exact ⟨_, _, settled.get?_current alive, settled.get?_current aliveOther, scope⟩

/-- Only the root stands for content that is hidden. -/
theorem Settled.isHidden_of_live {id : NodeId} {node : AccessibleNode} {content : ContentNode}
    (alive : session.tree.live id = some node)
    (stored : session.document.get? node.content = some content) :
    node.content = session.document.root ∨ content.isHidden = false := by
  obtain ⟨entry, listed, same, -, -⟩ := settled.aligned.entry settled.sound alive
  by_cases top : node.content = session.document.root
  · exact .inl top
  · rw [← same] at stored top
    exact .inr ((Document.entered_layout settled.wellFormed listed).shown top stored)

theorem Settled.keepsScopes (derived : session.Derived) : session.KeepsScopes := by
  obtain ⟨version, current⟩ := settled.current_eq derived
  have sound : session.source.tree.Sound := settled.sound
  have mirrored {id : NodeId} {node : AccessibleNode} (alive : session.tree.live id = some node) :
      node.MirrorsData session.document := settled.mirrorsData derived alive
  have scopeOf {id : NodeId} {node : AccessibleNode}
      (alive : session.source.tree.live id = some node) :
      node.scope = session.source.document.scopeOf node.content := by
    obtain ⟨content, -, -, scope, -⟩ := mirrored alive
    exact scope
  have targets (relation : Relation) (id : NodeId) :
      session.history.current.targets relation id =
        (session.source.table relation).targets id := by
    rw [current]
    exact Derivation.Source.targets_snapshot session.source relation id
  refine ⟨?_, ?_, ?_, ?_, ?_⟩
  · intro id target listed
    rw [targets] at listed
    exact settled.sharesScope (Derivation.Source.sharesScope_of_links sound listed)
  · intro id target listed
    rw [targets] at listed
    obtain ⟨node, targetNode, alive, aliveTarget, encloses⟩ :=
      Derivation.Source.encloses_of_details sound scopeOf listed
    exact ⟨_, _, settled.get?_current alive, settled.get?_current aliveTarget, encloses⟩
  · intro id label
    rw [targets]
    exact Derivation.Source.mem_labels sound
  · intro origin id label labels reference
    exact settled.sharesScope (labels.sharesScope sound reference)
  · intro id target info invoker listed known storedInvoker nowhere
    rw [targets] at listed
    obtain ⟨node, alive⟩ := Derivation.Source.live_of_targets sound listed
    rw [settled.get?_current alive, Option.some.injEq] at known
    subst known
    obtain ⟨invoker', storedInvoker', attributes, -, -⟩ := mirrored alive
    cases storedInvoker'.symm.trans storedInvoker
    rw [← attributes] at nowhere
    obtain ⟨apart, targetNode, aliveTarget, isPopover⟩ :=
      Derivation.Source.popover_of_details sound alive nowhere listed
    obtain ⟨content, stored, attributesTarget, -, -⟩ := mirrored aliveTarget
    rw [attributesTarget] at isPopover
    refine ⟨?_, _, content, settled.get?_current aliveTarget, stored, isPopover, ?_⟩
    · rw [settled.nextSibling?_current alive]
      exact apart
    · refine (settled.isHidden_of_live aliveTarget stored).imp_right fun shown => ?_
      rw [ContentNode.isHidden, isPopover, Bool.or_eq_false_iff, Bool.true_and,
        Bool.not_eq_false'] at shown
      exact shown.2

end Settled

/-- The snapshots of a run keep to the scopes of the document as it is when they are committed. -/
theorem run_keepsScopes {subtree : Subtree} (distinct : subtree.Distinct)
    (plain : subtree.kind ≠ .shadowRoot) {capacity : Nat} {verifies : Bool} {session : Session}
    (started : Session.start subtree capacity verifies = .ok session)
    {batches : List (List Change)}
    (sound : ∀ changes ∈ batches, ∀ change ∈ changes, change.Sound subtree.handle) (count : Nat) :
    (session.upTo batches count).KeepsScopes :=
  have begun := begun_of_start distinct started
  (begun.settled_upTo sound count).keepsScopes (begun.derived_upTo sound plain count)

/-- A page with a button in a shadow tree that holds a popover outside. -/
def hostedPage : Subtree :=
  { Subtree.single ⟨0⟩ .document with
    children :=
      [{ Subtree.element ⟨1⟩ "div" with
          children :=
            [{ Subtree.single ⟨2⟩ .shadowRoot with
                children :=
                  [{ Subtree.element ⟨3⟩ "button" with popoverTarget := some ⟨4⟩ }] }] },
        (Subtree.element ⟨4⟩ "div").withAttribute "popover" ""] }

/-- The popover shows. -/
def showing : List Change :=
  [.popoverShowing ⟨4⟩ true]

/-- The button has the popover as its details then, and the two are not in one scope. -/
theorem run_keepsScopes_showing :
    ∃ session, Session.start hostedPage 4 true = .ok session ∧
      (session.upTo [showing] 1).KeepsScopes ∧
      (session.committed [showing] 1).targets .details ⟨3, 1⟩ = [⟨4, 1⟩] ∧
      ¬ (session.committed [showing] 1).SharesScope ⟨3, 1⟩ ⟨4, 1⟩ := by
  have distinct : hostedPage.Distinct := by decide
  have plain : hostedPage.kind ≠ .shadowRoot := by decide
  have sound : ∀ changes ∈ [showing], ∀ change ∈ changes, change.Sound hostedPage.handle := by
    decide
  have told : (Session.start hostedPage 4 true).map (fun session =>
      let snapshot := session.committed [showing] 1
      (snapshot.targets .details ⟨3, 1⟩, (snapshot.get? ⟨3, 1⟩).map NodeInfo.scope,
        (snapshot.get? ⟨4, 1⟩).map NodeInfo.scope)) =
      .ok ([⟨4, 1⟩], some (.shadow ⟨2⟩), some .document) := by decide +kernel
  obtain ⟨session, -, -, -, -, starts, -⟩ := start_done distinct 4
  rw [starts] at told
  obtain ⟨details, scopes⟩ := Prod.mk.inj (Except.ok.inj told)
  obtain ⟨inner, outer⟩ := Prod.mk.inj scopes
  refine ⟨_, starts true, run_keepsScopes distinct plain (starts true) sound 1, details, ?_⟩
  rintro ⟨info, otherInfo, known, knownOther, same⟩
  rw [known, Option.map_some, Option.some.injEq] at inner
  rw [knownOther, Option.map_some, Option.some.injEq, same, inner] at outer
  cases outer

end Session

end Accessibility
