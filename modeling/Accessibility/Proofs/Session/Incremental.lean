import Accessibility.Proofs.Document.Edits
import Accessibility.Proofs.Document.Readback
import Accessibility.Proofs.Session.Runs
import Accessibility.Proofs.Snapshot.Views

/-!
A session that has been brought up to date batch by batch exposes what a new session of the same
document does. Its nodes have other keys; but told by content, the two snapshots are the same, with
all relations, also those that the last batches did not derive anew.
-/

set_option autoImplicit false

namespace Accessibility

namespace Snapshot

/-- Two snapshots tell the same of the same content, and neither loses anything when its nodes are
told by their content. -/
structure SameExposure (left right : Snapshot) : Prop where
  faithfulLeft : left.Faithful
  faithfulRight : right.Faithful
  root : left.root.bind left.contentOf? = right.root.bind right.contentOf?
  view : ∀ content : Handle, left.view? content = right.view? content

theorem Faithful.versioned {snapshot : Snapshot} (faithful : snapshot.Faithful) (version : Version) :
    ({ snapshot with version := version } : Snapshot).Faithful :=
  ⟨faithful.own, faithful.parent, faithful.children, faithful.targets⟩

end Snapshot

namespace Session

variable {session : Session} {allowed : Handle → Kind → Prop}

/-- Documents and trees keep to the kinds that are allowed, as long as what is inserted does. -/
theorem allows_run (settled : session.Settled) {batches : List (List Change)}
    (sound : ∀ changes ∈ batches, ∀ change ∈ changes, change.Sound session.document.root)
    (inserted : ∀ changes ∈ batches, ∀ change ∈ changes, change.Allows allowed)
    (document : session.document.Allows allowed) (tree : session.tree.Allows allowed) :
    (session.run batches).document.Allows allowed ∧ (session.run batches).tree.Allows allowed := by
  induction batches generalizing session with
  | nil => exact ⟨document, tree⟩
  | cons changes rest ih =>
    obtain ⟨soundHere, soundRest⟩ := List.forall_mem_cons.mp sound
    obtain ⟨insertedHere, insertedRest⟩ := List.forall_mem_cons.mp inserted
    have edited := document.afterAll settled.wellFormed soundHere insertedHere
    have grown := continues_apply (.refl settled.sound.tidy) edited
    refine ih (settled.apply soundHere) ?_ insertedRest ?_ (grown.allows tree)
    · rw [document_apply settled soundHere, Document.root_afterAll]
      exact soundRest
    · rw [document_apply settled soundHere]
      exact edited

/-- Settled sessions of one document expose the same content in the same way, if no handle has two
kinds. -/
theorem Settled.sameExposure {other : Session} (settled : session.Settled)
    (derived : session.Derived) (settledOther : other.Settled) (derivedOther : other.Derived)
    (same : other.document = session.document)
    {kinds : Handle → Kind} (kindsHere : session.tree.Allows (KindOf kinds))
    (kindsThere : other.tree.Allows (KindOf kinds)) :
    session.history.current.SameExposure other.history.current := by
  obtain ⟨version, current⟩ := settled.current_eq derived
  obtain ⟨version', current'⟩ := settledOther.current_eq derivedOther
  have alignedOther := settledOther.aligned
  rw [same] at alignedOther
  have renamed := settled.aligned.renamed alignedOther settled.sound settledOther.sound derived.plain
    kindsHere kindsThere
  have views : Derivation.Source.SameView _ session.source other.source := ⟨renamed, same⟩
  have faithful := session.source.faithful_snapshot settled.sound
  have faithfulOther := other.source.faithful_snapshot settledOther.sound
  rw [current, current']
  exact {
    faithfulLeft := faithful.versioned version
    faithfulRight := faithfulOther.versioned version'
    root := views.rootContent.symm
    view := fun content => (views.view? content).symm }

/-- After any batches the document can be read back, and a session that begins with it exposes the
same content in the same way. -/
theorem run_sameExposure_start {subtree : Subtree} (distinct : subtree.Distinct)
    (plain : subtree.kind ≠ .shadowRoot) {kinds : Handle → Kind}
    (initial : subtree.Allows (KindOf kinds)) {capacity : Nat} {verifies : Bool}
    (started : Session.start subtree capacity verifies = .ok session)
    {batches : List (List Change)}
    (sound : ∀ changes ∈ batches, ∀ change ∈ changes, change.Sound subtree.handle)
    (inserted : ∀ changes ∈ batches, ∀ change ∈ changes, change.Allows (KindOf kinds)) :
    ∃ readBack, (session.run batches).document.toSubtree? = some readBack ∧
      Document.ofSubtree readBack = (session.run batches).document ∧
      ∀ capacity' verifies', ∃ fresh,
        Session.start readBack capacity' verifies' = .ok fresh ∧
        (session.run batches).history.current.SameExposure fresh.history.current := by
  have begun := begun_of_start distinct started
  have settled := begun.settled_run sound
  have derived := begun.derived_run sound plain
  have documentStart : session.document.Allows (KindOf kinds) := by
    rw [begun.document]
    exact Document.allows_ofSubtree distinct initial
  have treeStart : session.tree.Allows (KindOf kinds) := by
    intro id node alive
    obtain ⟨content, stored, same⟩ := Option.map_eq_some_iff.mp (begun.kinds alive)
    rw [← same]
    exact documentStart _ _ stored
  obtain ⟨kindsDocument, kindsTree⟩ :=
    allows_run begun.settled (begun.sound_root sound) inserted documentStart treeStart
  obtain ⟨readBack, read, atRoot, distinctBack, same⟩ :=
    Document.toSubtree?_eq settled.wellFormed
  have plainBack : readBack.kind ≠ .shadowRoot := by
    have stored : (session.run batches).document.get? readBack.handle = some (readBack.node none) := by
      rw [← same, Document.get?_ofSubtree distinctBack]
      exact readBack.topmost_entry none
    have plain := derived.plain
    rw [← atRoot] at plain
    intro kind
    rw [(Document.isShadowRoot_of_get? stored).mpr kind] at plain
    cases plain
  refine ⟨readBack, read, same, fun capacity' verifies' => ?_⟩
  obtain ⟨fresh, settledFresh, derivedFresh, documentFresh, -, starts, kindsFresh⟩ :=
    start_done distinctBack capacity'
  rw [same] at documentFresh
  refine ⟨_, starts verifies', settled.sameExposure derived
    (settledFresh.rewire verifies' fresh.hub) ((derivedFresh plainBack).rewire verifies' fresh.hub)
    documentFresh kindsTree fun {id node} alive => ?_⟩
  obtain ⟨content, stored, kind⟩ := Option.map_eq_some_iff.mp (kindsFresh alive)
  rw [documentFresh] at stored
  rw [← kind]
  exact kindsDocument _ _ stored

/-- The kinds of the nodes that `nestedPage` has at any time. -/
def nestedKinds (handle : Handle) : Kind :=
  if handle = ⟨0⟩ then .document
  else if handle = ⟨1⟩ then .element "div"
  else if handle = ⟨2⟩ then .element "p"
  else if handle = ⟨3⟩ then .element "main"
  else .text

/-- Takeovers, a change of an attribute alone, and a change of unknown content. -/
def nestedBatches : List (List Change) :=
  [Document.nestedChanges, [.attribute ⟨3⟩ "id" (some "content")], [.removed ⟨9⟩]]

theorem run_sameExposure_start_nestedBatches :
    ∃ session fresh readBack,
      Session.start Document.nestedPage 4 true = .ok session ∧
      (session.run nestedBatches).document.toSubtree? = some readBack ∧
      Session.start readBack 4 true = .ok fresh ∧
      (session.run nestedBatches).history.current.SameExposure fresh.history.current := by
  have distinct : Document.nestedPage.Distinct := by decide
  have kinds : Document.nestedPage.Allows (KindOf nestedKinds) := by decide
  have sound : ∀ changes ∈ nestedBatches, ∀ change ∈ changes,
      change.Sound Document.nestedPage.handle := by decide
  have inserted : ∀ changes ∈ nestedBatches, ∀ change ∈ changes,
      change.Allows (KindOf nestedKinds) := by decide
  have plain : Document.nestedPage.kind ≠ .shadowRoot := by decide
  obtain ⟨session, -, -, -, -, starts, -⟩ := start_done distinct 4
  obtain ⟨readBack, read, -, rebuilds⟩ :=
    run_sameExposure_start distinct plain kinds (starts true) sound inserted
  obtain ⟨fresh, startedFresh, same⟩ := rebuilds 4 true
  exact ⟨_, fresh, readBack, starts true, read, startedFresh, same⟩

end Session

end Accessibility
