import Accessibility.Proofs.Session.Runs

/-!
The relations of a session one by one. A batch derives some of them anew, the stale ones and at times
more, and carries the others over. It carries none over unless it leaves exposure as it is, and then it
changes no link between nodes. All that is so whatever the root is.
-/

set_option autoImplicit false

namespace Accessibility

/-! ### Trees with the same links -/

namespace Tree.Synced

variable {document : Document} {touched : List Handle} {tree after : Tree}

theorem childrenOf (synced : Tree.Synced document touched tree after) :
    after.live.childrenOf = tree.live.childrenOf := by
  funext id
  rw [Live.childrenOf, Live.childrenOf, synced.lives, Option.map_map]
  refine congrArg (Option.map · (tree.live id)) (funext fun node => ?_)
  exact (node.sameLinks_synced document touched).children

theorem preorder (synced : Tree.Synced document touched tree after) :
    after.preorder = tree.preorder := by
  unfold Tree.preorder
  rw [synced.root]
  cases atTop : tree.root with
  | none => rfl
  | some top =>
    obtain ⟨topNode, aliveTop, -⟩ := synced.soundBefore.forest.root_live atTop
    dsimp only
    rw [synced.soundAfter.below_eq (synced.live_of_live aliveTop) (Nat.le_max_right tree.size _),
      synced.soundBefore.below_eq aliveTop (Nat.le_max_left _ after.size), synced.childrenOf]

theorem properAncestors (synced : Tree.Synced document touched tree after) {id : NodeId}
    {node : AccessibleNode} (alive : tree.live id = some node) :
    after.properAncestors id = tree.properAncestors id := by
  have links (node : AccessibleNode) := node.sameLinks_synced document touched
  refine synced.soundBefore.parent_induction (motive := fun id =>
    after.properAncestors id = tree.properAncestors id) ?_ ?_ alive
  · intro top topNode aliveTop parentless
    rw [Sound.properAncestors_of_parentless aliveTop parentless,
      Sound.properAncestors_of_parentless (synced.live_of_live aliveTop)
        ((links topNode).parent.trans parentless)]
  · intro parent child above childNode _ aliveChild linked ih
    rw [synced.soundBefore.properAncestors_of_parent aliveChild linked,
      synced.soundAfter.properAncestors_of_parent (synced.live_of_live aliveChild)
        ((links childNode).parent.trans linked), ih]

/-- The nearest ancestor with a property, if the new data do not decide which nodes have it. -/
theorem nearest? (synced : Tree.Synced document touched tree after) {id : NodeId}
    {node : AccessibleNode} (alive : tree.live id = some node) {holds : AccessibleNode → Bool}
    (same : ∀ {id : NodeId} {node : AccessibleNode}, tree.live id = some node →
      holds (node.synced document touched) = holds node) :
    after.nearest? id holds = tree.nearest? id holds := by
  rw [Tree.nearest?, Tree.nearest?, synced.properAncestors alive]
  refine List.find?_congr fun upper above => ?_
  obtain ⟨upperNode, aliveUpper⟩ := synced.soundBefore.live_of_mem_properAncestors alive above
  rw [get?_of_live (synced.live_of_live aliveUpper), get?_of_live aliveUpper, Option.any_some,
    Option.any_some, same aliveUpper]

/-- Retired nodes were pending, and no live node is told by them. -/
theorem retirePending (synced : Tree.Synced document touched tree after) :
    Tree.Synced document touched tree after.retirePending where
  soundBefore := synced.soundBefore
  soundAfter := synced.soundAfter.retirePending
  root := (root_retirePending synced.soundAfter).trans synced.root
  lives := by
    rw [live_retirePending]
    exact synced.lives

end Tree.Synced

namespace Session

variable {session : Session} {changes : List Change}

/-! ### The first version -/

theorem edges_begun {document : Document} {tree : Tree} (sound : tree.Sound) (capacity : Nat)
    (verifies : Bool) (alignment : Alignment) :
    (begun document capacity verifies tree alignment).history.current.edges =
      (Derivation.Source.ofTree tree document).tables := by
  rw [begun_eq sound]
  rfl

theorem edges_of_start {subtree : Subtree} {capacity : Nat} {verifies : Bool}
    (started : Session.start subtree capacity verifies = .ok session) (sound : session.tree.Sound) :
    session.history.current.edges = session.source.tables := by
  rw [start_eq] at started
  dsimp only at started
  split at started
  · cases started
  rename_i node stored
  cases created : (Tree.empty.createRoot (Document.ofSubtree subtree).root
      ⟨node.kind, node.attributes, .document⟩).answer with
  | error fault =>
    rw [created] at started
    cases started
  | ok root =>
    rw [created] at started
    dsimp only [bind, Except.bind] at started
    split at started
    · cases started
    · cases started
      exact edges_begun sound capacity verifies _

/-! ### Batches -/

/-- What holds when a batch carries a relation over: it leaves exposure as it is and changes nothing that
the relation is read from, and nodes keep their places. -/
structure CarriesOver (session next : Session) (changes : List Change) (relation : Relation) :
    Prop where
  edges : next.history.current.edges.get relation = session.history.current.edges.get relation
  quiet : (Effects.ofChanges session.document changes).altersExposure = false
  stale : (Effects.ofChanges session.document changes).stale.contains relation = false
  synced : Tree.Synced (session.document.afterAll changes)
    (Effects.ofChanges session.document changes).touched session.tree next.tree

/-- A batch derives some relations anew, each with its reverse, and carries the others over. -/
structure Carries (session next : Session) (changes : List Change) (compared : RelationSet) :
    Prop where
  closed : compared.Closed
  anew : ∀ {relation : Relation}, compared.contains relation = true →
    next.history.current.edges.get relation = next.source.table relation
  carried : ∀ {relation : Relation}, compared.contains relation = false →
    session.CarriesOver next changes relation

/-- What becomes of each relation when an edited session is published. -/
theorem Edited.published {edited : Session} {stale : RelationSet}
    (edits : session.Edited edited changes stale)
    (applied : ∀ verifies hub, (session.rewire verifies hub).apply changes =
      .done ((edited.rewire verifies hub).publish stale)
        ((edited.rewire verifies hub).publish stale).history.version) :
    ∃ compared : RelationSet, compared.Closed ∧
      (∀ relation, stale.contains relation = true → compared.contains relation = true) ∧
      (session.apply changes).state.tree = edited.tree.retirePending ∧
      ∀ relation, (session.apply changes).state.history.current.edges.get relation =
        if compared.contains relation then (session.apply changes).state.source.table relation
        else session.history.current.edges.get relation := by
  obtain ⟨edges, compared, closed, among, got, published⟩ :=
    publish_eq edits.sound edits.closed session.verifies
  have state := congrArg Outcome.state (applied session.verifies session.hub)
  rw [published, show session.rewire session.verifies session.hub = session from rfl] at state
  dsimp only [Outcome.done] at state
  have retired : edited.retired.tables = edited.source.tables :=
    Derivation.Source.tables_retirePending edits.sound edited.document
  have table (relation : Relation) :
      edited.retired.table relation = edited.source.table relation := by
    have same := congrArg (·.get relation) retired
    simpa only [Derivation.Source.tables, Relation.Family.get_ofFn] using same
  refine ⟨compared, closed, among, ?_, fun relation => ?_⟩
  · rw [state]
  · rw [state, ← edits.history]
    exact (got relation).trans (if_congr Iff.rfl (table relation).symm rfl)

theorem apply_carries (settled : session.Settled)
    (sound : ∀ change ∈ changes, change.Sound session.document.root) :
    ∃ compared, session.Carries (session.apply changes).state changes compared := by
  cases alters : (Effects.ofChanges session.document changes).altersExposure with
  | true =>
    obtain ⟨edited, edits, applied⟩ := apply_realigned settled sound alters
    obtain ⟨compared, closed, among, -, got⟩ := edits.published applied
    -- A realigned tree makes every relation stale, so there is none left to carry over.
    have all (relation : Relation) : compared.contains relation = true :=
      among relation (RelationSet.contains_every relation)
    refine ⟨compared, closed, fun fresh => (got _).trans (if_pos fresh), fun {relation} fresh => ?_⟩
    rw [all relation] at fresh
    cases fresh
  | false =>
    obtain ⟨edited, edits, synced, applied⟩ := apply_synced settled alters
    obtain ⟨compared, closed, among, tree, got⟩ := edits.published applied
    refine ⟨compared, closed, fun fresh => (got _).trans (if_pos fresh), fun {relation} fresh =>
      ⟨(got relation).trans (if_neg (fresh ▸ Bool.false_ne_true)), alters, ?_, ?_⟩⟩
    · rw [← Bool.not_eq_true]
      intro isStale
      rw [among relation isStale] at fresh
      cases fresh
    · rw [tree]
      exact synced.retirePending

/-- The document keeps what a relation is read from that is carried over. -/
theorem CarriesOver.alike {next : Session} {relation : Relation}
    (carried : session.CarriesOver next changes relation) :
    Document.Alike (ContentNode.Renewable (Effects.ofChanges session.document changes).stale
        (Effects.ofChanges session.document changes).touched) session.document
      (session.document.afterAll changes) :=
  Effects.alike_afterAll carried.quiet

end Session

end Accessibility
