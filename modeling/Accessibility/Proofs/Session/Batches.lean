import Accessibility.Proofs.Session.Clearing
import Accessibility.Proofs.Session.Continuity
import Accessibility.Proofs.Session.Touching
import Accessibility.Session.Run

/-!
A batch never fails. It takes a settled session to a settled one, commits the snapshot of the new
tree with all its relations, and dispatches the notices that lead there; the relations that it does
not compare are those that it cannot have changed.
-/

set_option autoImplicit false

namespace Accessibility

/-! ### Stale relations -/

theorem Change.closed_stale (change : Change) : change.stale.Closed := by
  cases change with
  | inserted parent index subtree => exact RelationSet.closed_none
  | removed node => exact RelationSet.closed_none
  | popoverShowing node showing => exact RelationSet.closed_none
  | popoverTarget node target =>
    intro relation reverse paired
    cases relation <;> cases paired <;> rfl
  | _ node name value => exact fun _ _ paired => RelationSet.contains_readFrom_reverse paired name

theorem Effects.closed_stale (document : Document) (changes : List Change) :
    (ofChanges document changes).stale.Closed := by
  have folded (changes : List Change) (effects : Effects) (closed : effects.stale.Closed) :
      (changes.foldl add effects).stale.Closed := by
    induction changes generalizing effects with
    | nil => exact closed
    | cons change rest ih => exact ih _ (closed.union change.closed_stale)
  exact folded changes (start document) RelationSet.closed_none

namespace Session

/-! ### One batch -/

/-- What a batch has made of a settled session before that is published, and which relations it has
made stale. -/
structure Edited (session edited : Session) (changes : List Change) (stale : RelationSet) :
    Prop where
  document : edited.document = session.document.afterAll changes
  history : edited.history = session.history
  sound : edited.tree.Sound
  root : edited.tree.root = session.tree.root
  aligned : Alignment.Aligned edited.document edited.tree
  closed : stale.Closed
  carried : session.document.isShadowRoot session.document.root = false →
    ∀ {relation : Relation}, stale.contains relation = false →
      Derivation.Source.Renamed id relation session.source edited.source
  survives : ∀ {id : NodeId} {node : AccessibleNode}, session.tree.live id = some node →
    ((∃ node', edited.tree.live id = some node') ↔
      node.content ∈ edited.document.layout.map Exposed.handle ∧
        ¬ session.tree.Covers (Effects.ofChanges session.document changes).replaced id)

/-- A node outlasts an alignment if its content is exposed and nothing was taken over at or above
it. -/
theorem survives_aligned {document : Document} {handles : List Handle} {before middle after : Tree}
    {allowed : Handle → Kind → Prop} (cleared : Cleared handles before middle)
    (clearing : Tree.Continues allowed before middle)
    (aligning : Tree.Continues allowed middle after) (soundAfter : after.Sound)
    (aligned : Alignment.Aligned document after)
    (keeps : ∀ {handle : Handle} {id : NodeId}, handle ∈ document.layout.map Exposed.handle →
      middle.nodeFor? handle = some id → after.nodeFor? handle = some id)
    {id : NodeId} {node : AccessibleNode} (alive : before.live id = some node) :
    (∃ node', after.live id = some node') ↔
      node.content ∈ document.layout.map Exposed.handle ∧ ¬ before.Covers handles id := by
  have issued : before.nodes.Issued id := Tree.issued_of_live alive
  constructor
  · rintro ⟨node', alive'⟩
    constructor
    · obtain ⟨old, aliveOld, same, -⟩ := (clearing.trans aligning).live_of_issued alive' issued
      rw [alive] at aliveOld
      cases aliveOld
      rw [← same]
      exact aligned.only alive'
    · intro covered
      obtain ⟨between, aliveBetween, -⟩ := aligning.live_of_issued alive' (clearing.issued issued)
      rw [cleared.gone covered] at aliveBetween
      cases aliveBetween
  · rintro ⟨exposed, apart⟩
    obtain ⟨between, aliveBetween, same⟩ := cleared.kept alive apart
    have known := cleared.sound.nodeFor?_of_live aliveBetween
    rw [same] at known
    obtain ⟨node', alive', -⟩ := soundAfter.live_of_nodeFor? (keeps exposed known)
    exact ⟨node', alive'⟩

/-- A batch that alters what is exposed clears what it takes over, aligns the tree with the edited
document, and makes all relations stale. -/
theorem apply_realigned {session : Session} (settled : session.Settled) {changes : List Change}
    (sound : ∀ change ∈ changes, change.Sound session.document.root)
    (alters : (Effects.ofChanges session.document changes).altersExposure = true) :
    ∃ edited, session.Edited edited changes .every ∧ ∀ verifies hub,
      (session.rewire verifies hub).apply changes =
        .done ((edited.rewire verifies hub).publish .every)
          ((edited.rewire verifies hub).publish .every).history.version := by
  obtain ⟨top, topNode, atTop, known, topAlive, atRoot⟩ := settled.rooted
  have document := Effects.document_ofChanges session.document changes
  have below : session.document.root ∉ (Effects.ofChanges session.document changes).replaced :=
    Effects.root_not_replaced sound
  have cleared := dismissAll_done settled.sound (Effects.ofChanges session.document changes).replaced
  have spared := not_covers_root settled.sound atTop known below
  obtain ⟨topAfter, aliveTop, sameTop⟩ := cleared.kept topAlive spared
  have knownAfter : ((Effects.ofChanges session.document changes).replaced.foldl dismissNodeOf
      session.tree).nodeFor? (session.document.afterAll changes).root = some top := by
    rw [Document.root_afterAll, ← atRoot, ← sameTop]
    exact cleared.sound.nodeFor?_of_live aliveTop
  obtain ⟨tree, alignment, ran, soundTree, aligned, root, keeps⟩ :=
    Alignment.run_done (settled.wellFormed.afterAll sound) cleared.sound
      (cleared.root atTop spared) knownAfter
  have aligning := Alignment.continues_run (.refl cleared.sound.tidy)
    (session.document.afterAll changes).allows_kind?
  rw [ran] at aligning
  let edited : Session := { session with
    document := session.document.afterAll changes, tree, lastAlignment := some alignment }
  refine ⟨edited, ⟨rfl, rfl, soundTree, ?_, aligned, RelationSet.closed_every, ?_,
    fun alive => ?_⟩, fun verifies hub => ?_⟩
  · rw [atTop, ← cleared.root atTop spared]
    exact root
  · intro _ relation fresh
    rw [RelationSet.contains_every] at fresh
    cases fresh
  · exact survives_aligned cleared (continues_dismissAll (.refl settled.sound.tidy) _) aligning
      soundTree aligned keeps alive
  · unfold Session.apply
    dsimp only [rewire]
    rw [if_pos alters, document, ran]
    rfl

/-- Any other batch leaves the nodes where they are and brings those up to date whose content it
changes. -/
theorem apply_synced {session : Session} (settled : session.Settled) {changes : List Change}
    (plain : (Effects.ofChanges session.document changes).altersExposure = false) :
    ∃ edited, session.Edited edited changes (Effects.ofChanges session.document changes).stale ∧
      Tree.Synced (session.document.afterAll changes)
        (Effects.ofChanges session.document changes).touched session.tree edited.tree ∧
      ∀ verifies hub,
        (session.rewire verifies hub).apply changes =
          .done ((edited.rewire verifies hub).publish
              (Effects.ofChanges session.document changes).stale)
            ((edited.rewire verifies hub).publish
              (Effects.ofChanges session.document changes).stale).history.version := by
  have document := Effects.document_ofChanges session.document changes
  have quiet := Effects.quiet_ofChanges plain
  have alike := Effects.alike_afterAll plain
  let edited : Session := { session with
    document := session.document.afterAll changes
    tree := (Effects.ofChanges session.document changes).touched.foldl
      (syncNodeOf (session.document.afterAll changes)) session.tree }
  have synced := settled.sound.synced (session.document.afterAll changes)
    (Effects.ofChanges session.document changes).touched
  have aligned := synced.stillAligned alike settled.wellFormed settled.aligned
  refine ⟨edited,
    ⟨rfl, rfl, synced.soundAfter, synced.root, aligned, Effects.closed_stale session.document changes,
      fun plain _ fresh => synced.renamed alike settled.aligned
        (fun alive => synced.scope alike settled.wellFormed settled.aligned plain alive) fresh,
      fun alive => ?_⟩, synced, fun verifies hub => ?_⟩
  · have aliveAfter := synced.live_of_live alive
    have exposed := aligned.only aliveAfter
    rw [(AccessibleNode.sameLinks_synced _ _ _).content] at exposed
    rw [quiet.replaced]
    exact iff_of_true ⟨_, aliveAfter⟩ ⟨exposed, fun ⟨handle, listed, _⟩ => nomatch listed⟩
  · unfold Session.apply
    dsimp only [rewire]
    rw [if_neg (by rw [plain]; exact Bool.false_ne_true), quiet.replaced, List.foldl_nil, document]

/-- A batch of sound changes brings the tree in line with the edited document, and publishes it. -/
theorem apply_edited {session : Session} (settled : session.Settled) {changes : List Change}
    (sound : ∀ change ∈ changes, change.Sound session.document.root) :
    ∃ edited stale, session.Edited edited changes stale ∧ ∀ verifies hub,
      (session.rewire verifies hub).apply changes =
        .done ((edited.rewire verifies hub).publish stale)
          ((edited.rewire verifies hub).publish stale).history.version := by
  cases alters : (Effects.ofChanges session.document changes).altersExposure with
  | true =>
    obtain ⟨edited, edits, applied⟩ := apply_realigned settled sound alters
    exact ⟨edited, .every, edits, applied⟩
  | false =>
    obtain ⟨edited, edits, -, applied⟩ := apply_synced settled alters
    exact ⟨edited, _, edits, applied⟩

/-- What a batch makes of a settled session, and which relations it compares. -/
structure Advanced (session next : Session) (changes : List Change) (compared : RelationSet) :
    Prop where
  settled : next.Settled
  document : next.document = session.document.afterAll changes
  version : next.history.version = session.history.version + 1
  root : next.tree.root = session.tree.root
  carried : ∀ relation, compared.contains relation = false →
    next.history.current.edges.get relation = session.history.current.edges.get relation
  survives : ∀ {id : NodeId} {node : AccessibleNode}, session.tree.live id = some node →
    ((∃ node', next.tree.live id = some node') ↔
      node.content ∈ next.document.layout.map Exposed.handle ∧
        ¬ session.tree.Covers (Effects.ofChanges session.document changes).replaced id)

/-- A batch of sound changes takes a settled session to the next version, and the same batch does the
same whatever the hub sends out. -/
theorem apply_advanced {session : Session} (settled : session.Settled) {changes : List Change}
    (sound : ∀ change ∈ changes, change.Sound session.document.root) :
    ∃ compared, session.Advanced (session.apply changes).state changes compared ∧ ∀ hub,
      (session.rewire session.verifies hub).apply changes =
        .done ((session.apply changes).state.rewire session.verifies
            (hub.dispatch (session.history.current.noticesTo
              (session.apply changes).state.history.current compared)))
          (session.history.version + 1) := by
  obtain ⟨edited, stale, edits, applied⟩ := apply_edited settled sound
  obtain ⟨edges, compared, -, -, got, published⟩ :=
    publish_eq edits.sound edits.closed session.verifies
  have applied (hub : Hub) := applied session.verifies hub
  simp only [published, edits.history] at applied
  have state := congrArg Outcome.state (applied session.hub)
  rw [show session.rewire session.verifies session.hub = session from rfl] at state
  dsimp only [Outcome.done] at state
  refine ⟨compared, ?_, fun hub => ?_⟩
  · rw [state]
    refine ⟨⟨?_, edits.sound.retirePending, edits.aligned.retirePending edits.sound, _, _, rfl⟩,
      edits.document, rfl, ?_, ?_, fun alive => ?_⟩
    · dsimp only
      rw [edits.document]
      exact settled.wellFormed.afterAll sound
    · exact (Tree.root_retirePending edits.sound).trans edits.root
    · intro relation fresh
      have carried := got relation
      rw [if_neg (by rw [fresh]; exact Bool.false_ne_true), edits.history] at carried
      exact carried
    · rw [← edits.survives alive, ← Tree.live_retirePending edited.tree]
  · rw [applied, state]
    rfl

/-- Where scopes are told from the document, all relations stay as if they had just been derived, and
checks of the snapshots make no difference. -/
theorem Derived.apply {session : Session} (derived : session.Derived) (settled : session.Settled)
    {changes : List Change} (sound : ∀ change ∈ changes, change.Sound session.document.root) :
    (session.apply changes).state.Derived ∧ ∃ notices, ∀ verifies hub,
      (session.rewire verifies hub).apply changes =
        .done ((session.apply changes).state.rewire verifies (hub.dispatch notices))
          (session.history.version + 1) := by
  obtain ⟨edited, stale, edits, applied⟩ := apply_edited settled sound
  have carried : edited.source.renew stale edited.history.current.edges = edited.source.tables := by
    rw [edits.history, derived.edges]
    refine Derivation.Source.renew_eq fun relation fresh => ?_
    rw [Derivation.Source.isRenewed_eq edits.closed] at fresh
    exact edits.carried derived.plain fresh
  simp only [publish_of_carried edits.sound carried, edits.history] at applied
  have state := congrArg Outcome.state (applied session.verifies session.hub)
  rw [show session.rewire session.verifies session.hub = session from rfl] at state
  dsimp only [Outcome.done] at state
  refine ⟨?_, session.history.current.noticesTo
    (session.apply changes).state.history.current stale, fun verifies hub => ?_⟩
  · rw [state]
    refine ⟨?_, rfl⟩
    have plain := derived.plain
    rw [Document.isShadowRoot] at plain ⊢
    dsimp only
    rw [edits.document, Document.root_afterAll,
      Document.kind?_root_afterAll settled.wellFormed sound, plain]
  · rw [applied, state]
    rfl

end Session

end Accessibility
