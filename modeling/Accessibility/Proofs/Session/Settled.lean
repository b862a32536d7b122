import Accessibility.Proofs.Session.Continuity
import Accessibility.Proofs.Session.Rebuilding
import Accessibility.Proofs.Snapshot.Consistency

/-!
What holds of a session between batches: the tree is in line with the document, and the current
snapshot tells the tree, with all its relations as if they had just been derived. Beginning a session
brings this about, and a check of the snapshot never finds fault with it.
-/

set_option autoImplicit false

namespace Accessibility

-- A name for the one proof in a source, so that the definitions made from it hold none of their own.
theorem Derivation.Source.preorder_self (tree : Tree) : tree.preorder = tree.preorder :=
  rfl

/-- What relations are derived from, given a tree and its document. -/
def Derivation.Source.ofTree (tree : Tree) (document : Document) : Source :=
  { tree, document, preorder := tree.preorder, preorder_eq := preorder_self tree }

/-- What the relations of a session are derived from. -/
def Session.source (session : Session) : Derivation.Source :=
  .ofTree session.tree session.document

/-- The invariant of a session between batches. -/
structure Session.Settled (session : Session) : Prop where
  wellFormed : session.document.WellFormed
  sound : session.tree.Sound
  aligned : Alignment.Aligned session.document session.tree
  current : ∃ version edges,
    session.history.current = { session.tree.snapshot edges with version := version }

/-- The current relations are as if they had just been derived. If the root is a shadow root, they need
not be: then scopes are not always told from the document, so they can change where no relation is
stale. -/
structure Session.Derived (session : Session) : Prop where
  plain : session.document.isShadowRoot session.document.root = false
  edges : session.history.current.edges = session.source.tables

namespace Session.Settled

variable {session : Session}

/-- The root of the tree stands for the root of the document. -/
theorem rooted (settled : session.Settled) : ∃ root node, session.tree.root = some root ∧
    session.tree.nodeFor? session.document.root = some root ∧
    session.tree.live root = some node ∧ node.content = session.document.root := by
  obtain ⟨root, atTop, known⟩ := settled.aligned.top
  obtain ⟨node, alive, same⟩ := settled.sound.live_of_nodeFor? known
  exact ⟨root, node, atTop, known, alive, same⟩

/-- The current snapshot tells the tree with all its relations. -/
theorem current_eq (settled : session.Settled) (derived : session.Derived) :
    ∃ version, session.history.current = { session.source.snapshot with version := version } := by
  obtain ⟨version, edges, current⟩ := settled.current
  have same := derived.edges
  rw [current] at same
  refine ⟨version, ?_⟩
  rw [current, show edges = session.source.tables from same]
  rfl

end Session.Settled

/-! ### Retirement -/

/-- Trees with the same live nodes and the same root give the same relations. -/
theorem Tree.renamed_retirePending {tree : Tree} (sound : tree.Sound) :
    Tree.Renamed id (fun node node' => node'.attributes = node.attributes) tree
      tree.retirePending := by
  have lives := Tree.live_retirePending tree
  refine ⟨sound, sound.retirePending, ?_, ?_, ?_⟩
  · rw [Tree.root_retirePending sound, Option.map_id]
    rfl
  · intro key node alive
    refine ⟨node, ?_, ⟨rfl, rfl, rfl, ?_, ?_⟩, rfl⟩
    · rw [lives]
      exact alive
    · rw [Option.map_id]
      rfl
    · rw [List.map_id]
  · intro key node alive
    rw [lives] at alive
    exact ⟨key, node, alive, rfl⟩

theorem Derivation.Source.tables_retirePending {tree : Tree} (sound : tree.Sound)
    (document : Document) :
    (ofTree tree.retirePending document).tables = (ofTree tree document).tables := by
  refine Relation.Family.ext_get fun relation => ?_
  rw [tables, tables, Relation.Family.get_ofFn, Relation.Family.get_ofFn]
  refine table_eq ⟨?_, .refl relation document⟩
  exact (Tree.renamed_retirePending sound).imp fun self attributes =>
    .of_same_attributes self.kind attributes

theorem Alignment.Aligned.retirePending {document : Document} {tree : Tree} (sound : tree.Sound)
    (aligned : Aligned document tree) : Aligned document tree.retirePending := by
  have lives := Tree.live_retirePending tree
  have known : tree.retirePending.nodeFor? = tree.nodeFor? := by
    funext content
    rw [(Tree.renamed_retirePending sound).nodeFor? content, Option.map_id]
    rfl
  refine ⟨?_, fun entry listed => ?_, ?_⟩
  · rw [Tree.root_retirePending sound, known]
    exact aligned.top
  · obtain ⟨id, node, seated, children⟩ := aligned.seated entry listed
    refine ⟨id, node, ⟨?_, ?_, seated.attributes, seated.scope, ?_⟩, ?_⟩
    · rw [known, seated.known]
    · rw [lives, seated.alive]
    · rw [known, seated.parent]
    · rw [children, seatsBelow, seatsBelow, known]
  · intro id node alive
    rw [lives] at alive
    exact aligned.only alive

/-! ### Commits -/

namespace Session

/-- A snapshot of a sound tree with all its relations passes the check. -/
theorem verified_snapshot {source : Derivation.Source} (sound : source.tree.Sound) (verifies : Bool)
    (document : Document) (tree : Tree) :
    verified verifies document tree source.snapshot = (source.snapshot, false) := by
  rw [verified, Derivation.Source.violations_eq_nil sound, List.isEmpty_nil, Bool.not_true,
    Bool.and_false, if_neg Bool.false_ne_true]

/-- The source that remains once pending nodes are retired. -/
def retired (session : Session) : Derivation.Source :=
  .ofTree session.tree.retirePending session.document

/-- The same session, with its snapshots checked or not, and sending to some hub. -/
def rewire (session : Session) (verifies : Bool) (hub : Hub) : Session :=
  { session with verifies, hub }

/-- What hub a session sends to, and whether its snapshots are checked, is no part of being
settled. -/
theorem Settled.rewire {session : Session} (settled : session.Settled) (verifies : Bool) (hub : Hub) :
    (session.rewire verifies hub).Settled :=
  ⟨settled.wellFormed, settled.sound, settled.aligned, settled.current⟩

theorem Derived.rewire {session : Session} (derived : session.Derived) (verifies : Bool) (hub : Hub) :
    (session.rewire verifies hub).Derived :=
  ⟨derived.plain, derived.edges⟩

/-- What is published is a snapshot of the remaining tree. The relations that are compared, stale ones
among them, are derived anew, and the others are carried over. -/
theorem publish_eq {session : Session} (sound : session.tree.Sound) {stale : RelationSet}
    (closed : stale.Closed) (verifies : Bool) :
    ∃ edges compared, compared.Closed ∧
      (∀ relation, stale.contains relation = true → compared.contains relation = true) ∧
      (∀ relation, edges.get relation =
        if compared.contains relation then session.source.table relation
        else session.history.current.edges.get relation) ∧
      ∀ hub, (session.rewire verifies hub).publish stale =
        { session with
          tree := session.tree.retirePending
          history := session.history.commit (session.tree.retirePending.snapshot edges)
          verifies := verifies
          hub := hub.dispatch (session.history.current.noticesTo
            (session.history.commit (session.tree.retirePending.snapshot edges)).current compared) } := by
  let edges := session.source.renew stale session.history.current.edges
  have taken : session.tree.retirePending.snapshot (Derivation.Source.renew
      { tree := session.tree, document := session.document } stale session.history.current.edges) =
        session.tree.retirePending.snapshot edges := rfl
  cases faulty : verifies && !(session.tree.retirePending.snapshot edges).violations.isEmpty with
  | true =>
    refine ⟨session.retired.renew .every Snapshot.empty.edges, .every, RelationSet.closed_every,
      fun relation _ => RelationSet.contains_every relation, fun relation => ?_, fun hub => ?_⟩
    · rw [RelationSet.contains_every, if_pos rfl, Derivation.Source.renew_every,
        show session.retired.tables = session.source.tables from
          Derivation.Source.tables_retirePending sound session.document,
        Derivation.Source.tables, Relation.Family.get_ofFn]
    · have healed : verified verifies session.document session.tree.retirePending
          (session.tree.retirePending.snapshot edges) =
            (session.tree.retirePending.snapshot
              (session.retired.renew .every Snapshot.empty.edges), true) := by
        rw [verified, if_pos faulty]
        rfl
      unfold publish
      dsimp only [Session.rewire]
      rw [taken, healed]
      rfl
  | false =>
    refine ⟨edges, stale, closed, fun _ among => among, fun relation => ?_, fun hub => ?_⟩
    · rw [Derivation.Source.get_renew, Derivation.Source.isRenewed_eq closed]
    · have passed : verified verifies session.document session.tree.retirePending
          (session.tree.retirePending.snapshot edges) =
            (session.tree.retirePending.snapshot edges, false) := by
        rw [verified, faulty]
        rfl
      unfold publish
      dsimp only [Session.rewire]
      rw [taken, passed]
      rfl

/-- If the relations that are not stale can be carried over, what is published is the snapshot of the
remaining tree with all its relations, whether it is checked or not. -/
theorem publish_of_carried {session : Session} (sound : session.tree.Sound) {stale : RelationSet}
    (carried : session.source.renew stale session.history.current.edges = session.source.tables)
    (verifies : Bool) (hub : Hub) :
    (session.rewire verifies hub).publish stale =
      { session with
        tree := session.tree.retirePending
        history := session.history.commit session.retired.snapshot
        verifies := verifies
        hub := hub.dispatch (session.history.current.noticesTo
          (session.history.commit session.retired.snapshot).current stale) } := by
  have taken : session.tree.retirePending.snapshot (Derivation.Source.renew
      { tree := session.tree, document := session.document } stale session.history.current.edges) =
        session.retired.snapshot := by
    refine congrArg session.tree.retirePending.snapshot ?_
    exact carried.trans (Derivation.Source.tables_retirePending sound session.document).symm
  unfold publish
  dsimp only [Session.rewire]
  rw [taken, @verified_snapshot session.retired sound.retirePending]
  rfl

/-- A session that begins with a tree. -/
def begun (document : Document) (capacity : Nat) (verifies : Bool) (tree : Tree)
    (alignment : Alignment) : Session :=
  let source := Derivation.Source.ofTree tree document
  let snapshot := tree.snapshot (source.renew .every Snapshot.empty.edges)
  { document
    tree
    history := (History.start capacity).commit (verified verifies document tree snapshot).1
    hub := .start
    verifies
    lastAlignment := some alignment }

theorem start_eq (subtree : Subtree) (capacity : Nat) (verifies : Bool) :
    Session.start subtree capacity verifies =
      let document := Document.ofSubtree subtree
      match document.get? document.root with
      | none => .error (.unknownContent document.root)
      | some node => do
        let rooted := Tree.empty.createRoot document.root ⟨node.kind, node.attributes, .document⟩
        let _ ← rooted.answer
        let aligned := Alignment.run document rooted.state
        let alignment ← aligned.answer
        return begun document capacity verifies aligned.state alignment := by
  unfold Session.start
  dsimp only
  cases (Document.ofSubtree subtree).get? (Document.ofSubtree subtree).root <;> rfl

/-- The first version is committed as it is. -/
theorem begun_eq {document : Document} {tree : Tree} (sound : tree.Sound) (capacity : Nat)
    (verifies : Bool) (alignment : Alignment) :
    begun document capacity verifies tree alignment =
      { document := document
        tree := tree
        history := (History.start capacity).commit
          (Derivation.Source.ofTree tree document).snapshot
        hub := .start
        verifies := verifies
        lastAlignment := some alignment } := by
  have passed : verified verifies document tree (tree.snapshot
      (Derivation.Source.ofTree tree document).tables) = (_, false) :=
    @verified_snapshot (.ofTree tree document) sound verifies document tree
  unfold begun
  dsimp only
  rw [Derivation.Source.renew_every, passed]

/-- A session begins settled, with its first version, all its relations, and nodes of the kinds of
their content. -/
theorem start_done {subtree : Subtree} (distinct : subtree.Distinct) (capacity : Nat) :
    ∃ session : Session, session.Settled ∧
      (subtree.kind ≠ .shadowRoot → session.Derived) ∧
      session.document = Document.ofSubtree subtree ∧ session.history.version = 1 ∧
      (∀ verifies, Session.start subtree capacity verifies =
        .ok (session.rewire verifies session.hub)) ∧
      session.tree.Allows fun handle kind => session.document.kind? handle = some kind := by
  have wellFormed := Document.wellFormed_ofSubtree distinct
  have stored : (Document.ofSubtree subtree).get? (Document.ofSubtree subtree).root =
      some (subtree.node none) :=
    (Document.get?_ofSubtree distinct).mpr (subtree.topmost_entry none)
  obtain ⟨rooted, created, soundRooted, atTop, lives⟩ :=
    @Tree.Sound.createRoot Tree.empty (Document.ofSubtree subtree).root Tree.sound_empty rfl
      ⟨subtree.kind, subtree.attributes, .document⟩
  have known : rooted.nodeFor? (Document.ofSubtree subtree).root =
      some Tree.empty.nodes.nextKey :=
    soundRooted.content.mpr ⟨_, (lives _).trans (if_pos rfl), rfl⟩
  obtain ⟨aligned, alignment, ran, soundAligned, inLine, -, -⟩ :=
    Alignment.run_done wellFormed soundRooted atTop known
  have allowsRooted : rooted.Allows fun handle kind =>
      (Document.ofSubtree subtree).kind? handle = some kind := by
    intro id node alive
    rw [lives] at alive
    split at alive
    · cases alive
      exact congrArg (Option.map ContentNode.kind) stored
    · cases alive
  have aligning := Alignment.continues_run (.refl soundRooted.tidy)
    (Document.ofSubtree subtree).allows_kind?
  rw [ran] at aligning
  let first := begun (Document.ofSubtree subtree) capacity false aligned alignment
  have committed : first.history.current =
      { (Derivation.Source.ofTree aligned (Document.ofSubtree subtree)).snapshot with
        version := 1 } := by
    rw [show first = _ from begun_eq soundAligned capacity false alignment]
    rfl
  refine ⟨first, ⟨wellFormed, soundAligned, inLine, 1, _, committed⟩, fun kind => ⟨?_, ?_⟩, rfl, rfl,
    fun verifies => ?_, aligning.allows allowsRooted⟩
  · rw [← Bool.not_eq_true, show first.document = Document.ofSubtree subtree from rfl,
      Document.isShadowRoot_of_get? stored]
    exact kind
  · rw [committed]
    rfl
  · rw [start_eq]
    dsimp only
    rw [stored]
    dsimp only
    rw [show (subtree.node none).kind = subtree.kind from rfl,
      show (subtree.node none).attributes = subtree.attributes from rfl, created]
    dsimp only [Outcome.done, bind, Except.bind]
    rw [ran]
    dsimp only [Outcome.done, Except.bind]
    rw [show first = _ from begun_eq soundAligned capacity false alignment, begun_eq soundAligned]
    rfl

end Session

end Accessibility
