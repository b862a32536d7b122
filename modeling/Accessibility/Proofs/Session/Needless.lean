import Accessibility.Proofs.Document.Preorder
import Accessibility.Proofs.Session.Exactness
import Accessibility.Proofs.Session.Touching

/-!
Alignments that are not needed. Changes of attributes that decide nothing about exposure, and of popover
targets, leave the layout as it is; so after a batch of them an alignment would find every node in its
place.
-/

set_option autoImplicit false

namespace Accessibility

/-- The same nodes with the same links and data, but perhaps for their scopes. -/
structure Tree.SameButScopes (before after : Tree) : Prop where
  root : after.root = before.root
  kept : ∀ {id : NodeId} {node : AccessibleNode}, before.live id = some node →
    ∃ scope, after.live id = some { node with scope }
  origin : ∀ {id : NodeId} {node' : AccessibleNode}, after.live id = some node' →
    ∃ node, before.live id = some node

namespace Alignment

variable {document : Document} {tree : Tree}

theorem Stages.nodeFor?_eq {placed dismissed arranged : Progress}
    (stages : Stages document tree placed dismissed arranged) (wellFormed : document.WellFormed)
    (aligned : Aligned document tree) (sound : tree.Sound) :
    arranged.tree.nodeFor? = tree.nodeFor? := by
  funext handle
  by_cases listed : handle ∈ document.layout.map Exposed.handle
  · obtain ⟨id, known⟩ := (aligned.known_iff sound handle).mpr listed
    rw [known, stages.nodeFor?_of_some listed known]
  · have alignedAfter := stages.aligned wellFormed
    rw [Option.eq_none_iff_forall_ne_some.mpr fun id known =>
        listed ((aligned.known_iff sound handle).mp ⟨id, known⟩),
      Option.eq_none_iff_forall_ne_some.mpr fun id known =>
        listed ((alignedAfter.known_iff stages.reordered.sound handle).mp ⟨id, known⟩)]

/-- Where all nodes are in their places already, an alignment gives them no more than scopes. -/
theorem Stages.sameButScopes {placed dismissed arranged : Progress}
    (stages : Stages document tree placed dismissed arranged) (wellFormed : document.WellFormed)
    (aligned : Aligned document tree) (sound : tree.Sound) :
    tree.SameButScopes arranged.tree := by
  have known := stages.nodeFor?_eq wellFormed aligned sound
  have alignedAfter := stages.aligned wellFormed
  have soundAfter := stages.reordered.sound
  have continues := continues_run (.refl sound.tidy) document.allows_kind?
  rw [stages.run_eq] at continues
  refine ⟨stages.root, ?_, ?_⟩
  · intro id node alive
    obtain ⟨entry, listed, same, seated, children⟩ := aligned.entry sound alive
    obtain ⟨id', node', seated', children'⟩ := alignedAfter.seated entry listed
    have sameId := seated'.known
    rw [known, seated.known] at sameId
    cases sameId
    refine ⟨node'.scope, seated'.alive.trans (congrArg some ?_)⟩
    have content : node'.content = node.content :=
      (soundAfter.content_of_nodeFor? seated'.known seated'.alive).trans same
    have kind : node'.kind = node.kind := by
      rcases continues.origin seated'.alive with ⟨before, aliveBefore, -, kind⟩ | ⟨unissued, -⟩
      · rw [alive] at aliveBefore
        cases aliveBefore
        exact kind
      · exact absurd (Tree.issued_of_live alive) unissued
    have attributes : node'.attributes = node.attributes :=
      Option.some.inj (seated'.attributes.symm.trans seated.attributes)
    have parent : node'.parent = node.parent := by rw [seated'.parent, seated.parent, known]
    have below : node'.children = node.children := by
      rw [children', children, seatsBelow, seatsBelow, known]
    have isAlive : node'.alive = node.alive :=
      (Tree.live_eq_some.mp seated'.alive).2.trans (Tree.live_eq_some.mp alive).2.symm
    cases node'
    cases node
    simp only [AccessibleNode.mk.injEq] at *
    exact ⟨content, kind, attributes, trivial, isAlive, parent, below⟩
  · intro id node' alive'
    have found := soundAfter.nodeFor?_of_live alive'
    rw [known] at found
    obtain ⟨node, alive, -⟩ := sound.live_of_nodeFor? found
    exact ⟨node, alive⟩

/-- An alignment of an aligned tree counts nothing. -/
theorem Stages.counts_eq {placed dismissed arranged : Progress}
    (stages : Stages document tree placed dismissed arranged) (wellFormed : document.WellFormed)
    (aligned : Aligned document tree) (sound : tree.Sound) : arranged.counts = ⟨0, 0, 0⟩ := by
  have same := stages.sameButScopes wellFormed aligned sound
  have created : arranged.counts.created = 0 := by
    rw [stages.counts_created, List.countP_eq_zero]
    intro entry listed
    obtain ⟨id, node, seated, -⟩ := aligned.seated entry listed
    rw [seated.known]
    exact Bool.false_ne_true
  have moved : arranged.counts.moved = 0 := by
    rw [stages.counts_moved, List.countP_eq_zero]
    intro entry listed
    obtain ⟨id, node, seated, -⟩ := aligned.seated entry listed
    obtain ⟨scope, alive⟩ := same.kept seated.alive
    rw [seated.known, Option.any_some, Tree.parent?_of_live alive, Tree.parent?_of_live seated.alive,
      bne_self_eq_false]
    exact Bool.false_ne_true
  have shutDown : arranged.counts.shutDown = 0 := by
    rw [stages.counts_shutDown sound, List.length_eq_zero_iff, List.eq_nil_iff_forall_not_mem]
    intro id outside
    obtain ⟨node, alive, absent⟩ := (mem_unexposed sound).mp outside
    exact absent (aligned.only alive)
  rw [Alignment.mk.injEq]
  exact ⟨created, moved, shutDown⟩

/-- Another alignment of an aligned tree counts nothing and gives no node more than a scope; and if the
root is not a shadow root, it changes nothing. -/
theorem Aligned.run_needless (aligned : Aligned document tree) (sound : tree.Sound)
    (wellFormed : document.WellFormed) :
    ∃ after, Alignment.run document tree = .done after ⟨0, 0, 0⟩ ∧ tree.SameButScopes after ∧
      (document.isShadowRoot document.root = false → after = tree) := by
  obtain ⟨top, atTop, knownTop⟩ := aligned.top
  obtain ⟨placed, dismissed, arranged, stages⟩ := exists_stages wellFormed sound atTop knownTop
  have done := stages.run_eq
  rw [stages.counts_eq wellFormed aligned sound] at done
  refine ⟨arranged.tree, done, stages.sameButScopes wellFormed aligned sound, fun plain => ?_⟩
  rw [aligned.run_idle sound wellFormed plain] at done
  exact congrArg Outcome.state done.symm

end Alignment

namespace Effects

open Document

/-- Changes none of which alters exposure do not either when they are made one after the other. -/
theorem altersExposure_ofChanges {document : Document} {changes : List Change}
    (plain : ∀ change ∈ changes, change.altersExposure document = false) :
    (ofChanges document changes).altersExposure = false := by
  have folded (effects : Effects) (quiet : Quiet document effects)
      (still : effects.altersExposure = false) :
      (changes.foldl add effects).altersExposure = false := by
    induction changes generalizing effects with
    | nil => exact still
    | cons change rest ih =>
      rw [List.forall_mem_cons] at plain
      have here : change.altersExposure effects.document = false := by
        rw [← plain.1]
        cases change <;> simp only [Change.altersExposure, quiet.alike.kind?_eq]
      refine ih plain.2 _ (quiet.add here) ?_
      rw [add]
      simp only [still, here, Bool.or_self]
  exact folded (start document) ⟨.refl (fun _ node => .refl node) document, rfl⟩ rfl

end Effects

/-- The tree after a batch that leaves exposure as it is: the nodes that it touches have been given their
data anew. -/
def Tree.touchedBy (tree : Tree) (document : Document) (changes : List Change) : Tree :=
  (Effects.ofChanges document changes).touched.foldl
    (Session.syncNodeOf (document.afterAll changes)) tree

/-- What a batch does that leaves exposure as it is. It keeps the layout, and a session does not align its
tree. If it did, the alignment would create, move and shut down nothing, and give no node more than a
scope; and unless the root is a shadow root, it would change nothing at all. -/
structure Document.KeepsExposure (document : Document) (changes : List Change) : Prop where
  layout : (document.afterAll changes).layout = document.layout
  skipped : ∀ {session : Session}, session.document = document →
    (session.apply changes).state.tree = (session.tree.touchedBy document changes).retirePending ∧
      (session.apply changes).state.lastAlignment = session.lastAlignment
  needless : ∀ {tree : Tree}, tree.Sound → Alignment.Aligned document tree →
    ∃ after, Alignment.run (document.afterAll changes) (tree.touchedBy document changes) =
        .done after ⟨0, 0, 0⟩ ∧
      (tree.touchedBy document changes).SameButScopes after ∧
      (document.isShadowRoot document.root = false → after = tree.touchedBy document changes)

/-- A session gives the nodes that such a batch touches their data anew and does nothing else with its
tree but to retire what is pending. -/
theorem Session.apply_quiet {session : Session} {changes : List Change}
    (plain : (Effects.ofChanges session.document changes).altersExposure = false) :
    (session.apply changes).state.tree =
        (session.tree.touchedBy session.document changes).retirePending ∧
      (session.apply changes).state.lastAlignment = session.lastAlignment := by
  rw [Session.apply, Tree.touchedBy, ← Effects.document_ofChanges]
  simp only [plain, (Effects.quiet_ofChanges plain).replaced, Bool.false_eq_true, if_false]
  exact ⟨rfl, rfl⟩

/-- Changes of popover targets and of attributes other than `hidden`, `popover`, `slot` and the name of a
slot keep the exposure of a well-formed document, however many there are. -/
theorem Document.keepsExposure_of_plain {document : Document} (wellFormed : document.WellFormed)
    {changes : List Change} (plain : ∀ change ∈ changes, change.altersExposure document = false) :
    document.KeepsExposure changes := by
  have uncalled := Effects.altersExposure_ofChanges plain
  have quiet := Effects.alike_afterAll uncalled
  refine ⟨?_, ?_, ?_⟩
  · exact (ExposedAlike.layout_eq (quiet.imp fun _ _ _ _ _ same => same.exposure)).symm
  · rintro session rfl
    exact Session.apply_quiet uncalled
  · intro tree sound aligned
    have synced :=
      sound.synced (document.afterAll changes) (Effects.ofChanges document changes).touched
    obtain ⟨after, done, same, still⟩ := (synced.stillAligned quiet wellFormed aligned).run_needless
      synced.soundAfter (quiet.wellFormed wellFormed)
    refine ⟨after, done, same, fun plainRoot => still ?_⟩
    rw [← quiet.root, ← quiet.isShadowRoot_eq]
    exact plainRoot

/-- A host gets a title and a popover target, content assigned to a slot gets a name, and a slot a title;
another change is of a node that is not stored. -/
def plainChanges : List Change :=
  [.attribute ⟨1⟩ "title" (some "Host"), .popoverTarget ⟨1⟩ (some ⟨3⟩),
    .attribute ⟨12⟩ "name" (some "none"), .attribute ⟨9⟩ "title" (some "Slot"),
    .attribute ⟨20⟩ "title" none]

theorem keepsExposure_plainChanges :
    (Document.ofSubtree Document.slottedPage).WellFormed ∧
      (∀ change ∈ plainChanges,
        change.altersExposure (Document.ofSubtree Document.slottedPage) = false) ∧
      (Document.ofSubtree Document.slottedPage).KeepsExposure plainChanges ∧
      ∃ tree, tree.Sound ∧ Alignment.Aligned (Document.ofSubtree Document.slottedPage) tree ∧
        Alignment.run ((Document.ofSubtree Document.slottedPage).afterAll plainChanges)
            (tree.touchedBy (Document.ofSubtree Document.slottedPage) plainChanges) =
          .done (tree.touchedBy (Document.ofSubtree Document.slottedPage) plainChanges) ⟨0, 0, 0⟩ := by
  have distinct : Document.slottedPage.Distinct := by decide +kernel
  have wellFormed := Document.wellFormed_ofSubtree distinct
  have plain : ∀ change ∈ plainChanges,
      change.altersExposure (Document.ofSubtree Document.slottedPage) = false := by decide +kernel
  have keeps := Document.keepsExposure_of_plain wellFormed plain
  obtain ⟨session, settled, -, document, -⟩ := Session.start_done distinct 4
  have aligned := settled.aligned
  rw [document] at aligned
  obtain ⟨after, done, -, same⟩ := keeps.needless settled.sound aligned
  rw [same (by decide +kernel)] at done
  exact ⟨wellFormed, plain, keeps, session.tree, settled.sound, aligned, done⟩

end Accessibility
