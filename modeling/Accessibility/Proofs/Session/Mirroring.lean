import Accessibility.Proofs.Session.Identity

/-!
What nodes tell of their content. Attributes and scope are brought up to date with every batch, but a
node has the kind that its content had when it got the node, and with it the tag and the native role.
A batch that removes content and inserts it again as another kind keeps the node, and then the node
tells of what is gone.
-/

set_option autoImplicit false

namespace Accessibility

/-- A node tells of its content what the document tells of it. -/
def AccessibleNode.Mirrors (document : Document) (node : AccessibleNode) : Prop :=
  ∃ content, document.get? node.content = some content ∧ node.kind = content.kind ∧
    node.tag? = content.kind.tag? ∧ node.attributes = content.attributes ∧
    node.scope = document.scopeOf node.content ∧
    node.role = .ofContent content.kind content.attributes

/-- A node tells of its content what the document tells of it, but for the kind: tag and role are as if
the content had the kind that the node has. -/
def AccessibleNode.MirrorsData (document : Document) (node : AccessibleNode) : Prop :=
  ∃ content, document.get? node.content = some content ∧ node.attributes = content.attributes ∧
    node.scope = document.scopeOf node.content ∧
    node.role = .ofContent node.kind content.attributes

theorem AccessibleNode.mirrors_iff {document : Document} {node : AccessibleNode} :
    node.Mirrors document ↔
      node.MirrorsData document ∧ document.kind? node.content = some node.kind := by
  constructor
  · rintro ⟨content, stored, kind, -, attributes, scope, role⟩
    refine ⟨⟨content, stored, attributes, scope, kind ▸ role⟩, ?_⟩
    rw [Document.kind?, stored, Option.map_some, kind]
  · rintro ⟨⟨content, stored, attributes, scope, role⟩, kind⟩
    rw [Document.kind?, stored, Option.map_some, Option.some.injEq] at kind
    exact ⟨content, stored, kind.symm, congrArg Kind.tag? kind.symm, attributes, scope,
      kind ▸ role⟩

namespace Session

variable {session : Session}

/-- Between batches all live nodes mirror their content, but for its kind. -/
theorem Settled.mirrorsData (settled : session.Settled) (derived : session.Derived) {id : NodeId}
    {node : AccessibleNode} (alive : session.tree.live id = some node) :
    node.MirrorsData session.document := by
  obtain ⟨content, stored, own⟩ :=
    Option.map_eq_some_iff.mp (settled.aligned.attributes settled.sound alive)
  refine ⟨content, stored, own.symm, ?_, by rw [own]; rfl⟩
  exact settled.aligned.scope settled.sound settled.wellFormed derived.plain alive

/-- Whether every live node mirrors its content. -/
def Mirroring (session : Session) : Prop :=
  ∀ {id : NodeId} {node : AccessibleNode}, session.tree.live id = some node →
    node.Mirrors session.document

/-- No batch changes the kind of content whose node it keeps. -/
def KeepsKinds (session : Session) (batches : List (List Change)) : Prop :=
  ∀ {count : Nat} {id : NodeId} {content : Handle},
    (session.committed batches count).contentOf? id = some content →
    (session.committed batches (count + 1)).contentOf? id = some content →
    (session.upTo batches (count + 1)).document.kind? content =
      (session.upTo batches count).document.kind? content

/-- How the nodes of a run mirror their content. -/
structure MirrorsRun (session : Session) (batches : List (List Change)) : Prop where
  data : ∀ {count : Nat} {id : NodeId} {node : AccessibleNode},
    (session.upTo batches count).tree.live id = some node →
    node.MirrorsData (session.upTo batches count).document
  /-- A node has the kind that its content had in the first snapshot with the node. -/
  kind : ∀ {count : Nat} {id : NodeId} {node : AccessibleNode},
    (session.upTo batches count).tree.live id = some node →
    ∃ first ≤ count, (session.committed batches first).contains id = true ∧
      (∀ early < first, (session.committed batches early).contains id = false) ∧
      (session.upTo batches first).document.kind? node.content = some node.kind
  mirroring_iff : (∀ count, (session.upTo batches count).Mirroring) ↔ session.KeepsKinds batches

section Begun

variable {subtree : Subtree} (begun : Begun subtree session) {batches : List (List Change)}
  (sound : ∀ changes ∈ batches, ∀ change ∈ changes, change.Sound subtree.handle)
include begun sound

/-- The nodes after one batch more are nodes from before, or new ones of the kind of their content. -/
theorem Begun.continues_succ (count : Nat) :
    Tree.Continues
      (fun handle kind => (session.upTo batches (count + 1)).document.kind? handle = some kind)
      (session.upTo batches count).tree (session.upTo batches (count + 1)).tree := by
  have settled := begun.settled_upTo sound count
  cases next : batches[count]? with
  | none =>
    have idle : session.upTo batches (count + 1) = session.upTo batches count := by
      rw [upTo, upTo, List.take_add_one, next, Option.toList_none, List.append_nil]
    rw [idle]
    exact .refl settled.sound.tidy
  | some changes =>
    have soundNext : ∀ change ∈ changes,
        change.Sound (session.upTo batches count).document.root := by
      rw [begun.root_upTo sound count]
      exact sound changes (List.mem_of_getElem? next)
    have fits := (session.upTo batches (count + 1)).document.allows_kind?
    rw [session.upTo_succ next] at fits ⊢
    rw [document_apply settled soundNext] at fits ⊢
    exact continues_apply (.refl settled.sound.tidy) fits

theorem Begun.kind_first {count : Nat} {id : NodeId} {node : AccessibleNode}
    (alive : (session.upTo batches count).tree.live id = some node) :
    ∃ first ≤ count, (session.committed batches first).contains id = true ∧
      (∀ early < first, (session.committed batches early).contains id = false) ∧
      (session.upTo batches first).document.kind? node.content = some node.kind := by
  induction count generalizing node with
  | zero =>
    exact ⟨0, Nat.le_refl 0, (begun.settled_upTo sound 0).contains_current.mpr ⟨node, alive⟩, nofun,
      begun.kinds alive⟩
  | succ count ih =>
    rcases (begun.continues_succ sound count).origin alive with
      ⟨old, aliveOld, content, kind⟩ | ⟨fresh, fits⟩
    · obtain ⟨first, order, present, absent, same⟩ := ih aliveOld
      rw [content, kind]
      exact ⟨first, Nat.le_succ_of_le order, present, absent, same⟩
    · refine ⟨count + 1, Nat.le_refl _,
        (begun.settled_upTo sound (count + 1)).contains_current.mpr ⟨node, alive⟩, ?_, fits⟩
      intro early order
      rw [← Bool.not_eq_true]
      intro present
      have settledEarly := begun.settled_upTo sound early
      obtain ⟨old, aliveOld⟩ := settledEarly.contains_current.mp present
      exact fresh ((continues_upTo (Nat.le_of_lt_succ order) settledEarly.sound.tidy).issued
        (Tree.issued_of_live aliveOld))

end Begun

/-- Over a run all nodes mirror their content but for the kind, which is that of the content when it
got the node; and they mirror it in everything as long as no batch changes the kind of content whose
node it keeps. -/
theorem run_mirrors {subtree : Subtree} (distinct : subtree.Distinct)
    (plain : subtree.kind ≠ .shadowRoot) {capacity : Nat} {verifies : Bool}
    (started : Session.start subtree capacity verifies = .ok session)
    {batches : List (List Change)}
    (sound : ∀ changes ∈ batches, ∀ change ∈ changes, change.Sound subtree.handle) :
    session.MirrorsRun batches := by
  have begun := begun_of_start distinct started
  have data {count : Nat} {id : NodeId} {node : AccessibleNode}
      (alive : (session.upTo batches count).tree.live id = some node) :
      node.MirrorsData (session.upTo batches count).document :=
    (begun.settled_upTo sound count).mirrorsData (begun.derived_upTo sound plain count) alive
  refine ⟨data, begun.kind_first sound, ?_, ?_⟩
  · intro mirroring count id content here there
    obtain ⟨node, alive, same⟩ := (begun.settled_upTo sound count).contentOf?_eq_some.mp here
    obtain ⟨node', alive', same'⟩ :=
      (begun.settled_upTo sound (count + 1)).contentOf?_eq_some.mp there
    obtain ⟨old, aliveOld, -, kind⟩ :=
      (begun.continues_succ sound count).live_of_issued alive' (Tree.issued_of_live alive)
    rw [alive] at aliveOld
    cases aliveOld
    have mirrored := (AccessibleNode.mirrors_iff.mp (mirroring count alive)).2
    have mirrored' := (AccessibleNode.mirrors_iff.mp (mirroring (count + 1) alive')).2
    rw [← same, mirrored, ← kind, ← mirrored', same', same]
  · intro keeps count
    induction count with
    | zero => exact fun alive => AccessibleNode.mirrors_iff.mpr ⟨data alive, begun.kinds alive⟩
    | succ count ih =>
      intro id node' alive'
      refine AccessibleNode.mirrors_iff.mpr ⟨data alive', ?_⟩
      rcases (begun.continues_succ sound count).origin alive' with
        ⟨node, alive, content, kind⟩ | ⟨-, fits⟩
      · have here := (begun.settled_upTo sound count).contentOf?_eq_some.mpr ⟨node, alive, rfl⟩
        have there := (begun.settled_upTo sound (count + 1)).contentOf?_eq_some.mpr
          ⟨node', alive', content⟩
        rw [content, kind, keeps here there, (AccessibleNode.mirrors_iff.mp (ih alive)).2]
      · exact fits

/-- A page of one element. -/
def plainPage : Subtree :=
  { Subtree.single ⟨0⟩ .document with children := [.single ⟨1⟩ (.element "div")] }

/-- The element is removed and inserted again as another kind. -/
def retagging : List Change :=
  [.removed ⟨1⟩, .inserted ⟨0⟩ 0 (.single ⟨1⟩ (.element "input"))]

theorem run_mirrors_retagging :
    ∃ session, Session.start plainPage 4 true = .ok session ∧ session.MirrorsRun [retagging] := by
  have distinct : plainPage.Distinct := by decide
  have plain : plainPage.kind ≠ .shadowRoot := by decide
  have sound : ∀ changes ∈ [retagging], ∀ change ∈ changes,
      change.Sound plainPage.handle := by decide
  obtain ⟨session, -, -, -, -, starts, -⟩ := start_done distinct 4
  exact ⟨_, starts true, run_mirrors distinct plain (starts true) sound⟩

/-- The node is still a `div` and has the role of one, and its content is an `input`. -/
theorem not_mirroring_retagging :
    ∃ session, Session.start plainPage 4 true = .ok session ∧
      (∀ change ∈ retagging, change.Sound plainPage.handle) ∧
      ¬ (session.run [retagging]).Mirroring := by
  have distinct : plainPage.Distinct := by decide
  have told : (Session.start plainPage 4 true).map (fun session =>
      (((session.run [retagging]).tree.live ⟨2, 1⟩).map fun node => (node.content, node.kind),
        (session.run [retagging]).document.kind? ⟨1⟩)) =
      .ok (some (⟨1⟩, .element "div"), some (.element "input")) := by decide +kernel
  obtain ⟨session, -, -, -, -, starts, -⟩ := start_done distinct 4
  rw [starts] at told
  refine ⟨_, starts true, by decide, fun mirroring => ?_⟩
  obtain ⟨nodeTold, kindTold⟩ := Prod.mk.inj (Except.ok.inj told)
  obtain ⟨node, alive, same⟩ := Option.map_eq_some_iff.mp nodeTold
  obtain ⟨content, kind⟩ := Prod.mk.inj same
  have mirrored := (AccessibleNode.mirrors_iff.mp (mirroring alive)).2
  rw [content, kind, kindTold] at mirrored
  exact absurd mirrored (by decide)

end Session

end Accessibility
