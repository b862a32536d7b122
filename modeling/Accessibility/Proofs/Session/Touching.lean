import Accessibility.Proofs.Session.Effects
import Accessibility.Proofs.Session.Settled

/-!
A batch that leaves exposure as it is gives the nodes that it touches their attributes anew. That
keeps the tree in line with the document, and relations that are not stale cannot tell the
difference.
-/

set_option autoImplicit false

namespace Accessibility

/-- A node with the attributes and the scope of its content, if that was touched. -/
def AccessibleNode.synced (document : Document) (touched : List Handle) (node : AccessibleNode) :
    AccessibleNode :=
  if node.content ∈ touched then
    match document.get? node.content with
    | none => node
    | some content =>
      { node with attributes := content.attributes, scope := document.scopeOf node.content }
  else node

/-- The same node but for its attributes and its scope. -/
structure AccessibleNode.SameLinks (left right : AccessibleNode) : Prop where
  content : right.content = left.content
  kind : right.kind = left.kind
  parent : right.parent = left.parent
  children : right.children = left.children

namespace AccessibleNode

variable {document : Document} {touched : List Handle} {node : AccessibleNode}

theorem synced_of_not_mem (absent : node.content ∉ touched) : node.synced document touched = node :=
  if_neg absent

theorem synced_of_none (missing : document.get? node.content = none) :
    node.synced document touched = node := by
  rw [synced, missing]
  exact ite_self node

theorem synced_of_mem {content : ContentNode} (listed : node.content ∈ touched)
    (stored : document.get? node.content = some content) :
    node.synced document touched =
      { node with attributes := content.attributes, scope := document.scopeOf node.content } := by
  rw [synced, if_pos listed, stored]

theorem sameLinks_synced (document : Document) (touched : List Handle) (node : AccessibleNode) :
    node.SameLinks (node.synced document touched) := by
  unfold synced
  split
  · split <;> exact ⟨rfl, rfl, rfl, rfl⟩
  · exact ⟨rfl, rfl, rfl, rfl⟩

/-- A node that has the scope that the document tells keeps it. -/
theorem scope_synced (told : node.content ∈ touched → node.scope = document.scopeOf node.content) :
    (node.synced document touched).scope = node.scope := by
  unfold synced
  split
  · rename_i listed
    split
    · rfl
    · exact (told listed).symm
  · rfl

/-- Nodes that were touched twice are as if touched once. -/
theorem synced_cons (document : Document) (handle : Handle) (rest : List Handle)
    (node : AccessibleNode) :
    node.synced document (handle :: rest) =
      (node.synced document [handle]).synced document rest := by
  have links := node.sameLinks_synced document [handle]
  cases stored : document.get? node.content with
  | none =>
    rw [synced_of_none stored, synced_of_none stored, synced_of_none stored]
  | some content =>
    have storedAgain : document.get? (node.synced document [handle]).content = some content := by
      rw [links.content, stored]
    by_cases here : node.content = handle
    · rw [synced_of_mem (here ▸ List.mem_cons_self) stored]
      by_cases later : node.content ∈ rest
      · rw [synced_of_mem (links.content.symm ▸ later) storedAgain, links.content,
          synced_of_mem (here ▸ List.mem_cons_self) stored]
      · rw [synced_of_not_mem (links.content.symm ▸ later),
          synced_of_mem (here ▸ List.mem_cons_self) stored]
    · rw [synced_of_not_mem fun listed => here (List.mem_singleton.mp listed)]
      by_cases later : node.content ∈ rest
      · rw [synced_of_mem (List.mem_cons_of_mem _ later) stored, synced_of_mem later stored]
      · rw [synced_of_not_mem later, synced_of_not_mem]
        exact fun listed => (List.mem_cons.mp listed).elim here later

end AccessibleNode

/-! ### Touched nodes -/

/-- A tree whose touched nodes were given their attributes anew. -/
structure Tree.Synced (document : Document) (touched : List Handle) (before after : Tree) : Prop where
  soundBefore : before.Sound
  soundAfter : after.Sound
  root : after.root = before.root
  lives : ∀ id, after.live id = (before.live id).map (AccessibleNode.synced document touched)

section Touched

variable {document : Document} {touched rest : List Handle} {handle : Handle} {tree : Tree}

/-- A tree whose touched nodes have their attributes already. -/
theorem Tree.Synced.of_kept (sound : tree.Sound)
    (kept : ∀ {id : NodeId} {node : AccessibleNode}, tree.live id = some node →
      node.synced document touched = node) : Tree.Synced document touched tree tree := by
  refine ⟨sound, sound, rfl, fun id => ?_⟩
  cases alive : tree.live id with
  | none => rfl
  | some node => rw [Option.map_some, kept alive]

theorem Tree.Synced.cons {before after : Tree} (first : Tree.Synced document [handle] before tree)
    (later : Tree.Synced document rest tree after) :
    Tree.Synced document (handle :: rest) before after := by
  refine ⟨first.soundBefore, later.soundAfter, later.root.trans first.root, fun id => ?_⟩
  rw [later.lives, first.lives, Option.map_map]
  refine congrArg (Option.map · (before.live id)) (funext fun node => ?_)
  exact (node.synced_cons document handle rest).symm

/-- One node is changed if it stands for the touched content, and none if no node does. -/
theorem Session.synced_syncNodeOf (sound : tree.Sound) (document : Document) (handle : Handle) :
    Tree.Synced document [handle] tree (Session.syncNodeOf document tree handle) := by
  cases known : tree.nodeFor? handle with
  | none =>
    rw [Session.syncNodeOf, known]
    refine .of_kept sound fun alive => AccessibleNode.synced_of_not_mem fun listed => ?_
    have found := sound.nodeFor?_of_live alive
    rw [List.mem_singleton.mp listed, known] at found
    cases found
  | some id =>
    cases stored : document.get? handle with
    | none =>
      rw [Session.syncNodeOf, known, stored]
      refine .of_kept sound fun {other node} alive => ?_
      by_cases here : node.content = handle
      · exact AccessibleNode.synced_of_none (here ▸ stored)
      · exact AccessibleNode.synced_of_not_mem fun listed => here (List.mem_singleton.mp listed)
    | some content =>
      obtain ⟨node, alive, same⟩ := sound.live_of_nodeFor? known
      obtain ⟨after, changed, done, soundAfter, root, lives⟩ :=
        sound.sync (Tree.get?_of_live alive) content.attributes (document.scopeOf handle)
      have synced : Session.syncNodeOf document tree handle = after := by
        simp only [Session.syncNodeOf, known, stored, done]
        rfl
      rw [synced]
      refine ⟨sound, soundAfter, root, fun other => ?_⟩
      rw [lives]
      cases aliveOther : tree.live other with
      | none => rfl
      | some node' =>
        rw [Option.map_some, Option.map_some]
        by_cases here : other = id
        · subst here
          rw [alive] at aliveOther
          cases aliveOther
          rw [if_pos rfl, AccessibleNode.synced_of_mem (List.mem_singleton.mpr same) (same ▸ stored),
            same]
        · rw [if_neg here, AccessibleNode.synced_of_not_mem]
          intro listed
          have found := sound.nodeFor?_of_live aliveOther
          rw [List.mem_singleton.mp listed, known] at found
          exact here (Option.some.inj found).symm

theorem Tree.Sound.synced (sound : tree.Sound) (document : Document) (touched : List Handle) :
    Tree.Synced document touched tree (touched.foldl (Session.syncNodeOf document) tree) := by
  induction touched generalizing tree with
  | nil => exact .of_kept sound fun _ => AccessibleNode.synced_of_not_mem List.not_mem_nil
  | cons handle rest ih =>
    have first := Session.synced_syncNodeOf sound document handle
    exact first.cons (ih first.soundAfter)

end Touched

/-! ### Alignment and relations -/

section Synced

variable {document document' : Document} {stale : RelationSet} {touched : List Handle}
  {tree after : Tree}

namespace Tree.Synced

variable (synced : Tree.Synced document' touched tree after)
  (alike : Document.Alike (ContentNode.Renewable stale touched) document document')
  (wellFormed : document.WellFormed)
  (aligned : Alignment.Aligned document tree)
include synced

theorem live_of_live {id : NodeId} {node : AccessibleNode} (alive : tree.live id = some node) :
    after.live id = some (node.synced document' touched) := by
  rw [synced.lives, alive, Option.map_some]

theorem origin {id : NodeId} {node' : AccessibleNode} (alive : after.live id = some node') :
    ∃ node, tree.live id = some node ∧ node.synced document' touched = node' := by
  rw [synced.lives] at alive
  exact Option.map_eq_some_iff.mp alive

theorem nodeFor? (content : Handle) : after.nodeFor? content = tree.nodeFor? content := by
  ext id
  rw [synced.soundAfter.content, synced.soundBefore.content]
  constructor
  · rintro ⟨node', alive', rfl⟩
    obtain ⟨node, alive, rfl⟩ := synced.origin alive'
    exact ⟨node, alive, (node.sameLinks_synced document' touched).content.symm⟩
  · rintro ⟨node, alive, rfl⟩
    exact ⟨_, synced.live_of_live alive, (node.sameLinks_synced document' touched).content⟩

include alike aligned

/-- Afterwards every node has the attributes of its content. -/
theorem data {id : NodeId} {node : AccessibleNode} (alive : tree.live id = some node) :
    ∃ before content, document.get? node.content = some before ∧
      before.Renewable stale touched node.content content ∧
      node.attributes = before.attributes ∧
      (node.synced document' touched).attributes = content.attributes ∧
      document'.get? node.content = some content := by
  obtain ⟨before, storedBefore, own⟩ :=
    Option.map_eq_some_iff.mp (aligned.attributes synced.soundBefore alive)
  obtain ⟨content, stored, -, renewable⟩ := alike.exists_right storedBefore
  refine ⟨before, content, storedBefore, renewable, own.symm, ?_, stored⟩
  by_cases touches : node.content ∈ touched
  · rw [AccessibleNode.synced_of_mem touches stored]
  · rw [AccessibleNode.synced_of_not_mem touches, ← own, renewable.untouched touches]

/-- Every node keeps the attributes that relations are read from which are not stale. -/
theorem agreeFor {id : NodeId} {node : AccessibleNode} (alive : tree.live id = some node)
    {relation : Relation} (fresh : stale.contains relation = false) :
    Derivation.AgreeFor relation node (node.synced document' touched) := by
  obtain ⟨before, content, -, renewable, own, attributes, -⟩ := synced.data alike aligned alive
  refine ⟨(node.sameLinks_synced document' touched).kind, fun {name} reads => ?_, ?_⟩
  · rw [attributes, own, renewable.attributes fresh reads]
  · rw [attributes, own, renewable.exposure.attributes rfl]

/-- Where every node keeps its scope, a relation that is not stale cannot tell the tree and the document
from those before. -/
theorem renamed (scopes : ∀ {id : NodeId} {node : AccessibleNode}, tree.live id = some node →
      (node.synced document' touched).scope = node.scope)
    {relation : Relation} (fresh : stale.contains relation = false) :
    Derivation.Source.Renamed id relation { tree := tree, document := document }
      { tree := after, document := document' } := by
  refine ⟨⟨synced.soundBefore, synced.soundAfter, ?_, ?_, ?_⟩, ?_⟩
  · rw [Option.map_id]
    exact synced.root
  · intro key node alive
    have links := node.sameLinks_synced document' touched
    refine ⟨_, synced.live_of_live alive, ⟨links.content, links.kind, scopes alive, ?_, ?_⟩,
      synced.agreeFor alike aligned alive fresh⟩
    · rw [links.parent, Option.map_id]
      rfl
    · rw [links.children, List.map_id]
  · intro key node' alive'
    obtain ⟨node, alive, -⟩ := synced.origin alive'
    exact ⟨key, node, alive, rfl⟩
  · refine ⟨fun handle => ?_, fun handle => ?_, fun outer inner => ?_, fun reads handle => ?_⟩
    · exact (alike.contains_eq handle).symm
    · exact congrFun alike.scopeOf_eq.symm handle
    · exact (alike.encloses_eq outer inner).symm
    · dsimp only
      cases stored : document.get? handle with
      | none => rw [(alike.none_iff handle).mp stored]
      | some before =>
        obtain ⟨content, stored', -, renewable⟩ := alike.exists_right stored
        rw [stored', Option.bind_some, Option.bind_some, renewable.target fresh reads]

include wellFormed

/-- Unless the root is a shadow root, every node keeps its scope. -/
theorem scope (plain : document.isShadowRoot document.root = false) {id : NodeId}
    {node : AccessibleNode} (alive : tree.live id = some node) :
    (node.synced document' touched).scope = node.scope := by
  refine AccessibleNode.scope_synced fun _ => ?_
  rw [← alike.scopeOf_eq]
  exact aligned.scope synced.soundBefore wellFormed plain alive

theorem stillAligned : Alignment.Aligned document' after := by
  have layout : document'.layout = document.layout :=
    (Document.ExposedAlike.layout_eq (alike.imp fun _ _ _ _ _ renewable => renewable.exposure)).symm
  have known := synced.nodeFor?
  refine ⟨?_, ?_, ?_⟩
  · obtain ⟨top, atTop, knownTop⟩ := aligned.top
    refine ⟨top, synced.root.trans atTop, ?_⟩
    rw [known, ← alike.root, knownTop]
  · intro entry listed
    rw [layout] at listed ⊢
    obtain ⟨id, node, seated, children⟩ := aligned.seated entry listed
    have links := node.sameLinks_synced document' touched
    obtain ⟨before, content, -, -, -, attributes, stored⟩ :=
      synced.data alike aligned seated.alive
    have same := synced.soundBefore.content_of_nodeFor? seated.known seated.alive
    refine ⟨id, _, ⟨?_, synced.live_of_live seated.alive, ?_, ?_, ?_⟩, ?_⟩
    · rw [known, seated.known]
    · rw [Document.attributesOf?, ← same, stored, Option.map_some, attributes]
    · intro plain
      rw [← alike.isShadowRoot_eq, ← alike.root] at plain
      exact (synced.scope alike wellFormed aligned plain seated.alive).trans (seated.scope plain)
    · rw [links.parent, seated.parent, funext known]
    · rw [links.children, children, Alignment.seatsBelow, Alignment.seatsBelow, funext known]
  · intro id node' alive'
    obtain ⟨node, alive, rfl⟩ := synced.origin alive'
    rw [layout, (node.sameLinks_synced document' touched).content]
    exact aligned.only alive

end Tree.Synced

end Synced

end Accessibility
