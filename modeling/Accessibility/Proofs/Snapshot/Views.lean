import Accessibility.Proofs.Snapshot.Consistency
import Accessibility.Snapshot.View

/-!
Views of snapshots. A view tells nodes by their content; nothing is lost by that, and trees that are
the same but for the keys of their nodes have the same views.
-/

set_option autoImplicit false

namespace Accessibility

/-- Contents can stand for the nodes of a snapshot: no two nodes share one, and nothing that is told
of a node leads out of the snapshot. -/
structure Snapshot.Faithful (snapshot : Snapshot) : Prop where
  own : ∀ {id : NodeId} {info : NodeInfo}, snapshot.get? id = some info →
    snapshot.nodeFor? info.content = some id
  parent : ∀ {id parent : NodeId} {info : NodeInfo}, snapshot.get? id = some info →
    info.parent = some parent → snapshot.contains parent = true
  children : ∀ {id child : NodeId} {info : NodeInfo}, snapshot.get? id = some info →
    child ∈ info.children → snapshot.contains child = true
  targets : ∀ {relation : Relation} {id target : NodeId},
    target ∈ snapshot.targets relation id → snapshot.contains target = true

theorem Tree.contentOf?_snapshot {tree : Tree} {edges : Relation.Family Edges}
    (sound : tree.Sound) (id : NodeId) :
    (tree.snapshot edges).contentOf? id = (tree.live id).map AccessibleNode.content := by
  rw [Snapshot.contentOf?, get?_snapshot sound, Option.map_map]
  rfl

namespace Derivation.Source

variable {source left right : Source} {name : NodeId → NodeId} {id : NodeId}
  {node : AccessibleNode}

theorem faithful_snapshot (sound : source.tree.Sound) : source.snapshot.Faithful where
  own := by
    intro id info stored
    rw [snapshot, Tree.get?_snapshot sound] at stored
    obtain ⟨node, alive, rfl⟩ := Option.map_eq_some_iff.mp stored
    exact (Tree.nodeFor?_snapshot sound _).trans (sound.nodeFor?_of_live alive)
  parent := by
    intro id parent info stored linked
    rw [snapshot, Tree.get?_snapshot sound] at stored
    obtain ⟨node, alive, rfl⟩ := Option.map_eq_some_iff.mp stored
    obtain ⟨above, aliveParent, -⟩ := sound.forest.parent_live alive linked
    exact (Tree.contains_snapshot sound).mpr ⟨above, aliveParent⟩
  children := by
    intro id child info stored listed
    rw [snapshot, Tree.get?_snapshot sound] at stored
    obtain ⟨node, alive, rfl⟩ := Option.map_eq_some_iff.mp stored
    obtain ⟨below, aliveChild, -⟩ := (sound.forest.listed alive).mp listed
    exact (Tree.contains_snapshot sound).mpr ⟨below, aliveChild⟩
  targets := by
    intro relation id target listed
    rw [targets_snapshot] at listed
    exact (Tree.contains_snapshot sound).mpr ((fitting_table sound relation id).live target listed)

/-- Sources whose trees are the same but for the keys of nodes, each with its relations. -/
structure SameView (name : NodeId → NodeId) (left right : Source) : Prop where
  tree : Tree.Renamed name (fun node node' => node'.attributes = node.attributes) left.tree right.tree
  document : right.document = left.document

namespace SameView

theorem renamed (same : SameView name left right) (relation : Relation) :
    Renamed name relation left right := by
  refine ⟨same.tree.imp fun self attributes => .of_same_attributes self.kind attributes, ?_⟩
  rw [same.document]
  exact .refl relation left.document

theorem contentOf? (same : SameView name left right) (alive : left.tree.live id = some node) :
    right.snapshot.contentOf? (name id) = left.snapshot.contentOf? id := by
  obtain ⟨node', alive', self, -⟩ := same.tree.alive alive
  rw [snapshot, snapshot, Tree.contentOf?_snapshot same.tree.soundLeft,
    Tree.contentOf?_snapshot same.tree.soundRight, alive, alive', Option.map_some, Option.map_some,
    self.content]

theorem filterMap_contentOf? (same : SameView name left right) {ids : List NodeId}
    (live : ∀ id ∈ ids, ∃ node, left.tree.live id = some node) :
    (ids.map name).filterMap right.snapshot.contentOf? =
      ids.filterMap left.snapshot.contentOf? := by
  rw [List.filterMap_map]
  refine List.filterMap_congr fun id listed => ?_
  obtain ⟨node, alive⟩ := live id listed
  exact same.contentOf? alive

theorem rootContent (same : SameView name left right) :
    right.snapshot.root.bind right.snapshot.contentOf? =
      left.snapshot.root.bind left.snapshot.contentOf? := by
  have root (source : Source) : source.snapshot.root = source.tree.root := rfl
  rw [root, root, same.tree.root]
  cases atTop : left.tree.root with
  | none => rw [Option.map_none, Option.bind_none, Option.bind_none]
  | some top =>
    obtain ⟨topNode, aliveTop, -⟩ := same.tree.soundLeft.forest.root_live atTop
    rw [Option.map_some, Option.bind_some, Option.bind_some, same.contentOf? aliveTop]

/-- Such sources have the same views. -/
theorem view? (same : SameView name left right) (content : Handle) :
    right.snapshot.view? content = left.snapshot.view? content := by
  have soundLeft := same.tree.soundLeft
  have soundRight := same.tree.soundRight
  rw [Snapshot.view?, Snapshot.view?]
  have knownRight : right.snapshot.nodeFor? content = right.tree.nodeFor? content :=
    Tree.nodeFor?_snapshot soundRight content
  have knownLeft : left.snapshot.nodeFor? content = left.tree.nodeFor? content :=
    Tree.nodeFor?_snapshot soundLeft content
  rw [knownRight, knownLeft, same.tree.nodeFor?]
  cases known : left.tree.nodeFor? content with
  | none => rw [Option.map_none, Option.bind_none, Option.bind_none]
  | some id =>
    obtain ⟨node, alive, -⟩ := soundLeft.live_of_nodeFor? known
    obtain ⟨node', alive', self, attributes⟩ := same.tree.alive alive
    have told : left.snapshot.get? id = some (node.info (left.tree.preorder.idxOf id)) :=
      Tree.get?_snapshot_of_live soundLeft alive
    have told' : right.snapshot.get? (name id) =
        some (node'.info (left.tree.preorder.idxOf id)) := by
      rw [← same.tree.idxOf_map (fun other listed => soundLeft.mem_preorder.mp listed) alive,
        ← same.tree.preorder]
      exact Tree.get?_snapshot_of_live soundRight alive'
    rw [Option.map_some, Option.bind_some, Option.bind_some, told, told', Option.map_some,
      Option.map_some]
    simp only [AccessibleNode.info, Option.some.injEq, NodeView.mk.injEq]
    refine ⟨?_, ?_, ?_, self.scope, ?_, ?_, trivial, ?_⟩
    · rw [AccessibleNode.tag?, AccessibleNode.tag?, self.kind]
    · rw [AccessibleNode.domId?, AccessibleNode.domId?, attributes]
    · rw [AccessibleNode.role, AccessibleNode.role, self.kind, attributes]
    · rw [self.parent]
      cases linked : node.parent with
      | none => rw [Option.map_none, Option.bind_none, Option.bind_none]
      | some parent =>
        obtain ⟨above, aliveParent, -⟩ := soundLeft.forest.parent_live alive linked
        rw [Option.map_some, Option.bind_some, Option.bind_some, same.contentOf? aliveParent]
    · rw [self.children]
      refine same.filterMap_contentOf? fun child listed => ?_
      obtain ⟨below, aliveChild, -⟩ := (soundLeft.forest.listed alive).mp listed
      exact ⟨below, aliveChild⟩
    · refine Relation.Family.ext_get fun relation => ?_
      rw [Relation.Family.get_ofFn, Relation.Family.get_ofFn, targets_snapshot, targets_snapshot,
        (same.renamed relation).targets_table alive]
      exact same.filterMap_contentOf? (fitting_table soundLeft relation id).live

end SameView

end Derivation.Source

end Accessibility
