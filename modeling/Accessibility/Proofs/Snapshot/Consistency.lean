import Accessibility.Proofs.Derivation.Renewal
import Accessibility.Proofs.Snapshot.Coherence
import Accessibility.Proofs.Snapshot.Taking

/-!
A snapshot of a sound tree with relations derived from scratch has no violations, and its child
lists lead from the root to every node once, in the order of the nodes.
-/

set_option autoImplicit false

namespace Accessibility

open Std

namespace Snapshot

/-- The walk that child lists give from a node: the node, and then the walks from its children. -/
inductive Walk (snapshot : Snapshot) : NodeId → List NodeId → Prop
  | down {id : NodeId} {info : NodeInfo} {walkFrom : NodeId → List NodeId}
      (stored : snapshot.get? id = some info)
      (children : ∀ child ∈ info.children, Walk snapshot child (walkFrom child)) :
      Walk snapshot id (id :: info.children.flatMap walkFrom)

/-- The walk from the root meets every node once, and the orders count the nodes as they are met. -/
structure Complete (snapshot : Snapshot) (walk : List NodeId) : Prop where
  nodup : walk.Nodup
  all : ∀ {id : NodeId}, id ∈ walk ↔ snapshot.contains id = true
  orders : ∀ {position : Nat} {id : NodeId}, walk[position]? = some id →
    (snapshot.get? id).map NodeInfo.order = some position

/-- Nothing is wrong with a snapshot, and all its nodes hang on the root, which stands for the given
content. -/
structure Consistent (content : Handle) (snapshot : Snapshot) : Prop where
  sound : snapshot.violations = []
  rooted : ∃ root info walk, snapshot.root = some root ∧ snapshot.get? root = some info ∧
    info.content = content ∧ snapshot.Walk root walk ∧ snapshot.Complete walk

/-! The version of a snapshot is no matter of its links. -/

theorem targetViolations_versioned (snapshot : Snapshot) (version : Version) (relation : Relation)
    (source : NodeId) (targets earlier later : List NodeId) :
    ({ snapshot with version := version } : Snapshot).targetViolations relation source targets
        earlier later = snapshot.targetViolations relation source targets earlier later := by
  induction later generalizing earlier with
  | nil => rfl
  | cons target rest ih =>
    rw [targetViolations, ih, targetViolations]
    rfl

theorem violations_versioned (snapshot : Snapshot) (version : Version) :
    ({ snapshot with version := version } : Snapshot).violations = snapshot.violations := by
  simp only [violations, sourceViolations, targetViolations_versioned]
  rfl

theorem Walk.versioned {snapshot : Snapshot} {id : NodeId} {walk : List NodeId}
    (walked : snapshot.Walk id walk) (version : Version) :
    ({ snapshot with version := version } : Snapshot).Walk id walk := by
  induction walked with
  | down stored _ ih => exact .down stored ih

theorem Consistent.versioned {content : Handle} {snapshot : Snapshot}
    (consistent : snapshot.Consistent content) (version : Version) :
    ({ snapshot with version := version } : Snapshot).Consistent content := by
  obtain ⟨sound, root, info, walk, atTop, stored, same, walked, complete⟩ := consistent
  exact ⟨(violations_versioned snapshot version).trans sound, root, info, walk, atTop, stored, same,
    walked.versioned version, ⟨complete.nodup, complete.all, complete.orders⟩⟩

end Snapshot

/-! ### Walks -/

namespace Tree

variable {tree : Tree} {edges : Relation.Family Edges} {id : NodeId} {node : AccessibleNode}

theorem walk_descend (sound : tree.Sound) {depth : Nat} (alive : tree.live id = some node)
    (bounded : ∀ steps lower, Walk.Reaches tree.live.childrenOf steps id lower → steps < depth) :
    (tree.snapshot edges).Walk id (tree.descend depth id) := by
  induction depth generalizing id node with
  | zero => exact absurd (bounded 0 id (.here id)) (Nat.not_lt_zero 0)
  | succ depth ih =>
    rw [descend, get?_of_live alive]
    refine .down (get?_snapshot_of_live sound alive) fun child listed => ?_
    obtain ⟨childNode, aliveChild, -⟩ := (sound.forest.listed alive).mp listed
    refine ih aliveChild fun steps lower reached => ?_
    have bound := bounded (steps + 1) lower (.step (Live.childrenOf_of_live alive) listed reached)
    omega

theorem walk_preorder (sound : tree.Sound) {root : NodeId} (atTop : tree.root = some root) :
    (tree.snapshot edges).Walk root tree.preorder := by
  obtain ⟨top, alive, -⟩ := sound.forest.root_live atTop
  have whole : tree.preorder = tree.descend tree.size root := by
    rw [preorder, atTop]
    rfl
  rw [whole]
  exact walk_descend sound alive fun steps lower reached => sound.steps_lt_size alive reached

theorem complete_preorder (sound : tree.Sound) :
    (tree.snapshot edges).Complete tree.preorder where
  nodup := sound.preorder_nodup
  all := by
    intro id
    rw [sound.mem_preorder, contains_snapshot sound]
  orders := by
    intro position id met
    obtain ⟨node, alive⟩ := sound.mem_preorder.mp (List.mem_of_getElem? met)
    obtain ⟨inside, same⟩ := List.getElem?_eq_some_iff.mp met
    rw [get?_snapshot_of_live sound alive, Option.map_some, AccessibleNode.info, ← same,
      sound.preorder_nodup.idxOf_getElem]

/-! ### Links -/

theorem linksAgree_snapshot (sound : tree.Sound) : (tree.snapshot edges).LinksAgree where
  listed known linked := by
    rw [get?_snapshot sound] at known
    obtain ⟨node, alive, rfl⟩ := Option.map_eq_some_iff.mp known
    obtain ⟨above, aliveParent, listed⟩ := sound.forest.parent_live alive linked
    exact ⟨_, get?_snapshot_of_live sound aliveParent, listed⟩
  rooted known parentless := by
    rw [get?_snapshot sound] at known
    obtain ⟨node, alive, rfl⟩ := Option.map_eq_some_iff.mp known
    exact sound.forest.root_of_parentless alive parentless
  linked known listed := by
    rw [get?_snapshot sound] at known
    obtain ⟨node, alive, rfl⟩ := Option.map_eq_some_iff.mp known
    obtain ⟨child, aliveChild, linked⟩ := (sound.forest.listed alive).mp listed
    exact ⟨_, get?_snapshot_of_live sound aliveChild, linked⟩

end Tree

/-! ### Edges -/

namespace Derivation.Source

variable {source : Source} {relation : Relation} {id : NodeId}

/-- The snapshot of a source with all its relations. -/
def snapshot (source : Source) : Snapshot :=
  source.tree.snapshot source.tables

theorem targets_snapshot (source : Source) (relation : Relation) (id : NodeId) :
    source.snapshot.targets relation id = (source.table relation).targets id := by
  rw [Snapshot.targets, snapshot, Tree.snapshot, tables, Relation.Family.get_ofFn]

theorem edgesAgree_snapshot (sound : source.tree.Sound) : source.snapshot.EdgesAgree where
  inside listed := by
    rw [targets_snapshot] at listed
    rw [snapshot, Tree.contains_snapshot sound, Tree.contains_snapshot sound]
    exact ⟨live_of_targets sound listed, (fitting_table sound _ _).live _ listed⟩
  nodup relation id := by
    rw [targets_snapshot]
    exact (fitting_table sound relation id).nodup
  reversed paired _ _ := by
    rw [targets_snapshot, targets_snapshot, mem_targets_of_reverse? sound paired]
  own entry := by
    obtain ⟨some, rfl⟩ :=
      (Edges.getElem?_eq_some_iff (occupied_table sound .memberOf)).mp entry
    obtain ⟨target, listed⟩ := List.exists_mem_of_ne_nil _ some
    exact (targets_groups_of_mem sound listed).2
  shared listed := by
    rw [targets_snapshot] at listed ⊢
    rw [targets_snapshot]
    exact (targets_groups_of_mem sound listed).1

theorem violations_eq_nil (sound : source.tree.Sound) : source.snapshot.violations = [] :=
  Snapshot.coherent_iff.mpr ⟨Tree.linksAgree_snapshot sound, edgesAgree_snapshot sound⟩

/-- The snapshot of a source is consistent, if the tree has a root. -/
theorem consistent_snapshot (sound : source.tree.Sound) {root : NodeId} {node : AccessibleNode}
    (atTop : source.tree.root = some root) (alive : source.tree.live root = some node) :
    source.snapshot.Consistent node.content where
  sound := violations_eq_nil sound
  rooted := ⟨root, _, source.tree.preorder, atTop, Tree.get?_snapshot_of_live sound alive, rfl,
    Tree.walk_preorder sound atTop, Tree.complete_preorder sound⟩

end Derivation.Source

end Accessibility
