import Accessibility.Proofs.Arena
import Accessibility.Proofs.Tree.Forest
import Accessibility.Tree.Edit

/-!
Accessible trees whose live nodes form one tree and whose indexes tell of the live nodes. Every call
keeps that, and is told here by what it does to the live nodes.
-/

set_option autoImplicit false

namespace Accessibility.Tree

open Std

/-- A node, unless it is pending. -/
def live (tree : Tree) : Live :=
  fun id => (tree.get? id).filter AccessibleNode.alive

/-- The nodes entered under a DOM id in a scope. -/
def named (tree : Tree) (key : ScopedId) : List NodeId :=
  tree.byDomId[key]?.getD []

/-- Whether a node has a DOM id in a scope. -/
def Carries (key : ScopedId) (node : AccessibleNode) : Prop :=
  node.scope = key.scope ∧ node.domId? = some key.domId

instance (key : ScopedId) (node : AccessibleNode) : Decidable (Carries key node) :=
  inferInstanceAs (Decidable (_ ∧ _))

/-- The index of contents leads to exactly the live nodes, and a live node is entered under the DOM
id that it carries. A pending node, even a retired one, may be entered too: `sync` enters whatever
node it is given. -/
structure Indexed (tree : Tree) : Prop where
  content : ∀ {content : Handle} {id : NodeId}, tree.nodeFor? content = some id ↔
    ∃ node, tree.live id = some node ∧ node.content = content
  indexed : ∀ {key : ScopedId} {id : NodeId} {node : AccessibleNode}, tree.live id = some node →
    (id ∈ tree.named key ↔ Carries key node)
  entered : ∀ {key : ScopedId} {id : NodeId}, id ∈ tree.named key → tree.nodes.Issued id

structure Sound (tree : Tree) : Prop extends Indexed tree where
  forest : Forest tree.live tree.root
  tidy : tree.nodes.Tidy

section Live

variable {tree : Tree} {id : NodeId} {node : AccessibleNode}

theorem live_eq_some :
    tree.live id = some node ↔ tree.get? id = some node ∧ node.alive = true := by
  rw [live, Option.filter_eq_some_iff]

theorem get?_of_live (alive : tree.live id = some node) : tree.get? id = some node :=
  (live_eq_some.mp alive).1

theorem alive_of_live (alive : tree.live id = some node) : node.alive = true :=
  (live_eq_some.mp alive).2

theorem isAlive_iff_live : tree.isAlive id = true ↔ ∃ node, tree.live id = some node := by
  rw [isAlive, live]
  cases tree.get? id with
  | none => simp
  | some node => simp [Option.filter]

theorem parent?_of_live (alive : tree.live id = some node) : tree.parent? id = node.parent := by
  rw [parent?, get?_of_live alive, Option.bind_some]

theorem children_of_live (alive : tree.live id = some node) : tree.children id = node.children := by
  rw [children, get?_of_live alive, Option.map_some, Option.getD_some]

/-- Trees with the same nodes have the same live nodes. -/
theorem live_congr {other : Tree} (same : other.nodes = tree.nodes) : other.live = tree.live := by
  funext id
  rw [live, live, get?, get?, same]

end Live

namespace Sound

variable {tree : Tree} {id : NodeId} {node : AccessibleNode}

theorem nodeFor?_of_live (sound : tree.Sound) (alive : tree.live id = some node) :
    tree.nodeFor? node.content = some id :=
  sound.content.mpr ⟨node, alive, rfl⟩

theorem live_of_nodeFor? (sound : tree.Sound) {content : Handle}
    (known : tree.nodeFor? content = some id) :
    ∃ node, tree.live id = some node ∧ node.content = content :=
  sound.content.mp known

/-- A live node stands for the content that it is the node of. -/
theorem content_of_nodeFor? (sound : tree.Sound) {content : Handle}
    (known : tree.nodeFor? content = some id) (alive : tree.live id = some node) :
    node.content = content := by
  obtain ⟨node', alive', same⟩ := sound.live_of_nodeFor? known
  rw [alive] at alive'
  cases alive'
  exact same

/-- No live node stands for two content nodes. -/
theorem eq_of_nodeFor? (sound : tree.Sound) {one other : Handle} (known : tree.nodeFor? one = some id)
    (knownOther : tree.nodeFor? other = some id) : one = other := by
  obtain ⟨node, alive, same⟩ := sound.live_of_nodeFor? known
  exact same.symm.trans (sound.content_of_nodeFor? knownOther alive)

/-- No two live nodes stand for the same content. -/
theorem content_injective (sound : tree.Sound) {other : NodeId} {node' : AccessibleNode}
    (alive : tree.live id = some node) (alive' : tree.live other = some node')
    (same : node.content = node'.content) : id = other := by
  have known := sound.nodeFor?_of_live alive
  rw [same, sound.nodeFor?_of_live alive'] at known
  exact (Option.some.inj known).symm

/-- The live nodes among those entered under a DOM id are the ones that carry it. -/
theorem named_alive_iff (sound : tree.Sound) {key : ScopedId} :
    id ∈ tree.named key ∧ tree.isAlive id = true ↔
      ∃ node, tree.live id = some node ∧ Carries key node := by
  rw [isAlive_iff_live]
  constructor
  · rintro ⟨named, node, alive⟩
    exact ⟨node, alive, (sound.indexed alive).mp named⟩
  · rintro ⟨node, alive, carries⟩
    exact ⟨(sound.indexed alive).mpr carries, node, alive⟩

end Sound

/-! ### Parts of edits -/

theorem get?_modify (tree : Tree) (id other : NodeId) (change : AccessibleNode → AccessibleNode) :
    (tree.modify id change).get? other =
      if id = other then (tree.get? id).map change else tree.get? other :=
  Arena.get?_modify tree.nodes id other change

theorem nodes_indexDomId (tree : Tree) (id : NodeId) : (tree.indexDomId id).nodes = tree.nodes := by
  unfold indexDomId
  split
  · rfl
  · split <;> rfl

theorem byContent_indexDomId (tree : Tree) (id : NodeId) :
    (tree.indexDomId id).byContent = tree.byContent := by
  unfold indexDomId
  split
  · rfl
  · split <;> rfl

theorem root_indexDomId (tree : Tree) (id : NodeId) : (tree.indexDomId id).root = tree.root := by
  unfold indexDomId
  split
  · rfl
  · split <;> rfl

theorem nodes_unindexDomId (tree : Tree) (id : NodeId) :
    (tree.unindexDomId id).nodes = tree.nodes := by
  unfold unindexDomId
  split
  · rfl
  · split
    · rfl
    · dsimp only
      split <;> rfl

theorem byContent_unindexDomId (tree : Tree) (id : NodeId) :
    (tree.unindexDomId id).byContent = tree.byContent := by
  unfold unindexDomId
  split
  · rfl
  · split
    · rfl
    · dsimp only
      split <;> rfl

theorem root_unindexDomId (tree : Tree) (id : NodeId) :
    (tree.unindexDomId id).root = tree.root := by
  unfold unindexDomId
  split
  · rfl
  · split
    · rfl
    · dsimp only
      split <;> rfl

theorem carries_iff {key : ScopedId} {node : AccessibleNode} {domId : String}
    (has : node.domId? = some domId) : Carries key node ↔ (⟨node.scope, domId⟩ : ScopedId) = key := by
  obtain ⟨scope, name⟩ := key
  rw [Carries, has, ScopedId.mk.injEq, Option.some.injEq]

theorem mem_named_indexDomId {tree : Tree} {id other : NodeId} {key : ScopedId} :
    other ∈ (tree.indexDomId id).named key ↔
      other ∈ tree.named key ∨ (other = id ∧ ∃ node, tree.get? id = some node ∧ Carries key node) := by
  cases stored : tree.get? id with
  | none => simp [indexDomId, stored]
  | some node =>
    cases has : node.domId? with
    | none => simp [indexDomId, stored, has, Carries]
    | some domId =>
      simp only [indexDomId, stored, has, Option.some.injEq, exists_eq_left', carries_iff has, named,
        ExtTreeMap.getElem?_insert, Std.compare_eq_iff_eq]
      by_cases same : (⟨node.scope, domId⟩ : ScopedId) = key
      · subst same
        simp
      · simp [same]

theorem mem_named_unindexDomId {tree : Tree} {id other : NodeId} {key : ScopedId} :
    other ∈ (tree.unindexDomId id).named key ↔
      other ∈ tree.named key ∧
        ¬ (other = id ∧ ∃ node, tree.get? id = some node ∧ Carries key node) := by
  cases stored : tree.get? id with
  | none => simp [unindexDomId, stored]
  | some node =>
    cases has : node.domId? with
    | none => simp [unindexDomId, stored, has, Carries]
    | some domId =>
      simp only [unindexDomId, stored, has, Option.some.injEq, exists_eq_left', carries_iff has]
      have kept : other ∈ (tree.named ⟨node.scope, domId⟩).filter (· != id) ↔
          other ∈ tree.named ⟨node.scope, domId⟩ ∧ ¬ other = id := by simp
      by_cases same : (⟨node.scope, domId⟩ : ScopedId) = key
      · subst same
        split
        · rename_i empty
          rw [named, empty] at kept
          simpa [named] using kept
        · simp [named]
      · split <;> simp [named, ExtTreeMap.getElem?_erase, ExtTreeMap.getElem?_insert, same]

/-! ### New nodes -/

section Add

variable (tree : Tree) (content : Handle) (parent : Option NodeId) (seed : Seed)

/-- The node that a call creates. -/
def leaf : AccessibleNode :=
  ⟨content, seed.kind, seed.attributes, seed.scope, true, parent, []⟩

theorem get?_add (other : NodeId) :
    (tree.add content parent seed).get? other =
      if tree.nodes.nextKey = other then some (leaf content parent seed) else tree.get? other := by
  rw [add, get?, nodes_indexDomId]
  exact Arena.get?_insert tree.nodes _ other

theorem nodeFor?_add (other : Handle) :
    (tree.add content parent seed).nodeFor? other =
      if content = other then some tree.nodes.nextKey else tree.nodeFor? other := by
  rw [add, nodeFor?, byContent_indexDomId]
  simp only [ExtTreeMap.getElem?_insert, Std.compare_eq_iff_eq, nodeFor?]

theorem root_add : (tree.add content parent seed).root = tree.root := by
  rw [add, root_indexDomId]

theorem nodes_add :
    (tree.add content parent seed).nodes = tree.nodes.insert (leaf content parent seed) := by
  rw [add, nodes_indexDomId]
  rfl

theorem mem_named_add {other : NodeId} {key : ScopedId} :
    other ∈ (tree.add content parent seed).named key ↔
      other ∈ tree.named key ∨
        (other = tree.nodes.nextKey ∧ Carries key (leaf content parent seed)) := by
  rw [add, mem_named_indexDomId]
  have stored := Arena.get?_insert tree.nodes (leaf content parent seed) tree.nodes.nextKey
  rw [if_pos rfl] at stored
  refine or_congr Iff.rfl (and_congr_right fun _ => ?_)
  rw [get?]
  dsimp only
  rw [leaf] at stored
  rw [stored]
  simp [leaf]

end Add

end Accessibility.Tree
