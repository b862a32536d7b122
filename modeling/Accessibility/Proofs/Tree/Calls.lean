import Accessibility.Proofs.Tree.Order
import Accessibility.Proofs.Tree.Steps

/-!
What each call on a sound tree does to its live nodes.
-/

set_option autoImplicit false

namespace Accessibility.Tree

open Std

/-! ### Creating -/

section Create

variable {tree : Tree} {content : Handle}

theorem Sound.not_content (sound : tree.Sound) (absent : tree.nodeFor? content = none)
    {id : NodeId} {node : AccessibleNode} (alive : tree.live id = some node) :
    node.content ≠ content := by
  rintro rfl
  rw [sound.nodeFor?_of_live alive] at absent
  cases absent

theorem Sound.live_nextKey (sound : tree.Sound) : tree.live tree.nodes.nextKey = none := by
  rw [live, get?, sound.tidy.get?_nextKey, Option.filter_none]

theorem live_add (parent : Option NodeId) (seed : Seed) (other : NodeId) :
    (tree.add content parent seed).live other =
      if other = tree.nodes.nextKey then some (leaf content parent seed) else tree.live other := by
  rw [live, get?_add]
  by_cases same : tree.nodes.nextKey = other
  · rw [if_pos same, if_pos same.symm]
    rfl
  · rw [if_neg same, if_neg (Ne.symm same)]
    rfl

theorem Sound.content_add (sound : tree.Sound) (absent : tree.nodeFor? content = none)
    (parent : Option NodeId) (seed : Seed) {other : Handle} {id : NodeId} :
    (tree.add content parent seed).nodeFor? other = some id ↔
      ∃ node, (tree.add content parent seed).live id = some node ∧ node.content = other := by
  rw [nodeFor?_add, live_add]
  by_cases here : content = other
  · subst here
    rw [if_pos rfl, Option.some.injEq]
    constructor
    · rintro rfl
      exact ⟨_, if_pos rfl, rfl⟩
    · rintro ⟨node, alive, same⟩
      split at alive
      · exact Eq.symm ‹_›
      · exact absurd same (sound.not_content absent alive)
  · rw [if_neg here, sound.content]
    constructor
    · rintro ⟨node, alive, same⟩
      refine ⟨node, ?_, same⟩
      rw [if_neg, alive]
      rintro rfl
      rw [sound.live_nextKey] at alive
      cases alive
    · rintro ⟨node, alive, same⟩
      split at alive
      · cases alive
        exact absurd same here
      · exact ⟨node, alive, same⟩

theorem Sound.indexed_add (sound : tree.Sound) (parent : Option NodeId) (seed : Seed)
    {key : ScopedId} {id : NodeId} {node : AccessibleNode}
    (alive : (tree.add content parent seed).live id = some node) :
    id ∈ (tree.add content parent seed).named key ↔ Carries key node := by
  rw [mem_named_add]
  rw [live_add] at alive
  split at alive
  · rename_i new
    subst new
    cases alive
    constructor
    · rintro (entered | ⟨-, carries⟩)
      · exact absurd (sound.entered entered) sound.tidy.not_issued_nextKey
      · exact carries
    · exact fun carries => .inr ⟨rfl, carries⟩
  · rename_i differ
    rw [sound.indexed alive]
    exact or_iff_left fun both => differ both.1

theorem Sound.entered_add (sound : tree.Sound) (parent : Option NodeId) (seed : Seed)
    {key : ScopedId} {id : NodeId} (named : id ∈ (tree.add content parent seed).named key) :
    (tree.add content parent seed).nodes.Issued id := by
  rw [nodes_add]
  rcases mem_named_add _ _ _ _ |>.mp named with entered | ⟨rfl, -⟩
  · exact (sound.entered entered).insert sound.tidy _
  · refine Arena.issued_of_get? ((Arena.get?_insert tree.nodes _ _).trans (if_pos rfl))

theorem Sound.indexes_add (sound : tree.Sound) (absent : tree.nodeFor? content = none)
    (parent : Option NodeId) (seed : Seed) : (tree.add content parent seed).Indexed :=
  ⟨sound.content_add absent parent seed, sound.indexed_add parent seed,
    sound.entered_add parent seed⟩

/-- The first node of a tree without any. -/
theorem Sound.createRoot (sound : tree.Sound) (rootless : tree.root = none)
    (seed : Seed) :
    ∃ after, tree.createRoot content seed = .done after tree.nodes.nextKey ∧ after.Sound ∧
      after.root = some tree.nodes.nextKey ∧
      ∀ id, after.live id =
        if id = tree.nodes.nextKey then some (leaf content none seed) else none := by
  have empty (id : NodeId) : tree.live id = none := by
    cases alive : tree.live id with
    | none => rfl
    | some node =>
      obtain ⟨top, atTop, -⟩ := sound.forest.reached alive
      rw [rootless] at atTop
      cases atTop
  have absent : tree.nodeFor? content = none := by
    cases known : tree.nodeFor? content with
    | none => rfl
    | some id =>
      obtain ⟨node, alive, -⟩ := sound.content.mp known
      rw [empty] at alive
      cases alive
  have lives (id : NodeId) : (tree.add content none seed).live id =
      if id = tree.nodes.nextKey then some (leaf content none seed) else none := by
    rw [live_add, empty]
  refine ⟨{ tree.add content none seed with root := some tree.nodes.nextKey }, ?_, ?_, rfl, lives⟩
  · exact createRoot_eq_done rootless absent seed
  have only {id : NodeId} {node : AccessibleNode}
      (alive : (tree.add content none seed).live id = some node) :
      id = tree.nodes.nextKey ∧ node = leaf content none seed := by
    rw [lives] at alive
    split at alive
    · exact ⟨‹_›, (Option.some.inj alive).symm⟩
    · cases alive
  have indexes := sound.indexes_add absent none seed
  refine ⟨⟨indexes.content, indexes.indexed, indexes.entered⟩, ⟨?_, ?_, ?_, ?_⟩, ?_⟩
  · intro top atTop
    cases atTop
    exact ⟨_, (lives _).trans (if_pos rfl), rfl⟩
  · intro id node alive
    obtain ⟨rfl, -⟩ := only alive
    exact ⟨_, rfl, .refl _ _⟩
  · intro parent child above alive
    obtain ⟨rfl, rfl⟩ := only alive
    constructor
    · exact nofun
    · rintro ⟨node, aliveChild, linked⟩
      obtain ⟨rfl, rfl⟩ := only aliveChild
      cases linked
  · intro parent above alive
    obtain ⟨rfl, rfl⟩ := only alive
    exact List.nodup_nil
  · rw [nodes_add]
    exact sound.tidy.insert _

theorem sound_empty : empty.Sound where
  forest := by
    have none (id : NodeId) : empty.live id = none := by
      rw [live, get?]
      exact congrArg (Option.filter _) (Arena.get?_empty id)
    refine ⟨?_, ?_, ?_, ?_⟩
    · intro top atTop
      cases atTop
    · intro id node alive
      rw [none] at alive
      cases alive
    · intro parent child above alive
      rw [none] at alive
      cases alive
    · intro parent above alive
      rw [none] at alive
      cases alive
  tidy := Arena.tidy_empty
  content := by
    intro content id
    simp [empty, nodeFor?, live, get?, Arena.get?_empty]
  indexed := by
    intro key id node alive
    simp [empty, live, get?, Arena.get?_empty] at alive
  entered := by
    intro key id named
    simp [empty, Tree.named] at named

end Create

section Links

variable {tree : Tree}

/-! ### One node changed -/

/-- Links of a node are no matter of the indexes. -/
structure KeepsData (change : AccessibleNode → AccessibleNode) : Prop where
  content : ∀ node, (change node).content = node.content
  attributes : ∀ node, (change node).attributes = node.attributes
  scope : ∀ node, (change node).scope = node.scope
  alive : ∀ node, (change node).alive = node.alive

/-- A change of one node, seen as one of all nodes. -/
theorem get?_modify_eq_map (tree : Tree) (id : NodeId) (change : AccessibleNode → AccessibleNode)
    (other : NodeId) : (tree.modify id change).get? other =
      (tree.get? other).map fun node => if other = id then change node else node := by
  rw [get?_modify]
  by_cases here : other = id
  · subst here
    simp only [if_true]
  · simp only [here, Ne.symm here, if_false, Option.map_id']

theorem map_eq_of_unchanged {id : NodeId} {change : AccessibleNode → AccessibleNode}
    (unchanged : ∀ node, tree.get? id = some node → change node = node) (other : NodeId) :
    ((tree.get? other).map fun node => if other = id then change node else node) =
      tree.get? other := by
  cases stored : tree.get? other with
  | none => rfl
  | some node =>
    rw [Option.map_some]
    split
    · rename_i here
      rw [unchanged node (here ▸ stored)]
    · rfl

/-- A change of nodes is one of the live nodes, if it neither revives a node nor makes it pending. -/
theorem live_eq_map {after : Tree} {change : NodeId → AccessibleNode → AccessibleNode}
    (same : ∀ id, after.get? id = (tree.get? id).map (change id))
    (kept : ∀ id node, (change id node).alive = node.alive) (id : NodeId) :
    after.live id = (tree.live id).map (change id) := by
  rw [live, live, same]
  cases tree.get? id with
  | none => rfl
  | some node =>
    rw [Option.map_some, Option.filter_some, Option.filter_some, kept]
    split <;> rfl

theorem live_modify_eq_map (id : NodeId) {change : AccessibleNode → AccessibleNode}
    (kept : ∀ node, (change node).alive = node.alive) (other : NodeId) :
    (tree.modify id change).live other =
      (tree.live other).map fun node => if other = id then change node else node := by
  refine live_eq_map (get?_modify_eq_map tree id change) (fun other node => ?_) other
  split
  · exact kept node
  · rfl

theorem live_modify (id other : NodeId) (change : AccessibleNode → AccessibleNode)
    (kept : ∀ node, (change node).alive = node.alive) :
    (tree.modify id change).live other =
      if other = id then (tree.live id).map change else tree.live other := by
  rw [live_modify_eq_map id kept]
  by_cases here : other = id
  · subst here
    simp only [if_true]
  · simp only [here, if_false, Option.map_id']

/-- The index of contents stays right as long as nodes keep their contents. -/
theorem Indexed.content_map (indexes : tree.Indexed) {after : Tree}
    {change : NodeId → AccessibleNode → AccessibleNode}
    (lives : ∀ id, after.live id = (tree.live id).map (change id))
    (contents : ∀ id node, (change id node).content = node.content)
    (same : after.byContent = tree.byContent) {content : Handle} {id : NodeId} :
    after.nodeFor? content = some id ↔ ∃ node, after.live id = some node ∧ node.content = content := by
  rw [nodeFor?, same, ← nodeFor?, indexes.content, lives]
  constructor
  · rintro ⟨node, alive, rfl⟩
    exact ⟨change id node, by rw [alive, Option.map_some], contents id node⟩
  · rintro ⟨node, alive, rfl⟩
    obtain ⟨old, aliveBefore, rfl⟩ := Option.map_eq_some_iff.mp alive
    exact ⟨old, aliveBefore, (contents id old).symm⟩

theorem Indexed.modify (indexes : tree.Indexed) (id : NodeId)
    (change : AccessibleNode → AccessibleNode) (keeps : KeepsData change) :
    (tree.modify id change).Indexed := by
  have lives := @live_modify_eq_map tree id change keeps.alive
  have carries (key : ScopedId) (other : NodeId) (old : AccessibleNode) :
      Carries key (if other = id then change old else old) ↔ Carries key old := by
    split
    · rw [Carries, Carries, AccessibleNode.domId?, AccessibleNode.domId?, keeps.attributes,
        keeps.scope]
    · exact Iff.rfl
  refine ⟨indexes.content_map lives (fun other old => ?_) rfl, ?_,
    fun named => (indexes.entered named).modify id change⟩
  · split
    · exact keeps.content old
    · rfl
  · intro key other node alive
    rw [lives] at alive
    obtain ⟨old, aliveBefore, rfl⟩ := Option.map_eq_some_iff.mp alive
    rw [carries, ← indexes.indexed aliveBefore]
    rfl

theorem live_link (parent : NodeId) (index : Nat) (child other : NodeId) :
    (tree.link parent index child).live other =
      if other = parent then (tree.live parent).map (·.withChild index child)
      else tree.live other :=
  live_modify parent other (·.withChild index child) fun _ => rfl

theorem Indexed.link (indexes : tree.Indexed) (parent : NodeId) (index : Nat) (child : NodeId) :
    (tree.link parent index child).Indexed :=
  indexes.modify parent (·.withChild index child)
    ⟨fun _ => rfl, fun _ => rfl, fun _ => rfl, fun _ => rfl⟩

/-! ### A new leaf -/

/-- A new node at a place below a live one. -/
theorem Sound.create (sound : tree.Sound) {content : Handle} {parent : NodeId}
    {above : AccessibleNode} (alive : tree.live parent = some above)
    (absent : tree.nodeFor? content = none) (index : Nat) (seed : Seed) :
    ∃ after, tree.create content parent index seed = .done after tree.nodes.nextKey ∧
      after.Sound ∧ after.root = tree.root ∧
      after.live = tree.live.withLeaf tree.nodes.nextKey parent index
        (leaf content (some parent) seed) := by
  have differ : parent ≠ tree.nodes.nextKey := by
    rintro rfl
    rw [sound.live_nextKey] at alive
    cases alive
  have links (other : NodeId) := @live_link (tree.add content (some parent) seed) parent index
    tree.nodes.nextKey other
  have lives : (tree.withNode content parent index seed).live =
      tree.live.withLeaf tree.nodes.nextKey parent index (leaf content (some parent) seed) := by
    funext other
    rw [withNode, links, live_add, live_add, if_neg differ, Live.withLeaf]
    by_cases here : other = parent
    · subst here
      rw [if_pos rfl, if_neg differ]
      simp only [if_true]
    · rw [if_neg here]
      simp only [here, if_false, Option.map_id']
  have root := root_add tree content (some parent) seed
  have indexes := sound.indexes_add absent (some parent) seed
  refine ⟨tree.withNode content parent index seed,
    create_eq_done (isAlive_iff_live.mpr ⟨above, alive⟩) absent index seed,
    ⟨indexes.link parent index tree.nodes.nextKey, ?_, ?_⟩, root, lives⟩
  · rw [lives, withNode, link, modify, root]
    exact sound.forest.withLeaf sound.live_nextKey alive index rfl rfl
  · refine Arena.Tidy.modify ?_ parent _
    rw [nodes_add]
    exact sound.tidy.insert _

/-! ### Moving -/

theorem Sound.live_unlink (sound : tree.Sound) {child : NodeId} {node : AccessibleNode}
    (alive : tree.live child = some node) (other : NodeId) :
    (tree.unlink child).live other = (tree.live other).map (·.without child) := by
  have unlisted {above : AccessibleNode} (aliveOther : tree.live other = some above)
      (apart : node.parent ≠ some other) : above.without child = above := by
    refine AccessibleNode.without_of_not_mem fun listed => apart ?_
    exact sound.forest.parent_of_listed aliveOther listed alive
  rw [unlink, parent?_of_live alive]
  cases linked : node.parent with
  | none =>
    cases aliveOther : tree.live other with
    | none => rfl
    | some above => rw [Option.map_some, unlisted aliveOther (by rw [linked]; exact nofun)]
  | some parent =>
    refine (live_modify parent other (·.without child) fun _ => rfl).trans ?_
    by_cases same : other = parent
    · subst same
      exact if_pos rfl
    · rw [if_neg same]
      cases aliveOther : tree.live other with
      | none => rfl
      | some above =>
        rw [Option.map_some, unlisted aliveOther]
        rw [linked]
        exact fun here => same (Option.some.inj here).symm

theorem Indexed.unlink (indexes : tree.Indexed) (child : NodeId) : (tree.unlink child).Indexed := by
  unfold Tree.unlink
  split
  · exact indexes
  · exact indexes.modify _ (·.without child)
      ⟨fun _ => rfl, fun _ => rfl, fun _ => rfl, fun _ => rfl⟩

theorem tidy_unlink (tidy : tree.nodes.Tidy) (child : NodeId) : (tree.unlink child).nodes.Tidy := by
  unfold Tree.unlink
  split
  · exact tidy
  · exact tidy.modify _ _

theorem root_unlink (tree : Tree) (child : NodeId) : (tree.unlink child).root = tree.root := by
  unfold Tree.unlink
  split <;> rfl

theorem keepsData_withParent (parent : Option NodeId) : KeepsData (·.withParent parent) :=
  ⟨fun _ => rfl, fun _ => rfl, fun _ => rfl, fun _ => rfl⟩

theorem Sound.live_moved (sound : tree.Sound) {child parent : NodeId} {node : AccessibleNode}
    (alive : tree.live child = some node) (differ : parent ≠ child) (index : Nat) :
    (tree.withMoved child parent index).live = tree.live.moved child parent index := by
  have keeps := keepsData_withParent (some parent)
  funext other
  rw [withMoved, live_link, live_modify child other _ keeps.alive, live_modify child parent _ keeps.alive,
    if_neg differ, sound.live_unlink alive, sound.live_unlink alive, sound.live_unlink alive,
    Live.moved]
  by_cases atParent : other = parent
  · subst atParent
    rw [if_pos rfl, Option.map_map]
    simp only [differ, if_true, if_false]
    rfl
  · rw [if_neg atParent]
    by_cases atChild : other = child
    · subst atChild
      rw [if_pos rfl, Option.map_map, alive, Option.map_some, Option.map_some, if_pos rfl,
        Function.comp_apply, AccessibleNode.without_of_not_mem, AccessibleNode.withParent]
      exact fun listed => sound.forest.not_leads_to_parent alive listed (.refl _ other)
    · rw [if_neg atChild]
      simp only [atChild, atParent, if_false]

/-- A move of a live node under one that is not below it. -/
theorem Sound.reparent (sound : tree.Sound) {child parent : NodeId} {node above : AccessibleNode}
    (aliveChild : tree.live child = some node) (aliveParent : tree.live parent = some above)
    (apart : ¬ tree.live.Leads child parent) (index : Nat) :
    ∃ after, tree.reparent child parent index = .done after () ∧ after.Sound ∧
      after.root = tree.root ∧ after.live = tree.live.moved child parent index := by
  have acyclic : tree.isAncestorOf child parent = false := by
    rw [← Bool.not_eq_true, sound.isAncestorOf_iff aliveParent]
    exact apart
  have differ : parent ≠ child := by
    rintro rfl
    exact apart (.refl _ parent)
  have lives := sound.live_moved aliveChild differ index
  have root := root_unlink tree child
  have unlinked := sound.toIndexed.unlink child
  have indexes := (unlinked.modify child _ (keepsData_withParent (some parent))).link parent index child
  refine ⟨tree.withMoved child parent index, ?_, ⟨indexes, ?_, ?_⟩, root, lives⟩
  · exact reparent_eq_done (isAlive_iff_live.mpr ⟨node, aliveChild⟩)
      (isAlive_iff_live.mpr ⟨above, aliveParent⟩) acyclic index
  · rw [lives, show (tree.withMoved child parent index).root = tree.root from root]
    exact sound.forest.moved aliveChild aliveParent apart index
  · exact ((tidy_unlink sound.tidy child).modify child _).modify parent _

/-! ### Arranging -/

theorem get?_arrange (tree : Tree) (parent : NodeId) (order : List NodeId) (other : NodeId) :
    (tree.arrange parent order).state.get? other = (tree.get? other).map fun node =>
      if other = parent then { node with children := order } else node := by
  rcases tree.arrange_cases parent order with ⟨unknown, failed⟩ | ⟨node, stored, ⟨same, idle⟩ | done⟩
  · rw [failed]
    refine (map_eq_of_unchanged (fun node stored => ?_) other).symm
    cases unknown.symm.trans stored
  · rw [idle]
    refine (map_eq_of_unchanged (fun again storedAgain => ?_) other).symm
    cases stored.symm.trans storedAgain
    rw [← same]
  · rw [done]
    exact get?_modify_eq_map tree parent _ other

/-- A new order of the same children, whether their parent is live or pending. -/
theorem Sound.arrange (sound : tree.Sound) {parent : NodeId} {node : AccessibleNode}
    (stored : tree.get? parent = some node) {order : List NodeId}
    (reordered : order.Perm node.children) :
    ∃ after changed, tree.arrange parent order = .done after changed ∧ after.Sound ∧
      after.root = tree.root ∧ ∀ other, after.live other = (tree.live other).map fun node =>
        if other = parent then { node with children := order } else node := by
  have lives := live_eq_map (get?_arrange tree parent order) fun id node => by split <;> rfl
  rcases tree.arrange_cases parent order with ⟨unknown, -⟩ | ⟨_, -, ⟨-, idle⟩ | done⟩
  · cases unknown.symm.trans stored
  · rw [idle] at lives
    exact ⟨tree, false, idle, sound, rfl, lives⟩
  · rw [done] at lives
    refine ⟨_, true, done, ⟨sound.toIndexed.modify parent _ ?_, ?_, sound.tidy.modify parent _⟩,
      rfl, lives⟩
    · exact ⟨fun _ => rfl, fun _ => rfl, fun _ => rfl, fun _ => rfl⟩
    · refine (sound.forest.map (fun id node => ?_) (fun id old alive => ?_)).congr lives
      · split <;> rfl
      · split
        · rename_i here
          rw [here] at alive
          cases (get?_of_live alive).symm.trans stored
          exact reordered
        · exact .refl _

end Links

/-! ### Attributes and scopes -/

section Reindex

variable {tree : Tree} {id : NodeId} {node : AccessibleNode}
  {change : AccessibleNode → AccessibleNode}

theorem nodes_reindex : (tree.reindex id change).nodes = tree.nodes.modify id change := by
  rw [reindex, nodes_indexDomId, ← nodes_unindexDomId tree id]
  rfl

theorem byContent_reindex : (tree.reindex id change).byContent = tree.byContent :=
  (byContent_indexDomId _ id).trans (byContent_unindexDomId tree id)

theorem root_reindex : (tree.reindex id change).root = tree.root :=
  (root_indexDomId _ id).trans (root_unindexDomId tree id)

theorem get?_reindex (other : NodeId) : (tree.reindex id change).get? other =
    (tree.get? other).map fun node => if other = id then change node else node := by
  rw [get?, nodes_reindex]
  exact get?_modify_eq_map tree id change other

/-- The node is entered under what it carries now, and no longer under what it carried before. -/
theorem mem_named_reindex (stored : tree.get? id = some node) {key : ScopedId} {other : NodeId} :
    other ∈ (tree.reindex id change).named key ↔
      (other ∈ tree.named key ∧ ¬ (other = id ∧ Carries key node)) ∨
        (other = id ∧ Carries key (change node)) := by
  let changed := (tree.unindexDomId id).modify id change
  have storedChanged : changed.get? id = some (change node) := by
    rw [get?_modify, if_pos rfl, get?, nodes_unindexDomId, ← get?, stored, Option.map_some]
  rw [reindex, mem_named_indexDomId,
    show changed.named key = (tree.unindexDomId id).named key from rfl, mem_named_unindexDomId,
    stored, storedChanged]
  simp only [Option.some.injEq, exists_eq_left']

theorem Indexed.reindex (indexes : tree.Indexed) (stored : tree.get? id = some node)
    (contents : ∀ node, (change node).content = node.content)
    (kept : ∀ node, (change node).alive = node.alive) : (tree.reindex id change).Indexed := by
  have lives := live_eq_map (@get?_reindex tree id change) fun other node => by
    split
    · exact kept node
    · rfl
  refine ⟨indexes.content_map lives (fun other node => ?_) byContent_reindex, ?_, ?_⟩
  · split
    · exact contents node
    · rfl
  · intro key other after aliveAfter
    rw [lives] at aliveAfter
    obtain ⟨old, alive, rfl⟩ := Option.map_eq_some_iff.mp aliveAfter
    rw [mem_named_reindex stored, indexes.indexed alive]
    by_cases here : other = id
    · subst here
      cases (get?_of_live alive).symm.trans stored
      simp only [true_and, and_not_self_iff, false_or, if_true]
    · simp only [here, false_and, not_false_eq_true, and_true, or_false, if_false]
  · intro key other entered
    rw [nodes_reindex]
    rcases (mem_named_reindex stored).mp entered with ⟨before, -⟩ | ⟨rfl, -⟩
    · exact (indexes.entered before).modify id change
    · exact (Arena.issued_of_get? stored).modify other change

end Reindex

theorem get?_sync (tree : Tree) (id : NodeId) (attributes : Attributes) (scope : Scope)
    (other : NodeId) :
    (tree.sync id attributes scope).state.get? other = (tree.get? other).map fun node =>
      if other = id then { node with attributes := attributes, scope := scope } else node := by
  rcases tree.sync_cases id attributes scope with
    ⟨unknown, failed⟩ | ⟨node, stored, ⟨sameData, sameScope, idle⟩ | done⟩
  · rw [failed]
    refine (map_eq_of_unchanged (fun node stored => ?_) other).symm
    cases unknown.symm.trans stored
  · rw [idle]
    refine (map_eq_of_unchanged (fun again storedAgain => ?_) other).symm
    cases stored.symm.trans storedAgain
    rw [← sameData, ← sameScope]
  · rw [done]
    exact get?_reindex other

/-- A node with other attributes and another scope. It may be pending, and is entered into the index
of DOM ids all the same. -/
theorem Sound.sync {tree : Tree} (sound : tree.Sound) {id : NodeId} {node : AccessibleNode}
    (stored : tree.get? id = some node) (attributes : Attributes) (scope : Scope) :
    ∃ after changed, tree.sync id attributes scope = .done after changed ∧ after.Sound ∧
      after.root = tree.root ∧ ∀ other, after.live other = (tree.live other).map fun node =>
        if other = id then { node with attributes := attributes, scope := scope } else node := by
  have lives := live_eq_map (get?_sync tree id attributes scope) fun other node => by split <;> rfl
  rcases tree.sync_cases id attributes scope with ⟨unknown, -⟩ | ⟨_, -, ⟨-, -, idle⟩ | done⟩
  · cases unknown.symm.trans stored
  · rw [idle] at lives
    exact ⟨tree, false, idle, sound, rfl, lives⟩
  · rw [done] at lives
    refine ⟨_, true, done, ⟨sound.toIndexed.reindex stored (fun _ => rfl) (fun _ => rfl), ?_, ?_⟩,
      root_reindex, lives⟩
    · rw [root_reindex]
      refine (sound.forest.map (fun id node => ?_) (fun id node _ => ?_)).congr lives
      · split <;> rfl
      · split <;> exact .refl _
    · rw [nodes_reindex]
      exact sound.tidy.modify id _

end Accessibility.Tree
