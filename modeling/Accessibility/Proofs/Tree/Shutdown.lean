import Accessibility.Proofs.Tree.Calls

/-!
Nodes that go: the beginning of a shutdown takes a live node with all below it out of the live
nodes, and the retirement of pending nodes leaves the live ones as they are.
-/

set_option autoImplicit false

namespace Accessibility.Tree

open Std

variable {tree : Tree}

/-! ### Pending nodes -/

theorem nodes_unindex (tree : Tree) (id : NodeId) : (tree.unindex id).nodes = tree.nodes := by
  unfold unindex
  dsimp only
  split
  · exact nodes_unindexDomId tree id
  · split <;> exact nodes_unindexDomId tree id

theorem root_unindex (tree : Tree) (id : NodeId) : (tree.unindex id).root = tree.root := by
  unfold unindex
  dsimp only
  split
  · exact root_unindexDomId tree id
  · split <;> exact root_unindexDomId tree id

theorem named_unindex (tree : Tree) (id : NodeId) (key : ScopedId) :
    (tree.unindex id).named key = (tree.unindexDomId id).named key := by
  unfold unindex
  dsimp only
  split
  · rfl
  · split <;> rfl

theorem nodeFor?_unindex (tree : Tree) (id other : NodeId) (content : Handle) :
    (tree.unindex id).nodeFor? content = some other ↔
      tree.nodeFor? content = some other ∧
        ¬ (other = id ∧ ∃ node, tree.get? id = some node ∧ node.content = content) := by
  have stored : (tree.unindexDomId id).get? id = tree.get? id := by
    rw [get?, nodes_unindexDomId, get?]
  have known (content : Handle) :
      (tree.unindexDomId id).nodeFor? content = tree.nodeFor? content := by
    rw [nodeFor?, byContent_unindexDomId, nodeFor?]
  unfold unindex
  simp only [stored, known]
  cases tree.get? id with
  | none => simp [known]
  | some node =>
    simp only [Option.some.injEq, exists_eq_left']
    split
    · rename_i entered
      rw [nodeFor?, ExtTreeMap.getElem?_erase]
      by_cases same : node.content = content
      · subst same
        simp [entered, eq_comm]
      · simp only [Std.compare_eq_iff_eq, same, if_false, and_false, not_false_eq_true, and_true]
        rw [← nodeFor?, known]
    · rename_i apart
      rw [known]
      refine (and_iff_left_of_imp ?_).symm
      rintro entered ⟨rfl, rfl⟩
      exact apart entered

theorem live_suspend (tree : Tree) (id other : NodeId) :
    (tree.suspend id).live other = if other = id then none else tree.live other := by
  rw [live, suspend, get?_modify]
  by_cases same : id = other
  · subst same
    rw [if_pos rfl, if_pos rfl]
    cases (tree.unindex id).get? id with
    | none => rfl
    | some node => rfl
  · rw [if_neg same, if_neg (Ne.symm same), get?, nodes_unindex]
    rfl

theorem Indexed.suspend (indexes : tree.Indexed) (id : NodeId) : (tree.suspend id).Indexed := by
  refine ⟨?_, ?_, ?_⟩
  · intro content other
    rw [show (tree.suspend id).nodeFor? content = (tree.unindex id).nodeFor? content from rfl,
      nodeFor?_unindex, indexes.content, live_suspend]
    constructor
    · rintro ⟨⟨node, alive, same⟩, apart⟩
      refine ⟨node, ?_, same⟩
      rw [if_neg, alive]
      rintro rfl
      exact apart ⟨rfl, node, get?_of_live alive, same⟩
    · rintro ⟨node, alive, same⟩
      split at alive
      · cases alive
      · exact ⟨⟨node, alive, same⟩, fun both => absurd both.1 ‹_›⟩
  · intro key other node alive
    rw [live_suspend] at alive
    split at alive
    · cases alive
    · rename_i apart
      rw [show (tree.suspend id).named key = (tree.unindex id).named key from rfl, named_unindex,
        mem_named_unindexDomId, indexes.indexed alive]
      exact and_iff_left fun both => apart both.1
  · intro key other named
    rw [show (tree.suspend id).named key = (tree.unindex id).named key from rfl, named_unindex,
      mem_named_unindexDomId] at named
    refine Arena.Issued.modify ?_ id _
    rw [nodes_unindex]
    exact indexes.entered named.1

/-- What a number of nodes leaves behind that become pending one by one. -/
theorem foldl_suspend (ids : List NodeId) (tree : Tree) (indexes : tree.Indexed)
    (tidy : tree.nodes.Tidy) :
    (ids.foldl suspend tree).Indexed ∧ (ids.foldl suspend tree).nodes.Tidy ∧
      (ids.foldl suspend tree).root = tree.root ∧
      ∀ other, (ids.foldl suspend tree).live other =
        if other ∈ ids then none else tree.live other := by
  induction ids generalizing tree with
  | nil => exact ⟨indexes, tidy, rfl, fun _ => rfl⟩
  | cons id rest ih =>
    have tidySuspended : (tree.suspend id).nodes.Tidy := by
      refine Arena.Tidy.modify ?_ id _
      rw [nodes_unindex]
      exact tidy
    obtain ⟨indexesAfter, tidyAfter, root, lives⟩ := ih _ (indexes.suspend id) tidySuspended
    refine ⟨indexesAfter, tidyAfter, root.trans (root_unindex tree id), ?_⟩
    intro other
    rw [List.foldl_cons, lives, live_suspend]
    by_cases later : other ∈ rest
    · rw [if_pos later, if_pos (List.mem_cons_of_mem _ later)]
    · rw [if_neg later]
      by_cases here : other = id
      · rw [if_pos here, if_pos (List.mem_cons.mpr (.inl here))]
      · rw [if_neg here, if_neg]
        exact fun listed => (List.mem_cons.mp listed).elim here later

/-! ### Sizes and roots -/

theorem size_modify (tree : Tree) (id : NodeId) (change : AccessibleNode → AccessibleNode) :
    (tree.modify id change).size = tree.size := by
  rw [size, modify, Arena.size, Arena.modify, ExtTreeMap.size_modify]
  rfl

theorem size_unlink (tree : Tree) (child : NodeId) : (tree.unlink child).size = tree.size := by
  unfold unlink
  split
  · rfl
  · exact size_modify _ _ _

theorem nodes_forgetRoot (tree : Tree) (id : NodeId) : (tree.forgetRoot id).nodes = tree.nodes := by
  unfold forgetRoot
  split <;> rfl

theorem Indexed.forgetRoot (indexes : tree.Indexed) (id : NodeId) :
    (tree.forgetRoot id).Indexed := by
  unfold Tree.forgetRoot
  split
  · exact ⟨indexes.content, indexes.indexed, indexes.entered⟩
  · exact indexes

/-! ### Detaching -/

theorem nodes_detached (tree : Tree) (id : NodeId) :
    (tree.detached id).nodes = (tree.unlink id).nodes :=
  nodes_forgetRoot _ id

theorem root_detached (tree : Tree) (id : NodeId) :
    (tree.detached id).root = if tree.root = some id then none else tree.root := by
  rw [detached, forgetRoot, root_unlink]
  split
  · rfl
  · exact root_unlink tree id

theorem tidy_detached (tidy : tree.nodes.Tidy) (id : NodeId) : (tree.detached id).nodes.Tidy := by
  rw [nodes_detached]
  exact tidy_unlink tidy id

theorem Sound.live_detached (sound : tree.Sound) {id : NodeId} {node : AccessibleNode}
    (alive : tree.live id = some node) (other : NodeId) :
    (tree.detached id).live other = (tree.live other).map (·.without id) := by
  rw [live_congr (nodes_detached tree id), sound.live_unlink alive]

/-- Detaching a node leaves what is below it as it is. -/
theorem Sound.below_detached (sound : tree.Sound) {id : NodeId} {node : AccessibleNode}
    (alive : tree.live id = some node) : (tree.detached id).below id = tree.below id := by
  have size : (tree.detached id).size = tree.size := by
    rw [← size_unlink tree id, Tree.size, nodes_detached]
    rfl
  have same : Walk.descend (tree.detached id).childrenOf? tree.size id =
      Walk.descend tree.live.childrenOf tree.size id := by
    refine Walk.descend_congr ?_
    intro steps target reached
    obtain ⟨targetNode, aliveTarget⟩ := sound.forest.leads_live ⟨steps, reached⟩ alive
    have aliveAfter : (tree.detached id).live target = some (targetNode.without id) := by
      rw [sound.live_detached alive, aliveTarget, Option.map_some]
    rw [childrenOf?_of_live aliveAfter, Live.childrenOf_of_live aliveAfter,
      Live.childrenOf_of_live aliveTarget, AccessibleNode.without_of_not_mem]
    intro listed
    exact sound.forest.not_leads_to_parent aliveTarget listed ⟨steps, reached⟩
  rw [sound.below_eq alive (Nat.le_refl _), below, size, descend_eq_walk, same]

/-! ### Shutdown -/

theorem beginShutdown_eq_done (sound : tree.Sound) {id : NodeId} {node : AccessibleNode}
    (alive : tree.live id = some node) :
    tree.beginShutdown id = .done (tree.takenDown id) (tree.below id) := by
  rcases tree.beginShutdown_cases id with ⟨unknown, -⟩ | ⟨gone, -⟩ | ⟨-, -, done⟩
  · rw [get?_of_live alive] at unknown
    cases unknown
  · rw [alive] at gone
    cases gone
  · rw [done, sound.below_detached alive]

/-- A node that is not live is not shut down. -/
theorem state_beginShutdown_of_not_live {id : NodeId} (gone : tree.live id = none) :
    (tree.beginShutdown id).state = tree := by
  rcases tree.beginShutdown_cases id with ⟨-, failed⟩ | ⟨-, idle⟩ | ⟨node, alive, -⟩
  · rw [failed]
    rfl
  · rw [idle]
    rfl
  · rw [gone] at alive
    cases alive

/-- A live node goes with all below it. -/
theorem Sound.beginShutdown (sound : tree.Sound) {id : NodeId} {node : AccessibleNode}
    (alive : tree.live id = some node) :
    ∃ after, tree.beginShutdown id = .done after (tree.below id) ∧ after.Sound ∧
      after.root = (if tree.root = some id then none else tree.root) ∧
      tree.live.Removed after.live id := by
  have keeps := keepsData_withParent none
  obtain ⟨indexes, tidy, rootSuspended, lives⟩ :=
    foldl_suspend ((tree.detached id).below id) (tree.detached id)
      ((sound.toIndexed.unlink id).forgetRoot id) (tidy_detached sound.tidy id)
  have livesAfter (other : NodeId) : (tree.takenDown id).live other =
      if other ∈ tree.below id then none else (tree.live other).map (·.without id) := by
    rw [takenDown, live_modify id other _ keeps.alive, lives, lives, sound.below_detached alive]
    by_cases here : other = id
    · subst here
      have listed := (sound.mem_below alive).mpr (.refl _ other)
      rw [if_pos rfl, if_pos listed, if_pos listed, Option.map_none]
    · rw [if_neg here, sound.live_detached alive]
  have removed : tree.live.Removed (tree.takenDown id).live id := by
    refine ⟨?_, ?_⟩
    · intro other leads
      rw [livesAfter, if_pos ((sound.mem_below alive).mpr leads)]
    · intro other apart
      rw [livesAfter, if_neg fun listed => apart ((sound.mem_below alive).mp listed)]
  have root : (tree.takenDown id).root = if tree.root = some id then none else tree.root :=
    rootSuspended.trans (root_detached tree id)
  refine ⟨tree.takenDown id, beginShutdown_eq_done sound alive,
    ⟨indexes.modify id _ keeps, ?_, tidy.modify id _⟩, root, removed⟩
  rw [root]
  by_cases atTop : tree.root = some id
  · rw [if_pos atTop]
    exact sound.forest.removed_root removed atTop
  · rw [if_neg atTop]
    exact sound.forest.removed removed atTop alive

/-- A node is not live once its shutdown has begun. -/
theorem Sound.live_beginShutdown (sound : tree.Sound) (id : NodeId) :
    (tree.beginShutdown id).state.live id = none := by
  cases alive : tree.live id with
  | none => rw [state_beginShutdown_of_not_live alive, alive]
  | some node =>
    obtain ⟨after, done, -, -, removed⟩ := sound.beginShutdown alive
    rw [done]
    exact removed.gone (.refl _ id)

/-! ### Retirement -/

theorem get?_foldl_discard (ids : List NodeId) (tree : Tree) (other : NodeId) :
    (ids.foldl discard tree).get? other = if other ∈ ids then none else tree.get? other := by
  induction ids generalizing tree with
  | nil => rfl
  | cons id rest ih =>
    rw [List.foldl_cons, ih, show (tree.discard id).get? other = _ from
      Arena.get?_remove tree.nodes id other]
    by_cases later : other ∈ rest
    · rw [if_pos later, if_pos (List.mem_cons_of_mem _ later)]
    · rw [if_neg later]
      by_cases here : id = other
      · rw [if_pos here, if_pos (List.mem_cons.mpr (.inl here.symm))]
      · rw [if_neg here, if_neg]
        · rfl
        · exact fun listed => (List.mem_cons.mp listed).elim (fun same => here same.symm) later

/-- Discarding nodes leaves the indexes, the root and the order of the store as they are. -/
theorem foldl_discard (ids : List NodeId) (tree : Tree) (tidy : tree.nodes.Tidy) :
    (ids.foldl discard tree).nodes.Tidy ∧ (ids.foldl discard tree).root = tree.root ∧
      (ids.foldl discard tree).byContent = tree.byContent ∧
      (ids.foldl discard tree).byDomId = tree.byDomId ∧
      ∀ {id : NodeId}, tree.nodes.Issued id → (ids.foldl discard tree).nodes.Issued id := by
  induction ids generalizing tree with
  | nil => exact ⟨tidy, rfl, rfl, rfl, fun issued => issued⟩
  | cons id rest ih =>
    obtain ⟨tidyAfter, root, byContent, byDomId, issuedAfter⟩ :=
      ih (tree.discard id) (tidy.remove id)
    exact ⟨tidyAfter, root, byContent, byDomId, fun issued => issuedAfter (issued.remove id)⟩

section Discard

variable {ids : List NodeId}

theorem live_foldl_discard (apart : ∀ id ∈ ids, tree.live id = none) :
    (ids.foldl discard tree).live = tree.live := by
  funext id
  rw [live, get?_foldl_discard]
  split
  · rename_i listed
    exact (apart id listed).symm
  · rfl

/-- Nodes that are not live may go. -/
theorem Sound.foldl_discard (sound : tree.Sound) (apart : ∀ id ∈ ids, tree.live id = none) :
    (ids.foldl discard tree).Sound := by
  obtain ⟨tidy, root, byContent, byDomId, issued⟩ := Tree.foldl_discard ids tree sound.tidy
  have lives := live_foldl_discard apart
  refine ⟨⟨?_, ?_, ?_⟩, ?_, tidy⟩
  · intro content id
    rw [lives, nodeFor?, byContent]
    exact sound.content
  · intro key id node alive
    rw [lives] at alive
    rw [named, byDomId]
    exact sound.indexed alive
  · intro key id named
    rw [Tree.named, byDomId] at named
    exact issued (sound.entered named)
  · rw [lives, root]
    exact sound.forest

end Discard

theorem mem_pending {id : NodeId} :
    id ∈ tree.pending ↔ ∃ node, tree.get? id = some node ∧ node.alive = false := by
  simp only [Tree.pending, List.mem_map, List.mem_filter, Prod.exists, exists_and_right,
    exists_eq_right, Arena.mem_toList, Bool.not_eq_true']
  rfl

theorem live_of_mem_pending {id : NodeId} (listed : id ∈ tree.pending) : tree.live id = none := by
  obtain ⟨node, stored, pending⟩ := mem_pending.mp listed
  rw [live, stored, Option.filter_some, pending, if_neg Bool.false_ne_true]

/-- What is left once pending nodes are retired: the live nodes, as they were. -/
theorem get?_retirePending (tree : Tree) (id : NodeId) :
    tree.retirePending.get? id = tree.live id := by
  rw [retirePending, get?_foldl_discard]
  split
  · rename_i listed
    exact (live_of_mem_pending listed).symm
  · rename_i unlisted
    rw [live]
    cases stored : tree.get? id with
    | none => rfl
    | some node =>
      cases alive : node.alive with
      | false => exact absurd (mem_pending.mpr ⟨node, stored, alive⟩) unlisted
      | true => rw [Option.filter_some, alive, if_pos rfl]

theorem live_retirePending (tree : Tree) : tree.retirePending.live = tree.live :=
  live_foldl_discard fun _ => live_of_mem_pending

theorem root_retirePending (sound : tree.Sound) : tree.retirePending.root = tree.root :=
  (foldl_discard tree.pending tree sound.tidy).2.1

theorem Sound.retirePending (sound : tree.Sound) : tree.retirePending.Sound :=
  sound.foldl_discard fun _ => live_of_mem_pending

end Accessibility.Tree
