import Accessibility.Proofs.Tree.Sound

/-!
What each call on a tree can do. It fails and leaves the tree as it is, or it has nothing to do, or it is
made up of a few edits of nodes. What calls keep is proved from these cases, so that nothing else opens
the calls but the lemmas that tell why one fails.
-/

set_option autoImplicit false

namespace Accessibility.Tree

/-- The tree with a new node below a parent. -/
def withNode (tree : Tree) (content : Handle) (parent : NodeId) (index : Nat) (seed : Seed) : Tree :=
  (tree.add content (some parent) seed).link parent index tree.nodes.nextKey

/-- The tree with a node moved below another parent. -/
def withMoved (tree : Tree) (child parent : NodeId) (index : Nat) : Tree :=
  ((tree.unlink child).modify child (·.withParent (some parent))).link parent index child

/-- The tree with a node detached from what is above it. -/
def detached (tree : Tree) (id : NodeId) : Tree :=
  (tree.unlink id).forgetRoot id

/-- The tree with a node and all below it pending. -/
def takenDown (tree : Tree) (id : NodeId) : Tree :=
  (((tree.detached id).below id).foldl suspend (tree.detached id)).modify id (·.withParent none)

/-- The tree with a node changed and entered into the index of DOM ids anew. -/
def reindex (tree : Tree) (id : NodeId) (change : AccessibleNode → AccessibleNode) : Tree :=
  ((tree.unindexDomId id).modify id change).indexDomId id

/-! ### Creating and moving -/

theorem createRoot_eq_done {tree : Tree} {content : Handle} (rootless : tree.root = none)
    (absent : tree.nodeFor? content = none) (seed : Seed) : tree.createRoot content seed =
      .done { tree.add content none seed with root := some tree.nodes.nextKey }
        tree.nodes.nextKey := by
  simp only [createRoot, rootless, absent]

theorem create_eq_done {tree : Tree} {content : Handle} {parent : NodeId}
    (alive : tree.isAlive parent = true) (absent : tree.nodeFor? content = none) (index : Nat)
    (seed : Seed) : tree.create content parent index seed =
      .done (tree.withNode content parent index seed) tree.nodes.nextKey := by
  simp only [create, alive, absent, if_true]
  rfl

theorem reparent_eq_done {tree : Tree} {child parent : NodeId}
    (aliveChild : tree.isAlive child = true) (aliveParent : tree.isAlive parent = true)
    (acyclic : tree.isAncestorOf child parent = false) (index : Nat) :
    tree.reparent child parent index = .done (tree.withMoved child parent index) () := by
  simp only [reparent, aliveChild, aliveParent, acyclic, Bool.not_true, Bool.false_eq_true, if_false]
  rfl

theorem createRoot_cases (tree : Tree) (content : Handle) (seed : Seed) :
    (∃ fault, tree.createRoot content seed = .failed tree fault) ∨
    (tree.root = none ∧ tree.nodeFor? content = none ∧
      tree.createRoot content seed =
        .done { tree.add content none seed with root := some tree.nodes.nextKey }
          tree.nodes.nextKey) := by
  unfold createRoot
  split
  · exact .inl ⟨_, rfl⟩
  · rename_i rootless
    split
    · exact .inl ⟨_, rfl⟩
    · rename_i absent
      exact .inr ⟨rootless, absent, rfl⟩

theorem create_cases (tree : Tree) (content : Handle) (parent : NodeId) (index : Nat)
    (seed : Seed) :
    (∃ fault, tree.create content parent index seed = .failed tree fault) ∨
    (tree.isAlive parent = true ∧ tree.nodeFor? content = none ∧
      tree.create content parent index seed =
        .done (tree.withNode content parent index seed) tree.nodes.nextKey) := by
  unfold create
  split
  · rename_i alive
    split
    · exact .inl ⟨_, rfl⟩
    · rename_i absent
      exact .inr ⟨alive, absent, rfl⟩
  · exact .inl ⟨_, rfl⟩

theorem reparent_cases (tree : Tree) (child parent : NodeId) (index : Nat) :
    (∃ fault, tree.reparent child parent index = .failed tree fault) ∨
    (tree.isAlive child = true ∧ tree.isAlive parent = true ∧
      tree.isAncestorOf child parent = false ∧
      tree.reparent child parent index = .done (tree.withMoved child parent index) ()) := by
  unfold reparent
  split
  · exact .inl ⟨_, rfl⟩
  · rename_i aliveChild
    split
    · exact .inl ⟨_, rfl⟩
    · rename_i aliveParent
      split
      · exact .inl ⟨_, rfl⟩
      · rename_i acyclic
        rw [Bool.not_eq_true', Bool.not_eq_false] at aliveChild aliveParent
        rw [Bool.not_eq_true] at acyclic
        exact .inr ⟨aliveChild, aliveParent, acyclic, rfl⟩

/-! ### Going -/

theorem beginShutdown_cases (tree : Tree) (id : NodeId) :
    (tree.get? id = none ∧ tree.beginShutdown id = .failed tree (.unknownNode id)) ∨
    (tree.live id = none ∧ tree.beginShutdown id = .done tree []) ∨
    ∃ node, tree.live id = some node ∧
      tree.beginShutdown id = .done (tree.takenDown id) ((tree.detached id).below id) := by
  unfold beginShutdown
  split
  · rename_i unknown
    exact .inl ⟨unknown, rfl⟩
  · rename_i node stored
    split
    · rename_i alive
      exact .inr (.inr ⟨node, live_eq_some.mpr ⟨stored, alive⟩, rfl⟩)
    · rename_i pending
      refine .inr (.inl ⟨?_, rfl⟩)
      rw [live, stored, Option.filter_some, if_neg pending]

theorem retire_cases (tree : Tree) (id : NodeId) :
    (tree.get? id = none ∧ tree.retire id = .failed tree (.unknownNode id)) ∨
    ∃ suspended leaving, tree.beginShutdown id = .done suspended leaving ∧
      tree.retire id = .done ((suspended.below id).foldl discard suspended) () := by
  unfold retire
  rcases tree.beginShutdown_cases id with ⟨unknown, failed⟩ | ⟨-, idle⟩ | ⟨node, -, done⟩
  · rw [failed]
    exact .inl ⟨unknown, rfl⟩
  · exact .inr ⟨_, _, idle, by rw [idle, Outcome.done_andThen]⟩
  · exact .inr ⟨_, _, done, by rw [done, Outcome.done_andThen]⟩

/-! ### Arranging and giving data -/

theorem arrange_eq_idle {tree : Tree} {id : NodeId} {node : AccessibleNode}
    (stored : tree.get? id = some node) : tree.arrange id node.children = .done tree false := by
  simp only [arrange, stored, if_true]

theorem sync_eq_idle {tree : Tree} {id : NodeId} {node : AccessibleNode}
    (stored : tree.get? id = some node) :
    tree.sync id node.attributes node.scope = .done tree false := by
  simp only [sync, stored, and_self, if_true]

theorem arrange_cases (tree : Tree) (parent : NodeId) (order : List NodeId) :
    (tree.get? parent = none ∧ tree.arrange parent order = .failed tree (.unknownNode parent)) ∨
    ∃ node, tree.get? parent = some node ∧
      ((node.children = order ∧ tree.arrange parent order = .done tree false) ∨
        tree.arrange parent order =
          .done (tree.modify parent fun node => { node with children := order }) true) := by
  unfold arrange
  split
  · rename_i unknown
    exact .inl ⟨unknown, rfl⟩
  · rename_i node stored
    refine .inr ⟨node, stored, ?_⟩
    split
    · rename_i same
      exact .inl ⟨same, rfl⟩
    · exact .inr rfl

theorem sync_cases (tree : Tree) (id : NodeId) (attributes : Attributes) (scope : Scope) :
    (tree.get? id = none ∧ tree.sync id attributes scope = .failed tree (.unknownNode id)) ∨
    ∃ node, tree.get? id = some node ∧
      ((node.attributes = attributes ∧ node.scope = scope ∧
          tree.sync id attributes scope = .done tree false) ∨
        tree.sync id attributes scope = .done (tree.reindex id fun node =>
          { node with attributes := attributes, scope := scope }) true) := by
  unfold sync
  split
  · rename_i unknown
    exact .inl ⟨unknown, rfl⟩
  · rename_i node stored
    refine .inr ⟨node, stored, ?_⟩
    split
    · rename_i same
      exact .inl ⟨same.1, same.2, rfl⟩
    · exact .inr rfl

end Accessibility.Tree
