import Accessibility.Proofs.Tree.Shutdown

/-!
The identity of nodes across calls. Whatever a call does, and whether it succeeds or fails, a node
that is live after it was live before for the same content, or it has a key that was never handed out
before. So no key ever stands for two nodes.
-/

set_option autoImplicit false

namespace Accessibility.Tree

/-- The live nodes after some calls are nodes from before, of the same content and kind, or new ones
under new keys, each of a kind that its content may have. -/
structure Continues (allowed : Handle → Kind → Prop) (before after : Tree) : Prop where
  tidy : after.nodes.Tidy
  issued : ∀ {id : NodeId}, before.nodes.Issued id → after.nodes.Issued id
  origin : ∀ {id : NodeId} {node' : AccessibleNode}, after.live id = some node' →
    (∃ node, before.live id = some node ∧ node'.content = node.content ∧ node'.kind = node.kind) ∨
      (¬ before.nodes.Issued id ∧ allowed node'.content node'.kind)

/-- What a node stands for, and that it is pending, is left as it is. -/
structure KeepsIdentity (change : AccessibleNode → AccessibleNode) : Prop where
  content : ∀ node, (change node).content = node.content
  kind : ∀ node, (change node).kind = node.kind
  alive : ∀ node, (change node).alive = true → node.alive = true

theorem issued_of_live {tree : Tree} {id : NodeId} {node : AccessibleNode}
    (alive : tree.live id = some node) : tree.nodes.Issued id :=
  Arena.issued_of_get? (get?_of_live alive)

namespace Continues

variable {allowed : Handle → Kind → Prop} {before middle tree after : Tree}

theorem refl (tidy : tree.nodes.Tidy) : Continues allowed tree tree :=
  ⟨tidy, fun issued => issued, fun alive => .inl ⟨_, alive, rfl, rfl⟩⟩

theorem trans (first : Continues allowed before middle) (second : Continues allowed middle after) :
    Continues allowed before after := by
  refine ⟨second.tidy, fun issued => second.issued (first.issued issued), ?_⟩
  intro id node' alive
  rcases second.origin alive with ⟨node, aliveMiddle, content, kind⟩ | ⟨fresh, fits⟩
  · rw [content, kind]
    exact first.origin aliveMiddle
  · exact .inr ⟨fun issued => fresh (first.issued issued), fits⟩

/-- A live node whose key was handed out before was live already. -/
theorem live_of_issued (continues : Continues allowed before after) {id : NodeId}
    {node' : AccessibleNode} (alive : after.live id = some node')
    (issued : before.nodes.Issued id) :
    ∃ node, before.live id = some node ∧ node'.content = node.content ∧ node'.kind = node.kind := by
  rcases continues.origin alive with old | ⟨fresh, -⟩
  · exact old
  · exact absurd issued fresh

/-! ### Parts of edits -/

theorem of_nodes (earlier : Continues allowed before tree) (same : after.nodes = tree.nodes) :
    Continues allowed before after := by
  refine ⟨same ▸ earlier.tidy, fun issued => same ▸ earlier.issued issued, fun alive => ?_⟩
  rw [live_congr same] at alive
  exact earlier.origin alive

theorem modify (earlier : Continues allowed before tree) (id : NodeId)
    (change : AccessibleNode → AccessibleNode) (keeps : KeepsIdentity change) :
    Continues allowed before (tree.modify id change) := by
  refine ⟨earlier.tidy.modify id change, fun issued => (earlier.issued issued).modify id change, ?_⟩
  intro other node' alive
  obtain ⟨stored, isAlive⟩ := live_eq_some.mp alive
  rw [get?_modify] at stored
  split at stored
  · rename_i same
    subst same
    obtain ⟨node, storedBefore, rfl⟩ := Option.map_eq_some_iff.mp stored
    rw [keeps.content, keeps.kind]
    exact earlier.origin (live_eq_some.mpr ⟨storedBefore, keeps.alive node isAlive⟩)
  · exact earlier.origin (live_eq_some.mpr ⟨stored, isAlive⟩)

theorem reindex (earlier : Continues allowed before tree) (id : NodeId)
    (change : AccessibleNode → AccessibleNode) (keeps : KeepsIdentity change) :
    Continues allowed before (tree.reindex id change) :=
  (earlier.modify id change keeps).of_nodes nodes_reindex

theorem add (earlier : Continues allowed before tree) (content : Handle) (parent : Option NodeId)
    {seed : Seed} (fits : allowed content seed.kind) :
    Continues allowed before (tree.add content parent seed) := by
  refine ⟨?_, fun issued => ?_, ?_⟩
  · rw [nodes_add]
    exact earlier.tidy.insert _
  · rw [nodes_add]
    exact (earlier.issued issued).insert earlier.tidy _
  · intro id node' alive
    rw [live_add] at alive
    split at alive
    · rename_i new
      subst new
      cases alive
      exact .inr ⟨fun issued => earlier.tidy.not_issued_nextKey (earlier.issued issued), fits⟩
    · exact earlier.origin alive

theorem discard (earlier : Continues allowed before tree) (id : NodeId) :
    Continues allowed before (tree.discard id) := by
  refine ⟨earlier.tidy.remove id, fun issued => (earlier.issued issued).remove id, ?_⟩
  intro other node' alive
  obtain ⟨stored, isAlive⟩ := live_eq_some.mp alive
  rw [show (tree.discard id).get? other = _ from Arena.get?_remove tree.nodes id other] at stored
  split at stored
  · cases stored
  · exact earlier.origin (live_eq_some.mpr ⟨stored, isAlive⟩)

theorem link (earlier : Continues allowed before tree) (parent : NodeId) (index : Nat)
    (child : NodeId) : Continues allowed before (tree.link parent index child) :=
  earlier.modify parent _ ⟨fun _ => rfl, fun _ => rfl, fun _ alive => alive⟩

theorem unlink (earlier : Continues allowed before tree) (child : NodeId) :
    Continues allowed before (tree.unlink child) := by
  unfold Tree.unlink
  split
  · exact earlier
  · exact earlier.modify _ _ ⟨fun _ => rfl, fun _ => rfl, fun _ alive => alive⟩

theorem suspend (earlier : Continues allowed before tree) (id : NodeId) :
    Continues allowed before (tree.suspend id) :=
  (earlier.of_nodes (nodes_unindex tree id)).modify id _ ⟨fun _ => rfl, fun _ => rfl, nofun⟩

theorem foldl {α : Type} {step : Tree → α → Tree}
    (steps : ∀ {tree : Tree} (value : α), Continues allowed before tree →
      Continues allowed before (step tree value)) (earlier : Continues allowed before tree)
    (values : List α) : Continues allowed before (values.foldl step tree) := by
  induction values generalizing tree with
  | nil => exact earlier
  | cons value rest ih => exact ih (steps value earlier)

/-! ### Calls -/

theorem createRoot (earlier : Continues allowed before tree) {content : Handle} {seed : Seed}
    (fits : allowed content seed.kind) :
    Continues allowed before (tree.createRoot content seed).state := by
  rcases tree.createRoot_cases content seed with ⟨fault, failed⟩ | ⟨-, -, done⟩
  · rw [failed]
    exact earlier
  · rw [done]
    exact (earlier.add content none fits).of_nodes rfl

theorem create (earlier : Continues allowed before tree) {content : Handle} (parent : NodeId)
    (index : Nat) {seed : Seed} (fits : allowed content seed.kind) :
    Continues allowed before (tree.create content parent index seed).state := by
  rcases tree.create_cases content parent index seed with ⟨fault, failed⟩ | ⟨-, -, done⟩
  · rw [failed]
    exact earlier
  · rw [done]
    exact (earlier.add content (some parent) fits).link parent index _

theorem beginShutdown (earlier : Continues allowed before tree) (id : NodeId) :
    Continues allowed before (tree.beginShutdown id).state := by
  rcases tree.beginShutdown_cases id with ⟨-, failed⟩ | ⟨-, idle⟩ | ⟨node, -, done⟩
  · rw [failed]
    exact earlier
  · rw [idle]
    exact earlier
  · rw [done]
    have detached := (earlier.unlink id).of_nodes (nodes_detached tree id)
    exact (foldl (fun other soFar => soFar.suspend other) detached _).modify id _
      ⟨fun _ => rfl, fun _ => rfl, fun _ alive => alive⟩

theorem retire (earlier : Continues allowed before tree) (id : NodeId) :
    Continues allowed before (tree.retire id).state := by
  rcases tree.retire_cases id with ⟨-, failed⟩ | ⟨suspended, leaving, began, done⟩
  · rw [failed]
    exact earlier
  · have suspends := earlier.beginShutdown id
    rw [began] at suspends
    rw [done]
    exact foldl (fun other soFar => soFar.discard other) suspends _

theorem retirePending (earlier : Continues allowed before tree) :
    Continues allowed before tree.retirePending :=
  foldl (fun id soFar => soFar.discard id) earlier tree.pending

theorem reparent (earlier : Continues allowed before tree) (child parent : NodeId) (index : Nat) :
    Continues allowed before (tree.reparent child parent index).state := by
  rcases tree.reparent_cases child parent index with ⟨fault, failed⟩ | ⟨-, -, -, done⟩
  · rw [failed]
    exact earlier
  · rw [done]
    have moved := (earlier.unlink child).modify child (·.withParent (some parent))
      ⟨fun _ => rfl, fun _ => rfl, fun _ alive => alive⟩
    exact moved.link parent index child

theorem arrange (earlier : Continues allowed before tree) (parent : NodeId) (order : List NodeId) :
    Continues allowed before (tree.arrange parent order).state := by
  rcases tree.arrange_cases parent order with ⟨-, failed⟩ | ⟨node, -, ⟨-, idle⟩ | done⟩
  · rw [failed]
    exact earlier
  · rw [idle]
    exact earlier
  · rw [done]
    exact earlier.modify parent _ ⟨fun _ => rfl, fun _ => rfl, fun _ alive => alive⟩

theorem sync (earlier : Continues allowed before tree) (id : NodeId) (attributes : Attributes)
    (scope : Scope) : Continues allowed before (tree.sync id attributes scope).state := by
  rcases tree.sync_cases id attributes scope with ⟨-, failed⟩ | ⟨node, -, ⟨-, -, idle⟩ | done⟩
  · rw [failed]
    exact earlier
  · rw [idle]
    exact earlier
  · rw [done]
    exact earlier.reindex id _ ⟨fun _ => rfl, fun _ => rfl, fun _ alive => alive⟩

end Continues

end Accessibility.Tree
