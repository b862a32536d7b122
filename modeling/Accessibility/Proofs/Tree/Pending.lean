import Accessibility.Proofs.Tree.Continuity
import Accessibility.Tree.WellFormed
import Mathlib.Order.WellFounded

/-!
Pending nodes. They keep their links until they are retired, but never a link to a live node, so
whatever calls do to them leaves the live nodes alone. With that every call keeps the tree well
formed, whichever nodes it names.
-/

set_option autoImplicit false

namespace Accessibility

namespace AccessibleNode

/-- Whether a node names another one as its parent or as a child. -/
def Names (node : AccessibleNode) (other : NodeId) : Prop :=
  node.parent = some other ∨ other ∈ node.children

/-- A node has lost links or its life, and gained none. -/
structure Shrinks (node after : AccessibleNode) : Prop where
  parent : ∀ {parent : NodeId}, after.parent = some parent → node.parent = some parent
  children : after.children ⊆ node.children
  alive : after.alive = true → node.alive = true

namespace Shrinks

variable {node middle after : AccessibleNode}

theorem refl (node : AccessibleNode) : node.Shrinks node :=
  ⟨fun linked => linked, fun _ listed => listed, fun alive => alive⟩

theorem trans (first : node.Shrinks middle) (second : middle.Shrinks after) : node.Shrinks after :=
  ⟨fun linked => first.parent (second.parent linked),
    fun _ listed => first.children (second.children listed),
    fun alive => first.alive (second.alive alive)⟩

theorem names (shrinks : node.Shrinks after) {other : NodeId} (named : after.Names other) :
    node.Names other := by
  rcases named with linked | listed
  · exact .inl (shrinks.parent linked)
  · exact .inr (shrinks.children listed)

end Shrinks

end AccessibleNode

namespace Tree

variable {before tree after : Tree}

/-! ### Calls that only take away -/

/-- Every node that is left has lost links or its life at most. -/
structure Fades (before after : Tree) : Prop where
  origin : ∀ {id : NodeId} {node' : AccessibleNode}, after.get? id = some node' →
    ∃ node, before.get? id = some node ∧ node.Shrinks node'

namespace Fades

theorem refl (tree : Tree) : Fades tree tree :=
  ⟨fun stored => ⟨_, stored, .refl _⟩⟩

theorem of_nodes (earlier : Fades before tree) (same : after.nodes = tree.nodes) :
    Fades before after := by
  refine ⟨fun stored => ?_⟩
  rw [get?, same] at stored
  exact earlier.origin stored

theorem modify (earlier : Fades before tree) (id : NodeId)
    (change : AccessibleNode → AccessibleNode)
    (shrinks : ∀ node, tree.get? id = some node → node.Shrinks (change node)) :
    Fades before (tree.modify id change) := by
  refine ⟨fun stored => ?_⟩
  rw [get?_modify] at stored
  split at stored
  · rename_i same
    subst same
    obtain ⟨middle, storedMiddle, rfl⟩ := Option.map_eq_some_iff.mp stored
    obtain ⟨node, storedBefore, earlier⟩ := earlier.origin storedMiddle
    exact ⟨node, storedBefore, earlier.trans (shrinks middle storedMiddle)⟩
  · exact earlier.origin stored

theorem reindex (earlier : Fades before tree) (id : NodeId)
    (change : AccessibleNode → AccessibleNode)
    (shrinks : ∀ node, tree.get? id = some node → node.Shrinks (change node)) :
    Fades before (tree.reindex id change) :=
  (earlier.modify id change shrinks).of_nodes nodes_reindex

theorem discard (earlier : Fades before tree) (id : NodeId) : Fades before (tree.discard id) := by
  refine ⟨fun {other _} stored => ?_⟩
  rw [show (tree.discard id).get? other = _ from Arena.get?_remove tree.nodes id other] at stored
  split at stored
  · cases stored
  · exact earlier.origin stored

theorem unlink (earlier : Fades before tree) (child : NodeId) :
    Fades before (tree.unlink child) := by
  unfold Tree.unlink
  split
  · exact earlier
  · refine earlier.modify _ (·.without child) fun node _ =>
      ⟨fun linked => linked, ?_, fun alive => alive⟩
    exact fun _ listed => (AccessibleNode.mem_children_without.mp listed).1

theorem suspend (earlier : Fades before tree) (id : NodeId) : Fades before (tree.suspend id) :=
  (earlier.of_nodes (nodes_unindex tree id)).modify id _ fun _ _ =>
    ⟨fun linked => linked, fun _ listed => listed, nofun⟩

theorem foldl {step : Tree → NodeId → Tree}
    (steps : ∀ {tree : Tree} (id : NodeId), Fades before tree → Fades before (step tree id))
    (earlier : Fades before tree) (ids : List NodeId) : Fades before (ids.foldl step tree) := by
  induction ids generalizing tree with
  | nil => exact earlier
  | cons id rest ih => exact ih (steps id earlier)

theorem beginShutdown (earlier : Fades before tree) (id : NodeId) :
    Fades before (tree.beginShutdown id).state := by
  rcases tree.beginShutdown_cases id with ⟨-, failed⟩ | ⟨-, idle⟩ | ⟨node, -, done⟩
  · rw [failed]
    exact earlier
  · rw [idle]
    exact earlier
  · rw [done]
    have detached := (earlier.unlink id).of_nodes (nodes_detached tree id)
    exact (foldl (fun other soFar => soFar.suspend other) detached _).modify id _ fun _ _ =>
      ⟨nofun, fun _ listed => listed, fun alive => alive⟩

theorem retire (earlier : Fades before tree) (id : NodeId) :
    Fades before (tree.retire id).state := by
  rcases tree.retire_cases id with ⟨-, failed⟩ | ⟨suspended, leaving, began, done⟩
  · rw [failed]
    exact earlier
  · have suspends := earlier.beginShutdown id
    rw [began] at suspends
    rw [done]
    exact foldl (fun other soFar => soFar.discard other) suspends _

theorem arrange (earlier : Fades before tree) {parent : NodeId} {order : List NodeId}
    (reordered : ∀ node, tree.get? parent = some node → order.Perm node.children) :
    Fades before (tree.arrange parent order).state := by
  rcases tree.arrange_cases parent order with ⟨-, failed⟩ | ⟨node, -, ⟨-, idle⟩ | done⟩
  · rw [failed]
    exact earlier
  · rw [idle]
    exact earlier
  · rw [done]
    exact earlier.modify parent _ fun node stored =>
      ⟨fun linked => linked, (reordered node stored).subset, fun alive => alive⟩

theorem sync (earlier : Fades before tree) (id : NodeId) (attributes : Attributes)
    (scope : Scope) : Fades before (tree.sync id attributes scope).state := by
  rcases tree.sync_cases id attributes scope with ⟨-, failed⟩ | ⟨node, -, ⟨-, -, idle⟩ | done⟩
  · rw [failed]
    exact earlier
  · rw [idle]
    exact earlier
  · rw [done]
    exact earlier.reindex id _ fun _ _ =>
      ⟨fun linked => linked, fun _ listed => listed, fun alive => alive⟩

end Fades

/-! ### Nodes that are cut off -/

/-- No pending node names a live one, nor a key that is yet to be handed out, and parent links come
to an end. -/
structure Severed (tree : Tree) : Prop where
  apart : ∀ {id other : NodeId} {node : AccessibleNode}, tree.get? id = some node →
    node.alive = false → node.Names other → tree.live other = none ∧ tree.nodes.Issued other
  ends : WellFounded fun parent id => tree.parent? id = some parent

/-- A sound tree whose pending nodes are cut off. -/
structure Intact (tree : Tree) : Prop extends Sound tree, Severed tree

theorem live_of_pending {id : NodeId} {node : AccessibleNode} (stored : tree.get? id = some node)
    (pending : node.alive = false) : tree.live id = none := by
  rw [live, stored, Option.filter_some, pending, if_neg Bool.false_ne_true]

theorem pending_of_not_live {id : NodeId} {node : AccessibleNode}
    (stored : tree.get? id = some node) (gone : tree.live id = none) : node.alive = false := by
  cases alive : node.alive with
  | false => rfl
  | true =>
    rw [live_eq_some.mpr ⟨stored, alive⟩] at gone
    cases gone

/-- What a live node names is live. -/
theorem Sound.live_of_names (sound : tree.Sound) {id other : NodeId} {node : AccessibleNode}
    (alive : tree.live id = some node) (named : node.Names other) :
    ∃ node, tree.live other = some node := by
  rcases named with linked | listed
  · obtain ⟨above, aliveParent, -⟩ := sound.forest.parent_live alive linked
    exact ⟨above, aliveParent⟩
  · obtain ⟨child, aliveChild, -⟩ := (sound.forest.listed alive).mp listed
    exact ⟨child, aliveChild⟩

/-- Parent links lead from a live node up to the root, where they end. -/
theorem Sound.ends_of_live (sound : tree.Sound) {id : NodeId} {node : AccessibleNode}
    (alive : tree.live id = some node) : Acc (fun parent id => tree.parent? id = some parent) id := by
  refine sound.parent_induction ?_ ?_ alive
  · intro top topNode aliveTop parentless
    refine Acc.intro top fun parent linked => ?_
    rw [parent?_of_live aliveTop, parentless] at linked
    cases linked
  · intro parent child above childNode _ aliveChild linked ends
    refine Acc.intro child fun upper linkedUp => ?_
    rw [parent?_of_live aliveChild, linked] at linkedUp
    cases linkedUp
    exact ends

/-- Pending nodes stay cut off as long as a call takes away what they name or leaves it alone. A node
that becomes pending must take along what it still names. -/
theorem Intact.severed (intact : before.Intact) (sound : after.Sound)
    (continues : Continues (fun _ _ => True) before after)
    (kept : ∀ {id : NodeId} {node' : AccessibleNode}, after.get? id = some node' →
      node'.alive = false → ∃ node, before.get? id = some node ∧ node.Shrinks node' ∧
        (node.alive = true → ∀ {other : NodeId}, node'.Names other → after.live other = none)) :
    after.Severed := by
  have apart {id other : NodeId} {node' : AccessibleNode} (stored : after.get? id = some node')
      (pending : node'.alive = false) (named : node'.Names other) :
      after.live other = none ∧ after.nodes.Issued other := by
    obtain ⟨node, storedBefore, shrinks, lost⟩ := kept stored pending
    cases alive : node.alive with
    | true =>
      obtain ⟨otherNode, aliveOther⟩ := intact.live_of_names
        (live_eq_some.mpr ⟨storedBefore, alive⟩) (shrinks.names named)
      exact ⟨lost alive named, continues.issued (issued_of_live aliveOther)⟩
    | false =>
      obtain ⟨gone, issued⟩ := intact.apart storedBefore alive (shrinks.names named)
      refine ⟨?_, continues.issued issued⟩
      cases aliveAfter : after.live other with
      | none => rfl
      | some otherNode =>
        obtain ⟨old, aliveBefore, -⟩ := continues.live_of_issued aliveAfter issued
        rw [gone] at aliveBefore
        cases aliveBefore
  refine ⟨apart, ⟨fun id => ?_⟩⟩
  -- The way up from a pending node stays among nodes that are not live, where links only went.
  induction intact.ends.apply id with
  | intro id _ ih =>
    cases alive : after.live id with
    | some node => exact sound.ends_of_live alive
    | none =>
      refine Acc.intro id fun parent linked => ?_
      rw [parent?] at linked
      obtain ⟨node', stored, linked⟩ := Option.bind_eq_some_iff.mp linked
      obtain ⟨node, storedBefore, shrinks, -⟩ := kept stored (pending_of_not_live stored alive)
      refine ih parent ?_
      rw [parent?, storedBefore]
      exact shrinks.parent linked

/-- A call under which the live nodes stay live, and no node gains a link. -/
theorem Intact.fade (intact : before.Intact) (sound : after.Sound)
    (continues : Continues (fun _ _ => True) before after) (fades : Fades before after)
    (stays : ∀ {id : NodeId}, after.live id = none → before.live id = none) : after.Intact := by
  refine ⟨sound, intact.severed sound continues fun stored pending => ?_⟩
  obtain ⟨node, storedBefore, shrinks⟩ := fades.origin stored
  refine ⟨node, storedBefore, shrinks, fun alive => ?_⟩
  have gone := stays (live_of_pending stored pending)
  rw [live_eq_some.mpr ⟨storedBefore, alive⟩] at gone
  cases gone

/-- A call that leaves the pending nodes as they are and makes no other ones. -/
theorem Intact.extend (intact : before.Intact) (sound : after.Sound)
    (continues : Continues (fun _ _ => True) before after)
    (same : ∀ {id : NodeId} {node : AccessibleNode}, after.get? id = some node →
      node.alive = false → before.get? id = some node) : after.Intact := by
  refine ⟨sound, intact.severed sound continues fun stored pending => ?_⟩
  refine ⟨_, same stored pending, .refl _, fun alive => ?_⟩
  rw [pending] at alive
  cases alive

/-! ### Calls -/

theorem intact_empty : empty.Intact where
  toSound := sound_empty
  apart := by
    intro id other node stored
    rw [get?] at stored
    cases (Arena.get?_empty id).symm.trans stored
  ends := by
    refine ⟨fun id => Acc.intro id fun parent linked => ?_⟩
    rw [parent?, show empty.get? id = none from Arena.get?_empty id] at linked
    cases linked

/-! ### Calls that add nodes and links -/

section Pending

variable {id : NodeId} {node : AccessibleNode}

theorem live_modify_eq_none {other : NodeId} (change : AccessibleNode → AccessibleNode)
    (kept : ∀ node, (change node).alive = node.alive) :
    (tree.modify id change).live other = none ↔ tree.live other = none := by
  rw [live_modify id other change kept]
  split
  · rename_i same
    rw [Option.map_eq_none_iff, same]
  · exact Iff.rfl

theorem link_eq_none {parent child : NodeId} {index : Nat} :
    (tree.link parent index child).live id = none ↔ tree.live id = none :=
  live_modify_eq_none (·.withChild index child) fun _ => rfl

theorem get?_modify_apart {other : NodeId} (apart : other ≠ id)
    (change : AccessibleNode → AccessibleNode) :
    (tree.modify id change).get? other = tree.get? other := by
  rw [get?_modify, if_neg apart.symm]

theorem ne_of_not_live {other : NodeId} (gone : tree.live id = none)
    (alive : ∃ node, tree.live other = some node) : id ≠ other := by
  rintro rfl
  obtain ⟨node, alive⟩ := alive
  rw [gone] at alive
  cases alive

theorem get?_createRoot_of_pending {content : Handle} {seed : Seed}
    (stored : (tree.createRoot content seed).state.get? id = some node)
    (pending : node.alive = false) : tree.get? id = some node := by
  rcases tree.createRoot_cases content seed with ⟨fault, failed⟩ | ⟨-, -, done⟩
  · rw [failed] at stored
    exact stored
  · rw [done] at stored
    replace stored : (tree.add content none seed).get? id = some node := stored
    rw [get?_add] at stored
    split at stored
    · cases stored
      cases pending
    · exact stored

theorem get?_create_of_pending {content : Handle} {parent : NodeId} {index : Nat} {seed : Seed}
    (stored : (tree.create content parent index seed).state.get? id = some node)
    (pending : node.alive = false) : tree.get? id = some node := by
  rcases tree.create_cases content parent index seed with ⟨fault, failed⟩ | ⟨aliveParent, -, done⟩
  · rw [failed] at stored
    exact stored
  · rw [done] at stored
    replace stored : (tree.withNode content parent index seed).get? id = some node := stored
    have gone := link_eq_none.mp (live_of_pending stored pending)
    rw [live_add] at gone
    split at gone
    · cases gone
    · rename_i old
      rw [withNode, link,
        get?_modify_apart (ne_of_not_live gone (isAlive_iff_live.mp aliveParent)), get?_add,
        if_neg (Ne.symm old)] at stored
      exact stored

theorem Sound.get?_unlink_of_not_live (sound : tree.Sound) {child : NodeId}
    (alive : ∃ node, tree.live child = some node) (gone : tree.live id = none) :
    (tree.unlink child).get? id = tree.get? id := by
  obtain ⟨childNode, alive⟩ := alive
  rw [Tree.unlink, parent?_of_live alive]
  cases linked : childNode.parent with
  | none => rfl
  | some parent =>
    obtain ⟨above, aliveParent, -⟩ := sound.forest.parent_live alive linked
    exact get?_modify_apart (ne_of_not_live gone ⟨above, aliveParent⟩) _

theorem unlink_eq_none {child : NodeId} :
    (tree.unlink child).live id = none ↔ tree.live id = none := by
  unfold Tree.unlink
  split
  · exact Iff.rfl
  · exact live_modify_eq_none (·.without child) fun _ => rfl

theorem Sound.get?_reparent_of_pending (sound : tree.Sound) {child parent : NodeId} {index : Nat}
    (stored : (tree.reparent child parent index).state.get? id = some node)
    (pending : node.alive = false) : tree.get? id = some node := by
  rcases tree.reparent_cases child parent index with
    ⟨fault, failed⟩ | ⟨aliveChild, aliveParent, -, done⟩
  · rw [failed] at stored
    exact stored
  · rw [done] at stored
    replace stored : (tree.withMoved child parent index).get? id = some node := stored
    rw [isAlive_iff_live] at aliveChild aliveParent
    have goneMoved := link_eq_none.mp (live_of_pending stored pending)
    have gone : tree.live id = none :=
      unlink_eq_none.mp ((live_modify_eq_none _ (keepsData_withParent _).alive).mp goneMoved)
    rw [withMoved, link, get?_modify_apart (ne_of_not_live gone aliveParent),
      get?_modify_apart (ne_of_not_live gone aliveChild),
      sound.get?_unlink_of_not_live aliveChild gone] at stored
    exact stored

end Pending

namespace Intact

theorem createRoot (intact : tree.Intact) (content : Handle) (seed : Seed) :
    (tree.createRoot content seed).state.Intact := by
  refine intact.extend ?_ ((Continues.refl intact.tidy).createRoot trivial)
    get?_createRoot_of_pending
  rcases tree.createRoot_cases content seed with ⟨fault, failed⟩ | ⟨rootless, -, -⟩
  · rw [failed]
    exact intact.toSound
  · obtain ⟨after, done, sound, -, -⟩ :=
      @Sound.createRoot tree content intact.toSound rootless seed
    rw [done]
    exact sound

theorem create (intact : tree.Intact) (content : Handle) (parent : NodeId) (index : Nat)
    (seed : Seed) : (tree.create content parent index seed).state.Intact := by
  refine intact.extend ?_ ((Continues.refl intact.tidy).create parent index trivial)
    get?_create_of_pending
  rcases tree.create_cases content parent index seed with ⟨fault, failed⟩ | ⟨alive, absent, -⟩
  · rw [failed]
    exact intact.toSound
  · obtain ⟨above, aliveParent⟩ := isAlive_iff_live.mp alive
    obtain ⟨after, done, sound, -, -⟩ := intact.toSound.create aliveParent absent index seed
    rw [done]
    exact sound

theorem reparent (intact : tree.Intact) (child parent : NodeId) (index : Nat) :
    (tree.reparent child parent index).state.Intact := by
  refine intact.extend ?_ ((Continues.refl intact.tidy).reparent child parent index)
    intact.toSound.get?_reparent_of_pending
  rcases tree.reparent_cases child parent index with
    ⟨fault, failed⟩ | ⟨aliveChild, aliveParent, acyclic, -⟩
  · rw [failed]
    exact intact.toSound
  · obtain ⟨node, childAlive⟩ := isAlive_iff_live.mp aliveChild
    obtain ⟨above, parentAlive⟩ := isAlive_iff_live.mp aliveParent
    rw [← Bool.not_eq_true, intact.toSound.isAncestorOf_iff parentAlive] at acyclic
    obtain ⟨after, done, sound, -, -⟩ :=
      intact.toSound.reparent childAlive parentAlive acyclic index
    rw [done]
    exact sound

/-! ### Calls that take away -/

theorem sync (intact : tree.Intact) (id : NodeId) (attributes : Attributes) (scope : Scope) :
    (tree.sync id attributes scope).state.Intact := by
  cases stored : tree.get? id with
  | none =>
    simp only [Tree.sync, stored]
    exact intact
  | some node =>
    have continues : Continues (fun _ _ => True) tree (tree.sync id attributes scope).state :=
      (Continues.refl intact.tidy).sync id attributes scope
    have fades := (Fades.refl tree).sync id attributes scope
    obtain ⟨after, changed, done, sound, -, lives⟩ := intact.toSound.sync stored attributes scope
    rw [done] at continues fades ⊢
    refine intact.fade sound continues fades fun {other} gone => ?_
    replace gone : after.live other = none := gone
    rw [lives, Option.map_eq_none_iff] at gone
    exact gone

theorem arrange (intact : tree.Intact) {parent : NodeId} {order : List NodeId}
    (reordered : ∀ node, tree.get? parent = some node → order.Perm node.children) :
    (tree.arrange parent order).state.Intact := by
  cases stored : tree.get? parent with
  | none =>
    simp only [Tree.arrange, stored]
    exact intact
  | some node =>
    have continues : Continues (fun _ _ => True) tree (tree.arrange parent order).state :=
      (Continues.refl intact.tidy).arrange parent order
    have fades := (Fades.refl tree).arrange reordered
    obtain ⟨after, changed, done, sound, -, lives⟩ :=
      intact.toSound.arrange stored (reordered node stored)
    rw [done] at continues fades ⊢
    refine intact.fade sound continues fades fun {other} gone => ?_
    replace gone : after.live other = none := gone
    rw [lives, Option.map_eq_none_iff] at gone
    exact gone

/-- Nodes that are not live may go. -/
theorem discards (intact : tree.Intact) {ids : List NodeId}
    (apart : ∀ id ∈ ids, tree.live id = none) : (ids.foldl discard tree).Intact := by
  refine intact.fade (intact.toSound.foldl_discard apart)
    (Continues.foldl (fun id soFar => soFar.discard id) (.refl intact.tidy) ids)
    (Fades.foldl (fun id soFar => soFar.discard id) (.refl tree) ids) fun gone => ?_
  rw [live_foldl_discard apart] at gone
  exact gone

theorem retirePending (intact : tree.Intact) : tree.retirePending.Intact :=
  intact.discards fun _ => live_of_mem_pending

/-- A node that shuts down takes along what is below it, and forgets its parent. -/
theorem beginShutdown (intact : tree.Intact) (id : NodeId) :
    (tree.beginShutdown id).state.Intact := by
  cases alive : tree.live id with
  | none =>
    rw [state_beginShutdown_of_not_live alive]
    exact intact
  | some node =>
    have continues : Continues (fun _ _ => True) tree (tree.beginShutdown id).state :=
      (Continues.refl intact.tidy).beginShutdown id
    have fades := (Fades.refl tree).beginShutdown id
    have orphaned : (tree.takenDown id).parent? id = none := by
      rw [parent?, takenDown, get?_modify, if_pos rfl]
      cases Tree.get? _ id <;> rfl
    obtain ⟨after, done, sound, -, removed⟩ := intact.toSound.beginShutdown alive
    cases done.symm.trans (beginShutdown_eq_done intact.toSound alive)
    rw [done] at continues fades ⊢
    refine ⟨sound, intact.severed sound continues fun {lower lowerNode} stored pending => ?_⟩
    obtain ⟨old, storedBefore, shrinks⟩ := fades.origin stored
    refine ⟨old, storedBefore, shrinks, fun aliveBefore {other} named => ?_⟩
    have aliveLower := live_eq_some.mpr ⟨storedBefore, aliveBefore⟩
    have gone : (tree.takenDown id).live lower = none := live_of_pending stored pending
    have below : tree.live.Leads id lower := by
      by_contra outside
      rw [removed.kept outside, aliveLower] at gone
      cases gone
    rcases named with linked | listed
    · obtain ⟨above, aliveOther, listed⟩ :=
        intact.forest.parent_live aliveLower (shrinks.parent linked)
      rcases intact.forest.leads_of_parent aliveOther listed below with rfl | leads
      · rw [parent?, show (tree.takenDown id).get? id = _ from stored, Option.bind_some, linked]
          at orphaned
        cases orphaned
      · exact removed.gone leads
    · exact removed.gone (below.trans (.step aliveLower (shrinks.children listed)))

/-- What is below a node that is not live is not live either. -/
theorem not_live_of_mem_below (intact : tree.Intact) {id lower : NodeId}
    (gone : tree.live id = none) (met : lower ∈ tree.below id) : tree.live lower = none := by
  rw [below, descend_eq_walk] at met
  obtain ⟨⟨steps, -, reached⟩, -⟩ := Walk.mem_descend.mp met
  clear met
  induction reached with
  | here _ => exact gone
  | step known listed _ ih =>
    obtain ⟨node, stored, rfl⟩ := Option.map_eq_some_iff.mp known
    exact ih (intact.apart stored (pending_of_not_live stored gone) (.inr listed)).1

theorem retire (intact : tree.Intact) (id : NodeId) : (tree.retire id).state.Intact := by
  rcases tree.retire_cases id with ⟨-, failed⟩ | ⟨suspended, leaving, began, done⟩
  · rw [failed]
    exact intact
  · have suspends := intact.beginShutdown id
    have gone := intact.toSound.live_beginShutdown id
    rw [began] at suspends gone
    rw [done]
    replace suspends : suspended.Intact := suspends
    exact suspends.discards fun lower met => suspends.not_live_of_mem_below gone met

end Intact

/-! ### Sequences of calls -/

theorem Intact.call (intact : tree.Intact) {call : Call} (admissible : call.Admissible tree) :
    (call.run tree).1.Intact := by
  cases call with
  | createRoot content seed => exact intact.createRoot content seed
  | create content parent index seed => exact intact.create content parent index seed
  | beginShutdown id => exact intact.beginShutdown id
  | retire id => exact intact.retire id
  | retirePending => exact intact.retirePending
  | reparent child parent index => exact intact.reparent child parent index
  | arrange parent order => exact intact.arrange admissible
  | sync id attributes scope => exact intact.sync id attributes scope

theorem Reachable.intact (reachable : tree.Reachable) : tree.Intact := by
  induction reachable with
  | empty => exact intact_empty
  | call _ _ admissible ih => exact ih.call admissible

/-- Parent links lead from a node to all nodes above it. -/
theorem under_of_leads (sound : tree.Sound) {upper lower : NodeId}
    (leads : tree.live.Leads upper lower) : tree.Under lower upper := by
  refine leads.induction (motive := fun lower => tree.Under lower upper) (.self upper) ?_
  intro parent child above _ under alive listed
  obtain ⟨node, aliveChild, linked⟩ := (sound.forest.listed alive).mp listed
  exact .above ((parent?_of_live aliveChild).trans linked) under

theorem Under.snoc {id parent upper : NodeId} (under : tree.Under id parent)
    (linked : tree.parent? parent = some upper) : tree.Under id upper := by
  induction under with
  | self id => exact .above linked (.self upper)
  | above further _ ih => exact .above further (ih linked)

/-- The way up from a node ends, so it does not come back. -/
theorem Severed.not_under (severed : tree.Severed) {id parent : NodeId}
    (linked : tree.parent? id = some parent) : ¬ tree.Under parent id := by
  induction severed.ends.apply id generalizing parent with
  | intro id _ ih =>
    intro under
    cases under with
    | self _ => exact ih id linked linked (.self id)
    | above up rest =>
      -- The same circle, told from the parent on.
      exact ih parent linked up (rest.snoc linked)

theorem lifecycle_of_live {id : NodeId} {node : AccessibleNode} (alive : tree.live id = some node) :
    tree.lifecycle id = .alive := by
  simp only [lifecycle, get?_of_live alive, alive_of_live alive, if_true]

theorem Intact.wellFormed (intact : tree.Intact) : tree.WellFormed := by
  have sound := intact.toSound
  refine ⟨?_, ?_, ?_, ?_, ?_, intact.not_under, sound.preorder_nodup, ?_, ?_, ?_, ?_⟩
  · intro top atTop
    obtain ⟨node, alive, parentless⟩ := sound.forest.root_live atTop
    exact ⟨isAlive_iff_live.mpr ⟨node, alive⟩, (parent?_of_live alive).trans parentless⟩
  · intro id alive
    obtain ⟨node, alive⟩ := isAlive_iff_live.mp alive
    obtain ⟨top, atTop, leads⟩ := sound.forest.reached alive
    exact ⟨top, atTop, under_of_leads sound leads⟩
  · intro id parent alive linked
    obtain ⟨node, alive⟩ := isAlive_iff_live.mp alive
    rw [parent?_of_live alive] at linked
    obtain ⟨above, aliveParent, -⟩ := sound.forest.parent_live alive linked
    exact isAlive_iff_live.mpr ⟨above, aliveParent⟩
  · intro parent child alive
    obtain ⟨above, alive⟩ := isAlive_iff_live.mp alive
    rw [children_of_live alive, sound.forest.listed alive, isAlive_iff_live]
    constructor
    · rintro ⟨node, aliveChild, linked⟩
      exact ⟨⟨node, aliveChild⟩, (parent?_of_live aliveChild).trans linked⟩
    · rintro ⟨⟨node, aliveChild⟩, linked⟩
      exact ⟨node, aliveChild, (parent?_of_live aliveChild).symm.trans linked⟩
  · intro parent alive
    obtain ⟨above, alive⟩ := isAlive_iff_live.mp alive
    rw [children_of_live alive]
    exact sound.forest.nodup alive
  · intro id
    rw [sound.mem_preorder, isAlive_iff_live]
  · intro content id
    simp only [sound.content, live_eq_some, and_assoc]
  · intro left right node other storedLeft storedRight aliveLeft aliveRight same
    exact sound.content_injective (live_eq_some.mpr ⟨storedLeft, aliveLeft⟩)
      (live_eq_some.mpr ⟨storedRight, aliveRight⟩) same
  · rintro id (⟨content, found⟩ | ⟨domId, scope, found⟩)
    · obtain ⟨node, alive, -⟩ := sound.live_of_nodeFor? found
      exact lifecycle_of_live alive
    · obtain ⟨node, alive, -⟩ := sound.carries_of_lookup? found
      exact lifecycle_of_live alive

/-- Whatever calls are made, and whether the nodes that they name are live, pending, retired or
unknown, the tree stays well formed. -/
theorem wellFormed_of_reachable (reachable : tree.Reachable) : tree.WellFormed :=
  reachable.intact.wellFormed

/-- An element with two texts goes. One of them is given a DOM id and is retired after all, and its
content comes back under a new node; the calls that name the element fail or change nothing live. -/
def suspendedCalls : List Call :=
  let seed (kind : Kind) : Seed := ⟨kind, ∅, .document⟩
  [.createRoot ⟨0⟩ (seed .document), .create ⟨1⟩ ⟨1, 1⟩ 0 (seed (.element "div")),
    .create ⟨2⟩ ⟨2, 1⟩ 0 (seed .text), .create ⟨3⟩ ⟨2, 1⟩ 1 (seed .text), .beginShutdown ⟨2, 1⟩,
    .sync ⟨3, 1⟩ (Attributes.set ∅ "id" "late") .document, .arrange ⟨2, 1⟩ [⟨4, 1⟩, ⟨3, 1⟩],
    .retire ⟨3, 1⟩, .create ⟨2⟩ ⟨1, 1⟩ 0 (seed .text), .reparent ⟨3, 3⟩ ⟨2, 1⟩ 0,
    .reparent ⟨3, 1⟩ ⟨1, 1⟩ 0]

theorem wellFormed_suspendedCalls :
    ∃ tree : Tree, tree = suspendedCalls.foldl (fun tree call => (call.run tree).1) empty ∧
      tree.Reachable ∧ tree.WellFormed ∧ tree.lifecycle ⟨2, 1⟩ = .pendingShutdown ∧
      tree.named ⟨.document, "late"⟩ = [⟨3, 1⟩] ∧ tree.nodeFor? ⟨2⟩ = some ⟨3, 3⟩ ∧
      tree.preorder = [⟨1, 1⟩, ⟨3, 3⟩] := by
  let after (count : Nat) : Tree :=
    (suspendedCalls.take count).foldl (fun tree call => (call.run tree).1) empty
  have reordered : ∀ node, (after 6).get? ⟨2, 1⟩ = some node →
      List.Perm [⟨4, 1⟩, ⟨3, 1⟩] node.children := by
    intro node stored
    have children : (after 6).children ⟨2, 1⟩ = [⟨3, 1⟩, ⟨4, 1⟩] := by decide +kernel
    rw [Tree.children, stored] at children
    rw [show node.children = [⟨3, 1⟩, ⟨4, 1⟩] from children]
    exact .swap _ _ []
  have reachable : (after 11).Reachable := by
    iterate 4 refine .call ?_ _ trivial
    refine .call ?_ _ reordered
    iterate 6 refine .call ?_ _ trivial
    exact .empty
  exact ⟨after 11, rfl, reachable, wellFormed_of_reachable reachable, by decide +kernel,
    by decide +kernel, by decide +kernel, by decide +kernel⟩

end Tree

end Accessibility
