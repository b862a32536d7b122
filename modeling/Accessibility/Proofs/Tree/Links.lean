import Accessibility.Proofs.Tree.Faults

/-!
Nodes that go, with their links. A node that becomes pending keeps the links below it, and as long as
both ends of a link are there, both tell of it. So the walk down from any node, live or pending, meets
exactly the nodes from which parent links lead up to it, and a retirement frees these and no others.
-/

set_option autoImplicit false

namespace Accessibility

namespace Walk

variable {α : Type} {children : α → Option (List α)}

/-- Where no way leads back to where it begins, a way meets as many nodes as it has steps, and one
more. All of them but the last have child lists. -/
theorem Reaches.exists_nodup
    (acyclic : ∀ steps node, ¬ Reaches children (steps + 1) node node) {steps : Nat}
    {node target : α} (reached : Reaches children steps node target) :
    ∃ path : List α, path.length = steps + 1 ∧ path.Nodup ∧ ∀ met ∈ path,
      (∃ more, Reaches children more node met) ∧ (met = target ∨ (children met).isSome = true) := by
  induction reached with
  | here node =>
    refine ⟨[node], rfl, List.nodup_singleton node, ?_⟩
    intro met listed
    rw [List.mem_singleton.mp listed]
    exact ⟨⟨0, .here node⟩, .inl rfl⟩
  | @step steps node child target below known listed rest ih =>
    obtain ⟨path, length, nodup, all⟩ := ih
    refine ⟨node :: path, by rw [List.length_cons, length], List.nodup_cons.mpr ⟨?_, nodup⟩, ?_⟩
    · intro again
      obtain ⟨⟨more, back⟩, -⟩ := all node again
      exact acyclic more node (.step known listed back)
    · intro met onPath
      rcases List.mem_cons.mp onPath with rfl | later
      · refine ⟨⟨0, .here met⟩, .inr ?_⟩
        rw [known, Option.isSome_some]
      · obtain ⟨⟨more, further⟩, stored⟩ := all met later
        exact ⟨⟨more + 1, .step known listed further⟩, stored⟩

end Walk

namespace Tree

variable {before tree after : Tree} {id parent child other lower : NodeId}
  {node above : AccessibleNode}

/-! ### Links of pending nodes -/

/-- The parent of a pending node is there and lists it, and a pending node lists nothing else. -/
structure Linked (tree : Tree) : Prop where
  listed : ∀ {id parent : NodeId} {node : AccessibleNode}, tree.get? id = some node →
    node.alive = false → node.parent = some parent →
    ∃ above, tree.get? parent = some above ∧ id ∈ above.children
  linked : ∀ {parent child : NodeId} {above node : AccessibleNode},
    tree.get? parent = some above → above.alive = false → child ∈ above.children →
    tree.get? child = some node → node.parent = some parent

/-- A sound tree whose pending nodes are cut off, with links that are told at both ends. -/
structure Joined (tree : Tree) : Prop extends Intact tree, Linked tree

namespace Joined

theorem parent_stored (joined : tree.Joined) (stored : tree.get? id = some node)
    (linked : node.parent = some parent) :
    ∃ above, tree.get? parent = some above ∧ id ∈ above.children := by
  cases alive : node.alive with
  | true =>
    obtain ⟨above, aliveParent, listed⟩ :=
      joined.forest.parent_live (live_eq_some.mpr ⟨stored, alive⟩) linked
    exact ⟨above, get?_of_live aliveParent, listed⟩
  | false => exact joined.listed stored alive linked

theorem parent_of_listed (joined : tree.Joined) (stored : tree.get? parent = some above)
    (listed : child ∈ above.children) (storedChild : tree.get? child = some node) :
    node.parent = some parent := by
  cases alive : above.alive with
  | true =>
    obtain ⟨childNode, aliveChild, linked⟩ :=
      (joined.forest.listed (live_eq_some.mpr ⟨stored, alive⟩)).mp listed
    obtain rfl := Option.some.inj (storedChild.symm.trans (get?_of_live aliveChild))
    exact linked
  | false => exact joined.linked stored alive listed storedChild

/-! ### Walks from any node -/

/-- A way down to a node that is there begins at one. -/
theorem stored_of_reaches {steps : Nat}
    (reached : Walk.Reaches tree.childrenOf? steps id lower)
    (stored : (tree.childrenOf? lower).isSome = true) : ∃ node, tree.get? id = some node := by
  cases reached with
  | here _ =>
    rw [childrenOf?, Option.isSome_map, Option.isSome_iff_exists] at stored
    exact stored
  | step known _ _ =>
    obtain ⟨node, storedId, -⟩ := Option.map_eq_some_iff.mp known
    exact ⟨node, storedId⟩

theorem under_of_reaches (joined : tree.Joined) {steps : Nat}
    (reached : Walk.Reaches tree.childrenOf? steps id lower)
    (stored : (tree.childrenOf? lower).isSome = true) : tree.Under lower id := by
  induction reached with
  | here node => exact .self node
  | step known listed rest ih =>
    obtain ⟨above, storedAbove, rfl⟩ := Option.map_eq_some_iff.mp known
    obtain ⟨childNode, storedChild⟩ := stored_of_reaches rest stored
    refine (ih stored).snoc ?_
    rw [parent?, storedChild]
    exact joined.parent_of_listed storedAbove listed storedChild

/-- Links lead in no circle, so the number of nodes bounds every way down. -/
theorem steps_lt_size (joined : tree.Joined) {steps : Nat}
    (reached : Walk.Reaches tree.childrenOf? steps id lower)
    (stored : (tree.childrenOf? lower).isSome = true) : steps < tree.size := by
  have acyclic (steps : Nat) (node : NodeId) :
      ¬ Walk.Reaches tree.childrenOf? (steps + 1) node node := by
    intro circle
    obtain ⟨parent, children, upper, known, listed⟩ := circle.last
    obtain ⟨above, storedParent, rfl⟩ := Option.map_eq_some_iff.mp known
    have storedParent' : (tree.childrenOf? parent).isSome = true := by
      rw [known, Option.isSome_some]
    obtain ⟨self, storedNode⟩ := stored_of_reaches upper storedParent'
    have linked : tree.parent? node = some parent := by
      rw [parent?, storedNode]
      exact joined.parent_of_listed storedParent listed storedNode
    exact joined.not_under linked (joined.under_of_reaches upper storedParent')
  obtain ⟨path, length, nodup, all⟩ := reached.exists_nodup acyclic
  -- The way meets no node twice and only nodes that are there.
  have contained : path ⊆ tree.nodes.entries.keys := by
    intro met onPath
    have storedMet : (tree.childrenOf? met).isSome = true := by
      rcases (all met onPath).2 with rfl | known
      · exact stored
      · exact known
    rw [childrenOf?, Option.isSome_map, Option.isSome_iff_exists] at storedMet
    exact Arena.mem_keys.mpr storedMet
  have bound := (List.subperm_of_subset nodup contained).length_le
  rw [← Arena.size_eq_length] at bound
  rw [size]
  omega

theorem reaches_of_under (joined : tree.Joined) (under : tree.Under lower id)
    (stored : tree.get? lower = some node) :
    ∃ steps, Walk.Reaches tree.childrenOf? steps id lower := by
  induction under generalizing node with
  | self id => exact ⟨0, .here id⟩
  | above linked _ ih =>
    rw [parent?, stored] at linked
    obtain ⟨above, storedParent, listed⟩ := joined.parent_stored stored linked
    obtain ⟨steps, reached⟩ := ih storedParent
    exact ⟨steps + 1, reached.snoc (by rw [childrenOf?, storedParent, Option.map_some]) listed⟩

/-- What is below a node, live or pending, are the nodes from which parent links lead to it. -/
theorem mem_below (joined : tree.Joined) :
    lower ∈ tree.below id ↔ (∃ node, tree.get? lower = some node) ∧ tree.Under lower id := by
  have stored_iff : (∃ node, tree.get? lower = some node) ↔
      (tree.childrenOf? lower).isSome = true := by
    rw [childrenOf?, Option.isSome_map, Option.isSome_iff_exists]
  rw [below, descend_eq_walk, Walk.mem_descend, stored_iff]
  constructor
  · rintro ⟨⟨steps, -, reached⟩, stored⟩
    exact ⟨stored, joined.under_of_reaches reached stored⟩
  · rintro ⟨stored, under⟩
    obtain ⟨node, storedLower⟩ := stored_iff.mpr stored
    obtain ⟨steps, reached⟩ := joined.reaches_of_under under storedLower
    exact ⟨⟨steps, joined.steps_lt_size reached stored, reached⟩, stored⟩

end Joined

/-! ### Calls that leave pending nodes their links -/

/-- The pending nodes are the same ones with the same links; their child lists may have another
order. -/
structure KeepsPending (before after : Tree) : Prop where
  origin : ∀ {id : NodeId} {node' : AccessibleNode}, after.get? id = some node' →
    node'.alive = false → ∃ node, before.get? id = some node ∧ node.alive = false ∧
      node'.parent = node.parent ∧ node'.children.Perm node.children
  stays : ∀ {id : NodeId} {node : AccessibleNode}, before.get? id = some node →
    node.alive = false → ∃ node', after.get? id = some node' ∧
      node'.parent = node.parent ∧ node'.children.Perm node.children

theorem Joined.keep (joined : before.Joined) (intact : after.Intact)
    (keeps : KeepsPending before after) : after.Joined where
  toIntact := intact
  listed := by
    intro id parent node' stored pending linked
    obtain ⟨node, storedBefore, pendingBefore, sameParent, -⟩ := keeps.origin stored pending
    rw [sameParent] at linked
    -- No live node is above a pending one, so the link is between pending nodes, which keep theirs.
    obtain ⟨above, storedAbove, listed⟩ := joined.listed storedBefore pendingBefore linked
    have gone := (joined.apart storedBefore pendingBefore (.inl linked)).1
    obtain ⟨above', storedAfter, -, children⟩ :=
      keeps.stays storedAbove (pending_of_not_live storedAbove gone)
    exact ⟨above', storedAfter, children.mem_iff.mpr listed⟩
  linked := by
    intro parent child above' node' storedAbove pending listed storedChild
    have gone := (intact.apart storedAbove pending (.inr listed)).1
    obtain ⟨above, storedBefore, pendingBefore, -, children⟩ := keeps.origin storedAbove pending
    obtain ⟨node, storedChildBefore, -, sameParent, -⟩ :=
      keeps.origin storedChild (pending_of_not_live storedChild gone)
    rw [sameParent]
    exact joined.linked storedBefore pendingBefore (children.mem_iff.mp listed) storedChildBefore

namespace KeepsPending

/-- A call under which every node keeps its links and its life. -/
theorem of_map {change : NodeId → AccessibleNode → AccessibleNode}
    (same : ∀ id, after.get? id = (before.get? id).map (change id))
    (alive : ∀ id node, (change id node).alive = node.alive)
    (parent : ∀ id node, (change id node).parent = node.parent)
    (children : ∀ id node, before.get? id = some node →
      (change id node).children.Perm node.children) : KeepsPending before after where
  origin := by
    intro id node' stored pending
    rw [same] at stored
    obtain ⟨node, storedBefore, rfl⟩ := Option.map_eq_some_iff.mp stored
    exact ⟨node, storedBefore, (alive id node).symm.trans pending, parent id node,
      children id node storedBefore⟩
  stays := by
    intro id node stored _
    refine ⟨change id node, ?_, parent id node, children id node stored⟩
    rw [same, stored, Option.map_some]

/-- A call that leaves pending nodes as they are. -/
theorem of_same
    (origin : ∀ {id : NodeId} {node : AccessibleNode}, after.get? id = some node →
      node.alive = false → before.get? id = some node)
    (stays : ∀ {id : NodeId} {node : AccessibleNode}, before.get? id = some node →
      node.alive = false → after.get? id = some node) : KeepsPending before after :=
  ⟨fun stored pending => ⟨_, origin stored pending, pending, rfl, .refl _⟩,
    fun stored pending => ⟨_, stays stored pending, rfl, .refl _⟩⟩

end KeepsPending

theorem get?_add_of_stored (tidy : tree.nodes.Tidy) (stored : tree.get? id = some node)
    (content : Handle) (parent : Option NodeId) (seed : Seed) :
    (tree.add content parent seed).get? id = some node := by
  rw [get?_add, if_neg, stored]
  rintro rfl
  rw [get?, tidy.get?_nextKey] at stored
  cases stored

theorem Intact.keepsPending_createRoot (intact : tree.Intact) (content : Handle) (seed : Seed) :
    KeepsPending tree (tree.createRoot content seed).state := by
  refine .of_same get?_createRoot_of_pending fun stored _ => ?_
  rcases tree.createRoot_cases content seed with ⟨fault, failed⟩ | ⟨-, -, done⟩
  · rw [failed]
    exact stored
  · rw [done]
    exact get?_add_of_stored intact.tidy stored content none seed

theorem Intact.keepsPending_create (intact : tree.Intact) (content : Handle) (parent : NodeId)
    (index : Nat) (seed : Seed) :
    KeepsPending tree (tree.create content parent index seed).state := by
  refine .of_same get?_create_of_pending fun {id node} stored pending => ?_
  rcases tree.create_cases content parent index seed with ⟨fault, failed⟩ | ⟨aliveParent, -, done⟩
  · rw [failed]
    exact stored
  · rw [done]
    have apart : id ≠ parent :=
      ne_of_not_live (live_of_pending stored pending) (isAlive_iff_live.mp aliveParent)
    exact (get?_modify_apart apart _).trans
      (get?_add_of_stored intact.tidy stored content (some parent) seed)

theorem Intact.keepsPending_reparent (intact : tree.Intact) (child parent : NodeId) (index : Nat) :
    KeepsPending tree (tree.reparent child parent index).state := by
  refine .of_same intact.get?_reparent_of_pending fun {id node} stored pending => ?_
  cases answered : (tree.reparent child parent index).answer with
  | error fault =>
    rw [(sparing_reparent tree child parent index).state answered]
    exact stored
  | ok _ =>
    obtain ⟨aliveChild, aliveParent, -⟩ := intact.of_reparent_ok answered
    have gone := live_of_pending stored pending
    have notChild := ne_of_not_live gone (isAlive_iff_live.mp aliveChild)
    have notParent := ne_of_not_live gone (isAlive_iff_live.mp aliveParent)
    have unlisted : child ∉ node.children := by
      intro listed
      obtain ⟨childNode, alive⟩ := isAlive_iff_live.mp aliveChild
      rw [(intact.apart stored pending (.inr listed)).1] at alive
      cases alive
    rw [intact.get?_reparent answered, Live.moved, stored, Option.map_some, if_neg notChild,
      if_neg notParent, AccessibleNode.without_of_not_mem unlisted]

theorem get?_congr (same : after.nodes = tree.nodes) (id : NodeId) : after.get? id = tree.get? id := by
  rw [get?, same, get?]

theorem keepsPending_arrange {order : List NodeId}
    (reordered : ∀ node, tree.get? parent = some node → order.Perm node.children) :
    KeepsPending tree (tree.arrange parent order).state := by
  refine .of_map (get?_arrange tree parent order) (fun id node => ?_) (fun id node => ?_)
    (fun id node stored => ?_)
  · split <;> rfl
  · split <;> rfl
  · split
    · rename_i here
      subst here
      exact reordered node stored
    · exact .refl _

theorem keepsPending_sync (tree : Tree) (id : NodeId) (attributes : Attributes) (scope : Scope) :
    KeepsPending tree (tree.sync id attributes scope).state := by
  refine .of_map (get?_sync tree id attributes scope) (fun id node => ?_) (fun id node => ?_)
    (fun id node _ => ?_)
  · split <;> rfl
  · split <;> rfl
  · split <;> exact .refl _

/-! ### Shutdown -/

theorem get?_suspend (tree : Tree) (id other : NodeId) :
    (tree.suspend id).get? other = (tree.get? other).map fun node =>
      if other = id then { node with alive := false } else node := by
  rw [suspend, get?_modify_eq_map, get?_congr (nodes_unindex tree id)]

theorem get?_foldl_suspend (ids : List NodeId) (tree : Tree) (other : NodeId) :
    (ids.foldl suspend tree).get? other = (tree.get? other).map fun node =>
      if other ∈ ids then { node with alive := false } else node := by
  induction ids generalizing tree with
  | nil => simp
  | cons id rest ih =>
    rw [List.foldl_cons, ih, get?_suspend, Option.map_map]
    congr 1
    funext node
    by_cases here : other = id <;> by_cases later : other ∈ rest <;> simp [here, later]

/-- What the shutdown of a live node makes of each node, pending ones included. -/
theorem Intact.get?_beginShutdown (intact : tree.Intact) (alive : tree.live id = some node)
    (other : NodeId) :
    (tree.beginShutdown id).state.get? other = (tree.get? other).map fun old =>
      if other = id then { old.without id with alive := false, parent := none }
      else if other ∈ tree.below id then { old.without id with alive := false }
      else old.without id := by
  have self : id ∈ tree.below id := (intact.toSound.mem_below alive).mpr (.refl _ id)
  have detached (other : NodeId) :
      (tree.detached id).get? other = (tree.get? other).map (·.without id) := by
    rw [get?_congr (nodes_detached tree id), intact.get?_unlink alive]
  rw [beginShutdown_eq_done intact.toSound alive]
  simp only [Outcome.done, takenDown, intact.below_detached alive, get?_modify, get?_foldl_suspend,
    detached, Option.map_map]
  by_cases here : other = id
  · subst here
    simp only [if_true, self, get?_of_live alive]
    rfl
  · simp only [here, Ne.symm here, if_false]
    rfl

theorem Intact.parent?_beginShutdown (intact : tree.Intact) (alive : tree.live id = some node)
    (other : NodeId) : (tree.beginShutdown id).state.parent? other =
      if other = id then none else tree.parent? other := by
  rw [parent?, parent?, intact.get?_beginShutdown alive]
  cases tree.get? other with
  | none => simp
  | some old =>
    rw [Option.map_some, Option.bind_some, Option.bind_some]
    split
    · rfl
    · split <;> rfl

theorem Intact.children_beginShutdown (intact : tree.Intact) (alive : tree.live id = some node)
    {node' : AccessibleNode} (stored : (tree.beginShutdown id).state.get? other = some node') :
    ∃ old, tree.get? other = some old ∧ node'.children = old.children.filter (· != id) := by
  rw [intact.get?_beginShutdown alive] at stored
  obtain ⟨old, storedBefore, rfl⟩ := Option.map_eq_some_iff.mp stored
  refine ⟨old, storedBefore, ?_⟩
  split
  · rfl
  · split <;> rfl

namespace Joined

/-- Detaching a node cuts the link above it at both ends. -/
theorem beginShutdown (joined : tree.Joined) (id : NodeId) :
    (tree.beginShutdown id).state.Joined := by
  cases alive : tree.live id with
  | none =>
    rw [state_beginShutdown_of_not_live alive]
    exact joined
  | some node =>
    have parents {lower upper : NodeId} {lowerNode : AccessibleNode}
        (stored : (tree.beginShutdown id).state.get? lower = some lowerNode) :
        lowerNode.parent = some upper ↔ lower ≠ id ∧ tree.parent? lower = some upper := by
      have same := joined.toIntact.parent?_beginShutdown alive lower
      rw [parent?, stored, Option.bind_some] at same
      rw [same]
      split
      · rename_i here
        exact iff_of_false (Option.some_ne_none upper).symm fun both => both.1 here
      · rename_i apart
        exact (and_iff_right apart).symm
    refine ⟨joined.toIntact.beginShutdown id, ?_, ?_⟩
    · intro lower parent lowerNode stored _ linked
      obtain ⟨apart, linked⟩ := (parents stored).mp linked
      obtain ⟨old, storedBefore, linked⟩ := Option.bind_eq_some_iff.mp linked
      obtain ⟨above, storedAbove, listed⟩ := joined.parent_stored storedBefore linked
      have storedAfter := joined.toIntact.get?_beginShutdown alive parent
      rw [storedAbove, Option.map_some] at storedAfter
      obtain ⟨above', storedAbove', children⟩ :=
        joined.toIntact.children_beginShutdown alive storedAfter
      obtain rfl := Option.some.inj (storedAbove.symm.trans storedAbove')
      refine ⟨_, storedAfter, ?_⟩
      rw [children, List.mem_filter]
      exact ⟨listed, bne_iff_ne.mpr apart⟩
    · intro parent child above childNode stored _ listed storedChild
      obtain ⟨old, storedBefore, children⟩ :=
        joined.toIntact.children_beginShutdown alive stored
      rw [children, List.mem_filter] at listed
      obtain ⟨oldChild, storedChildBefore, -⟩ :=
        joined.toIntact.children_beginShutdown alive storedChild
      refine (parents storedChild).mpr ⟨bne_iff_ne.mp listed.2, ?_⟩
      rw [parent?, storedChildBefore]
      exact joined.parent_of_listed storedBefore listed.1 storedChildBefore

/-! ### Retirement -/

/-- All below a node that is not live may go. -/
theorem discards (joined : tree.Joined) (gone : tree.live id = none) :
    ((tree.below id).foldl discard tree).Joined := by
  refine ⟨joined.toIntact.discards fun lower met => joined.not_live_of_mem_below gone met, ?_, ?_⟩
  · intro lower parent lowerNode stored pending linked
    rw [get?_foldl_discard] at stored
    split at stored
    · cases stored
    · rename_i outside
      obtain ⟨above, storedAbove, listed⟩ := joined.listed stored pending linked
      refine ⟨above, ?_, listed⟩
      rw [get?_foldl_discard, if_neg, storedAbove]
      intro met
      -- What hangs below a node that goes has gone with it.
      refine outside (joined.mem_below.mpr ⟨⟨lowerNode, stored⟩, ?_⟩)
      refine .above ?_ (joined.mem_below.mp met).2
      rw [parent?, stored]
      exact linked
  · intro parent child above childNode stored pending listed storedChild
    rw [get?_foldl_discard] at stored storedChild
    split at stored
    · cases stored
    · split at storedChild
      · cases storedChild
      · exact joined.linked stored pending listed storedChild

theorem retirePending (joined : tree.Joined) : tree.retirePending.Joined := by
  refine ⟨joined.toIntact.retirePending, ?_, ?_⟩
  · intro id parent node stored pending
    rw [get?_retirePending] at stored
    rw [alive_of_live stored] at pending
    cases pending
  · intro parent child above node stored pending
    rw [get?_retirePending] at stored
    rw [alive_of_live stored] at pending
    cases pending

/-- A retirement shuts a live node down and then frees what is below it, as for a pending one. -/
theorem retire_eq (joined : tree.Joined) (stored : tree.get? id = some node) :
    ∃ suspended : Tree, suspended = (tree.beginShutdown id).state ∧ suspended.Joined ∧
      suspended.live id = none ∧
      tree.retire id = .done ((suspended.below id).foldl discard suspended) () := by
  rcases tree.retire_cases id with ⟨unknown, -⟩ | ⟨suspended, leaving, began, done⟩
  · cases unknown.symm.trans stored
  · have joinedAfter := joined.beginShutdown id
    have gone := joined.toSound.live_beginShutdown id
    rw [began] at joinedAfter gone ⊢
    exact ⟨suspended, rfl, joinedAfter, gone, done⟩

theorem retire (joined : tree.Joined) (id : NodeId) : (tree.retire id).state.Joined := by
  rcases tree.retire_cases id with ⟨-, failed⟩ | ⟨suspended, leaving, began, done⟩
  · rw [failed]
    exact joined
  · have joinedAfter := joined.beginShutdown id
    have gone := joined.toSound.live_beginShutdown id
    rw [began] at joinedAfter gone
    rw [done]
    replace joinedAfter : suspended.Joined := joinedAfter
    exact joinedAfter.discards gone

theorem call (joined : tree.Joined) {call : Call} (admissible : call.Admissible tree) :
    (call.run tree).1.Joined := by
  have intact := joined.toIntact.call admissible
  cases call with
  | createRoot content seed =>
    exact joined.keep intact (joined.toIntact.keepsPending_createRoot content seed)
  | create content parent index seed =>
    exact joined.keep intact (joined.toIntact.keepsPending_create content parent index seed)
  | beginShutdown id => exact joined.beginShutdown id
  | retire id => exact joined.retire id
  | retirePending => exact joined.retirePending
  | reparent child parent index =>
    exact joined.keep intact (joined.toIntact.keepsPending_reparent child parent index)
  | arrange parent order => exact joined.keep intact (keepsPending_arrange admissible)
  | sync id attributes scope => exact joined.keep intact (keepsPending_sync tree id attributes scope)

end Joined

theorem joined_empty : empty.Joined where
  toIntact := intact_empty
  listed := fun stored => by
    rw [get?, show empty.nodes.get? _ = none from Arena.get?_empty _] at stored
    cases stored
  linked := fun stored => by
    rw [get?, show empty.nodes.get? _ = none from Arena.get?_empty _] at stored
    cases stored

theorem Reachable.joined (reachable : tree.Reachable) : tree.Joined := by
  induction reachable with
  | empty => exact joined_empty
  | call _ _ admissible ih => exact ih.call admissible

end Tree

end Accessibility
