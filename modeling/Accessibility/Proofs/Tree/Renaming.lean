import Accessibility.Proofs.Tree.Lookup
import Mathlib.Data.List.Find

/-!
Trees that are the same but for the keys of their nodes. Walks, ancestors, siblings and lookups of one
are those of the other under the new keys.
-/

set_option autoImplicit false

namespace Accessibility

/-- Nodes that stand for the same content at the same place, under new keys. -/
structure AccessibleNode.Renamed (name : NodeId → NodeId) (left right : AccessibleNode) : Prop where
  content : right.content = left.content
  kind : right.kind = left.kind
  scope : right.scope = left.scope
  parent : right.parent = left.parent.map name
  children : right.children = left.children.map name

namespace Tree

/-- The live nodes of one tree are those of another under new keys, and agree in what is asked of
them. -/
structure Renamed (name : NodeId → NodeId) (agree : AccessibleNode → AccessibleNode → Prop)
    (left right : Tree) : Prop where
  soundLeft : left.Sound
  soundRight : right.Sound
  root : right.root = left.root.map name
  alive : ∀ {id : NodeId} {node : AccessibleNode}, left.live id = some node →
    ∃ node', right.live (name id) = some node' ∧ node.Renamed name node' ∧ agree node node'
  onto : ∀ {id' : NodeId} {node' : AccessibleNode}, right.live id' = some node' →
    ∃ id node, left.live id = some node ∧ name id = id'

namespace Renamed

variable {name : NodeId → NodeId} {agree : AccessibleNode → AccessibleNode → Prop}
  {left right : Tree} {id other : NodeId} {node : AccessibleNode}

theorem injective (renamed : Renamed name agree left right) {node' : AccessibleNode}
    (alive : left.live id = some node) (alive' : left.live other = some node')
    (same : name id = name other) : id = other := by
  obtain ⟨after, aliveAfter, self, -⟩ := renamed.alive alive
  obtain ⟨after', aliveAfter', self', -⟩ := renamed.alive alive'
  rw [same, aliveAfter'] at aliveAfter
  cases aliveAfter
  exact renamed.soundLeft.content_injective alive alive' (self.content.symm.trans self'.content)

theorem imp {coarser : AccessibleNode → AccessibleNode → Prop}
    (renamed : Renamed name agree left right)
    (coarse : ∀ {node node' : AccessibleNode}, node.Renamed name node' → agree node node' →
      coarser node node') : Renamed name coarser left right := by
  refine ⟨renamed.soundLeft, renamed.soundRight, renamed.root, fun alive => ?_, renamed.onto⟩
  obtain ⟨node', alive', self, agrees⟩ := renamed.alive alive
  exact ⟨node', alive', self, coarse self agrees⟩

/-! ### Walks -/

theorem below (renamed : Renamed name agree left right) (alive : left.live id = some node) :
    right.below (name id) = (left.below id).map name := by
  obtain ⟨node', aliveRight, -⟩ := renamed.alive alive
  rw [renamed.soundLeft.below_eq alive (Nat.le_max_left left.size right.size),
    renamed.soundRight.below_eq aliveRight (Nat.le_max_right left.size right.size)]
  refine Walk.descend_map fun steps target reached => ?_
  obtain ⟨targetNode, aliveTarget⟩ := renamed.soundLeft.forest.leads_live ⟨steps, reached⟩ alive
  obtain ⟨targetNode', aliveTarget', self, -⟩ := renamed.alive aliveTarget
  rw [Live.childrenOf_of_live aliveTarget, Live.childrenOf_of_live aliveTarget', self.children,
    Option.map_some]

theorem preorder (renamed : Renamed name agree left right) :
    right.preorder = left.preorder.map name := by
  unfold Tree.preorder
  rw [renamed.root]
  cases atTop : left.root with
  | none => rfl
  | some top =>
    obtain ⟨topNode, aliveTop, -⟩ := renamed.soundLeft.forest.root_live atTop
    exact renamed.below aliveTop

theorem properAncestors (renamed : Renamed name agree left right)
    (alive : left.live id = some node) :
    right.properAncestors (name id) = (left.properAncestors id).map name := by
  refine renamed.soundLeft.parent_induction (motive := fun id =>
    right.properAncestors (name id) = (left.properAncestors id).map name) ?_ ?_ alive
  · intro top topNode aliveTop parentless
    obtain ⟨topNode', aliveTop', self, -⟩ := renamed.alive aliveTop
    have parentless' : topNode'.parent = none := by rw [self.parent, parentless, Option.map_none]
    rw [Sound.properAncestors_of_parentless aliveTop parentless,
      Sound.properAncestors_of_parentless aliveTop' parentless', List.map_nil]
  · intro parent child above childNode _ aliveChild linked ih
    obtain ⟨childNode', aliveChild', self, -⟩ := renamed.alive aliveChild
    have linked' : childNode'.parent = some (name parent) := by
      rw [self.parent, linked, Option.map_some]
    rw [renamed.soundLeft.properAncestors_of_parent aliveChild linked,
      renamed.soundRight.properAncestors_of_parent aliveChild' linked', ih, List.map_cons]

theorem nearest? (renamed : Renamed name agree left right) (alive : left.live id = some node)
    {holds : AccessibleNode → Bool}
    (same : ∀ node node' : AccessibleNode, node.Renamed name node' → agree node node' →
      holds node' = holds node) :
    right.nearest? (name id) holds = (left.nearest? id holds).map name := by
  rw [Tree.nearest?, Tree.nearest?, renamed.properAncestors alive, List.find?_map]
  refine congrArg (Option.map name) (List.find?_congr fun upper above => ?_)
  obtain ⟨upperNode, aliveUpper⟩ := renamed.soundLeft.live_of_mem_properAncestors alive above
  obtain ⟨upperNode', aliveUpper', self, agrees⟩ := renamed.alive aliveUpper
  rw [Function.comp_apply, get?_of_live aliveUpper', get?_of_live aliveUpper, Option.any_some,
    Option.any_some, same upperNode upperNode' self agrees]

theorem beq_some (renamed : Renamed name agree left right) {found : Option NodeId}
    (live : ∀ other, found = some other → ∃ node, left.live other = some node)
    (alive : left.live id = some node) :
    (found.map name == some (name id)) = (found == some id) := by
  cases found with
  | none => rfl
  | some other =>
    obtain ⟨node', alive'⟩ := live other rfl
    rw [Option.map_some, Bool.eq_iff_iff, beq_iff_eq, beq_iff_eq, Option.some.injEq,
      Option.some.injEq]
    exact ⟨renamed.injective alive' alive, congrArg name⟩

theorem mem_map (renamed : Renamed name agree left right) {ids : List NodeId}
    (live : ∀ other ∈ ids, ∃ node, left.live other = some node) (alive : left.live id = some node) :
    name id ∈ ids.map name ↔ id ∈ ids := by
  refine ⟨fun listed => ?_, List.mem_map_of_mem⟩
  obtain ⟨other, inside, same⟩ := List.mem_map.mp listed
  obtain ⟨node', alive'⟩ := live other inside
  rwa [← renamed.injective alive' alive same]

theorem idxOf_map (renamed : Renamed name agree left right) {ids : List NodeId}
    (live : ∀ id ∈ ids, ∃ node, left.live id = some node) (alive : left.live id = some node) :
    (ids.map name).idxOf (name id) = ids.idxOf id := by
  induction ids with
  | nil => rfl
  | cons head rest ih =>
    obtain ⟨headNode, aliveHead⟩ := live head List.mem_cons_self
    rw [List.map_cons, List.idxOf_cons, List.idxOf_cons,
      ih fun other listed => live other (List.mem_cons_of_mem _ listed)]
    by_cases same : head = id
    · subst same
      rw [beq_self_eq_true, beq_self_eq_true]
    · have apart : name head ≠ name id := fun equal => same (renamed.injective aliveHead alive equal)
      rw [beq_false_of_ne same, beq_false_of_ne apart]

theorem nextSibling? (renamed : Renamed name agree left right) (alive : left.live id = some node) :
    right.nextSibling? (name id) = (left.nextSibling? id).map name := by
  obtain ⟨node', aliveRight, self, -⟩ := renamed.alive alive
  rw [Tree.nextSibling?, Tree.nextSibling?, parent?_of_live alive, parent?_of_live aliveRight,
    self.parent]
  cases linked : node.parent with
  | none => rfl
  | some parent =>
    obtain ⟨above, aliveParent, listed⟩ := renamed.soundLeft.forest.parent_live alive linked
    obtain ⟨above', aliveParent', selfParent, -⟩ := renamed.alive aliveParent
    rw [Option.map_some]
    dsimp only
    rw [children_of_live aliveParent, children_of_live aliveParent', selfParent.children,
      renamed.idxOf_map (fun child listedChild => ?_) alive, List.getElem?_map]
    obtain ⟨childNode, aliveChild, -⟩ :=
      (renamed.soundLeft.forest.listed aliveParent).mp listedChild
    exact ⟨childNode, aliveChild⟩

/-! ### Lookups -/

theorem nodeFor? (renamed : Renamed name agree left right) (content : Handle) :
    right.nodeFor? content = (left.nodeFor? content).map name := by
  ext id'
  rw [renamed.soundRight.content, Option.map_eq_some_iff]
  constructor
  · rintro ⟨node', aliveRight, rfl⟩
    obtain ⟨id, node, alive, rfl⟩ := renamed.onto aliveRight
    obtain ⟨node'', aliveRight', self, -⟩ := renamed.alive alive
    rw [aliveRight] at aliveRight'
    cases aliveRight'
    rw [self.content]
    exact ⟨id, renamed.soundLeft.nodeFor?_of_live alive, rfl⟩
  · rintro ⟨id, known, rfl⟩
    obtain ⟨node, alive, rfl⟩ := renamed.soundLeft.live_of_nodeFor? known
    obtain ⟨node', aliveRight, self, -⟩ := renamed.alive alive
    exact ⟨node', aliveRight, self.content⟩

/-- A DOM id leads to the same node, if corresponding nodes have the same DOM ids. -/
theorem lookup? (renamed : Renamed name agree left right)
    (same : ∀ node node' : AccessibleNode, node.Renamed name node' → agree node node' →
      node'.domId? = node.domId?) (domId : String) (scope : Scope) :
    right.lookup? domId scope = (left.lookup? domId scope).map name := by
  rw [renamed.soundRight.lookup?_eq_find?, renamed.soundLeft.lookup?_eq_find?, renamed.preorder,
    List.find?_map]
  refine congrArg (Option.map name) (List.find?_congr fun id listed => ?_)
  obtain ⟨node, alive⟩ := renamed.soundLeft.mem_preorder.mp listed
  obtain ⟨node', aliveRight, self, agrees⟩ := renamed.alive alive
  rw [Function.comp_apply, Bool.eq_iff_iff, answersTo_of_live aliveRight, answersTo_of_live alive,
    Carries, Carries, same node node' self agrees, self.scope]

end Renamed

end Tree

end Accessibility
