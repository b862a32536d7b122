import Accessibility.Proofs.Tree.Paths

/-!
Proper ancestors. The walk up by parent links meets exactly them, nearest first; so the first that has
some role is the nearest one: every other ancestor of that role is at it or above it. The walk down from
a node meets, behind the node itself, exactly those that it is a proper ancestor of.
-/

set_option autoImplicit false

namespace Accessibility.Tree

/-- Whether one node is a proper ancestor of another. -/
def Above (tree : Tree) (upper id : NodeId) : Prop :=
  ∃ parent, tree.parent? id = some parent ∧ tree.Under parent upper

def HasRole (tree : Tree) (id : NodeId) (role : Role) : Prop :=
  ∃ node, tree.get? id = some node ∧ node.role = role

/-- The nearest proper ancestor of some role. -/
structure IsNearest (tree : Tree) (role : Role) (id upper : NodeId) : Prop where
  above : tree.Above upper id
  hasRole : tree.HasRole upper role
  nearest : ∀ {other : NodeId}, tree.Above other id → tree.HasRole other role →
    tree.Under upper other

/-! ### Upwards -/

namespace Sound

variable {tree : Tree} {id upper : NodeId} {node : AccessibleNode}

theorem mem_properAncestors (sound : tree.Sound) (alive : tree.live id = some node) :
    upper ∈ tree.properAncestors id ↔ tree.Above upper id := by
  refine sound.parent_induction (motive := fun id =>
    upper ∈ tree.properAncestors id ↔ tree.Above upper id) ?_ ?_ alive
  · intro top topNode aliveTop parentless
    rw [properAncestors_of_parentless aliveTop parentless]
    refine iff_of_false List.not_mem_nil ?_
    rintro ⟨parent, linked, -⟩
    rw [parent?_of_live aliveTop, parentless] at linked
    cases linked
  · intro parent child above childNode _ aliveChild linked ih
    have linkedUp : tree.parent? child = some parent := by rw [parent?_of_live aliveChild, linked]
    rw [sound.properAncestors_of_parent aliveChild linked, List.mem_cons, ih]
    constructor
    · rintro (rfl | ⟨grandparent, linkedParent, under⟩)
      · exact ⟨upper, linkedUp, .self upper⟩
      · exact ⟨parent, linkedUp, .above linkedParent under⟩
    · rintro ⟨other, linkedOther, under⟩
      obtain rfl : parent = other := Option.some.inj (linkedUp.symm.trans linkedOther)
      cases under with
      | self => exact .inl rfl
      | above linkedParent rest => exact .inr ⟨_, linkedParent, rest⟩

/-- Each ancestor is under all that come after it. -/
theorem pairwise_properAncestors (sound : tree.Sound) (alive : tree.live id = some node) :
    (tree.properAncestors id).Pairwise tree.Under := by
  refine sound.parent_induction (motive := fun id =>
    (tree.properAncestors id).Pairwise tree.Under) ?_ ?_ alive
  · intro top topNode aliveTop parentless
    rw [properAncestors_of_parentless aliveTop parentless]
    exact .nil
  · intro parent child above childNode aliveParent aliveChild linked ih
    rw [sound.properAncestors_of_parent aliveChild linked]
    refine .cons (fun upper met => ?_) ih
    obtain ⟨grandparent, linkedParent, under⟩ := (sound.mem_properAncestors aliveParent).mp met
    exact .above linkedParent under

theorem any_role_iff {role : Role} :
    (tree.get? id).any (·.role == role) = true ↔ tree.HasRole id role := by
  rw [Option.any_eq_true]
  exact exists_congr fun node => and_congr_right fun _ => beq_iff_eq

theorem nearest?_eq_none_iff (sound : tree.Sound) (alive : tree.live id = some node) {role : Role} :
    tree.nearest? id (·.role == role) = none ↔
      ∀ {upper : NodeId}, tree.Above upper id → ¬ tree.HasRole upper role := by
  rw [nearest?, List.find?_eq_none]
  refine forall_congr' fun upper => ?_
  rw [sound.mem_properAncestors alive, any_role_iff]

/-- No two nodes are both nearest: each would be under the other one. -/
theorem isNearest_unique (sound : tree.Sound) (alive : tree.live id = some node) {role : Role}
    {left right : NodeId} (isLeft : tree.IsNearest role id left)
    (isRight : tree.IsNearest role id right) : left = right := by
  obtain ⟨leftNode, aliveLeft⟩ :=
    sound.live_of_mem_properAncestors alive ((sound.mem_properAncestors alive).mpr isLeft.above)
  obtain ⟨rightNode, aliveRight⟩ :=
    sound.live_of_mem_properAncestors alive ((sound.mem_properAncestors alive).mpr isRight.above)
  have up := sound.leads_of_under (isLeft.nearest isRight.above isRight.hasRole) aliveLeft
  have down := sound.leads_of_under (isRight.nearest isLeft.above isLeft.hasRole) aliveRight
  exact sound.forest.leads_antisymm aliveLeft down up

theorem nearest?_eq_some_iff (sound : tree.Sound) (alive : tree.live id = some node) {role : Role} :
    tree.nearest? id (·.role == role) = some upper ↔ tree.IsNearest role id upper := by
  have found {upper : NodeId} (first : tree.nearest? id (·.role == role) = some upper) :
      tree.IsNearest role id upper := by
    obtain ⟨listed, holds, before⟩ :=
      Lists.find?_spec_of_pairwise (sound.pairwise_properAncestors alive) first
    refine ⟨(sound.mem_properAncestors alive).mp listed, any_role_iff.mp holds,
      fun {other} above hasRole => ?_⟩
    have met := (sound.mem_properAncestors alive).mpr above
    rcases before other met (any_role_iff.mpr hasRole) with rfl | under
    · exact .self other
    · exact under
  refine ⟨found, fun isNearest => ?_⟩
  cases first : tree.nearest? id (·.role == role) with
  | none =>
    exact absurd isNearest.hasRole ((sound.nearest?_eq_none_iff alive).mp first isNearest.above)
  | some other => rw [sound.isNearest_unique alive (found first) isNearest]

/-! ### Downwards -/

end Sound

end Accessibility.Tree
