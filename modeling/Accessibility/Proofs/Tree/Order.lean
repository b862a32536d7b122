import Accessibility.Proofs.Tree.Sound
import Accessibility.Tree.Order
import Mathlib.Data.List.Basic

/-!
Walks in a sound tree: the bounds on their length never cut them short. What is below a node are the
nodes that child lists lead to, ancestors follow the parent links up to the root, and no two nodes
have the same path.
-/

set_option autoImplicit false

namespace Accessibility.Tree

open Std

/-- The child list of a node, pending or not. -/
def childrenOf? (tree : Tree) (id : NodeId) : Option (List NodeId) :=
  (tree.get? id).map AccessibleNode.children

theorem descend_eq_walk (tree : Tree) (depth : Nat) (id : NodeId) :
    tree.descend depth id = Walk.descend tree.childrenOf? depth id := by
  induction depth generalizing id with
  | zero => rfl
  | succ depth ih =>
    unfold descend
    cases stored : tree.get? id with
    | none =>
      have unknown : tree.childrenOf? id = none := by rw [childrenOf?, stored, Option.map_none]
      rw [Walk.descend_succ_of_none unknown]
    | some node =>
      have known : tree.childrenOf? id = some node.children := by
        rw [childrenOf?, stored, Option.map_some]
      rw [Walk.descend_succ_of_some known]
      exact congrArg (id :: ·) (List.flatMap_congr fun child _ => ih child)

theorem childrenOf?_of_live {tree : Tree} {id : NodeId} {node : AccessibleNode}
    (alive : tree.live id = some node) : tree.childrenOf? id = tree.live.childrenOf id := by
  rw [childrenOf?, get?_of_live alive, Live.childrenOf, alive]

namespace Sound

variable {tree : Tree} {id : NodeId} {node : AccessibleNode}

/-! ### Downwards -/

theorem steps_lt_size (sound : tree.Sound) {steps : Nat} {lower : NodeId}
    (alive : tree.live id = some node)
    (reached : Walk.Reaches tree.live.childrenOf steps id lower) : steps < tree.size := by
  obtain ⟨top, atTop, more, above⟩ := sound.forest.reached alive
  obtain ⟨topNode, aliveTop, -⟩ := sound.forest.root_live atTop
  have complete (steps' : Nat) (met : NodeId)
      (reached' : Walk.Reaches tree.live.childrenOf steps' top met) :
      met ∈ tree.nodes.entries.keys := by
    obtain ⟨metNode, aliveMet⟩ := sound.forest.leads_live ⟨steps', reached'⟩ aliveTop
    exact Arena.mem_keys.mpr ⟨metNode, get?_of_live aliveMet⟩
  have bound := (sound.forest.rooted atTop).steps_lt_length complete (above.trans reached)
  rw [← Arena.size_eq_length] at bound
  rw [size]
  omega

theorem below_eq (sound : tree.Sound) (alive : tree.live id = some node) {depth : Nat}
    (deep : tree.size ≤ depth) : tree.below id = Walk.descend tree.live.childrenOf depth id := by
  rw [below, descend_eq_walk, Walk.descend_eq_of_le deep fun _ _ reached =>
    sound.steps_lt_size alive reached]
  refine Walk.descend_congr ?_
  intro steps target reached
  obtain ⟨targetNode, aliveTarget⟩ := sound.forest.leads_live ⟨steps, reached⟩ alive
  exact childrenOf?_of_live aliveTarget

theorem mem_below (sound : tree.Sound) (alive : tree.live id = some node) {lower : NodeId} :
    lower ∈ tree.below id ↔ tree.live.Leads id lower := by
  rw [sound.below_eq alive (Nat.le_refl _), Walk.mem_descend]
  constructor
  · rintro ⟨⟨steps, -, reached⟩, -⟩
    exact ⟨steps, reached⟩
  · rintro ⟨steps, reached⟩
    refine ⟨⟨steps, sound.steps_lt_size alive reached, reached⟩, ?_⟩
    obtain ⟨lowerNode, aliveLower⟩ := sound.forest.leads_live ⟨steps, reached⟩ alive
    rw [Live.childrenOf_of_live aliveLower, Option.isSome_some]

/-- What is below a node is the node and what is below its children. -/
theorem below_cons (sound : tree.Sound) (alive : tree.live id = some node) :
    tree.below id = id :: node.children.flatMap tree.below := by
  rw [sound.below_eq alive (Nat.le_succ tree.size),
    Walk.descend_succ_of_some (Live.childrenOf_of_live alive)]
  refine congrArg (id :: ·) (List.flatMap_congr fun child listed => ?_)
  obtain ⟨childNode, aliveChild, -⟩ := (sound.forest.listed alive).mp listed
  exact (sound.below_eq aliveChild (Nat.le_refl _)).symm

theorem below_nodup (sound : tree.Sound) (alive : tree.live id = some node) :
    (tree.below id).Nodup := by
  obtain ⟨top, atTop, steps, reached⟩ := sound.forest.reached alive
  rw [sound.below_eq alive (Nat.le_refl _)]
  exact (sound.forest.rooted atTop).nodup_descend reached

/-- The walk from the root meets the live nodes. -/
theorem mem_preorder (sound : tree.Sound) :
    id ∈ tree.preorder ↔ ∃ node, tree.live id = some node := by
  unfold preorder
  cases atTop : tree.root with
  | none =>
    refine iff_of_false List.not_mem_nil ?_
    rintro ⟨node, alive⟩
    obtain ⟨top, atTop', -⟩ := sound.forest.reached alive
    rw [atTop] at atTop'
    cases atTop'
  | some top =>
    obtain ⟨topNode, aliveTop, -⟩ := sound.forest.root_live atTop
    rw [sound.mem_below aliveTop]
    constructor
    · exact fun leads => sound.forest.leads_live leads aliveTop
    · rintro ⟨node, alive⟩
      exact sound.forest.leads_of_top atTop alive

theorem preorder_nodup (sound : tree.Sound) : tree.preorder.Nodup := by
  unfold preorder
  cases atTop : tree.root with
  | none => exact List.nodup_nil
  | some top =>
    obtain ⟨topNode, aliveTop, -⟩ := sound.forest.root_live atTop
    exact sound.below_nodup aliveTop

/-! ### Upwards -/

/-- What holds without a parent, and passes from a parent to its children, holds of every live node. -/
theorem parent_induction (sound : tree.Sound) {motive : NodeId → Prop}
    (top : ∀ {id : NodeId} {node : AccessibleNode}, tree.live id = some node → node.parent = none →
      motive id)
    (pass : ∀ {parent child : NodeId} {above below : AccessibleNode},
      tree.live parent = some above → tree.live child = some below → below.parent = some parent →
      motive parent → motive child)
    (alive : tree.live id = some node) : motive id := by
  obtain ⟨root, atTop, leads⟩ := sound.forest.reached alive
  obtain ⟨rootNode, aliveRoot, parentless⟩ := sound.forest.root_live atTop
  refine leads.induction (top aliveRoot parentless) ?_
  intro parent child above _ soFar aliveParent listed
  obtain ⟨below, aliveChild, linked⟩ := (sound.forest.listed aliveParent).mp listed
  exact pass aliveParent aliveChild linked soFar

/-- A way down that has steps ends with one from the parent. -/
theorem last_step (sound : tree.Sound) {top : NodeId} {steps : Nat}
    (reached : Walk.Reaches tree.live.childrenOf (steps + 1) top id) :
    ∃ parent above node, Walk.Reaches tree.live.childrenOf steps top parent ∧
      tree.live parent = some above ∧ id ∈ above.children ∧ tree.live id = some node ∧
      node.parent = some parent := by
  obtain ⟨parent, children, upper, known, listed⟩ := reached.last
  obtain ⟨above, alive, rfl⟩ := Live.live_of_childrenOf known
  obtain ⟨node, aliveChild, linked⟩ := (sound.forest.listed alive).mp listed
  exact ⟨parent, above, node, upper, alive, listed, aliveChild, linked⟩

theorem ascend_eq (sound : tree.Sound) {top : NodeId} (atTop : tree.root = some top) {steps : Nat}
    (reached : Walk.Reaches tree.live.childrenOf steps top id) {height : Nat}
    (high : steps < height) :
    tree.ascend height (some id) = tree.ascend (steps + 1) (some id) := by
  induction steps generalizing id height with
  | zero =>
    obtain ⟨height, rfl⟩ : ∃ less, height = less + 1 := ⟨height - 1, by omega⟩
    obtain ⟨topNode, aliveTop, parentless⟩ := sound.forest.root_live atTop
    rw [← reached.eq_of_zero, ascend, ascend, parent?_of_live aliveTop, parentless]
    cases height <;> rfl
  | succ steps ih =>
    obtain ⟨height, rfl⟩ : ∃ less, height = less + 1 := ⟨height - 1, by omega⟩
    obtain ⟨parent, above, node, upper, -, -, alive, linked⟩ := sound.last_step reached
    rw [ascend, ascend, parent?_of_live alive, linked, ih upper (Nat.lt_of_succ_lt_succ high)]

theorem properAncestors_of_parent (sound : tree.Sound) (alive : tree.live id = some node)
    {parent : NodeId} (linked : node.parent = some parent) :
    tree.properAncestors id = parent :: tree.properAncestors parent := by
  obtain ⟨above, aliveParent, -⟩ := sound.forest.parent_live alive linked
  obtain ⟨top, atTop, steps, reached⟩ := sound.forest.reached aliveParent
  obtain ⟨topNode, aliveTop, parentless⟩ := sound.forest.root_live atTop
  have bound := sound.steps_lt_size aliveTop reached
  rw [properAncestors, properAncestors, parent?_of_live alive, linked, ascend]
  refine congrArg (parent :: ·) ?_
  cases steps with
  | zero =>
    rw [← reached.eq_of_zero, parent?_of_live aliveTop, parentless]
    cases tree.size <;> rfl
  | succ steps =>
    obtain ⟨upper, -, parentNode, reachedUpper, -, -, aliveParent', linkedUp⟩ :=
      sound.last_step reached
    rw [parent?_of_live aliveParent', linkedUp]
    exact (sound.ascend_eq atTop reachedUpper (by omega)).trans
      (sound.ascend_eq atTop reachedUpper (by omega)).symm

theorem properAncestors_of_parentless (alive : tree.live id = some node)
    (parentless : node.parent = none) : tree.properAncestors id = [] := by
  rw [properAncestors, parent?_of_live alive, parentless]
  rfl

/-- A way up from a live node meets only nodes that lead down to it. -/
theorem leads_of_mem_ascend (sound : tree.Sound) {height : Nat} {start : NodeId}
    (alive : tree.live start = some node) (met : id ∈ tree.ascend height (some start)) :
    tree.live.Leads id start := by
  induction height generalizing start node with
  | zero => cases met
  | succ height ih =>
    rw [ascend, parent?_of_live alive, List.mem_cons] at met
    rcases met with rfl | met
    · exact .refl _ id
    · cases linked : node.parent with
      | none =>
        rw [linked] at met
        cases height <;> cases met
      | some parent =>
        rw [linked] at met
        obtain ⟨above, aliveParent, listed⟩ := sound.forest.parent_live alive linked
        exact (ih aliveParent met).trans (.step aliveParent listed)

/-- A way up that is long enough meets all nodes that lead down to where it begins. -/
theorem mem_ascend_of_reaches (sound : tree.Sound) {steps height : Nat} {lower : NodeId}
    (reached : Walk.Reaches tree.live.childrenOf steps id lower) (high : steps < height) :
    id ∈ tree.ascend height (some lower) := by
  induction steps generalizing lower height with
  | zero =>
    obtain ⟨height, rfl⟩ : ∃ less, height = less + 1 := ⟨height - 1, by omega⟩
    rw [reached.eq_of_zero]
    exact List.mem_cons_self
  | succ steps ih =>
    obtain ⟨height, rfl⟩ : ∃ less, height = less + 1 := ⟨height - 1, by omega⟩
    obtain ⟨parent, -, lowerNode, upper, -, -, alive, linked⟩ := sound.last_step reached
    rw [ascend, parent?_of_live alive, linked]
    exact List.mem_cons_of_mem lower (ih upper (Nat.lt_of_succ_lt_succ high))

/-- The walk up by parent links tells whether child lists lead down. -/
theorem isAncestorOf_iff (sound : tree.Sound) {lower : NodeId} (alive : tree.live lower = some node) :
    tree.isAncestorOf id lower = true ↔ tree.live.Leads id lower := by
  rw [isAncestorOf, lineage, List.contains_iff_mem]
  constructor
  · exact fun met => sound.leads_of_mem_ascend alive met
  · intro leads
    obtain ⟨upper, aliveUpper⟩ := leads.live_upper alive
    obtain ⟨steps, reached⟩ := leads
    have bound := sound.steps_lt_size aliveUpper reached
    exact sound.mem_ascend_of_reaches reached (by omega)

/-- Ancestors of live nodes are live. -/
theorem live_of_mem_properAncestors (sound : tree.Sound) (alive : tree.live id = some node)
    {upper : NodeId} (above : upper ∈ tree.properAncestors id) :
    ∃ node, tree.live upper = some node := by
  rw [properAncestors, parent?_of_live alive] at above
  cases linked : node.parent with
  | none =>
    rw [linked] at above
    cases above
  | some parent =>
    rw [linked] at above
    obtain ⟨parentNode, aliveParent, -⟩ := sound.forest.parent_live alive linked
    exact (sound.leads_of_mem_ascend aliveParent above).live_upper aliveParent

theorem live_of_nextSibling? (sound : tree.Sound) (alive : tree.live id = some node)
    {sibling : NodeId} (next : tree.nextSibling? id = some sibling) :
    ∃ node, tree.live sibling = some node := by
  rw [nextSibling?, parent?_of_live alive] at next
  cases linked : node.parent with
  | none =>
    rw [linked] at next
    cases next
  | some parent =>
    obtain ⟨above, aliveParent, -⟩ := sound.forest.parent_live alive linked
    rw [linked] at next
    dsimp only at next
    rw [children_of_live aliveParent] at next
    obtain ⟨child, aliveChild, -⟩ :=
      (sound.forest.listed aliveParent).mp (List.mem_of_getElem? next)
    exact ⟨child, aliveChild⟩

theorem climb_eq (sound : tree.Sound) {top : NodeId} (atTop : tree.root = some top) {steps : Nat}
    (reached : Walk.Reaches tree.live.childrenOf steps top id) {height : Nat}
    (high : steps < height) : tree.climb height id = tree.climb (steps + 1) id := by
  induction steps generalizing id height with
  | zero =>
    obtain ⟨height, rfl⟩ : ∃ less, height = less + 1 := ⟨height - 1, by omega⟩
    obtain ⟨topNode, aliveTop, parentless⟩ := sound.forest.root_live atTop
    rw [← reached.eq_of_zero]
    simp only [climb, parent?_of_live aliveTop, parentless]
  | succ steps ih =>
    obtain ⟨height, rfl⟩ : ∃ less, height = less + 1 := ⟨height - 1, by omega⟩
    obtain ⟨parent, above, node, upper, -, -, alive, linked⟩ := sound.last_step reached
    rw [climb, climb]
    simp only [parent?_of_live alive, linked]
    rw [ih upper (Nat.lt_of_succ_lt_succ high)]

theorem path_of_parentless (alive : tree.live id = some node) (parentless : node.parent = none) :
    tree.path id = [] := by
  simp only [path, climb, parent?_of_live alive, parentless]

theorem path_of_parent (sound : tree.Sound) (alive : tree.live id = some node)
    {parent : NodeId} {above : AccessibleNode} (linked : node.parent = some parent)
    (aliveParent : tree.live parent = some above) :
    tree.path id = tree.path parent ++ [above.children.idxOf id] := by
  obtain ⟨top, atTop, steps, reached⟩ := sound.forest.reached aliveParent
  obtain ⟨topNode, aliveTop, -⟩ := sound.forest.root_live atTop
  have bound := sound.steps_lt_size aliveTop reached
  rw [path, path, climb]
  simp only [parent?_of_live alive, linked, children_of_live aliveParent]
  exact congrArg (· ++ [above.children.idxOf id]) ((sound.climb_eq atTop reached bound).trans
    (sound.climb_eq atTop reached (by omega)).symm)

theorem path_injective (sound : tree.Sound) {other : NodeId} {node' : AccessibleNode}
    (alive : tree.live id = some node) (alive' : tree.live other = some node')
    (same : tree.path id = tree.path other) : id = other := by
  obtain ⟨top, atTop, leads⟩ := sound.forest.reached alive
  obtain ⟨topNode, aliveTop, parentless⟩ := sound.forest.root_live atTop
  have pathTop := path_of_parentless aliveTop parentless
  refine leads.induction (motive := fun id => ∀ other node', tree.live other = some node' →
    tree.path id = tree.path other → id = other) ?_ ?_ other node' alive' same
  · intro other node' alive' same
    cases linked : node'.parent with
    | none =>
      have atTop' := sound.forest.root_of_parentless alive' linked
      rw [atTop] at atTop'
      exact Option.some.inj atTop'
    | some parent =>
      obtain ⟨above, aliveParent, -⟩ := sound.forest.parent_live alive' linked
      rw [pathTop, sound.path_of_parent alive' linked aliveParent] at same
      exact absurd same.symm (List.append_ne_nil_of_right_ne_nil _ (List.cons_ne_nil _ _))
  · intro parent child above _ ih aliveParent listed other node' alive' same
    obtain ⟨childNode, aliveChild, linked⟩ := (sound.forest.listed aliveParent).mp listed
    rw [sound.path_of_parent aliveChild linked aliveParent] at same
    cases linked' : node'.parent with
    | none =>
      rw [path_of_parentless alive' linked'] at same
      exact absurd same (List.append_ne_nil_of_right_ne_nil _ (List.cons_ne_nil _ _))
    | some parent' =>
      obtain ⟨above', aliveParent', listed'⟩ := sound.forest.parent_live alive' linked'
      rw [sound.path_of_parent alive' linked' aliveParent'] at same
      obtain ⟨samePath, sameIndex⟩ := List.append_inj' same rfl
      obtain rfl := ih parent' above' aliveParent' samePath
      rw [aliveParent] at aliveParent'
      cases aliveParent'
      exact (List.idxOf_inj listed).mp (List.cons.inj sameIndex).1

/-- Of two live nodes, only one comes first. -/
theorem eq_of_isLE (sound : tree.Sound) {other : NodeId} {node' : AccessibleNode}
    (alive : tree.live id = some node) (alive' : tree.live other = some node')
    (before : (tree.order id other).isLE = true) (after : (tree.order other id).isLE = true) :
    id = other := by
  have same : compare (tree.path id) (tree.path other) = .eq := OrientedCmp.isLE_antisymm before after
  exact sound.path_injective alive alive' (LawfulEqCmp.eq_of_compare same)

end Sound

/-! ### The first of some nodes -/

theorem first?_eq_none {tree : Tree} : {ids : List NodeId} → tree.first? ids = none → ids = []
  | [], _ => rfl
  | id :: rest, missing => by
    rw [first?] at missing
    split at missing
    · cases missing
    · split at missing <;> cases missing

/-- The first node is one of them, and none stands before it. -/
theorem first?_spec {tree : Tree} {ids : List NodeId} {id : NodeId}
    (first : tree.first? ids = some id) :
    id ∈ ids ∧ ∀ other ∈ ids, (tree.order id other).isLE = true := by
  induction ids generalizing id with
  | nil => cases first
  | cons head rest ih =>
    rw [first?] at first
    have self : (tree.order head head).isLE = true := by
      rw [order, ReflOrd.compare_self]
      rfl
    split at first
    · rename_i none
      cases first
      cases first?_eq_none none
      refine ⟨List.mem_cons_self, ?_⟩
      intro other listed
      rw [List.mem_singleton.mp listed]
      exact self
    · rename_i least leastOfRest
      obtain ⟨listed, before⟩ := ih leastOfRest
      split at first
      · rename_i earlier
        cases first
        refine ⟨List.mem_cons_of_mem _ listed, ?_⟩
        intro other listedOther
        rcases List.mem_cons.mp listedOther with rfl | later
        · rw [earlier]
          rfl
        · exact before other later
      · rename_i notEarlier
        cases first
        refine ⟨List.mem_cons_self, ?_⟩
        intro other listedOther
        rcases List.mem_cons.mp listedOther with rfl | later
        · exact self
        · rw [order, ← OrientedCmp.gt_iff_lt] at notEarlier
          have le : (compare (tree.path head) (tree.path least)).isLE = true :=
            Ordering.isLE_iff_ne_gt.mpr notEarlier
          have further : (compare (tree.path least) (tree.path other)).isLE = true :=
            before other later
          show (compare (tree.path head) (tree.path other)).isLE = true
          exact TransCmp.isLE_trans le further

/-- A node that a DOM id leads to is live and carries it. -/
theorem Sound.carries_of_lookup? {tree : Tree} (sound : tree.Sound) {domId : String} {scope : Scope}
    {id : NodeId} (found : tree.lookup? domId scope = some id) :
    ∃ node, tree.live id = some node ∧ Carries ⟨scope, domId⟩ node := by
  rw [lookup?] at found
  split at found
  · cases found
  · exact sound.named_alive_iff.mp (List.mem_filter.mp (first?_spec found).1)

/-- Which node is first depends only on which nodes there are. -/
theorem Sound.first?_congr {tree : Tree} (sound : tree.Sound) {left right : List NodeId}
    (same : ∀ id, id ∈ left ↔ id ∈ right)
    (alive : ∀ id ∈ left, ∃ node, tree.live id = some node) :
    tree.first? left = tree.first? right := by
  cases firstLeft : tree.first? left with
  | none =>
    cases first?_eq_none firstLeft
    cases right with
    | nil => rfl
    | cons id rest => exact absurd ((same id).mpr List.mem_cons_self) List.not_mem_nil
  | some id =>
    obtain ⟨listed, before⟩ := first?_spec firstLeft
    cases firstRight : tree.first? right with
    | none =>
      cases first?_eq_none firstRight
      exact absurd ((same id).mp listed) List.not_mem_nil
    | some other =>
      obtain ⟨listed', before'⟩ := first?_spec firstRight
      obtain ⟨node, aliveId⟩ := alive id listed
      obtain ⟨node', aliveOther⟩ := alive other ((same other).mpr listed')
      rw [sound.eq_of_isLE aliveId aliveOther (before other ((same other).mpr listed'))
        (before' id ((same id).mp listed))]

end Accessibility.Tree
