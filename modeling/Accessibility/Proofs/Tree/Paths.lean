import Accessibility.Proofs.Lists
import Accessibility.Proofs.Snapshot.Taking
import Accessibility.Proofs.Tree.Pending
import Mathlib.Order.Defs.Unbundled

/-!
Paths against preorder. Of two paths the first is the one that begins the other, or that takes the
earlier child where they part, and in this order the walk from the root meets the live nodes. So paths
tell which of two live nodes stands first, and the numbers in a snapshot tell the same.
-/

set_option autoImplicit false

namespace Accessibility.Tree

open Std

variable {tree : Tree}

/-! ### Comparing paths -/

theorem compare_append_left (front left right : List Nat) :
    compare (front ++ left) (front ++ right) = compare left right := by
  induction front with
  | nil => rfl
  | cons position rest ih =>
    rw [List.cons_append, List.cons_append, List.compare_cons_cons, ih, ReflOrd.compare_self]
    rfl

/-- A path comes before all that go on from it. -/
theorem compare_append_cons (path : List Nat) (position : Nat) (rest : List Nat) :
    compare path (path ++ position :: rest) = .lt := by
  have longer := compare_append_left path [] (position :: rest)
  rwa [List.append_nil, List.compare_nil_cons] at longer

/-- Where two paths part, the earlier child decides. -/
theorem compare_of_parting (path : List Nat) {earlier later : Nat} (less : earlier < later)
    (left right : List Nat) :
    compare (path ++ earlier :: left) (path ++ later :: right) = .lt := by
  rw [compare_append_left, List.compare_cons_cons, Nat.compare_eq_lt.mpr less]
  rfl

instance (tree : Tree) : TransCmp tree.order :=
  inferInstanceAs (TransCmp (compareOn tree.path))

/-! ### The walk from the root -/

namespace Sound

variable {id upper lower : NodeId} {node : AccessibleNode}

/-- The path to a node begins with the path to any node above it. -/
theorem path_of_leads (sound : tree.Sound) (leads : tree.live.Leads upper lower) :
    ∃ rest, tree.path lower = tree.path upper ++ rest := by
  refine leads.induction (motive := fun lower => ∃ rest, tree.path lower = tree.path upper ++ rest)
    ⟨[], (List.append_nil _).symm⟩ ?_
  rintro parent child above - ⟨rest, through⟩ aliveParent listed
  obtain ⟨childNode, aliveChild, linked⟩ := (sound.forest.listed aliveParent).mp listed
  refine ⟨rest ++ [above.children.idxOf child], ?_⟩
  rw [sound.path_of_parent aliveChild linked aliveParent, through, List.append_assoc]

/-- The path to what is at or below a child takes the position of the child. -/
theorem path_of_child (sound : tree.Sound) (alive : tree.live id = some node) {child : NodeId}
    (listed : child ∈ node.children) (leads : tree.live.Leads child lower) :
    ∃ rest, tree.path lower = tree.path id ++ node.children.idxOf child :: rest := by
  obtain ⟨childNode, aliveChild, linked⟩ := (sound.forest.listed alive).mp listed
  obtain ⟨rest, through⟩ := sound.path_of_leads leads
  refine ⟨rest, ?_⟩
  rw [through, sound.path_of_parent aliveChild linked alive, List.append_assoc,
    List.singleton_append]

theorem order_of_leads (sound : tree.Sound) (leads : tree.live.Leads upper lower)
    (apart : upper ≠ lower) : tree.order upper lower = .lt := by
  obtain ⟨steps, reached⟩ := leads
  cases reached with
  | here _ => exact absurd rfl apart
  | step known listed rest =>
    obtain ⟨node, alive, rfl⟩ := Live.live_of_childrenOf known
    obtain ⟨tail, through⟩ := sound.path_of_child alive listed ⟨_, rest⟩
    rw [order, through]
    exact compare_append_cons _ _ tail

/-- The walk down from a live node meets nodes with rising paths. -/
theorem pairwise_descend (sound : tree.Sound) {depth : Nat} (alive : tree.live id = some node) :
    (Walk.descend tree.live.childrenOf depth id).Pairwise fun left right =>
      tree.order left right = .lt := by
  induction depth generalizing id node with
  | zero => exact List.Pairwise.nil
  | succ depth ih =>
    have below {child lower : NodeId} (listed : child ∈ node.children)
        (met : lower ∈ Walk.descend tree.live.childrenOf depth child) :
        ∃ rest, tree.path lower = tree.path id ++ node.children.idxOf child :: rest := by
      obtain ⟨⟨steps, -, reached⟩, -⟩ := Walk.mem_descend.mp met
      exact sound.path_of_child alive listed ⟨steps, reached⟩
    rw [Walk.descend_succ_of_some (Live.childrenOf_of_live alive), List.pairwise_cons,
      List.pairwise_flatMap]
    refine ⟨?_, ?_, ?_⟩
    · intro lower met
      obtain ⟨child, listed, met⟩ := List.mem_flatMap.mp met
      obtain ⟨rest, through⟩ := below listed met
      rw [order, through]
      exact compare_append_cons _ _ rest
    · intro child listed
      obtain ⟨childNode, aliveChild, -⟩ := (sound.forest.listed alive).mp listed
      exact ih aliveChild
    · -- What is below an earlier child parts there from what is below a later one.
      refine (Lists.pairwise_idxOf (sound.forest.nodup alive)).imp_of_mem ?_
      intro earlier later listedEarlier listedLater less left metLeft right metRight
      obtain ⟨rest, throughLeft⟩ := below listedEarlier metLeft
      obtain ⟨rest', throughRight⟩ := below listedLater metRight
      rw [order, throughLeft, throughRight]
      exact compare_of_parting _ less rest rest'

theorem pairwise_below (sound : tree.Sound) (alive : tree.live id = some node) :
    (tree.below id).Pairwise fun left right => tree.order left right = .lt := by
  rw [sound.below_eq alive (Nat.le_refl _)]
  exact sound.pairwise_descend alive

theorem pairwise_preorder (sound : tree.Sound) :
    tree.preorder.Pairwise fun left right => tree.order left right = .lt := by
  unfold preorder
  cases atTop : tree.root with
  | none => exact List.Pairwise.nil
  | some top =>
    obtain ⟨topNode, aliveTop, -⟩ := sound.forest.root_live atTop
    exact sound.pairwise_below aliveTop

theorem order_eq_compare (sound : tree.Sound) {left right : NodeId}
    (alive : tree.isAlive left = true) (aliveRight : tree.isAlive right = true) :
    tree.order left right =
      compare (tree.preorder.idxOf left) (tree.preorder.idxOf right) := by
  rw [isAlive_iff_live, ← sound.mem_preorder] at alive aliveRight
  exact Lists.compare_idxOf sound.pairwise_preorder alive aliveRight

/-- Parent links lead up from a live node to nodes that lead down to it. -/
theorem leads_of_under (sound : tree.Sound) (under : tree.Under lower upper)
    (alive : tree.live lower = some node) : tree.live.Leads upper lower := by
  induction under generalizing node with
  | self id => exact .refl _ id
  | above linked _ ih =>
    rw [parent?_of_live alive] at linked
    obtain ⟨above, aliveParent, listed⟩ := sound.forest.parent_live alive linked
    exact (ih aliveParent).trans (.step aliveParent listed)

/-- Comparing paths is a linear order of the live nodes. -/
theorem order_isLinearOrder (sound : tree.Sound) :
    IsLinearOrder {id // tree.isAlive id = true} fun left right =>
      (tree.order left right).isLE = true where
  refl id := by
    rw [order, ReflOrd.compare_self]
    rfl
  trans _ _ _ := TransCmp.isLE_trans
  antisymm left right before after := by
    obtain ⟨node, alive⟩ := isAlive_iff_live.mp left.2
    obtain ⟨node', alive'⟩ := isAlive_iff_live.mp right.2
    exact Subtype.ext (sound.eq_of_isLE alive alive' before after)
  total left right := by
    rcases before : tree.order left right with _ | _ | _
    · exact .inl rfl
    · exact .inl rfl
    · exact .inr (Ordering.isLE_of_eq_lt (OrientedCmp.gt_iff_lt.mp before))

end Sound

/-! ### Trees that calls lead to -/

/-- Paths order the live nodes as the walk from the root meets them, and as a snapshot numbers and lists
them. -/
structure OrderedByPath (tree : Tree) : Prop where
  met : ∀ {id : NodeId}, id ∈ tree.preorder ↔ tree.isAlive id = true
  once : tree.preorder.Nodup
  position : ∀ {left right : NodeId}, tree.isAlive left = true → tree.isAlive right = true →
    tree.order left right = compare (tree.preorder.idxOf left) (tree.preorder.idxOf right)
  linear : IsLinearOrder {id // tree.isAlive id = true} fun left right =>
    (tree.order left right).isLE = true
  above : ∀ {upper lower : NodeId}, tree.isAlive lower = true → tree.Under lower upper →
    upper ≠ lower → tree.order upper lower = .lt
  numbered : ∀ (edges : Relation.Family Edges) {left right : NodeId}, tree.isAlive left = true →
    tree.isAlive right = true → ∃ info infoRight,
      (tree.snapshot edges).get? left = some info ∧
      (tree.snapshot edges).get? right = some infoRight ∧
      tree.order left right = compare info.order infoRight.order
  listed : ∀ edges : Relation.Family Edges, (tree.snapshot edges).treeOrder = tree.preorder ∧
    (tree.snapshot edges).treeOrder.Pairwise fun left right => tree.order left right = .lt

/-- In every tree that calls lead to, pending nodes in it or not, paths tell which of two live nodes
stands first in preorder. -/
theorem orderedByPath_of_reachable (reachable : tree.Reachable) : tree.OrderedByPath := by
  have sound := reachable.intact.toSound
  refine ⟨?_, sound.preorder_nodup, sound.order_eq_compare, sound.order_isLinearOrder, ?_, ?_, ?_⟩
  · intro id
    rw [sound.mem_preorder, isAlive_iff_live]
  · intro upper lower alive under apart
    obtain ⟨node, alive⟩ := isAlive_iff_live.mp alive
    exact sound.order_of_leads (sound.leads_of_under under alive) apart
  · intro edges left right alive aliveRight
    have same := sound.order_eq_compare alive aliveRight
    obtain ⟨node, alive⟩ := isAlive_iff_live.mp alive
    obtain ⟨nodeRight, aliveRight⟩ := isAlive_iff_live.mp aliveRight
    exact ⟨_, _, get?_snapshot_of_live sound alive, get?_snapshot_of_live sound aliveRight, same⟩
  · intro edges
    rw [treeOrder_snapshot sound]
    exact ⟨rfl, sound.pairwise_preorder⟩

/-- Two elements with a text in each, one of which moved there, a text that shuts down, and at last the
elements in the other order. -/
def swappedCalls : List Call :=
  let seed (kind : Kind) : Seed := ⟨kind, ∅, .document⟩
  [.createRoot ⟨0⟩ (seed .document), .create ⟨1⟩ ⟨1, 1⟩ 0 (seed (.element "div")),
    .create ⟨2⟩ ⟨1, 1⟩ 9 (seed (.element "div")), .create ⟨3⟩ ⟨2, 1⟩ 0 (seed .text),
    .create ⟨4⟩ ⟨2, 1⟩ 0 (seed .text), .create ⟨5⟩ ⟨1, 1⟩ 0 (seed .text), .beginShutdown ⟨6, 1⟩,
    .reparent ⟨4, 1⟩ ⟨3, 1⟩ 0, .arrange ⟨1, 1⟩ [⟨3, 1⟩, ⟨2, 1⟩]]

theorem orderedByPath_swappedCalls :
    ∃ tree : Tree, tree = swappedCalls.foldl (fun tree call => (call.run tree).1) empty ∧
      tree.Reachable ∧ tree.OrderedByPath ∧ tree.lifecycle ⟨6, 1⟩ = .pendingShutdown ∧
      tree.preorder = [⟨1, 1⟩, ⟨3, 1⟩, ⟨4, 1⟩, ⟨2, 1⟩, ⟨5, 1⟩] ∧
      tree.path ⟨4, 1⟩ = [0, 0] ∧ tree.path ⟨2, 1⟩ = [1] ∧
      tree.order ⟨4, 1⟩ ⟨2, 1⟩ = .lt := by
  let after (count : Nat) : Tree :=
    (swappedCalls.take count).foldl (fun tree call => (call.run tree).1) empty
  have reordered : ∀ node, (after 8).get? ⟨1, 1⟩ = some node →
      List.Perm [⟨3, 1⟩, ⟨2, 1⟩] node.children := by
    intro node stored
    have children : (after 8).children ⟨1, 1⟩ = [⟨2, 1⟩, ⟨3, 1⟩] := by decide +kernel
    rw [Tree.children, stored] at children
    rw [show node.children = [⟨2, 1⟩, ⟨3, 1⟩] from children]
    exact .swap _ _ []
  have reachable : (after 9).Reachable := by
    refine .call ?_ _ reordered
    iterate 8 refine .call ?_ _ trivial
    exact .empty
  exact ⟨after 9, rfl, reachable, orderedByPath_of_reachable reachable, by decide +kernel,
    by decide +kernel, by decide +kernel, by decide +kernel, by decide +kernel⟩

end Accessibility.Tree
