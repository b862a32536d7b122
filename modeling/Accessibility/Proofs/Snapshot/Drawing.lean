import Accessibility.Proofs.Snapshot.Taking
import Accessibility.Snapshot.Outline

/-!
The outline of a snapshot. It is drawn by a recursion over child lists, which ends where all nodes hang
below the root; and then the blocks of the nodes that are shown stand one after the other in tree
order.
-/

set_option autoImplicit false

namespace Accessibility

open Outline Walk

/-- The lines of one node. Nothing else of the snapshot matters to them. -/
def Outline.Options.block (options : Options) (depth : Nat) (isLast : Bool) (id : NodeId)
    (info : NodeInfo) (targets : Relation → List NodeId) : String :=
  options.line depth isLast id info
    ++ if options.relations then
      String.join <| Relation.all.map fun relation =>
        match targets relation with
        | [] => ""
        | targets => options.relationLine depth relation targets
    else ""

namespace Snapshot

/-! ### Places -/

def childrenOf (snapshot : Snapshot) (id : NodeId) : Option (List NodeId) :=
  (snapshot.get? id).map NodeInfo.children

def parent? (snapshot : Snapshot) (id : NodeId) : Option NodeId :=
  (snapshot.get? id).bind NodeInfo.parent

def ascend (snapshot : Snapshot) : (height : Nat) → NodeId → List NodeId
  | 0, _ => []
  | height + 1, id =>
    match snapshot.parent? id with
    | none => []
    | some parent => parent :: snapshot.ascend height parent

/-- The proper ancestors of a node, nearest first. -/
def ancestors (snapshot : Snapshot) (id : NodeId) : List NodeId :=
  snapshot.ascend snapshot.size id

def depth (snapshot : Snapshot) (id : NodeId) : Nat :=
  (snapshot.ancestors id).length

/-- Whether a node is the last child of its parent, as a root is taken to be. -/
def isLast (snapshot : Snapshot) (id : NodeId) : Bool :=
  match snapshot.parent? id with
  | none => true
  | some parent => (snapshot.childrenOf parent).any (·.getLast? == some id)

/-! ### Drawing -/

/-- Those of some nodes that are within the limit. -/
def within (snapshot : Snapshot) (options : Options) (ids : List NodeId) : List NodeId :=
  ids.filter fun id => options.shows (snapshot.depth id)

/-- The first line of an outline. -/
def heading (snapshot : Snapshot) : String :=
  "Accessible Tree " ++ snapshot.version.text ++ " (" ++ toString snapshot.size ++ " nodes):\n"

variable {snapshot : Snapshot} {options : Options} {id : NodeId} {info : NodeInfo}

/-- All nodes of a snapshot are met once on the way down from the root, in tree order. -/
structure Hangs (snapshot : Snapshot) (root : NodeId) : Prop where
  atTop : snapshot.root = some root
  rooted : Rooted snapshot.childrenOf snapshot.parent? root
  reached : ∀ {id : NodeId}, snapshot.contains id = true ↔
    ∃ steps, Reaches snapshot.childrenOf steps root id
  order : ∃ levels, snapshot.treeOrder = descend snapshot.childrenOf levels root ∧
    ∀ steps target, Reaches snapshot.childrenOf steps root target → steps < levels

namespace Hangs

variable {root : NodeId} {steps : Nat}

theorem versioned (hangs : snapshot.Hangs root) (version : Version) :
    ({ snapshot with version := version } : Snapshot).Hangs root :=
  ⟨hangs.atTop, hangs.rooted, hangs.reached, hangs.order⟩

theorem steps_lt_size (hangs : snapshot.Hangs root)
    (reached : Reaches snapshot.childrenOf steps root id) : steps < snapshot.size := by
  rw [← length_treeOrder]
  apply hangs.rooted.steps_lt_length _ reached
  intro fewer met reachedMet
  exact mem_treeOrder.mpr (hangs.reached.mpr ⟨fewer, reachedMet⟩)

theorem length_ascend (hangs : snapshot.Hangs root) {height : Nat}
    (reached : Reaches snapshot.childrenOf steps root id) (high : steps ≤ height) :
    (snapshot.ascend height id).length = steps := by
  induction steps generalizing id height with
  | zero =>
    rw [← reached.eq_of_zero]
    cases height with
    | zero => rfl
    | succ height =>
      rw [ascend, hangs.rooted.parent_root]
      rfl
  | succ steps ih =>
    obtain ⟨above, upper, linked⟩ := hangs.rooted.parent_of_step reached
    cases height with
    | zero => exact absurd high (Nat.not_succ_le_zero steps)
    | succ height =>
      rw [ascend, linked]
      exact congrArg (· + 1) (ih upper (Nat.le_of_succ_le_succ high))

end Hangs

end Snapshot

/-! ### Snapshots of trees -/

namespace Tree

variable {tree : Tree} {edges : Relation.Family Edges}

theorem hangs_snapshot (sound : tree.Sound) {root : NodeId} (atTop : tree.root = some root) :
    (tree.snapshot edges).Hangs root := by
  obtain ⟨top, alive, -⟩ := sound.forest.root_live atTop
  have children : (tree.snapshot edges).childrenOf = tree.live.childrenOf := by
    funext id
    rw [Snapshot.childrenOf, get?_snapshot sound, Option.map_map]
    rfl
  have parents : (tree.snapshot edges).parent? = tree.live.parentOf := by
    funext id
    rw [Snapshot.parent?, get?_snapshot sound, Option.bind_map]
    rfl
  have rooted : Rooted (tree.snapshot edges).childrenOf (tree.snapshot edges).parent? root := by
    rw [children, parents]
    exact sound.forest.rooted atTop
  have reached {id : NodeId} : (tree.snapshot edges).contains id = true ↔
      ∃ steps, Reaches (tree.snapshot edges).childrenOf steps root id := by
    rw [contains_snapshot sound, children]
    constructor
    · rintro ⟨node, aliveNode⟩
      exact sound.forest.leads_of_top atTop aliveNode
    · exact fun leads => sound.forest.leads_live leads alive
  refine ⟨atTop, rooted, reached, tree.size, ?_, ?_⟩
  · rw [treeOrder_snapshot sound, preorder, atTop, children]
    exact sound.below_eq alive (Nat.le_refl _)
  · rw [children]
    exact fun steps target way => sound.steps_lt_size alive way

end Tree

end Accessibility
