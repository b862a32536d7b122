import Accessibility.Document.Edit
import Accessibility.Proofs.Document.Insertion
import Accessibility.Proofs.Walk
import Accessibility.Tree.Basic

/-!
The live nodes of an accessible tree, told as a function from keys to nodes. They form one tree below
the root; a new leaf, a move to a node that is not below, a removal and a new order of children keep
that.
-/

set_option autoImplicit false

namespace Accessibility

/-- The nodes that are alive, by their keys. -/
abbrev Live := NodeId → Option AccessibleNode

namespace Live

def childrenOf (live : Live) (id : NodeId) : Option (List NodeId) :=
  (live id).map AccessibleNode.children

def parentOf (live : Live) (id : NodeId) : Option NodeId :=
  (live id).bind AccessibleNode.parent

/-- Whether child lists lead from one node to another. -/
def Leads (live : Live) (upper lower : NodeId) : Prop :=
  ∃ steps, Walk.Reaches live.childrenOf steps upper lower

variable {live : Live} {upper middle lower : NodeId}

theorem childrenOf_of_live {id : NodeId} {node : AccessibleNode} (alive : live id = some node) :
    live.childrenOf id = some node.children := by
  rw [childrenOf, alive, Option.map_some]

theorem live_of_childrenOf {id : NodeId} {children : List NodeId}
    (known : live.childrenOf id = some children) :
    ∃ node, live id = some node ∧ node.children = children :=
  Option.map_eq_some_iff.mp known

theorem parentOf_of_live {id : NodeId} {node : AccessibleNode} (alive : live id = some node) :
    live.parentOf id = node.parent := by
  rw [parentOf, alive, Option.bind_some]

namespace Leads

theorem refl (live : Live) (id : NodeId) : live.Leads id id :=
  ⟨0, .here id⟩

theorem trans (first : live.Leads upper middle) (second : live.Leads middle lower) :
    live.Leads upper lower := by
  obtain ⟨steps, first⟩ := first
  obtain ⟨more, second⟩ := second
  exact ⟨steps + more, first.trans second⟩

theorem step {node : AccessibleNode} (alive : live upper = some node)
    (listed : lower ∈ node.children) : live.Leads upper lower :=
  ⟨1, .step (childrenOf_of_live alive) listed (.here lower)⟩

/-- The way down ends with a step to a child, unless it ends where it begins. -/
theorem eq_or_parent (leads : live.Leads upper lower) :
    upper = lower ∨ ∃ parent above, live.Leads upper parent ∧ live parent = some above ∧
      lower ∈ above.children := by
  obtain ⟨steps, reached⟩ := leads
  cases steps with
  | zero => exact .inl reached.eq_of_zero
  | succ steps =>
    obtain ⟨parent, children, rest, known, listed⟩ := reached.last
    obtain ⟨above, alive, rfl⟩ := live_of_childrenOf known
    exact .inr ⟨parent, above, ⟨steps, rest⟩, alive, listed⟩

/-- A way down to a live node begins at one. -/
theorem live_upper {node : AccessibleNode} (leads : live.Leads upper lower)
    (alive : live lower = some node) : ∃ node, live upper = some node := by
  obtain ⟨steps, reached⟩ := leads
  cases reached with
  | here _ => exact ⟨node, alive⟩
  | step known _ _ =>
    obtain ⟨above, aliveUpper, -⟩ := live_of_childrenOf known
    exact ⟨above, aliveUpper⟩

/-- What holds where the way begins and passes from a node to its children holds all along. -/
theorem induction {motive : NodeId → Prop} (leads : live.Leads upper lower) (start : motive upper)
    (pass : ∀ {parent child : NodeId} {above : AccessibleNode}, live.Leads upper parent →
      motive parent → live parent = some above → child ∈ above.children → motive child) :
    motive lower := by
  obtain ⟨steps, reached⟩ := leads
  induction steps generalizing lower with
  | zero => exact reached.eq_of_zero ▸ start
  | succ steps ih =>
    obtain ⟨parent, children, rest, known, listed⟩ := reached.last
    obtain ⟨above, alive, rfl⟩ := live_of_childrenOf known
    exact pass ⟨steps, rest⟩ (ih rest) alive listed

end Leads

end Live

/-- The live nodes form one tree below the root, and parent links and child lists agree. -/
structure Forest (live : Live) (root : Option NodeId) : Prop where
  root_live : ∀ {top : NodeId}, root = some top → ∃ node, live top = some node ∧ node.parent = none
  reached : ∀ {id : NodeId} {node : AccessibleNode}, live id = some node →
    ∃ top, root = some top ∧ live.Leads top id
  listed : ∀ {parent child : NodeId} {above : AccessibleNode}, live parent = some above →
    (child ∈ above.children ↔ ∃ node, live child = some node ∧ node.parent = some parent)
  nodup : ∀ {parent : NodeId} {above : AccessibleNode}, live parent = some above →
    above.children.Nodup

namespace Forest

variable {live : Live} {root : Option NodeId}

theorem leads_of_top (forest : Forest live root) {top id : NodeId} {node : AccessibleNode}
    (atTop : root = some top) (alive : live id = some node) : live.Leads top id := by
  obtain ⟨top', atTop', leads⟩ := forest.reached alive
  rw [atTop] at atTop'
  cases atTop'
  exact leads

theorem parentless (forest : Forest live root) {top : NodeId} {node : AccessibleNode}
    (atTop : root = some top) (alive : live top = some node) : node.parent = none := by
  obtain ⟨node', alive', parentless⟩ := forest.root_live atTop
  rw [alive] at alive'
  cases alive'
  exact parentless

/-- A node is in no child list but that of its parent. -/
theorem parent_of_listed (forest : Forest live root) {parent child : NodeId}
    {above node : AccessibleNode} (alive : live parent = some above)
    (listed : child ∈ above.children) (aliveChild : live child = some node) :
    node.parent = some parent := by
  obtain ⟨node', aliveChild', linked⟩ := (forest.listed alive).mp listed
  rw [aliveChild] at aliveChild'
  cases aliveChild'
  exact linked

theorem rooted (forest : Forest live root) {top : NodeId} (atTop : root = some top) :
    Walk.Rooted live.childrenOf live.parentOf top where
  parent_root := by
    obtain ⟨node, alive, parentless⟩ := forest.root_live atTop
    rw [Live.parentOf_of_live alive, parentless]
  parent_listed := by
    intro _ parent child _ _ known listed
    obtain ⟨above, alive, rfl⟩ := Live.live_of_childrenOf known
    obtain ⟨node, aliveChild, linked⟩ := (forest.listed alive).mp listed
    rw [Live.parentOf_of_live aliveChild, linked]
  nodup := by
    intro _ parent _ _ known
    obtain ⟨above, alive, rfl⟩ := Live.live_of_childrenOf known
    exact forest.nodup alive

/-- The parent of a live node is alive and lists it. -/
theorem parent_live (forest : Forest live root) {id parent : NodeId} {node : AccessibleNode}
    (alive : live id = some node) (linked : node.parent = some parent) :
    ∃ above, live parent = some above ∧ id ∈ above.children := by
  obtain ⟨top, atTop, leads⟩ := forest.reached alive
  rcases leads.eq_or_parent with rfl | ⟨parent', above, -, aliveParent, listed⟩
  · rw [forest.parentless atTop alive] at linked
    cases linked
  · rw [forest.parent_of_listed aliveParent listed alive] at linked
    cases linked
    exact ⟨above, aliveParent, listed⟩

/-- A node without a parent is the root. -/
theorem root_of_parentless (forest : Forest live root) {id : NodeId} {node : AccessibleNode}
    (alive : live id = some node) (parentless : node.parent = none) : root = some id := by
  obtain ⟨top, atTop, leads⟩ := forest.reached alive
  rcases leads.eq_or_parent with rfl | ⟨parent, above, -, aliveParent, listed⟩
  · exact atTop
  · rw [forest.parent_of_listed aliveParent listed alive] at parentless
    cases parentless

theorem leads_live (forest : Forest live root) {upper lower : NodeId} {node : AccessibleNode}
    (leads : live.Leads upper lower) (alive : live upper = some node) :
    ∃ node, live lower = some node := by
  rcases leads.eq_or_parent with rfl | ⟨parent, above, -, aliveParent, listed⟩
  · exact ⟨node, alive⟩
  · obtain ⟨node, aliveChild, -⟩ := (forest.listed aliveParent).mp listed
    exact ⟨node, aliveChild⟩

theorem leads_antisymm (forest : Forest live root) {upper lower : NodeId} {node : AccessibleNode}
    (alive : live upper = some node) (down : live.Leads upper lower)
    (up : live.Leads lower upper) : upper = lower := by
  obtain ⟨top, atTop, above, reached⟩ := forest.reached alive
  obtain ⟨steps, down⟩ := down
  obtain ⟨more, up⟩ := up
  have round := (forest.rooted atTop).steps_unique reached (reached.trans (down.trans up))
  have none : steps = 0 := by omega
  subst none
  exact down.eq_of_zero

/-- No node is below one of its children. -/
theorem not_leads_to_parent (forest : Forest live root) {parent child : NodeId}
    {above : AccessibleNode} (alive : live parent = some above) (listed : child ∈ above.children) :
    ¬ live.Leads child parent := by
  intro up
  have same := forest.leads_antisymm alive (.step alive listed) up
  subst same
  obtain ⟨top, atTop, steps, reached⟩ := forest.reached alive
  have again := reached.snoc (Live.childrenOf_of_live alive) listed
  exact absurd ((forest.rooted atTop).steps_unique reached again) (Nat.ne_of_lt (Nat.lt_succ_self _))

/-- Two nodes above a third are one above the other. -/
theorem leads_of_parent (forest : Forest live root) {upper parent child : NodeId}
    {above : AccessibleNode} (alive : live parent = some above) (listed : child ∈ above.children)
    (leads : live.Leads upper child) : upper = child ∨ live.Leads upper parent := by
  rcases leads.eq_or_parent with same | ⟨parent', above', leads', alive', listed'⟩
  · exact .inl same
  · obtain ⟨node, aliveChild, linked⟩ := (forest.listed alive).mp listed
    rw [forest.parent_of_listed alive' listed' aliveChild] at linked
    cases linked
    exact .inr leads'

/-- Changes that leave all links alone keep the tree. -/
theorem map (forest : Forest live root) {change : NodeId → AccessibleNode → AccessibleNode}
    (parents : ∀ id node, (change id node).parent = node.parent)
    (children : ∀ id node, live id = some node →
      (change id node).children.Perm node.children) :
    Forest (fun id => (live id).map (change id)) root := by
  have reaches {upper lower : NodeId} (leads : live.Leads upper lower) :
      Live.Leads (fun id => (live id).map (change id)) upper lower := by
    refine leads.induction (.refl _ upper) ?_
    intro parent child above _ soFar alive listed
    have aliveAfter : Option.map (change parent) (live parent) = some (change parent above) := by
      rw [alive, Option.map_some]
    exact soFar.trans (.step aliveAfter ((children parent above alive).mem_iff.mpr listed))
  refine ⟨?_, ?_, ?_, ?_⟩
  · intro top atTop
    obtain ⟨node, alive, parentless⟩ := forest.root_live atTop
    exact ⟨change top node, by rw [alive, Option.map_some], (parents top node).trans parentless⟩
  · intro id node alive
    obtain ⟨before, alive, -⟩ := Option.map_eq_some_iff.mp alive
    obtain ⟨top, atTop, leads⟩ := forest.reached alive
    exact ⟨top, atTop, reaches leads⟩
  · intro parent child above alive
    obtain ⟨before, aliveBefore, rfl⟩ := Option.map_eq_some_iff.mp alive
    rw [(children parent before aliveBefore).mem_iff, forest.listed aliveBefore]
    constructor
    · rintro ⟨node, aliveChild, linked⟩
      exact ⟨change child node, by rw [aliveChild, Option.map_some],
        (parents child node).trans linked⟩
    · rintro ⟨node, aliveChild, linked⟩
      obtain ⟨old, aliveOld, rfl⟩ := Option.map_eq_some_iff.mp aliveChild
      exact ⟨old, aliveOld, (parents child old).symm.trans linked⟩
  · intro parent above alive
    obtain ⟨before, aliveBefore, rfl⟩ := Option.map_eq_some_iff.mp alive
    exact (children parent before aliveBefore).nodup_iff.mpr (forest.nodup aliveBefore)

theorem congr (forest : Forest live root) {other : Live} (same : ∀ id, other id = live id) :
    Forest other root := by
  rwa [funext same]

end Forest

/-! ### A new leaf -/

namespace AccessibleNode

/-- The node with a child more. -/
def withChild (node : AccessibleNode) (index : Nat) (child : NodeId) : AccessibleNode :=
  { node with children := Document.insertAt index child node.children }

/-- The node below another parent, or below none. -/
def withParent (node : AccessibleNode) (parent : Option NodeId) : AccessibleNode :=
  { node with parent := parent }

/-- The node without one of its children. -/
def without (node : AccessibleNode) (child : NodeId) : AccessibleNode :=
  { node with children := node.children.filter (· != child) }

theorem mem_children_without {node : AccessibleNode} {id child : NodeId} :
    child ∈ (node.without id).children ↔ child ∈ node.children ∧ child ≠ id := by
  simp [without]

theorem without_of_not_mem {node : AccessibleNode} {child : NodeId} (absent : child ∉ node.children) :
    node.without child = node := by
  have kept : node.children.filter (· != child) = node.children := by
    rw [List.filter_eq_self]
    intro other listed
    exact bne_iff_ne.mpr fun same => absent (same ▸ listed)
  rw [without, kept]

theorem mem_children_withChild {node : AccessibleNode} {index : Nat} {id child : NodeId} :
    child ∈ (node.withChild index id).children ↔ child = id ∨ child ∈ node.children :=
  Document.mem_insertAt index id child node.children

end AccessibleNode

namespace Live

/-- One node more, without children, below a parent. -/
def withLeaf (live : Live) (id parent : NodeId) (index : Nat) (leaf : AccessibleNode) : Live :=
  fun other =>
    if other = id then some leaf
    else (live other).map fun node => if other = parent then node.withChild index id else node

section Leaf

variable {live : Live} {id parent : NodeId} {index : Nat} {leaf : AccessibleNode}

theorem withLeaf_self : live.withLeaf id parent index leaf id = some leaf :=
  if_pos rfl

/-- The nodes that were there are there, the parent with a child more. -/
theorem withLeaf_of_live (fresh : live id = none) {other : NodeId} {node : AccessibleNode}
    (alive : live other = some node) :
    ∃ after, live.withLeaf id parent index leaf other = some after ∧ after.parent = node.parent ∧
      ∀ child, child ∈ after.children ↔ (other = parent ∧ child = id) ∨ child ∈ node.children := by
  have differ : other ≠ id := by
    rintro rfl
    rw [fresh] at alive
    cases alive
  rw [withLeaf, if_neg differ, alive, Option.map_some]
  refine ⟨_, rfl, ?_, fun child => ?_⟩
  · split <;> rfl
  · split
    · rename_i same
      rw [AccessibleNode.mem_children_withChild]
      simp [same]
    · rename_i apart
      simp [apart]

/-- A node other than the leaf was there. -/
theorem live_of_withLeaf {other : NodeId} {node : AccessibleNode}
    (alive : live.withLeaf id parent index leaf other = some node) :
    (other = id ∧ node = leaf) ∨ ∃ old, live other = some old ∧
      node = if other = parent then old.withChild index id else old := by
  by_cases same : other = id
  · subst same
    rw [withLeaf_self] at alive
    exact .inl ⟨rfl, (Option.some.inj alive).symm⟩
  · rw [withLeaf, if_neg same] at alive
    obtain ⟨old, aliveOld, rfl⟩ := Option.map_eq_some_iff.mp alive
    exact .inr ⟨old, aliveOld, rfl⟩

theorem Leads.withLeaf (fresh : live id = none) {upper lower : NodeId}
    (leads : live.Leads upper lower) : (live.withLeaf id parent index leaf).Leads upper lower := by
  refine leads.induction (.refl _ upper) ?_
  intro above child node _ soFar alive listed
  obtain ⟨after, aliveAfter, -, children⟩ := withLeaf_of_live fresh alive
  exact soFar.trans (.step aliveAfter ((children child).mpr (.inr listed)))

end Leaf

end Live

namespace Forest

variable {live : Live} {root : Option NodeId}

theorem withLeaf (forest : Forest live root) {id parent : NodeId} {above leaf : AccessibleNode}
    (fresh : live id = none) (alive : live parent = some above) (index : Nat)
    (linked : leaf.parent = some parent) (childless : leaf.children = []) :
    Forest (live.withLeaf id parent index leaf) root := by
  obtain ⟨aboveAfter, aliveAbove, -, childrenAbove⟩ := Live.withLeaf_of_live fresh alive
  refine ⟨?_, ?_, ?_, ?_⟩
  · intro top atTop
    obtain ⟨node, alive, parentless⟩ := forest.root_live atTop
    obtain ⟨after, aliveAfter, sameParent, -⟩ := Live.withLeaf_of_live fresh alive
    exact ⟨after, aliveAfter, sameParent.trans parentless⟩
  · intro other node aliveAfter
    rcases Live.live_of_withLeaf aliveAfter with ⟨rfl, -⟩ | ⟨old, aliveOld, -⟩
    · obtain ⟨top, atTop, leads⟩ := forest.reached alive
      refine ⟨top, atTop, (leads.withLeaf fresh).trans (.step aliveAbove ?_)⟩
      exact (childrenAbove other).mpr (.inl ⟨rfl, rfl⟩)
    · obtain ⟨top, atTop, leads⟩ := forest.reached aliveOld
      exact ⟨top, atTop, leads.withLeaf fresh⟩
  · intro upper child node aliveAfter
    constructor
    · intro listed
      rcases Live.live_of_withLeaf aliveAfter with ⟨rfl, rfl⟩ | ⟨old, aliveOld, -⟩
      · rw [childless] at listed
        cases listed
      · obtain ⟨after, aliveUpper, -, children⟩ := Live.withLeaf_of_live fresh aliveOld
        rw [aliveUpper] at aliveAfter
        cases aliveAfter
        rcases (children child).mp listed with ⟨rfl, rfl⟩ | listed
        · exact ⟨leaf, Live.withLeaf_self, linked⟩
        · obtain ⟨below, aliveChild, linkedChild⟩ := (forest.listed aliveOld).mp listed
          obtain ⟨after, aliveAfter, sameParent, -⟩ := Live.withLeaf_of_live fresh aliveChild
          exact ⟨after, aliveAfter, sameParent.trans linkedChild⟩
    · rintro ⟨node', aliveChild, linkedChild⟩
      rcases Live.live_of_withLeaf aliveChild with ⟨rfl, rfl⟩ | ⟨old, aliveOld, -⟩
      · rw [linked] at linkedChild
        cases linkedChild
        rw [aliveAbove] at aliveAfter
        cases aliveAfter
        exact (childrenAbove child).mpr (.inl ⟨rfl, rfl⟩)
      · obtain ⟨after, aliveNow, sameParent, -⟩ := Live.withLeaf_of_live fresh aliveOld
        rw [aliveNow] at aliveChild
        cases aliveChild
        obtain ⟨above', aliveUpper, listed⟩ :=
          forest.parent_live aliveOld (sameParent.symm.trans linkedChild)
        obtain ⟨after', aliveUpper', -, children⟩ := Live.withLeaf_of_live fresh aliveUpper
        rw [aliveUpper'] at aliveAfter
        cases aliveAfter
        exact (children child).mpr (.inr listed)
  · intro upper node aliveAfter
    rcases Live.live_of_withLeaf aliveAfter with ⟨-, rfl⟩ | ⟨old, aliveOld, rfl⟩
    · rw [childless]
      exact List.nodup_nil
    · split
      · refine Document.nodup_insertAt (forest.nodup aliveOld) ?_
        intro listed
        obtain ⟨_, aliveChild, -⟩ := (forest.listed aliveOld).mp listed
        rw [fresh] at aliveChild
        cases aliveChild
      · exact forest.nodup aliveOld

end Forest

/-! ### A node less, with all below it -/

/-- What is left of the live nodes when one goes with all below it. -/
structure Live.Removed (live after : Live) (id : NodeId) : Prop where
  gone : ∀ {other : NodeId}, live.Leads id other → after other = none
  kept : ∀ {other : NodeId}, ¬ live.Leads id other →
    after other = (live other).map (·.without id)

namespace Forest

variable {live after : Live} {root : Option NodeId} {id : NodeId}

theorem eq_some_of_removed (removed : live.Removed after id) {other : NodeId}
    {node : AccessibleNode} :
    after other = some node ↔
      ¬ live.Leads id other ∧ ∃ old, live other = some old ∧ node = old.without id := by
  by_cases below : live.Leads id other
  · rw [removed.gone below]
    exact iff_of_false nofun fun both => both.1 below
  · rw [removed.kept below, Option.map_eq_some_iff]
    exact ⟨fun ⟨old, alive, same⟩ => ⟨below, old, alive, same.symm⟩,
      fun ⟨_, old, alive, same⟩ => ⟨old, alive, same.symm⟩⟩

/-- Ways down that end outside are as they were. -/
theorem leads_iff_of_removed (removed : live.Removed after id) {upper lower : NodeId}
    (apart : ¬ live.Leads id lower) : after.Leads upper lower ↔ live.Leads upper lower := by
  constructor
  · intro leads
    refine leads.induction (motive := fun lower => live.Leads upper lower) (.refl live upper) ?_
    intro parent child above _ soFar alive listed
    obtain ⟨-, old, aliveOld, rfl⟩ := (eq_some_of_removed removed).mp alive
    exact soFar.trans (.step aliveOld (AccessibleNode.mem_children_without.mp listed).1)
  · intro leads
    refine leads.induction
      (motive := fun lower => ¬ live.Leads id lower → after.Leads upper lower)
      (fun _ => .refl after upper) ?_ apart
    intro parent child above _ soFar alive listed apart
    have apartParent : ¬ live.Leads id parent := fun leads => apart (leads.trans (.step alive listed))
    have aliveAfter : after parent = some (above.without id) := by
      rw [removed.kept apartParent, alive, Option.map_some]
    refine (soFar apartParent).trans (.step aliveAfter ?_)
    refine AccessibleNode.mem_children_without.mpr ⟨listed, ?_⟩
    rintro rfl
    exact apart (.refl live child)

/-- The root goes, and with it everything. -/
theorem removed_root (forest : Forest live root) (removed : live.Removed after id)
    (atTop : root = some id) : Forest after none := by
  have empty (other : NodeId) : after other = none := by
    cases alive : live other with
    | none =>
      by_cases below : live.Leads id other
      · exact removed.gone below
      · rw [removed.kept below, alive, Option.map_none]
    | some node =>
      exact removed.gone (forest.leads_of_top atTop alive)
  refine ⟨nofun, ?_, ?_, ?_⟩
  · intro other node alive
    rw [empty] at alive
    cases alive
  · intro parent child above alive
    rw [empty] at alive
    cases alive
  · intro parent above alive
    rw [empty] at alive
    cases alive

theorem removed (forest : Forest live root) (removed : live.Removed after id)
    (below : root ≠ some id) {target : AccessibleNode} (aliveTarget : live id = some target) :
    Forest after root := by
  have still {other : NodeId} {node : AccessibleNode} (apart : ¬ live.Leads id other)
      (alive : live other = some node) : after other = some (node.without id) := by
    rw [removed.kept apart, alive, Option.map_some]
  refine ⟨?_, ?_, ?_, ?_⟩
  · intro top atTop
    obtain ⟨node, alive, parentless⟩ := forest.root_live atTop
    refine ⟨node.without id, still ?_ alive, parentless⟩
    intro leads
    have same := forest.leads_antisymm alive (forest.leads_of_top atTop aliveTarget) leads
    exact below (same ▸ atTop)
  · intro other node alive
    obtain ⟨apart, old, aliveOld, -⟩ := (eq_some_of_removed removed).mp alive
    obtain ⟨top, atTop, leads⟩ := forest.reached aliveOld
    exact ⟨top, atTop, (leads_iff_of_removed removed apart).mpr leads⟩
  · intro parent child above alive
    obtain ⟨apart, old, aliveOld, rfl⟩ := (eq_some_of_removed removed).mp alive
    rw [AccessibleNode.mem_children_without]
    constructor
    · rintro ⟨listed, differ⟩
      obtain ⟨node, aliveChild, linked⟩ := (forest.listed aliveOld).mp listed
      refine ⟨node.without id, still ?_ aliveChild, linked⟩
      intro leads
      rcases forest.leads_of_parent aliveOld listed leads with same | leads
      · exact differ same.symm
      · exact apart leads
    · rintro ⟨node, aliveChild, linked⟩
      obtain ⟨apartChild, oldChild, aliveBefore, rfl⟩ := (eq_some_of_removed removed).mp aliveChild
      refine ⟨(forest.listed aliveOld).mpr ⟨oldChild, aliveBefore, linked⟩, ?_⟩
      rintro rfl
      exact apartChild (.refl live child)
  · intro parent above alive
    obtain ⟨-, old, aliveOld, rfl⟩ := (eq_some_of_removed removed).mp alive
    exact (forest.nodup aliveOld).filter _

end Forest

/-! ### A node elsewhere -/

namespace Live

/-- The live nodes with one moved under another parent. -/
def moved (live : Live) (child parent : NodeId) (index : Nat) : Live :=
  fun other => (live other).map fun node =>
    if other = child then { node with parent := some parent }
    else if other = parent then (node.without child).withChild index child
    else node.without child

section Moved

variable {live : Live} {child parent other : NodeId} {index : Nat} {old after : AccessibleNode}

theorem moved_of_live (alive : live other = some old) :
    ∃ after, live.moved child parent index other = some after := by
  rw [moved, alive, Option.map_some]
  exact ⟨_, rfl⟩

theorem live_of_moved (aliveAfter : live.moved child parent index other = some after) :
    ∃ old, live other = some old := by
  obtain ⟨old, alive, -⟩ := Option.map_eq_some_iff.mp aliveAfter
  exact ⟨old, alive⟩

/-- Only the node that is moved has another parent. -/
theorem parent_moved (alive : live other = some old)
    (aliveAfter : live.moved child parent index other = some after) :
    after.parent = if other = child then some parent else old.parent := by
  rw [moved, alive, Option.map_some, Option.some.injEq] at aliveAfter
  subst aliveAfter
  split
  · rfl
  · split <;> rfl

/-- The node that is moved is a child of the new parent, and of no other node. -/
theorem mem_children_moved (differ : parent ≠ child) (alive : live other = some old)
    (unlisted : other = child → child ∉ old.children)
    (aliveAfter : live.moved child parent index other = some after) {lower : NodeId} :
    lower ∈ after.children ↔
      (other = parent ∧ lower = child) ∨ (lower ∈ old.children ∧ lower ≠ child) := by
  rw [moved, alive, Option.map_some, Option.some.injEq] at aliveAfter
  subst aliveAfter
  split
  · rename_i same
    have apart : other ≠ parent := fun atParent => differ (atParent.symm.trans same)
    simp only [apart, false_and, false_or]
    refine (and_iff_left_of_imp ?_).symm
    rintro listed rfl
    exact unlisted same listed
  · split
    · rename_i same
      rw [AccessibleNode.mem_children_withChild, AccessibleNode.mem_children_without]
      simp [same]
    · rename_i apart
      rw [AccessibleNode.mem_children_without]
      simp [apart]

end Moved

end Live

namespace Forest

variable {live : Live} {root : Option NodeId} {child parent : NodeId} {index : Nat}

theorem mem_children_moved (forest : Forest live root) (apart : ¬ live.Leads child parent)
    {other lower : NodeId} {old after : AccessibleNode} (alive : live other = some old)
    (aliveAfter : live.moved child parent index other = some after) :
    lower ∈ after.children ↔
      (other = parent ∧ lower = child) ∨ (lower ∈ old.children ∧ lower ≠ child) := by
  refine Live.mem_children_moved ?_ alive ?_ aliveAfter
  · rintro rfl
    exact apart (.refl live parent)
  · rintro rfl listed
    exact forest.not_leads_to_parent alive listed (.refl live other)

/-- The way down to what is not below the moved node never passes it. -/
theorem leads_moved_outside (forest : Forest live root) (apart : ¬ live.Leads child parent)
    {upper lower : NodeId} (leads : live.Leads upper lower) (outside : ¬ live.Leads child lower) :
    (live.moved child parent index).Leads upper lower := by
  refine leads.induction (motive := fun lower =>
    ¬ live.Leads child lower → (live.moved child parent index).Leads upper lower)
    (fun _ => .refl _ upper) ?_ outside
  intro above below old _ soFar alive listed outside
  obtain ⟨after, aliveAfter⟩ := Live.moved_of_live alive
  refine (soFar fun leads => outside (leads.trans (.step alive listed))).trans
    (.step aliveAfter ((forest.mem_children_moved apart alive aliveAfter).mpr
      (.inr ⟨listed, ?_⟩)))
  rintro rfl
  exact outside (.refl live below)

/-- The way down from the moved node stays as it was. -/
theorem leads_moved_inside (forest : Forest live root) (apart : ¬ live.Leads child parent)
    {lower : NodeId} (leads : live.Leads child lower) :
    (live.moved child parent index).Leads child lower := by
  refine leads.induction (.refl _ child) ?_
  intro above below old upper soFar alive listed
  obtain ⟨after, aliveAfter⟩ := Live.moved_of_live alive
  refine soFar.trans (.step aliveAfter
    ((forest.mem_children_moved apart alive aliveAfter).mpr (.inr ⟨listed, ?_⟩)))
  rintro rfl
  exact forest.not_leads_to_parent alive listed upper

/-- All nodes are still below the root: what is below the moved node by way of its new parent. -/
theorem leads_moved (forest : Forest live root) {above : AccessibleNode}
    (aliveParent : live parent = some above) (apart : ¬ live.Leads child parent)
    {top other : NodeId} (atTop : root = some top) (leads : live.Leads top other) :
    (live.moved child parent index).Leads top other := by
  by_cases below : live.Leads child other
  · obtain ⟨after, aliveAfter⟩ := Live.moved_of_live aliveParent
    have listed := (forest.mem_children_moved apart aliveParent aliveAfter).mpr (.inl ⟨rfl, rfl⟩)
    have toParent : (live.moved child parent index).Leads top parent :=
      forest.leads_moved_outside apart (forest.leads_of_top atTop aliveParent) apart
    exact (toParent.trans (.step aliveAfter listed)).trans (forest.leads_moved_inside apart below)
  · exact forest.leads_moved_outside apart leads below

theorem moved (forest : Forest live root) {node above : AccessibleNode}
    (aliveChild : live child = some node) (aliveParent : live parent = some above)
    (apart : ¬ live.Leads child parent) (index : Nat) :
    Forest (live.moved child parent index) root := by
  refine ⟨?_, ?_, ?_, ?_⟩
  · intro top atTop
    obtain ⟨old, alive, parentless⟩ := forest.root_live atTop
    obtain ⟨after, aliveAfter⟩ := Live.moved_of_live alive
    refine ⟨after, aliveAfter, ?_⟩
    rw [Live.parent_moved alive aliveAfter, if_neg, parentless]
    rintro rfl
    exact apart (forest.leads_of_top atTop aliveParent)
  · intro other after aliveAfter
    obtain ⟨old, alive⟩ := Live.live_of_moved aliveAfter
    obtain ⟨top, atTop, leads⟩ := forest.reached alive
    exact ⟨top, atTop, forest.leads_moved aliveParent apart atTop leads⟩
  · intro upper lower after aliveAfter
    obtain ⟨old, alive⟩ := Live.live_of_moved aliveAfter
    rw [forest.mem_children_moved apart alive aliveAfter]
    constructor
    · rintro (⟨rfl, rfl⟩ | ⟨listed, differ⟩)
      · obtain ⟨moved, aliveMoved⟩ := Live.moved_of_live aliveChild
        exact ⟨moved, aliveMoved, by rw [Live.parent_moved aliveChild aliveMoved, if_pos rfl]⟩
      · obtain ⟨lowerNode, aliveLower, linked⟩ := (forest.listed alive).mp listed
        obtain ⟨moved, aliveMoved⟩ := Live.moved_of_live aliveLower
        exact ⟨moved, aliveMoved, by
          rw [Live.parent_moved aliveLower aliveMoved, if_neg differ, linked]⟩
    · rintro ⟨moved, aliveMoved, linked⟩
      obtain ⟨lowerNode, aliveLower⟩ := Live.live_of_moved aliveMoved
      rw [Live.parent_moved aliveLower aliveMoved] at linked
      split at linked
      · rename_i same
        exact .inl ⟨(Option.some.inj linked).symm, same⟩
      · rename_i differ
        exact .inr ⟨(forest.listed alive).mpr ⟨lowerNode, aliveLower, linked⟩, differ⟩
  · intro upper after aliveAfter
    obtain ⟨old, alive, rfl⟩ := Option.map_eq_some_iff.mp aliveAfter
    have nodup := forest.nodup alive
    split
    · exact nodup
    · split
      · refine Document.nodup_insertAt (nodup.filter _) ?_
        exact fun listed => (AccessibleNode.mem_children_without.mp listed).2 rfl
      · exact nodup.filter _

end Forest

end Accessibility
