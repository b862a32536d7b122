import Accessibility.Proofs.Change.Runs
import Accessibility.Proofs.Document.Scoping

/-!
Every document that sound changes lead to is one tree below the root that it began with. The walks
up and down its links are bounded by the number of its nodes, and none of them is cut short; so a
removal takes away exactly the nodes below.
-/

set_option autoImplicit false

namespace Accessibility.Document

variable {document : Document}

/-- No walk along the links is cut short by its bound: a higher one leads no further. -/
structure Walkable (document : Document) : Prop where
  up : ∀ {handle : Handle}, document.contains handle = true → ∀ {height : Nat},
    document.size ≤ height → document.ascend height (some handle) = document.lineage handle
  down : ∀ {handle : Handle}, document.contains handle = true → ∀ {depth : Nat},
    document.size ≤ depth → document.descend depth handle = document.descend document.size handle

/-- The removal of a node succeeds, answers each node that parent links lead up from to it, and
leaves all others. -/
structure Severs (document : Document) (handle : Handle) (removed : List Handle) : Prop where
  answer : (document.remove handle).answer = .ok removed
  nodup : removed.Nodup
  mem_iff : ∀ {other : Handle}, other ∈ removed ↔ document.Under other handle
  left : ∀ {other : Handle}, (document.remove handle).state.contains other = true ↔
    document.contains other = true ∧ ¬ document.Under other handle

/-- All nodes are in one tree. Every node but the root is listed once, by the node that it names as
its parent; the ancestors of a node are those that parent links lead to; and a removal takes away a
whole subtree and nothing else. -/
structure SingleTree (document : Document) (root : Handle) : Prop where
  root : document.root = root
  wellFormed : document.WellFormed
  once : ∀ {handle : Handle} {node : ContentNode}, document.get? handle = some node →
    handle ≠ document.root → ∃ parent above, node.parent = some parent ∧
      document.get? parent = some above ∧ above.children.count handle = 1
  walkable : document.Walkable
  ancestors : ∀ {lower upper : Handle}, document.contains lower = true →
    (upper ∈ document.lineage lower ↔ document.Under lower upper)
  severs : ∀ {handle : Handle}, document.contains handle = true → handle ≠ document.root →
    ∃ removed, document.Severs handle removed

namespace WellFormed

theorem walkable (wellFormed : document.WellFormed) : document.Walkable where
  up := by
    intro handle stored height high
    obtain ⟨steps, reached⟩ := wellFormed.root_leads stored
    have bound := wellFormed.steps_lt_size reached
    rw [lineage, wellFormed.ascend_eq reached bound,
      wellFormed.ascend_eq reached (Nat.lt_of_lt_of_le bound high)]
  down := by
    intro handle stored depth deep
    rw [descend_eq_walk, descend_eq_walk]
    exact Walk.descend_eq_of_le deep fun _ _ reached => wellFormed.steps_lt_size_from stored reached

theorem mem_lineage_iff_under (wellFormed : document.WellFormed) {lower upper : Handle}
    (stored : document.contains lower = true) :
    upper ∈ document.lineage lower ↔ document.Under lower upper := by
  rw [wellFormed.mem_lineage stored, wellFormed.under_iff_leads stored]

theorem count_child (wellFormed : document.WellFormed) {handle : Handle} {node : ContentNode}
    (stored : document.get? handle = some node) (below : handle ≠ document.root) :
    ∃ parent above, node.parent = some parent ∧ document.get? parent = some above ∧
      above.children.count handle = 1 := by
  obtain ⟨parent, above, linked, storedParent, listed⟩ := wellFormed.listed stored below
  exact ⟨parent, above, linked, storedParent,
    List.count_eq_one_of_mem (wellFormed.nodup storedParent) listed⟩

theorem severs_below (wellFormed : document.WellFormed) {handle : Handle}
    (stored : document.contains handle = true) (below : handle ≠ document.root) :
    document.Severs handle (document.below handle) where
  answer := wellFormed.answer_remove stored below
  nodup := wellFormed.below_nodup stored
  mem_iff := by
    intro other
    rw [wellFormed.mem_below stored]
    constructor
    · intro leads
      exact (wellFormed.under_iff_leads (wellFormed.contains_of_leads leads stored)).mpr leads
    · exact fun under => (wellFormed.under_iff_leads under.contains_lower).mp under
  left := by
    intro other
    rw [wellFormed.contains_remove stored below]
    exact and_congr_right fun storedOther =>
      not_congr (wellFormed.under_iff_leads storedOther).symm

end WellFormed

/-- Changes with any arguments, whether they succeed or fail, leave a single tree below the root that
the document began with. -/
theorem singleTree_afterAll {subtree : Subtree} (distinct : subtree.Distinct)
    {changes : List Change} (sound : ∀ change ∈ changes, change.Sound subtree.handle) :
    ((ofSubtree subtree).afterAll changes).SingleTree subtree.handle := by
  have wellFormed := (wellFormed_ofSubtree distinct).afterAll sound
  exact {
    root := root_afterAll _ changes
    wellFormed := wellFormed
    once := wellFormed.count_child
    walkable := wellFormed.walkable
    ancestors := wellFormed.mem_lineage_iff_under
    severs := fun stored below => ⟨_, wellFormed.severs_below stored below⟩ }

/-- A paragraph inside an element. -/
def nestedPage : Subtree :=
  { Subtree.single ⟨0⟩ .document with
    children := [{ Subtree.single ⟨1⟩ (.element "div") with
      children := [.single ⟨2⟩ (.element "p")] }] }

/-- The element is taken over, and its paragraph goes with the earlier one; an insertion into the
paragraph fails; the element is removed, and the root stays. -/
def nestedChanges : List Change :=
  [.inserted ⟨0⟩ 0 { Subtree.single ⟨3⟩ (.element "main") with
      children := [.single ⟨1⟩ (.element "div")] },
    .inserted ⟨2⟩ 0 (.single ⟨4⟩ .text), .removed ⟨1⟩, .removed ⟨0⟩]

theorem singleTree_nestedChanges :
    nestedPage.Distinct ∧ (∀ change ∈ nestedChanges, change.Sound nestedPage.handle) ∧
      ((ofSubtree nestedPage).afterAll nestedChanges).SingleTree ⟨0⟩ ∧
      ((ofSubtree nestedPage).afterAll nestedChanges).preorder = [⟨0⟩, ⟨3⟩] := by
  have distinct : nestedPage.Distinct := by decide
  have sound : ∀ change ∈ nestedChanges, change.Sound nestedPage.handle := by decide
  exact ⟨distinct, sound, singleTree_afterAll distinct sound, by decide +kernel⟩

end Accessibility.Document
