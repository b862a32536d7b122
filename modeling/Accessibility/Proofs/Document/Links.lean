import Accessibility.Document.WellFormed
import Accessibility.Proofs.Lists
import Accessibility.Proofs.Walk

/-!
The links of a well-formed document. Child lists lead from the root to every node, and the number
of nodes bounds the way; so a walk down is complete, and it meets no node twice.
-/

set_option autoImplicit false

namespace Accessibility.Document

open Std

def childrenOf? (document : Document) (handle : Handle) : Option (List Handle) :=
  (document.get? handle).map ContentNode.children

def parentOf? (document : Document) (handle : Handle) : Option Handle :=
  (document.get? handle).bind ContentNode.parent

/-- Whether child lists lead from one handle to another. -/
def Leads (document : Document) (upper lower : Handle) : Prop :=
  ∃ steps, Walk.Reaches document.childrenOf? steps upper lower

theorem descend_eq_walk (document : Document) (depth : Nat) (handle : Handle) :
    document.descend depth handle = Walk.descend document.childrenOf? depth handle := by
  induction depth generalizing handle with
  | zero => rfl
  | succ depth ih =>
    cases stored : document.get? handle with
    | none =>
      rw [Walk.descend_succ_of_none (by rw [childrenOf?, stored, Option.map_none])]
      simp only [descend, stored]
    | some node =>
      rw [Walk.descend_succ_of_some (by rw [childrenOf?, stored, Option.map_some])]
      simp only [descend, stored]
      congr 1
      exact List.flatMap_congr fun child _ => ih child

theorem isSome_childrenOf? (document : Document) (handle : Handle) :
    (document.childrenOf? handle).isSome = document.contains handle := by
  rw [childrenOf?, Option.isSome_map, contains_eq_isSome_get?]

theorem contains_of_get? {document : Document} {handle : Handle} {node : ContentNode}
    (stored : document.get? handle = some node) : document.contains handle = true := by
  rw [contains_eq_isSome_get?, stored, Option.isSome_some]

theorem exists_of_contains {document : Document} {handle : Handle}
    (stored : document.contains handle = true) : ∃ node, document.get? handle = some node := by
  rw [contains_eq_isSome_get?] at stored
  exact Option.isSome_iff_exists.mp stored

theorem get?_eq_none_of_not_contains {document : Document} {handle : Handle}
    (absent : document.contains handle = false) : document.get? handle = none := by
  rw [contains_eq_isSome_get?] at absent
  exact Option.isNone_iff_eq_none.mp (by simpa using absent)

theorem childrenOf?_of_get? {document : Document} {handle : Handle} {node : ContentNode}
    (stored : document.get? handle = some node) :
    document.childrenOf? handle = some node.children := by
  rw [childrenOf?, stored, Option.map_some]

theorem get?_of_childrenOf? {document : Document} {handle : Handle} {children : List Handle}
    (known : document.childrenOf? handle = some children) :
    ∃ node, document.get? handle = some node ∧ node.children = children :=
  Option.map_eq_some_iff.mp known

theorem parentOf?_of_get? {document : Document} {handle : Handle} {node : ContentNode}
    (stored : document.get? handle = some node) : document.parentOf? handle = node.parent := by
  rw [parentOf?, stored, Option.bind_some]

/-- Documents with the same root and the same nodes are equal. -/
theorem ext_get? {left right : Document} (root : left.root = right.root)
    (same : ∀ handle, left.get? handle = right.get? handle) : left = right := by
  obtain ⟨leftRoot, leftNodes⟩ := left
  obtain ⟨rightRoot, rightNodes⟩ := right
  obtain rfl : leftRoot = rightRoot := root
  obtain rfl : leftNodes = rightNodes := ExtTreeMap.ext_getElem? fun handle => same handle
  rfl

theorem mem_keys_iff_contains (document : Document) (handle : Handle) :
    handle ∈ document.nodes.keys ↔ document.contains handle = true := by
  rw [ExtTreeMap.mem_keys, contains, ExtTreeMap.contains_iff_mem]

namespace Leads

variable {document : Document} {upper middle lower : Handle}

theorem refl (document : Document) (handle : Handle) : document.Leads handle handle :=
  ⟨0, .here handle⟩

theorem trans (first : document.Leads upper middle) (second : document.Leads middle lower) :
    document.Leads upper lower := by
  obtain ⟨steps, first⟩ := first
  obtain ⟨more, second⟩ := second
  exact ⟨steps + more, first.trans second⟩

theorem step {node : ContentNode} (stored : document.get? upper = some node)
    (listed : lower ∈ node.children) : document.Leads upper lower :=
  ⟨1, .step (childrenOf?_of_get? stored) listed (.here lower)⟩

/-- The way down begins with a child, unless it ends where it begins. -/
theorem eq_or_child (leads : document.Leads upper lower) :
    upper = lower ∨ ∃ node child, document.get? upper = some node ∧ child ∈ node.children ∧
      document.Leads child lower := by
  obtain ⟨steps, reached⟩ := leads
  cases reached with
  | here _ => exact .inl rfl
  | step known listed rest =>
    obtain ⟨node, stored, rfl⟩ := get?_of_childrenOf? known
    exact .inr ⟨node, _, stored, listed, _, rest⟩

/-- The way down ends with a step from a parent, unless it ends where it begins. -/
theorem eq_or_parent (leads : document.Leads upper lower) :
    upper = lower ∨ ∃ parent above, document.Leads upper parent ∧
      document.get? parent = some above ∧ lower ∈ above.children := by
  obtain ⟨steps, reached⟩ := leads
  cases steps with
  | zero => exact .inl reached.eq_of_zero
  | succ steps =>
    obtain ⟨parent, children, rest, known, listed⟩ := reached.last
    obtain ⟨above, stored, rfl⟩ := get?_of_childrenOf? known
    exact .inr ⟨parent, above, ⟨steps, rest⟩, stored, listed⟩

end Leads

namespace WellFormed

variable {document : Document}

theorem rooted (wellFormed : document.WellFormed) :
    Walk.Rooted document.childrenOf? document.parentOf? document.root where
  parent_root := by
    obtain ⟨node, stored, top⟩ := wellFormed.root_stored
    rw [parentOf?_of_get? stored, top]
  parent_listed := by
    intro steps handle child children _ known listed
    obtain ⟨node, stored, rfl⟩ := get?_of_childrenOf? known
    obtain ⟨below, storedChild, linked⟩ := wellFormed.linked stored listed
    rw [parentOf?_of_get? storedChild, linked]
  nodup := by
    intro steps handle children _ known
    obtain ⟨node, stored, rfl⟩ := get?_of_childrenOf? known
    exact wellFormed.nodup stored

theorem contains_root (wellFormed : document.WellFormed) :
    document.contains document.root = true := by
  obtain ⟨node, stored, -⟩ := wellFormed.root_stored
  exact contains_of_get? stored

theorem contains_child (wellFormed : document.WellFormed) {parent child : Handle}
    {above : ContentNode} (stored : document.get? parent = some above)
    (listed : child ∈ above.children) : document.contains child = true := by
  obtain ⟨node, storedChild, -⟩ := wellFormed.linked stored listed
  exact contains_of_get? storedChild

/-- A node is in no child list but that of its parent. -/
theorem parent_of_mem_children (wellFormed : document.WellFormed) {parent child : Handle}
    {above node : ContentNode} (stored : document.get? parent = some above)
    (listed : child ∈ above.children) (storedChild : document.get? child = some node) :
    node.parent = some parent := by
  obtain ⟨node', storedChild', linked⟩ := wellFormed.linked stored listed
  rw [storedChild] at storedChild'
  cases storedChild'
  exact linked

/-- What leads to a child leads to its parent, unless it is the child. -/
theorem leads_of_child (wellFormed : document.WellFormed) {upper parent child : Handle}
    {above : ContentNode} (stored : document.get? parent = some above)
    (listed : child ∈ above.children) (leads : document.Leads upper child) :
    upper = child ∨ document.Leads upper parent := by
  rcases leads.eq_or_parent with same | ⟨parent', above', leads', stored', listed'⟩
  · exact .inl same
  · obtain ⟨node, storedChild, linked⟩ := wellFormed.linked stored listed
    rw [wellFormed.parent_of_mem_children stored' listed' storedChild] at linked
    cases linked
    exact .inr leads'

theorem ne_root_of_child (wellFormed : document.WellFormed) {parent child : Handle}
    {above : ContentNode} (stored : document.get? parent = some above)
    (listed : child ∈ above.children) : child ≠ document.root := by
  rintro rfl
  obtain ⟨node, storedRoot, top⟩ := wellFormed.root_stored
  rw [wellFormed.parent_of_mem_children stored listed storedRoot] at top
  cases top

/-- A node is in the child list of its parent. -/
theorem mem_children_of_parent (wellFormed : document.WellFormed) {parent child : Handle}
    {node : ContentNode} (stored : document.get? child = some node)
    (linked : node.parent = some parent) :
    ∃ above, document.get? parent = some above ∧ child ∈ above.children := by
  have below : child ≠ document.root := by
    rintro rfl
    obtain ⟨node', storedRoot, top⟩ := wellFormed.root_stored
    rw [stored] at storedRoot
    cases storedRoot
    rw [top] at linked
    cases linked
  obtain ⟨parent', above, linked', storedParent, listed⟩ := wellFormed.listed stored below
  rw [linked] at linked'
  cases linked'
  exact ⟨above, storedParent, listed⟩

theorem listed_of_parent (wellFormed : document.WellFormed) {parent child : Handle}
    {above node : ContentNode} (stored : document.get? child = some node)
    (linked : node.parent = some parent) (storedParent : document.get? parent = some above) :
    child ∈ above.children := by
  obtain ⟨above', storedParent', listed⟩ := wellFormed.mem_children_of_parent stored linked
  rw [storedParent] at storedParent'
  cases storedParent'
  exact listed

theorem contains_of_leads (wellFormed : document.WellFormed) {upper lower : Handle}
    (leads : document.Leads upper lower) (stored : document.contains upper = true) :
    document.contains lower = true := by
  rcases leads.eq_or_parent with rfl | ⟨parent, above, -, storedParent, listed⟩
  · exact stored
  · exact wellFormed.contains_child storedParent listed

theorem under_iff_leads (wellFormed : document.WellFormed) {upper lower : Handle}
    (stored : document.contains lower = true) :
    document.Under lower upper ↔ document.Leads upper lower := by
  constructor
  · intro under
    induction under with
    | self _ => exact .refl document _
    | above stored' linked _ ih =>
      obtain ⟨above, storedParent, listed⟩ := wellFormed.mem_children_of_parent stored' linked
      exact (ih (contains_of_get? storedParent)).trans (.step storedParent listed)
  · rintro ⟨steps, reached⟩
    induction steps generalizing lower with
    | zero =>
      have same := reached.eq_of_zero
      subst same
      exact .self stored
    | succ steps ih =>
      obtain ⟨parent, children, upper, known, listed⟩ := reached.last
      obtain ⟨above, storedParent, rfl⟩ := get?_of_childrenOf? known
      obtain ⟨node, storedChild, linked⟩ := wellFormed.linked storedParent listed
      exact .above storedChild linked (ih (contains_of_get? storedParent) upper)

theorem root_leads (wellFormed : document.WellFormed) {handle : Handle}
    (stored : document.contains handle = true) : document.Leads document.root handle :=
  (wellFormed.under_iff_leads stored).mp (wellFormed.grounded stored)

theorem steps_lt_size (wellFormed : document.WellFormed) {steps : Nat} {handle : Handle}
    (reached : Walk.Reaches document.childrenOf? steps document.root handle) :
    steps < document.size := by
  rw [size, ← ExtTreeMap.length_keys]
  apply wellFormed.rooted.steps_lt_length _ reached
  intro steps' met reached'
  rw [mem_keys_iff_contains]
  exact wellFormed.contains_of_leads ⟨steps', reached'⟩ wellFormed.contains_root

/-- The nodes bound every way down from a stored node. -/
theorem steps_lt_size_from (wellFormed : document.WellFormed) {steps : Nat}
    {upper lower : Handle} (stored : document.contains upper = true)
    (reached : Walk.Reaches document.childrenOf? steps upper lower) : steps < document.size := by
  obtain ⟨more, above⟩ := wellFormed.root_leads stored
  have bound := wellFormed.steps_lt_size (above.trans reached)
  omega

theorem descend_nodup (wellFormed : document.WellFormed) {handle : Handle} (depth : Nat)
    (stored : document.contains handle = true) : (document.descend depth handle).Nodup := by
  obtain ⟨steps, reached⟩ := wellFormed.root_leads stored
  rw [descend_eq_walk]
  exact wellFormed.rooted.nodup_descend reached

theorem below_eq_descend (wellFormed : document.WellFormed) {handle : Handle}
    (stored : document.contains handle = true) :
    document.below handle = document.descend document.size handle :=
  Lists.eraseDups_of_nodup (wellFormed.descend_nodup document.size stored)

theorem below_nodup (wellFormed : document.WellFormed) {handle : Handle}
    (stored : document.contains handle = true) : (document.below handle).Nodup := by
  rw [wellFormed.below_eq_descend stored]
  exact wellFormed.descend_nodup document.size stored

theorem mem_below (wellFormed : document.WellFormed) {upper lower : Handle}
    (stored : document.contains upper = true) :
    lower ∈ document.below upper ↔ document.Leads upper lower := by
  rw [wellFormed.below_eq_descend stored, descend_eq_walk, Walk.mem_descend, isSome_childrenOf?]
  constructor
  · rintro ⟨⟨steps, -, reached⟩, -⟩
    exact ⟨steps, reached⟩
  · rintro ⟨steps, reached⟩
    exact ⟨⟨steps, wellFormed.steps_lt_size_from stored reached, reached⟩,
      wellFormed.contains_of_leads ⟨steps, reached⟩ stored⟩

/-- Two nodes that lead to each other are the same. -/
theorem leads_antisymm (wellFormed : document.WellFormed) {upper lower : Handle}
    (stored : document.contains upper = true) (down : document.Leads upper lower)
    (up : document.Leads lower upper) : upper = lower := by
  obtain ⟨above, reached⟩ := wellFormed.root_leads stored
  obtain ⟨steps, down⟩ := down
  obtain ⟨more, up⟩ := up
  have same := wellFormed.rooted.steps_unique reached (reached.trans (down.trans up))
  obtain rfl : steps = 0 := by omega
  exact down.eq_of_zero

/-- Of two nodes that lead to a third, one leads to the other. -/
theorem leads_total (wellFormed : document.WellFormed) {left right lower : Handle}
    (first : document.Leads left lower) (second : document.Leads right lower) :
    document.Leads left right ∨ document.Leads right left := by
  obtain ⟨steps, first⟩ := first
  induction steps generalizing lower with
  | zero =>
    have same := first.eq_of_zero
    subst same
    exact .inr second
  | succ steps ih =>
    obtain ⟨parent, children, upper, known, listed⟩ := first.last
    obtain ⟨above, storedParent, rfl⟩ := get?_of_childrenOf? known
    rcases wellFormed.leads_of_child storedParent listed second with rfl | leads
    · exact .inl ⟨steps + 1, first⟩
    · exact ih leads upper

end WellFormed

end Accessibility.Document
