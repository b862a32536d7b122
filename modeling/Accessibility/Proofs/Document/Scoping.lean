import Accessibility.Document.Scoping
import Accessibility.Proofs.Document.Links

/-!
The scope of a node follows the links of a well-formed document: a shadow root begins a scope, and
every other node is in the scope of its parent.
-/

set_option autoImplicit false

namespace Accessibility.Document

variable {document : Document}

/-- A document as root is in no shadow tree. -/
theorem not_shadowRoot_root (top : document.kind? document.root = some .document) :
    document.isShadowRoot document.root = false := by
  rw [isShadowRoot, top]
  rfl

theorem encloses_self (document : Document) (scope : Scope) :
    document.encloses scope scope = true := by
  rw [encloses, enclosingScopes, ascendScopes, List.contains_iff_mem]
  exact List.mem_cons_self

namespace WellFormed

/-- A way down that has steps ends with one from the parent. -/
theorem last_step (wellFormed : document.WellFormed) {steps : Nat} {handle : Handle}
    (reached : Walk.Reaches document.childrenOf? (steps + 1) document.root handle) :
    ∃ parent node, Walk.Reaches document.childrenOf? steps document.root parent ∧
      document.get? handle = some node ∧ node.parent = some parent := by
  obtain ⟨parent, children, upper, known, listed⟩ := reached.last
  obtain ⟨above, stored, rfl⟩ := get?_of_childrenOf? known
  obtain ⟨node, storedChild, linked⟩ := wellFormed.linked stored listed
  exact ⟨parent, node, upper, storedChild, linked⟩

theorem ascend_eq (wellFormed : document.WellFormed) {steps : Nat} {handle : Handle}
    (reached : Walk.Reaches document.childrenOf? steps document.root handle) {height : Nat}
    (high : steps < height) :
    document.ascend height (some handle) = document.ascend (steps + 1) (some handle) := by
  induction steps generalizing handle height with
  | zero =>
    obtain ⟨height, rfl⟩ : ∃ less, height = less + 1 := ⟨height - 1, by omega⟩
    obtain ⟨top, stored, parentless⟩ := wellFormed.root_stored
    rw [← reached.eq_of_zero]
    simp only [ascend, stored, parentless]
    cases height <;> rfl
  | succ steps ih =>
    obtain ⟨height, rfl⟩ : ∃ less, height = less + 1 := ⟨height - 1, by omega⟩
    obtain ⟨parent, node, upper, stored, linked⟩ := wellFormed.last_step reached
    rw [ascend, ascend]
    simp only [stored, linked]
    rw [ih upper (Nat.lt_of_succ_lt_succ high)]

theorem lineage_of_parent (wellFormed : document.WellFormed) {handle parent : Handle}
    {node : ContentNode} (stored : document.get? handle = some node)
    (linked : node.parent = some parent) :
    document.lineage handle = handle :: document.lineage parent := by
  obtain ⟨steps, reached⟩ := wellFormed.root_leads (contains_of_get? stored)
  have bound := wellFormed.steps_lt_size reached
  cases steps with
  | zero =>
    obtain ⟨top, storedTop, parentless⟩ := wellFormed.root_stored
    rw [reached.eq_of_zero, stored] at storedTop
    cases storedTop
    rw [linked] at parentless
    cases parentless
  | succ steps =>
    obtain ⟨parent', node', upper, stored', linked'⟩ := wellFormed.last_step reached
    rw [stored] at stored'
    cases stored'
    rw [linked] at linked'
    cases linked'
    rw [lineage, wellFormed.ascend_eq reached bound, ascend]
    simp only [stored, linked]
    rw [lineage, wellFormed.ascend_eq upper (by omega : steps < document.size)]

theorem lineage_root (wellFormed : document.WellFormed) :
    document.lineage document.root = [document.root] := by
  obtain ⟨top, stored, parentless⟩ := wellFormed.root_stored
  have bound := wellFormed.steps_lt_size (.here document.root)
  rw [lineage, wellFormed.ascend_eq (.here document.root) bound]
  simp only [ascend, stored]

theorem mem_lineage (wellFormed : document.WellFormed) {upper lower : Handle}
    (stored : document.contains lower = true) :
    upper ∈ document.lineage lower ↔ document.Leads upper lower := by
  obtain ⟨steps, reached⟩ := wellFormed.root_leads stored
  induction steps generalizing lower with
  | zero =>
    rw [← reached.eq_of_zero, wellFormed.lineage_root, List.mem_singleton]
    constructor
    · rintro rfl
      exact .refl document _
    · intro leads
      rcases leads.eq_or_parent with same | ⟨parent, above, -, storedParent, listed⟩
      · exact same
      · exact absurd rfl (wellFormed.ne_root_of_child storedParent listed)
  | succ steps ih =>
    obtain ⟨parent, children, upperReached, known, listed⟩ := reached.last
    obtain ⟨above, storedParent, rfl⟩ := get?_of_childrenOf? known
    obtain ⟨node, storedLower, linked⟩ := wellFormed.linked storedParent listed
    rw [wellFormed.lineage_of_parent storedLower linked, List.mem_cons,
      ih (contains_of_get? storedParent) upperReached]
    constructor
    · rintro (rfl | leads)
      · exact .refl document _
      · exact leads.trans (.step storedParent listed)
    · exact wellFormed.leads_of_child storedParent listed

/-! ### Scopes -/

theorem lineage_cons (wellFormed : document.WellFormed) {handle : Handle} {node : ContentNode}
    (stored : document.get? handle = some node) :
    ∃ rest, document.lineage handle = handle :: rest := by
  cases linked : node.parent with
  | some parent => exact ⟨_, wellFormed.lineage_of_parent stored linked⟩
  | none =>
    by_cases top : handle = document.root
    · subst top
      exact ⟨[], wellFormed.lineage_root⟩
    · obtain ⟨parent, above, linked', -⟩ := wellFormed.listed stored top
      rw [linked] at linked'
      cases linked'

theorem scopeOf_shadowRoot (wellFormed : document.WellFormed) {handle : Handle}
    (isRoot : document.isShadowRoot handle = true) :
    document.scopeOf handle = .shadow handle := by
  have stored : ∃ node, document.get? handle = some node := by
    rw [isShadowRoot, kind?] at isRoot
    cases stored : document.get? handle with
    | none =>
      rw [stored] at isRoot
      cases isRoot
    | some node => exact ⟨node, rfl⟩
  obtain ⟨node, stored⟩ := stored
  obtain ⟨rest, lineage⟩ := wellFormed.lineage_cons stored
  rw [scopeOf, lineage, List.find?_cons_of_pos isRoot]

theorem scopeOf_child (wellFormed : document.WellFormed) {handle parent : Handle}
    {node : ContentNode} (stored : document.get? handle = some node)
    (linked : node.parent = some parent) (plain : document.isShadowRoot handle = false) :
    document.scopeOf handle = document.scopeOf parent := by
  rw [scopeOf, wellFormed.lineage_of_parent stored linked, List.find?_cons_of_neg (by simp [plain]),
    scopeOf]

/-- The root of the scope of a node is a shadow root that the node is below. -/
theorem leads_of_scopeOf (wellFormed : document.WellFormed) {handle root : Handle}
    (stored : document.contains handle = true) (scope : document.scopeOf handle = .shadow root) :
    document.isShadowRoot root = true ∧ document.Leads root handle := by
  rw [scopeOf] at scope
  split at scope
  · rename_i found first
    cases scope
    exact ⟨List.find?_some first, (wellFormed.mem_lineage stored).mp (List.mem_of_find?_eq_some first)⟩
  · cases scope

end WellFormed

end Accessibility.Document
