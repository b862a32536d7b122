import Accessibility.Proofs.Document.Links

/-!
Removing a node from a well-formed document takes away exactly the nodes that it leads to, and its
place in the child list of its parent.
-/

set_option autoImplicit false

namespace Accessibility

/-- The node after another one left its child list. -/
def ContentNode.without (node : ContentNode) (handle : Handle) : ContentNode :=
  { node with children := node.children.filter (· != handle) }

theorem ContentNode.without_of_not_mem {node : ContentNode} {handle : Handle}
    (absent : handle ∉ node.children) : node.without handle = node := by
  have kept : node.children.filter (· != handle) = node.children := by
    rw [List.filter_eq_self]
    intro child listed
    simpa using fun same : child = handle => absent (same ▸ listed)
  rw [without, kept]

theorem ContentNode.mem_children_without {node : ContentNode} {handle child : Handle} :
    child ∈ (node.without handle).children ↔ child ∈ node.children ∧ child ≠ handle := by
  simp [without]

namespace Document

open Std

theorem size_modify (document : Document) (handle : Handle) (change : ContentNode → ContentNode) :
    (document.modify handle change).size = document.size := by
  rw [size, modify, ExtTreeMap.size_modify, size]

theorem get?_erase (document : Document) (handle other : Handle) :
    (document.erase handle).get? other = if handle = other then none else document.get? other := by
  simp [erase, get?, ExtTreeMap.getElem?_erase]

theorem get?_foldl_erase (handles : List Handle) (document : Document) (other : Handle) :
    (handles.foldl erase document).get? other =
      if other ∈ handles then none else document.get? other := by
  induction handles generalizing document with
  | nil => simp
  | cons handle rest ih =>
    rw [List.foldl_cons, ih, get?_erase]
    by_cases later : other ∈ rest
    · simp [later]
    · by_cases same : handle = other
      · simp [same]
      · simp [later, same, Ne.symm same]

theorem root_foldl_erase (handles : List Handle) (document : Document) :
    (handles.foldl erase document).root = document.root := by
  induction handles generalizing document with
  | nil => rfl
  | cons handle rest ih => exact ih (document.erase handle)

theorem root_unlink (document : Document) (handle : Handle) (node : ContentNode) :
    (document.unlink handle node).root = document.root := by
  unfold unlink
  split <;> rfl

theorem size_unlink (document : Document) (handle : Handle) (node : ContentNode) :
    (document.unlink handle node).size = document.size := by
  unfold unlink
  split
  · rfl
  · rw [size_modify]

theorem remove_root (document : Document) :
    document.remove document.root = .done document [] := by
  simp only [remove, ↓reduceIte]

theorem remove_of_not_contains {document : Document} {handle : Handle}
    (absent : document.contains handle = false) :
    (document.remove handle).state = document := by
  unfold remove
  split
  · rfl
  · rw [get?_eq_none_of_not_contains absent]
    rfl

/-- A removal of the root or of a node that is not stored does nothing. -/
theorem remove_cases (document : Document) (handle : Handle) :
    (handle = document.root ∨ document.contains handle = false) ∧
        (document.remove handle).state = document ∨
      document.contains handle = true ∧ handle ≠ document.root := by
  by_cases atRoot : handle = document.root
  · exact .inl ⟨.inl atRoot, by rw [atRoot, remove_root]; rfl⟩
  · cases stored : document.contains handle with
    | false => exact .inl ⟨.inr rfl, remove_of_not_contains stored⟩
    | true => exact .inr ⟨rfl, atRoot⟩

theorem root_remove (document : Document) (handle : Handle) :
    (document.remove handle).state.root = document.root := by
  unfold remove
  split
  · rfl
  · split
    · rfl
    · exact (root_foldl_erase _ _).trans (root_unlink _ _ _)

namespace WellFormed

variable {document : Document} {handle : Handle}

theorem not_leads_to_parent (wellFormed : document.WellFormed) {parent child : Handle}
    {above : ContentNode} (stored : document.get? parent = some above)
    (listed : child ∈ above.children) : ¬ document.Leads child parent := by
  rintro ⟨steps, reached⟩
  obtain ⟨depth, upper⟩ := wellFormed.root_leads (contains_of_get? stored)
  have longer := (upper.snoc (childrenOf?_of_get? stored) listed).trans reached
  have same := wellFormed.rooted.steps_unique upper longer
  omega

theorem get?_unlink (wellFormed : document.WellFormed) {node : ContentNode}
    (stored : document.get? handle = some node) (below : handle ≠ document.root)
    (other : Handle) :
    (document.unlink handle node).get? other =
      (document.get? other).map (·.without handle) := by
  obtain ⟨parent, above, linked, -, -⟩ := wellFormed.listed stored below
  rw [unlink, linked]
  dsimp only
  rw [get?_modify]
  by_cases same : parent = other
  · subst same
    rw [if_pos rfl]
    rfl
  · rw [if_neg same]
    cases storedOther : document.get? other with
    | none => rfl
    | some node' =>
      have absent : handle ∉ node'.children := by
        intro listed
        have linked' := wellFormed.parent_of_mem_children storedOther listed stored
        rw [linked] at linked'
        exact same (Option.some.inj linked')
      rw [Option.map_some, ContentNode.without_of_not_mem absent]

theorem below_unlink (wellFormed : document.WellFormed) {node : ContentNode}
    (stored : document.get? handle = some node) (below : handle ≠ document.root) :
    (document.unlink handle node).below handle = document.below handle := by
  unfold Document.below
  rw [size_unlink, descend_eq_walk, descend_eq_walk]
  congr 1
  apply Walk.descend_congr
  intro steps target reached
  rw [childrenOf?, wellFormed.get?_unlink stored below, Option.map_map, childrenOf?]
  cases storedTarget : document.get? target with
  | none => rfl
  | some node' =>
    have absent : handle ∉ node'.children := by
      intro listed
      exact wellFormed.not_leads_to_parent storedTarget listed ⟨steps, reached⟩
    rw [Option.map_some, Function.comp_apply, ContentNode.without_of_not_mem absent,
      Option.map_some]

theorem answer_remove (wellFormed : document.WellFormed)
    (stored : document.contains handle = true) (below : handle ≠ document.root) :
    (document.remove handle).answer = .ok (document.below handle) := by
  obtain ⟨node, stored⟩ := exists_of_contains stored
  simp only [remove, below, ↓reduceIte, stored, Outcome.done]
  rw [wellFormed.below_unlink stored below]

theorem get?_remove (wellFormed : document.WellFormed)
    (stored : document.contains handle = true) (below : handle ≠ document.root)
    (other : Handle) :
    (document.remove handle).state.get? other =
      if other ∈ document.below handle then none
      else (document.get? other).map (·.without handle) := by
  obtain ⟨node, stored⟩ := exists_of_contains stored
  simp only [remove, below, ↓reduceIte, stored, Outcome.done]
  rw [get?_foldl_erase, wellFormed.below_unlink stored below, wellFormed.get?_unlink stored below]

theorem get?_remove_of_leads (wellFormed : document.WellFormed)
    (stored : document.contains handle = true) (below : handle ≠ document.root)
    {other : Handle} (leads : document.Leads handle other) :
    (document.remove handle).state.get? other = none := by
  rw [wellFormed.get?_remove stored below, if_pos ((wellFormed.mem_below stored).mpr leads)]

theorem get?_remove_of_not_leads (wellFormed : document.WellFormed)
    (stored : document.contains handle = true) (below : handle ≠ document.root)
    {other : Handle} (apart : ¬ document.Leads handle other) :
    (document.remove handle).state.get? other =
      (document.get? other).map (·.without handle) := by
  rw [wellFormed.get?_remove stored below,
    if_neg (fun listed => apart ((wellFormed.mem_below stored).mp listed))]

theorem contains_remove (wellFormed : document.WellFormed)
    (stored : document.contains handle = true) (below : handle ≠ document.root)
    (other : Handle) :
    (document.remove handle).state.contains other = true ↔
      document.contains other = true ∧ ¬ document.Leads handle other := by
  by_cases leads : document.Leads handle other
  · simp [contains_eq_isSome_get?, wellFormed.get?_remove_of_leads stored below leads, leads]
  · simp [contains_eq_isSome_get?, wellFormed.get?_remove_of_not_leads stored below leads, leads]

/-- What is left after a removal, in terms of the document before. -/
theorem get?_remove_eq_some (wellFormed : document.WellFormed)
    (stored : document.contains handle = true) (below : handle ≠ document.root)
    {other : Handle} {node : ContentNode} :
    (document.remove handle).state.get? other = some node ↔
      ¬ document.Leads handle other ∧
        ∃ before, document.get? other = some before ∧ before.without handle = node := by
  by_cases leads : document.Leads handle other
  · simp [wellFormed.get?_remove_of_leads stored below leads, leads]
  · simp [wellFormed.get?_remove_of_not_leads stored below leads, leads]

theorem not_leads_parent (wellFormed : document.WellFormed) {parent child : Handle}
    {above : ContentNode} (storedParent : document.get? parent = some above)
    (listed : child ∈ above.children) (differ : child ≠ handle)
    (apart : ¬ document.Leads handle parent) : ¬ document.Leads handle child := by
  intro leads
  rcases leads.eq_or_parent with same | ⟨parent', above', leads', storedParent', listed'⟩
  · exact differ same.symm
  · obtain ⟨node, storedChild, linked⟩ := wellFormed.linked storedParent listed
    have linked' := wellFormed.parent_of_mem_children storedParent' listed' storedChild
    rw [linked] at linked'
    cases linked'
    exact apart leads'

theorem not_leads_root (wellFormed : document.WellFormed)
    (stored : document.contains handle = true) (below : handle ≠ document.root) :
    ¬ document.Leads handle document.root := by
  intro leads
  exact below (wellFormed.leads_antisymm stored leads (wellFormed.root_leads stored))

protected theorem remove (wellFormed : document.WellFormed) (handle : Handle) :
    (document.remove handle).state.WellFormed := by
  rcases document.remove_cases handle with ⟨-, same⟩ | ⟨stored, atRoot⟩
  · rw [same]
    exact wellFormed
  refine ⟨?_, ?_, ?_, ?_, ?_⟩
  · obtain ⟨node, storedRoot, top⟩ := wellFormed.root_stored
    refine ⟨node.without handle, ?_, top⟩
    rw [root_remove, wellFormed.get?_remove_eq_some stored atRoot]
    exact ⟨wellFormed.not_leads_root stored atRoot, node, storedRoot, rfl⟩
  · intro other node storedOther inner
    rw [root_remove] at inner
    obtain ⟨apart, before, storedBefore, rfl⟩ :=
      (wellFormed.get?_remove_eq_some stored atRoot).mp storedOther
    obtain ⟨parent, above, linked, storedParent, listed⟩ := wellFormed.listed storedBefore inner
    refine ⟨parent, above.without handle, linked, ?_, ?_⟩
    · rw [wellFormed.get?_remove_eq_some stored atRoot]
      refine ⟨fun leads => apart (leads.trans (.step storedParent listed)), above, storedParent, rfl⟩
    · refine ContentNode.mem_children_without.mpr ⟨listed, ?_⟩
      rintro rfl
      exact apart (.refl document other)
  · intro parent child above storedParent listed
    obtain ⟨apart, before, storedBefore, rfl⟩ :=
      (wellFormed.get?_remove_eq_some stored atRoot).mp storedParent
    obtain ⟨listed, differ⟩ := ContentNode.mem_children_without.mp listed
    obtain ⟨node, storedChild, linked⟩ := wellFormed.linked storedBefore listed
    refine ⟨node.without handle, ?_, linked⟩
    rw [wellFormed.get?_remove_eq_some stored atRoot]
    exact ⟨wellFormed.not_leads_parent storedBefore listed differ apart, node, storedChild, rfl⟩
  · intro parent above storedParent
    obtain ⟨-, before, storedBefore, rfl⟩ :=
      (wellFormed.get?_remove_eq_some stored atRoot).mp storedParent
    exact (wellFormed.nodup storedBefore).filter _
  · intro other storedOther
    rw [root_remove]
    have kept : ∀ {lower upper : Handle}, document.Under lower upper →
        (document.remove handle).state.contains lower = true →
        (document.remove handle).state.Under lower upper := by
      intro lower upper under
      induction under with
      | self _ => exact .self
      | @above child parent ancestor node storedChild linked _ ih =>
        intro keptChild
        obtain ⟨-, apart⟩ := (wellFormed.contains_remove stored atRoot child).mp keptChild
        obtain ⟨above, storedParent, listed⟩ := wellFormed.mem_children_of_parent storedChild linked
        have keptParent := (wellFormed.contains_remove stored atRoot parent).mpr
          ⟨contains_of_get? storedParent, fun leads => apart (leads.trans (.step storedParent listed))⟩
        have storedAfter : (document.remove handle).state.get? child = some (node.without handle) := by
          rw [wellFormed.get?_remove_eq_some stored atRoot]
          exact ⟨apart, node, storedChild, rfl⟩
        exact .above storedAfter linked (ih keptParent)
    obtain ⟨storedBefore, -⟩ := (wellFormed.contains_remove stored atRoot other).mp storedOther
    exact kept (wellFormed.grounded storedBefore) storedOther

theorem not_contains_remove (wellFormed : document.WellFormed) (below : handle ≠ document.root) :
    (document.remove handle).state.contains handle = false := by
  by_cases absent : document.contains handle = false
  · rw [remove_of_not_contains absent, absent]
  · rw [← Bool.not_eq_true, wellFormed.contains_remove (by simpa using absent) below]
    exact fun kept => kept.2 (.refl document handle)

/-- Among the nodes that stay, a removal changes no way down. -/
theorem leads_remove (wellFormed : document.WellFormed)
    (stored : document.contains handle = true) (below : handle ≠ document.root)
    {upper lower : Handle} (kept : ¬ document.Leads handle lower) :
    (document.remove handle).state.Leads upper lower ↔ document.Leads upper lower := by
  constructor
  · rintro ⟨steps, reached⟩
    clear kept
    induction steps generalizing lower with
    | zero =>
      have same := reached.eq_of_zero
      subst same
      exact .refl document upper
    | succ steps ih =>
      obtain ⟨parent, children, rest, known, listed⟩ := reached.last
      obtain ⟨above, storedParent, rfl⟩ := get?_of_childrenOf? known
      obtain ⟨-, before, storedBefore, rfl⟩ :=
        (wellFormed.get?_remove_eq_some stored below).mp storedParent
      exact (ih rest).trans (.step storedBefore (ContentNode.mem_children_without.mp listed).1)
  · rintro ⟨steps, reached⟩
    induction steps generalizing lower with
    | zero =>
      have same := reached.eq_of_zero
      subst same
      exact .refl _ upper
    | succ steps ih =>
      obtain ⟨parent, children, rest, known, listed⟩ := reached.last
      obtain ⟨above, storedParent, rfl⟩ := get?_of_childrenOf? known
      have apart : ¬ document.Leads handle parent := by
        intro leads
        exact kept (leads.trans (.step storedParent listed))
      have storedAfter : (document.remove handle).state.get? parent =
          some (above.without handle) :=
        (wellFormed.get?_remove_eq_some stored below).mpr ⟨apart, above, storedParent, rfl⟩
      refine (ih apart rest).trans (.step storedAfter ?_)
      refine ContentNode.mem_children_without.mpr ⟨listed, ?_⟩
      rintro rfl
      exact kept (.refl document lower)

end WellFormed

end Document

end Accessibility
