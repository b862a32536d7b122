import Accessibility.Proofs.Document.Alike

/-!
A removal set against another edit. What an edit does below the removed node is lost with it; any
other edit can as well come after the removal.
-/

set_option autoImplicit false

namespace Accessibility

theorem ContentNode.without_comm (node : ContentNode) (first second : Handle) :
    (node.without first).without second = (node.without second).without first := by
  simp only [without, List.filter_filter, Bool.and_comm]

namespace Document

theorem filter_insertAt {α : Type} (index : Nat) (value : α) (values : List α) (keeps : α → Bool)
    (left : keeps value = false) :
    (insertAt index value values).filter keeps = values.filter keeps := by
  have parts := congrArg (List.filter keeps) (List.take_append_drop index values)
  rw [List.filter_append] at parts
  rw [insertAt, List.filter_append, List.filter_cons_of_neg (by simp [left]), parts]

namespace Attachable

variable {document : Document} {parent : Handle} {subtree : Subtree}

/-- An attached subtree gives the nodes from before nothing new below them but itself. -/
theorem leads_of_stored (wellFormed : document.WellFormed)
    (attachable : document.Attachable parent subtree) (index : Nat) {upper lower : Handle}
    (stored : document.contains lower = true) :
    (document.attach parent index subtree).Leads upper lower ↔ document.Leads upper lower := by
  constructor
  · rintro ⟨steps, reached⟩
    induction steps generalizing lower with
    | zero =>
      have same := reached.eq_of_zero
      subst same
      exact .refl document upper
    | succ steps ih =>
      obtain ⟨above, children, rest, known, listed⟩ := reached.last
      obtain ⟨node, storedAbove, rfl⟩ := get?_of_childrenOf? known
      have absent := attachable.not_mem_handles stored
      rcases attachable.entry_or_stored storedAbove with entered | ⟨-, storedBefore⟩
      · obtain ⟨_, entered', -⟩ := Subtree.entry_of_child entered listed
        exact absurd (Subtree.mem_handles_of_entry entered') absent
      · rcases attachable.mem_children_before storedBefore storedAbove listed with
          ⟨before, storedBefore', listed'⟩ | ⟨-, same⟩
        · exact (ih storedBefore rest).trans (.step storedBefore' listed')
        · exact absurd (same ▸ subtree.handle_mem_handles) absent
  · intro leads
    have under := (wellFormed.under_iff_leads stored).mpr leads
    have storedAfter := (attachable.contains_attach index lower).mpr (.inr stored)
    exact ((wellFormed.attach attachable index).under_iff_leads storedAfter).mp
      (attachable.under_attach index under)

theorem ne_root (wellFormed : document.WellFormed)
    (attachable : document.Attachable parent subtree) (index : Nat) :
    subtree.handle ≠ (document.attach parent index subtree).root := by
  intro same
  rw [root_attach] at same
  exact attachable.not_mem_handles wellFormed.contains_root (same ▸ subtree.handle_mem_handles)

theorem leads_handle (wellFormed : document.WellFormed)
    (attachable : document.Attachable parent subtree) (index : Nat) {lower : Handle}
    (mentioned : lower ∈ subtree.handles) :
    (document.attach parent index subtree).Leads subtree.handle lower :=
  ((wellFormed.attach attachable index).under_iff_leads
    ((attachable.contains_attach index lower).mpr (.inl mentioned))).mp
    (attachable.under_handle index mentioned)

/-- From the topmost node of a subtree, child lists lead to the nodes of the subtree only. -/
theorem mem_handles_of_leads (attachable : document.Attachable parent subtree) (index : Nat)
    {upper lower : Handle} (mentioned : upper ∈ subtree.handles)
    (leads : (document.attach parent index subtree).Leads upper lower) :
    lower ∈ subtree.handles := by
  obtain ⟨steps, reached⟩ := leads
  induction steps generalizing lower with
  | zero => exact reached.eq_of_zero ▸ mentioned
  | succ steps ih =>
    obtain ⟨above, children, rest, known, listed⟩ := reached.last
    obtain ⟨node, storedAbove, rfl⟩ := get?_of_childrenOf? known
    obtain ⟨node', entered⟩ := Subtree.exists_entry (some parent) (ih rest)
    rw [attachable.get?_of_entry index entered] at storedAbove
    cases storedAbove
    obtain ⟨_, entered', -⟩ := Subtree.entry_of_child entered listed
    exact Subtree.mem_handles_of_entry entered'

/-- A node from before leads to the nodes of the subtree if it leads to its parent. -/
theorem leads_of_mem (wellFormed : document.WellFormed)
    (attachable : document.Attachable parent subtree) (index : Nat) {upper lower : Handle}
    (stored : document.contains upper = true) (mentioned : lower ∈ subtree.handles) :
    (document.attach parent index subtree).Leads upper lower ↔ document.Leads upper parent := by
  have after := wellFormed.attach attachable index
  have toParent : (document.attach parent index subtree).Leads upper parent ↔
      document.Leads upper parent :=
    attachable.leads_of_stored wellFormed index attachable.parent_stored
  constructor
  · intro leads
    rw [← toParent]
    rcases after.leads_total leads (attachable.leads_handle wellFormed index mentioned) with
      down | up
    · rcases down.eq_or_parent with same | ⟨above, node, leads', storedAbove, listed⟩
      · exact absurd (same ▸ subtree.handle_mem_handles) (attachable.not_mem_handles stored)
      · have linked := after.parent_of_mem_children storedAbove listed
          (attachable.get?_of_entry index (subtree.topmost_entry (some parent)))
        cases linked
        exact leads'
    · exact absurd (attachable.mem_handles_of_leads index subtree.handle_mem_handles up)
        (attachable.not_mem_handles stored)
  · intro leads
    have under := attachable.under_parent index mentioned
    have storedAfter := (attachable.contains_attach index lower).mpr (.inl mentioned)
    exact (toParent.mpr leads).trans ((after.under_iff_leads storedAfter).mp under)

end Attachable

namespace WellFormed

variable {document : Document} {handle : Handle}

theorem without_of_get? (wellFormed : document.WellFormed) {other : Handle} {node : ContentNode}
    (absent : document.contains handle = false) (stored : document.get? other = some node) :
    node.without handle = node := by
  apply ContentNode.without_of_not_mem
  intro listed
  rw [wellFormed.contains_child stored listed] at absent
  cases absent

/-- A subtree that is removed as soon as it is attached leaves no trace. -/
theorem remove_attach (wellFormed : document.WellFormed) {parent : Handle} {subtree : Subtree}
    (attachable : document.Attachable parent subtree) (index : Nat) :
    ((document.attach parent index subtree).remove subtree.handle).state = document := by
  have after := wellFormed.attach attachable index
  have fresh := attachable.fresh subtree.handle subtree.handle_mem_handles
  have stored := (attachable.contains_attach index subtree.handle).mpr
    (.inl subtree.handle_mem_handles)
  have below := attachable.ne_root wellFormed index
  refine ext_get? (by rw [root_remove, root_attach]) fun other => ?_
  by_cases mentioned : other ∈ subtree.handles
  · rw [after.get?_remove_of_leads stored below
      (attachable.leads_handle wellFormed index mentioned),
      get?_eq_none_of_not_contains (attachable.fresh other mentioned)]
  · rw [after.get?_remove_of_not_leads stored below fun leads =>
      mentioned (attachable.mem_handles_of_leads index subtree.handle_mem_handles leads)]
    cases storedOther : document.get? other with
    | none =>
      by_cases here : other = parent
      · have contrary := attachable.parent_stored
        rw [← here, contains_eq_isSome_get?, storedOther] at contrary
        cases contrary
      · rw [Attachable.get?_of_ne index mentioned here, storedOther, Option.map_none]
    | some node =>
      have unlisted := wellFormed.without_of_get? fresh storedOther
      by_cases here : other = parent
      · subst here
        rw [attachable.get?_parent, storedOther, Option.map_some, Option.map_some]
        congr 1
        rw [ContentNode.without]
        dsimp only
        rw [filter_insertAt _ _ _ _ (by simp)]
        exact unlisted
      · rw [Attachable.get?_of_ne index mentioned here, storedOther, Option.map_some, unlisted]

/-- What is attached below a node is lost with it. -/
theorem remove_attach_below (wellFormed : document.WellFormed) {parent : Handle}
    {subtree : Subtree} (attachable : document.Attachable parent subtree) (index : Nat)
    (stored : document.contains handle = true) (below : handle ≠ document.root)
    (leads : document.Leads handle parent) :
    ((document.attach parent index subtree).remove handle).state =
      (document.remove handle).state := by
  have after := wellFormed.attach attachable index
  have storedAfter := (attachable.contains_attach index handle).mpr (.inr stored)
  refine ext_get? (by rw [root_remove, root_remove, root_attach]) fun other => ?_
  by_cases mentioned : other ∈ subtree.handles
  · have fresh := get?_eq_none_of_not_contains (attachable.fresh other mentioned)
    rw [after.get?_remove_of_leads storedAfter below
      ((attachable.leads_of_mem wellFormed index stored mentioned).mpr leads),
      wellFormed.get?_remove stored below, fresh]
    simp
  · by_cases inside : document.Leads handle other
    · have storedOther := wellFormed.contains_of_leads inside stored
      rw [after.get?_remove_of_leads storedAfter below
        ((attachable.leads_of_stored wellFormed index storedOther).mpr inside),
        wellFormed.get?_remove_of_leads stored below inside]
    · have here : other ≠ parent := by
        rintro rfl
        exact inside leads
      have same : (document.attach parent index subtree).get? other = document.get? other :=
        Attachable.get?_of_ne index mentioned here
      rw [wellFormed.get?_remove_of_not_leads stored below inside, ← same]
      by_cases insideAfter : (document.attach parent index subtree).Leads handle other
      · rw [after.get?_remove_of_leads storedAfter below insideAfter]
        cases storedOther : document.get? other with
        | none => rw [same, storedOther, Option.map_none]
        | some node =>
          exact absurd ((attachable.leads_of_stored wellFormed index
            (contains_of_get? storedOther)).mp insideAfter) inside
      · rw [after.get?_remove_of_not_leads storedAfter below insideAfter]

/-- What can be attached can be attached when a node is gone that is not above. -/
theorem attachable_remove (wellFormed : document.WellFormed) {parent : Handle} {subtree : Subtree}
    (attachable : document.Attachable parent subtree) (stored : document.contains handle = true)
    (below : handle ≠ document.root) (apart : ¬ document.Leads handle parent) :
    (document.remove handle).state.Attachable parent subtree := by
  refine ⟨?_, attachable.distinct, ?_⟩
  · exact (wellFormed.contains_remove stored below parent).mpr ⟨attachable.parent_stored, apart⟩
  · intro other mentioned
    rw [← Bool.not_eq_true, wellFormed.contains_remove stored below]
    intro kept
    rw [attachable.fresh other mentioned] at kept
    cases kept.1

/-- What is attached apart from a node, and not beside it, can as well be attached once the node is
removed. -/
theorem remove_attach_apart (wellFormed : document.WellFormed) {parent : Handle}
    {subtree : Subtree} (attachable : document.Attachable parent subtree) (index : Nat)
    (stored : document.contains handle = true) (below : handle ≠ document.root)
    (apart : ¬ document.Leads handle parent)
    (beside : ∀ above, document.get? parent = some above → handle ∉ above.children) :
    (document.remove handle).state.Attachable parent subtree ∧
      ((document.attach parent index subtree).remove handle).state =
        (document.remove handle).state.attach parent index subtree := by
  have after := wellFormed.attach attachable index
  have storedAfter := (attachable.contains_attach index handle).mpr (.inr stored)
  have attachableAfter := wellFormed.attachable_remove attachable stored below apart
  refine ⟨attachableAfter, ext_get? (by simp only [root_remove, root_attach]) fun other => ?_⟩
  by_cases mentioned : other ∈ subtree.handles
  · obtain ⟨node, entered⟩ := Subtree.exists_entry (some parent) mentioned
    have outside : ¬ (document.attach parent index subtree).Leads handle other := by
      rw [attachable.leads_of_mem wellFormed index stored mentioned]
      exact apart
    have unlisted : handle ∉ node.children := by
      intro listed
      obtain ⟨_, entered', -⟩ := Subtree.entry_of_child entered listed
      exact attachable.not_mem_handles stored (Subtree.mem_handles_of_entry entered')
    rw [after.get?_remove_of_not_leads storedAfter below outside,
      attachable.get?_of_entry index entered, attachableAfter.get?_of_entry index entered,
      Option.map_some, ContentNode.without_of_not_mem unlisted]
  by_cases inside : document.Leads handle other
  · have storedOther := wellFormed.contains_of_leads inside stored
    have here : other ≠ parent := by
      rintro rfl
      exact apart inside
    rw [after.get?_remove_of_leads storedAfter below
      ((attachable.leads_of_stored wellFormed index storedOther).mpr inside),
      Attachable.get?_of_ne index mentioned here,
      wellFormed.get?_remove_of_leads stored below inside]
  by_cases here : other = parent
  · subst here
    obtain ⟨above, storedParent⟩ := exists_of_contains attachable.parent_stored
    have unlisted := beside above storedParent
    have differ : handle ≠ subtree.handle := by
      rintro rfl
      exact attachable.not_mem_handles stored subtree.handle_mem_handles
    have unlistedAfter : handle ∉ insertAt index subtree.handle above.children := by
      rw [mem_insertAt, not_or]
      exact ⟨differ, unlisted⟩
    rw [after.get?_remove_of_not_leads storedAfter below
        (fun leads => apart ((attachable.leads_of_stored wellFormed index
          attachable.parent_stored).mp leads)),
      attachable.get?_parent, attachableAfter.get?_parent,
      wellFormed.get?_remove_of_not_leads stored below apart, storedParent]
    simp only [Option.map_some]
    rw [ContentNode.without_of_not_mem unlisted, ContentNode.without_of_not_mem unlistedAfter]
  · have outside : ¬ (document.attach parent index subtree).Leads handle other ∨
        document.get? other = none := by
      cases storedOther : document.get? other with
      | none => exact .inr rfl
      | some node =>
        rw [attachable.leads_of_stored wellFormed index (contains_of_get? storedOther)]
        exact .inl inside
    rw [Attachable.get?_of_ne index mentioned here,
      wellFormed.get?_remove_of_not_leads stored below inside]
    rcases outside with outside | absent
    · rw [after.get?_remove_of_not_leads storedAfter below outside,
        Attachable.get?_of_ne index mentioned here]
    · rw [after.get?_remove storedAfter below, Attachable.get?_of_ne index mentioned here, absent]
      simp

/-- What two removals leave, in terms of the document before both. -/
theorem get?_remove_remove (wellFormed : document.WellFormed)
    (stored : document.contains handle = true) (below : handle ≠ document.root)
    {other : Handle} (storedOther : document.contains other = true)
    (belowOther : other ≠ document.root) (apart : ¬ document.Leads handle other)
    {third : Handle} {node : ContentNode} :
    ((document.remove handle).state.remove other).state.get? third = some node ↔
      (¬ document.Leads handle third ∧ ¬ document.Leads other third) ∧
        ∃ before, document.get? third = some before ∧
          (before.without handle).without other = node := by
  have after := wellFormed.remove handle
  have storedAfter := (wellFormed.contains_remove stored below other).mpr ⟨storedOther, apart⟩
  rw [after.get?_remove_eq_some storedAfter (by rwa [root_remove])]
  constructor
  · rintro ⟨outside, between, storedBetween, rfl⟩
    obtain ⟨outsideFirst, before, storedBefore, rfl⟩ :=
      (wellFormed.get?_remove_eq_some stored below).mp storedBetween
    rw [wellFormed.leads_remove stored below outsideFirst] at outside
    exact ⟨⟨outsideFirst, outside⟩, before, storedBefore, rfl⟩
  · rintro ⟨⟨outsideFirst, outside⟩, before, storedBefore, rfl⟩
    rw [wellFormed.leads_remove stored below outsideFirst]
    refine ⟨outside, before.without handle, ?_, rfl⟩
    exact (wellFormed.get?_remove_eq_some stored below).mpr
      ⟨outsideFirst, before, storedBefore, rfl⟩

/-- Removals of nodes apart from each other can change places. -/
theorem remove_comm (wellFormed : document.WellFormed) {other : Handle}
    (stored : document.contains handle = true) (below : handle ≠ document.root)
    (storedOther : document.contains other = true) (belowOther : other ≠ document.root)
    (apart : ¬ document.Leads handle other) (apart' : ¬ document.Leads other handle) :
    ((document.remove handle).state.remove other).state =
      ((document.remove other).state.remove handle).state := by
  refine ext_get? (by simp only [root_remove]) fun third => Option.ext fun node => ?_
  rw [wellFormed.get?_remove_remove stored below storedOther belowOther apart,
    wellFormed.get?_remove_remove storedOther belowOther stored below apart',
    and_comm (a := ¬ document.Leads handle third)]
  simp only [ContentNode.without_comm _ handle other]

/-- A removal below a node is lost with the node. -/
theorem remove_remove_below (wellFormed : document.WellFormed) {other : Handle}
    (stored : document.contains handle = true) (below : handle ≠ document.root)
    (leads : document.Leads handle other) (differ : other ≠ handle) :
    ((document.remove other).state.remove handle).state = (document.remove handle).state := by
  have storedOther := wellFormed.contains_of_leads leads stored
  have belowOther : other ≠ document.root := by
    rintro rfl
    exact wellFormed.not_leads_root stored below leads
  have apart : ¬ document.Leads other handle := by
    intro back
    exact differ (wellFormed.leads_antisymm stored leads back).symm
  refine ext_get? (by simp only [root_remove]) fun third => Option.ext fun node => ?_
  rw [wellFormed.get?_remove_remove storedOther belowOther stored below apart,
    wellFormed.get?_remove_eq_some stored below]
  have unlisted : ∀ before, document.get? third = some before → ¬ document.Leads handle third →
      before.without other = before := by
    intro before storedBefore outside
    apply ContentNode.without_of_not_mem
    intro listed
    exact wellFormed.not_leads_parent storedBefore listed differ outside leads
  constructor
  · rintro ⟨⟨-, outside⟩, before, storedBefore, rfl⟩
    rw [unlisted before storedBefore outside]
    exact ⟨outside, before, storedBefore, rfl⟩
  · rintro ⟨outside, before, storedBefore, rfl⟩
    refine ⟨⟨fun inside => outside (leads.trans inside), outside⟩, before, storedBefore, ?_⟩
    rw [unlisted before storedBefore outside]

end WellFormed

theorem IsDataChange.without {change : ContentNode → ContentNode} (data : IsDataChange change)
    (node : ContentNode) (handle : Handle) :
    change (node.without handle) = (change node).without handle := by
  rw [ContentNode.without, data.children, ContentNode.without, ← (data.links node).children]

namespace WellFormed

variable {document : Document} {handle : Handle}

protected theorem update (wellFormed : document.WellFormed) {change : ContentNode → ContentNode}
    (data : IsDataChange change) (handle : Handle) :
    (document.update handle change).state.WellFormed :=
  (data.alike document handle).wellFormed wellFormed

/-- A change of data below a node is lost with the node; any other can as well come after its
removal. -/
theorem remove_update (wellFormed : document.WellFormed) {change : ContentNode → ContentNode}
    (data : IsDataChange change) {target : Handle} (stored : document.contains handle = true)
    (below : handle ≠ document.root) :
    ((document.update target change).state.remove handle).state =
      ((document.remove handle).state.update target change).state := by
  have alike := data.alike document target
  have after := wellFormed.update data target
  have storedAfter := (alike.contains_eq handle).symm.trans stored
  have belowAfter : handle ≠ (document.update target change).state.root := by rwa [root_update]
  refine ext_get? (by simp only [root_remove, root_update]) fun other => ?_
  rw [get?_update]
  by_cases inside : document.Leads handle other
  · rw [after.get?_remove_of_leads storedAfter belowAfter ((alike.leads_iff _ _).mp inside),
      wellFormed.get?_remove_of_leads stored below inside]
    split
    · rename_i same
      rw [same, wellFormed.get?_remove_of_leads stored below inside, Option.map_none]
    · rfl
  · rw [after.get?_remove_of_not_leads storedAfter belowAfter
        (fun leads => inside ((alike.leads_iff _ _).mpr leads)), get?_update,
      wellFormed.get?_remove_of_not_leads stored below inside]
    split
    · rename_i same
      rw [same, wellFormed.get?_remove_of_not_leads stored below inside, Option.map_map,
        Option.map_map]
      congr 1
      funext node
      exact (data.without node handle).symm
    · rfl

theorem remove_update_below (wellFormed : document.WellFormed)
    {change : ContentNode → ContentNode} (data : IsDataChange change) {target : Handle}
    (stored : document.contains handle = true) (below : handle ≠ document.root)
    (leads : document.Leads handle target) :
    ((document.update target change).state.remove handle).state =
      (document.remove handle).state := by
  rw [wellFormed.remove_update data stored below, update_of_not_contains]
  rw [contains_eq_isSome_get?, wellFormed.get?_remove_of_leads stored below leads]
  rfl

end WellFormed

end Document

end Accessibility
