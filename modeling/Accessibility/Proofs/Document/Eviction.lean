import Accessibility.Proofs.Document.Removal
import Accessibility.Proofs.Lists

/-!
Taking over handles removes the nodes at and below them one after the other. What is left is told in
terms of the document before.
-/

set_option autoImplicit false

namespace Accessibility

namespace ContentNode

/-- The node after others left its child list. -/
def withoutAll (node : ContentNode) (handles : List Handle) : ContentNode :=
  { node with children := node.children.filter (· ∉ handles) }

theorem withoutAll_nil (node : ContentNode) : node.withoutAll [] = node := by
  simp only [withoutAll, List.not_mem_nil, not_false_eq_true, decide_true, List.filter_true]

theorem withoutAll_cons (node : ContentNode) (handle : Handle) (rest : List Handle) :
    node.withoutAll (handle :: rest) = (node.without handle).withoutAll rest := by
  simp only [withoutAll, without, List.filter_filter, List.mem_cons, not_or, Bool.decide_and,
    decide_not, Bool.and_comm, bne]
  rfl

end ContentNode

namespace Document

variable {document : Document}

theorem evict_cons (document : Document) (handle : Handle) (rest : List Handle) :
    (document.evict (handle :: rest)).1 = ((document.remove handle).state.evict rest).1 := by
  rw [evict]
  split
  · rfl
  · rename_i absent
    rw [remove_of_not_contains (Bool.eq_false_iff.mpr absent)]

theorem root_evict (document : Document) (handles : List Handle) :
    (document.evict handles).1.root = document.root := by
  induction handles generalizing document with
  | nil => rfl
  | cons handle rest ih => rw [evict_cons, ih, root_remove]

theorem mem_of_mem_evict {document : Document} {handles : List Handle} {handle : Handle}
    (evicted : handle ∈ (document.evict handles).2) : handle ∈ handles := by
  induction handles generalizing document with
  | nil => exact evicted
  | cons first rest ih =>
    rw [evict] at evicted
    split at evicted
    · rcases List.mem_cons.mp evicted with rfl | later
      · exact List.mem_cons_self
      · exact List.mem_cons_of_mem _ (ih later)
    · exact List.mem_cons_of_mem _ (ih evicted)

theorem evict_of_fresh {document : Document} {handles : List Handle}
    (fresh : ∀ handle ∈ handles, document.contains handle = false) :
    document.evict handles = (document, []) := by
  induction handles with
  | nil => rfl
  | cons handle rest ih =>
    rw [evict, if_neg (by simp [fresh handle List.mem_cons_self])]
    exact ih fun other later => fresh other (List.mem_cons_of_mem _ later)

/-- No handle that is taken over is at or above a node. The root is never taken over. -/
def Spares (document : Document) (handles : List Handle) (other : Handle) : Prop :=
  ∀ handle ∈ handles, handle ≠ document.root → ¬ document.Under other handle

theorem spares_nil (document : Document) (other : Handle) : document.Spares [] other :=
  fun _ listed => absurd listed List.not_mem_nil

theorem Under.contains_lower {lower upper : Handle} (under : document.Under lower upper) :
    document.contains lower = true := by
  cases under with
  | self stored => exact stored
  | above stored _ _ => exact contains_of_get? stored

theorem Under.contains_upper {lower upper : Handle} (under : document.Under lower upper) :
    document.contains upper = true := by
  induction under with
  | self stored => exact stored
  | above _ _ _ ih => exact ih

namespace WellFormed

protected theorem evict (wellFormed : document.WellFormed) (handles : List Handle) :
    (document.evict handles).1.WellFormed := by
  induction handles generalizing document with
  | nil => exact wellFormed
  | cons handle rest ih =>
    rw [evict_cons]
    exact ih (wellFormed.remove handle)

/-- A removal of any handle takes away what is at or below it. -/
theorem get?_state_remove (wellFormed : document.WellFormed) (handle : Handle) {other : Handle}
    {node : ContentNode} :
    (document.remove handle).state.get? other = some node ↔
      (handle ≠ document.root → ¬ document.Under other handle) ∧
        ∃ before, document.get? other = some before ∧ before.without handle = node := by
  rcases document.remove_cases handle with ⟨idle, same⟩ | ⟨stored, below⟩
  · have unlisted {above : ContentNode} (storedOther : document.get? other = some above) :
        above.without handle = above := by
      refine ContentNode.without_of_not_mem fun listed => ?_
      rcases idle with atRoot | absent
      · exact wellFormed.ne_root_of_child storedOther listed atRoot
      · rw [wellFormed.contains_child storedOther listed] at absent
        cases absent
    rw [same]
    constructor
    · refine fun storedOther => ⟨fun below under => ?_, node, storedOther, unlisted storedOther⟩
      rcases idle with atRoot | absent
      · exact below atRoot
      · rw [under.contains_upper] at absent
        cases absent
    · rintro ⟨-, before, storedBefore, rfl⟩
      rw [unlisted storedBefore]
      exact storedBefore
  · rw [wellFormed.get?_remove_eq_some stored below]
    constructor
    · rintro ⟨apart, before, storedBefore, same⟩
      exact ⟨fun _ under => apart
        ((wellFormed.under_iff_leads (contains_of_get? storedBefore)).mp under),
        before, storedBefore, same⟩
    · rintro ⟨apart, before, storedBefore, same⟩
      exact ⟨fun leads => apart below
        ((wellFormed.under_iff_leads (contains_of_get? storedBefore)).mpr leads),
        before, storedBefore, same⟩

theorem contains_of_contains_remove (wellFormed : document.WellFormed) {handle other : Handle}
    (stored : (document.remove handle).state.contains other = true) :
    document.contains other = true := by
  obtain ⟨node, stored⟩ := exists_of_contains stored
  obtain ⟨-, before, storedBefore, -⟩ := (wellFormed.get?_state_remove handle).mp stored
  exact contains_of_get? storedBefore

/-- Above the nodes that stay, a removal changes nothing. -/
theorem under_remove (wellFormed : document.WellFormed) (handle : Handle) {lower upper : Handle}
    (kept : (document.remove handle).state.contains lower = true) :
    (document.remove handle).state.Under lower upper ↔ document.Under lower upper := by
  rcases document.remove_cases handle with ⟨-, same⟩ | ⟨stored, below⟩
  · rw [same]
  · obtain ⟨storedLower, apart⟩ := (wellFormed.contains_remove stored below lower).mp kept
    rw [(wellFormed.remove handle).under_iff_leads kept, wellFormed.under_iff_leads storedLower,
      wellFormed.leads_remove stored below apart]

theorem get?_evict_eq_some (wellFormed : document.WellFormed) (handles : List Handle)
    {other : Handle} {node : ContentNode} :
    (document.evict handles).1.get? other = some node ↔
      document.Spares handles other ∧
        ∃ before, document.get? other = some before ∧ before.withoutAll handles = node := by
  induction handles generalizing document node with
  | nil => simp only [evict, spares_nil, ContentNode.withoutAll_nil, true_and, exists_eq_right]
  | cons first rest ih =>
    rw [evict_cons, ih (wellFormed.remove first)]
    simp only [Spares, List.forall_mem_cons, ContentNode.withoutAll_cons, root_remove]
    constructor
    · rintro ⟨spared, _, storedAfter, rfl⟩
      obtain ⟨apart, before, storedBefore, rfl⟩ :=
        (wellFormed.get?_state_remove first).mp storedAfter
      refine ⟨⟨apart, fun handle listed below under => ?_⟩, before, storedBefore, rfl⟩
      exact spared handle listed below
        ((wellFormed.under_remove first (contains_of_get? storedAfter)).mpr under)
    · rintro ⟨⟨apart, spared⟩, before, storedBefore, rfl⟩
      have storedAfter := (wellFormed.get?_state_remove first).mpr ⟨apart, before, storedBefore, rfl⟩
      refine ⟨fun handle listed below under => ?_, _, storedAfter, rfl⟩
      exact spared handle listed below
        ((wellFormed.under_remove first (contains_of_get? storedAfter)).mp under)

theorem contains_evict (wellFormed : document.WellFormed) (handles : List Handle)
    {other : Handle} :
    (document.evict handles).1.contains other = true ↔
      document.contains other = true ∧ document.Spares handles other := by
  constructor
  · intro kept
    obtain ⟨node, kept⟩ := exists_of_contains kept
    obtain ⟨spared, before, stored, -⟩ := (wellFormed.get?_evict_eq_some handles).mp kept
    exact ⟨contains_of_get? stored, spared⟩
  · rintro ⟨stored, spared⟩
    obtain ⟨before, stored⟩ := exists_of_contains stored
    exact contains_of_get? ((wellFormed.get?_evict_eq_some handles).mpr ⟨spared, before, stored, rfl⟩)

theorem not_contains_evict (wellFormed : document.WellFormed) {handles : List Handle}
    (below : document.root ∉ handles) {handle : Handle} (listed : handle ∈ handles) :
    (document.evict handles).1.contains handle = false := by
  rw [← Bool.not_eq_true]
  intro kept
  obtain ⟨stored, spared⟩ := (wellFormed.contains_evict handles).mp kept
  exact spared handle listed (ne_of_mem_of_not_mem listed below) (.self stored)

/-- A handle is among those that are told to be taken over just if no handle listed before it leads to
it: what has gone with an earlier one is not told. -/
theorem mem_evict_iff (wellFormed : document.WellFormed)
    {handles : List Handle} (below : document.root ∉ handles) {handle : Handle} :
    handle ∈ (document.evict handles).2 ↔ document.contains handle = true ∧
      ∃ before after, handles = before ++ handle :: after ∧
        ∀ other ∈ before, ¬ document.Leads other handle := by
  induction handles generalizing document with
  | nil =>
    refine iff_of_false List.not_mem_nil ?_
    rintro ⟨-, before, after, split, -⟩
    exact List.append_ne_nil_of_right_ne_nil before (List.cons_ne_nil handle after) split.symm
  | cons first rest ih =>
    rw [List.mem_cons, not_or] at below
    rw [evict, Lists.exists_append_cons_iff]
    split
    · rename_i stored
      rw [List.mem_cons, ih (wellFormed.remove first) (by rw [root_remove]; exact below.2),
        wellFormed.contains_remove stored (Ne.symm below.1)]
      constructor
      · rintro (rfl | ⟨⟨storedHandle, apart⟩, before, after, split, others⟩)
        · exact ⟨stored, .inl rfl⟩
        · refine ⟨storedHandle, .inr ⟨apart, before, after, split, fun other listed leads => ?_⟩⟩
          exact others other listed
            ((wellFormed.leads_remove stored (Ne.symm below.1) apart).mpr leads)
      · rintro ⟨storedHandle, rfl | ⟨apart, before, after, split, others⟩⟩
        · exact .inl rfl
        · refine .inr ⟨⟨storedHandle, apart⟩, before, after, split, fun other listed leads => ?_⟩
          exact others other listed
            ((wellFormed.leads_remove stored (Ne.symm below.1) apart).mp leads)
    · rename_i absent
      rw [ih wellFormed below.2]
      refine and_congr_right fun storedHandle => ?_
      constructor
      · refine fun later => .inr ⟨fun leads => absent ?_, later⟩
        rcases leads.eq_or_child with rfl | ⟨child, above, stored, -⟩
        · exact storedHandle
        · exact contains_of_get? stored
      · rintro (rfl | ⟨-, later⟩)
        · exact absurd storedHandle absent
        · exact later

end WellFormed

end Document

end Accessibility
