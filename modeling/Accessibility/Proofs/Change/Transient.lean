import Accessibility.Proofs.Change.Runs

/-!
What is done inside a subtree that is removed in the end can as well be left undone. The documents
of a run that leaves it out are those of the full run without the topmost node of the subtree.
-/

set_option autoImplicit false

namespace Accessibility

namespace Document

/-- A node under a parent, with handles that mark, among the stored ones, those below the node. -/
structure Covers (document : Document) (node parent : Handle) (handles : List Handle) : Prop where
  stored : document.contains node = true
  placed : document.parentOf? node = some parent
  covered : ∀ handle, document.contains handle = true →
    (handle ∈ handles ↔ document.Leads node handle)

namespace Covers

variable {document : Document} {node parent : Handle} {handles : List Handle}

theorem ne_root (covers : document.Covers node parent handles) (wellFormed : document.WellFormed) :
    node ≠ document.root := by
  rintro rfl
  have top := wellFormed.rooted.parent_root
  rw [covers.placed] at top
  cases top

/-- A subtree that was just attached is covered by its own handles. -/
theorem attached (wellFormed : document.WellFormed) {subtree : Subtree}
    (attachable : document.Attachable parent subtree) (index : Nat) :
    (document.attach parent index subtree).Covers subtree.handle parent subtree.handles := by
  have held := attachable.get?_of_entry index (subtree.topmost_entry (some parent))
  refine ⟨contains_of_get? held, by rw [parentOf?_of_get? held]; rfl, ?_⟩
  intro handle stored
  constructor
  · exact attachable.leads_handle wellFormed index
  · exact attachable.mem_handles_of_leads index subtree.handle_mem_handles

variable {subtree : Subtree} {above : Handle}

/-- What is inserted below the node goes with it. -/
theorem attach_inside (covers : document.Covers node parent handles)
    (wellFormed : document.WellFormed) (attachable : document.Attachable above subtree)
    (index : Nat) (inside : above ∈ handles) :
    (document.attach above index subtree).Covers node parent (handles ++ subtree.handles) ∧
      ((document.attach above index subtree).remove node).state = (document.remove node).state := by
  have leads := (covers.covered above attachable.parent_stored).mp inside
  refine ⟨⟨?_, ?_, ?_⟩, ?_⟩
  · exact (attachable.contains_attach index node).mpr (.inr covers.stored)
  · rw [attachable.parentOf?_attach index covers.stored, covers.placed]
  · intro handle stored
    rw [List.mem_append]
    by_cases mentioned : handle ∈ subtree.handles
    · rw [attachable.leads_of_mem wellFormed index covers.stored mentioned]
      exact iff_of_true (.inr mentioned) leads
    · have before := ((attachable.contains_attach index handle).mp stored).resolve_left mentioned
      rw [attachable.leads_of_stored wellFormed index before, ← covers.covered handle before]
      exact ⟨fun either => either.resolve_right mentioned, .inl⟩
  · exact wellFormed.remove_attach_below attachable index covers.stored
      (covers.ne_root wellFormed) leads

/-- What is inserted elsewhere, and not beside the node, stays when the node goes. -/
theorem attach_apart (covers : document.Covers node parent handles)
    (wellFormed : document.WellFormed) (attachable : document.Attachable above subtree)
    (index : Nat) (outside : above ∉ handles) (differ : above ≠ parent) :
    (document.attach above index subtree).Covers node parent
        (handles.filter (! subtree.mentions ·)) ∧
      (document.remove node).state.Attachable above subtree ∧
      ((document.attach above index subtree).remove node).state =
        (document.remove node).state.attach above index subtree := by
  have apart : ¬ document.Leads node above := fun leads =>
    outside ((covers.covered above attachable.parent_stored).mpr leads)
  refine ⟨⟨?_, ?_, ?_⟩, ?_⟩
  · exact (attachable.contains_attach index node).mpr (.inr covers.stored)
  · rw [attachable.parentOf?_attach index covers.stored, covers.placed]
  · intro handle stored
    rw [List.mem_filter, Subtree.mentions, Bool.not_eq_true', List.contains_eq_mem,
      decide_eq_false_iff_not]
    by_cases mentioned : handle ∈ subtree.handles
    · rw [attachable.leads_of_mem wellFormed index covers.stored mentioned]
      exact iff_of_false (fun both => both.2 mentioned) apart
    · have before := ((attachable.contains_attach index handle).mp stored).resolve_left mentioned
      rw [attachable.leads_of_stored wellFormed index before, ← covers.covered handle before]
      exact and_iff_left mentioned
  · refine wellFormed.remove_attach_apart attachable index covers.stored
      (covers.ne_root wellFormed) apart ?_
    intro node' stored listed
    obtain ⟨child, storedChild⟩ := exists_of_contains covers.stored
    have linked := wellFormed.parent_of_mem_children stored listed storedChild
    rw [← parentOf?_of_get? storedChild, covers.placed] at linked
    cases linked
    exact differ rfl

/-- A removal that spares the node can as well come after the removal of the node. -/
theorem remove (covers : document.Covers node parent handles) (wellFormed : document.WellFormed)
    {other : Handle} (spared : (document.remove other).state.contains node = true) :
    (document.remove other).state.Covers node parent handles ∧
      ((document.remove other).state.remove node).state =
        ((document.remove node).state.remove other).state := by
  have below := covers.ne_root wellFormed
  rcases document.remove_cases other with ⟨idle, same⟩ | ⟨stored, atRoot⟩
  · have still : ((document.remove node).state.remove other).state = (document.remove node).state := by
      rcases (document.remove node).state.remove_cases other with ⟨-, same⟩ | ⟨kept, atRoot⟩
      · exact same
      · rw [root_remove] at atRoot
        have absent := idle.resolve_left atRoot
        rw [wellFormed.contains_of_contains_remove kept] at absent
        cases absent
    rw [same, still]
    exact ⟨covers, rfl⟩
  have apart := ((wellFormed.contains_remove stored atRoot node).mp spared).2
  refine ⟨⟨spared, ?_, ?_⟩, ?_⟩
  · obtain ⟨child, storedChild⟩ := exists_of_contains covers.stored
    have placed := covers.placed
    rw [parentOf?_of_get? storedChild] at placed
    rw [parentOf?, wellFormed.get?_remove_of_not_leads stored atRoot apart, storedChild]
    exact placed
  · intro handle kept
    obtain ⟨before, spared⟩ := (wellFormed.contains_remove stored atRoot handle).mp kept
    rw [wellFormed.leads_remove stored atRoot spared]
    exact covers.covered handle before
  · by_cases inside : document.Leads node other
    · have gone : (document.remove node).state.contains other = false := by
        rw [contains_eq_isSome_get?,
          wellFormed.get?_remove_of_leads covers.stored below inside]
        rfl
      rw [remove_of_not_contains gone]
      apply wellFormed.remove_remove_below covers.stored below inside
      rintro rfl
      exact apart inside
    · exact wellFormed.remove_comm stored atRoot covers.stored below apart inside

/-- A removal that takes the node along makes no difference between the documents with it and
without it, and leaves nothing that is covered. -/
theorem remove_lost (covers : document.Covers node parent handles)
    (wellFormed : document.WellFormed) {other : Handle}
    (lost : (document.remove other).state.contains node = false) :
    ((document.remove node).state.remove other).state = (document.remove other).state ∧
      ∀ handle ∈ handles, (document.remove other).state.contains handle = false := by
  obtain ⟨stored, atRoot⟩ : document.contains other = true ∧ other ≠ document.root := by
    rcases document.remove_cases other with ⟨-, same⟩ | effective
    · rw [same, covers.stored] at lost
      cases lost
    · exact effective
  have leads : document.Leads other node := by
    by_contra apart
    rw [(wellFormed.contains_remove stored atRoot node).mpr ⟨covers.stored, apart⟩] at lost
    cases lost
  constructor
  · by_cases same : other = node
    · subst same
      rw [remove_of_not_contains lost]
    · exact wellFormed.remove_remove_below stored atRoot leads (Ne.symm same)
  · intro handle listed
    rw [← Bool.not_eq_true, wellFormed.contains_remove stored atRoot]
    rintro ⟨before, apart⟩
    exact apart (leads.trans ((covers.covered handle before).mp listed))

theorem alike {left right : Document} (covers : left.Covers node parent handles)
    (alike : Alike (fun _ _ _ => True) left right) : right.Covers node parent handles where
  stored := (alike.contains_eq node).symm.trans covers.stored
  placed := (alike.parentOf?_eq node).symm.trans covers.placed
  covered := fun handle stored => by
    rw [← alike.leads_iff]
    exact covers.covered handle ((alike.contains_eq handle).trans stored)

theorem update (covers : document.Covers node parent handles) {change : ContentNode → ContentNode}
    (data : IsDataChange change) (handle : Handle) :
    (document.update handle change).state.Covers node parent handles :=
  covers.alike (data.alike document handle)

/-- A change of data below the node goes with it. -/
theorem update_inside (covers : document.Covers node parent handles)
    (wellFormed : document.WellFormed) {change : ContentNode → ContentNode}
    (data : IsDataChange change) {handle : Handle} (inside : handle ∈ handles) :
    ((document.update handle change).state.remove node).state = (document.remove node).state := by
  by_cases absent : document.contains handle = false
  · rw [update_of_not_contains absent]
  · exact wellFormed.remove_update_below data covers.stored (covers.ne_root wellFormed)
      ((covers.covered handle (by simpa using absent)).mp inside)

end Covers

end Document

end Accessibility
