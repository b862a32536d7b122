import Accessibility.Proofs.Document.Ascent
import Accessibility.Proofs.Document.Eviction

/-!
Insertions that carry the handle of the root. The root is never taken over, so the node that carries its
handle is stored over it, and from then on no way up has an end.
-/

set_option autoImplicit false

namespace Accessibility.Document

variable {document : Document}

/-- The root is stored and has no parent, parent links lead up to it from every node, and every search
for a scope ends. -/
structure Grounded (document : Document) : Prop where
  root_stored : document.contains document.root = true
  root_parent : document.parentOf? document.root = none
  under_root : ∀ {handle : Handle}, document.contains handle = true →
    document.Under handle document.root
  found : ∀ (handle : Handle), ∃ steps scope, document.seekScope steps (some handle) = some scope

/-- Every node names another stored node, or itself, as its parent. -/
def Endless (document : Document) : Prop :=
  ∀ handle, document.contains handle = true →
    ∃ parent, document.parentOf? handle = some parent ∧ document.contains parent = true

/-- A subtree carries the handle of the root and can be put where it is to go. -/
structure ReplacesRoot (document : Document) (parent : Handle) (subtree : Subtree) : Prop where
  carried : document.root ∈ subtree.handles
  stored : document.contains parent = true
  spared : document.Spares subtree.handles parent

theorem WellFormed.isGrounded (wellFormed : document.WellFormed) : document.Grounded where
  root_stored := wellFormed.contains_root
  root_parent := by
    obtain ⟨top, stored, parentless⟩ := wellFormed.root_stored
    rw [parentOf?_of_get? stored, parentless]
  under_root := wellFormed.grounded
  found := fun handle =>
    ⟨_, _, wellFormed.seekScope_eq_scopeOf handle (Nat.lt_succ_self document.size)⟩

namespace Endless

theorem length_ascend (endless : document.Endless) {handle : Handle}
    (stored : document.contains handle = true) (height : Nat) :
    (document.ascend height (some handle)).length = height := by
  induction height generalizing handle with
  | zero => rfl
  | succ height ih =>
    obtain ⟨parent, linked, storedParent⟩ := endless handle stored
    obtain ⟨node, stored⟩ := exists_of_contains stored
    rw [parentOf?_of_get? stored] at linked
    rw [ascend]
    simp only [stored, linked, List.length_cons, ih storedParent]

/-- On a way up without an end, a search ends only at a shadow root. -/
theorem seekScope_ends_iff (endless : document.Endless) {handle : Handle}
    (stored : document.contains handle = true) :
    (∃ steps scope, document.seekScope steps (some handle) = some scope) ↔
      ∃ height, ∃ root ∈ document.ascend height (some handle), document.isShadowRoot root = true := by
  refine exists_congr fun height => ?_
  rw [seekScope_eq, endless.length_ascend stored, if_neg (Nat.lt_irrefl height)]
  cases first : (document.ascend height (some handle)).find? document.isShadowRoot with
  | some root =>
    exact iff_of_true ⟨_, rfl⟩ ⟨root, List.mem_of_find?_eq_some first, List.find?_some first⟩
  | none =>
    refine iff_of_false ?_ fun ⟨root, met, isRoot⟩ => List.find?_eq_none.mp first root met isRoot
    rintro ⟨_, ⟨⟩⟩

theorem not_grounded (endless : document.Endless) : ¬ document.Grounded := by
  intro grounded
  obtain ⟨parent, linked, -⟩ := endless document.root grounded.root_stored
  rw [grounded.root_parent] at linked
  cases linked

end Endless

/-- What is attached over the root has a parent above it, and so has every other node; so the ways up
have no end. -/
theorem WellFormed.endless_attach (wellFormed : document.WellFormed) {parent : Handle}
    {subtree : Subtree} (distinct : subtree.Distinct) (carried : document.root ∈ subtree.handles)
    (storedParent : document.contains parent = true) (index : Nat) :
    (document.attach parent index subtree).Endless := by
  intro handle stored
  by_cases mentioned : handle ∈ subtree.handles
  · obtain ⟨node, entered⟩ := Subtree.exists_entry (some parent) mentioned
    rw [parentOf?_attach_of_entry distinct index entered]
    rcases Subtree.parent_of_entry entered with ⟨-, linked⟩ | ⟨upper, above, upperEntered, linked, -⟩
    · exact ⟨parent, linked, (contains_attach_iff distinct index parent).mpr (.inr storedParent)⟩
    · exact ⟨upper, linked, (contains_attach_iff distinct index upper).mpr
        (.inl (Subtree.mem_handles_of_entry upperEntered))⟩
  · have storedBefore := ((contains_attach_iff distinct index handle).mp stored).resolve_left mentioned
    obtain ⟨node, storedBefore⟩ := exists_of_contains storedBefore
    obtain ⟨upper, above, linked, storedUpper, -⟩ :=
      wellFormed.listed storedBefore fun atRoot => mentioned (atRoot ▸ carried)
    rw [parentOf?_attach_of_not_mem index mentioned, parentOf?_of_get? storedBefore]
    exact ⟨upper, linked, (contains_attach_iff distinct index upper).mpr
      (.inr (contains_of_get? storedUpper))⟩

/-! ### Insertions of any subtree -/

namespace WellFormed

/-- An insertion that does not replace the root keeps the document well-formed. -/
theorem insert_of_not_replacesRoot (wellFormed : document.WellFormed) {parent : Handle}
    {subtree : Subtree} (distinct : subtree.Distinct)
    (kept : ¬ document.ReplacesRoot parent subtree) (index : Nat) :
    (document.insert parent index subtree).state.WellFormed := by
  rcases wellFormed.insert_cases parent index subtree with ⟨-, failed⟩ | ⟨-, -, failed⟩ |
    ⟨stored, spared, -⟩
  · rw [failed]
    exact wellFormed
  · rw [failed]
    exact wellFormed.evict subtree.handles
  · exact wellFormed.insert distinct (fun carried => kept ⟨carried, stored, spared⟩) parent index

theorem endless_insert (wellFormed : document.WellFormed) {parent : Handle} {subtree : Subtree}
    (distinct : subtree.Distinct) (replaces : document.ReplacesRoot parent subtree) (index : Nat) :
    (document.insert parent index subtree).state.Endless := by
  rcases wellFormed.insert_cases parent index subtree with ⟨absent, -⟩ | ⟨-, taken, -⟩ |
    ⟨stored, spared, made⟩
  · rw [replaces.stored] at absent
    cases absent
  · exact absurd replaces.spared taken
  · rw [made]
    refine (wellFormed.evict subtree.handles).endless_attach distinct ?_ ?_ index
    · rw [root_evict]
      exact replaces.carried
    · exact (wellFormed.contains_evict subtree.handles).mpr ⟨stored, spared⟩

theorem contains_root_insert (wellFormed : document.WellFormed) {subtree : Subtree}
    (distinct : subtree.Distinct) (parent : Handle) (index : Nat) :
    (document.insert parent index subtree).state.contains document.root = true := by
  have evicted := (wellFormed.evict subtree.handles).contains_root
  rw [root_evict] at evicted
  rcases wellFormed.insert_cases parent index subtree with ⟨-, failed⟩ | ⟨-, -, failed⟩ | ⟨-, -, made⟩
  · rw [failed]
    exact wellFormed.contains_root
  · rw [failed]
    exact evicted
  · rw [made]
    exact (contains_attach_iff distinct index document.root).mpr (.inr evicted)

end WellFormed

/-- How the root and the ways up stand after an insertion. The root is stored. All is well just if it was
not replaced; if it was, no way up has an end, and a search for a scope goes on for ever unless it meets
a shadow root. -/
structure RootAfter (document : Document) (parent : Handle) (subtree : Subtree) (after : Document) :
    Prop where
  root : after.root = document.root
  root_stored : after.contains document.root = true
  grounded_iff : after.Grounded ↔ ¬ document.ReplacesRoot parent subtree
  endless : document.ReplacesRoot parent subtree → ∀ handle, after.contains handle = true →
    (∀ height, (after.ascend height (some handle)).length = height) ∧
      ((∃ steps scope, after.seekScope steps (some handle) = some scope) ↔
        ∃ height, ∃ root ∈ after.ascend height (some handle), after.isShadowRoot root = true)

/-- An insertion leaves a document whose parent links all lead up to the root, unless the subtree carries
the handle of the root and is attached. -/
theorem rootAfter_insert (wellFormed : document.WellFormed) {subtree : Subtree}
    (distinct : subtree.Distinct) (parent : Handle) (index : Nat) :
    document.RootAfter parent subtree (document.insert parent index subtree).state where
  root := root_insert document parent index subtree
  root_stored := wellFormed.contains_root_insert distinct parent index
  grounded_iff := by
    constructor
    · exact fun grounded replaces =>
        (wellFormed.endless_insert distinct replaces index).not_grounded grounded
    · exact fun kept => (wellFormed.insert_of_not_replacesRoot distinct kept index).isGrounded
  endless := by
    intro replaces handle stored
    have endless := wellFormed.endless_insert distinct replaces index
    exact ⟨endless.length_ascend stored, endless.seekScope_ends_iff stored⟩

/-- A document that goes into an element under the handle of the root. -/
def innerDocument : Subtree :=
  .single ⟨0⟩ .document

/-- From then on the search for the scope of the element goes on for ever. -/
theorem rootAfter_innerDocument :
    (ofSubtree nestedPage).WellFormed ∧ innerDocument.Distinct ∧
      (ofSubtree nestedPage).ReplacesRoot ⟨1⟩ innerDocument ∧
      (ofSubtree nestedPage).RootAfter ⟨1⟩ innerDocument
        ((ofSubtree nestedPage).insert ⟨1⟩ 0 innerDocument).state ∧
      ¬ ∃ steps scope, ((ofSubtree nestedPage).insert ⟨1⟩ 0 innerDocument).state.seekScope steps
        (some ⟨1⟩) = some scope := by
  have wellFormed : (ofSubtree nestedPage).WellFormed := wellFormed_ofSubtree (by decide)
  have distinct : innerDocument.Distinct := by decide
  have replaces : (ofSubtree nestedPage).ReplacesRoot ⟨1⟩ innerDocument :=
    ⟨by decide, by decide +kernel,
      fun _ carried below => absurd (List.mem_singleton.mp carried) below⟩
  have after := rootAfter_insert wellFormed distinct ⟨1⟩ 0
  refine ⟨wellFormed, distinct, replaces, after, fun ends => ?_⟩
  obtain ⟨height, root, -, isRoot⟩ :=
    (after.endless replaces ⟨1⟩ (by decide +kernel)).2.mp ends
  have plain : ∀ handle ∈ ((ofSubtree nestedPage).insert ⟨1⟩ 0 innerDocument).state.nodes.keys,
      ((ofSubtree nestedPage).insert ⟨1⟩ 0 innerDocument).state.isShadowRoot handle = false := by
    decide +kernel
  have listed := (mem_keys_iff_contains _ root).mpr (contains_of_isShadowRoot isRoot)
  rw [plain root listed] at isRoot
  cases isRoot

/-- It is not so that every insertion leaves the root without a parent and every node below it. -/
theorem not_grounded_innerDocument :
    ¬ ∀ (document : Document) (subtree : Subtree) (parent : Handle) (index : Nat),
      document.WellFormed → subtree.Distinct →
        (document.insert parent index subtree).state.Grounded := by
  intro grounded
  have wellFormed : (ofSubtree nestedPage).WellFormed := wellFormed_ofSubtree (by decide)
  have parentless := (grounded (ofSubtree nestedPage) innerDocument ⟨1⟩ 0 wellFormed
    (by decide)).root_parent
  exact absurd parentless (by decide +kernel)

end Accessibility.Document
