import Accessibility.Proofs.Document.Entries
import Accessibility.Proofs.Document.Eviction

/-!
Insertion keeps a document well-formed. The handles that a subtree takes over leave the document
first, so its nodes are stored over nothing.
-/

set_option autoImplicit false

namespace Accessibility.Document

open Std

theorem nodup_insertAt {α : Type} {index : Nat} {value : α} {values : List α}
    (nodup : values.Nodup) (absent : value ∉ values) : (insertAt index value values).Nodup := by
  have same : (insertAt index value values).Perm (value :: values) := by
    have parts := List.take_append_drop index values
    exact List.perm_middle.trans (.cons value (.of_eq parts))
  exact same.nodup_iff.mpr (List.nodup_cons.mpr ⟨absent, nodup⟩)

/-! ### The initial document -/

theorem get?_ofSubtree {subtree : Subtree} (distinct : subtree.Distinct) {handle : Handle}
    {node : ContentNode} :
    (ofSubtree subtree).get? handle = some node ↔ (handle, node) ∈ subtree.entries none := by
  constructor
  · intro stored
    by_cases mentioned : handle ∈ subtree.handles
    · obtain ⟨node', entered⟩ := Subtree.exists_entry none mentioned
      have held := getElem?_store_of_entry distinct entered ∅
      rw [get?, ofSubtree, held] at stored
      cases stored
      exact entered
    · rw [get?, ofSubtree, getElem?_store_of_not_mem mentioned] at stored
      simp at stored
  · intro entered
    exact getElem?_store_of_entry distinct entered ∅

theorem wellFormed_ofSubtree {subtree : Subtree} (distinct : subtree.Distinct) :
    (ofSubtree subtree).WellFormed := by
  have stored {handle : Handle} {node : ContentNode} :
      (ofSubtree subtree).get? handle = some node ↔ (handle, node) ∈ subtree.entries none :=
    get?_ofSubtree distinct
  refine ⟨?_, ?_, ?_, ?_, ?_⟩
  · exact ⟨subtree.node none, stored.mpr (subtree.topmost_entry none), rfl⟩
  · intro handle node storedHandle below
    rcases Subtree.parent_of_entry (stored.mp storedHandle) with ⟨same, -⟩ | found
    · exact absurd same below
    · obtain ⟨upper, above, entered, linked, listed⟩ := found
      exact ⟨upper, above, linked, stored.mpr entered, listed⟩
  · intro parent child above storedParent listed
    obtain ⟨node, entered, linked⟩ := Subtree.entry_of_child (stored.mp storedParent) listed
    exact ⟨node, stored.mpr entered, linked⟩
  · intro parent above storedParent
    exact Subtree.children_nodup_of_entry distinct (stored.mp storedParent)
  · intro handle storedHandle
    obtain ⟨node, storedHandle⟩ := exists_of_contains storedHandle
    exact under_handle_of_entries (fun lower node' entered => stored.mpr entered)
      (Subtree.mem_handles_of_entry (stored.mp storedHandle))

/-! ### Attaching a subtree -/

section

variable {document : Document} {parent : Handle} {subtree : Subtree}

/-- The document with the nodes of a subtree, which its parent does not list yet. -/
def storing (document : Document) (parent : Handle) (subtree : Subtree) : Document :=
  { document with nodes := store document.nodes (some parent) subtree }

/-- Listing the subtree as a child changes no link upwards. -/
theorem links_attach (document : Document) (parent : Handle) (index : Nat) (subtree : Subtree)
    (handle : Handle) :
    (document.attach parent index subtree).contains handle =
        (document.storing parent subtree).contains handle ∧
      (document.attach parent index subtree).parentOf? handle =
        (document.storing parent subtree).parentOf? handle := by
  have listed := (document.storing parent subtree).get?_modify parent handle fun above =>
    { above with children := insertAt index subtree.handle above.children }
  rw [contains_eq_isSome_get?, contains_eq_isSome_get?, parentOf?, parentOf?, attach, ← storing,
    listed]
  split
  · rename_i same
    rw [same, Option.isSome_map, Option.bind_map]
    exact ⟨rfl, rfl⟩
  · exact ⟨rfl, rfl⟩

theorem contains_attach_iff (distinct : subtree.Distinct) (index : Nat) (handle : Handle) :
    (document.attach parent index subtree).contains handle = true ↔
      handle ∈ subtree.handles ∨ document.contains handle = true := by
  rw [(links_attach document parent index subtree handle).1, contains_eq_isSome_get?, get?, storing]
  by_cases mentioned : handle ∈ subtree.handles
  · obtain ⟨node, entered⟩ := Subtree.exists_entry (some parent) mentioned
    rw [getElem?_store_of_entry distinct entered]
    exact iff_of_true rfl (.inl mentioned)
  · rw [getElem?_store_of_not_mem mentioned, contains_eq_isSome_get?, get?]
    exact (or_iff_right mentioned).symm

theorem parentOf?_attach_of_entry (distinct : subtree.Distinct) (index : Nat) {handle : Handle}
    {node : ContentNode} (entered : (handle, node) ∈ subtree.entries (some parent)) :
    (document.attach parent index subtree).parentOf? handle = node.parent := by
  rw [(links_attach document parent index subtree handle).2]
  exact parentOf?_of_get? (getElem?_store_of_entry distinct entered _)

theorem parentOf?_attach_of_not_mem (index : Nat) {handle : Handle}
    (absent : handle ∉ subtree.handles) :
    (document.attach parent index subtree).parentOf? handle = document.parentOf? handle := by
  rw [(links_attach document parent index subtree handle).2, parentOf?, parentOf?, get?, storing,
    getElem?_store_of_not_mem absent, get?]

end

/-- A subtree whose handles are distinct and new to a document, with a place for it. -/
structure Attachable (document : Document) (parent : Handle) (subtree : Subtree) : Prop where
  parent_stored : document.contains parent = true
  distinct : subtree.Distinct
  fresh : ∀ handle ∈ subtree.handles, document.contains handle = false

theorem root_attach (document : Document) (parent : Handle) (index : Nat) (subtree : Subtree) :
    (document.attach parent index subtree).root = document.root :=
  rfl

namespace Attachable

variable {document : Document} {parent : Handle} {subtree : Subtree}

theorem not_mem_handles (attachable : document.Attachable parent subtree) {handle : Handle}
    (stored : document.contains handle = true) : handle ∉ subtree.handles := by
  intro mentioned
  rw [attachable.fresh handle mentioned] at stored
  cases stored

theorem get?_of_entry (attachable : document.Attachable parent subtree) (index : Nat)
    {handle : Handle} {node : ContentNode}
    (entered : (handle, node) ∈ subtree.entries (some parent)) :
    (document.attach parent index subtree).get? handle = some node := by
  rw [attach, get?_modify, if_neg]
  · exact getElem?_store_of_entry attachable.distinct entered _
  · rintro rfl
    exact attachable.not_mem_handles attachable.parent_stored
      (Subtree.mem_handles_of_entry entered)

theorem get?_parent (attachable : document.Attachable parent subtree) (index : Nat) :
    (document.attach parent index subtree).get? parent =
      (document.get? parent).map fun above =>
        { above with children := insertAt index subtree.handle above.children } := by
  have absent := attachable.not_mem_handles attachable.parent_stored
  rw [attach, get?_modify, if_pos rfl]
  simp only [get?, getElem?_store_of_not_mem absent]

theorem get?_of_ne (index : Nat) {handle : Handle}
    (absent : handle ∉ subtree.handles) (differ : handle ≠ parent) :
    (document.attach parent index subtree).get? handle = document.get? handle := by
  rw [attach, get?_modify, if_neg (Ne.symm differ)]
  simp only [get?, getElem?_store_of_not_mem absent]

/-- The nodes from before stay, with their parents; the subtree joins the children of one. -/
theorem get?_of_get? (attachable : document.Attachable parent subtree) (index : Nat)
    {handle : Handle} {node : ContentNode} (stored : document.get? handle = some node) :
    ∃ after, (document.attach parent index subtree).get? handle = some after ∧
      after.kind = node.kind ∧ after.parent = node.parent ∧
      ∀ child, child ∈ after.children ↔
        child ∈ node.children ∨ (handle = parent ∧ child = subtree.handle) := by
  by_cases same : handle = parent
  · subst same
    rw [attachable.get?_parent, stored, Option.map_some]
    refine ⟨_, rfl, rfl, rfl, ?_⟩
    intro child
    rw [mem_insertAt]
    simp [or_comm]
  · rw [get?_of_ne index (attachable.not_mem_handles (contains_of_get? stored)) same]
    exact ⟨node, stored, rfl, rfl, by simp [same]⟩

theorem parentOf?_attach (attachable : document.Attachable parent subtree) (index : Nat)
    {handle : Handle} (stored : document.contains handle = true) :
    (document.attach parent index subtree).parentOf? handle = document.parentOf? handle :=
  parentOf?_attach_of_not_mem index (attachable.not_mem_handles stored)

/-- Every node comes from the subtree or from the document before. -/
theorem entry_or_stored (attachable : document.Attachable parent subtree) {index : Nat}
    {handle : Handle} {node : ContentNode}
    (stored : (document.attach parent index subtree).get? handle = some node) :
    (handle, node) ∈ subtree.entries (some parent) ∨
      (handle ∉ subtree.handles ∧ document.contains handle = true) := by
  by_cases mentioned : handle ∈ subtree.handles
  · obtain ⟨node', entered⟩ := Subtree.exists_entry (some parent) mentioned
    rw [attachable.get?_of_entry index entered] at stored
    cases stored
    exact .inl entered
  · refine .inr ⟨mentioned, ?_⟩
    by_cases same : handle = parent
    · rw [same]
      exact attachable.parent_stored
    · rw [get?_of_ne index mentioned same] at stored
      exact contains_of_get? stored

theorem contains_attach (attachable : document.Attachable parent subtree) (index : Nat)
    (handle : Handle) :
    (document.attach parent index subtree).contains handle = true ↔
      handle ∈ subtree.handles ∨ document.contains handle = true :=
  contains_attach_iff attachable.distinct index handle

theorem under_attach (attachable : document.Attachable parent subtree) (index : Nat)
    {lower upper : Handle} (under : document.Under lower upper) :
    (document.attach parent index subtree).Under lower upper := by
  induction under with
  | self stored => exact .self ((attachable.contains_attach index _).mpr (.inr stored))
  | above stored linked _ ih =>
    obtain ⟨after, storedAfter, -, linkedAfter, -⟩ := attachable.get?_of_get? index stored
    exact .above storedAfter (linkedAfter.trans linked) ih

theorem under_handle (attachable : document.Attachable parent subtree) (index : Nat)
    {handle : Handle} (mentioned : handle ∈ subtree.handles) :
    (document.attach parent index subtree).Under handle subtree.handle :=
  under_handle_of_entries (fun _ _ entered => attachable.get?_of_entry index entered) mentioned

theorem under_parent (attachable : document.Attachable parent subtree) (index : Nat)
    {handle : Handle} (mentioned : handle ∈ subtree.handles) :
    (document.attach parent index subtree).Under handle parent := by
  have held := attachable.get?_of_entry index (subtree.topmost_entry (some parent))
  have parentHeld := (attachable.contains_attach index parent).mpr (.inr attachable.parent_stored)
  exact (attachable.under_handle index mentioned).trans (.above held rfl (.self parentHeld))

/-- The children of a node from before come from before, or are the topmost node of the subtree. -/
theorem mem_children_before (attachable : document.Attachable parent subtree) {index : Nat}
    {handle child : Handle} {after : ContentNode} (stored : document.contains handle = true)
    (storedAfter : (document.attach parent index subtree).get? handle = some after)
    (listed : child ∈ after.children) :
    (∃ node, document.get? handle = some node ∧ child ∈ node.children) ∨
      (handle = parent ∧ child = subtree.handle) := by
  obtain ⟨node, stored⟩ := exists_of_contains stored
  obtain ⟨after', storedAfter', -, -, children⟩ := attachable.get?_of_get? index stored
  rw [storedAfter] at storedAfter'
  cases storedAfter'
  rcases (children child).mp listed with listed | same
  · exact .inl ⟨node, stored, listed⟩
  · exact .inr same

end Attachable

namespace WellFormed

variable {document : Document} {parent : Handle} {subtree : Subtree}

protected theorem attach (wellFormed : document.WellFormed)
    (attachable : document.Attachable parent subtree) (index : Nat) :
    (document.attach parent index subtree).WellFormed := by
  refine ⟨?_, ?_, ?_, ?_, ?_⟩
  · obtain ⟨node, stored, top⟩ := wellFormed.root_stored
    obtain ⟨after, storedAfter, -, linked, -⟩ := attachable.get?_of_get? index stored
    exact ⟨after, storedAfter, linked.trans top⟩
  · intro handle node stored below
    rcases attachable.entry_or_stored stored with entered | ⟨-, storedBefore⟩
    · rcases Subtree.parent_of_entry entered with ⟨rfl, linked⟩ | found
      · obtain ⟨above, storedParent⟩ := exists_of_contains attachable.parent_stored
        obtain ⟨after, storedAfter, -, -, children⟩ := attachable.get?_of_get? index storedParent
        exact ⟨parent, after, linked, storedAfter, (children _).mpr (.inr ⟨rfl, rfl⟩)⟩
      · obtain ⟨upper, above, entered', linked, listed⟩ := found
        exact ⟨upper, above, linked, attachable.get?_of_entry index entered', listed⟩
    · obtain ⟨before, storedBefore⟩ := exists_of_contains storedBefore
      obtain ⟨after, storedAfter, -, linkedAfter, -⟩ := attachable.get?_of_get? index storedBefore
      rw [stored] at storedAfter
      cases storedAfter
      obtain ⟨upper, above, linked, storedUpper, listed⟩ := wellFormed.listed storedBefore below
      obtain ⟨after, storedAfter, -, -, children⟩ := attachable.get?_of_get? index storedUpper
      exact ⟨upper, after, linkedAfter.trans linked, storedAfter, (children _).mpr (.inl listed)⟩
  · intro upper child above stored listed
    rcases attachable.entry_or_stored stored with entered | ⟨-, storedBefore⟩
    · obtain ⟨node, entered', linked⟩ := Subtree.entry_of_child entered listed
      exact ⟨node, attachable.get?_of_entry index entered', linked⟩
    · rcases attachable.mem_children_before storedBefore stored listed with
        ⟨before, storedUpper, listed⟩ | ⟨rfl, rfl⟩
      · obtain ⟨node, storedChild, linked⟩ := wellFormed.linked storedUpper listed
        obtain ⟨after, storedAfter, -, linkedAfter, -⟩ :=
          attachable.get?_of_get? index storedChild
        exact ⟨after, storedAfter, linkedAfter.trans linked⟩
      · exact ⟨_, attachable.get?_of_entry index (subtree.topmost_entry (some upper)), rfl⟩
  · intro upper above stored
    rcases attachable.entry_or_stored stored with entered | ⟨absent, -⟩
    · exact Subtree.children_nodup_of_entry attachable.distinct entered
    · by_cases same : upper = parent
      · subst same
        rw [attachable.get?_parent] at stored
        obtain ⟨before, storedBefore, rfl⟩ := Option.map_eq_some_iff.mp stored
        refine nodup_insertAt (wellFormed.nodup storedBefore) ?_
        intro listed
        exact attachable.not_mem_handles (wellFormed.contains_child storedBefore listed)
          subtree.handle_mem_handles
      · rw [Attachable.get?_of_ne index absent same] at stored
        exact wellFormed.nodup stored
  · intro handle stored
    rcases (attachable.contains_attach index handle).mp stored with mentioned | storedBefore
    · exact (attachable.under_parent index mentioned).trans
        (attachable.under_attach index (wellFormed.grounded attachable.parent_stored))
    · exact attachable.under_attach index (wellFormed.grounded storedBefore)

end WellFormed

/-! ### Insertion -/

theorem insert_of_not_contains {document : Document} {parent : Handle}
    (absent : document.contains parent = false) (index : Nat) (subtree : Subtree) :
    document.insert parent index subtree = .failed document (.unknownContent parent) := by
  rw [insert, if_neg (by simp [absent])]

/-- An insertion attaches the subtree where its parent is stored and stays when the handles are taken
over. Else it fails, and the handles are taken over all the same if the parent was stored. -/
theorem insert_cases (document : Document) (parent : Handle) (index : Nat) (subtree : Subtree) :
    document.contains parent = false ∧
        document.insert parent index subtree = .failed document (.unknownContent parent) ∨
      document.contains parent = true ∧ (document.evict subtree.handles).1.contains parent = false ∧
        document.insert parent index subtree =
          .failed (document.evict subtree.handles).1 (.unknownContent parent) ∨
      document.contains parent = true ∧ (document.evict subtree.handles).1.contains parent = true ∧
        document.insert parent index subtree =
          .done ((document.evict subtree.handles).1.attach parent index subtree)
            (document.evict subtree.handles).2 := by
  cases stored : document.contains parent with
  | false => exact .inl ⟨rfl, insert_of_not_contains stored index subtree⟩
  | true =>
    rw [Document.insert, if_pos stored]
    dsimp only
    split
    · rename_i stays
      exact .inr (.inr ⟨rfl, stays, rfl⟩)
    · rename_i goes
      exact .inr (.inl ⟨rfl, Bool.eq_false_iff.mpr goes, rfl⟩)

/-- Whether the parent stays is told by the document before. -/
theorem WellFormed.insert_cases {document : Document} (wellFormed : document.WellFormed)
    (parent : Handle) (index : Nat) (subtree : Subtree) :
    document.contains parent = false ∧
        document.insert parent index subtree = .failed document (.unknownContent parent) ∨
      document.contains parent = true ∧ ¬ document.Spares subtree.handles parent ∧
        document.insert parent index subtree =
          .failed (document.evict subtree.handles).1 (.unknownContent parent) ∨
      document.contains parent = true ∧ document.Spares subtree.handles parent ∧
        document.insert parent index subtree =
          .done ((document.evict subtree.handles).1.attach parent index subtree)
            (document.evict subtree.handles).2 := by
  rcases document.insert_cases parent index subtree with absent | ⟨stored, gone, failed⟩ |
    ⟨stored, kept, made⟩
  · exact .inl absent
  · refine .inr (.inl ⟨stored, fun spared => ?_, failed⟩)
    rw [(wellFormed.contains_evict subtree.handles).mpr ⟨stored, spared⟩] at gone
    cases gone
  · exact .inr (.inr ⟨stored, ((wellFormed.contains_evict subtree.handles).mp kept).2, made⟩)

theorem root_insert (document : Document) (parent : Handle) (index : Nat) (subtree : Subtree) :
    (document.insert parent index subtree).state.root = document.root := by
  rcases document.insert_cases parent index subtree with ⟨-, failed⟩ | ⟨-, -, failed⟩ | ⟨-, -, made⟩
  · rw [failed]
    rfl
  · rw [failed]
    exact root_evict document subtree.handles
  · rw [made]
    exact root_evict document subtree.handles

/-- An insertion that succeeds tells what it removed. -/
theorem evicted_of_answer_insert {document : Document} {parent : Handle} {index : Nat}
    {subtree : Subtree} {replaced : List Handle}
    (success : (document.insert parent index subtree).answer = .ok replaced) :
    replaced = (document.evict subtree.handles).2 := by
  rcases document.insert_cases parent index subtree with ⟨-, failed⟩ | ⟨-, -, failed⟩ | ⟨-, -, made⟩
  · rw [failed] at success
    cases success
  · rw [failed] at success
    cases success
  · rw [made] at success
    cases success
    rfl

theorem mem_handles_of_answer_insert {document : Document} {parent handle : Handle} {index : Nat}
    {subtree : Subtree} {replaced : List Handle}
    (success : (document.insert parent index subtree).answer = .ok replaced)
    (listed : handle ∈ replaced) : handle ∈ subtree.handles := by
  rw [evicted_of_answer_insert success] at listed
  exact mem_of_mem_evict listed

/-- An insertion succeeds and takes over nothing if its handles are new. -/
theorem Attachable.insert_eq {document : Document} {parent : Handle} {subtree : Subtree}
    (attachable : document.Attachable parent subtree) (index : Nat) :
    document.insert parent index subtree = .done (document.attach parent index subtree) [] := by
  rw [insert, if_pos attachable.parent_stored, evict_of_fresh attachable.fresh]
  dsimp only
  rw [if_pos attachable.parent_stored]

/-- Once the handles of a subtree are taken over, it can be attached wherever its parent is left. -/
theorem WellFormed.attachable_evict {document : Document} (wellFormed : document.WellFormed)
    {parent : Handle} {subtree : Subtree} (distinct : subtree.Distinct)
    (below : document.root ∉ subtree.handles)
    (stored : (document.evict subtree.handles).1.contains parent = true) :
    (document.evict subtree.handles).1.Attachable parent subtree where
  parent_stored := stored
  distinct := distinct
  fresh := fun _ mentioned => wellFormed.not_contains_evict below mentioned

protected theorem WellFormed.insert {document : Document} (wellFormed : document.WellFormed)
    {subtree : Subtree} (distinct : subtree.Distinct) (below : document.root ∉ subtree.handles)
    (parent : Handle) (index : Nat) :
    (document.insert parent index subtree).state.WellFormed := by
  have evicted := wellFormed.evict subtree.handles
  rcases document.insert_cases parent index subtree with ⟨-, failed⟩ | ⟨-, -, failed⟩ |
    ⟨-, kept, made⟩
  · rw [failed]
    exact wellFormed
  · rw [failed]
    exact evicted
  · rw [made]
    exact evicted.attach (wellFormed.attachable_evict distinct below kept) index

end Accessibility.Document
