import Accessibility.Proofs.Document.Links

/-!
The nodes that a subtree stores, each under its handle. In a subtree whose handles are distinct no
node is stored over another, so the document holds every one of them afterwards.
-/

set_option autoImplicit false

namespace Accessibility

open Std

namespace Subtree

mutual

/-- The nodes of a subtree under a parent, in preorder. -/
def entries (parent : Option Handle) : Subtree → List (Handle × ContentNode)
  | ⟨handle, kind, attributes, popoverShowing, popoverTarget, children⟩ =>
    let topmost : Subtree := ⟨handle, kind, attributes, popoverShowing, popoverTarget, children⟩
    (handle, topmost.node parent) :: entriesOfAll handle children

def entriesOfAll (parent : Handle) : List Subtree → List (Handle × ContentNode)
  | [] => []
  | child :: rest => child.entries (some parent) ++ entriesOfAll parent rest

end

mutual

/-- What holds of a subtree as soon as it holds of its children holds of every subtree. -/
theorem childrenInduction {motive : Subtree → Prop}
    (step : ∀ subtree : Subtree, (∀ child ∈ subtree.children, motive child) → motive subtree) :
    (subtree : Subtree) → motive subtree
  | ⟨handle, kind, attributes, showing, target, children⟩ =>
    step ⟨handle, kind, attributes, showing, target, children⟩
      (childrenInductionOfAll step children)

theorem childrenInductionOfAll {motive : Subtree → Prop}
    (step : ∀ subtree : Subtree, (∀ child ∈ subtree.children, motive child) → motive subtree) :
    (children : List Subtree) → ∀ child ∈ children, motive child
  | [], _, listed => by cases listed
  | first :: rest, child, listed => by
    rcases List.mem_cons.mp listed with same | later
    · rw [same]
      exact childrenInduction step first
    · exact childrenInductionOfAll step rest child later

end

theorem entriesOfAll_eq (parent : Handle) (children : List Subtree) :
    entriesOfAll parent children = children.flatMap (entries (some parent)) := by
  induction children with
  | nil => rfl
  | cons child rest ih => rw [entriesOfAll, ih, List.flatMap_cons]

theorem entries_eq (parent : Option Handle) (subtree : Subtree) :
    subtree.entries parent =
      (subtree.handle, subtree.node parent) ::
        subtree.children.flatMap (entries (some subtree.handle)) := by
  rw [← entriesOfAll_eq]
  cases subtree
  rfl

theorem handles_eq_flatMap (subtree : Subtree) :
    subtree.handles = subtree.handle :: subtree.children.flatMap handles := by
  rw [handles_eq, handlesOfAll_eq]

theorem map_fst_entries (parent : Option Handle) (subtree : Subtree) :
    (subtree.entries parent).map Prod.fst = subtree.handles := by
  induction subtree using childrenInduction generalizing parent with
  | step subtree ih =>
    rw [entries_eq, handles_eq_flatMap, List.map_cons, List.map_flatMap]
    congr 1
    exact List.flatMap_congr fun child listed => ih child listed (some subtree.handle)

theorem mem_handles_of_entry {subtree : Subtree} {parent : Option Handle} {handle : Handle}
    {node : ContentNode} (entered : (handle, node) ∈ subtree.entries parent) :
    handle ∈ subtree.handles := by
  rw [← map_fst_entries parent subtree]
  exact List.mem_map_of_mem entered

theorem exists_entry {subtree : Subtree} {handle : Handle} (parent : Option Handle)
    (mentioned : handle ∈ subtree.handles) : ∃ node, (handle, node) ∈ subtree.entries parent := by
  rw [← map_fst_entries parent subtree] at mentioned
  obtain ⟨⟨_, node⟩, entered, rfl⟩ := List.mem_map.mp mentioned
  exact ⟨node, entered⟩

/-- A node of a subtree is its topmost one, or a node of the subtree at one of the children. -/
theorem mem_entries {subtree : Subtree} {parent : Option Handle} {handle : Handle}
    {node : ContentNode} :
    (handle, node) ∈ subtree.entries parent ↔
      (handle = subtree.handle ∧ node = subtree.node parent) ∨
        ∃ child ∈ subtree.children, (handle, node) ∈ child.entries (some subtree.handle) := by
  rw [entries_eq, List.mem_cons, List.mem_flatMap, Prod.mk.injEq]

theorem mem_handles {subtree : Subtree} {handle : Handle} :
    handle ∈ subtree.handles ↔
      handle = subtree.handle ∨ ∃ child ∈ subtree.children, handle ∈ child.handles := by
  rw [handles_eq_flatMap, List.mem_cons, List.mem_flatMap]

theorem topmost_entry (subtree : Subtree) (parent : Option Handle) :
    (subtree.handle, subtree.node parent) ∈ subtree.entries parent :=
  mem_entries.mpr (.inl ⟨rfl, rfl⟩)

theorem handle_mem_handles (subtree : Subtree) : subtree.handle ∈ subtree.handles :=
  mem_handles.mpr (.inl rfl)

theorem map_handle_sublist (children : List Subtree) :
    (children.map Subtree.handle).Sublist (children.flatMap handles) := by
  induction children with
  | nil => exact .slnil
  | cons child rest ih =>
    rw [List.map_cons, List.flatMap_cons, handles_eq, List.cons_append]
    exact (ih.trans (List.sublist_append_right _ _)).cons_cons _

namespace Distinct

variable {subtree : Subtree}

theorem handle_not_mem (distinct : subtree.Distinct) :
    subtree.handle ∉ subtree.children.flatMap handles := by
  rw [Distinct, handles_eq_flatMap, List.nodup_cons] at distinct
  exact distinct.1

theorem below (distinct : subtree.Distinct) : (subtree.children.flatMap handles).Nodup := by
  rw [Distinct, handles_eq_flatMap, List.nodup_cons] at distinct
  exact distinct.2

theorem child (distinct : subtree.Distinct) {child : Subtree}
    (listed : child ∈ subtree.children) : child.Distinct :=
  (List.nodup_flatMap.mp distinct.below).1 child listed

theorem children_nodup (distinct : subtree.Distinct) :
    (subtree.children.map Subtree.handle).Nodup :=
  distinct.below.sublist (map_handle_sublist subtree.children)

end Distinct

/-- The parent of a node of a subtree is where the subtree is put, or a node that lists it. -/
theorem parent_of_entry {subtree : Subtree} {parent : Option Handle} {handle : Handle}
    {node : ContentNode} (entered : (handle, node) ∈ subtree.entries parent) :
    (handle = subtree.handle ∧ node.parent = parent) ∨
      ∃ upper above, (upper, above) ∈ subtree.entries parent ∧ node.parent = some upper ∧
        handle ∈ above.children := by
  induction subtree using childrenInduction generalizing parent with
  | step subtree ih =>
    rcases mem_entries.mp entered with ⟨rfl, rfl⟩ | ⟨child, listed, lower⟩
    · exact .inl ⟨rfl, rfl⟩
    · rcases ih child listed lower with ⟨rfl, linked⟩ | ⟨upper, above, entered', linked, listed'⟩
      · refine .inr ⟨_, _, topmost_entry subtree parent, linked, ?_⟩
        exact List.mem_map_of_mem listed
      · exact .inr ⟨upper, above, mem_entries.mpr (.inr ⟨child, listed, entered'⟩), linked, listed'⟩

/-- A node that another one lists is a node of the subtree too, and names that one as parent. -/
theorem entry_of_child {subtree : Subtree} {parent : Option Handle} {upper lower : Handle}
    {above : ContentNode} (entered : (upper, above) ∈ subtree.entries parent)
    (listed : lower ∈ above.children) :
    ∃ node, (lower, node) ∈ subtree.entries parent ∧ node.parent = some upper := by
  induction subtree using childrenInduction generalizing parent with
  | step subtree ih =>
    rcases mem_entries.mp entered with ⟨rfl, rfl⟩ | ⟨child, listed', later⟩
    · obtain ⟨child, listedChild, rfl⟩ := List.mem_map.mp listed
      refine ⟨child.node (some subtree.handle), ?_, rfl⟩
      exact mem_entries.mpr (.inr ⟨child, listedChild, topmost_entry child _⟩)
    · obtain ⟨node, entered', linked⟩ := ih child listed' later
      exact ⟨node, mem_entries.mpr (.inr ⟨child, listed', entered'⟩), linked⟩

theorem children_nodup_of_entry {subtree : Subtree} {parent : Option Handle} {handle : Handle}
    {node : ContentNode} (distinct : subtree.Distinct)
    (entered : (handle, node) ∈ subtree.entries parent) : node.children.Nodup := by
  induction subtree using childrenInduction generalizing parent with
  | step subtree ih =>
    rcases mem_entries.mp entered with ⟨rfl, rfl⟩ | ⟨child, listed, later⟩
    · exact distinct.children_nodup
    · exact ih child listed (distinct.child listed) later

end Subtree

namespace Document

/-- Children that leave an entry as it is do so one after the other. -/
theorem getElem?_storeAll_of_kept {children : List Subtree} {parent handle : Handle}
    (kept : ∀ child ∈ children, ∀ nodes : ExtTreeMap Handle ContentNode,
      (store nodes (some parent) child)[handle]? = nodes[handle]?)
    (nodes : ExtTreeMap Handle ContentNode) :
    (storeAll nodes parent children)[handle]? = nodes[handle]? := by
  induction children with
  | nil => rfl
  | cons child rest ih =>
    rw [storeAll, kept child List.mem_cons_self]
    exact ih fun other later => kept other (List.mem_cons_of_mem _ later)

theorem getElem?_store_of_not_mem {subtree : Subtree} {handle : Handle}
    (absent : handle ∉ subtree.handles) (nodes : ExtTreeMap Handle ContentNode)
    (parent : Option Handle) : (store nodes parent subtree)[handle]? = nodes[handle]? := by
  induction subtree using Subtree.childrenInduction generalizing nodes parent with
  | step subtree ih =>
    rw [Subtree.mem_handles, not_or, not_exists] at absent
    rw [store_eq, getElem?_storeAll_of_kept, ExtTreeMap.getElem?_insert, if_neg]
    · rw [Std.compare_eq_iff_eq]
      exact Ne.symm absent.1
    · intro child listed nodes
      exact ih child listed (fun inside => absent.2 child ⟨listed, inside⟩) nodes _

/-- Of children with distinct handles, the one that carries a handle stores its node. -/
theorem getElem?_storeAll_of_child {children : List Subtree} {parent handle : Handle}
    {child : Subtree} {node : ContentNode} (distinct : (children.flatMap Subtree.handles).Nodup)
    (listed : child ∈ children) (inside : handle ∈ child.handles)
    (held : ∀ nodes, (store nodes (some parent) child)[handle]? = some node)
    (nodes : ExtTreeMap Handle ContentNode) :
    (storeAll nodes parent children)[handle]? = some node := by
  induction children with
  | nil => cases listed
  | cons first rest ih =>
    rw [List.flatMap_cons, List.nodup_append] at distinct
    obtain ⟨-, distinctRest, apart⟩ := distinct
    rw [storeAll]
    rcases List.mem_cons.mp listed with rfl | listed
    · exact held _
    · have absent : handle ∉ first.handles := by
        intro mentioned
        exact apart handle mentioned handle (List.mem_flatMap.mpr ⟨child, listed, inside⟩) rfl
      rw [getElem?_store_of_not_mem absent]
      exact ih distinctRest listed

theorem getElem?_store_of_entry {subtree : Subtree} {handle : Handle} {node : ContentNode}
    (distinct : subtree.Distinct) {parent : Option Handle}
    (entered : (handle, node) ∈ subtree.entries parent)
    (nodes : ExtTreeMap Handle ContentNode) :
    (store nodes parent subtree)[handle]? = some node := by
  induction subtree using Subtree.childrenInduction generalizing nodes parent with
  | step subtree ih =>
    rw [store_eq]
    rcases Subtree.mem_entries.mp entered with ⟨rfl, rfl⟩ | ⟨child, listed, later⟩
    · rw [getElem?_storeAll_of_kept, ExtTreeMap.getElem?_insert_self]
      intro child listed nodes
      apply getElem?_store_of_not_mem
      exact fun inside => distinct.handle_not_mem (List.mem_flatMap.mpr ⟨child, listed, inside⟩)
    · exact getElem?_storeAll_of_child distinct.below listed (Subtree.mem_handles_of_entry later)
        (ih child listed (distinct.child listed) later) _

theorem Under.trans {document : Document} {lower middle upper : Handle}
    (first : document.Under lower middle) (second : document.Under middle upper) :
    document.Under lower upper := by
  induction first with
  | self _ => exact second
  | above stored linked _ ih => exact .above stored linked (ih second)

/-- In a document that holds the nodes of a subtree, parent links lead up to its topmost one. -/
theorem under_handle_of_entries {document : Document} {subtree : Subtree} {parent : Option Handle}
    (held : ∀ lower node, (lower, node) ∈ subtree.entries parent →
      document.get? lower = some node) {handle : Handle}
    (mentioned : handle ∈ subtree.handles) : document.Under handle subtree.handle := by
  induction subtree using Subtree.childrenInduction generalizing parent with
  | step subtree ih =>
    have topmost := held _ _ (subtree.topmost_entry parent)
    rcases Subtree.mem_handles.mp mentioned with rfl | ⟨child, listed, inside⟩
    · exact .self (contains_of_get? topmost)
    · have heldChild : ∀ lower node, (lower, node) ∈ child.entries (some subtree.handle) →
          document.get? lower = some node := by
        intro lower node entered
        exact held lower node (Subtree.mem_entries.mpr (.inr ⟨child, listed, entered⟩))
      have toParent : document.Under child.handle subtree.handle :=
        .above (heldChild _ _ (child.topmost_entry _)) rfl (.self (contains_of_get? topmost))
      exact (ih child listed heldChild inside).trans toParent

end Document

end Accessibility
