import Accessibility.Proofs.Document.Insertion

/-!
A well-formed document read back as a subtree is the document again: the subtree holds every node
once, under its handle and with its data, and storing it anew gives the same nodes.
-/

set_option autoImplicit false

namespace Accessibility.Document

variable {document : Document}

/-- The stored nodes of some handles. -/
def storedOf (document : Document) (handles : List Handle) : List (Handle × ContentNode) :=
  handles.filterMap fun handle => (document.get? handle).map (handle, ·)

theorem mem_storedOf {handles : List Handle} {handle : Handle} {node : ContentNode} :
    (handle, node) ∈ document.storedOf handles ↔
      handle ∈ handles ∧ document.get? handle = some node := by
  rw [storedOf, List.mem_filterMap]
  constructor
  · rintro ⟨other, listed, found⟩
    obtain ⟨node', stored, same⟩ := Option.map_eq_some_iff.mp found
    cases same
    exact ⟨listed, stored⟩
  · rintro ⟨listed, stored⟩
    exact ⟨handle, listed, by rw [stored, Option.map_some]⟩

theorem storedOf_cons {handle : Handle} {node : ContentNode}
    (stored : document.get? handle = some node) (rest : List Handle) :
    document.storedOf (handle :: rest) = (handle, node) :: document.storedOf rest := by
  rw [storedOf, List.filterMap_cons, stored]
  rfl

theorem storedOf_flatMap {α : Type} (parts : List α) (handlesOf : α → List Handle) :
    document.storedOf (parts.flatMap handlesOf) =
      parts.flatMap fun part => document.storedOf (handlesOf part) :=
  List.filterMap_flatMap

/-- A walk down meets the handles of what is read there. -/
theorem descend_eq_handles (document : Document) (depth : Nat) (handle : Handle) :
    document.descend depth handle = (document.readFrom depth handle).flatMap Subtree.handles := by
  induction depth generalizing handle with
  | zero => rfl
  | succ depth ih =>
    simp only [descend, readFrom]
    cases document.get? handle with
    | none => rfl
    | some node =>
      dsimp only
      rw [List.flatMap_singleton, Subtree.handles_eq_flatMap, List.flatMap_assoc]
      exact congrArg (handle :: ·) (List.flatMap_congr fun child _ => ih child)

/-- A document that holds the nodes of a subtree reads as the subtree there, if all of them are in
reach. -/
theorem readFrom_of_entries {subtree : Subtree} {parent : Option Handle} {depth : Nat}
    (held : ∀ lower node, (lower, node) ∈ subtree.entries parent →
      document.get? lower = some node)
    (bounded : ∀ steps lower, Walk.Reaches document.childrenOf? steps subtree.handle lower →
      steps < depth) :
    document.readFrom depth subtree.handle = [subtree] := by
  induction subtree using Subtree.childrenInduction generalizing parent depth with
  | step subtree ih =>
    cases depth with
    | zero => exact absurd (bounded 0 _ (.here subtree.handle)) (Nat.not_lt_zero 0)
    | succ depth =>
      have stored := held _ _ (subtree.topmost_entry parent)
      have children : (subtree.node parent).children.flatMap (document.readFrom depth) =
          subtree.children := by
        rw [Subtree.node, List.flatMap_map]
        refine Eq.trans (List.flatMap_congr fun child listed => ?_) (List.flatMap_singleton' _)
        have heldChild : ∀ lower node, (lower, node) ∈ child.entries (some subtree.handle) →
            document.get? lower = some node := by
          intro lower node entered
          exact held lower node (Subtree.mem_entries.mpr (.inr ⟨child, listed, entered⟩))
        refine ih child listed heldChild fun steps lower reached => ?_
        have bound := bounded (steps + 1) lower
          (.step (childrenOf?_of_get? stored) (List.mem_map_of_mem listed) reached)
        omega
      simp only [readFrom, stored, children]
      cases subtree
      rfl

/-- What is read at a node is a subtree of the nodes below it, as far as they are in reach. -/
theorem readFrom_eq (wellFormed : document.WellFormed) {depth : Nat} {handle : Handle}
    {node : ContentNode} (stored : document.get? handle = some node)
    (bounded : ∀ steps lower, Walk.Reaches document.childrenOf? steps handle lower →
      steps < depth) :
    ∃ subtree, document.readFrom depth handle = [subtree] ∧ subtree.handle = handle ∧
      subtree.entries node.parent = document.storedOf (document.descend depth handle) := by
  induction depth generalizing handle node with
  | zero => exact absurd (bounded 0 handle (.here handle)) (Nat.not_lt_zero 0)
  | succ depth ih =>
    have child {child : Handle} (listed : child ∈ node.children) :
        ∃ subtree, document.readFrom depth child = [subtree] ∧ subtree.handle = child ∧
          subtree.entries (some handle) = document.storedOf (document.descend depth child) := by
      obtain ⟨below, storedBelow, linked⟩ := wellFormed.linked stored listed
      rw [← linked]
      refine ih storedBelow fun steps lower reached => ?_
      have bound := bounded (steps + 1) lower
        (.step (childrenOf?_of_get? stored) listed reached)
      omega
    have handles : (node.children.flatMap (document.readFrom depth)).map Subtree.handle =
        node.children := by
      rw [List.map_flatMap]
      refine Eq.trans (List.flatMap_congr fun other listed => ?_) (List.flatMap_singleton' _)
      obtain ⟨subtree, read, same, -⟩ := child listed
      rw [read, List.map_singleton, same]
    simp only [readFrom, stored, descend]
    refine ⟨_, rfl, rfl, ?_⟩
    rw [Subtree.entries_eq, storedOf_cons stored, storedOf_flatMap]
    congr 1
    · rw [Subtree.node, handles]
    · rw [List.flatMap_assoc]
      refine List.flatMap_congr fun other listed => ?_
      obtain ⟨subtree, read, -, entries⟩ := child listed
      rw [read, List.flatMap_singleton, entries]

/-- The document read back and stored anew is the same document. -/
theorem toSubtree?_eq (wellFormed : document.WellFormed) :
    ∃ subtree, document.toSubtree? = some subtree ∧ subtree.handle = document.root ∧
      subtree.Distinct ∧ ofSubtree subtree = document := by
  obtain ⟨top, storedTop, parentless⟩ := wellFormed.root_stored
  have rooted := wellFormed.contains_root
  obtain ⟨subtree, read, atRoot, entries⟩ := readFrom_eq wellFormed storedTop
    fun steps lower reached => wellFormed.steps_lt_size reached
  rw [parentless] at entries
  have met {handle : Handle} (stored : document.contains handle = true) :
      handle ∈ document.descend document.size document.root := by
    rw [← wellFormed.below_eq_descend rooted, wellFormed.mem_below rooted]
    exact wellFormed.root_leads stored
  have handles : subtree.handles = document.descend document.size document.root := by
    rw [descend_eq_handles, read, List.flatMap_singleton]
  have distinct : subtree.Distinct := by
    rw [Subtree.Distinct, handles]
    exact wellFormed.descend_nodup document.size rooted
  refine ⟨subtree, ?_, atRoot, distinct, ext_get? atRoot fun handle => ?_⟩
  · rw [toSubtree?, subtreeAt?, read, List.head?_cons]
  · ext node
    rw [get?_ofSubtree distinct, entries, mem_storedOf]
    exact ⟨And.right, fun stored => ⟨met (contains_of_get? stored), stored⟩⟩

end Accessibility.Document
