import Accessibility.Proofs.Tree.Paths

/-!
Lookup by DOM id against the walk from the root. The index lists the nodes with a DOM id in the order
in which they got it, and pending nodes among them; of the live ones the comparison of paths picks the
one that the walk meets first.
-/

set_option autoImplicit false

namespace Accessibility.Tree

open Std

variable {tree : Tree}

/-- The attribute tells what DOM id a node has, and the empty value is none. -/
theorem carries_iff_attribute {key : ScopedId} {node : AccessibleNode} :
    Carries key node ↔ node.scope = key.scope ∧ key.domId ≠ "" ∧
      node.attributes["id"]? = some key.domId := by
  rw [Carries, AccessibleNode.domId?, Attributes.domId?, Option.filter_eq_some_iff,
    Bool.not_eq_true', ← Bool.not_eq_true, String.isEmpty_iff]
  exact and_congr_right fun _ => and_comm

/-- The first of some nodes in tree order stands at the head of their list if the list is in tree
order. -/
theorem first?_of_rising {ids : List NodeId}
    (rising : ids.Pairwise fun left right => tree.order left right = .lt) :
    tree.first? ids = ids.head? := by
  induction ids with
  | nil => rfl
  | cons id rest ih =>
    obtain ⟨before, rising⟩ := List.pairwise_cons.mp rising
    rw [first?, ih rising]
    cases rest with
    | nil => rfl
    | cons next rest =>
      have after : tree.order next id = .gt :=
        OrientedCmp.gt_iff_lt.mpr (before next List.mem_cons_self)
      rw [List.head?_cons]
      dsimp only
      rw [after, if_neg Ordering.noConfusion, List.head?_cons]

/-- Whether the attributes of a node give it a DOM id in a scope. The empty value gives none. -/
def answersTo (tree : Tree) (domId : String) (scope : Scope) (id : NodeId) : Bool :=
  (tree.get? id).any fun node =>
    node.scope = scope ∧ domId ≠ "" ∧ node.attributes["id"]? = some domId

theorem answersTo_of_live {id : NodeId} {node : AccessibleNode} (alive : tree.live id = some node)
    {domId : String} {scope : Scope} :
    tree.answersTo domId scope id = true ↔ Carries ⟨scope, domId⟩ node := by
  rw [answersTo, get?_of_live alive, Option.any_some, decide_eq_true_iff, carries_iff_attribute]

theorem not_answersTo_empty (tree : Tree) (scope : Scope) (id : NodeId) :
    ¬ tree.answersTo "" scope id = true := by
  rw [answersTo, Option.any_eq_true]
  rintro ⟨node, -, answers⟩
  exact (of_decide_eq_true answers).2.1 rfl

theorem lookup?_empty (tree : Tree) (scope : Scope) : tree.lookup? "" scope = none :=
  rfl

namespace Sound

/-- The live nodes in the index under a DOM id are those that answer to it. -/
theorem mem_named_alive_iff (sound : tree.Sound) {domId : String} {scope : Scope} {id : NodeId} :
    id ∈ (tree.named ⟨scope, domId⟩).filter tree.isAlive ↔
      id ∈ tree.preorder.filter (tree.answersTo domId scope) := by
  rw [List.mem_filter, List.mem_filter, sound.named_alive_iff, sound.mem_preorder]
  constructor
  · rintro ⟨node, alive, carries⟩
    exact ⟨⟨node, alive⟩, (answersTo_of_live alive).mpr carries⟩
  · rintro ⟨⟨node, alive⟩, answers⟩
    exact ⟨node, alive, (answersTo_of_live alive).mp answers⟩

theorem lookup?_eq_find? (sound : tree.Sound) (domId : String) (scope : Scope) :
    tree.lookup? domId scope = tree.preorder.find? (tree.answersTo domId scope) := by
  by_cases unnamed : domId = ""
  · subst unnamed
    rw [lookup?_empty, eq_comm, List.find?_eq_none]
    exact fun id _ => not_answersTo_empty tree scope id
  · have alive (id : NodeId) (listed : id ∈ (tree.named ⟨scope, domId⟩).filter tree.isAlive) :
        ∃ node, tree.live id = some node :=
      isAlive_iff_live.mp (List.mem_filter.mp listed).2
    have rising := sound.pairwise_preorder.filter (tree.answersTo domId scope)
    calc tree.lookup? domId scope
        = tree.first? ((tree.named ⟨scope, domId⟩).filter tree.isAlive) := by
          rw [lookup?, if_neg (mt String.isEmpty_iff.mp unnamed), Tree.named]
      _ = tree.first? (tree.preorder.filter (tree.answersTo domId scope)) :=
          sound.first?_congr (fun _ => sound.mem_named_alive_iff) alive
      _ = (tree.preorder.filter (tree.answersTo domId scope)).head? := first?_of_rising rising
      _ = tree.preorder.find? (tree.answersTo domId scope) := List.head?_filter

end Sound

/-- DOM ids lead to the live nodes that the walk from the root meets first. -/
structure FindsFirst (tree : Tree) : Prop where
  first : ∀ (domId : String) (scope : Scope),
    tree.lookup? domId scope = tree.preorder.find? (tree.answersTo domId scope)
  missing : ∀ (domId : String) (scope : Scope), tree.lookup? domId scope = none ↔
    ¬ ∃ id, tree.isAlive id = true ∧ tree.answersTo domId scope id = true
  nobody : ∀ scope : Scope, tree.lookup? "" scope = none

/-- In every tree that calls lead to, whatever pending nodes the index still lists, a DOM id leads to
the first live node in preorder that has it in the scope, and the empty one leads nowhere. -/
theorem findsFirst_of_reachable (reachable : tree.Reachable) : tree.FindsFirst := by
  have sound := reachable.intact.toSound
  refine ⟨sound.lookup?_eq_find?, ?_, lookup?_empty tree⟩
  intro domId scope
  rw [sound.lookup?_eq_find?, List.find?_eq_none, not_exists]
  refine forall_congr' fun id => ?_
  rw [sound.mem_preorder, ← isAlive_iff_live, not_and]

/-- A field, and one of the same name that comes later but stands before it. A third one gets that
name when it has already shut down; its content comes back, it is retired, and its slot goes to one
more field of that name. -/
def namesakeCalls : List Call :=
  let named (domId : String) : Attributes := Attributes.set ∅ "id" domId
  let seed (attributes : Attributes) : Seed := ⟨.element "input", attributes, .document⟩
  [.createRoot ⟨0⟩ ⟨.document, ∅, .document⟩, .create ⟨1⟩ ⟨1, 1⟩ 0 (seed (named "name")),
    .create ⟨2⟩ ⟨1, 1⟩ 0 (seed ∅), .create ⟨3⟩ ⟨1, 1⟩ 0 (seed (named "name")),
    .beginShutdown ⟨3, 1⟩, .sync ⟨3, 1⟩ (named "name") .document, .create ⟨2⟩ ⟨1, 1⟩ 0 (seed ∅),
    .retire ⟨3, 1⟩, .create ⟨4⟩ ⟨1, 1⟩ 9 (seed (named "name"))]

theorem findsFirst_namesakeCalls :
    ∃ tree : Tree, tree = namesakeCalls.foldl (fun tree call => (call.run tree).1) empty ∧
      tree.Reachable ∧ tree.FindsFirst ∧
      tree.named ⟨.document, "name"⟩ = [⟨2, 1⟩, ⟨4, 1⟩, ⟨3, 1⟩, ⟨3, 3⟩] ∧
      tree.lifecycle ⟨3, 1⟩ = .dead ∧
      tree.preorder = [⟨1, 1⟩, ⟨5, 1⟩, ⟨4, 1⟩, ⟨2, 1⟩, ⟨3, 3⟩] ∧
      tree.lookup? "name" .document = some ⟨4, 1⟩ ∧ tree.lookup? "name" (.shadow ⟨1⟩) = none := by
  have reachable :
      (namesakeCalls.foldl (fun tree call => (call.run tree).1) empty).Reachable := by
    iterate 9 refine .call ?_ _ trivial
    exact .empty
  exact ⟨_, rfl, reachable, findsFirst_of_reachable reachable, by decide +kernel,
    by decide +kernel, by decide +kernel, by decide +kernel, by decide +kernel⟩

end Accessibility.Tree
