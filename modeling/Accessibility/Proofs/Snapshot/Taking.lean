import Accessibility.Proofs.Tree.Order
import Accessibility.Session.Basic
import Mathlib.Data.List.Sort

/-!
The snapshot of a sound tree tells of every live node what the tree knows of it, and lists the nodes
in preorder.
-/

set_option autoImplicit false

namespace Accessibility

open Std

/-- What a snapshot tells of a node at a position of the preorder. -/
def AccessibleNode.info (node : AccessibleNode) (order : Nat) : NodeInfo where
  content := node.content
  tag := node.tag?
  domId := node.domId?
  role := node.role
  scope := node.scope
  parent := node.parent
  children := node.children
  order := order

namespace Snapshot

/-! ### Nodes in order -/

/-- Whether an entry stands before another one, or where it does. -/
def NotAfter (left right : NodeId × NodeInfo) : Prop :=
  left.2.order ≤ right.2.order

instance : DecidableRel NotAfter :=
  fun _ _ => inferInstanceAs (Decidable (_ ≤ _))

instance : Std.Total NotAfter :=
  ⟨fun _ _ => Nat.le_total _ _⟩

instance : IsTrans (NodeId × NodeInfo) NotAfter :=
  ⟨fun _ _ _ => Nat.le_trans⟩

theorem insertInOrder_eq (entry : NodeId × NodeInfo) (entries : List (NodeId × NodeInfo)) :
    insertInOrder entry entries = entries.orderedInsert NotAfter entry := by
  induction entries with
  | nil => rfl
  | cons other rest ih =>
    rw [insertInOrder, List.orderedInsert_cons, ih]
    rfl

theorem entries_eq_insertionSort (snapshot : Snapshot) :
    snapshot.entries = snapshot.nodes.toList.insertionSort NotAfter := by
  rw [entries, List.insertionSort, funext fun entry => funext (insertInOrder_eq entry)]

theorem contains_iff {snapshot : Snapshot} {id : NodeId} :
    snapshot.contains id = true ↔ ∃ info, snapshot.get? id = some info := by
  rw [contains, ExtTreeMap.contains_eq_isSome_getElem?, Option.isSome_iff_exists, get?]

theorem mem_entries {snapshot : Snapshot} {id : NodeId} {info : NodeInfo} :
    (id, info) ∈ snapshot.entries ↔ snapshot.get? id = some info := by
  rw [entries_eq_insertionSort, (List.perm_insertionSort NotAfter _).mem_iff,
    ExtTreeMap.mem_toList_iff_getElem?_eq_some, get?]

theorem nodup_toList (snapshot : Snapshot) : (snapshot.nodes.toList.map Prod.fst).Nodup := by
  rw [ExtTreeMap.map_fst_toList_eq_keys]
  exact ExtTreeMap.nodup_keys

theorem mem_treeOrder {snapshot : Snapshot} {id : NodeId} :
    id ∈ snapshot.treeOrder ↔ snapshot.contains id = true := by
  rw [contains_iff, treeOrder, List.mem_map]
  constructor
  · rintro ⟨⟨_, info⟩, listed, rfl⟩
    exact ⟨info, mem_entries.mp listed⟩
  · rintro ⟨info, stored⟩
    exact ⟨(id, info), mem_entries.mpr stored, rfl⟩

theorem length_treeOrder (snapshot : Snapshot) : snapshot.treeOrder.length = snapshot.size := by
  rw [treeOrder, List.length_map, entries_eq_insertionSort, List.length_insertionSort,
    ExtTreeMap.length_toList, size]

/-- Any list of all nodes in which their orders rise is the tree order. -/
theorem entries_eq {snapshot : Snapshot} {entries : List (NodeId × NodeInfo)}
    (members : ∀ {id : NodeId} {info : NodeInfo},
      (id, info) ∈ entries ↔ snapshot.get? id = some info)
    (rising : entries.Pairwise fun left right => left.2.order < right.2.order) :
    snapshot.entries = entries := by
  have distinct : (entries.map fun entry => entry.2.order).Nodup :=
    List.pairwise_map.mpr (rising.imp Nat.ne_of_lt)
  have perm : snapshot.nodes.toList.Perm entries := by
    refine (List.perm_ext_iff_of_nodup snapshot.nodup_toList.of_map distinct.of_map).mpr ?_
    rintro ⟨id, info⟩
    rw [ExtTreeMap.mem_toList_iff_getElem?_eq_some, members, get?]
  have sorted := (List.perm_insertionSort NotAfter _).trans perm
  rw [entries_eq_insertionSort]
  refine List.Perm.eq_of_pairwise ?_ (List.pairwise_insertionSort NotAfter _)
    (rising.imp Nat.le_of_lt) sorted
  intro left right listed listedRight before after
  exact List.inj_on_of_nodup_map distinct (sorted.mem_iff.mp listed) listedRight
    (Nat.le_antisymm before after)

end Snapshot

/-! ### The snapshot of a tree -/

namespace Tree

variable {tree : Tree} {edges : Relation.Family Edges} {id : NodeId} {node : AccessibleNode}

/-- The nodes told of so far, with one more. -/
def withInfo (tree : Tree) (nodes : ExtTreeMap NodeId NodeInfo) (entry : NodeId × Nat) :
    ExtTreeMap NodeId NodeInfo :=
  match tree.get? entry.1 with
  | none => nodes
  | some node => nodes.insert entry.1 (node.info entry.2)

theorem nodes_snapshot (tree : Tree) (edges : Relation.Family Edges) :
    (tree.snapshot edges).nodes = tree.preorder.zipIdx.foldl tree.withInfo ∅ :=
  rfl

theorem getElem?_foldl_withInfo {ids : List NodeId} (nodup : ids.Nodup)
    (live : ∀ id ∈ ids, ∃ node, tree.live id = some node) (start : Nat)
    (nodes : ExtTreeMap NodeId NodeInfo) (id : NodeId) :
    ((ids.zipIdx start).foldl tree.withInfo nodes)[id]? =
      if id ∈ ids then (tree.live id).map fun node => node.info (start + ids.idxOf id)
      else nodes[id]? := by
  induction ids generalizing start nodes with
  | nil => rfl
  | cons head rest ih =>
    obtain ⟨fresh, nodupRest⟩ := List.nodup_cons.mp nodup
    obtain ⟨node, alive⟩ := live head List.mem_cons_self
    rw [List.zipIdx_cons, List.foldl_cons,
      ih nodupRest fun other listed => live other (List.mem_cons_of_mem _ listed)]
    by_cases here : head = id
    · subst here
      rw [if_neg fresh, if_pos List.mem_cons_self, List.idxOf_cons_self, Nat.add_zero, alive,
        withInfo, get?_of_live alive]
      exact ExtTreeMap.getElem?_insert_self
    · rw [List.idxOf_cons_ne rest here, withInfo, get?_of_live alive]
      simp only [List.mem_cons, Ne.symm here, false_or]
      split
      · rw [Nat.add_assoc, Nat.add_comm 1]
      · rw [ExtTreeMap.getElem?_insert, if_neg (by simpa using here)]

/-- A snapshot tells of exactly the live nodes, each with its position in preorder. -/
theorem get?_snapshot (sound : tree.Sound) :
    (tree.snapshot edges).get? id =
      (tree.live id).map fun node => node.info (tree.preorder.idxOf id) := by
  have live (id : NodeId) (listed : id ∈ tree.preorder) : ∃ node, tree.live id = some node :=
    sound.mem_preorder.mp listed
  rw [Snapshot.get?, nodes_snapshot, getElem?_foldl_withInfo sound.preorder_nodup live]
  split
  · rw [Nat.zero_add]
  · rename_i absent
    cases alive : tree.live id with
    | none => simp
    | some node => exact absurd (sound.mem_preorder.mpr ⟨node, alive⟩) absent

theorem get?_snapshot_of_live (sound : tree.Sound) (alive : tree.live id = some node) :
    (tree.snapshot edges).get? id = some (node.info (tree.preorder.idxOf id)) := by
  rw [get?_snapshot sound, alive, Option.map_some]

theorem contains_snapshot (sound : tree.Sound) :
    (tree.snapshot edges).contains id = true ↔ ∃ node, tree.live id = some node := by
  have stored : (tree.snapshot edges).get? id = _ := get?_snapshot sound
  rw [Snapshot.get?] at stored
  rw [Snapshot.contains, ExtTreeMap.contains_eq_isSome_getElem?, stored, Option.isSome_map,
    Option.isSome_iff_exists]

theorem entries_snapshot (sound : tree.Sound) :
    (tree.snapshot edges).entries = tree.preorder.filterMap fun id =>
      (tree.live id).map fun node => (id, node.info (tree.preorder.idxOf id)) := by
  refine Snapshot.entries_eq (fun {id info} => ?_) ?_
  · rw [List.mem_filterMap, get?_snapshot sound, Option.map_eq_some_iff]
    constructor
    · rintro ⟨other, -, found⟩
      obtain ⟨node, alive, same⟩ := Option.map_eq_some_iff.mp found
      cases same
      exact ⟨node, alive, rfl⟩
    · rintro ⟨node, alive, rfl⟩
      exact ⟨id, sound.mem_preorder.mpr ⟨node, alive⟩, by rw [alive, Option.map_some]⟩
  · refine List.pairwise_filterMap.mpr ?_
    refine (Lists.pairwise_idxOf sound.preorder_nodup).imp ?_
    intro left right less before foundLeft after foundRight
    obtain ⟨node, -, rfl⟩ := Option.map_eq_some_iff.mp foundLeft
    obtain ⟨node', -, rfl⟩ := Option.map_eq_some_iff.mp foundRight
    exact less

/-- The tree order of a snapshot is the preorder of the tree. -/
theorem treeOrder_snapshot (sound : tree.Sound) :
    (tree.snapshot edges).treeOrder = tree.preorder := by
  have walk (ids : List NodeId) (live : ∀ id ∈ ids, ∃ node, tree.live id = some node) :
      (ids.filterMap fun id =>
        (tree.live id).map fun node => (id, node.info (tree.preorder.idxOf id))).map Prod.fst =
        ids := by
    induction ids with
    | nil => rfl
    | cons head rest ih =>
      obtain ⟨node, alive⟩ := live head List.mem_cons_self
      rw [List.filterMap_cons]
      simp only [alive, Option.map_some, List.map_cons]
      rw [ih fun id listed => live id (List.mem_cons_of_mem _ listed)]
  rw [Snapshot.treeOrder, entries_snapshot sound]
  exact walk _ fun id listed => sound.mem_preorder.mp listed

/-- A snapshot finds the node of a content node where the tree does. -/
theorem nodeFor?_snapshot (sound : tree.Sound) (content : Handle) :
    (tree.snapshot edges).nodeFor? content = tree.nodeFor? content := by
  have stored {id : NodeId} {info : NodeInfo} :
      (id, info) ∈ (tree.snapshot edges).nodes.toList ↔
        ∃ node, tree.live id = some node ∧ node.info (tree.preorder.idxOf id) = info := by
    have told : (tree.snapshot edges).get? id = _ := get?_snapshot sound
    rw [ExtTreeMap.mem_toList_iff_getElem?_eq_some, ← Option.map_eq_some_iff, ← told, Snapshot.get?]
  rw [Snapshot.nodeFor?]
  cases found : (tree.snapshot edges).nodes.toList.find? (·.2.content == content) with
  | some entry =>
    obtain ⟨id, info⟩ := entry
    obtain ⟨node, alive, rfl⟩ := stored.mp (List.mem_of_find?_eq_some found)
    have holds := List.find?_some found
    have same : node.content = content := eq_of_beq holds
    rw [Option.map_some, ← same, sound.nodeFor?_of_live alive]
  | none =>
    rw [Option.map_none, eq_comm, Option.eq_none_iff_forall_ne_some]
    intro id known
    obtain ⟨node, alive, same⟩ := sound.live_of_nodeFor? known
    have absent := List.find?_eq_none.mp found _ (stored.mpr ⟨node, alive, rfl⟩)
    exact absent (beq_iff_eq.mpr same)

end Tree

end Accessibility
