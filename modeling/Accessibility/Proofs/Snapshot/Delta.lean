import Accessibility.Proofs.Snapshot.Consistency
import Accessibility.Snapshot.Notice

/-!
The notices that lead from one snapshot to the next tell exactly what differs. Of nodes that come and
go only the topmost are told; but every other one is below one of these, and a node that only moves
shows in the child list of its new parent.
-/

set_option autoImplicit false

namespace Accessibility

/-- The node that a notice is about. -/
def Notice.Matter.node : Notice.Matter → NodeId
  | .hidden node _ _ => node
  | .shown node _ _ => node
  | .reordered node _ => node
  | .related node _ _ => node

/-- Whether one of some notices tells this. -/
def Notice.Among (notices : List Notice) (matter : Notice.Matter) : Prop :=
  ∃ notice ∈ notices, notice.matter = matter

namespace Snapshot

/-! ### Links -/

/-- The nodes of a snapshot hang below its root, and parent links and child lists agree. -/
structure Linked (snapshot : Snapshot) : Prop where
  root_stored : ∀ {root : NodeId}, snapshot.root = some root → snapshot.contains root = true
  contains_parent : ∀ {id parent : NodeId} {info : NodeInfo}, snapshot.get? id = some info →
    info.parent = some parent → snapshot.contains parent = true
  rooted : ∀ {id : NodeId} {info : NodeInfo}, snapshot.get? id = some info →
    (info.parent = none ↔ snapshot.root = some id)
  listed : ∀ {parent child : NodeId} {above : NodeInfo}, snapshot.get? parent = some above →
    (child ∈ above.children ↔
      ∃ info, snapshot.get? child = some info ∧ info.parent = some parent)
  grounded : ∀ {motive : NodeId → Prop}, (∀ {root : NodeId}, snapshot.root = some root → motive root) →
    (∀ {id parent : NodeId} {info : NodeInfo}, snapshot.get? id = some info →
      info.parent = some parent → motive parent → motive id) →
    ∀ {id : NodeId}, snapshot.contains id = true → motive id

theorem Linked.versioned {snapshot : Snapshot} (linked : snapshot.Linked) (version : Version) :
    ({ snapshot with version := version } : Snapshot).Linked :=
  ⟨linked.root_stored, linked.contains_parent, linked.rooted, linked.listed, linked.grounded⟩

/-- Parent links lead up from a node to another one, and no node on the way, both ends included, is in
the other snapshot. -/
inductive Climb (snapshot other : Snapshot) : NodeId → NodeId → Prop
  | here {id : NodeId} (missing : other.contains id = false) : Climb snapshot other id id
  | up {id parent top : NodeId} {info : NodeInfo} (missing : other.contains id = false)
      (stored : snapshot.get? id = some info) (linked : info.parent = some parent)
      (rest : Climb snapshot other parent top) : Climb snapshot other id top

/-- Of the nodes that another snapshot has not, exactly the topmost are told: those whose parent it
has. Every other one is below one of these. -/
structure Topmost (snapshot other : Snapshot) (told : NodeId → Handle → Option NodeId → Prop) :
    Prop where
  exact : ∀ {id : NodeId} {content : Handle} {parent : Option NodeId}, told id content parent ↔
    ∃ info above, snapshot.get? id = some info ∧ other.contains id = false ∧
      info.content = content ∧ info.parent = parent ∧ parent = some above ∧
      other.contains above = true
  covering : ∀ {id : NodeId}, snapshot.contains id = true → other.contains id = false →
    ∃ top content parent, snapshot.Climb other id top ∧ told top content parent

/-- A node that is missing from a snapshot with the same root is below a topmost one. -/
theorem Linked.exists_topmost {snapshot other : Snapshot} (linked : snapshot.Linked)
    (root : ∀ {top : NodeId}, snapshot.root = some top → other.contains top = true) {id : NodeId}
    (inside : snapshot.contains id = true) (missing : other.contains id = false) :
    ∃ top info parent, snapshot.Climb other id top ∧ snapshot.get? top = some info ∧
      other.contains top = false ∧ info.parent = some parent ∧ other.contains parent = true := by
  refine linked.grounded (motive := fun id => other.contains id = false →
    ∃ top info parent, snapshot.Climb other id top ∧ snapshot.get? top = some info ∧
      other.contains top = false ∧ info.parent = some parent ∧ other.contains parent = true)
    ?_ ?_ inside missing
  · intro top atTop missing
    rw [root atTop] at missing
    cases missing
  · intro id parent info stored above ih missing
    cases around : other.contains parent with
    | true => exact ⟨id, info, parent, .here missing, stored, missing, above, around⟩
    | false =>
      obtain ⟨top, topInfo, anchor, climb, rest⟩ := ih around
      exact ⟨top, topInfo, anchor, .up missing stored above climb, rest⟩

theorem Topmost.of_exact {snapshot other : Snapshot} (linked : snapshot.Linked)
    (root : ∀ {top : NodeId}, snapshot.root = some top → other.contains top = true)
    {told : NodeId → Handle → Option NodeId → Prop}
    (exact : ∀ {id : NodeId} {content : Handle} {parent : Option NodeId}, told id content parent ↔
      ∃ info above, snapshot.get? id = some info ∧ other.contains id = false ∧
        info.content = content ∧ info.parent = parent ∧ parent = some above ∧
        other.contains above = true) : snapshot.Topmost other told where
  exact := exact
  covering := by
    intro id inside missing
    obtain ⟨top, info, parent, climb, stored, gone, above, stays⟩ :=
      linked.exists_topmost root inside missing
    exact ⟨top, info.content, some parent, climb,
      exact.mpr ⟨info, parent, stored, gone, rfl, above, rfl, stays⟩⟩

/-! ### Groups of notices -/

/-- What is told of those nodes of a snapshot for which something holds, in tree order. -/
def tell (snapshot : Snapshot) (holds : NodeId → NodeInfo → Bool)
    (matter : NodeId → NodeInfo → Notice.Matter) : List Notice.Matter :=
  snapshot.entries.filterMap fun entry =>
    if holds entry.1 entry.2 then some (matter entry.1 entry.2) else none

section Tell

variable {snapshot previous next : Snapshot} {holds : NodeId → NodeInfo → Bool}
  {matter : NodeId → NodeInfo → Notice.Matter} {told : Notice.Matter}

theorem mem_tell : told ∈ snapshot.tell holds matter ↔
    ∃ id info, snapshot.get? id = some info ∧ holds id info = true ∧ matter id info = told := by
  rw [tell, List.mem_filterMap]
  constructor
  · rintro ⟨⟨id, info⟩, listed, found⟩
    split at found
    · exact ⟨id, info, mem_entries.mp listed, ‹_›, Option.some.inj found⟩
    · cases found
  · rintro ⟨id, info, stored, held, rfl⟩
    exact ⟨(id, info), mem_entries.mpr stored, if_pos held⟩

/-- Notices of one shape, about nodes in their order. -/
structure Group (notices : List Notice) (shape : Notice.Matter → Prop) (order : List NodeId) :
    Prop where
  shape : ∀ notice ∈ notices, shape notice.matter
  inOrder : (notices.map (·.matter.node)).Sublist order

/-- What is told of the nodes of a snapshot is a group in tree order. -/
theorem group_tell {shape : Notice.Matter → Prop} (fits : ∀ id info, shape (matter id info))
    (own : ∀ id info, (matter id info).node = id) (version : Version) :
    Group ((snapshot.tell holds matter).map (⟨version, ·⟩)) shape snapshot.treeOrder where
  shape := by
    intro notice listed
    obtain ⟨told, listedTold, rfl⟩ := List.mem_map.mp listed
    obtain ⟨id, info, -, -, rfl⟩ := mem_tell.mp listedTold
    exact fits id info
  inOrder := by
    rw [List.map_map, tell, treeOrder]
    induction snapshot.entries with
    | nil => exact .slnil
    | cons entry rest ih =>
      rw [List.filterMap_cons, List.map_cons]
      cases held : holds entry.1 entry.2 with
      | false =>
        simp only [Bool.false_eq_true, if_false]
        exact ih.cons _
      | true =>
        simp only [if_true, List.map_cons, Function.comp_apply, own]
        exact ih.cons_cons _

theorem hiddenSince_eq : previous.hiddenSince next = previous.tell
    (fun id info => !next.contains id && info.parent.any next.contains)
    (fun id info => .hidden id info.content info.parent) :=
  rfl

theorem shownSince_eq : previous.shownSince next = next.tell
    (fun id info => !previous.contains id && info.parent.all previous.contains)
    (fun id info => .shown id info.content info.parent) :=
  rfl

theorem reorderedSince_eq : previous.reorderedSince next = next.tell
    (fun id info => (previous.get? id).any (·.children != info.children))
    (fun id info => .reordered id info.content) :=
  rfl

theorem relatedSince_eq (among : RelationSet) : previous.relatedSince next among = next.tell
    (fun id _ => previous.contains id && !(previous.relationsChanged next among id).isEmpty)
    (fun id info => .related id info.content (previous.relationsChanged next among id)) :=
  rfl

theorem among_noticesTo {among : RelationSet} : Notice.Among (previous.noticesTo next among) told ↔
    told ∈ previous.hiddenSince next ∨ told ∈ previous.shownSince next ∨
      told ∈ previous.reorderedSince next ∨ told ∈ previous.relatedSince next among := by
  simp only [Notice.Among, noticesTo, List.mem_map, exists_exists_and_eq_and, exists_eq_right,
    List.mem_append, or_assoc]

theorem among_hidden {among : RelationSet} {id : NodeId} {content : Handle}
    {parent : Option NodeId} :
    Notice.Among (previous.noticesTo next among) (.hidden id content parent) ↔
      ∃ info, previous.get? id = some info ∧ next.contains id = false ∧
        info.parent.any next.contains = true ∧ info.content = content ∧ info.parent = parent := by
  rw [among_noticesTo, hiddenSince_eq, shownSince_eq, reorderedSince_eq, relatedSince_eq]
  simp only [mem_tell, reduceCtorEq, and_false, exists_false, or_false,
    Notice.Matter.hidden.injEq, Bool.and_eq_true, Bool.not_eq_true']
  constructor
  · rintro ⟨_, info, stored, ⟨gone, above⟩, rfl, same⟩
    exact ⟨info, stored, gone, above, same⟩
  · rintro ⟨info, stored, gone, above, same⟩
    exact ⟨id, info, stored, ⟨gone, above⟩, rfl, same⟩

theorem among_shown {among : RelationSet} {id : NodeId} {content : Handle}
    {parent : Option NodeId} :
    Notice.Among (previous.noticesTo next among) (.shown id content parent) ↔
      ∃ info, next.get? id = some info ∧ previous.contains id = false ∧
        info.parent.all previous.contains = true ∧ info.content = content ∧
        info.parent = parent := by
  rw [among_noticesTo, hiddenSince_eq, shownSince_eq, reorderedSince_eq, relatedSince_eq]
  simp only [mem_tell, reduceCtorEq, and_false, exists_false, or_false, false_or,
    Notice.Matter.shown.injEq, Bool.and_eq_true, Bool.not_eq_true']
  constructor
  · rintro ⟨_, info, stored, ⟨new, above⟩, rfl, same⟩
    exact ⟨info, stored, new, above, same⟩
  · rintro ⟨info, stored, new, above, same⟩
    exact ⟨id, info, stored, ⟨new, above⟩, rfl, same⟩

theorem among_reordered {among : RelationSet} {id : NodeId} {content : Handle} :
    Notice.Among (previous.noticesTo next among) (.reordered id content) ↔
      ∃ before after, previous.get? id = some before ∧ next.get? id = some after ∧
        after.content = content ∧ before.children ≠ after.children := by
  rw [among_noticesTo, hiddenSince_eq, shownSince_eq, reorderedSince_eq, relatedSince_eq]
  simp only [mem_tell, reduceCtorEq, and_false, exists_false, or_false, false_or,
    Notice.Matter.reordered.injEq, Option.any_eq_true, bne_iff_ne]
  constructor
  · rintro ⟨_, after, stored, ⟨before, storedBefore, differ⟩, rfl, same⟩
    exact ⟨before, after, storedBefore, stored, same, differ⟩
  · rintro ⟨before, after, storedBefore, stored, same, differ⟩
    exact ⟨id, after, stored, ⟨before, storedBefore, differ⟩, rfl, same⟩

theorem contains_relationsChanged {among : RelationSet} {id : NodeId} {relation : Relation} :
    (previous.relationsChanged next among id).contains relation = true ↔
      among.contains relation = true ∧ previous.targets relation id ≠ next.targets relation id := by
  rw [relationsChanged, RelationSet.contains, Relation.Family.get_ofFn, Bool.and_eq_true, bne_iff_ne]

theorem isEmpty_eq_false {set : RelationSet} :
    set.isEmpty = false ↔ ∃ relation, set.contains relation = true := by
  rw [RelationSet.isEmpty, ← Bool.not_eq_true, List.all_eq_true]
  simp only [Relation.mem_all, forall_const, Bool.not_eq_true', not_forall, Bool.not_eq_false]

theorem among_related {among : RelationSet} {id : NodeId} {content : Handle}
    {relations : RelationSet} :
    Notice.Among (previous.noticesTo next among) (.related id content relations) ↔
      ∃ info, next.get? id = some info ∧ previous.contains id = true ∧ info.content = content ∧
        previous.relationsChanged next among id = relations ∧
        ∃ relation, relations.contains relation = true := by
  rw [among_noticesTo, hiddenSince_eq, shownSince_eq, reorderedSince_eq, relatedSince_eq]
  simp only [mem_tell, reduceCtorEq, and_false, exists_false, false_or,
    Notice.Matter.related.injEq, Bool.and_eq_true, Bool.not_eq_true', isEmpty_eq_false]
  constructor
  · rintro ⟨_, info, stored, ⟨inside, some⟩, rfl, same, rfl⟩
    exact ⟨info, stored, inside, same, rfl, some⟩
  · rintro ⟨info, stored, inside, same, rfl, some⟩
    exact ⟨id, info, stored, ⟨inside, some⟩, rfl, same, rfl⟩

end Tell

/-! ### The whole difference -/

/-- What notices tell of two snapshots. Of nodes that come and go the topmost are told. Of nodes in
both snapshots it is told whose child list differs, and all relations under which they have other
targets. A node with another parent is below a new one, or below one whose child list differs. The
notices come in four groups, each in tree order. -/
structure Delta (previous next : Snapshot) (notices : List Notice) : Prop where
  versions : ∀ notice ∈ notices, notice.version = next.version
  hidden : previous.Topmost next fun id content parent =>
    Notice.Among notices (.hidden id content parent)
  shown : next.Topmost previous fun id content parent =>
    Notice.Among notices (.shown id content parent)
  reordered : ∀ {id : NodeId} {content : Handle}, Notice.Among notices (.reordered id content) ↔
    ∃ before after, previous.get? id = some before ∧ next.get? id = some after ∧
      after.content = content ∧ before.children ≠ after.children
  related : ∀ {id : NodeId} {content : Handle} {relations : RelationSet},
    Notice.Among notices (.related id content relations) ↔
      ∃ info, next.get? id = some info ∧ previous.contains id = true ∧ info.content = content ∧
        (∀ relation, relations.contains relation = true ↔
          previous.targets relation id ≠ next.targets relation id) ∧
        ∃ relation, relations.contains relation = true
  moved : ∀ {id : NodeId} {before after : NodeInfo}, previous.get? id = some before →
    next.get? id = some after → before.parent ≠ after.parent →
    ∃ parent, after.parent = some parent ∧ (previous.contains parent = false ∨
      ∃ content, Notice.Among notices (.reordered parent content))
  ordered : ∃ hidden shown reordered related, notices = hidden ++ shown ++ reordered ++ related ∧
    Group hidden (∃ id content parent, · = .hidden id content parent) previous.treeOrder ∧
    Group shown (∃ id content parent, · = .shown id content parent) next.treeOrder ∧
    Group reordered (∃ id content, · = .reordered id content) next.treeOrder ∧
    Group related (∃ id content relations, · = .related id content relations) next.treeOrder

section Delta

variable {previous next : Snapshot} {among : RelationSet}

/-- Where relations that are not compared are the same, no change of targets is missed. -/
theorem relationsChanged_eq_iff {id : NodeId} {relations : RelationSet}
    (carried : ∀ relation, among.contains relation = false →
      previous.targets relation id = next.targets relation id) :
    previous.relationsChanged next among id = relations ↔
      ∀ relation, relations.contains relation = true ↔
        previous.targets relation id ≠ next.targets relation id := by
  have changed (relation : Relation) :
      (previous.relationsChanged next among id).contains relation = true ↔
        previous.targets relation id ≠ next.targets relation id := by
    rw [contains_relationsChanged]
    refine and_iff_right_of_imp fun differ => ?_
    cases compared : among.contains relation with
    | true => rfl
    | false => exact absurd (carried relation compared) differ
  constructor
  · rintro rfl
    exact changed
  · intro exact
    refine Relation.Family.ext_get fun relation => Bool.eq_iff_iff.mpr ?_
    exact (changed relation).trans (exact relation).symm

/-- A node with a new parent that was there before is in another child list of that parent. -/
theorem children_ne_of_moved (linkedPrevious : previous.Linked) (linkedNext : next.Linked)
    {id parent : NodeId} {before after above aboveNow : NodeInfo}
    (storedBefore : previous.get? id = some before) (storedAfter : next.get? id = some after)
    (linked : after.parent = some parent) (differ : before.parent ≠ after.parent)
    (storedAbove : previous.get? parent = some above)
    (storedNow : next.get? parent = some aboveNow) : above.children ≠ aboveNow.children := by
  intro same
  have listed := (linkedNext.listed storedNow).mpr ⟨after, storedAfter, linked⟩
  rw [← same] at listed
  obtain ⟨info, stored, linkedBefore⟩ := (linkedPrevious.listed storedAbove).mp listed
  rw [storedBefore] at stored
  cases stored
  exact differ (linkedBefore.trans linked.symm)

theorem groups_noticesTo : ∃ hidden shown reordered related,
    previous.noticesTo next among = hidden ++ shown ++ reordered ++ related ∧
      Group hidden (∃ id content parent, · = .hidden id content parent) previous.treeOrder ∧
      Group shown (∃ id content parent, · = .shown id content parent) next.treeOrder ∧
      Group reordered (∃ id content, · = .reordered id content) next.treeOrder ∧
      Group related (∃ id content relations, · = .related id content relations) next.treeOrder := by
  refine ⟨(previous.hiddenSince next).map (⟨next.version, ·⟩),
    (previous.shownSince next).map (⟨next.version, ·⟩),
    (previous.reorderedSince next).map (⟨next.version, ·⟩),
    (previous.relatedSince next among).map (⟨next.version, ·⟩), ?_, ?_, ?_, ?_, ?_⟩
  · rw [noticesTo, List.map_append, List.map_append, List.map_append]
  · rw [hiddenSince_eq]
    exact group_tell (fun _ _ => ⟨_, _, _, rfl⟩) (fun _ _ => rfl) next.version
  · rw [shownSince_eq]
    exact group_tell (fun _ _ => ⟨_, _, _, rfl⟩) (fun _ _ => rfl) next.version
  · rw [reorderedSince_eq]
    exact group_tell (fun _ _ => ⟨_, _, rfl⟩) (fun _ _ => rfl) next.version
  · rw [relatedSince_eq]
    exact group_tell (fun _ _ => ⟨_, _, _, rfl⟩) (fun _ _ => rfl) next.version

section SameRoot

variable (linkedPrevious : previous.Linked) (linkedNext : next.Linked)
  (root : next.root = previous.root)
include linkedPrevious linkedNext root

theorem topmost_hidden : previous.Topmost next fun id content parent =>
    Notice.Among (previous.noticesTo next among) (.hidden id content parent) := by
  refine .of_exact linkedPrevious
    (fun atTop => linkedNext.root_stored (root.trans atTop)) fun {id content parent} => ?_
  rw [among_hidden]
  constructor
  · rintro ⟨info, stored, gone, above, rfl, rfl⟩
    obtain ⟨parent, linked, stays⟩ := (Option.any_eq_true _ _).mp above
    exact ⟨info, parent, stored, gone, rfl, rfl, linked, stays⟩
  · rintro ⟨info, above, stored, gone, rfl, rfl, linked, stays⟩
    exact ⟨info, stored, gone, (Option.any_eq_true _ _).mpr ⟨above, linked, stays⟩, rfl, rfl⟩

/-- A new node without a parent would be told as well. There is none, for the root is not new. -/
theorem topmost_shown : next.Topmost previous fun id content parent =>
    Notice.Among (previous.noticesTo next among) (.shown id content parent) := by
  have top {id : NodeId} (atTop : next.root = some id) : previous.contains id = true :=
    linkedPrevious.root_stored (root.symm.trans atTop)
  refine .of_exact linkedNext top fun {id content parent} => ?_
  rw [among_shown]
  constructor
  · rintro ⟨info, stored, new, above, rfl, rfl⟩
    cases linked : info.parent with
    | none =>
      rw [top ((linkedNext.rooted stored).mp linked)] at new
      cases new
    | some parent =>
      rw [linked] at above
      exact ⟨info, parent, stored, new, rfl, linked, rfl, above⟩
  · rintro ⟨info, above, stored, new, rfl, rfl, linked, known⟩
    refine ⟨info, stored, new, ?_, rfl, rfl⟩
    rw [linked]
    exact known

/-- A node that moves shows in the child list of its new parent, unless that is new itself. -/
theorem among_of_moved {id : NodeId} {before after : NodeInfo}
    (storedBefore : previous.get? id = some before) (storedAfter : next.get? id = some after)
    (differ : before.parent ≠ after.parent) :
    ∃ parent, after.parent = some parent ∧ (previous.contains parent = false ∨
      ∃ content, Notice.Among (previous.noticesTo next among) (.reordered parent content)) := by
  cases linked : after.parent with
  | none =>
    have atTop := (linkedNext.rooted storedAfter).mp linked
    have parentless := (linkedPrevious.rooted storedBefore).mpr (root.symm.trans atTop)
    exact absurd (parentless.trans linked.symm) differ
  | some parent =>
    refine ⟨parent, rfl, ?_⟩
    cases known : previous.contains parent with
    | false => exact .inl rfl
    | true =>
      obtain ⟨above, storedAbove⟩ := contains_iff.mp known
      obtain ⟨aboveNow, storedNow⟩ :=
        contains_iff.mp (linkedNext.contains_parent storedAfter linked)
      have children := children_ne_of_moved linkedPrevious linkedNext storedBefore storedAfter linked
        differ storedAbove storedNow
      exact .inr ⟨aboveNow.content,
        among_reordered.mpr ⟨above, aboveNow, storedAbove, storedNow, rfl, children⟩⟩

/-- The notices between snapshots with the same root tell exactly what differs, if relations that are
not compared are the same in both. -/
theorem delta_noticesTo
    (carried : ∀ relation, among.contains relation = false →
      ∀ id, previous.targets relation id = next.targets relation id) :
    previous.Delta next (previous.noticesTo next among) where
  versions := by
    intro notice listed
    obtain ⟨matter, -, rfl⟩ := List.mem_map.mp listed
    rfl
  hidden := topmost_hidden linkedPrevious linkedNext root
  shown := topmost_shown linkedPrevious linkedNext root
  reordered := among_reordered
  related := by
    intro id content relations
    rw [among_related]
    refine exists_congr fun info => and_congr_right fun _ => and_congr_right fun _ =>
      and_congr_right fun _ => and_congr_left fun _ => ?_
    exact relationsChanged_eq_iff fun relation skipped => carried relation skipped id
  moved := among_of_moved linkedPrevious linkedNext root
  ordered := groups_noticesTo

end SameRoot

end Delta

end Snapshot

/-- A snapshot of a sound tree is linked as the tree is. -/
theorem Tree.linked_snapshot {tree : Tree} (sound : tree.Sound) (edges : Relation.Family Edges) :
    (tree.snapshot edges).Linked := by
  have told {id : NodeId} {info : NodeInfo} : (tree.snapshot edges).get? id = some info ↔
      ∃ node, tree.live id = some node ∧ node.info (tree.preorder.idxOf id) = info := by
    rw [get?_snapshot sound, Option.map_eq_some_iff]
  have inside {id : NodeId} : (tree.snapshot edges).contains id = true ↔
      ∃ node, tree.live id = some node := contains_snapshot sound
  refine ⟨?_, ?_, ?_, ?_, ?_⟩
  · intro root atTop
    obtain ⟨node, alive, -⟩ := sound.forest.root_live atTop
    exact inside.mpr ⟨node, alive⟩
  · intro id parent info stored linked
    obtain ⟨node, alive, rfl⟩ := told.mp stored
    obtain ⟨above, aliveParent, -⟩ := sound.forest.parent_live alive linked
    exact inside.mpr ⟨above, aliveParent⟩
  · intro id info stored
    obtain ⟨node, alive, rfl⟩ := told.mp stored
    refine ⟨fun parentless => sound.forest.root_of_parentless alive parentless, fun atTop => ?_⟩
    exact sound.forest.parentless atTop alive
  · intro parent child above stored
    obtain ⟨node, alive, rfl⟩ := told.mp stored
    refine (sound.forest.listed alive).trans ⟨?_, ?_⟩
    · rintro ⟨below, aliveChild, linked⟩
      exact ⟨_, told.mpr ⟨below, aliveChild, rfl⟩, linked⟩
    · rintro ⟨info, storedChild, linked⟩
      obtain ⟨below, aliveChild, rfl⟩ := told.mp storedChild
      exact ⟨below, aliveChild, linked⟩
  · intro motive top pass id stored
    obtain ⟨node, alive⟩ := inside.mp stored
    refine sound.parent_induction (motive := motive) ?_ ?_ alive
    · exact fun aliveTop parentless => top (sound.forest.root_of_parentless aliveTop parentless)
    · intro parent child above below _ aliveChild linked soFar
      exact pass (told.mpr ⟨below, aliveChild, rfl⟩) linked soFar

end Accessibility
