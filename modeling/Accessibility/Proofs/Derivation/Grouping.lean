import Accessibility.Proofs.Derivation.Targets
import Accessibility.Proofs.Tree.Ancestors

/-!
Groups of radio buttons, told by the tree alone. A group hangs on the nearest form or radio group around
its members. The targets that are derived for a radio button are the members of its group, in tree order.
-/

set_option autoImplicit false

namespace Accessibility

namespace Tree

/-- What the group of a native radio hangs on: the nearest form around it, or else the root. -/
inductive Owns (tree : Tree) (owner id : NodeId) : Prop
  | form (nearest : tree.IsNearest .form id owner) : Owns tree owner id
  | root (formless : ∀ {form : NodeId}, tree.Above form id → ¬ tree.HasRole form .form)
    (atTop : tree.root = some owner) : Owns tree owner id

/-- Whether a node is a radio button of some group. -/
inductive Belongs (tree : Tree) (id : NodeId) : Derivation.GroupKey → Prop
  | native {node : AccessibleNode} {owner : NodeId} {name : String}
    (alive : tree.live id = some node) (radio : node.isNativeRadio = true)
    (named : node.attributes["name"]? = some name) (nonempty : name ≠ "")
    (owns : tree.Owns owner id) : Belongs tree id (.native owner name)
  | aria {node : AccessibleNode} {group : NodeId}
    (alive : tree.live id = some node) (other : node.isNativeRadio = false)
    (radio : node.role = .radioButton) (nearest : tree.IsNearest .radioGroup id group) :
    Belongs tree id (.aria group)

/-- What edges between the members of groups must be. -/
structure GroupsRadios (tree : Tree) (edges : Edges) : Prop where
  mem_iff : ∀ {id member : NodeId}, member ∈ edges.targets id ↔
    ∃ key, tree.Belongs id key ∧ tree.Belongs member key
  rising : ∀ id, (edges.targets id).Pairwise fun left right => tree.order left right = .lt
  self : ∀ {id : NodeId}, edges.targets id ≠ [] → id ∈ edges.targets id
  shared : ∀ {id member : NodeId}, member ∈ edges.targets id →
    edges.targets member = edges.targets id
  equivalence : Equivalence fun left right : {id // edges.targets id ≠ []} =>
    right.1 ∈ edges.targets left.1
  nameless : ∀ {id : NodeId} {node : AccessibleNode}, tree.live id = some node →
    node.isNativeRadio = true → node.attributes.valueOrEmpty "name" = "" → edges[id]? = none
  ungrouped : ∀ {id : NodeId} {node : AccessibleNode}, tree.live id = some node →
    node.isNativeRadio = false →
    (∀ {group : NodeId}, tree.Above group id → ¬ tree.HasRole group .radioGroup) →
    edges[id]? = none
  apart : ∀ {id member : NodeId} {node other : AccessibleNode}, member ∈ edges.targets id →
    tree.live id = some node → tree.live member = some other →
    other.isNativeRadio = node.isNativeRadio

namespace Sound

variable {tree : Tree} {id upper : NodeId} {node : AccessibleNode}

theorem owner?_eq_some_iff (sound : tree.Sound) (alive : tree.live id = some node) {owner : NodeId} :
    (tree.nearest? id (·.role == .form)).or tree.root = some owner ↔ tree.Owns owner id := by
  rw [Option.or_eq_some_iff, sound.nearest?_eq_some_iff alive, sound.nearest?_eq_none_iff alive]
  constructor
  · rintro (nearest | ⟨formless, atTop⟩)
    · exact .form nearest
    · exact .root formless atTop
  · rintro (nearest | ⟨formless, atTop⟩)
    · exact .inl nearest
    · exact .inr ⟨formless, atTop⟩

end Sound

/-! ### Members -/

section Members

variable {tree : Tree} {id member : NodeId} {node other : AccessibleNode} {key : Derivation.GroupKey}

theorem not_belongs_of_nameless (alive : tree.live id = some node) (radio : node.isNativeRadio = true)
    (nameless : node.attributes.valueOrEmpty "name" = "") : ¬ tree.Belongs id key := by
  rintro (⟨alive', -, named, nonempty, -⟩ | ⟨alive', notNative, -, -⟩)
  · cases alive.symm.trans alive'
    rw [Attributes.valueOrEmpty, named] at nameless
    exact nonempty nameless
  · cases alive.symm.trans alive'
    rw [radio] at notNative
    cases notNative

theorem not_belongs_of_ungrouped (alive : tree.live id = some node)
    (notNative : node.isNativeRadio = false)
    (ungrouped : ∀ {group : NodeId}, tree.Above group id → ¬ tree.HasRole group .radioGroup) :
    ¬ tree.Belongs id key := by
  rintro (⟨alive', radio, -, -, -⟩ | ⟨-, -, -, nearest⟩)
  · cases alive.symm.trans alive'
    rw [radio] at notNative
    cases notNative
  · exact ungrouped nearest.above nearest.hasRole

/-- No group has both native radios and others as members. -/
theorem Belongs.isNativeRadio_eq (belongs : tree.Belongs id key) (joined : tree.Belongs member key)
    (alive : tree.live id = some node) (aliveMember : tree.live member = some other) :
    other.isNativeRadio = node.isNativeRadio := by
  cases belongs with
  | native alive' radio =>
    cases joined with
    | native aliveMember' radioMember =>
      cases alive.symm.trans alive'
      cases aliveMember.symm.trans aliveMember'
      rw [radio, radioMember]
  | aria alive' notNative =>
    cases joined with
    | aria aliveMember' notNativeMember =>
      cases alive.symm.trans alive'
      cases aliveMember.symm.trans aliveMember'
      rw [notNative, notNativeMember]

end Members

end Tree

namespace Derivation.Source

variable {source : Source} {id : NodeId} {node : AccessibleNode}

/-! ### Groups -/

theorem groupKey?_eq_some_iff (sound : source.tree.Sound) (alive : source.tree.live id = some node)
    {key : GroupKey} : source.groupKey? id node = some key ↔ source.tree.Belongs id key := by
  have same {node' : AccessibleNode} (alive' : source.tree.live id = some node') : node' = node :=
    Option.some.inj (alive'.symm.trans alive)
  rw [groupKey?]
  cases native : node.isNativeRadio with
  | true =>
    rw [if_pos rfl]
    dsimp only
    constructor
    · intro known
      split at known
      · cases known
      · rename_i nonempty
        obtain ⟨owner, found, rfl⟩ := Option.map_eq_some_iff.mp known
        rw [String.isEmpty_iff] at nonempty
        refine .native alive native ?_ nonempty ((sound.owner?_eq_some_iff alive).mp found)
        rw [Attributes.valueOrEmpty] at nonempty ⊢
        cases named : node.attributes["name"]? with
        | none => exact absurd (by rw [named]; rfl) nonempty
        | some name => rfl
    · rintro (⟨alive', -, named, nonempty, owns⟩ | ⟨alive', other, -, -⟩)
      · cases same alive'
        rw [Attributes.valueOrEmpty, named, Option.getD_some,
          if_neg (mt String.isEmpty_iff.mp nonempty), (sound.owner?_eq_some_iff alive).mpr owns]
        rfl
      · rw [same alive', native] at other
        cases other
  | false =>
    rw [if_neg Bool.false_ne_true]
    constructor
    · intro known
      split at known
      · obtain ⟨group, found, rfl⟩ := Option.map_eq_some_iff.mp known
        exact .aria alive native ‹_› ((sound.nearest?_eq_some_iff alive).mp found)
      · cases known
    · rintro (⟨alive', radio, -, -, -⟩ | ⟨alive', -, radio, nearest⟩)
      · rw [same alive', native] at radio
        cases radio
      · rw [if_pos (same alive' ▸ radio), (sound.nearest?_eq_some_iff alive).mpr nearest]
        rfl

theorem mem_membersOf_iff (sound : source.tree.Sound) {key : GroupKey} :
    id ∈ source.membersOf key ↔ source.tree.Belongs id key := by
  rw [mem_membersOf sound]
  constructor
  · rintro ⟨node, alive, known⟩
    exact (groupKey?_eq_some_iff sound alive).mp known
  · intro belongs
    obtain ⟨node, alive⟩ : ∃ node, source.tree.live id = some node := by
      cases belongs with
      | native alive | aria alive => exact ⟨_, alive⟩
    exact ⟨node, alive, (groupKey?_eq_some_iff sound alive).mpr belongs⟩

/-- A radio button leads to all members of its group. -/
theorem targets_groups_of_belongs (sound : source.tree.Sound) {key : GroupKey}
    (belongs : source.tree.Belongs id key) : source.groups.targets id = source.membersOf key := by
  obtain ⟨node, alive, known⟩ :=
    (mem_membersOf sound).mp ((mem_membersOf_iff sound).mpr belongs)
  rw [targets_groups sound, alive, Option.bind_some, known]

theorem belongs_of_mem_groups (sound : source.tree.Sound) {target : NodeId}
    (listed : target ∈ source.groups.targets id) :
    ∃ key, source.tree.Belongs id key ∧ source.groups.targets id = source.membersOf key := by
  rw [targets_groups sound] at listed ⊢
  cases keyed : (source.tree.live id).bind (source.groupKey? id) with
  | none =>
    rw [keyed] at listed
    cases listed
  | some key =>
    obtain ⟨node, alive, known⟩ := Option.bind_eq_some_iff.mp keyed
    exact ⟨key, (groupKey?_eq_some_iff sound alive).mp known, rfl⟩

theorem mem_groups_iff (sound : source.tree.Sound) {target : NodeId} :
    target ∈ source.groups.targets id ↔
      ∃ key, source.tree.Belongs id key ∧ source.tree.Belongs target key := by
  constructor
  · intro listed
    obtain ⟨key, belongs, targets⟩ := belongs_of_mem_groups sound listed
    rw [targets, mem_membersOf_iff sound] at listed
    exact ⟨key, belongs, listed⟩
  · rintro ⟨key, belongs, other⟩
    rw [targets_groups_of_belongs sound belongs]
    exact (mem_membersOf_iff sound).mpr other

theorem pairwise_groups (sound : source.tree.Sound) (id : NodeId) :
    (source.groups.targets id).Pairwise fun left right => source.tree.order left right = .lt := by
  rw [targets_groups sound]
  split
  · exact .nil
  · rw [membersOf_eq, source.preorder_eq]
    exact sound.pairwise_preorder.filter _

/-- Nodes of no group have no entry. -/
theorem getElem?_groups_eq_none_iff (sound : source.tree.Sound) :
    source.groups[id]? = none ↔ ∀ key, ¬ source.tree.Belongs id key := by
  have occupied : source.groups.Occupied := occupied_table sound .memberOf
  rw [Edges.getElem?_eq_none_iff occupied, List.eq_nil_iff_forall_not_mem]
  constructor
  · intro empty key belongs
    exact empty id ((mem_groups_iff sound).mpr ⟨key, belongs, belongs⟩)
  · intro none target listed
    obtain ⟨key, belongs, -⟩ := (mem_groups_iff sound).mp listed
    exact none key belongs

theorem self_mem_groups (sound : source.tree.Sound) (some : source.groups.targets id ≠ []) :
    id ∈ source.groups.targets id := by
  obtain ⟨member, listed⟩ := List.exists_mem_of_ne_nil _ some
  exact (targets_groups_of_mem sound listed).2

/-- The edges that are derived lead between the members of groups. -/
theorem groupsRadios (sound : source.tree.Sound) : source.tree.GroupsRadios source.groups where
  mem_iff := mem_groups_iff sound
  rising := pairwise_groups sound
  self := self_mem_groups sound
  shared listed := (targets_groups_of_mem sound listed).1
  equivalence := by
    -- Members have the same targets, so symmetry and transitivity are reflexivity seen from a member.
    refine ⟨fun id => self_mem_groups sound id.2, fun {left right} listed => ?_,
      fun {left middle right} first second => ?_⟩
    · rw [(targets_groups_of_mem sound listed).1]
      exact self_mem_groups sound left.2
    · rwa [(targets_groups_of_mem sound first).1] at second
  nameless alive radio nameless := by
    rw [getElem?_groups_eq_none_iff sound]
    exact fun key => Tree.not_belongs_of_nameless alive radio nameless
  ungrouped alive notNative ungrouped := by
    rw [getElem?_groups_eq_none_iff sound]
    exact fun key => Tree.not_belongs_of_ungrouped alive notNative ungrouped
  apart listed alive aliveMember := by
    obtain ⟨key, belongs, joined⟩ := (mem_groups_iff sound).mp listed
    exact belongs.isNativeRadio_eq joined alive aliveMember

theorem grouped_eq (source : Source) :
    source.grouped = source.preorder.filterMap fun id =>
      ((source.tree.get? id).bind (source.groupKey? id)).map (id, ·) := by
  rw [grouped, nodes, List.filterMap_filterMap]
  refine List.filterMap_congr fun id _ => ?_
  cases source.tree.get? id <;> rfl

/-- The groups are known from which nodes have one, and which it is. -/
theorem groups_congr {left right : Source} (same : right.grouped = left.grouped) :
    right.groups = left.groups := by
  rw [groups, groups, same]

end Derivation.Source

end Accessibility
