import Accessibility.Derivation.Tables
import Accessibility.Proofs.Lists
import Accessibility.Proofs.Relation.Edges
import Accessibility.Proofs.Tree.Order

/-!
The targets that are derived for a node of a sound tree. They are live nodes, each listed once; every
edge has its reverse, and the members of a group have the same targets.
-/

set_option autoImplicit false

namespace Accessibility.Derivation

open Std

/-- The node that a group hangs on. -/
def GroupKey.owner : GroupKey → NodeId
  | .native owner _ => owner
  | .aria group => group

namespace Source

variable {source : Source} {id : NodeId} {node : AccessibleNode}

/-- The edges of a relation, derived from scratch. -/
def table (source : Source) : Relation → Edges
  | .labelledBy => source.labels
  | .labelFor => source.labels.reversed source.preorder
  | .memberOf => source.groups
  | .details => source.details
  | .detailsFor => source.details.reversed source.preorder
  | .linksTo => source.links

/-! ### Live nodes -/

theorem mem_preorder (sound : source.tree.Sound) :
    id ∈ source.preorder ↔ ∃ node, source.tree.live id = some node := by
  rw [source.preorder_eq, sound.mem_preorder]

theorem preorder_nodup (sound : source.tree.Sound) : source.preorder.Nodup := by
  rw [source.preorder_eq]
  exact sound.preorder_nodup

theorem mem_nodes (sound : source.tree.Sound) :
    (id, node) ∈ source.nodes ↔ source.tree.live id = some node := by
  rw [nodes, List.mem_filterMap]
  constructor
  · rintro ⟨other, listed, found⟩
    obtain ⟨node', stored, same⟩ := Option.map_eq_some_iff.mp found
    cases same
    obtain ⟨node'', alive⟩ := (mem_preorder sound).mp listed
    rw [Tree.get?_of_live alive] at stored
    cases stored
    exact alive
  · intro alive
    refine ⟨id, (mem_preorder sound).mpr ⟨node, alive⟩, ?_⟩
    rw [Tree.get?_of_live alive, Option.map_some]

theorem map_fst_nodes (sound : source.tree.Sound) : source.nodes.map Prod.fst = source.preorder := by
  have walk (ids : List NodeId) (live : ∀ id ∈ ids, ∃ node, source.tree.live id = some node) :
      (ids.filterMap fun id => (source.tree.get? id).map (id, ·)).map Prod.fst = ids := by
    induction ids with
    | nil => rfl
    | cons head rest ih =>
      obtain ⟨node, alive⟩ := live head List.mem_cons_self
      rw [List.filterMap_cons]
      simp only [Tree.get?_of_live alive, Option.map_some, List.map_cons]
      rw [ih fun id listed => live id (List.mem_cons_of_mem _ listed)]
  exact walk _ fun id listed => (mem_preorder sound).mp listed

/-- The nodes with a property, picked from the preorder. -/
theorem map_fst_filter_nodes (source : Source) (holds : NodeId × AccessibleNode → Bool) :
    (source.nodes.filter holds).map Prod.fst =
      source.preorder.filter fun id => (source.tree.get? id).any fun node => holds (id, node) := by
  have walk (ids : List NodeId) :
      ((ids.filterMap fun id => (source.tree.get? id).map (id, ·)).filter holds).map Prod.fst =
        ids.filter fun id => (source.tree.get? id).any fun node => holds (id, node) := by
    induction ids with
    | nil => rfl
    | cons id rest ih =>
      rw [List.filterMap_cons, List.filter_cons]
      cases stored : source.tree.get? id with
      | none =>
        simp only [Option.map_none, Option.any_none, Bool.false_eq_true, if_false]
        exact ih
      | some node =>
        simp only [Option.map_some, Option.any_some, List.filter_cons]
        split
        · rw [List.map_cons, ih]
        · exact ih
  exact walk source.preorder

theorem map_fst_find?_nodes (source : Source) (holds : NodeId × AccessibleNode → Bool) :
    (source.nodes.find? holds).map Prod.fst =
      (source.preorder.filter fun id =>
        (source.tree.get? id).any fun node => holds (id, node)).head? := by
  rw [← map_fst_filter_nodes, List.head?_map, List.head?_filter]

theorem targets_edges (sound : source.tree.Sound)
    (targetsOf : NodeId → AccessibleNode → List NodeId) (id : NodeId) :
    (source.edges targetsOf).targets id =
      match source.tree.live id with
      | none => []
      | some node => targetsOf id node := by
  rw [edges, Edges.targets_ofTargets]
  cases alive : source.tree.live id with
  | none =>
    rw [if_neg]
    intro listed
    obtain ⟨node, alive'⟩ := (mem_preorder sound).mp listed
    rw [alive] at alive'
    cases alive'
  | some node =>
    rw [if_pos ((mem_preorder sound).mpr ⟨node, alive⟩), Tree.get?_of_live alive]

theorem live_of_lookup? {tree : Tree} {domId : String} {scope : Scope}
    (found : tree.lookup? domId scope = some id) : ∃ node, tree.live id = some node := by
  rw [Tree.lookup?] at found
  split at found
  · cases found
  · exact Tree.isAlive_iff_live.mp (List.mem_filter.mp (Tree.first?_spec found).1).2

theorem live_of_mem_resolveAll {list : String} {scope : Scope}
    (listed : id ∈ source.resolveAll list scope) : ∃ node, source.tree.live id = some node := by
  rw [resolveAll, List.mem_eraseDups] at listed
  obtain ⟨word, -, found⟩ := List.mem_filterMap.mp listed
  exact live_of_lookup? found

theorem resolveAll_nodup (list : String) (scope : Scope) : (source.resolveAll list scope).Nodup :=
  Lists.nodup_eraseDups _

/-- What a list of targets must be: live nodes, each once. -/
structure Fitting (source : Source) (targets : List NodeId) : Prop where
  nodup : targets.Nodup
  live : ∀ target ∈ targets, ∃ node, source.tree.live target = some node

theorem fitting_nil : source.Fitting [] :=
  ⟨List.nodup_nil, nofun⟩

theorem fitting_resolveAll (list : String) (scope : Scope) :
    source.Fitting (source.resolveAll list scope) :=
  ⟨resolveAll_nodup list scope, fun _ listed => live_of_mem_resolveAll listed⟩

theorem fitting_toList {target : Option NodeId}
    (live : ∀ id, target = some id → ∃ node, source.tree.live id = some node) :
    source.Fitting target.toList := by
  cases target with
  | none => exact fitting_nil
  | some id =>
    refine ⟨List.nodup_singleton id, fun other listed => ?_⟩
    rw [Option.toList_some, List.mem_singleton] at listed
    exact live other (congrArg some listed.symm)

/-! ### Labels -/

/-- The labels found so far, with those of one more node. -/
def withLabel (source : Source) (found : Edges) (pair : NodeId × AccessibleNode) : Edges :=
  if pair.2.hasTag "label" then
    match source.labelled? pair.1 pair.2 with
    | some target => found.push target pair.1
    | none => found
  else found

theorem labelElements_eq (source : Source) :
    source.labelElements = source.nodes.foldl source.withLabel ∅ :=
  rfl

/-- Whether a node is a `label` element for another one. -/
def isLabelOf (source : Source) (id : NodeId) (pair : NodeId × AccessibleNode) : Bool :=
  pair.2.hasTag "label" && source.labelled? pair.1 pair.2 == some id

theorem live_of_labelled? (sound : source.tree.Sound) (alive : source.tree.live id = some node)
    {target : NodeId} (found : source.labelled? id node = some target) :
    ∃ node, source.tree.live target = some node := by
  rw [labelled?] at found
  split at found
  · exact live_of_lookup? found
  · have listed := List.mem_of_mem_tail (List.mem_of_find?_eq_some found)
    exact sound.forest.leads_live ((sound.mem_below alive).mp listed) alive

theorem targets_withLabel (source : Source) (found : Edges) (pair : NodeId × AccessibleNode)
    (id : NodeId) :
    (source.withLabel found pair).targets id =
      if source.isLabelOf id pair then found.targets id ++ [pair.1] else found.targets id := by
  unfold withLabel isLabelOf
  cases isLabel : pair.2.hasTag "label" with
  | false => simp
  | true =>
    cases target : source.labelled? pair.1 pair.2 with
    | none => simp
    | some other =>
      by_cases same : other = id
      · simp [same, Edges.targets_push]
      · simp [same, Edges.targets_push]

theorem targets_labelElements (source : Source) (id : NodeId) :
    source.labelElements.targets id = (source.nodes.filter (source.isLabelOf id)).map Prod.fst := by
  have step (pairs : List (NodeId × AccessibleNode)) (found : Edges) :
      (pairs.foldl source.withLabel found).targets id =
        found.targets id ++ (pairs.filter (source.isLabelOf id)).map Prod.fst := by
    induction pairs generalizing found with
    | nil => simp
    | cons pair rest ih =>
      rw [List.foldl_cons, ih, List.filter_cons, targets_withLabel]
      split <;> simp
  rw [labelElements_eq, step, Edges.targets_empty, List.nil_append]

theorem fitting_labelElements (sound : source.tree.Sound) (id : NodeId) :
    source.Fitting (source.labelElements.targets id) := by
  rw [targets_labelElements]
  have sublist : ((source.nodes.filter (source.isLabelOf id)).map Prod.fst).Sublist
      source.preorder := by
    rw [← map_fst_nodes sound]
    exact List.filter_sublist.map Prod.fst
  exact ⟨sublist.nodup (preorder_nodup sound), fun target listed =>
    (mem_preorder sound).mp (sublist.subset listed)⟩

/-- The labels that a node has, and its caption behind them. -/
def withCaption (labels : List NodeId) : Option NodeId → List NodeId
  | some caption => if labels.contains caption then labels else labels ++ [caption]
  | none => labels

theorem labelsOf_eq (source : Source) (elements : Edges) (id : NodeId) (node : AccessibleNode) :
    source.labelsOf elements id node =
      withCaption
        (if (source.resolveAll (node.attributes.valueOrEmpty "aria-labelledby") node.scope).isEmpty
          then elements.targets id
          else source.resolveAll (node.attributes.valueOrEmpty "aria-labelledby") node.scope)
        (source.caption? node) := by
  rw [labelsOf]
  cases source.caption? node <;> rfl

theorem fitting_withCaption {labels : List NodeId} (fitting : source.Fitting labels)
    {caption : Option NodeId}
    (live : ∀ id, caption = some id → ∃ node, source.tree.live id = some node) :
    source.Fitting (withCaption labels caption) := by
  unfold withCaption
  split
  · rename_i last
    split
    · exact fitting
    · rename_i fresh
      refine ⟨List.nodup_append.mpr ⟨fitting.nodup, List.nodup_singleton last, ?_⟩, ?_⟩
      · rintro target listed other same rfl
        rw [List.mem_singleton.mp same] at listed
        exact fresh (List.contains_iff_mem.mpr listed)
      · intro target listed
        rcases List.mem_append.mp listed with listed | same
        · exact fitting.live target listed
        · rw [List.mem_singleton.mp same]
          exact live last rfl
  · exact fitting

theorem live_of_caption? (sound : source.tree.Sound) (alive : source.tree.live id = some node)
    {caption : NodeId} (first : source.caption? node = some caption) :
    ∃ node, source.tree.live caption = some node := by
  rw [caption?] at first
  split at first
  · obtain ⟨child, aliveChild, -⟩ :=
      (sound.forest.listed alive).mp (List.mem_of_find?_eq_some first)
    exact ⟨child, aliveChild⟩
  · cases first

theorem fitting_labelsOf (sound : source.tree.Sound) (alive : source.tree.live id = some node) :
    source.Fitting (source.labelsOf source.labelElements id node) := by
  rw [labelsOf_eq]
  refine fitting_withCaption ?_ fun caption first => live_of_caption? sound alive first
  split
  · exact fitting_labelElements sound id
  · exact fitting_resolveAll _ _

/-! ### Details and links -/

theorem live_of_invoked? (sound : source.tree.Sound) {target : NodeId}
    (found : source.invoked? node = some target) : ∃ node, source.tree.live target = some node := by
  rw [invoked?] at found
  split at found
  · split at found
    · obtain ⟨node, alive, -⟩ := sound.live_of_nodeFor? found
      exact ⟨node, alive⟩
    · cases found
  · obtain ⟨domId, -, found⟩ := Option.bind_eq_some_iff.mp found
    exact live_of_lookup? found

theorem fitting_detailsOf (sound : source.tree.Sound) (id : NodeId) (node : AccessibleNode) :
    source.Fitting (source.detailsOf id node) := by
  rw [detailsOf]
  split
  · refine fitting_toList fun target found => ?_
    rw [popover?] at found
    split at found
    · exact live_of_invoked? sound (Option.filter_eq_some_iff.mp found).1
    · cases found
  · exact fitting_resolveAll _ _

theorem fitting_destination? (sound : source.tree.Sound) (node : AccessibleNode) :
    source.Fitting (source.destination? node).toList := by
  refine fitting_toList fun target found => ?_
  rw [destination?] at found
  split at found
  · obtain ⟨fragment, -, found⟩ := Option.bind_eq_some_iff.mp found
    rcases Option.or_eq_some_iff.mp found with found | ⟨-, found⟩
    · exact live_of_lookup? found
    · obtain ⟨pair, first, rfl⟩ := Option.map_eq_some_iff.mp found
      exact ⟨pair.2, (mem_nodes sound).mp (List.mem_of_find?_eq_some first)⟩
  · cases found

/-! ### Groups -/

/-- A group hangs on a live node. -/
theorem live_of_groupKey? (sound : source.tree.Sound) (alive : source.tree.live id = some node)
    {key : GroupKey} (known : source.groupKey? id node = some key) :
    ∃ node, source.tree.live key.owner = some node := by
  have nearest {holds : AccessibleNode → Bool} {above : NodeId}
      (found : source.tree.nearest? id holds = some above) :
      ∃ node, source.tree.live above = some node :=
    sound.live_of_mem_properAncestors alive (List.mem_of_find?_eq_some found)
  rw [groupKey?] at known
  split at known
  · dsimp only at known
    split at known
    · cases known
    · obtain ⟨owner, found, rfl⟩ := Option.map_eq_some_iff.mp known
      rcases Option.or_eq_some_iff.mp found with found | ⟨-, atTop⟩
      · exact nearest found
      · obtain ⟨top, aliveTop, -⟩ := sound.forest.root_live atTop
        exact ⟨top, aliveTop⟩
  · split at known
    · obtain ⟨group, found, rfl⟩ := Option.map_eq_some_iff.mp known
      exact nearest found
    · cases known

/-- The nodes of one group in tree order. -/
def membersOf (source : Source) (key : GroupKey) : List NodeId :=
  (source.grouped.filter (·.2 == key)).map Prod.fst

theorem membersOf_eq (source : Source) (key : GroupKey) :
    source.membersOf key = source.preorder.filter fun id =>
      (source.tree.get? id).any fun node => source.groupKey? id node == some key := by
  rw [← map_fst_filter_nodes source fun pair => source.groupKey? pair.1 pair.2 == some key,
    membersOf, grouped]
  induction source.nodes with
  | nil => rfl
  | cons pair rest ih =>
    obtain ⟨id, node⟩ := pair
    rw [List.filterMap_cons, List.filter_cons]
    cases known : source.groupKey? id node with
    | none =>
      simp only [known, Option.map_none]
      exact ih
    | some other =>
      simp only [known, Option.map_some, List.filter_cons]
      by_cases same : other = key
      · subst same
        simp only [beq_self_eq_true, if_true, List.map_cons]
        exact congrArg (id :: ·) ih
      · have apart : some other ≠ some key := fun equal => same (Option.some.inj equal)
        simp only [beq_false_of_ne same, beq_false_of_ne apart, Bool.false_eq_true, if_false]
        exact ih

theorem groups_eq (source : Source) : source.groups = Edges.ofKeys source.membersOf source.grouped :=
  rfl

theorem mem_grouped (sound : source.tree.Sound) {key : GroupKey} :
    (id, key) ∈ source.grouped ↔
      ∃ node, source.tree.live id = some node ∧ source.groupKey? id node = some key := by
  rw [grouped, List.mem_filterMap]
  constructor
  · rintro ⟨⟨other, node⟩, listed, found⟩
    obtain ⟨key', known, same⟩ := Option.map_eq_some_iff.mp found
    cases same
    exact ⟨node, (mem_nodes sound).mp listed, known⟩
  · rintro ⟨node, alive, known⟩
    exact ⟨(id, node), (mem_nodes sound).mpr alive, by simp only [known, Option.map_some]⟩

theorem map_fst_grouped_sublist (source : Source) :
    (source.grouped.map Prod.fst).Sublist (source.nodes.map Prod.fst) := by
  have walk (pairs : List (NodeId × AccessibleNode)) :
      ((pairs.filterMap fun pair => (source.groupKey? pair.1 pair.2).map (pair.1, ·)).map
        Prod.fst).Sublist (pairs.map Prod.fst) := by
    induction pairs with
    | nil => exact .slnil
    | cons pair rest ih =>
      obtain ⟨id, node⟩ := pair
      rw [List.filterMap_cons]
      cases known : source.groupKey? id node with
      | none =>
        simp only [Option.map_none, List.map_cons]
        exact ih.cons id
      | some key =>
        simp only [Option.map_some, List.map_cons]
        exact ih.cons_cons id
  exact walk source.nodes

theorem grouped_nodup (sound : source.tree.Sound) : (source.grouped.map Prod.fst).Nodup := by
  have sublist := map_fst_grouped_sublist source
  rw [map_fst_nodes sound] at sublist
  exact sublist.nodup (preorder_nodup sound)

theorem mem_membersOf (sound : source.tree.Sound) {key : GroupKey} :
    id ∈ source.membersOf key ↔
      ∃ node, source.tree.live id = some node ∧ source.groupKey? id node = some key := by
  rw [membersOf, List.mem_map, ← mem_grouped sound]
  constructor
  · rintro ⟨⟨other, key'⟩, listed, rfl⟩
    obtain ⟨inside, same⟩ := List.mem_filter.mp listed
    rwa [← eq_of_beq same]
  · intro listed
    exact ⟨(id, key), List.mem_filter.mpr ⟨listed, beq_self_eq_true key⟩, rfl⟩

theorem fitting_membersOf (sound : source.tree.Sound) (key : GroupKey) :
    source.Fitting (source.membersOf key) := by
  refine ⟨((List.filter_sublist.map Prod.fst).nodup (grouped_nodup sound)), fun target listed => ?_⟩
  obtain ⟨node, alive, -⟩ := (mem_membersOf sound).mp listed
  exact ⟨node, alive⟩

theorem targets_groups (sound : source.tree.Sound) (id : NodeId) :
    source.groups.targets id =
      match (source.tree.live id).bind (source.groupKey? id) with
      | none => []
      | some key => source.membersOf key := by
  rw [groups_eq]
  cases keyed : (source.tree.live id).bind (source.groupKey? id) with
  | none =>
    refine Edges.targets_ofKeys_of_not_mem _ fun listed => ?_
    obtain ⟨⟨other, key⟩, inside, rfl⟩ := List.mem_map.mp listed
    obtain ⟨node, alive, known⟩ := (mem_grouped sound).mp inside
    rw [alive, Option.bind_some, known] at keyed
    cases keyed
  | some key =>
    obtain ⟨node, alive, known⟩ := Option.bind_eq_some_iff.mp keyed
    exact Edges.targets_ofKeys_of_mem _ (grouped_nodup sound)
      ((mem_grouped sound).mpr ⟨node, alive, known⟩)

/-! ### All relations -/

theorem fitting_labels (sound : source.tree.Sound) (id : NodeId) :
    source.Fitting (source.labels.targets id) := by
  rw [labels, targets_edges sound]
  split
  · exact fitting_nil
  · exact fitting_labelsOf sound ‹_›

theorem fitting_details (sound : source.tree.Sound) (id : NodeId) :
    source.Fitting (source.details.targets id) := by
  rw [details, targets_edges sound]
  split
  · exact fitting_nil
  · exact fitting_detailsOf sound id _

theorem fitting_reversed (sound : source.tree.Sound) {edges : Edges}
    (fitting : ∀ id, source.Fitting (edges.targets id)) (id : NodeId) :
    source.Fitting ((edges.reversed source.preorder).targets id) := by
  rw [Edges.targets_reversed_of_nodup fun source => (fitting source).nodup]
  exact ⟨(preorder_nodup sound).filter _, fun target listed =>
    (mem_preorder sound).mp (List.mem_filter.mp listed).1⟩

/-- The targets of any relation are live nodes, each listed once. -/
theorem fitting_table (sound : source.tree.Sound) (relation : Relation) (id : NodeId) :
    source.Fitting ((source.table relation).targets id) := by
  cases relation with
  | labelledBy => exact fitting_labels sound id
  | labelFor => exact fitting_reversed sound (fitting_labels sound) id
  | memberOf =>
    rw [table, targets_groups sound]
    split
    · exact fitting_nil
    · exact fitting_membersOf sound _
  | details => exact fitting_details sound id
  | detailsFor => exact fitting_reversed sound (fitting_details sound) id
  | linksTo =>
    rw [table, links, targets_edges sound]
    split
    · exact fitting_nil
    · exact fitting_destination? sound _

/-- Only live nodes have targets. -/
theorem live_of_targets (sound : source.tree.Sound) {relation : Relation} {target : NodeId}
    (listed : target ∈ (source.table relation).targets id) :
    ∃ node, source.tree.live id = some node := by
  have edge {targetsOf : NodeId → AccessibleNode → List NodeId}
      (listed : target ∈ (source.edges targetsOf).targets id) :
      ∃ node, source.tree.live id = some node := by
    rw [targets_edges sound] at listed
    split at listed
    · cases listed
    · exact ⟨_, ‹_›⟩
  have turned {edges : Edges} (fitting : ∀ id, source.Fitting (edges.targets id))
      (listed : target ∈ (edges.reversed source.preorder).targets id) :
      ∃ node, source.tree.live id = some node := by
    rw [Edges.targets_reversed_of_nodup fun source => (fitting source).nodup] at listed
    exact (fitting target).live id (List.contains_iff_mem.mp (List.mem_filter.mp listed).2)
  cases relation with
  | labelledBy => exact edge listed
  | labelFor => exact turned (fitting_labels sound) listed
  | memberOf =>
    rw [table, targets_groups sound] at listed
    split at listed
    · cases listed
    · rename_i key keyed
      obtain ⟨node, alive, -⟩ := Option.bind_eq_some_iff.mp keyed
      exact ⟨node, alive⟩
  | details => exact edge listed
  | detailsFor => exact turned (fitting_details sound) listed
  | linksTo => exact edge listed

theorem mem_targets_reversed (sound : source.tree.Sound) {edges : Edges}
    (fitting : ∀ id, source.Fitting (edges.targets id))
    (live : ∀ {id target : NodeId}, target ∈ edges.targets id →
      ∃ node, source.tree.live id = some node) {target : NodeId} :
    id ∈ (edges.reversed source.preorder).targets target ↔ target ∈ edges.targets id := by
  rw [Edges.targets_reversed_of_nodup fun source => (fitting source).nodup, List.mem_filter,
    List.contains_iff_mem, mem_preorder sound]
  exact and_iff_right_of_imp live

/-- Every edge has its reverse. -/
theorem mem_targets_of_reverse? (sound : source.tree.Sound) {relation reverse : Relation}
    (paired : relation.reverse? = some reverse) {target : NodeId} :
    id ∈ (source.table reverse).targets target ↔ target ∈ (source.table relation).targets id := by
  have live (relation : Relation) {id target : NodeId}
      (listed : target ∈ (source.table relation).targets id) :
      ∃ node, source.tree.live id = some node := live_of_targets sound listed
  have labels {id target : NodeId} : id ∈ (source.table .labelFor).targets target ↔
      target ∈ (source.table .labelledBy).targets id :=
    mem_targets_reversed sound (fitting_labels sound) (live .labelledBy)
  have details {id target : NodeId} : id ∈ (source.table .detailsFor).targets target ↔
      target ∈ (source.table .details).targets id :=
    mem_targets_reversed sound (fitting_details sound) (live .details)
  cases relation <;> cases paired
  · exact labels
  · exact labels.symm
  · exact details
  · exact details.symm

/-- The members of a group have the same targets, and each is one of its own. -/
theorem targets_groups_of_mem (sound : source.tree.Sound) {target : NodeId}
    (listed : target ∈ source.groups.targets id) :
    source.groups.targets target = source.groups.targets id ∧ id ∈ source.groups.targets id := by
  have known := targets_groups sound id
  cases keyed : (source.tree.live id).bind (source.groupKey? id) with
  | none =>
    rw [keyed] at known
    rw [known] at listed
    cases listed
  | some key =>
    rw [keyed] at known
    obtain ⟨node, alive, own⟩ := Option.bind_eq_some_iff.mp keyed
    rw [known] at listed ⊢
    obtain ⟨other, aliveOther, same⟩ := (mem_membersOf sound).mp listed
    refine ⟨?_, (mem_membersOf sound).mpr ⟨node, alive, own⟩⟩
    rw [targets_groups sound, aliveOther, Option.bind_some, same]

theorem occupied_table (sound : source.tree.Sound) (relation : Relation) :
    (source.table relation).Occupied := by
  cases relation with
  | labelledBy => exact Edges.occupied_ofTargets _ _
  | labelFor => exact Edges.occupied_reversed _ _
  | memberOf =>
    rw [table, groups_eq]
    refine Edges.occupied_ofKeys _ fun pair listed => ?_
    obtain ⟨node, alive, known⟩ := (mem_grouped sound).mp listed
    exact List.ne_nil_of_mem ((mem_membersOf sound).mpr ⟨node, alive, known⟩)
  | details => exact Edges.occupied_ofTargets _ _
  | detailsFor => exact Edges.occupied_reversed _ _
  | linksTo => exact Edges.occupied_ofTargets _ _

end Source

end Accessibility.Derivation
