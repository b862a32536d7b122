import Accessibility.Proofs.Derivation.Reading
import Accessibility.Proofs.Derivation.Targets
import Accessibility.Proofs.Tree.Renaming

/-!
Relations derived from trees that are the same but for the keys of their nodes are the same but for
these keys. It is enough that corresponding nodes agree in the attributes that the relation is read
from.
-/

set_option autoImplicit false

namespace Accessibility.Derivation

open Std

/-- Documents that tell invokers the same. The elements that they refer to matter only where details
are derived. -/
structure SameAnswers (relation : Relation) (left right : Document) : Prop where
  contains : ∀ handle, right.contains handle = left.contains handle
  scopeOf : ∀ handle, right.scopeOf handle = left.scopeOf handle
  encloses : ∀ outer inner, right.encloses outer inner = left.encloses outer inner
  target : (RelationSet.ofPairs [.details]).contains relation = true → ∀ handle,
    (right.get? handle).bind ContentNode.popoverTarget =
      (left.get? handle).bind ContentNode.popoverTarget

theorem SameAnswers.refl (relation : Relation) (document : Document) :
    SameAnswers relation document document :=
  ⟨fun _ => rfl, fun _ => rfl, fun _ _ => rfl, fun _ _ => rfl⟩

/-- Sources that a relation cannot tell apart but by the keys of nodes. -/
structure Source.Renamed (name : NodeId → NodeId) (relation : Relation) (left right : Source) :
    Prop where
  tree : Tree.Renamed name (AgreeFor relation) left.tree right.tree
  document : SameAnswers relation left.document right.document

namespace Source.Renamed

variable {name : NodeId → NodeId} {relation : Relation} {left right : Source} {id : NodeId}
  {node node' : AccessibleNode}

/-- A relation and its reverse cannot tell the same sources apart. -/
theorem reverse (renamed : Renamed name relation left right) {reverse : Relation}
    (paired : relation.reverse? = some reverse) : Renamed name reverse left right := by
  refine ⟨⟨renamed.tree.soundLeft, renamed.tree.soundRight, renamed.tree.root, fun alive => ?_,
    renamed.tree.onto⟩, renamed.document.contains, renamed.document.scopeOf,
    renamed.document.encloses, fun isDetails => renamed.document.target ?_⟩
  · obtain ⟨node', alive', self, agree⟩ := renamed.tree.alive alive
    exact ⟨node', alive', self, agree.reverse paired⟩
  · cases relation <;> cases paired <;> exact isDetails

/-! ### Lookups -/

theorem filter_preorder (renamed : Renamed name relation left right) {holds holds' : NodeId → Bool}
    (same : ∀ {id : NodeId} {node : AccessibleNode}, left.tree.live id = some node →
      holds' (name id) = holds id) :
    right.preorder.filter holds' = (left.preorder.filter holds).map name := by
  rw [right.preorder_eq, renamed.tree.preorder, ← left.preorder_eq, List.filter_map]
  refine congrArg (List.map name) (List.filter_congr fun id listed => ?_)
  obtain ⟨node, alive⟩ := (mem_preorder renamed.tree.soundLeft).mp listed
  exact same alive

/-- Nodes picked by a property are the same but for their keys, if it cannot tell nodes apart. -/
theorem filter_nodes (renamed : Renamed name relation left right)
    {holds holds' : NodeId → AccessibleNode → Bool}
    (same : ∀ {id : NodeId} {node node' : AccessibleNode}, left.tree.live id = some node →
      right.tree.live (name id) = some node' → node.Renamed name node' →
      AgreeFor relation node node' → holds' (name id) node' = holds id node) :
    (right.preorder.filter fun id => (right.tree.get? id).any (holds' id)) =
      (left.preorder.filter fun id => (left.tree.get? id).any (holds id)).map name := by
  refine renamed.filter_preorder fun alive => ?_
  obtain ⟨node', alive', self, agree⟩ := renamed.tree.alive alive
  rw [Tree.get?_of_live alive, Tree.get?_of_live alive', Option.any_some, Option.any_some,
    same alive alive' self agree]

theorem lookup? (renamed : Renamed name relation left right) (domId : String) (scope : Scope) :
    right.tree.lookup? domId scope = (left.tree.lookup? domId scope).map name :=
  renamed.tree.lookup? (fun _ _ _ agree => agree.domId?) domId scope

theorem resolveAll (renamed : Renamed name relation left right) (list : String) (scope : Scope) :
    right.resolveAll list scope = (left.resolveAll list scope).map name := by
  rw [Source.resolveAll, Source.resolveAll, funext fun word => renamed.lookup? word scope,
    ← List.map_filterMap]
  refine Lists.eraseDups_map fun id listed other listedOther same => ?_
  obtain ⟨word, -, found⟩ := List.mem_filterMap.mp listed
  obtain ⟨word', -, found'⟩ := List.mem_filterMap.mp listedOther
  obtain ⟨node, alive⟩ := live_of_lookup? found
  obtain ⟨node', alive'⟩ := live_of_lookup? found'
  exact renamed.tree.injective alive alive' same

/-- Edges made node by node are renamed if the targets of every node are. -/
theorem targets_edges (renamed : Renamed name relation left right)
    {targetsOf targetsOf' : NodeId → AccessibleNode → List NodeId}
    (same : ∀ {id : NodeId} {node node' : AccessibleNode}, left.tree.live id = some node →
      right.tree.live (name id) = some node' → node.Renamed name node' →
      AgreeFor relation node node' → targetsOf' (name id) node' = (targetsOf id node).map name)
    (alive : left.tree.live id = some node) :
    (right.edges targetsOf').targets (name id) = ((left.edges targetsOf).targets id).map name := by
  obtain ⟨node', alive', self, agree⟩ := renamed.tree.alive alive
  rw [Source.targets_edges renamed.tree.soundRight, Source.targets_edges renamed.tree.soundLeft,
    alive, alive']
  exact same alive alive' self agree

/-! ### Labels -/

section Labels

variable (renamed : Renamed name .labelledBy left right)
include renamed

theorem labelled? (alive : left.tree.live id = some node) (self : node.Renamed name node')
    (agree : AgreeFor .labelledBy node node') :
    right.labelled? (name id) node' = (left.labelled? id node).map name := by
  have value : node'.attributes["for"]? = node.attributes["for"]? := agree.value rfl
  rw [Source.labelled?, Source.labelled?, value, self.scope]
  cases node.attributes["for"]? with
  | some domId => exact renamed.lookup? _ _
  | none =>
    dsimp only
    rw [renamed.tree.below alive, ← List.map_tail, List.find?_map]
    refine congrArg (Option.map name) (List.find?_congr fun inner listed => ?_)
    have leads := (renamed.tree.soundLeft.mem_below alive).mp (List.mem_of_mem_tail listed)
    obtain ⟨innerNode, aliveInner⟩ := renamed.tree.soundLeft.forest.leads_live leads alive
    obtain ⟨innerNode', aliveInner', -, agreeInner⟩ := renamed.tree.alive aliveInner
    rw [Function.comp_apply, Tree.get?_of_live aliveInner, Tree.get?_of_live aliveInner',
      Option.any_some, Option.any_some, agreeInner.isLabelable]

theorem targets_labelElements (alive : left.tree.live id = some node) :
    right.labelElements.targets (name id) = (left.labelElements.targets id).map name := by
  rw [Source.targets_labelElements, Source.targets_labelElements, map_fst_filter_nodes,
    map_fst_filter_nodes]
  refine renamed.filter_nodes fun aliveLabel aliveLabel' self agree => ?_
  rw [isLabelOf, isLabelOf, agree.hasTag, renamed.labelled? aliveLabel self agree]
  refine congrArg (_ && ·) (renamed.tree.beq_some (fun target found => ?_) alive)
  exact live_of_labelled? renamed.tree.soundLeft aliveLabel found

theorem caption? (alive : left.tree.live id = some node) (self : node.Renamed name node')
    (agree : AgreeFor .labelledBy node node') :
    right.caption? node' = (left.caption? node).map name := by
  rw [Source.caption?, Source.caption?, agree.hasTag]
  split
  · rw [self.children, List.find?_map]
    refine congrArg (Option.map name) (List.find?_congr fun child listed => ?_)
    obtain ⟨childNode, aliveChild, -⟩ := (renamed.tree.soundLeft.forest.listed alive).mp listed
    obtain ⟨childNode', aliveChild', -, agreeChild⟩ := renamed.tree.alive aliveChild
    rw [Function.comp_apply, Tree.get?_of_live aliveChild, Tree.get?_of_live aliveChild',
      Option.any_some, Option.any_some, agreeChild.hasTag]
  · rfl

theorem withCaption {labels : List NodeId} (fitting : left.Fitting labels) {caption : Option NodeId}
    (live : ∀ id, caption = some id → ∃ node, left.tree.live id = some node) :
    withCaption (labels.map name) (caption.map name) =
      (Source.withCaption labels caption).map name := by
  cases caption with
  | none => rfl
  | some last =>
    obtain ⟨lastNode, aliveLast⟩ := live last rfl
    have contains : (labels.map name).contains (name last) = labels.contains last := by
      rw [Bool.eq_iff_iff, List.contains_iff_mem, List.contains_iff_mem]
      exact renamed.tree.mem_map fitting.live aliveLast
    rw [Option.map_some, Source.withCaption, Source.withCaption, contains]
    split
    · rfl
    · rw [List.map_append, List.map_singleton]

theorem targets_labels (alive : left.tree.live id = some node) :
    right.labels.targets (name id) = (left.labels.targets id).map name := by
  refine renamed.targets_edges (@fun id node node' alive _ self agree => ?_) alive
  have words := agree.valueOrEmpty (show (RelationSet.readFrom "aria-labelledby").contains
    .labelledBy = true from rfl)
  rw [labelsOf_eq, labelsOf_eq, words, self.scope, renamed.resolveAll,
    renamed.targets_labelElements alive, renamed.caption? alive self agree, List.isEmpty_map,
    ← apply_ite (List.map name)]
  refine renamed.withCaption ?_ fun caption first =>
    live_of_caption? renamed.tree.soundLeft alive first
  split
  · exact fitting_labelElements renamed.tree.soundLeft _
  · exact fitting_resolveAll _ _

end Labels

/-! ### Groups -/

end Source.Renamed

/-- A group whose members are told by other keys. -/
def GroupKey.rename (name : NodeId → NodeId) : GroupKey → GroupKey
  | .native owner text => .native (name owner) text
  | .aria group => .aria (name group)

namespace Source.Renamed

variable {name : NodeId → NodeId} {relation : Relation} {left right : Source} {id : NodeId}
  {node node' : AccessibleNode}

section Groups

variable (renamed : Renamed name .memberOf left right)
include renamed

theorem groupKey? (alive : left.tree.live id = some node) (agree : AgreeFor .memberOf node node') :
    right.groupKey? (name id) node' = (left.groupKey? id node).map (·.rename name) := by
  have nearest {wanted : Role} (steady : wanted.Steady) :
      right.tree.nearest? (name id) (·.role == wanted) =
        (left.tree.nearest? id (·.role == wanted)).map name :=
    renamed.tree.nearest? alive fun _ _ _ agree => agree.role_beq steady
  have value : node'.attributes.valueOrEmpty "name" = node.attributes.valueOrEmpty "name" :=
    agree.valueOrEmpty rfl
  have radio : node'.role = .radioButton ↔ node.role = .radioButton := agree.role_eq_iff (by decide)
  simp only [Source.groupKey?, agree.isNativeRadio, value, radio]
  split
  · split
    · rfl
    · rw [nearest (by decide), renamed.tree.root]
      cases left.tree.nearest? id (·.role == .form) with
      | some form => rfl
      | none =>
        cases left.tree.root with
        | none => rfl
        | some root => rfl
  · split
    · rw [nearest (by decide), Option.map_map, Option.map_map]
      rfl
    · rfl

theorem rename_eq_iff {key other : GroupKey}
    (alive : left.tree.live key.owner = some node)
    (aliveOther : left.tree.live other.owner = some node') :
    key.rename name = other.rename name ↔ key = other := by
  refine ⟨fun same => ?_, congrArg _⟩
  cases key with
  | native owner text =>
    cases other with
    | native owner' text' =>
      obtain ⟨owners, texts⟩ := GroupKey.native.inj same
      cases renamed.tree.injective alive aliveOther owners
      rw [texts]
    | aria group => cases same
  | aria group =>
    cases other with
    | native owner text => cases same
    | aria group' =>
      cases renamed.tree.injective alive aliveOther (GroupKey.aria.inj same)
      rfl

theorem membersOf {key : GroupKey} (alive : left.tree.live key.owner = some node) :
    right.membersOf (key.rename name) = (left.membersOf key).map name := by
  rw [membersOf_eq, membersOf_eq]
  refine renamed.filter_nodes fun aliveMember _ _ agree => ?_
  rw [renamed.groupKey? aliveMember agree]
  cases known : left.groupKey? _ _ with
  | none => rfl
  | some other =>
    obtain ⟨ownerNode, aliveOwner⟩ := live_of_groupKey? renamed.tree.soundLeft aliveMember known
    rw [Option.map_some, Bool.eq_iff_iff, beq_iff_eq, beq_iff_eq, Option.some.injEq,
      Option.some.injEq]
    exact renamed.rename_eq_iff aliveOwner alive

theorem targets_groups (alive : left.tree.live id = some node) :
    right.groups.targets (name id) = (left.groups.targets id).map name := by
  obtain ⟨node', alive', self, agree⟩ := renamed.tree.alive alive
  rw [Source.targets_groups renamed.tree.soundRight, Source.targets_groups renamed.tree.soundLeft,
    alive, alive', Option.bind_some, Option.bind_some, renamed.groupKey? alive agree]
  cases known : left.groupKey? id node with
  | none => rfl
  | some key =>
    obtain ⟨ownerNode, aliveOwner⟩ := live_of_groupKey? renamed.tree.soundLeft alive known
    exact renamed.membersOf aliveOwner

end Groups

/-! ### Details and links -/

section Details

variable (renamed : Renamed name .details left right)
include renamed

theorem invoked? (self : node.Renamed name node') (agree : AgreeFor .details node node') :
    right.invoked? node' = (left.invoked? node).map name := by
  have value : node'.attributes["popovertarget"]? = node.attributes["popovertarget"]? :=
    agree.value rfl
  rw [Source.invoked?, Source.invoked?, self.content, renamed.document.target rfl, value, self.scope]
  cases (left.document.get? node.content).bind ContentNode.popoverTarget with
  | some target =>
    dsimp only
    rw [renamed.document.contains, renamed.document.scopeOf, renamed.document.encloses]
    split
    · exact renamed.tree.nodeFor? target
    · rfl
  | none =>
    dsimp only
    cases node.attributes["popovertarget"]? with
    | none => rfl
    | some domId =>
      rw [Option.bind_some, Option.bind_some]
      exact renamed.lookup? _ _

theorem popover? (alive : left.tree.live id = some node) (self : node.Renamed name node')
    (agree : AgreeFor .details node node') :
    right.popover? (name id) node' = (left.popover? id node).map name := by
  rw [Source.popover?, Source.popover?, agree.isInvoker, agree.onlyHides,
    renamed.invoked? self agree]
  split
  · cases found : left.invoked? node with
    | none => rfl
    | some target =>
      obtain ⟨targetNode, aliveTarget⟩ := live_of_invoked? renamed.tree.soundLeft found
      obtain ⟨targetNode', aliveTarget', -, agreeTarget⟩ := renamed.tree.alive aliveTarget
      have sibling : (right.tree.nextSibling? (name id) != some (name target)) =
          (left.tree.nextSibling? id != some target) := by
        rw [renamed.tree.nextSibling? alive]
        refine congrArg (! ·) (renamed.tree.beq_some (fun other next => ?_) aliveTarget)
        exact renamed.tree.soundLeft.live_of_nextSibling? alive next
      rw [Option.map_some, Option.filter_some, Option.filter_some, sibling,
        Tree.get?_of_live aliveTarget, Tree.get?_of_live aliveTarget', Option.any_some,
        Option.any_some, agreeTarget.isPopover]
      split <;> rfl
  · rfl

theorem targets_details (alive : left.tree.live id = some node) :
    right.details.targets (name id) = (left.details.targets id).map name := by
  refine renamed.targets_edges (@fun id node node' alive _ self agree => ?_) alive
  have words := agree.valueOrEmpty (show (RelationSet.readFrom "aria-details").contains
    .details = true from rfl)
  rw [detailsOf, detailsOf, words, self.scope, renamed.resolveAll, renamed.popover? alive self agree]
  cases left.resolveAll (node.attributes.valueOrEmpty "aria-details") node.scope with
  | nil =>
    rw [List.map_nil]
    dsimp only
    cases left.popover? id node <;> rfl
  | cons target rest => rfl

end Details

section Links

variable (renamed : Renamed name .linksTo left right)
include renamed

theorem anchor? (text : String) (scope : Scope) :
    right.anchor? text scope = (left.anchor? text scope).map name := by
  rw [Source.anchor?, Source.anchor?, map_fst_find?_nodes, map_fst_find?_nodes, ← List.head?_map]
  refine congrArg List.head? (renamed.filter_nodes fun _ _ self agree => ?_)
  have value := agree.value (show (RelationSet.readFrom "name").contains .linksTo = true from rfl)
  dsimp only
  rw [self.scope, agree.hasTag, value]

theorem targets_links (alive : left.tree.live id = some node) :
    right.links.targets (name id) = (left.links.targets id).map name := by
  refine renamed.targets_edges (@fun id node node' _ _ self agree => ?_) alive
  have address := agree.value (show (RelationSet.readFrom "href").contains .linksTo = true from rfl)
  simp only [destination?, agree.isLink_iff, address, self.scope]
  split
  · cases (node.attributes["href"]?.bind fragment?) with
    | none => rfl
    | some fragment =>
      rw [Option.bind_some, Option.bind_some, renamed.lookup?, renamed.anchor?, ← Option.map_or]
      cases ((left.tree.lookup? fragment node.scope).or (left.anchor? fragment node.scope)) <;> rfl
  · rfl

end Links

/-! ### All relations -/

theorem targets_reversed (renamed : Renamed name relation left right) {edges edges' : Edges}
    (fitting : ∀ id, left.Fitting (edges.targets id))
    (fitting' : ∀ id, right.Fitting (edges'.targets id))
    (same : ∀ {id : NodeId} {node : AccessibleNode}, left.tree.live id = some node →
      edges'.targets (name id) = (edges.targets id).map name)
    (alive : left.tree.live id = some node) :
    (edges'.reversed right.preorder).targets (name id) =
      ((edges.reversed left.preorder).targets id).map name := by
  rw [Edges.targets_reversed_of_nodup fun source => (fitting source).nodup,
    Edges.targets_reversed_of_nodup fun source => (fitting' source).nodup]
  refine renamed.filter_preorder fun aliveSource => ?_
  rw [same aliveSource, Bool.eq_iff_iff, List.contains_iff_mem, List.contains_iff_mem]
  exact renamed.tree.mem_map (fitting _).live alive

/-- What is derived is the same but for the keys of nodes. -/
theorem targets_table (renamed : Renamed name relation left right)
    (alive : left.tree.live id = some node) :
    (right.table relation).targets (name id) = ((left.table relation).targets id).map name := by
  have soundLeft := renamed.tree.soundLeft
  have soundRight := renamed.tree.soundRight
  cases relation with
  | labelledBy => exact renamed.targets_labels alive
  | labelFor =>
    exact renamed.targets_reversed (fitting_labels soundLeft) (fitting_labels soundRight)
      (renamed.reverse rfl).targets_labels alive
  | memberOf => exact renamed.targets_groups alive
  | details => exact renamed.targets_details alive
  | detailsFor =>
    exact renamed.targets_reversed (fitting_details soundLeft) (fitting_details soundRight)
      (renamed.reverse rfl).targets_details alive
  | linksTo => exact renamed.targets_links alive

end Source.Renamed

end Accessibility.Derivation
