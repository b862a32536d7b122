import Accessibility.Proofs.Relation.Edges
import Accessibility.Snapshot.Violation

/-!
What a snapshot without violations is, for any nodes and edges whatever. Every violation is of one node
or one edge, and nothing more is asked of an edge that leads out of the snapshot; but where there is no
violation at all, no edge does, and so all that is asked of edges holds of all of them.
-/

set_option autoImplicit false

namespace Accessibility.Snapshot

open Std

/-- Links between nodes that do not contradict each other. -/
structure LinksAgree (snapshot : Snapshot) : Prop where
  listed : ∀ {id parent : NodeId} {info : NodeInfo}, snapshot.get? id = some info →
    info.parent = some parent →
    ∃ parentInfo, snapshot.get? parent = some parentInfo ∧ id ∈ parentInfo.children
  rooted : ∀ {id : NodeId} {info : NodeInfo}, snapshot.get? id = some info →
    info.parent = none → snapshot.root = some id
  linked : ∀ {id child : NodeId} {info : NodeInfo}, snapshot.get? id = some info →
    child ∈ info.children →
    ∃ childInfo, snapshot.get? child = some childInfo ∧ childInfo.parent = some id

/-- Edges between nodes of the snapshot, each listed once and with its reverse, such that the members of
a group agree about it. -/
structure EdgesAgree (snapshot : Snapshot) : Prop where
  inside : ∀ {relation : Relation} {source target : NodeId},
    target ∈ snapshot.targets relation source →
    snapshot.contains source = true ∧ snapshot.contains target = true
  nodup : ∀ (relation : Relation) (source : NodeId), (snapshot.targets relation source).Nodup
  reversed : ∀ {relation reverse : Relation}, relation.reverse? = some reverse →
    ∀ {source target : NodeId}, target ∈ snapshot.targets relation source ↔
      source ∈ snapshot.targets reverse target
  /-- A source with an entry is one of its own members, so the entry is not empty. -/
  own : ∀ {source : NodeId} {members : List NodeId},
    snapshot.edges.memberOf[source]? = some members → source ∈ members
  shared : ∀ {source member : NodeId}, member ∈ snapshot.targets .memberOf source →
    snapshot.targets .memberOf member = snapshot.targets .memberOf source

structure Coherent (snapshot : Snapshot) : Prop where
  links : snapshot.LinksAgree
  edges : snapshot.EdgesAgree

/-- Whether a node has an entry in the groups, or is listed in one. -/
inductive InGroups (snapshot : Snapshot) (id : NodeId) : Prop
  | source {members : List NodeId} (entry : snapshot.edges.memberOf[id]? = some members) :
    InGroups snapshot id
  | member {source : NodeId} (listed : id ∈ snapshot.targets .memberOf source) :
    InGroups snapshot id

/-! ### Links -/

section Links

variable {snapshot : Snapshot} {id : NodeId} {info : NodeInfo}

theorem isPlaced_iff : snapshot.isPlaced id info = true ↔
    (∀ parent, info.parent = some parent →
      ∃ parentInfo, snapshot.get? parent = some parentInfo ∧ id ∈ parentInfo.children) ∧
      (info.parent = none → snapshot.root = some id) := by
  rw [isPlaced]
  cases linked : info.parent with
  | none => simp
  | some parent => simp [Option.any_eq_true]

theorem strays_eq_nil_iff :
    (info.children.filter fun child => !(snapshot.get? child).any (·.parent == some id)) = [] ↔
      ∀ child ∈ info.children,
        ∃ childInfo, snapshot.get? child = some childInfo ∧ childInfo.parent = some id := by
  rw [List.filter_eq_nil_iff]
  refine forall₂_congr fun child _ => ?_
  rw [Bool.not_eq_true, Bool.not_eq_false', Option.any_eq_true]
  simp only [beq_iff_eq]

theorem nodeViolations_eq_nil_iff : snapshot.nodeViolations id info = [] ↔
    snapshot.isPlaced id info = true ∧ ∀ child ∈ info.children,
      ∃ childInfo, snapshot.get? child = some childInfo ∧ childInfo.parent = some id := by
  rw [nodeViolations, List.append_eq_nil_iff, List.map_eq_nil_iff, strays_eq_nil_iff]
  refine and_congr_left fun _ => ?_
  split <;> simp [*]

theorem linksAgree_iff : snapshot.LinksAgree ↔
    ∀ id info, snapshot.get? id = some info → snapshot.nodeViolations id info = [] := by
  simp only [nodeViolations_eq_nil_iff, isPlaced_iff]
  constructor
  · intro agree id info known
    exact ⟨⟨fun _ => agree.listed known, agree.rooted known⟩, fun _ => agree.linked known⟩
  · intro right
    exact ⟨fun known => (right _ _ known).1.1 _, fun known => (right _ _ known).1.2,
      fun known => (right _ _ known).2 _⟩

end Links

/-! ### Edges -/

/-- What an edge must be, given all targets of its source. -/
structure SoundEdge (snapshot : Snapshot) (relation : Relation) (source : NodeId)
    (targets : List NodeId) (target : NodeId) : Prop where
  leaves : snapshot.contains source = true
  arrives : snapshot.contains target = true
  reversed : ∀ reverse, relation.reverse? = some reverse →
    source ∈ snapshot.targets reverse target
  shared : relation = .memberOf → snapshot.targets .memberOf target = targets

section Edges

variable {snapshot : Snapshot} {relation : Relation} {source target : NodeId}
  {targets earlier later : List NodeId}

theorem edgeViolations_eq_nil_iff :
    snapshot.edgeViolations relation source targets earlier target = [] ↔
      target ∉ earlier ∧ snapshot.SoundEdge relation source targets target := by
  rw [edgeViolations]
  split
  · rename_i outside
    refine iff_of_false (List.cons_ne_nil _ _) fun both => ?_
    simp only [both.2.leaves, both.2.arrives, Bool.not_true, Bool.or_self] at outside
    cases outside
  · rename_i inside
    rw [Bool.or_eq_true, Bool.not_eq_true', Bool.not_eq_true', not_or, Bool.not_eq_false,
      Bool.not_eq_false] at inside
    have once : (if earlier.contains target then
        [Violation.duplicateTarget relation source target] else []) = [] ↔ target ∉ earlier := by
      rw [ite_eq_right_iff, List.contains_iff_mem]
      exact forall_congr' fun _ => iff_of_false (List.cons_ne_nil _ _) not_false
    have equal : (if relation = .memberOf ∧ snapshot.targets .memberOf target ≠ targets then
        [Violation.peerSetMismatch source target] else []) = [] ↔
          (relation = .memberOf → snapshot.targets .memberOf target = targets) := by
      simp
    have fields : ((∀ reverse, relation.reverse? = some reverse →
          source ∈ snapshot.targets reverse target) ∧
        (relation = .memberOf → snapshot.targets .memberOf target = targets)) ↔
          snapshot.SoundEdge relation source targets target :=
      ⟨fun both => ⟨inside.1, inside.2, both.1, both.2⟩, fun sound => ⟨sound.reversed, sound.shared⟩⟩
    dsimp only
    rw [List.append_eq_nil_iff, List.append_eq_nil_iff, and_assoc]
    refine and_congr once ((and_congr ?_ equal).trans fields)
    cases relation.reverse? with
    | none => simp
    | some reverse => simp

/-- Target by target, each is new among those before it, and so all differ. -/
theorem targetViolations_eq_nil_iff :
    snapshot.targetViolations relation source targets earlier later = [] ↔
      (∀ target ∈ later, target ∉ earlier) ∧ later.Nodup ∧
        ∀ target ∈ later, snapshot.SoundEdge relation source targets target := by
  induction later generalizing earlier with
  | nil => simp [targetViolations]
  | cons target rest ih =>
    rw [targetViolations, List.append_eq_nil_iff, edgeViolations_eq_nil_iff, ih, List.nodup_cons]
    simp only [List.forall_mem_cons, List.mem_append, List.mem_singleton, not_or]
    constructor
    · rintro ⟨⟨fresh, sound⟩, apart, nodup, soundRest⟩
      exact ⟨⟨fresh, fun other listed => (apart other listed).1⟩,
        ⟨fun again => (apart target again).2 rfl, nodup⟩, sound, soundRest⟩
    · rintro ⟨⟨fresh, freshRest⟩, ⟨once, nodup⟩, sound, soundRest⟩
      refine ⟨⟨fresh, sound⟩, fun other listed => ⟨freshRest other listed, ?_⟩, nodup, soundRest⟩
      rintro rfl
      exact once listed

theorem sourceViolations_eq_nil_iff :
    snapshot.sourceViolations relation source targets = [] ↔
      targets.Nodup ∧ (∀ target ∈ targets, snapshot.SoundEdge relation source targets target) ∧
        (relation = .memberOf → source ∈ targets) := by
  have own : (if relation = .memberOf ∧ source ∉ targets then
      [Violation.peerSetMismatch source source] else []) = [] ↔
        (relation = .memberOf → source ∈ targets) := by
    simp
  rw [sourceViolations, List.append_eq_nil_iff, targetViolations_eq_nil_iff, own, and_assoc,
    and_assoc, and_iff_right fun _ _ => List.not_mem_nil]

theorem targets_of_entry (entry : (snapshot.edges.get relation)[source]? = some targets) :
    snapshot.targets relation source = targets := by
  rw [Snapshot.targets, Edges.targets, entry, Option.getD_some]

theorem targets_of_no_entry (missing : (snapshot.edges.get relation)[source]? = none) :
    snapshot.targets relation source = [] := by
  rw [Snapshot.targets, Edges.targets, missing, Option.getD_none]

theorem edgesAgree_iff : snapshot.EdgesAgree ↔
    ∀ relation source targets, (snapshot.edges.get relation)[source]? = some targets →
      snapshot.sourceViolations relation source targets = [] := by
  simp only [sourceViolations_eq_nil_iff]
  constructor
  · rintro agree relation source targets entry
    rw [← targets_of_entry entry]
    refine ⟨agree.nodup relation source, fun target inside => ?_, ?_⟩
    · refine ⟨(agree.inside inside).1, (agree.inside inside).2, ?_, ?_⟩
      · exact fun reverse paired => (agree.reversed paired).mp inside
      · rintro rfl
        exact agree.shared inside
    · rintro rfl
      rw [targets_of_entry entry]
      exact agree.own entry
  · intro right
    have sound {relation : Relation} {source target : NodeId}
        (inside : target ∈ snapshot.targets relation source) :
        snapshot.SoundEdge relation source (snapshot.targets relation source) target := by
      cases entry : (snapshot.edges.get relation)[source]? with
      | none =>
        rw [targets_of_no_entry entry] at inside
        cases inside
      | some targets =>
        rw [targets_of_entry entry] at inside ⊢
        exact (right relation source targets entry).2.1 target inside
    have turned {relation reverse : Relation} (paired : relation.reverse? = some reverse)
        {source target : NodeId} (inside : target ∈ snapshot.targets relation source) :
        source ∈ snapshot.targets reverse target := (sound inside).reversed reverse paired
    refine ⟨fun inside => ⟨(sound inside).leaves, (sound inside).arrives⟩, fun relation source => ?_,
      fun paired _ _ => ⟨turned paired, turned (Relation.reverse?_reverse? paired)⟩,
      fun entry => (right .memberOf _ _ entry).2.2 rfl, fun inside => (sound inside).shared rfl⟩
    cases entry : (snapshot.edges.get relation)[source]? with
    | none =>
      rw [targets_of_no_entry entry]
      exact List.nodup_nil
    | some targets =>
      rw [targets_of_entry entry]
      exact (right relation source targets entry).1

end Edges

/-! ### All that can be wrong -/

theorem coherent_iff {snapshot : Snapshot} : snapshot.violations = [] ↔ snapshot.Coherent := by
  rw [violations, List.append_eq_nil_iff, List.flatMap_eq_nil_iff, List.flatMap_eq_nil_iff]
  have links : (∀ entry ∈ snapshot.nodes.toList,
      snapshot.nodeViolations entry.1 entry.2 = []) ↔ snapshot.LinksAgree := by
    rw [linksAgree_iff, Prod.forall]
    simp only [ExtTreeMap.mem_toList_iff_getElem?_eq_some]
    rfl
  have edges : (∀ relation ∈ Relation.all, (snapshot.edges.get relation).toList.flatMap
      (fun entry => snapshot.sourceViolations relation entry.1 entry.2) = []) ↔
        snapshot.EdgesAgree := by
    rw [edgesAgree_iff]
    refine forall_congr' fun relation => ?_
    rw [forall_prop_of_true (Relation.mem_all relation), List.flatMap_eq_nil_iff, Prod.forall]
    simp only [ExtTreeMap.mem_toList_iff_getElem?_eq_some]
  exact (and_congr links edges).trans ⟨fun both => ⟨both.1, both.2⟩, fun both => ⟨both.1, both.2⟩⟩

/-- Members share the one list that each is in, so a node of the groups is a member of its own. -/
theorem EdgesAgree.self_mem {snapshot : Snapshot} (agree : snapshot.EdgesAgree) {id : NodeId}
    (grouped : snapshot.InGroups id) : id ∈ snapshot.targets .memberOf id := by
  cases grouped with
  | source entry =>
    have listed := agree.own entry
    rwa [← show snapshot.targets .memberOf id = _ from targets_of_entry entry] at listed
  | member listed => rwa [agree.shared listed]

theorem EdgesAgree.equivalence {snapshot : Snapshot} (agree : snapshot.EdgesAgree) :
    Equivalence fun left right : {id // snapshot.InGroups id} =>
      right.1 ∈ snapshot.targets .memberOf left.1 := by
  refine ⟨fun id => agree.self_mem id.2, fun {left right} listed => ?_,
    fun {left middle right} first second => ?_⟩
  · rw [agree.shared listed]
    exact agree.self_mem left.2
  · rwa [agree.shared first] at second

/-- A snapshot is free of violations exactly if it is coherent, and then its groups are classes of an
equivalence. -/
theorem violations_exact (snapshot : Snapshot) :
    (snapshot.violations = [] ↔ snapshot.Coherent) ∧
      (snapshot.violations = [] →
        Equivalence fun left right : {id // snapshot.InGroups id} =>
          right.1 ∈ snapshot.targets .memberOf left.1) :=
  ⟨coherent_iff, fun clean => (coherent_iff.mp clean).edges.equivalence⟩

/-- A form with a label and two radio buttons, of which it labels the first. The group of the buttons is
given by the list of each. -/
def labelledForm (first second : List NodeId) : Snapshot where
  version := 1
  root := some ⟨1, 1⟩
  nodes :=
    let node (content : Nat) (role : Role) (parent : Option NodeId) (children : List NodeId) :
        NodeInfo := ⟨⟨content⟩, none, none, role, .document, parent, children, content⟩
    let nodes : List (NodeId × NodeInfo) :=
      [(⟨1, 1⟩, node 0 .form none [⟨2, 1⟩, ⟨3, 1⟩, ⟨4, 3⟩]),
        (⟨2, 1⟩, node 1 .label (some ⟨1, 1⟩) []), (⟨3, 1⟩, node 2 .radioButton (some ⟨1, 1⟩) []),
        (⟨4, 3⟩, node 3 .radioButton (some ⟨1, 1⟩) [])]
    .ofList nodes
  edges :=
    let table (entries : List (NodeId × List NodeId)) : Edges := .ofList entries
    { Relation.Family.ofFn fun _ => table [] with
      labelledBy := table [(⟨3, 1⟩, [⟨2, 1⟩])]
      labelFor := table [(⟨2, 1⟩, [⟨3, 1⟩])]
      memberOf := table [(⟨3, 1⟩, first), (⟨4, 3⟩, second)] }

/-- The lists must be the same, down to their order; a button that is in the group of another one, but
not in its own, is as wrong as an empty entry. -/
theorem violations_exact_labelledForm :
    (labelledForm [⟨3, 1⟩, ⟨4, 3⟩] [⟨3, 1⟩, ⟨4, 3⟩]).Coherent ∧
      (Equivalence fun left right :
        {id // (labelledForm [⟨3, 1⟩, ⟨4, 3⟩] [⟨3, 1⟩, ⟨4, 3⟩]).InGroups id} =>
          right.1 ∈ (labelledForm [⟨3, 1⟩, ⟨4, 3⟩] [⟨3, 1⟩, ⟨4, 3⟩]).targets .memberOf left.1) ∧
      ¬ (labelledForm [⟨3, 1⟩, ⟨4, 3⟩] [⟨4, 3⟩, ⟨3, 1⟩]).Coherent ∧
      ¬ (labelledForm [⟨3, 1⟩] []).Coherent := by
  have clean : (labelledForm [⟨3, 1⟩, ⟨4, 3⟩] [⟨3, 1⟩, ⟨4, 3⟩]).violations = [] := by
    decide +kernel
  refine ⟨(violations_exact _).1.mp clean, (violations_exact _).2 clean, fun coherent => ?_,
    fun coherent => ?_⟩
  · exact absurd ((violations_exact _).1.mpr coherent) (by decide +kernel)
  · exact absurd ((violations_exact _).1.mpr coherent) (by decide +kernel)

end Accessibility.Snapshot
