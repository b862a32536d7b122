import Accessibility.Proofs.Change.Merging
import Accessibility.Proofs.Change.Pairs

/-!
The normal form of a cycle, whatever its reports say. All three passes only leave out changes, and the last
two leave out none that inserts or removes. So what a pass makes sure of behind or between two changes, by
an insertion or a removal there, is not lost in a later one.
-/

set_option autoImplicit false

namespace Accessibility

/-- The change removes a node, or inserts a subtree that has it in it. -/
inductive Change.Moves (handle : Handle) : Change → Prop
  | removed : Change.Moves handle (.removed handle)
  | inserted {parent : Handle} {index : Nat} {subtree : Subtree}
    (mentioned : handle ∈ subtree.handles) : Change.Moves handle (.inserted parent index subtree)

/-- Two changes of one attribute of a node, or of what popover it refers to, or of whether it shows. -/
inductive Change.SetSame (node : Handle) : Change → Change → Prop
  | attribute {name : String} {first second : Option String} :
    Change.SetSame node (.attribute node name first) (.attribute node name second)
  | popoverTarget {first second : Option Handle} :
    Change.SetSame node (.popoverTarget node first) (.popoverTarget node second)
  | popoverShowing {first second : Bool} :
    Change.SetSame node (.popoverShowing node first) (.popoverShowing node second)

/-- Whether a change sets an attribute of a node. -/
def Change.setsAttribute (node : Handle) (name : String) : Change → Bool
  | .attribute other name' _ => other == node && name' == name
  | _ => false

/-- The values before and after each report that an attribute of a node has changed. -/
def Report.valuesOf (node : Handle) (name : String) (reports : List Report) :
    List (Option String × Option String) :=
  reports.filterMap fun
    | .attribute other name' old new =>
      if other = node ∧ Text.lower name' = name ∧ old ≠ new then some (old, new) else none
    | _ => none

/-- The one change that the values of an attribute before and after come to, if it has another value in
the end than at first. -/
def Change.lastOf (node : Handle) (name : String) : List (Option String × Option String) → List Change
  | [] => []
  | first :: rest =>
    let last := (first :: rest).getLast (List.cons_ne_nil _ _)
    if last.2 = first.1 then [] else [.attribute node name last.2]

/-- What is true of the changes that some reports come to. -/
structure NormalForm (reports : List Report) (changes : List Change) : Prop where
  sublist : changes.Sublist ((reports.filter (! ·.isIdle)).map Report.change)
  /-- Between two changes of one datum the node is moved. -/
  apart : ∀ {node : Handle} {first second : Change} {before between after : List Change},
    changes = before ++ first :: (between ++ second :: after) → first.SetSame node second →
    ∃ change ∈ between, change.Moves node
  /-- A node that is changed and removed later comes back after that. -/
  returns : ∀ {node : Handle} {change : Change} {before after : List Change},
    changes = before ++ change :: after → change.target? = some node → .removed node ∈ after →
    ∃ between parent index subtree later,
      after = between ++ .inserted parent index subtree :: later ∧ node ∈ subtree.handles ∧
        .removed node ∉ later
  /-- Without insertions and removals there is nothing between the changes of an attribute, and they merge
  into one. -/
  merged : (∀ report ∈ reports, report.change.isStructural = false) →
    ∀ (node : Handle) (name : String),
      changes.filter (·.setsAttribute node name) =
        Change.lastOf node name (Report.valuesOf node name reports)

namespace Change

variable {node : Handle} {first second change : Change}

theorem relocates_iff : change.relocates node = true ↔ change.Moves node := by
  constructor
  · intro relocates
    cases change with
    | inserted parent index subtree => exact .inserted (List.contains_iff_mem.mp relocates)
    | removed other => exact eq_of_beq relocates ▸ .removed
    | _ => cases relocates
  · rintro (_ | mentioned)
    · exact beq_self_eq_true node
    · exact List.contains_iff_mem.mpr mentioned

theorem isStructural_of_moves (moves : change.Moves node) : change.isStructural = true := by
  cases moves <;> rfl

theorem isStructural_eq_isNone : change.isStructural = change.target?.isNone := by
  cases change <;> rfl

theorem SetSame.target (same : first.SetSame node second) : first.target? = some node := by
  cases same <;> rfl

theorem SetSame.target_second (same : first.SetSame node second) : second.target? = some node := by
  cases same <;> rfl

theorem SetSame.sameDatum (same : first.SetSame node second) : first.sameDatum second = true := by
  cases same <;> simp [Change.sameDatum]

end Change

namespace Recorded

/-! ### Only changes are left out -/

theorem standing_clear_sublist (handles : List Handle) (places : List Place) :
    (standing (clear handles places)).Sublist (standing places) := by
  induction places generalizing handles with
  | nil => exact .slnil
  | cons place rest ih =>
    obtain ⟨place', handles', step, steps⟩ := clear_cons handles place
    rw [(steps rest).1]
    cases place with
    | none =>
      rw [or_self_iff.mp step.stands]
      exact ih handles'
    | some recorded =>
      rcases step.stands with rfl | rfl
      · exact (ih handles').cons_cons _
      · exact (ih handles').cons _

theorem standing_cancel_sublist {places : List Place} {pair : Nat × Nat}
    (spans : Spans pair places.length) :
    (standing (cancel places pair)).Sublist (standing places) := by
  cases cancelled : cancels places pair with
  | false => rw [cancel_of_not_cancels cancelled]
  | true =>
    obtain ⟨parent, index, subtree, previous, -, -, made⟩ := exists_of_cancels cancelled
    have ordered := spans.ordered
    have behind : places.drop (pair.1 + 1) = inBetween pair places ++ places.drop pair.2 := by
      have reached : pair.1 + 1 + (pair.2 - (pair.1 + 1)) = pair.2 := Nat.add_sub_cancel' ordered
      have split := List.take_append_drop (pair.2 - (pair.1 + 1)) (places.drop (pair.1 + 1))
      rw [List.drop_drop, reached] at split
      exact split.symm
    have whole : standing places = standing (places.take pair.1) ++
        standing (places.drop pair.1) := by
      rw [← standing_append, List.take_append_drop]
    have drops {lower upper : Nat} (less : lower ≤ upper) :
        (standing (places.drop upper)).Sublist (standing (places.drop lower)) :=
      (List.drop_sublist_drop_left places less).filterMap id
    -- The pair itself goes, and of what is between them what was made inside the subtree.
    rw [made, whole, standing_append, standing_append, standing_none, standing_none,
      List.append_assoc]
    refine List.Sublist.append_left (.trans ?_ (drops (Nat.le_succ pair.1))) _
    rw [behind, standing_append]
    exact (standing_clear_sublist _ _).append (drops (Nat.le_succ pair.2))

theorem cancelTransient_sublist (records : List Recorded) :
    (cancelTransient records).Sublist records := by
  have step (pairs : List (Nat × Nat)) (places : List Place)
      (spans : ∀ pair ∈ pairs, Spans pair places.length) :
      (standing (pairs.foldl cancel places)).Sublist (standing places) := by
    induction pairs generalizing places with
    | nil => exact .refl _
    | cons pair rest ih =>
      obtain ⟨spansPair, spansRest⟩ := List.forall_mem_cons.mp spans
      refine (ih (cancel places pair) ?_).trans (standing_cancel_sublist spansPair)
      rwa [length_cancel spansPair]
  have whole := step _ _ (spans_map_some records)
  rwa [standing, standing, List.filterMap_map, show id ∘ some = some from rfl,
    List.filterMap_some] at whole

theorem dropRemoved_sublist (records : List Recorded) : (dropRemoved records).Sublist records := by
  induction records with
  | nil => exact .slnil
  | cons recorded rest ih =>
    rw [dropRemoved]
    split
    · exact ih.cons _
    · exact ih.cons_cons _

theorem coalesceAfter_cons (before : List Recorded) (recorded : Recorded) (rest : List Recorded) :
    coalesceAfter before (recorded :: rest) =
      if isNeeded before recorded rest then recorded :: coalesceAfter (recorded :: before) rest
      else coalesceAfter (recorded :: before) rest :=
  rfl

theorem coalesceAfter_sublist (before records : List Recorded) :
    (coalesceAfter before records).Sublist records := by
  induction records generalizing before with
  | nil => exact .slnil
  | cons recorded rest ih =>
    rw [coalesceAfter_cons]
    split
    · exact (ih _).cons_cons _
    · exact (ih _).cons _

theorem map_ofReports (reports : List Report) :
    (ofReports reports).map Recorded.change =
      (reports.filter (! ·.isIdle)).map Report.change := by
  rw [ofReports, List.map_map]
  rfl

/-! ### Insertions and removals stay -/

theorem not_structural_of_target {change : Change} {node : Handle}
    (targets : change.target? = some node) : ¬ change.isStructural = true := by
  rw [Change.isStructural_eq_isNone, targets]
  exact Bool.false_ne_true

theorem filter_dropRemoved (records : List Recorded) :
    (dropRemoved records).filter (·.change.isStructural) =
      records.filter (·.change.isStructural) := by
  induction records with
  | nil => rfl
  | cons recorded rest ih =>
    rw [dropRemoved]
    split
    · rename_i drops
      obtain ⟨node, targets, -⟩ := (Option.any_eq_true _ _).mp drops
      rw [ih, List.filter_cons, if_neg (not_structural_of_target targets)]
    · rw [List.filter_cons, List.filter_cons, ih]

theorem isNeeded_of_structural {recorded : Recorded}
    (structural : recorded.change.isStructural = true) (before rest : List Recorded) :
    isNeeded before recorded rest = true := by
  rw [Change.isStructural_eq_isNone, Option.isNone_iff_eq_none] at structural
  rw [isNeeded, structural]

theorem filter_coalesceAfter (before records : List Recorded) :
    (coalesceAfter before records).filter (·.change.isStructural) =
      records.filter (·.change.isStructural) := by
  induction records generalizing before with
  | nil => rfl
  | cons recorded rest ih =>
    rw [coalesceAfter_cons]
    split
    · rw [List.filter_cons, List.filter_cons, ih]
    · rename_i needless
      have plain : ¬ recorded.change.isStructural = true :=
        fun structural => needless (isNeeded_of_structural structural before rest)
      rw [ih, List.filter_cons, if_neg plain]

/-- Whether a node is gone at the end is told by the insertions and removals alone. -/
theorem endsRemoved_filter (node : Handle) (records : List Recorded) :
    endsRemoved node (records.filter (·.change.isStructural)) = endsRemoved node records := by
  rw [endsRemoved, endsRemoved, List.foldl_filter]
  congr 1
  funext gone recorded
  cases recorded.change <;> rfl

theorem endsRemoved_congr {left right : List Recorded}
    (same : left.filter (·.change.isStructural) = right.filter (·.change.isStructural))
    (node : Handle) : endsRemoved node left = endsRemoved node right := by
  rw [← endsRemoved_filter node left, same, endsRemoved_filter]

/-! ### Nodes that are gone at the end -/

/-- No record is of the data of a node that is gone after the records behind it. -/
def Spared : List Recorded → Prop
  | [] => True
  | recorded :: rest =>
    (∀ node, recorded.change.target? = some node → endsRemoved node rest = false) ∧ Spared rest

theorem spared_dropRemoved (records : List Recorded) : Spared (dropRemoved records) := by
  induction records with
  | nil => trivial
  | cons recorded rest ih =>
    rw [dropRemoved]
    split
    · exact ih
    · rename_i stays
      refine ⟨fun node targets => ?_, ih⟩
      rw [endsRemoved_congr (filter_dropRemoved rest), ← Bool.not_eq_true]
      simpa only [targets, Option.any_some] using stays

theorem Spared.coalesceAfter {records : List Recorded} (spared : Spared records)
    (before : List Recorded) : Spared (coalesceAfter before records) := by
  induction records generalizing before with
  | nil => trivial
  | cons recorded rest ih =>
    rw [coalesceAfter_cons]
    split
    · refine ⟨fun node targets => ?_, ih spared.2 _⟩
      -- The removals and insertions behind the record are still all there.
      rw [endsRemoved_congr (filter_coalesceAfter _ rest)]
      exact spared.1 node targets
    · exact ih spared.2 _

theorem Spared.endsRemoved_eq_false {recorded : Recorded} {front back : List Recorded}
    (spared : Spared (front ++ recorded :: back)) {node : Handle}
    (targets : recorded.change.target? = some node) : endsRemoved node back = false := by
  induction front with
  | nil => exact spared.1 node targets
  | cons other rest ih => exact ih spared.2

theorem endsRemoved_snoc (node : Handle) (records : List Recorded) (recorded : Recorded) :
    endsRemoved node (records ++ [recorded]) =
      match recorded.change with
      | .removed other => endsRemoved node records || other == node
      | .inserted _ _ subtree => endsRemoved node records && !subtree.mentions node
      | _ => endsRemoved node records := by
  rw [endsRemoved, List.foldl_append]
  rfl

/-- A node that is removed and yet not gone at the end comes back after the last removal. -/
theorem exists_return {node : Handle} {records : List Recorded}
    (remains : endsRemoved node records = false)
    (removed : .removed node ∈ records.map Recorded.change) :
    ∃ between parent index subtree later,
      records.map Recorded.change = between ++ .inserted parent index subtree :: later ∧
        node ∈ subtree.handles ∧ .removed node ∉ later := by
  induction records using List.reverseRecOn with
  | nil => cases removed
  | append_singleton records recorded ih =>
    obtain ⟨change, previous⟩ := recorded
    rw [endsRemoved_snoc] at remains
    rw [List.map_append, List.mem_append, List.map_singleton, List.mem_singleton] at removed
    rw [List.map_append, List.map_singleton]
    -- What comes last leaves the return in place unless it is the removal itself.
    have goOn (remains : endsRemoved node records = false) (differ : .removed node ≠ change) :
        ∃ between parent index subtree later,
          records.map Recorded.change ++ [change] =
              between ++ .inserted parent index subtree :: later ∧
            node ∈ subtree.handles ∧ .removed node ∉ later := by
      obtain ⟨between, parent, index, subtree, later, split, mentioned, last⟩ :=
        ih remains (removed.resolve_right differ)
      refine ⟨between, parent, index, subtree, later ++ [change], ?_, mentioned, ?_⟩
      · rw [split, List.append_assoc, List.cons_append]
      · rw [List.mem_append, List.mem_singleton, not_or]
        exact ⟨last, differ⟩
    cases change with
    | removed other =>
      rw [Bool.or_eq_false_iff, beq_eq_false_iff_ne] at remains
      exact goOn remains.1 fun same => remains.2 (Change.removed.inj same).symm
    | inserted parent index subtree =>
      by_cases mentioned : node ∈ subtree.handles
      · exact ⟨_, parent, index, subtree, [], rfl, mentioned, List.not_mem_nil⟩
      · have apart : subtree.mentions node = false := by
          rwa [Subtree.mentions, ← Bool.not_eq_true, List.contains_iff_mem]
        dsimp only at remains
        rw [apart, Bool.not_false, Bool.and_true] at remains
        exact goOn remains Change.noConfusion
    | _ => exact goOn remains Change.noConfusion

/-! ### Repeated changes -/

/-- What comes first behind a change that is not superseded, of those that set the same datum, has the
node moved before it. -/
theorem exists_moves_of_not_superseded {node : Handle} {first second : Change}
    (same : first.SetSame node second) {before rest : List Recorded}
    (kept : isSuperseded first node rest = false) {between after : List Change}
    (split : (coalesceAfter before rest).map Recorded.change = between ++ second :: after) :
    ∃ change ∈ between, change.Moves node := by
  induction rest generalizing before between with
  | nil =>
    rw [coalesceAfter, List.map_nil, List.nil_eq_append_iff] at split
    cases split.2
  | cons recorded rest ih =>
    rw [coalesceAfter_cons] at split
    rw [isSuperseded] at kept
    cases relocates : recorded.change.relocates node with
    | true =>
      have moves := Change.relocates_iff.mp relocates
      have structural := Change.isStructural_of_moves moves
      rw [if_pos (isNeeded_of_structural structural before rest), List.map_cons] at split
      cases between with
      | nil =>
        obtain ⟨rfl, -⟩ := List.cons.inj split
        exact absurd structural (not_structural_of_target same.target_second)
      | cons change others =>
        obtain ⟨rfl, -⟩ := List.cons.inj split
        exact ⟨_, List.mem_cons_self, moves⟩
    | false =>
      rw [relocates, if_neg Bool.false_ne_true] at kept
      split at kept
      · cases kept
      rename_i differs
      split at split
      · cases between with
        | nil =>
          obtain ⟨rfl, -⟩ := List.cons.inj split
          exact absurd same.sameDatum differs
        | cons change others =>
          obtain ⟨-, splitRest⟩ := List.cons.inj split
          obtain ⟨other, listed, moves⟩ := ih kept splitRest
          exact ⟨other, List.mem_cons_of_mem _ listed, moves⟩
      · exact ih kept split

theorem exists_moves_of_setSame {node : Handle} {first second : Change}
    (same : first.SetSame node second) {before records : List Recorded}
    {front between after : List Change}
    (split : (coalesceAfter before records).map Recorded.change =
      front ++ first :: (between ++ second :: after)) :
    ∃ change ∈ between, change.Moves node := by
  induction records generalizing before front with
  | nil =>
    rw [coalesceAfter, List.map_nil, List.nil_eq_append_iff] at split
    cases split.2
  | cons recorded rest ih =>
    rw [coalesceAfter_cons] at split
    split at split
    · rename_i needed
      cases front with
      | nil =>
        obtain ⟨rfl, splitRest⟩ := List.cons.inj split
        rw [isNeeded, same.target, Bool.and_eq_true, Bool.not_eq_true'] at needed
        exact exists_moves_of_not_superseded same needed.1 splitRest
      | cons change front => exact ih (List.cons.inj split).2
    · exact ih split

/-! ### Cycles without insertions and removals -/

/-- No record is of an insertion or a removal. -/
def Plain (records : List Recorded) : Prop :=
  ∀ recorded ∈ records, recorded.change.isStructural = false

theorem cancelTransient_of_plain {records : List Recorded} (plain : Plain records) :
    cancelTransient records = records := by
  have none (before rest : List Recorded) (plain : Plain rest) : transientPairs before rest = [] := by
    induction rest generalizing before with
    | nil => rfl
    | cons recorded rest ih =>
      obtain ⟨plainFirst, plainRest⟩ := List.forall_mem_cons.mp plain
      have apart : closedPair? before recorded = none := by
        rw [closedPair?]
        split
        · rename_i removed
          rw [removed] at plainFirst
          cases plainFirst
        · rfl
      rw [transientPairs_cons, apart, ih _ plainRest]
      rfl
  rw [cancelTransient, none [] records plain, List.foldl_nil, List.filterMap_map,
    show id ∘ some = some from rfl, List.filterMap_some]

theorem dropRemoved_of_plain {records : List Recorded} (plain : Plain records) :
    dropRemoved records = records := by
  induction records with
  | nil => rfl
  | cons recorded rest ih =>
    obtain ⟨-, plainRest⟩ := List.forall_mem_cons.mp plain
    have nobody (node : Handle) : endsRemoved node rest = false := by
      have empty : rest.filter (·.change.isStructural) = [] :=
        List.filter_eq_nil_iff.mpr fun other listed => by
          rw [plainRest other listed]
          exact Bool.false_ne_true
      rw [← endsRemoved_filter, empty]
      rfl
    rw [dropRemoved, if_neg, ih plainRest]
    cases recorded.change.target? with
    | none => exact Bool.false_ne_true
    | some node =>
      rw [Option.any_some, nobody]
      exact Bool.false_ne_true

section Attribute

variable {node : Handle} {name : String}

/-- Whether a record is of a change of an attribute. -/
def setsAttribute (node : Handle) (name : String) (recorded : Recorded) : Bool :=
  recorded.change.setsAttribute node name

theorem sameDatum_attribute (value : Option String) (change : Change) :
    (Change.attribute node name value).sameDatum change = change.setsAttribute node name := by
  cases change with
  | inserted | removed | popoverTarget | popoverShowing => rfl
  | _ other name' value' =>
    rw [Change.sameDatum, Change.setsAttribute, BEq.comm, @BEq.comm _ _ _ name name']

theorem eq_of_setsAttribute {change : Change} (sets : change.setsAttribute node name = true) :
    ∃ value, change = .attribute node name value := by
  cases change with
  | inserted | removed | popoverTarget | popoverShowing => cases sets
  | _ other name' value =>
    rw [Change.setsAttribute, Bool.and_eq_true, beq_iff_eq, beq_iff_eq] at sets
    exact ⟨value, by rw [sets.1, sets.2]⟩

theorem not_relocates_of_plain {recorded : Recorded}
    (plain : recorded.change.isStructural = false) : ¬ recorded.change.relocates node = true := by
  intro relocates
  have moves := Change.isStructural_of_moves (Change.relocates_iff.mp relocates)
  rw [plain] at moves
  cases moves

theorem filter_setsAttribute_cons (recorded : Recorded) (rest : List Recorded) :
    (recorded :: rest).filter (setsAttribute node name) =
      if recorded.change.setsAttribute node name then
        recorded :: rest.filter (setsAttribute node name)
      else rest.filter (setsAttribute node name) :=
  List.filter_cons

theorem isSuperseded_of_plain {rest : List Recorded} (plain : Plain rest) (value : Option String) :
    isSuperseded (.attribute node name value) node rest =
      !(rest.filter (setsAttribute node name)).isEmpty := by
  induction rest with
  | nil => rfl
  | cons recorded rest ih =>
    obtain ⟨plainFirst, plainRest⟩ := List.forall_mem_cons.mp plain
    rw [isSuperseded, if_neg (not_relocates_of_plain plainFirst), sameDatum_attribute,
      filter_setsAttribute_cons, ih plainRest]
    split <;> rfl

/-- The value before the first of some changes of an attribute, given in reverse. -/
theorem firstPrevious_of_plain {before : List Recorded} (plain : Plain before)
    (value own : Option String) :
    firstPrevious (.attribute node name value) node own before =
      ((before.filter (setsAttribute node name)).getLast?.map previous).getD own := by
  induction before generalizing own with
  | nil => rfl
  | cons recorded before ih =>
    obtain ⟨plainFirst, plainRest⟩ := List.forall_mem_cons.mp plain
    rw [firstPrevious, if_neg (not_relocates_of_plain plainFirst), sameDatum_attribute,
      filter_setsAttribute_cons, ih plainRest, ih plainRest]
    split
    · rw [List.getLast?_cons]
      cases (before.filter (setsAttribute node name)).getLast? <;> rfl
    · rfl

theorem isNeeded_of_plain {before rest : List Recorded} {recorded : Recorded}
    (plainBefore : Plain before) (plain : Plain rest)
    (sets : recorded.change.setsAttribute node name = true) :
    isNeeded before recorded rest =
      ((rest.filter (setsAttribute node name)).isEmpty && !recorded.change.setsTo
        (((recorded :: before).filter (setsAttribute node name)).getLast?.bind previous)) := by
  obtain ⟨change, own⟩ := recorded
  obtain ⟨value, rfl⟩ := eq_of_setsAttribute sets
  rw [isNeeded, filter_setsAttribute_cons, if_pos sets, List.getLast?_cons]
  dsimp only [Change.target?]
  rw [isSuperseded_of_plain plain, firstPrevious_of_plain plainBefore, Bool.not_not]
  cases (before.filter (setsAttribute node name)).getLast? <;> rfl

/-- Of the changes of an attribute only the last is kept, and it is not if it restores the value from
before the first of all. -/
theorem filter_coalesceAfter_of_plain {before rest : List Recorded} (plainBefore : Plain before)
    (plain : Plain rest) :
    (coalesceAfter before rest).filter (setsAttribute node name) =
      match (rest.filter (setsAttribute node name)).getLast? with
      | none => []
      | some last =>
        if last.change.setsTo (((rest.filter (setsAttribute node name)).reverse ++
          before.filter (setsAttribute node name)).getLast?.bind previous) then []
        else [last] := by
  -- What is passed joins the prefix, so both lists together stay the same, and with them the first value.
  induction rest generalizing before with
  | nil => rfl
  | cons recorded rest ih =>
    obtain ⟨plainFirst, plainRest⟩ := List.forall_mem_cons.mp plain
    have plainBoth : Plain (recorded :: before) :=
      List.forall_mem_cons.mpr ⟨plainFirst, plainBefore⟩
    have others := ih plainBoth plainRest
    rw [coalesceAfter_cons, apply_ite (List.filter (setsAttribute node name)),
      filter_setsAttribute_cons, filter_setsAttribute_cons recorded rest]
    cases sets : recorded.change.setsAttribute node name with
    | false =>
      rw [filter_setsAttribute_cons, sets] at others
      simp only [Bool.false_eq_true, if_false, ite_self] at others ⊢
      exact others
    | true =>
      rw [isNeeded_of_plain plainBefore plainRest sets]
      rw [filter_setsAttribute_cons, sets] at others
      rw [filter_setsAttribute_cons, sets]
      simp only [if_true] at others ⊢
      rw [others]
      cases later : rest.filter (setsAttribute node name) with
      | nil =>
        rw [List.isEmpty_nil, Bool.true_and, List.reverse_singleton, List.singleton_append]
        dsimp only [List.getLast?_singleton, List.getLast?_nil]
        cases recorded.change.setsTo
          ((recorded :: before.filter (setsAttribute node name)).getLast?.bind previous) <;> rfl
      | cons other more =>
        rw [List.isEmpty_cons, Bool.false_and, if_neg Bool.false_ne_true, List.getLast?_cons_cons,
          List.reverse_cons (a := recorded), List.append_assoc, List.singleton_append]

/-- The changes of an attribute among the records of some reports, as told by their values. -/
theorem filter_ofReports (reports : List Report) :
    (ofReports reports).filter (setsAttribute node name) =
      (Report.valuesOf node name reports).map fun values =>
        ⟨.attribute node name values.2, values.1⟩ := by
  induction reports with
  | nil => rfl
  | cons report rest ih =>
    rw [ofReports_cons, apply_ite (List.filter (setsAttribute node name)),
      filter_setsAttribute_cons, Report.valuesOf, List.filterMap_cons, ih]
    cases report with
    | inserted | removed | reference | popoverShowing => rfl
    | _ other name' old new =>
      rw [Report.isIdle, Report.change, Report.previous, Change.setsAttribute]
      by_cases idle : old = new
      · simp [idle, Report.valuesOf]
      · by_cases here : other = node ∧ Text.lower name' = name
        · obtain ⟨rfl, rfl⟩ := here
          simp [idle, Report.valuesOf]
        · simp [idle, here, ← and_assoc, Report.valuesOf]

/-- What is left of the changes of an attribute in a cycle without insertions and removals. -/
theorem filter_coalesce_ofReports {reports : List Report} (plain : Plain (ofReports reports)) :
    ((coalesce (ofReports reports)).map change).filter (·.setsAttribute node name) =
      Change.lastOf node name (Report.valuesOf node name reports) := by
  have kept := @filter_coalesceAfter_of_plain node name _ _ (List.forall_mem_nil _) plain
  rw [List.filter_nil, List.append_nil, List.getLast?_reverse, filter_ofReports] at kept
  rw [List.filter_map, coalesce]
  refine (congrArg (List.map change) kept).trans ?_
  cases Report.valuesOf node name reports with
  | nil => rfl
  | cons first rest =>
    rw [List.getLast?_map, List.getLast?_eq_getLast_of_ne_nil (List.cons_ne_nil _ _),
      List.map_cons, List.head?_cons, Change.lastOf]
    by_cases restores : ((first :: rest).getLast (List.cons_ne_nil _ _)).2 = first.1
    · simp [Change.setsTo, restores]
    · simp [Change.setsTo, restores]

theorem plain_ofReports {reports : List Report}
    (plain : ∀ report ∈ reports, report.change.isStructural = false) : Plain (ofReports reports) := by
  intro recorded listed
  obtain ⟨report, reported, rfl⟩ := List.mem_map.mp listed
  exact plain report (List.mem_of_mem_filter reported)

end Attribute

end Recorded

/-- The changes of a cycle are in normal form, also if its reports contradict each other or what is
stored. -/
theorem Report.normalForm_normalize (reports : List Report) :
    NormalForm reports (Report.normalize reports) where
  sublist := by
    rw [← Recorded.map_ofReports]
    exact (((Recorded.coalesceAfter_sublist _ _).trans (Recorded.dropRemoved_sublist _)).trans
      (Recorded.cancelTransient_sublist _)).map _
  apart split same := Recorded.exists_moves_of_setSame same split
  returns {node change before after} split targets removed := by
    obtain ⟨front, back, records, rfl, behind⟩ := List.map_eq_append_iff.mp split
    obtain ⟨recorded, rest, rfl, rfl, rfl⟩ := List.map_eq_cons_iff.mp behind
    have spared := (Recorded.spared_dropRemoved
      (Recorded.cancelTransient (Recorded.ofReports reports))).coalesceAfter []
    rw [← Recorded.coalesce, records] at spared
    exact Recorded.exists_return (spared.endsRemoved_eq_false targets) removed
  merged plain node name := by
    have plainRecords := Recorded.plain_ofReports plain
    rw [Report.normalize, Recorded.cancelTransient_of_plain plainRecords,
      Recorded.dropRemoved_of_plain plainRecords]
    exact Recorded.filter_coalesce_ofReports plainRecords

/-- Of reports that contradict each other on what was there before, the last new value is kept, and it is
weighed against the first old one. -/
example :
    Report.normalize
        [.attribute ⟨1⟩ "ID" (some "a") (some "b"), .attribute ⟨2⟩ "lang" none (some "en"),
          .attribute ⟨1⟩ "id" (some "x") (some "c"), .attribute ⟨2⟩ "Lang" (some "de") none,
          .attribute ⟨1⟩ "title" none none] =
      [.attribute ⟨1⟩ "id" (some "c")] := by
  cbv

end Accessibility
