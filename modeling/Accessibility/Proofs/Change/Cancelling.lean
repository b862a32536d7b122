import Accessibility.Proofs.Change.Transient

/-!
Cancelling transient subtrees. The node of a cancelled pair has to stay in the document from its
insertion to its removal. If it leaves with a node above it, and comes back inside another subtree,
then its removal is lost with the pair.
-/

set_option autoImplicit false

namespace Accessibility.Recorded

/-- The records at the places that are not cancelled. -/
def standing (places : List Place) : List Recorded :=
  places.filterMap id

@[simp] theorem standing_nil : standing [] = [] :=
  rfl

@[simp] theorem standing_none (rest : List Place) : standing (none :: rest) = standing rest :=
  rfl

@[simp] theorem standing_some (recorded : Recorded) (rest : List Place) :
    standing (some recorded :: rest) = recorded :: standing rest :=
  rfl

@[simp] theorem standing_append (first second : List Place) :
    standing (first ++ second) = standing first ++ standing second :=
  List.filterMap_append

theorem mem_standing {recorded : Recorded} {places : List Place} :
    recorded ∈ standing places ↔ some recorded ∈ places := by
  rw [standing, List.mem_filterMap]
  simp

/-! ### Nodes that stay -/

/-- Whether a node is in the document before, between and after some records. -/
def Stays (node : Handle) (document : Document) : List Recorded → Prop
  | [] => document.contains node = true
  | recorded :: rest =>
    document.contains node = true ∧ Stays node (document.after recorded.change) rest

/-- Whether a record inserts a subtree that has the node in it. -/
def carries (node : Handle) (recorded : Recorded) : Bool :=
  match recorded.change with
  | .inserted _ _ subtree => subtree.mentions node
  | _ => false

theorem Stays.stored {node : Handle} {document : Document} {records : List Recorded}
    (stays : Stays node document records) : document.contains node = true := by
  cases records with
  | nil => exact stays
  | cons => exact stays.1

/-- A node comes into a document only as part of an inserted subtree. -/
theorem Fits.contains_before {document : Document} (wellFormed : document.WellFormed)
    {recorded : Recorded} (fits : recorded.Fits document) {node : Handle}
    (carried : recorded.carries node = false)
    (stored : (document.after recorded.change).contains node = true) :
    document.contains node = true := by
  obtain ⟨change, previous⟩ := recorded
  rcases change.cases_target with ⟨parent, index, subtree, rfl⟩ | ⟨other, rfl⟩ | ⟨handle, targets⟩
  · have attachable : document.Attachable parent subtree := fits
    dsimp only at stored
    rw [after_inserted_of_fits attachable] at stored
    refine ((attachable.contains_attach index node).mp stored).resolve_left fun mentioned => ?_
    simp [carries, Subtree.mentions, mentioned] at carried
  · dsimp only at stored
    rw [Change.after_removed] at stored
    exact wellFormed.contains_of_contains_remove stored
  · dsimp only at stored
    rw [Change.after_eq_update targets] at stored
    rwa [(change.isDataChange_edit.alike document handle).contains_eq]

/-- What is not in a document comes into it only as part of an inserted subtree. -/
theorem Fits.absent_after {document : Document} (wellFormed : document.WellFormed)
    {recorded : Recorded} (fits : recorded.Fits document) {node : Handle}
    (absent : document.contains node = false) (carried : recorded.carries node = false) :
    (document.after recorded.change).contains node = false := by
  rw [← Bool.not_eq_true] at absent ⊢
  exact fun stored => absent (fits.contains_before wellFormed carried stored)

theorem carries_eq_false_of_target {change : Change} {handle : Handle}
    (targets : change.target? = some handle) (previous : Option String) (node : Handle) :
    carries node ⟨change, previous⟩ = false := by
  cases change <;> cases targets <;> rfl

/-- A node that an insertion carries is not in the document before. -/
theorem Fits.not_contains {document : Document} {recorded : Recorded}
    (fits : recorded.Fits document) {node : Handle} (carried : recorded.carries node = true) :
    document.contains node = false := by
  obtain ⟨change, previous⟩ := recorded
  cases change with
  | inserted parent index subtree =>
    have attachable : document.Attachable parent subtree := fits
    exact attachable.fresh node (by simpa [carries, Subtree.mentions] using carried)
  | _ => cases carried

/-- A removal that fits a document fits it also without one of its nodes. -/
theorem Fits.removed_remove {document : Document} {other : Handle} {previous : Option String}
    (fits : Fits document ⟨.removed other, previous⟩) (node : Handle) :
    Fits (document.remove node).state ⟨.removed other, previous⟩ := by
  have below : other ≠ document.root := fits
  rw [← Document.root_remove document node] at below
  exact below

/-- A change of data that fits a document fits it also without one of its nodes. -/
theorem Fits.remove {document : Document} (wellFormed : document.WellFormed) {change : Change}
    {previous : Option String} (fits : Fits document ⟨change, previous⟩) {handle node : Handle}
    (targets : change.target? = some handle) (stored : document.contains node = true)
    (below : node ≠ document.root) : Fits (document.remove node).state ⟨change, previous⟩ := by
  refine fits.of_attributes targets fun after storedAfter => ?_
  obtain ⟨-, before, storedBefore, rfl⟩ :=
    (wellFormed.get?_remove_eq_some stored below).mp storedAfter
  exact ⟨before, storedBefore, rfl⟩

/-- A node that is there in the end was there all along, unless an insertion carried it. -/
theorem stays_iff {document : Document} (wellFormed : document.WellFormed)
    {records : List Recorded} (fit : AllFit document records) {node : Handle}
    (stored : (replay document records).contains node = true) :
    Stays node document records ↔ ∀ recorded ∈ records, recorded.carries node = false := by
  induction records generalizing document with
  | nil => exact iff_of_true stored (fun _ listed => by cases listed)
  | cons recorded rest ih =>
    have later := ih (fit.1.wellFormed wellFormed) fit.2 stored
    rw [Stays, later, List.forall_mem_cons]
    constructor
    · rintro ⟨here, none⟩
      refine ⟨?_, none⟩
      by_contra carried
      rw [fit.1.not_contains (by simpa using carried)] at here
      cases here
    · rintro ⟨carried, none⟩
      exact ⟨fit.1.contains_before wellFormed carried (later.mpr none).stored, none⟩

/-! ### Leaving out what is below a node -/

/-- What leaving out some records comes to, in a document without a node: it makes no other
difference as long as the node stays, and none at all once it has left. -/
structure Clears (document cleared : Document) (node parent : Handle) (handles : List Handle)
    (full part : List Recorded) : Prop where
  fit : AllFit cleared part
  stays : Stays node document full →
    (replay document full).Covers node parent handles ∧
      replay cleared part = ((replay document full).remove node).state
  lost : ¬ Stays node document full → replay cleared part = replay document full

namespace Clears

variable {document cleared : Document} {node parent : Handle} {handles : List Handle}
  {recorded : Recorded} {full part : List Recorded}

/-- A record is left out. -/
theorem skip (stored : document.contains node = true)
    (rest : Clears (document.after recorded.change) cleared node parent handles full part) :
    Clears document cleared node parent handles (recorded :: full) part where
  fit := rest.fit
  stays := fun stays => rest.stays stays.2
  lost := fun lost => rest.lost fun stays => lost ⟨stored, stays⟩

/-- A record is kept. -/
theorem keep (stored : document.contains node = true) (fits : recorded.Fits cleared)
    (rest : Clears (document.after recorded.change) (cleared.after recorded.change) node parent
      handles full part) :
    Clears document cleared node parent handles (recorded :: full) (recorded :: part) where
  fit := ⟨fits, rest.fit⟩
  stays := fun stays => rest.stays stays.2
  lost := fun lost => rest.lost fun stays => lost ⟨stored, stays⟩

end Clears

/-- The handles below a transient node after some places, as `clear` keeps track of them. -/
def coveredAfter (handles : List Handle) : List Place → List Handle
  | [] => handles
  | none :: rest => coveredAfter handles rest
  | some recorded :: rest =>
    match recorded.change with
    | .inserted parent _ subtree =>
      if handles.contains parent then coveredAfter (handles ++ subtree.handles) rest
      else coveredAfter (handles.filter (! subtree.mentions ·)) rest
    | _ => coveredAfter handles rest

section Steps

variable (handles : List Handle) (previous : Option String) (rest : List Place)

theorem clear_inserted (parent : Handle) (index : Nat) (subtree : Subtree) :
    clear handles (some ⟨.inserted parent index subtree, previous⟩ :: rest) =
      if handles.contains parent then none :: clear (handles ++ subtree.handles) rest
      else some ⟨.inserted parent index subtree, previous⟩ ::
        clear (handles.filter (! subtree.mentions ·)) rest :=
  rfl

theorem coveredAfter_inserted (parent : Handle) (index : Nat) (subtree : Subtree) :
    coveredAfter handles (some ⟨.inserted parent index subtree, previous⟩ :: rest) =
      if handles.contains parent then coveredAfter (handles ++ subtree.handles) rest
      else coveredAfter (handles.filter (! subtree.mentions ·)) rest :=
  rfl

theorem clear_removed (node : Handle) :
    clear handles (some ⟨.removed node, previous⟩ :: rest) =
      some ⟨.removed node, previous⟩ :: clear handles rest :=
  rfl

theorem clear_data {change : Change} {handle : Handle} (targets : change.target? = some handle) :
    clear handles (some ⟨change, previous⟩ :: rest) =
      if handles.contains handle then none :: clear handles rest
      else some ⟨change, previous⟩ :: clear handles rest := by
  cases change <;> cases targets <;> rfl

theorem coveredAfter_data {change : Change} {handle : Handle}
    (targets : change.target? = some handle) :
    coveredAfter handles (some ⟨change, previous⟩ :: rest) = coveredAfter handles rest := by
  cases change <;> cases targets <;> rfl

end Steps

/-- What clearing makes of a place and of the handles below the transient node. The place stands or is
left out. If it is left out, what it carries is covered, and only what it carries can cease to be. -/
structure ClearStep (handles : List Handle) (place place' : Place) (handles' : List Handle) :
    Prop where
  stands : place' = place ∨ place' = none
  covers : ∀ {recorded : Recorded} {node : Handle}, place = some recorded → place' = none →
    recorded.carries node = true → node ∈ handles'
  keeps : ∀ {node : Handle}, node ∈ handles →
    node ∈ handles' ∨ ∃ recorded, place = some recorded ∧ recorded.carries node = true

/-- A place that stands covers nothing new. -/
theorem ClearStep.stays {handles handles' : List Handle} {place : Place}
    (keeps : ∀ {node : Handle}, node ∈ handles →
      node ∈ handles' ∨ ∃ recorded, place = some recorded ∧ recorded.carries node = true) :
    ClearStep handles place place handles' where
  stands := .inl rfl
  covers held gone := by
    rw [held] at gone
    cases gone
  keeps := keeps

theorem clear_cons (handles : List Handle) (place : Place) :
    ∃ place' handles', ClearStep handles place place' handles' ∧ ∀ rest,
      clear handles (place :: rest) = place' :: clear handles' rest ∧
        coveredAfter handles (place :: rest) = coveredAfter handles' rest := by
  cases place with
  | none => exact ⟨none, handles, .stays .inl, fun _ => ⟨rfl, rfl⟩⟩
  | some recorded =>
    obtain ⟨change, previous⟩ := recorded
    rcases change.cases_target with ⟨parent, index, subtree, rfl⟩ | ⟨node, rfl⟩ | ⟨handle, targets⟩
    · by_cases inside : handles.contains parent = true
      · refine ⟨none, handles ++ subtree.handles, ⟨.inr rfl, ?_, ?_⟩, fun rest => ?_⟩
        · rintro _ node ⟨⟩ - carried
          exact List.mem_append_right _ (by simpa [carries, Subtree.mentions] using carried)
        · exact fun listed => .inl (List.mem_append_left _ listed)
        · rw [clear_inserted, coveredAfter_inserted, if_pos inside, if_pos inside]
          exact ⟨rfl, rfl⟩
      · refine ⟨some _, handles.filter (! subtree.mentions ·), .stays ?_, fun rest => ?_⟩
        · intro node listed
          by_cases mentioned : subtree.mentions node = true
          · exact .inr ⟨_, rfl, mentioned⟩
          · exact .inl (List.mem_filter.mpr ⟨listed, by simpa using mentioned⟩)
        · rw [clear_inserted, coveredAfter_inserted, if_neg inside, if_neg inside]
          exact ⟨rfl, rfl⟩
    · exact ⟨_, handles, .stays .inl, fun _ => ⟨rfl, rfl⟩⟩
    · by_cases inside : handles.contains handle = true
      · refine ⟨none, handles, ⟨.inr rfl, ?_, .inl⟩, fun rest => ?_⟩
        · rintro _ node ⟨⟩ - carried
          rw [carries_eq_false_of_target targets] at carried
          cases carried
        · rw [clear_data _ _ _ targets, coveredAfter_data _ _ _ targets, if_pos inside]
          exact ⟨rfl, rfl⟩
      · refine ⟨_, handles, .stays .inl, fun rest => ?_⟩
        rw [clear_data _ _ _ targets, coveredAfter_data _ _ _ targets, if_neg inside]
        exact ⟨rfl, rfl⟩

/-- Once nothing that is covered is left in the document, clearing makes no difference. -/
theorem clear_of_absent {document : Document} (wellFormed : document.WellFormed)
    {handles : List Handle} (absent : ∀ handle ∈ handles, document.contains handle = false)
    {places : List Place} (fit : AllFit document (standing places)) :
    AllFit document (standing (clear handles places)) ∧
      replay document (standing (clear handles places)) = replay document (standing places) := by
  induction places generalizing document handles with
  | nil => exact ⟨fit, rfl⟩
  | cons place rest ih =>
    cases place with
    | none => exact ih wellFormed absent fit
    | some recorded =>
      obtain ⟨fits, fitRest⟩ := fit
      have goOn (left : List Handle)
          (kept : ∀ handle ∈ left, handle ∈ handles ∧ recorded.carries handle = false) :=
        ih (fits.wellFormed wellFormed) (fun handle (listed : handle ∈ left) =>
          fits.absent_after wellFormed (absent handle (kept handle listed).1)
            (kept handle listed).2) fitRest
      obtain ⟨change, previous⟩ := recorded
      rcases change.cases_target with
        ⟨parent, index, subtree, rfl⟩ | ⟨node, rfl⟩ | ⟨handle, targets⟩
      · have attachable : document.Attachable parent subtree := fits
        have outside : handles.contains parent = false := by
          rw [List.contains_eq_mem, decide_eq_false_iff_not]
          intro listed
          have stored := attachable.parent_stored
          rw [absent parent listed] at stored
          cases stored
        rw [clear_inserted, outside, if_neg (by simp)]
        obtain ⟨fitCleared, same⟩ := goOn (handles.filter (! subtree.mentions ·)) (by
          intro handle listed
          rw [List.mem_filter, Bool.not_eq_true'] at listed
          exact listed)
        exact ⟨⟨fits, fitCleared⟩, same⟩
      · rw [clear_removed]
        obtain ⟨fitCleared, same⟩ := goOn handles fun _ listed => ⟨listed, rfl⟩
        exact ⟨⟨fits, fitCleared⟩, same⟩
      · rw [clear_data handles previous rest targets]
        obtain ⟨fitCleared, same⟩ := goOn handles fun other listed =>
          ⟨listed, carries_eq_false_of_target targets previous other⟩
        split
        · rename_i listed
          have gone := absent handle (by simpa using listed)
          have idle : document.after change = document := by
            rw [Change.after_eq_update targets, Document.update_of_not_contains gone]
          dsimp only at fitCleared same
          rw [idle] at fitCleared same
          refine ⟨fitCleared, ?_⟩
          rw [standing_none, standing_some, replay_cons, idle]
          exact same
        · exact ⟨⟨fits, fitCleared⟩, same⟩

/-- A removal that takes the transient node along: from then on nothing is cleared. -/
theorem clears_of_lost {document : Document} (wellFormed : document.WellFormed)
    {node parent : Handle} {handles : List Handle} (covers : document.Covers node parent handles)
    {other : Handle} {previous : Option String} {rest : List Place}
    (fits : Fits document ⟨.removed other, previous⟩)
    (fitRest : AllFit (document.remove other).state (standing rest))
    (lost : (document.remove other).state.contains node = false) :
    Clears document (document.remove node).state node parent (coveredAfter handles rest)
      (standing (some ⟨.removed other, previous⟩ :: rest))
      (standing (some ⟨.removed other, previous⟩ :: clear handles rest)) := by
  obtain ⟨same, absent⟩ := covers.remove_lost wellFormed lost
  obtain ⟨fitCleared, kept⟩ := clear_of_absent (wellFormed.remove other) absent fitRest
  have gone : ¬ Stays node document (standing (some ⟨.removed other, previous⟩ :: rest)) := by
    rintro ⟨-, stays⟩
    have stored := stays.stored
    rw [Change.after_removed, lost] at stored
    cases stored
  refine ⟨⟨?_, ?_⟩, fun stays => absurd stays gone, fun _ => ?_⟩
  · exact fits.removed_remove node
  · rw [Change.after_removed, same]
    exact fitCleared
  · rw [standing_some, standing_some, replay_cons, replay_cons, Change.after_removed,
      Change.after_removed, same]
    exact kept

/-- Clearing leaves out what is done below a node, in a document without it. -/
theorem clear_of_covers {document : Document} (wellFormed : document.WellFormed)
    {node parent : Handle} {handles : List Handle} (covers : document.Covers node parent handles)
    {places : List Place} (fit : AllFit document (standing places))
    (beside : places.any (insertsUnder parent) = false) :
    Clears document (document.remove node).state node parent (coveredAfter handles places)
      (standing places) (standing (clear handles places)) := by
  induction places generalizing document handles with
  | nil => exact ⟨trivial, fun _ => ⟨covers, rfl⟩, fun lost => absurd covers.stored lost⟩
  | cons place rest ih =>
    rw [List.any_cons, Bool.or_eq_false_iff] at beside
    cases place with
    | none => exact ih wellFormed covers fit beside.2
    | some recorded =>
      obtain ⟨fits, fitRest⟩ := fit
      have goOn {handles : List Handle}
          (covers : (document.after recorded.change).Covers node parent handles) :=
        ih (fits.wellFormed wellFormed) covers fitRest beside.2
      obtain ⟨change, previous⟩ := recorded
      rcases change.cases_target with
        ⟨above, index, subtree, rfl⟩ | ⟨other, rfl⟩ | ⟨handle, targets⟩
      · have attachable : document.Attachable above subtree := fits
        have attaches := after_inserted_of_fits attachable index
        dsimp only at goOn
        rw [clear_inserted, coveredAfter_inserted]
        rw [attaches] at goOn
        split
        · rename_i inside
          obtain ⟨coversAfter, same⟩ :=
            covers.attach_inside wellFormed attachable index (by simpa using inside)
          apply Clears.skip covers.stored
          rw [attaches, ← same]
          exact goOn coversAfter
        · rename_i outside
          obtain ⟨coversAfter, attachableAfter, same⟩ :=
            covers.attach_apart wellFormed attachable index (by simpa using outside)
              (by simpa [insertsUnder] using beside.1)
          have fitsAfter : Fits (document.remove node).state
              ⟨.inserted above index subtree, previous⟩ := attachableAfter
          apply Clears.keep covers.stored fitsAfter
          rw [attaches, after_inserted_of_fits attachableAfter, ← same]
          exact goOn coversAfter
      · dsimp only at goOn fitRest
        rw [Change.after_removed] at goOn fitRest
        rw [clear_removed, coveredAfter]
        by_cases spared : (document.remove other).state.contains node = true
        · obtain ⟨coversAfter, same⟩ := covers.remove wellFormed spared
          refine Clears.keep covers.stored (fits.removed_remove node) ?_
          rw [Change.after_removed, Change.after_removed, ← same]
          exact goOn coversAfter
        · exact clears_of_lost wellFormed covers fits fitRest (by simpa using spared)
      · have data := change.isDataChange_edit
        dsimp only at goOn
        rw [Change.after_eq_update targets] at goOn
        have rest := goOn (covers.update data handle)
        rw [clear_data _ _ _ targets, coveredAfter_data _ _ _ targets]
        split
        · rename_i inside
          apply Clears.skip covers.stored
          rw [Change.after_eq_update targets]
          rwa [covers.update_inside wellFormed data (by simpa using inside)] at rest
        · refine Clears.keep covers.stored
            (fits.remove wellFormed targets covers.stored (covers.ne_root wellFormed)) ?_
          rw [Change.after_eq_update targets, Change.after_eq_update targets]
          rwa [wellFormed.remove_update data covers.stored (covers.ne_root wellFormed)] at rest

end Accessibility.Recorded
