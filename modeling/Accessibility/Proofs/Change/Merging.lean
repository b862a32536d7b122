import Accessibility.Proofs.Change.Runs

/-!
Dropping changes to nodes that are gone at the end, and merging changes of one datum. Both passes
keep every insertion and removal, so the runs before and after go through documents with the same
nodes and links. Their data may differ only where it does not matter: on nodes that are about to be
removed, and on data that is about to be set again.
-/

set_option autoImplicit false

namespace Accessibility.Recorded

open Document

/-- After an insertion on both sides, documents are related as before, outside the subtree. -/
theorem alike_inserted {same finer : Handle → ContentNode → ContentNode → Prop}
    {left right : Document} (alike : Alike same left right) (ignores : IgnoresChildren finer)
    {parent : Handle} {subtree : Subtree} (attachable : left.Attachable parent subtree)
    (index : Nat) (fresh : ∀ handle ∈ subtree.handles, ∀ node, finer handle node node)
    (kept : ∀ handle before after, handle ∉ subtree.handles → same handle before after →
      finer handle before after) :
    Alike finer (left.after (.inserted parent index subtree))
      (right.after (.inserted parent index subtree)) := by
  rw [after_inserted_of_fits attachable, after_inserted_of_fits (alike.attachable attachable)]
  exact alike.attach ignores attachable index fresh kept

/-- After a removal on both sides, documents are related as before, and the node is gone. -/
theorem alike_removed {same finer : Handle → ContentNode → ContentNode → Prop}
    {left right : Document} (alike : Alike same left right) (wellFormed : left.WellFormed)
    (ignores : IgnoresChildren same) {node : Handle} (below : node ≠ left.root)
    (kept : ∀ handle before after, handle ≠ node → same handle before after →
      finer handle before after) :
    Alike finer (left.after (.removed node)) (right.after (.removed node)) := by
  rw [Change.after_removed, Change.after_removed]
  apply (alike.remove ignores node).1.imp
  intro handle before after stored _
  apply kept
  rintro rfl
  rw [get?_eq_none_of_not_contains (wellFormed.not_contains_remove below)] at stored
  cases stored

/-! ### Nodes that are gone at the end -/

theorem endsRemoved_cons {handle : Handle} {recorded : Recorded}
    (spared : recorded.change ≠ .removed handle) (rest : List Recorded) :
    endsRemoved handle (recorded :: rest) = endsRemoved handle rest := by
  obtain ⟨change, previous⟩ := recorded
  cases change with
  | removed node =>
    have differ : (node == handle) = false := by
      rw [beq_eq_false_iff_ne]
      rintro rfl
      exact spared rfl
    simp only [endsRemoved, List.foldl_cons, differ, Bool.or_false]
  | _ => simp only [endsRemoved, List.foldl_cons, Bool.false_and]

/-- Two nodes agree in their data, unless they are gone after the remaining records. -/
def AgreeOrGo (rest : List Recorded) (handle : Handle) (before after : ContentNode) : Prop :=
  endsRemoved handle rest = true ∨ before.SameData after

theorem agreeOrGo_ignoresChildren (rest : List Recorded) : IgnoresChildren (AgreeOrGo rest) :=
  fun _ _ _ _ _ agree => agree.imp_right fun data => ⟨data.attributes, data.showing, data.target⟩

/-- Changes to nodes that are gone at the end can be dropped. -/
theorem dropRemoved_preserves {left right : Document} (wellFormed : left.WellFormed)
    {records : List Recorded} (alike : Alike (AgreeOrGo records) left right)
    (fit : AllFit left records) :
    AllFit right (dropRemoved records) ∧
      replay right (dropRemoved records) = replay left records := by
  induction records generalizing left right with
  | nil =>
    refine ⟨trivial, (alike.eq fun handle before after agree => ?_).symm⟩
    exact agree.resolve_left (by simp [endsRemoved])
  | cons recorded rest ih =>
    obtain ⟨fits, fitRest⟩ := fit
    have goOn {right : Document}
        (alike : Alike (AgreeOrGo rest) (left.after recorded.change) right) :=
      ih (fits.wellFormed wellFormed) alike fitRest
    have settle {handle : Handle} {before after : ContentNode}
        (spared : recorded.change ≠ .removed handle)
        (agree : AgreeOrGo (recorded :: rest) handle before after) :
        AgreeOrGo rest handle before after := by
      rwa [AgreeOrGo, endsRemoved_cons spared] at agree
    obtain ⟨change, previous⟩ := recorded
    rcases change.cases_target with ⟨parent, index, subtree, rfl⟩ | ⟨node, rfl⟩ | ⟨handle, targets⟩
    · have attachable : left.Attachable parent subtree := fits
      have after := alike_inserted alike (agreeOrGo_ignoresChildren rest) attachable index
        (fun _ _ _ => .inr ⟨rfl, rfl, rfl⟩)
        (fun handle _ _ _ agree => settle (fun same => Change.noConfusion same) agree)
      obtain ⟨fitDropped, same⟩ := goOn after
      exact ⟨⟨alike.attachable attachable, fitDropped⟩, same⟩
    · have after := alike_removed alike wellFormed (agreeOrGo_ignoresChildren _) fits
        (fun handle _ _ differ agree =>
          settle (fun same => differ (Change.removed.inj same).symm) agree)
      obtain ⟨fitDropped, same⟩ := goOn after
      have below : node ≠ right.root := alike.root ▸ fits
      exact ⟨⟨below, fitDropped⟩, same⟩
    · have spared (other : Handle) : change ≠ .removed other := by
        rintro rfl
        cases targets
      have links := change.isDataChange_edit.links
      rw [dropRemoved]
      simp only [targets, Option.any_some]
      split
      · rename_i goes
        apply goOn
        rw [Change.after_eq_update targets, ← update_id right handle]
        exact alike.update links ContentNode.SameLinks.refl (fun _ _ _ _ _ => .inl goes)
          fun other _ _ _ agree => settle (spared other) agree
      · rename_i remains
        have after : Alike (AgreeOrGo rest) (left.after change) (right.after change) := by
          rw [Change.after_eq_update targets, Change.after_eq_update targets]
          exact alike.update links links
            (fun _ _ _ _ agree => (settle (spared handle) agree).imp_right (·.edit change))
            fun other _ _ _ agree => settle (spared other) agree
        obtain ⟨fitDropped, same⟩ := goOn after
        refine ⟨⟨fits.of_attributes targets fun node stored => ?_, fitDropped⟩, same⟩
        obtain ⟨counterpart, storedLeft, -, agree⟩ := alike.exists_left stored
        have data := (settle (spared handle) agree).resolve_left remains
        exact ⟨counterpart, storedLeft, data.attributes⟩

/-! ### Repeated changes -/

theorem not_relocates_of_target {change : Change} {target : Handle}
    (targets : change.target? = some target) (handle : Handle) : change.relocates handle = false := by
  cases change <;> cases targets <;> rfl

/-- A change that sets some datum of a node, whatever the value, and speaks of no other one. -/
inductive Datum (handle : Handle) : Change → Prop
  | attribute (name : String) : Datum handle (.attribute handle name none)
  | popoverTarget : Datum handle (.popoverTarget handle none)
  | popoverShowing : Datum handle (.popoverShowing handle false)

theorem Datum.sameDatum_eq_false {handle : Handle} {datum : Change} (isDatum : Datum handle datum)
    {change : Change} (elsewhere : change.target? ≠ some handle) :
    datum.sameDatum change = false := by
  have differ {node : Handle} (targets : change.target? = some node) : (handle == node) = false := by
    rw [beq_eq_false_iff_ne]
    rintro rfl
    exact elsewhere targets
  cases isDatum <;> cases change <;>
    first | rfl | simp only [Change.sameDatum, differ rfl, Bool.false_and]

section Cons

variable {datum : Change} {handle : Handle} {recorded : Recorded}

theorem isSuperseded_of_sameDatum (stays : recorded.change.relocates handle = false)
    (same : datum.sameDatum recorded.change = true) (rest : List Recorded) :
    isSuperseded datum handle (recorded :: rest) = true := by
  rw [isSuperseded, stays, same, if_neg Bool.false_ne_true, if_pos rfl]

theorem isSuperseded_of_apart (stays : recorded.change.relocates handle = false)
    (apart : datum.sameDatum recorded.change = false) (rest : List Recorded) :
    isSuperseded datum handle (recorded :: rest) = isSuperseded datum handle rest := by
  rw [isSuperseded, stays, apart, if_neg Bool.false_ne_true, if_neg Bool.false_ne_true]

theorem firstPrevious_of_relocates (relocates : recorded.change.relocates handle = true)
    (own : Option String) (before : List Recorded) :
    firstPrevious datum handle own (recorded :: before) = own := by
  rw [firstPrevious, if_pos relocates]

theorem firstPrevious_of_sameDatum (stays : recorded.change.relocates handle = false)
    (same : datum.sameDatum recorded.change = true) (own : Option String)
    (before : List Recorded) :
    firstPrevious datum handle own (recorded :: before) =
      firstPrevious datum handle recorded.previous before := by
  rw [firstPrevious, stays, same, if_neg Bool.false_ne_true, if_pos rfl]

theorem firstPrevious_of_apart (stays : recorded.change.relocates handle = false)
    (apart : datum.sameDatum recorded.change = false) (own : Option String)
    (before : List Recorded) :
    firstPrevious datum handle own (recorded :: before) =
      firstPrevious datum handle own before := by
  rw [firstPrevious, stays, apart, if_neg Bool.false_ne_true, if_neg Bool.false_ne_true]

end Cons

section Congr

variable {left right : Change}

theorem isSuperseded_congr (same : ∀ other, left.sameDatum other = right.sameDatum other)
    (handle : Handle) (rest : List Recorded) :
    isSuperseded left handle rest = isSuperseded right handle rest := by
  induction rest with
  | nil => rfl
  | cons recorded rest ih => rw [isSuperseded, isSuperseded, same, ih]

theorem firstPrevious_congr (same : ∀ other, left.sameDatum other = right.sameDatum other)
    (handle : Handle) (own : Option String) (before : List Recorded) :
    firstPrevious left handle own before = firstPrevious right handle own before := by
  induction before generalizing own with
  | nil => rfl
  | cons recorded before ih => rw [firstPrevious, firstPrevious, same, ih, ih]

end Congr

/-- How the data of a node in the merged run stands to that in the full run: what is not set again
agrees, and an attribute that is set again still has the value from before its changes. -/
structure Merged (before rest : List Recorded) (handle : Handle) (full merged : ContentNode) :
    Prop where
  attributes : ∀ name, merged.attributes[name]? =
    if isSuperseded (.attribute handle name none) handle rest then
      firstPrevious (.attribute handle name none) handle full.attributes[name]? before
    else full.attributes[name]?
  target : isSuperseded (.popoverTarget handle none) handle rest = false →
    full.popoverTarget = merged.popoverTarget
  showing : isSuperseded (.popoverShowing handle false) handle rest = false →
    full.popoverShowing = merged.popoverShowing

theorem merged_ignoresChildren (before rest : List Recorded) :
    IgnoresChildren (Merged before rest) :=
  fun _ _ _ _ _ merged => ⟨merged.attributes, merged.target, merged.showing⟩

namespace Merged

variable {before rest : List Recorded} {handle : Handle} {full merged : ContentNode}
  {recorded : Recorded}

/-- A node that just came has its data from the insertion on both sides. -/
theorem fresh (relocates : recorded.change.relocates handle = true) (node : ContentNode) :
    Merged (recorded :: before) rest handle node node where
  attributes := fun name => by rw [firstPrevious_of_relocates relocates, ite_self]
  target := fun _ => rfl
  showing := fun _ => rfl

/-- A record that neither moves the node nor sets its data. -/
theorem pass (related : Merged before (recorded :: rest) handle full merged)
    (stays : recorded.change.relocates handle = false)
    (elsewhere : recorded.change.target? ≠ some handle) :
    Merged (recorded :: before) rest handle full merged where
  attributes := fun name => by
    have apart := (Datum.attribute name : Datum handle _).sameDatum_eq_false elsewhere
    rw [related.attributes, isSuperseded_of_apart stays apart, firstPrevious_of_apart stays apart]
  target := fun last => by
    have apart := (Datum.popoverTarget : Datum handle _).sameDatum_eq_false elsewhere
    exact related.target (by rwa [isSuperseded_of_apart stays apart])
  showing := fun last => by
    have apart := (Datum.popoverShowing : Datum handle _).sameDatum_eq_false elsewhere
    exact related.showing (by rwa [isSuperseded_of_apart stays apart])

/-- A record that sets another datum of the node. -/
theorem attributes_of_apart {change : Change} {previous : Option String}
    (related : Merged before (⟨change, previous⟩ :: rest) handle full merged)
    (targets : change.target? = some handle) {name : String}
    (apart : (Change.attribute handle name none).sameDatum change = false) :
    merged.attributes[name]? =
      if isSuperseded (.attribute handle name none) handle rest then
        firstPrevious (.attribute handle name none) handle full.attributes[name]?
          (⟨change, previous⟩ :: before)
      else full.attributes[name]? := by
  have stays := not_relocates_of_target targets handle
  have open' := related.attributes name
  have passed := @firstPrevious_of_apart (.attribute handle name none) handle ⟨change, previous⟩ stays
    apart full.attributes[name]? before
  rwa [isSuperseded_of_apart stays apart, ← passed] at open'

theorem setPopoverTarget {target : Option Handle} {previous : Option String}
    (related : Merged before (⟨.popoverTarget handle target, previous⟩ :: rest) handle full
      merged) :
    Merged (⟨.popoverTarget handle target, previous⟩ :: before) rest handle
      ((Change.popoverTarget handle target).edit full)
      (if isNeeded before ⟨.popoverTarget handle target, previous⟩ rest then
        (Change.popoverTarget handle target).edit merged else merged) where
  attributes := fun name => by
    rw [apply_ite ContentNode.attributes, Change.edit, Change.edit, ite_self]
    exact related.attributes_of_apart rfl rfl
  target := fun last => by
    have needed : isNeeded before ⟨.popoverTarget handle target, previous⟩ rest = true := by
      have same (other : Change) : (Change.popoverTarget handle none).sameDatum other =
          (Change.popoverTarget handle target).sameDatum other := by cases other <;> rfl
      rw [isSuperseded_congr same] at last
      simp only [isNeeded, Change.target?, Change.setsTo, last, Bool.not_false, Bool.and_true]
    rw [if_pos needed]
    rfl
  showing := fun last => by
    rw [apply_ite ContentNode.popoverShowing, Change.edit, Change.edit, ite_self]
    exact related.showing last

theorem setPopoverShowing {showing : Bool} {previous : Option String}
    (related : Merged before (⟨.popoverShowing handle showing, previous⟩ :: rest) handle full
      merged) :
    Merged (⟨.popoverShowing handle showing, previous⟩ :: before) rest handle
      ((Change.popoverShowing handle showing).edit full)
      (if isNeeded before ⟨.popoverShowing handle showing, previous⟩ rest then
        (Change.popoverShowing handle showing).edit merged else merged) where
  attributes := fun name => by
    rw [apply_ite ContentNode.attributes, Change.edit, Change.edit, ite_self]
    exact related.attributes_of_apart rfl rfl
  target := fun last => by
    rw [apply_ite ContentNode.popoverTarget, Change.edit, Change.edit, ite_self]
    exact related.target last
  showing := fun last => by
    have needed : isNeeded before ⟨.popoverShowing handle showing, previous⟩ rest = true := by
      have same (other : Change) : (Change.popoverShowing handle false).sameDatum other =
          (Change.popoverShowing handle showing).sameDatum other := by cases other <;> rfl
      rw [isSuperseded_congr same] at last
      simp only [isNeeded, Change.target?, Change.setsTo, last, Bool.not_false, Bool.and_true]
    rw [if_pos needed]
    rfl

/-- Of several changes of one attribute only the last one counts, and it comes to nothing if it
restores the value from before the first. -/
theorem setAttribute {name : String} {value previous : Option String}
    (related : Merged before (⟨.attribute handle name value, previous⟩ :: rest) handle full
      merged)
    (truthful : full.attributes[name]? = previous) :
    Merged (⟨.attribute handle name value, previous⟩ :: before) rest handle
      ((Change.attribute handle name value).edit full)
      (if isNeeded before ⟨.attribute handle name value, previous⟩ rest then
        (Change.attribute handle name value).edit merged else merged) where
  attributes := fun other => by
    have targets : (Change.attribute handle name value).target? = some handle := rfl
    have stays := not_relocates_of_target targets handle
    by_cases here : other = name
    · subst here
      have same : (Change.attribute handle other none).sameDatum (.attribute handle other value) =
          true := by simp [Change.sameDatum]
      have open' := related.attributes other
      rw [isSuperseded_of_sameDatum stays same, if_pos rfl, truthful] at open'
      rw [firstPrevious_of_sameDatum stays same, ← open']
      have needed : isNeeded before ⟨.attribute handle other value, previous⟩ rest =
          (!isSuperseded (.attribute handle other none) handle rest
            && !(value == merged.attributes[other]?)) := by
        have alike (change : Change) : (Change.attribute handle other none).sameDatum change =
            (Change.attribute handle other value).sameDatum change := by cases change <;> rfl
        rw [open', isSuperseded_congr alike, firstPrevious_congr alike]
        rfl
      rw [needed]
      cases isSuperseded (.attribute handle other none) handle rest with
      | true => simp
      | false =>
        by_cases restored : value = merged.attributes[other]?
        · simp [restored, Change.edit, Attributes.getElem?_set]
        · simp [restored, Change.edit, Attributes.getElem?_set]
    · have apart : (Change.attribute handle other none).sameDatum (.attribute handle name value) =
          false := by simp [Change.sameDatum, here]
      have kept (node : ContentNode) :
          ((Change.attribute handle name value).edit node).attributes[other]? =
            node.attributes[other]? := by
        rw [Change.edit, Attributes.getElem?_set, if_neg (Ne.symm here)]
      rw [apply_ite (fun node : ContentNode => node.attributes[other]?), kept, kept, ite_self]
      exact related.attributes_of_apart rfl apart
  target := fun last => by
    rw [apply_ite ContentNode.popoverTarget, Change.edit, Change.edit, ite_self]
    exact related.target last
  showing := fun last => by
    rw [apply_ite ContentNode.popoverShowing, Change.edit, Change.edit, ite_self]
    exact related.showing last

/-- A record that sets a datum of the node. -/
theorem set {document : Document} {change : Change} {previous : Option String}
    (related : Merged before (⟨change, previous⟩ :: rest) handle full merged)
    (targets : change.target? = some handle) (fits : Fits document ⟨change, previous⟩)
    (stored : document.get? handle = some full) :
    Merged (⟨change, previous⟩ :: before) rest handle (change.edit full)
      (if isNeeded before ⟨change, previous⟩ rest then change.edit merged else merged) := by
  cases change with
  | inserted | removed => cases targets
  | popoverTarget =>
    cases targets
    exact related.setPopoverTarget
  | popoverShowing =>
    cases targets
    exact related.setPopoverShowing
  | _ =>
    cases targets
    exact related.setAttribute (fits full stored)

end Merged

/-- Repeated changes can be merged. -/
theorem coalesceAfter_preserves {left right : Document} (wellFormed : left.WellFormed)
    {before records : List Recorded} (alike : Alike (Merged before records) left right)
    (fit : AllFit left records) :
    replay right (coalesceAfter before records) = replay left records := by
  induction records generalizing left right before with
  | nil =>
    refine (alike.eq fun handle full merged related => ⟨?_, ?_, ?_⟩).symm
    · ext name : 1
      exact (related.attributes name).symm
    · exact related.showing rfl
    · exact related.target rfl
  | cons recorded rest ih =>
    obtain ⟨fits, fitRest⟩ := fit
    have goOn (right : Document)
        (alike : Alike (Merged (recorded :: before) rest) (left.after recorded.change) right) :=
      ih (fits.wellFormed wellFormed) alike fitRest
    obtain ⟨change, previous⟩ := recorded
    rcases change.cases_target with ⟨parent, index, subtree, rfl⟩ | ⟨node, rfl⟩ | ⟨handle, targets⟩
    · have attachable : left.Attachable parent subtree := fits
      refine goOn _ (alike_inserted alike (merged_ignoresChildren _ rest) attachable index ?_ ?_)
      · intro handle mentioned node
        exact Merged.fresh (by simpa [Change.relocates, Subtree.mentions] using mentioned) node
      · intro handle full merged absent related
        exact related.pass (by simpa [Change.relocates, Subtree.mentions] using absent) nofun
    · refine goOn _ (alike_removed alike wellFormed (merged_ignoresChildren _ _) fits ?_)
      intro handle full merged differ related
      exact related.pass (by simpa [Change.relocates] using Ne.symm differ) nofun
    · have links := change.isDataChange_edit.links
      have pass {other : Handle} {full merged : ContentNode} (differ : other ≠ handle)
          (related : Merged before (⟨change, previous⟩ :: rest) other full merged) :
          Merged (⟨change, previous⟩ :: before) rest other full merged :=
        related.pass (not_relocates_of_target targets other) (by
          rw [targets]
          exact fun same => differ (Option.some.inj same).symm)
      have kept : coalesceAfter before (⟨change, previous⟩ :: rest) =
          if isNeeded before ⟨change, previous⟩ rest then
            ⟨change, previous⟩ :: coalesceAfter (⟨change, previous⟩ :: before) rest
          else coalesceAfter (⟨change, previous⟩ :: before) rest := rfl
      rw [kept, replay_cons, ← goOn (right.update handle
        (if isNeeded before ⟨change, previous⟩ rest then change.edit else id)).state]
      · split
        · rw [replay_cons]
          dsimp only
          rw [Change.after_eq_update targets]
        · rw [update_id]
      · rw [Change.after_eq_update targets]
        refine alike.update links ?_ ?_ fun other _ _ differ related => pass differ related
        · intro node
          split
          · exact links node
          · exact .refl node
        · intro full merged stored _ related
          rw [ite_apply]
          exact related.set targets fits stored

/-- The two passes together lead to the same document as all records. -/
theorem replay_coalesce_dropRemoved {document : Document} (wellFormed : document.WellFormed)
    {records : List Recorded} (fit : AllFit document records) :
    replay document (coalesce (dropRemoved records)) = replay document records := by
  obtain ⟨fitDropped, same⟩ := dropRemoved_preserves wellFormed
    (.refl (fun _ _ => .inr ⟨rfl, rfl, rfl⟩) document) fit
  rw [← same]
  refine coalesceAfter_preserves wellFormed (.refl (fun handle node => ⟨?_, ?_, ?_⟩) document)
    fitDropped
  · intro name
    rw [firstPrevious, ite_self]
  · exact fun _ => rfl
  · exact fun _ => rfl

end Accessibility.Recorded
