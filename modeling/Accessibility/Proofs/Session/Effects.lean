import Accessibility.Proofs.Change.Runs
import Accessibility.Proofs.Session.Exposure

/-!
What a batch that leaves exposure as it is can alter: only data that the stale relations are derived
from, and attributes only of the nodes that it touches. What a batch takes over are handles that it
inserts.
-/

set_option autoImplicit false

namespace Accessibility

/-- What a node may have turned into when only some relations are stale, at a handle that may be
among those touched. -/
structure ContentNode.Renewable (stale : RelationSet) (touched : List Handle) (handle : Handle)
    (before after : ContentNode) : Prop where
  exposure : before.SameExposure after
  attributes : ∀ {relation : Relation}, stale.contains relation = false → ∀ {name : String},
    (RelationSet.readFrom name).contains relation = true →
    before.attributes[name]? = after.attributes[name]?
  target : ∀ {relation : Relation}, stale.contains relation = false →
    (RelationSet.ofPairs [.details]).contains relation = true →
    before.popoverTarget = after.popoverTarget
  untouched : handle ∉ touched → before.attributes = after.attributes

namespace ContentNode.Renewable

variable {stale more : RelationSet} {touched others : List Handle} {handle : Handle}
  {before after : ContentNode}

theorem refl (node : ContentNode) : node.Renewable stale touched handle node :=
  ⟨⟨rfl, fun _ => rfl, fun _ => rfl⟩, fun _ _ _ => rfl, fun _ _ => rfl, fun _ => rfl⟩

theorem mono (renewable : before.Renewable stale touched handle after) :
    before.Renewable (stale.union more) (touched ++ others) handle after := by
  have kept {relation : Relation} (fresh : (stale.union more).contains relation = false) :
      stale.contains relation = false := by
    rw [RelationSet.contains_union, Bool.or_eq_false_iff] at fresh
    exact fresh.1
  exact ⟨renewable.exposure, fun fresh _ reads => renewable.attributes (kept fresh) reads,
    fun fresh reads => renewable.target (kept fresh) reads,
    fun absent => renewable.untouched fun listed => absent (List.mem_append_left _ listed)⟩

/-- An attribute is set that decides nothing about exposure. -/
theorem setAttribute (renewable : before.Renewable stale touched handle after) {name : String}
    (value : Option String) (hidden : Change.isExposureAttribute name = false)
    (slots : after.kind.isSlot = true → name ≠ "name") (kinds : before.kind = after.kind) :
    before.Renewable (stale.union (.readFrom name)) (touched ++ [handle]) handle
      { after with attributes := after.attributes.set name value } := by
  have elsewhere {other : String} (differ : name ≠ other) :
      (after.attributes.set name value)[other]? = after.attributes[other]? := by
    rw [Attributes.getElem?_set, if_neg differ]
  refine ⟨⟨renewable.exposure.showing, ?_, ?_⟩, ?_, ?_, ?_⟩
  · intro other exposes
    rw [elsewhere, renewable.exposure.attributes exposes]
    rintro rfl
    rw [hidden] at exposes
    cases exposes
  · intro isSlot
    rw [elsewhere (slots (kinds ▸ isSlot)), renewable.exposure.slotName isSlot]
  · intro relation fresh other reads
    rw [RelationSet.contains_union, Bool.or_eq_false_iff] at fresh
    rw [elsewhere, renewable.attributes fresh.1 reads]
    rintro rfl
    rw [fresh.2] at reads
    cases reads
  · intro relation fresh reads
    rw [RelationSet.contains_union, Bool.or_eq_false_iff] at fresh
    exact renewable.target fresh.1 reads
  · exact fun absent => absurd (List.mem_append_right _ List.mem_cons_self) absent

theorem setTarget (renewable : before.Renewable stale touched handle after)
    (target : Option Handle) :
    before.Renewable (stale.union (.ofPairs [.details])) touched handle
      { after with popoverTarget := target } := by
  have kept {relation : Relation}
      (fresh : (stale.union (.ofPairs [.details])).contains relation = false) :
      stale.contains relation = false ∧
        (RelationSet.ofPairs [.details]).contains relation = false := by
    rwa [RelationSet.contains_union, Bool.or_eq_false_iff] at fresh
  refine ⟨⟨renewable.exposure.showing, renewable.exposure.attributes, renewable.exposure.slotName⟩,
    fun fresh _ reads => renewable.attributes (kept fresh).1 reads, fun fresh reads => ?_,
    renewable.untouched⟩
  rw [(kept fresh).2] at reads
  cases reads

end ContentNode.Renewable

namespace Effects

open Document

/-- Only insertions take over handles, and only handles that they carry. -/
theorem mem_replaced_add {effects : Effects} {change : Change} {handle : Handle}
    (listed : handle ∈ (effects.add change).replaced) :
    handle ∈ effects.replaced ∨
      ∃ parent index subtree, change = .inserted parent index subtree ∧ handle ∈ subtree.handles := by
  have cases : handle ∈ effects.replaced ∨
      ∃ replaced, (change.apply effects.document).answer = .ok replaced ∧ handle ∈ replaced := by
    rw [add] at listed
    cases answer : (change.apply effects.document).answer with
    | error fault =>
      simp only [answer, List.append_nil] at listed
      exact .inl listed
    | ok replaced =>
      simp only [answer, List.mem_append] at listed
      exact listed.imp id fun inside => ⟨replaced, rfl, inside⟩
  refine cases.imp id ?_
  rintro ⟨replaced, answer, inside⟩
  cases change with
  | inserted parent index subtree =>
    exact ⟨parent, index, subtree, rfl, mem_handles_of_answer_insert answer inside⟩
  | removed node =>
    rw [Change.apply, Outcome.andThen] at answer
    split at answer
    · cases answer
      cases inside
    · cases answer
  | _ =>
    rw [Change.apply_of_target rfl] at answer
    split at answer
    · cases answer
      cases inside
    · cases answer

theorem touched_add {effects : Effects} {change : Change} {handle : Handle}
    (targets : change.target? = some handle)
    (stored : effects.document.contains handle = true) :
    (effects.add change).touched = effects.touched ++ change.touched?.toList := by
  rw [add, Change.apply_of_target targets, if_pos stored]
  rfl

/-- The effects so far of changes that leave the exposure of a document as it is. -/
structure Quiet (document : Document) (effects : Effects) : Prop where
  alike : Alike (ContentNode.Renewable effects.stale effects.touched) document effects.document
  replaced : effects.replaced = []

theorem Quiet.add {document : Document} {effects : Effects} (quiet : Quiet document effects)
    {change : Change} (plain : change.altersExposure effects.document = false) :
    Quiet document (effects.add change) := by
  have links := change.isDataChange_edit.links
  have none (target : change.target? ≠ Option.none) : (effects.add change).replaced = [] := by
    refine List.eq_nil_iff_forall_not_mem.mpr fun handle listed => ?_
    rcases mem_replaced_add listed with before | ⟨parent, index, subtree, rfl, -⟩
    · rw [quiet.replaced] at before
      cases before
    · exact target rfl
  have edited {handle : Handle} (targets : change.target? = some handle)
      (here : ∀ before after : ContentNode, effects.document.contains handle = true →
        before.SameLinks after →
        effects.document.get? handle = some after →
        before.Renewable effects.stale effects.touched handle after →
        before.Renewable (effects.add change).stale (effects.add change).touched handle
          (change.edit after)) :
      Alike (ContentNode.Renewable (effects.add change).stale (effects.add change).touched) document
        (effects.document.after change) := by
    rw [Change.after_eq_update targets, ← update_id document handle]
    refine quiet.alike.update .refl links ?_ fun other before after _ renewable => renewable.mono
    intro before after storedBefore storedAfter renewable
    obtain ⟨after', storedAfter', same, -⟩ := quiet.alike.exists_right storedBefore
    rw [storedAfter] at storedAfter'
    cases storedAfter'
    exact here before after (contains_of_get? storedAfter) same storedAfter renewable
  cases change with
  | inserted parent index subtree => cases plain
  | removed node => cases plain
  | popoverShowing node showing => cases plain
  | popoverTarget node target =>
    refine ⟨edited rfl ?_, none (Option.some_ne_none _)⟩
    · intro before after stored _ _ renewable
      have same : (effects.add (.popoverTarget node target)).touched = effects.touched :=
        (touched_add rfl stored).trans (List.append_nil _)
      rw [same]
      exact renewable.setTarget target
  | _ node name value =>
    rw [Change.altersExposure, Bool.or_eq_false_iff] at plain
    refine ⟨edited rfl ?_, none (Option.some_ne_none _)⟩
    · intro before after stored same storedAfter renewable
      have touches : (effects.add (.attribute node name value)).touched =
          effects.touched ++ [node] := touched_add rfl stored
      rw [touches]
      refine renewable.setAttribute value plain.1 ?_ same.kind
      rintro isSlot rfl
      rw [Document.kind?, storedAfter, Option.map_some, Option.any_some, isSlot] at plain
      exact absurd plain.2 (by decide)

/-- Exposure that is altered once stays altered. -/
theorem altersExposure_foldl (changes : List Change) (effects : Effects)
    (alters : effects.altersExposure = true) :
    (changes.foldl add effects).altersExposure = true := by
  induction changes generalizing effects with
  | nil => exact alters
  | cons change rest ih =>
    refine ih _ ?_
    rw [add]
    simp only [alters, Bool.true_or]

theorem quiet_ofChanges {document : Document} {changes : List Change}
    (plain : (ofChanges document changes).altersExposure = false) :
    Quiet document (ofChanges document changes) := by
  have folded (changes : List Change) (effects : Effects) (quiet : Quiet document effects)
      (plain : (changes.foldl add effects).altersExposure = false) :
      Quiet document (changes.foldl add effects) := by
    induction changes generalizing effects with
    | nil => exact quiet
    | cons change rest ih =>
      refine ih _ (quiet.add ?_) plain
      rw [← Bool.not_eq_true]
      intro alters
      rw [List.foldl_cons, altersExposure_foldl] at plain
      · cases plain
      · rw [add]
        simp only [alters, Bool.or_true]
  exact folded changes (start document) ⟨.refl (fun _ node => .refl node) document, rfl⟩ plain

/-- What becomes of the document itself in such a batch. -/
theorem alike_afterAll {document : Document} {changes : List Change}
    (plain : (ofChanges document changes).altersExposure = false) :
    Alike (ContentNode.Renewable (ofChanges document changes).stale
      (ofChanges document changes).touched) document (document.afterAll changes) := by
  rw [← document_ofChanges document changes]
  exact (quiet_ofChanges plain).alike

/-- A batch takes over handles that it inserts, and so never the root. -/
theorem root_not_replaced {document : Document} {root : Handle} {changes : List Change}
    (sound : ∀ change ∈ changes, change.Sound root) :
    root ∉ (ofChanges document changes).replaced := by
  have folded (changes : List Change) (sound : ∀ change ∈ changes, change.Sound root)
      (effects : Effects) (absent : root ∉ effects.replaced) :
      root ∉ (changes.foldl add effects).replaced := by
    induction changes generalizing effects with
    | nil => exact absent
    | cons change rest ih =>
      rw [List.forall_mem_cons] at sound
      refine ih sound.2 _ ?_
      intro listed
      rcases mem_replaced_add listed with before | ⟨parent, index, subtree, rfl, inside⟩
      · exact absent before
      · exact sound.1.2 inside
  exact folded changes sound (start document) List.not_mem_nil

end Effects

end Accessibility
