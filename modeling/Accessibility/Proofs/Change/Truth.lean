import Accessibility.Proofs.Change.Merging
import Accessibility.Proofs.Change.Settling

/-!
Reports that tell the truth about a document, and when the changes that they come to lead to the
same document as the reports one by one.
-/

set_option autoImplicit false

namespace Accessibility

namespace Report

/-- Whether the mutation that a report tells of can be made to a document: an inserted subtree has
its place and distinct new handles, a removed node is there and is not the root, a changed node is
there, and an attribute has the value that it is said to have had. -/
def Truthful (document : Document) : Report → Prop
  | .attribute node name old _ =>
    ∃ stored, document.get? node = some stored ∧ stored.attributes[Text.lower name]? = old
  | .inserted parent _ subtree => document.Attachable parent subtree
  | .removed node => document.contains node = true ∧ node ≠ document.root
  | .reference node _ _ => document.contains node = true
  | .popoverShowing node _ => document.contains node = true

/-- Every report is truthful of the document that the mutations before it lead to. -/
def AllTruthful (document : Document) : List Report → Prop
  | [] => True
  | report :: rest => report.Truthful document ∧ AllTruthful (document.after report.change) rest

/-- The document after the mutations of some reports, one by one. -/
def replay (document : Document) (reports : List Report) : Document :=
  document.afterAll (reports.map change)

theorem allTruthful_append {document : Document} {first second : List Report} :
    AllTruthful document (first ++ second) ↔
      AllTruthful document first ∧ AllTruthful (replay document first) second := by
  induction first generalizing document with
  | nil => exact ⟨fun truthful => ⟨trivial, truthful⟩, And.right⟩
  | cons report rest ih => rw [List.cons_append, AllTruthful, AllTruthful, ih, and_assoc]; rfl

/-- A truthful report of an attribute that keeps its value tells of no change. -/
theorem after_idle {document : Document} {report : Report} (truthful : report.Truthful document)
    (idle : report.isIdle = true) : document.after report.change = document := by
  cases report with
  | inserted | removed | reference | popoverShowing => cases idle
  | _ node name old new =>
    obtain ⟨stored, here, value⟩ := truthful
    have same : old = new := by simpa [isIdle] using idle
    subst same
    rw [change, Change.after_eq_update rfl]
    refine Document.ext_get? (Document.root_update document node _) fun other => ?_
    rw [Document.get?_update]
    split
    · rename_i same
      rw [← same, here, Option.map_some, Option.some.injEq]
      have kept : stored.attributes.set (Text.lower name) old = stored.attributes := by
        ext other : 1
        rw [Attributes.getElem?_set]
        split
        · rename_i same
          rw [← same, value]
        · rfl
      rw [Change.edit, kept]
    · rfl

theorem Truthful.fits {document : Document} {report : Report}
    (truthful : report.Truthful document) :
    Recorded.Fits document ⟨report.change, report.previous⟩ := by
  cases report with
  | inserted => exact truthful
  | removed => exact truthful.2
  | reference | popoverShowing => trivial
  | _ node name old new =>
    intro stored here
    obtain ⟨stored', here', value⟩ := truthful
    rw [here] at here'
    cases here'
    exact value

end Report

namespace Recorded

open Report

theorem ofReports_append (first second : List Report) :
    ofReports (first ++ second) = ofReports first ++ ofReports second := by
  rw [ofReports, List.filter_append, List.map_append]
  rfl

/-- The records of truthful reports fit their document and lead to the same one. -/
theorem allFit_ofReports {document : Document} {reports : List Report}
    (truthful : AllTruthful document reports) :
    AllFit document (ofReports reports) ∧
      replay document (ofReports reports) = Report.replay document reports := by
  induction reports generalizing document with
  | nil => exact ⟨trivial, rfl⟩
  | cons report rest ih =>
    obtain ⟨fit, same⟩ := ih truthful.2
    rw [ofReports_cons]
    split
    · rename_i idle
      rw [after_idle truthful.1 idle] at fit same
      refine ⟨fit, same.trans ?_⟩
      rw [Report.replay, Report.replay, List.map_cons, Document.afterAll_cons,
        after_idle truthful.1 idle]
    · exact ⟨⟨truthful.1.fits, fit⟩, same⟩

theorem removesStored_ofReports {document : Document} {reports : List Report}
    (truthful : AllTruthful document reports) : RemovesStored document (ofReports reports) := by
  induction reports generalizing document with
  | nil =>
    intro first node removal rest split
    cases first <;> cases split
  | cons report rest ih =>
    have later := ih truthful.2
    rw [ofReports_cons]
    split
    · rename_i idle
      rwa [after_idle truthful.1 idle] at later
    · intro first node removal others split
      cases first with
      | nil =>
        obtain ⟨same, -⟩ := List.cons.inj split
        have removes : report.change = .removed node := congrArg Recorded.change same
        cases report with
        | removed =>
          cases removes
          exact truthful.1.1
        | _ => cases removes
      | cons recorded first =>
        obtain ⟨same, splitRest⟩ := List.cons.inj split
        subst same
        exact later first node removal others splitRest

/-- The second and the third pass lead to the same document as the first. -/
theorem afterAll_normalize {document : Document} (wellFormed : document.WellFormed)
    {reports : List Report} (fit : AllFit document (cancelTransient (ofReports reports))) :
    document.afterAll (Report.normalize reports) =
      replay document (cancelTransient (ofReports reports)) :=
  replay_coalesce_dropRemoved wellFormed fit

/-- A removal that is lost keeps its node in the document. -/
theorem normalize_differs {document : Document} (wellFormed : document.WellFormed)
    {reports : List Report} {report : Report} (truthful : AllTruthful document (reports ++ [report]))
    (steady : Steady document (ofReports reports))
    (unsteady : ¬ Steady document (ofReports (reports ++ [report]))) :
    document.afterAll (Report.normalize (reports ++ [report])) ≠
      Report.replay document (reports ++ [report]) := by
  obtain ⟨fitAll, sameAll⟩ := allFit_ofReports truthful
  have removes := removesStored_ofReports truthful
  obtain ⟨fit, same⟩ := allFit_ofReports (allTruthful_append.mp truthful).1
  rw [ofReports_append, ofReports_cons] at fitAll sameAll removes unsteady
  split at unsteady
  · rw [show ofReports [] = [] from rfl, List.append_nil] at unsteady
    exact absurd steady unsteady
  rename_i busy
  rw [if_neg busy, show ofReports [] = [] from rfl] at fitAll sameAll removes
  rw [show ofReports [] = [] from rfl, steady_snoc, not_and] at unsteady
  obtain ⟨removesFirst, removesLast⟩ := removesStored_snoc removes
  have settles := settles_of_steady wellFormed fit removesFirst steady
  have unsteady := unsteady steady
  push Not at unsteady
  obtain ⟨pair, node, removal, closed, cancelled, ends, lost⟩ := unsteady
  have stored := removesLast node removal ends
  rw [ends] at closed cancelled
  have kept := fit.wellFormed wellFormed
  obtain ⟨fitLost, sameLost⟩ :=
    replay_settledPlaces_of_lost wellFormed fit settles stored closed cancelled lost
  have places : cancelTransient (ofReports (reports ++ [report])) =
      standing (cancel (settledPlaces (ofReports reports) ++ [some ⟨.removed node, removal⟩])
        pair) := by
    rw [ofReports_append, ofReports_cons, if_neg busy, cancelTransient_eq,
      show ofReports [] = [] from rfl, settledPlaces_snoc, ends, closed]
    rfl
  rw [afterAll_normalize wellFormed (places ▸ fitLost), places, sameLost, ← sameAll, ends,
    Settles.replay_snoc, Change.after_removed]
  intro equal
  obtain ⟨-, fits, -⟩ := allFit_append.mp fitAll
  rw [ends] at fits
  have gone : ((Recorded.replay document (ofReports reports)).remove node).state.contains node =
      false :=
    kept.not_contains_remove fits
  rw [← equal, stored] at gone
  cases gone

end Recorded

/-- Truthful reports can be normalized at every point of their cycle without losing anything exactly
if the node of each cancelled pair stays in the document from its insertion to its removal. -/
theorem Report.normalize_preserves_iff {document : Document} (wellFormed : document.WellFormed)
    {reports : List Report} (truthful : AllTruthful document reports) :
    (∀ count, document.afterAll (normalize (reports.take count)) =
        replay document (reports.take count)) ↔
      Recorded.Steady document (Recorded.ofReports reports) := by
  constructor
  · intro preserved
    induction reports using List.reverseRecOn with
    | nil => exact fun pair listed => by cases listed
    | append_singleton reports report ih =>
      have steady := ih (allTruthful_append.mp truthful).1 (by
        intro count
        have same := preserved (min count reports.length)
        rwa [List.take_append_of_le_length (Nat.min_le_right _ _), ← List.take_take,
          List.take_length] at same)
      by_contra unsteady
      have whole := preserved (reports ++ [report]).length
      rw [List.take_length] at whole
      exact Recorded.normalize_differs wellFormed truthful steady unsteady whole
  · intro steady count
    rw [← List.take_append_drop count reports] at truthful steady
    obtain ⟨truthful, -⟩ := allTruthful_append.mp truthful
    rw [Recorded.ofReports_append] at steady
    obtain ⟨fit, same⟩ := Recorded.allFit_ofReports truthful
    have settles := Recorded.settles_of_steady wellFormed fit
      (Recorded.removesStored_ofReports truthful) steady.of_append
    rw [Recorded.afterAll_normalize wellFormed settles.fit, ← same, ← settles.same]
    rfl

namespace Report

/-- A page with one element. -/
def page : Document :=
  .ofSubtree { Subtree.single ⟨0⟩ .document with children := [.single ⟨1⟩ (.element "main")] }

/-- A node that comes, changes and goes within a cycle. -/
def passing : List Report :=
  [.inserted ⟨1⟩ 0 (.single ⟨2⟩ (.element "p")), .attribute ⟨2⟩ "HIDDEN" none (some ""),
    .removed ⟨2⟩]

/-- A node that leaves with the element around it, comes back inside another one, and goes. -/
def returning : List Report :=
  [.inserted ⟨1⟩ 0 (.single ⟨2⟩ .text), .removed ⟨1⟩,
    .inserted ⟨0⟩ 0 { Subtree.single ⟨3⟩ (.element "div") with children := [.single ⟨2⟩ .text] },
    .removed ⟨2⟩]

theorem passing_preserved :
    AllTruthful page passing ∧ Recorded.cancelledPairs (Recorded.ofReports passing) = [(0, 2)] ∧
      ∀ count, page.afterAll (normalize (passing.take count)) =
        replay page (passing.take count) := by
  have truthful : AllTruthful page passing := by
    refine ⟨⟨by decide, by decide, by decide⟩, ⟨_, rfl, ?_⟩, ⟨?_, by decide⟩, trivial⟩
    · decide +kernel
    · decide +kernel
  have only : Recorded.cancelledPairs (Recorded.ofReports passing) = [(0, 2)] := by decide +kernel
  have steady : Recorded.Steady page (Recorded.ofReports passing) := by
    intro pair listed node removal ends
    rw [only, List.mem_singleton] at listed
    subst listed
    have names : (Recorded.ofReports passing)[2]? = some ⟨.removed ⟨2⟩, none⟩ := rfl
    rw [names] at ends
    cases ends
    exact ⟨by decide, rfl⟩
  exact ⟨truthful, only,
    (normalize_preserves_iff (Document.wellFormed_ofSubtree (by decide)) truthful).mpr steady⟩

/-- The removal is lost with its insertion, and the node is left inside the other element. -/
theorem returning_not_preserved :
    AllTruthful page returning ∧
      page.afterAll (normalize returning) ≠ replay page returning := by
  constructor
  · exact ⟨⟨by decide, by decide, by decide⟩, ⟨by decide, by decide⟩,
      ⟨by decide, by decide, by decide⟩, ⟨by decide, by decide⟩, trivial⟩
  · intro same
    have kept : (page.afterAll (normalize returning)).contains ⟨2⟩ = true := by decide
    have gone : (replay page returning).contains ⟨2⟩ = false := by decide
    rw [same, gone] at kept
    cases kept

end Report

end Accessibility
