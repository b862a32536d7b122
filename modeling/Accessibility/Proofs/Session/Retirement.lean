import Accessibility.Proofs.Session.Identity

/-!
What becomes of the node of content that an insertion carries. The insertion tells which handles it
took over, and with their nodes goes all that stands below them in the tree. But a handle that goes with
one that is listed before it is not told, and if neither its own node nor one above it is told, the node
stays as the node of the new content.
-/

set_option autoImplicit false

namespace Accessibility

theorem Change.taken_of_answer_insert {document : Document} {parent : Handle} {index : Nat}
    {subtree : Subtree} {replaced : List Handle}
    (success : (document.insert parent index subtree).answer = .ok replaced) :
    (Change.inserted parent index subtree).taken document = replaced := by
  rw [taken, apply, success]

namespace Session

variable {session : Session} {changes : List Change}

/-- A node is in the next snapshot if its content is exposed, and nothing was taken over whose node is
that node or stands above it. -/
theorem Advanced.contains_iff {next : Session} {compared : RelationSet}
    (advanced : session.Advanced next changes compared) (settled : session.Settled) {id : NodeId}
    {content : Handle} (known : session.history.current.contentOf? id = some content) :
    next.history.current.contains id = true ↔
      content ∈ next.document.layout.map Exposed.handle ∧
        ¬ session.tree.Covers (Effects.ofChanges session.document changes).replaced id := by
  obtain ⟨node, alive, rfl⟩ := settled.contentOf?_eq_some.mp known
  rw [advanced.settled.contains_current, advanced.survives alive]

/-- Whether the node of content that a successful insertion carries is retired. The handle is told to be
taken over just if it is not below one that is listed before it; if it is told, its node is retired.
The node stays just if its content is exposed at the end, and no node of content that the batch tells
to be taken over stands at or above it. -/
theorem insert_retires_iff {subtree : Subtree} (distinct : subtree.Distinct) {capacity : Nat}
    {verifies : Bool} (reachable : Reachable subtree capacity verifies session)
    (sound : ∀ change ∈ changes, change.Sound subtree.handle)
    {earlier later : List Change} {parent : Handle} {index : Nat} {inserted : Subtree}
    (batch : changes = earlier ++ .inserted parent index inserted :: later)
    {replaced : List Handle} (success :
      ((session.document.afterAll earlier).insert parent index inserted).answer = .ok replaced)
    {handle : Handle} (carried : handle ∈ inserted.handles)
    (mirrored : (session.document.afterAll earlier).contains handle = true)
    {id : NodeId} (known : session.history.current.contentOf? id = some handle) :
    (handle ∈ replaced ↔ ∃ before after, inserted.handles = before ++ handle :: after ∧
      ∀ other ∈ before, ¬ (session.document.afterAll earlier).Leads other handle) ∧
    (handle ∈ replaced → (session.apply changes).state.history.current.contains id = false) ∧
    ((session.apply changes).state.history.current.contains id = true ↔
      handle ∈ (session.document.afterAll changes).layout.map Exposed.handle ∧
        ¬ session.tree.Covers (Effects.ofChanges session.document changes).replaced id) := by
  obtain ⟨settled, root⟩ := reachable.settled distinct
  rw [← root] at sound
  obtain ⟨compared, advanced, -⟩ := apply_advanced settled sound
  have stays := advanced.contains_iff settled known
  rw [advanced.document] at stays
  subst batch
  obtain ⟨soundEarlier, soundRest⟩ := List.forall_mem_append.mp sound
  have wellFormed := settled.wellFormed.afterAll soundEarlier
  have below : (session.document.afterAll earlier).root ∉ inserted.handles := by
    rw [Document.root_afterAll]
    exact (soundRest _ List.mem_cons_self).2
  refine ⟨?_, fun told => ?_, stays⟩
  · rw [Document.evicted_of_answer_insert success, wellFormed.mem_evict_iff below,
      and_iff_right mirrored]
  · obtain ⟨node, alive, rfl⟩ := settled.contentOf?_eq_some.mp known
    obtain ⟨rest, all⟩ := Effects.replaced_ofChanges_append session.document earlier
      (.inserted parent index inserted) later
    rw [← Bool.not_eq_true, stays, not_and_not_right]
    intro _
    refine ⟨node.content, ?_, id, settled.sound.nodeFor?_of_live alive, .refl _ id⟩
    rw [all, Change.taken_of_answer_insert success]
    exact List.mem_append_left _ (List.mem_append_right _ told)

/-- An element with a shadow tree of one paragraph. -/
def hostPage : Subtree :=
  { Subtree.single ⟨0⟩ .document with
    children := [{ Subtree.single ⟨1⟩ (.element "div") with
      children := [{ Subtree.single ⟨2⟩ .shadowRoot with
        children := [.single ⟨3⟩ (.element "p")] }] }] }

/-- Another shadow tree under the same handles. -/
def shadowTree : Subtree :=
  { Subtree.single ⟨2⟩ .shadowRoot with children := [.single ⟨3⟩ (.element "p")] }

def takingOver : List Change :=
  [.inserted ⟨1⟩ 0 shadowTree]

/-- The shadow root goes first, and it has no node; so it retires none. -/
theorem insert_retires_hostPage :
    ∃ session, Session.start hostPage 4 true = .ok session ∧
      ((⟨3⟩ : Handle) ∈ [(⟨2⟩ : Handle)] ↔ ∃ before after,
        shadowTree.handles = before ++ ⟨3⟩ :: after ∧
          ∀ other ∈ before, ¬ session.document.Leads other ⟨3⟩) ∧
      ((session.apply takingOver).state.history.current.contains ⟨3, 1⟩ = true ↔
        ⟨3⟩ ∈ (session.document.afterAll takingOver).layout.map Exposed.handle ∧
          ¬ session.tree.Covers [⟨2⟩] ⟨3, 1⟩) := by
  have distinct : hostPage.Distinct := by decide
  have sound : ∀ change ∈ takingOver, change.Sound hostPage.handle := by decide
  have success : ((Document.ofSubtree hostPage).insert ⟨1⟩ 0 shadowTree).answer = .ok [⟨2⟩] := by
    decide +kernel
  have mirrored : (Document.ofSubtree hostPage).contains ⟨3⟩ = true := by decide +kernel
  have replaced : (Effects.ofChanges (Document.ofSubtree hostPage) takingOver).replaced = [⟨2⟩] := by
    decide +kernel
  have told : (Session.start hostPage 4 true).map
      (fun session => session.history.current.contentOf? ⟨3, 1⟩) = .ok (some ⟨3⟩) := by decide +kernel
  obtain ⟨session, -, -, document, -, starts, -⟩ := start_done distinct 4
  rw [starts] at told
  rw [← document] at success mirrored replaced
  have retires := insert_retires_iff distinct (.start (starts true)) sound
    (show takingOver = [] ++ _ :: [] from rfl) success (show ⟨3⟩ ∈ shadowTree.handles by decide)
    mirrored (Except.ok.inj told)
  rw [show (session.rewire true session.hub).document = session.document from rfl, replaced] at retires
  exact ⟨_, starts true, retires.1, retires.2.2⟩

/-- The paragraph is taken over and keeps the node that it had. -/
theorem not_retired_hostPage :
    ∃ session, Session.start hostPage 4 true = .ok session ∧
      (∀ change ∈ takingOver, change.Sound hostPage.handle) ∧
      (session.document.insert ⟨1⟩ 0 shadowTree).answer = .ok [⟨2⟩] ∧
      (⟨3⟩ : Handle) ∈ shadowTree.handles ∧ session.document.contains ⟨3⟩ = true ∧
      session.history.current.contentOf? ⟨3, 1⟩ = some ⟨3⟩ ∧
      (session.apply takingOver).state.history.current.contains ⟨3, 1⟩ = true := by
  have distinct : hostPage.Distinct := by decide
  have told : (Session.start hostPage 4 true).map (fun session =>
      (decide ((session.document.insert ⟨1⟩ 0 shadowTree).answer = .ok [⟨2⟩]),
        session.document.contains ⟨3⟩, session.history.current.contentOf? ⟨3, 1⟩,
        (session.apply takingOver).state.history.current.contains ⟨3, 1⟩)) =
      .ok (true, true, some ⟨3⟩, true) := by decide +kernel
  obtain ⟨session, -, -, -, -, starts, -⟩ := start_done distinct 4
  rw [starts] at told
  have all := Except.ok.inj told
  simp only [Prod.mk.injEq, decide_eq_true_eq] at all
  obtain ⟨success, mirrored, known, stays⟩ := all
  exact ⟨_, starts true, by decide, success, by decide, mirrored, known, stays⟩

end Session

end Accessibility
