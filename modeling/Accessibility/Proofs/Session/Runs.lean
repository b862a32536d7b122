import Accessibility.Proofs.Session.Batches

/-!
Runs of sessions. Every session that sound batches lead to is settled, and every batch advances it by
one version; those who listen have no part in that, nor have checks of the snapshots.
-/

set_option autoImplicit false

namespace Accessibility.Session

variable {subtree : Subtree} {session : Session} {capacity : Nat} {verifies : Bool}

theorem run_cons (session : Session) (changes : List Change) (rest : List (List Change)) :
    session.run (changes :: rest) = (session.apply changes).state.run rest :=
  rfl

theorem run_append (session : Session) (first second : List (List Change)) :
    session.run (first ++ second) = (session.run first).run second :=
  List.foldl_append

theorem run_snoc (session : Session) (batches : List (List Change)) (changes : List Change) :
    session.run (batches ++ [changes]) = ((session.run batches).apply changes).state := by
  rw [run_append, run_cons]
  rfl

/-- The session after one batch more. -/
theorem run_take_succ (session : Session) {batches : List (List Change)} {count : Nat}
    {changes : List Change} (next : batches[count]? = some changes) :
    session.run (batches.take (count + 1)) =
      ((session.run (batches.take count)).apply changes).state := by
  rw [List.take_add_one, next, Option.toList_some, run_snoc]

/-! ### One batch -/

theorem Settled.apply (settled : session.Settled) {changes : List Change}
    (sound : ∀ change ∈ changes, change.Sound session.document.root) :
    (session.apply changes).state.Settled := by
  obtain ⟨compared, advanced, -⟩ := apply_advanced settled sound
  exact advanced.settled

theorem document_apply (settled : session.Settled) {changes : List Change}
    (sound : ∀ change ∈ changes, change.Sound session.document.root) :
    (session.apply changes).state.document = session.document.afterAll changes := by
  obtain ⟨compared, advanced, -⟩ := apply_advanced settled sound
  exact advanced.document

theorem version_apply (settled : session.Settled) {changes : List Change}
    (sound : ∀ change ∈ changes, change.Sound session.document.root) :
    (session.apply changes).state.history.version = session.history.version + 1 := by
  obtain ⟨compared, advanced, -⟩ := apply_advanced settled sound
  exact advanced.version

/-! ### Many batches -/

theorem Settled.run (settled : session.Settled) {batches : List (List Change)}
    (sound : ∀ changes ∈ batches, ∀ change ∈ changes, change.Sound session.document.root) :
    (session.run batches).Settled ∧
      (session.run batches).document.root = session.document.root ∧
      (session.run batches).history.version = session.history.version + batches.length := by
  induction batches generalizing session with
  | nil => exact ⟨settled, rfl, rfl⟩
  | cons changes rest ih =>
    obtain ⟨soundHere, soundRest⟩ := List.forall_mem_cons.mp sound
    have root : (session.apply changes).state.document.root = session.document.root := by
      rw [document_apply settled soundHere, Document.root_afterAll]
    obtain ⟨settledRest, rootRest, versionRest⟩ :=
      ih (settled.apply soundHere) (by rw [root]; exact soundRest)
    refine ⟨settledRest, rootRest.trans root, ?_⟩
    rw [run_cons, versionRest, version_apply settled soundHere, List.length_cons, Nat.add_assoc,
      Nat.add_comm 1]

/-- Where scopes are told from the document, relations stay as if they had just been derived, and
checks leave no trace in a run. -/
theorem Derived.run (derived : session.Derived) (settled : session.Settled)
    {batches : List (List Change)}
    (sound : ∀ changes ∈ batches, ∀ change ∈ changes, change.Sound session.document.root) :
    (session.run batches).Derived ∧ ∀ verifies,
      (session.rewire verifies session.hub).run batches =
        (session.run batches).rewire verifies (session.run batches).hub := by
  induction batches generalizing session with
  | nil => exact ⟨derived, fun _ => rfl⟩
  | cons changes rest ih =>
    obtain ⟨soundHere, soundRest⟩ := List.forall_mem_cons.mp sound
    obtain ⟨derivedHere, notices, applied⟩ := derived.apply settled soundHere
    have root : (session.apply changes).state.document.root = session.document.root := by
      rw [document_apply settled soundHere, Document.root_afterAll]
    obtain ⟨derivedRest, unchecked⟩ :=
      ih derivedHere (settled.apply soundHere) (by rw [root]; exact soundRest)
    refine ⟨derivedRest, fun verifies => ?_⟩
    have here := congrArg Outcome.state (applied session.verifies session.hub)
    have other := congrArg Outcome.state (applied verifies session.hub)
    dsimp only [Outcome.done] at here other
    have hub := congrArg Session.hub here
    have same : ((session.rewire verifies session.hub).apply changes).state =
        (session.apply changes).state.rewire verifies (session.apply changes).state.hub :=
      other.trans (congrArg ((session.apply changes).state.rewire verifies) hub.symm)
    rw [run_cons, run_cons, same]
    exact unchecked verifies

/-! ### From the first version on -/

/-- What every run begins with. -/
structure Begun (subtree : Subtree) (session : Session) : Prop where
  settled : session.Settled
  derived : subtree.kind ≠ .shadowRoot → session.Derived
  document : session.document = Document.ofSubtree subtree
  version : session.history.version = 1
  kinds : session.tree.Allows fun handle kind => session.document.kind? handle = some kind

theorem begun_of_start (distinct : subtree.Distinct)
    (started : Session.start subtree capacity verifies = .ok session) : Begun subtree session := by
  obtain ⟨first, settled, derived, document, version, starts, kinds⟩ :=
    start_done distinct capacity
  rw [starts] at started
  cases started
  exact ⟨settled.rewire verifies first.hub, fun kind => (derived kind).rewire verifies first.hub,
    document, version, kinds⟩

namespace Begun

variable (begun : Begun subtree session) {batches : List (List Change)}
  (sound : ∀ changes ∈ batches, ∀ change ∈ changes, change.Sound subtree.handle)
include begun sound

theorem sound_root : ∀ changes ∈ batches, ∀ change ∈ changes, change.Sound session.document.root := by
  rw [begun.document]
  exact sound

theorem settled_run : (session.run batches).Settled :=
  (begun.settled.run (begun.sound_root sound)).1

theorem derived_run (kind : subtree.kind ≠ .shadowRoot) : (session.run batches).Derived :=
  ((begun.derived kind).run begun.settled (begun.sound_root sound)).1

theorem root_run : (session.run batches).document.root = subtree.handle := by
  rw [(begun.settled.run (begun.sound_root sound)).2.1, begun.document]
  rfl

theorem version_run : (session.run batches).history.version = batches.length + 1 := by
  rw [(begun.settled.run (begun.sound_root sound)).2.2, begun.version, Nat.add_comm]

end Begun

/-- Sessions are reachable by runs. -/
theorem Reachable.exists_run {reached : Session}
    (reachable : Reachable subtree capacity verifies reached) :
    ∃ session batches, Session.start subtree capacity verifies = .ok session ∧
      (∀ changes ∈ batches, ∀ change ∈ changes, change.Sound subtree.handle) ∧
      reached = session.run batches := by
  induction reachable with
  | start started => exact ⟨_, [], started, nofun, rfl⟩
  | apply _ changes sound ih =>
    obtain ⟨session, batches, started, soundBefore, rfl⟩ := ih
    refine ⟨session, batches ++ [changes], started, ?_, (run_snoc session batches changes).symm⟩
    intro other listed
    rcases List.mem_append.mp listed with earlier | last
    · exact soundBefore other earlier
    · rw [List.mem_singleton.mp last]
      exact sound

theorem Reachable.run (reachable : Reachable subtree capacity verifies session)
    {batches : List (List Change)}
    (sound : ∀ changes ∈ batches, ∀ change ∈ changes, change.Sound subtree.handle) :
    Reachable subtree capacity verifies (session.run batches) := by
  induction batches generalizing session with
  | nil => exact reachable
  | cons changes rest ih =>
    obtain ⟨soundFirst, soundRest⟩ := List.forall_mem_cons.mp sound
    exact ih (reachable.apply changes soundFirst) soundRest

theorem Reachable.settled {reached : Session} (reachable : Reachable subtree capacity verifies reached)
    (distinct : subtree.Distinct) : reached.Settled ∧ reached.document.root = subtree.handle := by
  obtain ⟨session, batches, started, sound, rfl⟩ := reachable.exists_run
  have begun := begun_of_start distinct started
  exact ⟨begun.settled_run sound, begun.root_run sound⟩

end Accessibility.Session
