import Accessibility.Proofs.Document.Edits
import Accessibility.Proofs.Session.Runs
import Accessibility.Proofs.Session.Takeovers
import Accessibility.Proofs.Snapshot.Views

/-!
The identity of exposed content over a run. A key stands for one content node as long as the run goes
on, and once it has left the snapshots it never comes back; content that stays exposed keeps its key
unless something is taken over; and content that becomes exposed gets a key that no snapshot had.
-/

set_option autoImplicit false

namespace Accessibility

/-- The nodes of a snapshot are those that stand for some content. -/
theorem Snapshot.contains_eq_true {snapshot : Snapshot} {id : NodeId} :
    snapshot.contains id = true ↔ ∃ content, snapshot.contentOf? id = some content := by
  rw [contains_iff]
  constructor
  · rintro ⟨info, told⟩
    exact ⟨info.content, congrArg (Option.map NodeInfo.content) told⟩
  · rintro ⟨content, told⟩
    exact (Option.map_eq_some_iff.mp told).imp fun _ both => both.1

namespace Session

variable {session : Session}

/-! ### What snapshots tell of trees -/

namespace Settled

variable (settled : session.Settled)
include settled

theorem contentOf?_current (id : NodeId) :
    session.history.current.contentOf? id = (session.tree.live id).map AccessibleNode.content := by
  obtain ⟨version, edges, current⟩ := settled.current
  rw [current]
  exact @Tree.contentOf?_snapshot session.tree edges settled.sound id

theorem contentOf?_eq_some {id : NodeId} {content : Handle} :
    session.history.current.contentOf? id = some content ↔
      ∃ node, session.tree.live id = some node ∧ node.content = content := by
  rw [settled.contentOf?_current, Option.map_eq_some_iff]

theorem contains_current {id : NodeId} : session.history.current.contains id = true ↔
    ∃ node, session.tree.live id = some node := by
  rw [Snapshot.contains_eq_true]
  exact ⟨fun ⟨_, told⟩ => (settled.contentOf?_eq_some.mp told).imp fun _ both => both.1,
    fun ⟨node, alive⟩ => ⟨_, settled.contentOf?_eq_some.mpr ⟨node, alive, rfl⟩⟩⟩

/-- No two nodes of a snapshot stand for one content node. -/
theorem eq_of_contentOf? {left right : NodeId} {content : Handle}
    (here : session.history.current.contentOf? left = some content)
    (there : session.history.current.contentOf? right = some content) : left = right := by
  obtain ⟨node, alive, same⟩ := settled.contentOf?_eq_some.mp here
  obtain ⟨node', alive', same'⟩ := settled.contentOf?_eq_some.mp there
  have known := settled.sound.nodeFor?_of_live alive
  rw [same, ← same', settled.sound.nodeFor?_of_live alive'] at known
  exact (Option.some.inj known).symm

end Settled

/-! ### One batch -/

/-- Where nothing is taken over, content that stays exposed keeps its key. -/
theorem Advanced.contentOf?_of_nothingTaken {next : Session} {changes : List Change}
    {compared : RelationSet} (advanced : session.Advanced next changes compared)
    (settled : session.Settled)
    (continues : Tree.Continues (fun _ _ => True) session.tree next.tree)
    (nothing : session.document.NothingTaken changes) {content : Handle} {before after : NodeId}
    (here : session.history.current.contentOf? before = some content)
    (there : next.history.current.contentOf? after = some content) : after = before := by
  obtain ⟨node, alive, same⟩ := settled.contentOf?_eq_some.mp here
  obtain ⟨node', alive', same'⟩ := advanced.settled.contentOf?_eq_some.mp there
  have exposed := advanced.settled.aligned.only alive'
  have apart : ¬ session.tree.Covers (Effects.ofChanges session.document changes).replaced before := by
    rw [Effects.replaced_of_nothingTaken nothing]
    rintro ⟨handle, listed, -⟩
    cases listed
  rw [same', ← same] at exposed
  obtain ⟨kept, aliveKept⟩ := (advanced.survives alive).mpr ⟨exposed, apart⟩
  obtain ⟨old, aliveOld, sameKept, -⟩ :=
    continues.live_of_issued aliveKept (Tree.issued_of_live alive)
  rw [alive] at aliveOld
  cases aliveOld
  refine advanced.settled.eq_of_contentOf? there ?_
  exact advanced.settled.contentOf?_eq_some.mpr ⟨kept, aliveKept, sameKept.trans same⟩

/-! ### Runs -/

/-- The session after the first batches of a run. -/
def upTo (session : Session) (batches : List (List Change)) (count : Nat) : Session :=
  session.run (batches.take count)

/-- The snapshot after the first batches of a run. -/
def committed (session : Session) (batches : List (List Change)) (count : Nat) : Snapshot :=
  (session.upTo batches count).history.current

theorem upTo_succ (session : Session) {batches : List (List Change)} {count : Nat}
    {changes : List Change} (next : batches[count]? = some changes) :
    session.upTo batches (count + 1) = ((session.upTo batches count).apply changes).state :=
  session.run_take_succ next

/-- Nodes go on from each session of a run to every later one. -/
theorem continues_run {before : Tree} (batches : List (List Change))
    (earlier : Tree.Continues (fun _ _ => True) before session.tree) :
    Tree.Continues (fun _ _ => True) before (session.run batches).tree := by
  induction batches generalizing session with
  | nil => exact earlier
  | cons changes rest ih => exact ih (continues_apply earlier fun _ _ _ => trivial)

theorem continues_upTo {batches : List (List Change)} {early late : Nat} (order : early ≤ late)
    (tidy : (session.upTo batches early).tree.nodes.Tidy) :
    Tree.Continues (fun _ _ => True) (session.upTo batches early).tree
      (session.upTo batches late).tree := by
  have whole : session.upTo batches late =
      (session.upTo batches early).run ((batches.take late).drop early) := by
    rw [upTo, upTo, ← run_append, ← Nat.min_eq_left order, ← List.take_take, Nat.min_eq_left order,
      List.take_append_drop]
  rw [whole]
  exact continues_run _ (.refl tidy)

/-- The snapshots of a run, and the keys in them. -/
structure KeepsKeys (session : Session) (batches : List (List Change)) : Prop where
  versions : ∀ count ≤ batches.length, (session.committed batches count).version = count + 1
  /-- A key stands for the same content in all snapshots. -/
  same : ∀ {one other : Nat} {id : NodeId} {content content' : Handle},
    (session.committed batches one).contentOf? id = some content →
    (session.committed batches other).contentOf? id = some content' → content' = content
  /-- A key that has left the snapshots does not come back. -/
  between : ∀ {early middle late : Nat} {id : NodeId}, early ≤ middle → middle ≤ late →
    (session.committed batches early).contains id = true →
    (session.committed batches late).contains id = true →
    (session.committed batches middle).contains id = true
  /-- Content that stays exposed in a batch that takes nothing over keeps its key. -/
  kept : ∀ {count : Nat} {changes : List Change} {content : Handle} {before after : NodeId},
    batches[count]? = some changes →
    (session.upTo batches count).document.NothingTaken changes →
    (session.committed batches count).contentOf? before = some content →
    (session.committed batches (count + 1)).contentOf? after = some content → after = before
  /-- The key of content that becomes exposed is in no earlier snapshot. -/
  fresh : ∀ {count early : Nat} {content : Handle} {id : NodeId},
    (∀ before, (session.committed batches count).contentOf? before ≠ some content) →
    (session.committed batches (count + 1)).contentOf? id = some content →
    early ≤ count → (session.committed batches early).contains id = false

section Begun

variable {subtree : Subtree} (begun : Begun subtree session) {batches : List (List Change)}
  (sound : ∀ changes ∈ batches, ∀ change ∈ changes, change.Sound subtree.handle)
include begun sound

theorem Begun.settled_upTo (count : Nat) : (session.upTo batches count).Settled :=
  begun.settled_run fun changes listed => sound changes (List.mem_of_mem_take listed)

theorem Begun.derived_upTo (plain : subtree.kind ≠ .shadowRoot) (count : Nat) :
    (session.upTo batches count).Derived :=
  begun.derived_run (fun changes listed => sound changes (List.mem_of_mem_take listed)) plain

theorem Begun.root_upTo (count : Nat) :
    (session.upTo batches count).document.root = subtree.handle :=
  begun.root_run fun changes listed => sound changes (List.mem_of_mem_take listed)

theorem Begun.version_committed {count : Nat} (within : count ≤ batches.length) :
    (session.committed batches count).version = count + 1 := by
  have version := begun.version_run fun changes (listed : changes ∈ batches.take count) =>
    sound changes (List.mem_of_mem_take listed)
  rw [List.length_take, Nat.min_eq_left within] at version
  exact version

/-- Between two snapshots with a key, the key stands for what it stands for in the later one. -/
theorem Begun.contentOf?_between {early middle late : Nat} (first : early ≤ middle)
    (second : middle ≤ late) {id : NodeId} {content content' : Handle}
    (before : (session.committed batches early).contentOf? id = some content)
    (after : (session.committed batches late).contentOf? id = some content') :
    (session.committed batches middle).contentOf? id = some content' := by
  have settledEarly := begun.settled_upTo sound early
  have settledMiddle := begun.settled_upTo sound middle
  obtain ⟨node, alive, -⟩ := settledEarly.contentOf?_eq_some.mp before
  obtain ⟨node', alive', same'⟩ := (begun.settled_upTo sound late).contentOf?_eq_some.mp after
  have issued : (session.upTo batches middle).tree.nodes.Issued id :=
    (continues_upTo first settledEarly.sound.tidy).issued (Tree.issued_of_live alive)
  obtain ⟨between, aliveBetween, same, -⟩ :=
    (continues_upTo second settledMiddle.sound.tidy).live_of_issued alive' issued
  exact settledMiddle.contentOf?_eq_some.mpr ⟨between, aliveBetween, same.symm.trans same'⟩

end Begun

/-- Whatever the batches of a run are, keys are kept as content keeps its identity. -/
theorem run_keepsKeys {subtree : Subtree} (distinct : subtree.Distinct) {capacity : Nat}
    {verifies : Bool} (started : Session.start subtree capacity verifies = .ok session)
    {batches : List (List Change)}
    (sound : ∀ changes ∈ batches, ∀ change ∈ changes, change.Sound subtree.handle) :
    session.KeepsKeys batches := by
  have begun := begun_of_start distinct started
  refine ⟨fun count within => begun.version_committed sound within, ?_, ?_, ?_, ?_⟩
  · intro one other id content content' here there
    rcases Nat.le_total one other with order | order
    · have between := begun.contentOf?_between sound (Nat.le_refl one) order here there
      rw [here] at between
      exact (Option.some.inj between).symm
    · have between := begun.contentOf?_between sound (Nat.le_refl other) order there here
      rw [there] at between
      exact Option.some.inj between
  · intro early middle late id first second before after
    obtain ⟨content, here⟩ := Snapshot.contains_eq_true.mp before
    obtain ⟨content', there⟩ := Snapshot.contains_eq_true.mp after
    exact Snapshot.contains_eq_true.mpr ⟨_, begun.contentOf?_between sound first second here there⟩
  · intro count changes content before after next nothing here there
    have settled := begun.settled_upTo sound count
    have soundNext : ∀ change ∈ changes,
        change.Sound (session.upTo batches count).document.root := by
      rw [begun.root_upTo sound count]
      exact sound changes (List.mem_of_getElem? next)
    obtain ⟨compared, advanced, -⟩ := apply_advanced settled soundNext
    rw [committed, session.upTo_succ next] at there
    exact advanced.contentOf?_of_nothingTaken settled
      (continues_apply (.refl settled.sound.tidy) fun _ _ _ => trivial) nothing here there
  · intro count early content id absent there order
    rw [← Bool.not_eq_true]
    intro present
    obtain ⟨content', before⟩ := Snapshot.contains_eq_true.mp present
    exact absent id (begun.contentOf?_between sound order (Nat.le_succ count) before there)

/-- A paragraph is moved out of its element; it goes; and it comes back. -/
def movingBatches : List (List Change) :=
  [[.removed ⟨2⟩, .inserted ⟨0⟩ 0 (.single ⟨2⟩ (.element "p"))], [.removed ⟨2⟩],
    [.inserted ⟨1⟩ 0 (.single ⟨2⟩ (.element "p"))]]

theorem run_keepsKeys_movingBatches :
    ∃ session, Session.start Document.nestedPage 4 true = .ok session ∧
      session.KeepsKeys movingBatches ∧
      (List.range 4).map (fun count => (session.committed movingBatches count).nodeFor? ⟨2⟩) =
        [some ⟨3, 1⟩, some ⟨3, 1⟩, none, some ⟨3, 3⟩] := by
  have distinct : Document.nestedPage.Distinct := by decide
  have sound : ∀ changes ∈ movingBatches, ∀ change ∈ changes,
      change.Sound Document.nestedPage.handle := by decide
  have keys : (Session.start Document.nestedPage 4 true).map (fun session =>
      (List.range 4).map fun count => (session.committed movingBatches count).nodeFor? ⟨2⟩) =
        .ok [some ⟨3, 1⟩, some ⟨3, 1⟩, none, some ⟨3, 3⟩] := by decide +kernel
  obtain ⟨session, -, -, -, -, starts, -⟩ := start_done distinct 4
  rw [starts] at keys
  exact ⟨_, starts true, run_keepsKeys distinct (starts true) sound, Except.ok.inj keys⟩

end Session

end Accessibility
