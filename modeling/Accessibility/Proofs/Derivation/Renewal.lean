import Accessibility.Proofs.Derivation.Renaming

/-!
Renewing only the stale relations. A relation that is not stale keeps its edges, and they are those
that would be derived if nothing that the relation is read from has changed.
-/

set_option autoImplicit false

namespace Accessibility

/-- With every relation the set holds its reverse. -/
def RelationSet.Closed (set : RelationSet) : Prop :=
  ∀ relation reverse : Relation, relation.reverse? = some reverse →
    set.contains reverse = set.contains relation

namespace RelationSet

theorem closed_none : none.Closed := by
  intro relation reverse _
  rw [contains_none, contains_none]

theorem closed_every : every.Closed := by
  intro relation reverse _
  rw [contains_every, contains_every]

theorem Closed.union {left right : RelationSet} (closedLeft : left.Closed)
    (closedRight : right.Closed) : (left.union right).Closed := by
  intro relation reverse paired
  rw [contains_union, contains_union, closedLeft _ _ paired, closedRight _ _ paired]

end RelationSet

namespace Derivation.Source

/-- All relations, derived from scratch. -/
def tables (source : Source) : Relation.Family Edges :=
  .ofFn source.table

/-- Whether a relation is renewed: it is stale itself, or its reverse is. -/
def isRenewed (stale : RelationSet) (relation : Relation) : Bool :=
  stale.contains relation || relation.reverse?.any stale.contains

theorem isRenewed_eq {stale : RelationSet} (closed : stale.Closed) (relation : Relation) :
    isRenewed stale relation = stale.contains relation := by
  rw [isRenewed]
  cases paired : relation.reverse? with
  | none => rw [Option.any_none, Bool.or_false]
  | some reverse => rw [Option.any_some, closed _ _ paired, Bool.or_self]

theorem get_renew (source : Source) (stale : RelationSet) (edges : Relation.Family Edges)
    (relation : Relation) :
    (source.renew stale edges).get relation =
      if isRenewed stale relation then source.table relation else edges.get relation := by
  have turned (left right : Relation) :
      (stale.contains left || stale.contains right) = (stale.contains right || stale.contains left) :=
    Bool.or_comm _ _
  cases relation <;>
    simp only [renew, Relation.Family.get, apply_ite Relation.Family.labelledBy,
      apply_ite Relation.Family.labelFor, apply_ite Relation.Family.memberOf,
      apply_ite Relation.Family.details, apply_ite Relation.Family.detailsFor,
      apply_ite Relation.Family.linksTo, ite_self, table, isRenewed, Relation.reverse?,
      Option.any_some, Option.any_none, Bool.or_false]
  · rfl
  · exact if_congr (by rw [turned]) rfl rfl
  · rfl
  · exact if_congr (by rw [turned]) rfl rfl

theorem renew_every (source : Source) (edges : Relation.Family Edges) :
    source.renew .every edges = source.tables := by
  refine Relation.Family.ext_get fun relation => ?_
  rw [get_renew, tables, Relation.Family.get_ofFn, if_pos]
  rw [isRenewed, RelationSet.contains_every, Bool.true_or]

/-- The edges of a relation are those of another source, if it cannot tell the two apart. -/
theorem table_eq {relation : Relation} {left right : Source}
    (same : Renamed id relation left right) : right.table relation = left.table relation := by
  refine Edges.ext_targets (occupied_table same.tree.soundRight relation)
    (occupied_table same.tree.soundLeft relation) fun key => ?_
  cases alive : left.tree.live key with
  | some node =>
    have targets := same.targets_table alive
    rwa [List.map_id] at targets
  | none =>
    have none {source : Source} (sound : source.tree.Sound) (dead : source.tree.live key = none) :
        (source.table relation).targets key = [] := by
      refine List.eq_nil_iff_forall_not_mem.mpr fun target listed => ?_
      obtain ⟨node, alive⟩ := live_of_targets sound listed
      rw [dead] at alive
      cases alive
    rw [none same.tree.soundLeft alive, none same.tree.soundRight ?_]
    rw [Option.eq_none_iff_forall_ne_some]
    intro node' alive'
    obtain ⟨other, node, aliveLeft, known⟩ := same.tree.onto alive'
    rw [show other = key from known, alive] at aliveLeft
    cases aliveLeft

/-- Carried over edges are as good as new ones. -/
theorem renew_eq {left right : Source} {stale : RelationSet}
    (same : ∀ relation, isRenewed stale relation = false → Renamed id relation left right) :
    right.renew stale left.tables = right.tables := by
  refine Relation.Family.ext_get fun relation => ?_
  rw [get_renew, tables, Relation.Family.get_ofFn, tables, Relation.Family.get_ofFn]
  split
  · rfl
  · rename_i fresh
    rw [Bool.not_eq_true] at fresh
    exact (table_eq (same relation fresh)).symm

end Derivation.Source

end Accessibility
