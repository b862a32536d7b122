import Accessibility.Relation.Edges
import Mathlib.Data.List.Induction
import Mathlib.Data.List.Nodup

/-!
Edges told by the targets of every source. Where no source has an empty list of targets, the targets
determine the edges.
-/

set_option autoImplicit false

namespace Accessibility.Edges

open Std

/-- No source has an entry without targets. -/
def Occupied (edges : Edges) : Prop :=
  ∀ source : NodeId, edges[source]? ≠ some []

theorem occupied_empty : (∅ : Edges).Occupied := by
  intro source
  simp

theorem occupied_insert {edges : Edges} (occupied : edges.Occupied) (source : NodeId)
    {targets : List NodeId} (some : targets ≠ []) :
    Occupied (edges.insert source targets) := by
  intro other
  rw [ExtTreeMap.getElem?_insert]
  split
  · exact fun same => some (Option.some.inj same)
  · exact occupied other

theorem occupied_push {edges : Edges} (occupied : edges.Occupied) (source target : NodeId) :
    (edges.push source target).Occupied :=
  occupied_insert occupied source (List.append_ne_nil_of_right_ne_nil _ (List.cons_ne_nil _ _))

theorem getElem?_eq_some_iff {edges : Edges} (occupied : edges.Occupied) {source : NodeId}
    {targets : List NodeId} :
    edges[source]? = some targets ↔ targets ≠ [] ∧ edges.targets source = targets := by
  unfold Edges.targets
  cases entry : edges[source]? with
  | none =>
    rw [Option.getD_none]
    exact iff_of_false nofun fun both => both.1 both.2.symm
  | some others =>
    rw [Option.getD_some, Option.some.injEq]
    constructor
    · rintro rfl
      exact ⟨fun empty => occupied source (entry.trans (congrArg some empty)), rfl⟩
    · exact fun both => both.2

theorem getElem?_eq_none_iff {edges : Edges} (occupied : edges.Occupied) {source : NodeId} :
    edges[source]? = none ↔ edges.targets source = [] := by
  unfold Edges.targets
  cases entry : edges[source]? with
  | none => exact iff_of_true rfl rfl
  | some others =>
    rw [Option.getD_some]
    exact iff_of_false nofun fun empty => occupied source (entry.trans (congrArg some empty))

theorem ext_targets {left right : Edges} (occupiedLeft : left.Occupied)
    (occupiedRight : right.Occupied) (same : ∀ source, left.targets source = right.targets source) :
    left = right := by
  refine ExtTreeMap.ext_getElem? fun source => ?_
  ext targets
  rw [getElem?_eq_some_iff occupiedLeft, getElem?_eq_some_iff occupiedRight, same]

/-! ### Edges from some sources -/

theorem ofTargets_snoc (sources : List NodeId) (source : NodeId)
    (targetsOf : NodeId → List NodeId) :
    ofTargets (sources ++ [source]) targetsOf =
      if targetsOf source = [] then ofTargets sources targetsOf
      else (ofTargets sources targetsOf).insert source (targetsOf source) := by
  unfold ofTargets
  rw [List.foldl_append, List.foldl_cons, List.foldl_nil]
  cases given : targetsOf source with
  | nil => rw [if_pos rfl]
  | cons target others => rw [if_neg (List.cons_ne_nil target others)]

theorem targets_ofTargets (sources : List NodeId) (targetsOf : NodeId → List NodeId)
    (source : NodeId) :
    (ofTargets sources targetsOf).targets source =
      if source ∈ sources then targetsOf source else [] := by
  induction sources using List.reverseRecOn with
  | nil => exact targets_empty source
  | append_singleton sources last ih =>
    rw [ofTargets_snoc]
    simp only [List.mem_append, List.mem_singleton]
    by_cases here : source = last
    · subst here
      simp only [or_true, if_true]
      by_cases none : targetsOf source = []
      · rw [if_pos none, ih, none, ite_self]
      · rw [if_neg none, targets_insert, if_pos rfl]
    · simp only [here, or_false]
      by_cases none : targetsOf last = []
      · rw [if_pos none, ih]
      · rw [if_neg none, targets_insert, if_neg (Ne.symm here), ih]

theorem occupied_ofTargets (sources : List NodeId) (targetsOf : NodeId → List NodeId) :
    (ofTargets sources targetsOf).Occupied := by
  induction sources using List.reverseRecOn with
  | nil => exact occupied_empty
  | append_singleton sources last ih =>
    rw [ofTargets_snoc]
    split
    · exact ih
    · exact occupied_insert ih last ‹_›

/-! ### Edges entered one by one -/

section Entered

variable {κ : Type} (targetsOf : κ → List NodeId)

/-- The edges of some sources, each with a key that its targets are known by. -/
def ofKeys (pairs : List (NodeId × κ)) : Edges :=
  pairs.foldl (fun edges pair => edges.insert pair.1 (targetsOf pair.2)) ∅

theorem ofKeys_snoc (pairs : List (NodeId × κ)) (source : NodeId) (key : κ) :
    ofKeys targetsOf (pairs ++ [(source, key)]) =
      (ofKeys targetsOf pairs).insert source (targetsOf key) := by
  rw [ofKeys, List.foldl_append]
  rfl

theorem targets_ofKeys_of_not_mem {pairs : List (NodeId × κ)} {source : NodeId}
    (absent : source ∉ pairs.map Prod.fst) : (ofKeys targetsOf pairs).targets source = [] := by
  induction pairs using List.reverseRecOn with
  | nil => exact targets_empty source
  | append_singleton pairs last ih =>
    rw [List.map_append, List.mem_append, not_or] at absent
    rw [ofKeys_snoc, targets_insert, if_neg, ih absent.1]
    exact fun same => absent.2 (List.mem_singleton.mpr same.symm)

theorem targets_ofKeys_of_mem {pairs : List (NodeId × κ)} (distinct : (pairs.map Prod.fst).Nodup)
    {source : NodeId} {key : κ} (listed : (source, key) ∈ pairs) :
    (ofKeys targetsOf pairs).targets source = targetsOf key := by
  induction pairs using List.reverseRecOn with
  | nil => cases listed
  | append_singleton pairs last ih =>
    rw [List.map_append] at distinct
    obtain ⟨distinctPairs, -, apart⟩ := List.nodup_append.mp distinct
    rw [ofKeys_snoc, targets_insert]
    rcases List.mem_append.mp listed with earlier | here
    · rw [if_neg, ih distinctPairs earlier]
      exact fun same => apart source (List.mem_map.mpr ⟨_, earlier, rfl⟩) last.1 List.mem_cons_self
        same.symm
    · cases List.mem_singleton.mp here
      rw [if_pos rfl]

theorem occupied_ofKeys {pairs : List (NodeId × κ)} (some : ∀ pair ∈ pairs, targetsOf pair.2 ≠ []) :
    (ofKeys targetsOf pairs).Occupied := by
  induction pairs using List.reverseRecOn with
  | nil => exact occupied_empty
  | append_singleton pairs last ih =>
    rw [ofKeys_snoc]
    refine occupied_insert (ih fun pair listed => some pair (List.mem_append_left _ listed)) last.1 ?_
    exact some last (List.mem_append_right _ List.mem_cons_self)

end Entered

/-! ### Edges turned round -/

theorem targets_foldl_push (targets : List NodeId) (source : NodeId) (edges : Edges)
    (other : NodeId) :
    (targets.foldl (fun turned target => turned.push target source) edges).targets other =
      edges.targets other ++ List.replicate (targets.count other) source := by
  induction targets generalizing edges with
  | nil => simp
  | cons target rest ih =>
    rw [List.foldl_cons, ih, targets_push, List.count_cons]
    by_cases same : target = other
    · subst same
      simp only [if_true, beq_self_eq_true, List.append_assoc]
      rw [← List.replicate_one, List.replicate_append_replicate, Nat.add_comm]
    · rw [if_neg same, if_neg (by simpa using same), Nat.add_zero]

theorem targets_reversed (edges : Edges) (sources : List NodeId) (target : NodeId) :
    (edges.reversed sources).targets target =
      sources.flatMap fun source => List.replicate ((edges.targets source).count target) source := by
  have step (turned : Edges) :
      (sources.foldl
        (fun turned source =>
          (edges.targets source).foldl (fun turned target => turned.push target source) turned)
        turned).targets target =
      turned.targets target ++ sources.flatMap fun source =>
        List.replicate ((edges.targets source).count target) source := by
    induction sources generalizing turned with
    | nil => simp
    | cons source rest ih =>
      rw [List.foldl_cons, ih, targets_foldl_push, List.flatMap_cons, List.append_assoc]
  rw [reversed, step, targets_empty, List.nil_append]

/-- Where no target is listed twice, the edges turned round lead to the sources that list a node. -/
theorem targets_reversed_of_nodup {edges : Edges} (nodup : ∀ source, (edges.targets source).Nodup)
    (sources : List NodeId) (target : NodeId) :
    (edges.reversed sources).targets target =
      sources.filter fun source => (edges.targets source).contains target := by
  rw [targets_reversed]
  induction sources with
  | nil => rfl
  | cons source rest ih =>
    rw [List.flatMap_cons, ih, List.filter_cons]
    by_cases listed : target ∈ edges.targets source
    · rw [List.count_eq_one_of_mem (nodup source) listed, if_pos (List.contains_iff_mem.mpr listed)]
      rfl
    · rw [List.count_eq_zero_of_not_mem listed, if_neg (by simpa using listed)]
      rfl

theorem occupied_reversed (edges : Edges) (sources : List NodeId) :
    (edges.reversed sources).Occupied := by
  have pushes (source : NodeId) (targets : List NodeId) (turned : Edges) (occupied : turned.Occupied) :
      (targets.foldl (fun turned target => turned.push target source) turned).Occupied := by
    induction targets generalizing turned with
    | nil => exact occupied
    | cons target rest ih => exact ih _ (occupied_push occupied target source)
  have step (turned : Edges) (occupied : turned.Occupied) :
      (sources.foldl
        (fun turned source =>
          (edges.targets source).foldl (fun turned target => turned.push target source) turned)
        turned).Occupied := by
    induction sources generalizing turned with
    | nil => exact occupied
    | cons source rest ih => exact ih _ (pushes source _ turned occupied)
  exact step ∅ occupied_empty

end Accessibility.Edges
