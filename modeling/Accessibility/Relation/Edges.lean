import Accessibility.Arena
import Accessibility.Relation.Basic

/-!
The edges of one relation: for each source the list of its targets. A source without an entry has
no targets.
-/

set_option autoImplicit false

namespace Accessibility

open Std

abbrev Edges := ExtTreeMap NodeId (List NodeId)

namespace Edges

def targets (edges : Edges) (source : NodeId) : List NodeId :=
  edges[source]?.getD []

/-- Adds a target at the end of the list of a source. -/
def push (edges : Edges) (source target : NodeId) : Edges :=
  edges.insert source (edges.targets source ++ [target])

/-- The number of edges. -/
def count (edges : Edges) : Nat :=
  (edges.toList.flatMap Prod.snd).length

/-- The edges from some sources, where a source without targets gets no entry. -/
def ofTargets (sources : List NodeId) (targetsOf : NodeId → List NodeId) : Edges :=
  sources.foldl
    (fun edges source =>
      match targetsOf source with
      | [] => edges
      | targets => edges.insert source targets)
    ∅

/-- The edges turned round. Sources are taken in the given order, so that is the order of every
list of targets. -/
def reversed (edges : Edges) (sources : List NodeId) : Edges :=
  sources.foldl
    (fun turned source =>
      (edges.targets source).foldl (fun turned target => turned.push target source) turned)
    ∅

theorem targets_empty (source : NodeId) : (∅ : Edges).targets source = [] := by
  simp [targets]

theorem targets_insert (edges : Edges) (source other : NodeId) (list : List NodeId) :
    targets (edges.insert source list) other =
      if source = other then list else edges.targets other := by
  unfold targets
  rw [ExtTreeMap.getElem?_insert]
  by_cases same : source = other <;> simp [same]

theorem targets_push (edges : Edges) (source target other : NodeId) :
    (edges.push source target).targets other =
      if source = other then edges.targets other ++ [target] else edges.targets other := by
  unfold push
  rw [targets_insert]
  by_cases same : source = other <;> simp [same]

end Edges

end Accessibility
