import Accessibility.Snapshot.Basic

/-!
What can be wrong with a snapshot: links that contradict each other, edges that lead out of it,
targets listed twice, edges without their reverse, and group members that disagree.
-/

set_option autoImplicit false

namespace Accessibility

inductive Violation where
  | asymmetric (relation : Relation) (source target : NodeId)
  | dangling (relation : Relation) (source target : NodeId)
  | duplicateTarget (relation : Relation) (source target : NodeId)
  | peerSetMismatch (node peer : NodeId)
  | treeMismatch (node : NodeId)
deriving DecidableEq, Repr

namespace Violation

def edgeMessage (relation : Relation) (source target : NodeId) (complaint : String) : String :=
  relation.name ++ " edge " ++ source.display ++ " -> " ++ target.display ++ complaint

def message : Violation → String
  | .asymmetric relation source target =>
    edgeMessage relation source target " has no reverse edge"
  | .dangling relation source target =>
    edgeMessage relation source target " references a node missing from the snapshot"
  | .duplicateTarget relation source target =>
    edgeMessage relation source target " is listed more than once"
  | .peerSetMismatch node peer =>
    "member_of peer sets of " ++ node.display ++ " and " ++ peer.display ++ " differ"
  | .treeMismatch node => "parent/child links of " ++ node.display ++ " are inconsistent"

end Violation

namespace Snapshot

/-- Whether a node is where it says: listed by its parent, or the root. -/
def isPlaced (snapshot : Snapshot) (id : NodeId) (info : NodeInfo) : Bool :=
  match info.parent with
  | some parent => (snapshot.get? parent).any (·.children.contains id)
  | none => snapshot.root == some id

def nodeViolations (snapshot : Snapshot) (id : NodeId) (info : NodeInfo) : List Violation :=
  let own := if snapshot.isPlaced id info then [] else [.treeMismatch id]
  let strays := info.children.filter fun child => !(snapshot.get? child).any (·.parent == some id)
  own ++ strays.map .treeMismatch

/-- What is wrong with one edge, given the targets that were listed before this one. Nothing more is
asked of an edge that leads out of the snapshot. -/
def edgeViolations (snapshot : Snapshot) (relation : Relation) (source : NodeId)
    (targets earlier : List NodeId) (target : NodeId) : List Violation :=
  if !snapshot.contains source || !snapshot.contains target then
    [.dangling relation source target]
  else
    let repeated :=
      if earlier.contains target then [Violation.duplicateTarget relation source target] else []
    let unreversed :=
      match relation.reverse? with
      | some reverse =>
        if (snapshot.targets reverse target).contains source then []
        else [Violation.asymmetric relation source target]
      | none => []
    let unequal :=
      if relation = .memberOf ∧ snapshot.targets .memberOf target ≠ targets then
        [Violation.peerSetMismatch source target]
      else []
    repeated ++ unreversed ++ unequal

def targetViolations (snapshot : Snapshot) (relation : Relation) (source : NodeId)
    (targets : List NodeId) (earlier : List NodeId) : (later : List NodeId) → List Violation
  | [] => []
  | target :: later =>
    snapshot.edgeViolations relation source targets earlier target
      ++ snapshot.targetViolations relation source targets (earlier ++ [target]) later

def sourceViolations (snapshot : Snapshot) (relation : Relation) (source : NodeId)
    (targets : List NodeId) : List Violation :=
  snapshot.targetViolations relation source targets [] targets
    ++ if relation = .memberOf ∧ source ∉ targets then [.peerSetMismatch source source] else []

/-- Everything that is wrong with a snapshot. -/
def violations (snapshot : Snapshot) : List Violation :=
  snapshot.nodes.toList.flatMap (fun (id, info) => snapshot.nodeViolations id info)
    ++ Relation.all.flatMap fun relation =>
      (snapshot.edges.get relation).toList.flatMap fun (source, targets) =>
        snapshot.sourceViolations relation source targets

end Snapshot

end Accessibility
