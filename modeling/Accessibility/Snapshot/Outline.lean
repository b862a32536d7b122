import Accessibility.Snapshot.Basic

/-!
The outline of a snapshot: one line for each node of the accessible tree, with its children below,
and on request its relations.
-/

set_option autoImplicit false

namespace Accessibility

namespace Outline

inductive Style where
  | ascii
  | unicode
  | compact
deriving DecidableEq, Repr

/-- The mark of a level above. -/
def Style.branch : Style → String
  | .ascii => "|"
  | .unicode => "│"
  | .compact => ""

/-- The mark of a child with further siblings. -/
def Style.corner : Style → String
  | .ascii => "+--"
  | .unicode => "├──"
  | .compact => "-"

/-- The mark of a last child. -/
def Style.last : Style → String
  | .ascii => "`--"
  | .unicode => "└──"
  | .compact => "-"

structure Options where
  style : Style
  ids : Bool
  roles : Bool
  relations : Bool
  /-- The depth below which nothing is shown. -/
  maxDepth : Option Nat
  indent : Nat
deriving DecidableEq, Repr

def Options.standard : Options :=
  ⟨.unicode, true, true, false, none, 2⟩

def Options.detailed : Options :=
  { Options.standard with relations := true }

def Options.minimal : Options :=
  { Options.standard with ids := false, roles := false, relations := false }

namespace Options

def shows (options : Options) (depth : Nat) : Bool :=
  options.maxDepth.all (depth ≤ ·)

/-- The marks of the levels above. -/
def margin (options : Options) (levels : Nat) : String :=
  String.join
    (List.replicate levels
      (options.style.branch ++ String.ofList (List.replicate options.indent ' ')))

/-- What stands before a node at a depth. -/
def lead (options : Options) (isLast : Bool) : (depth : Nat) → String
  | 0 => ""
  | above + 1 =>
    options.margin above ++ (if isLast then options.style.last else options.style.corner) ++ " "

def line (options : Options) (depth : Nat) (isLast : Bool) (id : NodeId) (info : NodeInfo) :
    String :=
  options.lead isLast depth
    ++ info.tag.getD info.role.name
    ++ (match info.domId with
      | some domId => "#" ++ domId
      | none => "")
    ++ (if options.ids then " [" ++ id.display ++ "]" else "")
    ++ (if options.roles then " (" ++ info.role.name ++ ")" else "")
    ++ "\n"

def relationLine (options : Options) (depth : Nat) (relation : Relation)
    (targets : List NodeId) : String :=
  options.margin depth ++ "  ." ++ relation.name ++ " -> ["
    ++ ", ".intercalate (targets.map NodeId.display) ++ "]\n"

end Options

end Outline

namespace Snapshot

open Outline

def relationLines (snapshot : Snapshot) (options : Options) (depth : Nat) (id : NodeId) : String :=
  if options.relations then
    String.join <| Relation.all.map fun relation =>
      match snapshot.targets relation id with
      | [] => ""
      | targets => options.relationLine depth relation targets
  else ""

/-- The lines of one node. -/
def block (snapshot : Snapshot) (options : Options) (depth : Nat) (isLast : Bool) (id : NodeId)
    (info : NodeInfo) : String :=
  options.line depth isLast id info ++ snapshot.relationLines options depth id

/-- Children each with the mark whether it is the last. -/
def withLast : List NodeId → List (NodeId × Bool)
  | [] => []
  | [last] => [(last, true)]
  | child :: rest => (child, false) :: withLast rest

/-- The lines of a node and those below it, at most `levels` levels of them. -/
def outlineBelow (snapshot : Snapshot) (options : Options) :
    (levels : Nat) → (depth : Nat) → (isLast : Bool) → NodeId → String
  | 0, _, _, _ => ""
  | levels + 1, depth, isLast, id =>
    if options.shows depth then
      match snapshot.get? id with
      | none => ""
      | some info =>
        snapshot.block options depth isLast id info
          ++ String.join ((withLast info.children).map fun (child, isLastChild) =>
            snapshot.outlineBelow options levels (depth + 1) isLastChild child)
    else ""

/-- How many levels there can be: those that are shown, and without a limit no more than there are
nodes. -/
def outlineLevels (snapshot : Snapshot) (options : Options) : Nat :=
  match options.maxDepth with
  | some depth => depth + 1
  | none => snapshot.size

def outline (snapshot : Snapshot) (options : Options) : String :=
  "Accessible Tree " ++ snapshot.version.text ++ " (" ++ toString snapshot.size ++ " nodes):\n"
    ++ match snapshot.root with
      | none => "  (empty)\n"
      | some root => snapshot.outlineBelow options (snapshot.outlineLevels options) 0 true root

end Snapshot

end Accessibility
