import Accessibility.Change.Basic

/-!
Turning the reports of one update cycle into changes that lead to the same document in fewer steps.

Three passes follow each other. The first cancels subtrees that were inserted and removed again
within the cycle, with the changes made to them meanwhile. The second drops changes to nodes that
are gone at the end. The third keeps, of several changes of one datum, only the last, and not even
that one if it restores the value from before. A node that was removed or inserted in between is
not the same to the third pass, so changes never merge across such an event.
-/

set_option autoImplicit false

namespace Accessibility

/-- A change with the value that its attribute had before. -/
structure Recorded where
  change : Change
  previous : Option String
deriving DecidableEq

namespace Recorded

/-- Attribute reports that change nothing are left out, and attribute names are lower-cased. -/
def ofReports (reports : List Report) : List Recorded :=
  (reports.filter (! ·.isIdle)).map fun report => ⟨report.change, report.previous⟩

/-! ### Transient subtrees -/

/-- A place in the list of a cycle, empty once its change is cancelled. -/
abbrev Place := Option Recorded

/-- How many places before the end of a reversed prefix the subtree of a handle was inserted, if no
removal of the handle followed. -/
def openInsertion? (handle : Handle) : (before : List Recorded) → Option Nat
  | [] => none
  | recorded :: before =>
    match recorded.change with
    | .inserted _ _ subtree =>
      if subtree.handle = handle then some 0 else (openInsertion? handle before).map (· + 1)
    | .removed node => if node = handle then none else (openInsertion? handle before).map (· + 1)
    | _ => (openInsertion? handle before).map (· + 1)

/-- The positions of each insertion and the removal that undoes it, in the order of removals. -/
def transientPairs (before : List Recorded) : (rest : List Recorded) → List (Nat × Nat)
  | [] => []
  | recorded :: rest =>
    let others := transientPairs (recorded :: before) rest
    match recorded.change with
    | .removed node =>
      match openInsertion? node before with
      | some distance => (before.length - 1 - distance, before.length) :: others
      | none => others
    | _ => others

/-- Whether a place inserts under a parent. -/
def insertsUnder (parent : Handle) : Place → Bool
  | some ⟨.inserted other _ _, _⟩ => other == parent
  | _ => false

/-- Cancels what happens inside a transient subtree, given its handles. What is inserted below one
of them joins the subtree; what is inserted elsewhere leaves it, and later changes to it stand. -/
def clear (handles : List Handle) : List Place → List Place
  | [] => []
  | none :: rest => none :: clear handles rest
  | some recorded :: rest =>
    match recorded.change with
    | .inserted parent _ subtree =>
      if handles.contains parent then none :: clear (handles ++ subtree.handles) rest
      else some recorded :: clear (handles.filter (! subtree.mentions ·)) rest
    | .removed _ => some recorded :: clear handles rest
    | change =>
      if change.target?.any handles.contains then none :: clear handles rest
      else some recorded :: clear handles rest

/-- Cancels an insertion and its removal. The pair stays if something else is inserted under the
same parent in between, because the positions of later siblings count the transient node. -/
def cancel (places : List Place) (pair : Nat × Nat) : List Place :=
  match places[pair.1]? with
  | some (some ⟨.inserted parent _ subtree, _⟩) =>
    let between := (places.drop (pair.1 + 1)).take (pair.2 - (pair.1 + 1))
    if between.any (insertsUnder parent) then places
    else
      places.take pair.1 ++ none :: clear subtree.handles between
        ++ none :: places.drop (pair.2 + 1)
  | _ => places

def cancelTransient (records : List Recorded) : List Recorded :=
  ((transientPairs [] records).foldl cancel (records.map some)).filterMap id

/-! ### Nodes that are gone at the end -/

/-- Whether a node is removed in the course of a list and not inserted afterwards. -/
def endsRemoved (handle : Handle) (records : List Recorded) : Bool :=
  records.foldl
    (fun gone recorded =>
      match recorded.change with
      | .removed node => gone || node == handle
      | .inserted _ _ subtree => gone && !subtree.mentions handle
      | _ => gone)
    false

def dropRemoved : List Recorded → List Recorded
  | [] => []
  | recorded :: rest =>
    if recorded.change.target?.any (endsRemoved · rest) then dropRemoved rest
    else recorded :: dropRemoved rest

/-! ### Repeated changes -/

/-- Whether a later change sets the same datum of a node before the node is relocated. -/
def isSuperseded (change : Change) (handle : Handle) : (rest : List Recorded) → Bool
  | [] => false
  | recorded :: rest =>
    if recorded.change.relocates handle then false
    else if change.sameDatum recorded.change then true
    else isSuperseded change handle rest

/-- The value of an attribute before the first of the changes of it that lead up to a change, since
the node was last relocated. The prefix is given in reverse. -/
def firstPrevious (change : Change) (handle : Handle) (own : Option String) :
    (before : List Recorded) → Option String
  | [] => own
  | recorded :: before =>
    if recorded.change.relocates handle then own
    else if change.sameDatum recorded.change then
      firstPrevious change handle recorded.previous before
    else firstPrevious change handle own before

/-- Whether a change between a reversed prefix and the rest of its list is to be kept. -/
def isNeeded (before : List Recorded) (recorded : Recorded) (rest : List Recorded) : Bool :=
  match recorded.change.target? with
  | none => true
  | some handle =>
    !isSuperseded recorded.change handle rest
      && !recorded.change.setsTo (firstPrevious recorded.change handle recorded.previous before)

def coalesceAfter (before : List Recorded) : (rest : List Recorded) → List Recorded
  | [] => []
  | recorded :: rest =>
    let others := coalesceAfter (recorded :: before) rest
    if isNeeded before recorded rest then recorded :: others else others

def coalesce (records : List Recorded) : List Recorded :=
  coalesceAfter [] records

end Recorded

/-- The changes that the reports of one cycle come to. -/
def Report.normalize (reports : List Report) : List Change :=
  (Recorded.coalesce
    (Recorded.dropRemoved (Recorded.cancelTransient (Recorded.ofReports reports)))).map
      Recorded.change

end Accessibility
