import Accessibility.Snapshot.Notice

/-!
The history of snapshots: the current one and a bounded number of those before it. Each commit makes
the next version.
-/

set_option autoImplicit false

namespace Accessibility

/-- `earlier` holds the retained snapshots before the current one, oldest first; `capacity` bounds
how many are retained in all. -/
structure History where
  current : Snapshot
  earlier : List Snapshot
  capacity : Nat

namespace History

/-- A history of the empty snapshot. At least one snapshot is always retained. -/
def start (capacity : Nat) : History :=
  ⟨.empty, [], max capacity 1⟩

def retained (history : History) : List Snapshot :=
  history.earlier ++ [history.current]

def version (history : History) : Version :=
  history.current.version

def oldest (history : History) : Version :=
  ((history.earlier.head?).map Snapshot.version).getD history.version

/-- Makes a snapshot the current one, under the next version. -/
def commit (history : History) (snapshot : Snapshot) : History :=
  let passed := history.retained
  { history with
    current := { snapshot with version := history.version + 1 }
    earlier := passed.drop (passed.length + 1 - history.capacity) }

def snapshotAt (history : History) (version : Version) : Except Fault Snapshot :=
  match history.retained.find? (·.version == version) with
  | some snapshot => .ok snapshot
  | none => .error (.versionUnavailable version history.oldest history.version)

/-- The targets of a node in a retained version, the current one if none is named. -/
def query (history : History) (relation : Relation) (id : NodeId) (asOf : Option Version) :
    Except Fault (Option (List NodeId)) :=
  match asOf with
  | none => history.current.query relation id
  | some version =>
    match history.snapshotAt version with
    | .ok snapshot => snapshot.query relation id
    | .error fault => .error fault

/-- The current snapshot, once a version is committed. -/
def awaitVersion (history : History) (version : Version) : Except Fault Snapshot :=
  if version ≤ history.version then .ok history.current else .error .timedOut

/-- The notices that lead from one retained version to another. -/
def noticesBetween (history : History) (earlier later : Version) (among : RelationSet) :
    Except Fault (List Notice) := do
  let previous ← history.snapshotAt earlier
  let next ← history.snapshotAt later
  return previous.noticesTo next among

def describe (history : History) : String :=
  "RelationStore \x7b version: " ++ history.version.display
    ++ ", retained: " ++ toString history.capacity
    ++ ", history_len: " ++ toString history.retained.length ++ " \x7d"

end History

end Accessibility
