import Accessibility.Proofs.Change.Cancelling
import Mathlib.Data.List.Induction

/-!
The pairs of an insertion and the removal that undoes it, and what cancelling them one after the
other makes of the places. Records that follow later do not matter to a pair, so the places of a
list of records are those of its beginnings, each with one record more.
-/

set_option autoImplicit false

namespace Accessibility.Recorded

/-! ### Pairs -/

/-- The pair that a record closes, given the records before it in reverse. -/
def closedPair? (before : List Recorded) (recorded : Recorded) : Option (Nat × Nat) :=
  match recorded.change with
  | .removed node =>
    (openInsertion? node before).map fun distance => (before.length - 1 - distance, before.length)
  | _ => none

theorem transientPairs_cons (before : List Recorded) (recorded : Recorded) (rest : List Recorded) :
    transientPairs before (recorded :: rest) =
      (closedPair? before recorded).toList ++ transientPairs (recorded :: before) rest := by
  obtain ⟨change, previous⟩ := recorded
  cases change with
  | removed node =>
    simp only [transientPairs, closedPair?]
    cases openInsertion? node before <;> rfl
  | _ => rfl

theorem transientPairs_snoc (before rest : List Recorded) (recorded : Recorded) :
    transientPairs before (rest ++ [recorded]) =
      transientPairs before rest ++ (closedPair? (rest.reverse ++ before) recorded).toList := by
  induction rest generalizing before with
  | nil => simp [transientPairs_cons, transientPairs]
  | cons first rest ih =>
    rw [List.cons_append, transientPairs_cons, transientPairs_cons, ih, List.append_assoc,
      List.reverse_cons, List.append_assoc]
    rfl

/-- The record at some distance in a reversed list inserts a subtree with this topmost node. -/
def InsertsAt (node : Handle) (before : List Recorded) (distance : Nat) : Prop :=
  ∃ later parent index subtree previous earlier,
    before = later ++ ⟨.inserted parent index subtree, previous⟩ :: earlier ∧
      later.length = distance ∧ subtree.handle = node

theorem insertsAt_cons {node : Handle} {before : List Recorded} (recorded : Recorded)
    {found : Option Nat} {distance : Nat}
    (further : ∀ steps, found = some steps → InsertsAt node before steps)
    (reached : found.map (· + 1) = some distance) :
    InsertsAt node (recorded :: before) distance := by
  obtain ⟨steps, same, rfl⟩ := Option.map_eq_some_iff.mp reached
  obtain ⟨later, parent, index, subtree, previous, earlier, rfl, rfl, topmost⟩ := further steps same
  exact ⟨recorded :: later, parent, index, subtree, previous, earlier, rfl, rfl, topmost⟩

theorem insertsAt_of_openInsertion? {node : Handle} {before : List Recorded} {distance : Nat}
    (found : openInsertion? node before = some distance) : InsertsAt node before distance := by
  induction before generalizing distance with
  | nil => cases found
  | cons recorded rest ih =>
    obtain ⟨change, previous⟩ := recorded
    cases change with
    | inserted parent index subtree =>
      simp only [openInsertion?] at found
      split at found
      · rename_i same
        cases found
        exact ⟨[], parent, index, subtree, previous, rest, rfl, rfl, same⟩
      · exact insertsAt_cons _ (fun _ => ih) found
    | removed other =>
      simp only [openInsertion?] at found
      split at found
      · cases found
      · exact insertsAt_cons _ (fun _ => ih) found
    | _ => exact insertsAt_cons _ (fun _ => ih) found

/-- A closed pair names the insertion of a subtree and the removal of its topmost node. -/
theorem closedPair?_eq_some {records : List Recorded} {recorded : Recorded} {pair : Nat × Nat}
    (closed : closedPair? records.reverse recorded = some pair) :
    ∃ node previous first parent index subtree previous' between,
      recorded = ⟨.removed node, previous⟩ ∧
        records = first ++ ⟨.inserted parent index subtree, previous'⟩ :: between ∧
        subtree.handle = node ∧ pair = (first.length, records.length) := by
  obtain ⟨change, previous⟩ := recorded
  cases change with
  | removed node =>
    obtain ⟨distance, found, rfl⟩ := Option.map_eq_some_iff.mp closed
    obtain ⟨later, parent, index, subtree, previous', earlier, reversed, rfl, same⟩ :=
      insertsAt_of_openInsertion? found
    have records_eq : records =
        earlier.reverse ++ ⟨.inserted parent index subtree, previous'⟩ :: later.reverse := by
      rw [← List.reverse_reverse records, reversed]
      simp
    refine ⟨node, previous, earlier.reverse, parent, index, subtree, previous', later.reverse, rfl,
      records_eq, same, ?_⟩
    rw [List.length_reverse, records_eq]
    simp
  | _ => cases closed

/-- The two positions of a pair are in order and inside a list. -/
structure Spans (pair : Nat × Nat) (length : Nat) : Prop where
  ordered : pair.1 < pair.2
  inside : pair.2 < length

theorem spans_of_closedPair? {records : List Recorded} {recorded : Recorded} {pair : Nat × Nat}
    (closed : closedPair? records.reverse recorded = some pair) :
    Spans pair (records.length + 1) := by
  obtain ⟨_, _, first, _, _, _, _, between, -, rfl, -, rfl⟩ := closedPair?_eq_some closed
  exact ⟨by simp, Nat.lt_succ_self _⟩

theorem spans_of_mem_transientPairs {records : List Recorded} {pair : Nat × Nat}
    (listed : pair ∈ transientPairs [] records) : Spans pair records.length := by
  induction records using List.reverseRecOn with
  | nil => cases listed
  | append_singleton records recorded ih =>
    rw [transientPairs_snoc, List.append_nil, List.mem_append, Option.mem_toList] at listed
    rw [List.length_append, List.length_singleton]
    rcases listed with earlier | closed
    · exact ⟨(ih earlier).ordered, Nat.lt_succ_of_lt (ih earlier).inside⟩
    · exact spans_of_closedPair? closed

/-! ### Cancelling a pair -/

/-- The values strictly between the positions of a pair. -/
def inBetween {α : Type} (pair : Nat × Nat) (values : List α) : List α :=
  (values.drop (pair.1 + 1)).take (pair.2 - (pair.1 + 1))

/-- Whether a pair is cancelled at some places. -/
def cancels (places : List Place) (pair : Nat × Nat) : Bool :=
  match places[pair.1]? with
  | some (some ⟨.inserted parent _ _, _⟩) => !(inBetween pair places).any (insertsUnder parent)
  | _ => false

theorem cancel_of_not_cancels {places : List Place} {pair : Nat × Nat}
    (kept : cancels places pair = false) : cancel places pair = places := by
  unfold cancels at kept
  unfold cancel
  rcases standing : places[pair.1]? with _ | _ | ⟨change, previous⟩
  · rfl
  · rfl
  · rw [standing] at kept
    cases change with
    | inserted parent index subtree => exact if_pos (by simpa [inBetween] using kept)
    | _ => rfl

theorem exists_of_cancels {places : List Place} {pair : Nat × Nat}
    (cancelled : cancels places pair = true) :
    ∃ parent index subtree previous,
      places[pair.1]? = some (some ⟨.inserted parent index subtree, previous⟩) ∧
        (inBetween pair places).any (insertsUnder parent) = false ∧
        cancel places pair =
          places.take pair.1 ++ none :: clear subtree.handles (inBetween pair places)
            ++ none :: places.drop (pair.2 + 1) := by
  unfold cancels at cancelled
  split at cancelled
  · rename_i parent index subtree previous standing
    have beside : (inBetween pair places).any (insertsUnder parent) = false := by
      simpa using cancelled
    refine ⟨parent, index, subtree, previous, standing, beside, ?_⟩
    unfold cancel
    rw [standing]
    exact if_neg (by rw [← inBetween, beside]; simp)
  · cases cancelled

section Append

variable {pair : Nat × Nat}

theorem take_through {α : Type} (first : List α) (value : α) (rest : List α) :
    (first ++ value :: rest).take (first.length + 1) = first ++ [value] := by
  rw [List.append_cons]
  exact List.take_left' List.length_append

theorem drop_through {α : Type} (first : List α) (value : α) (rest : List α) :
    (first ++ value :: rest).drop (first.length + 1) = rest := by
  rw [List.append_cons]
  exact List.drop_left' List.length_append

theorem inBetween_append {α : Type} {values : List α} (spans : Spans pair values.length)
    (more : List α) : inBetween pair (values ++ more) = inBetween pair values := by
  have ordered := spans.ordered
  have inside := spans.inside
  rw [inBetween, inBetween, List.drop_append_of_le_length (by omega),
    List.take_append_of_le_length (by rw [List.length_drop]; omega)]

/-- Up to the end of a list, the values between are all those behind the first position. -/
theorem inBetween_end {α : Type} {values : List α} {start : Nat} (inside : start < values.length)
    (more : List α) : inBetween (start, values.length) (values ++ more) = values.drop (start + 1) := by
  have length := List.length_drop (i := start + 1) (l := values)
  rw [inBetween, List.drop_append_of_le_length inside,
    List.take_append_of_le_length (Nat.le_of_eq length.symm),
    List.take_of_length_le (Nat.le_of_eq length)]

theorem cancels_append {places : List Place} (spans : Spans pair places.length)
    (more : List Place) : cancels (places ++ more) pair = cancels places pair := by
  have ordered := spans.ordered
  have inside := spans.inside
  rw [cancels, cancels, List.getElem?_append_left (by omega), inBetween_append spans]

theorem cancel_append {places : List Place} (spans : Spans pair places.length)
    (more : List Place) : cancel (places ++ more) pair = cancel places pair ++ more := by
  have ordered := spans.ordered
  have inside := spans.inside
  by_cases cancelled : cancels places pair = true
  · obtain ⟨parent, index, subtree, previous, standing, -, equal⟩ := exists_of_cancels cancelled
    obtain ⟨_, _, _, _, standing', -, equal'⟩ :=
      exists_of_cancels ((cancels_append spans more).trans cancelled)
    rw [List.getElem?_append_left (by omega), standing] at standing'
    cases standing'
    rw [equal, equal', inBetween_append spans, List.take_append_of_le_length (by omega),
      List.drop_append_of_le_length (by omega)]
    simp only [List.append_assoc, List.cons_append]
  · rw [Bool.not_eq_true] at cancelled
    rw [cancel_of_not_cancels cancelled,
      cancel_of_not_cancels ((cancels_append spans more).trans cancelled)]

theorem length_clear (handles : List Handle) (places : List Place) :
    (clear handles places).length = places.length := by
  induction places generalizing handles with
  | nil => rfl
  | cons place rest ih =>
    obtain ⟨place', handles', -, steps⟩ := clear_cons handles place
    rw [(steps rest).1]
    exact congrArg Nat.succ (ih handles')

theorem length_cancel {places : List Place} (spans : Spans pair places.length) :
    (cancel places pair).length = places.length := by
  have ordered := spans.ordered
  have inside := spans.inside
  by_cases cancelled : cancels places pair = true
  · obtain ⟨_, _, subtree, _, _, -, equal⟩ := exists_of_cancels cancelled
    rw [equal]
    simp only [List.length_append, List.length_cons, length_clear, List.length_take, inBetween,
      List.length_drop]
    omega
  · rw [cancel_of_not_cancels (by simpa using cancelled)]

end Append

/-! ### Cancelling all pairs -/

/-- The places of some records once all their pairs are dealt with. -/
def settledPlaces (records : List Recorded) : List Place :=
  (transientPairs [] records).foldl cancel (records.map some)

/-- Those of some pairs that are cancelled when they are dealt with in turn. -/
def cancelledAmong (places : List Place) : List (Nat × Nat) → List (Nat × Nat)
  | [] => []
  | pair :: rest =>
    let others := cancelledAmong (cancel places pair) rest
    if cancels places pair then pair :: others else others

/-- The pairs of an insertion and a removal that are cancelled. -/
def cancelledPairs (records : List Recorded) : List (Nat × Nat) :=
  cancelledAmong (records.map some) (transientPairs [] records)

theorem cancelTransient_eq (records : List Recorded) :
    cancelTransient records = standing (settledPlaces records) :=
  rfl

theorem foldl_cancel_append {pairs : List (Nat × Nat)} {places : List Place}
    (spans : ∀ pair ∈ pairs, Spans pair places.length) (more : List Place) :
    pairs.foldl cancel (places ++ more) = pairs.foldl cancel places ++ more := by
  induction pairs generalizing places with
  | nil => rfl
  | cons pair rest ih =>
    rw [List.forall_mem_cons] at spans
    rw [List.foldl_cons, List.foldl_cons, cancel_append spans.1, ih]
    intro other listed
    rw [length_cancel spans.1]
    exact spans.2 other listed

theorem cancelledAmong_append_places {pairs : List (Nat × Nat)} {places : List Place}
    (spans : ∀ pair ∈ pairs, Spans pair places.length) (more : List Place) :
    cancelledAmong (places ++ more) pairs = cancelledAmong places pairs := by
  induction pairs generalizing places with
  | nil => rfl
  | cons pair rest ih =>
    rw [List.forall_mem_cons] at spans
    rw [cancelledAmong, cancelledAmong, cancel_append spans.1, cancels_append spans.1, ih]
    intro other listed
    rw [length_cancel spans.1]
    exact spans.2 other listed

theorem cancelledAmong_append (places : List Place) (first second : List (Nat × Nat)) :
    cancelledAmong places (first ++ second) =
      cancelledAmong places first ++ cancelledAmong (first.foldl cancel places) second := by
  induction first generalizing places with
  | nil => rfl
  | cons pair rest ih =>
    rw [List.cons_append, cancelledAmong, cancelledAmong, ih, List.foldl_cons]
    split <;> rfl

theorem spans_map_some (records : List Recorded) :
    ∀ pair ∈ transientPairs [] records, Spans pair (records.map some).length := by
  intro pair listed
  rw [List.length_map]
  exact spans_of_mem_transientPairs listed

/-- The places of one record more: it is added, and the pair that it closes is dealt with. -/
theorem settledPlaces_snoc (records : List Recorded) (recorded : Recorded) :
    settledPlaces (records ++ [recorded]) =
      (closedPair? records.reverse recorded).toList.foldl cancel
        (settledPlaces records ++ [some recorded]) := by
  rw [settledPlaces, transientPairs_snoc, List.append_nil, List.map_append, List.foldl_append,
    foldl_cancel_append (spans_map_some records)]
  rfl

theorem cancelledPairs_snoc (records : List Recorded) (recorded : Recorded) :
    cancelledPairs (records ++ [recorded]) =
      cancelledPairs records ++
        cancelledAmong (settledPlaces records ++ [some recorded])
          (closedPair? records.reverse recorded).toList := by
  rw [cancelledPairs, transientPairs_snoc, List.append_nil, List.map_append, cancelledAmong_append,
    cancelledAmong_append_places (spans_map_some records), List.map_singleton,
    foldl_cancel_append (spans_map_some records)]
  rfl

end Accessibility.Recorded
