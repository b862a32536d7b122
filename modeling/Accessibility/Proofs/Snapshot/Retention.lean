import Accessibility.Snapshot.History
import Mathlib.Data.List.Range

/-!
The history as a window over all versions ever committed. It ends with the last one and is as long as
its capacity allows, and each version in it is answered as it was committed, under its own number.
-/

set_option autoImplicit false

namespace Accessibility.History

/-- The history after some commits. -/
def commitAll (history : History) (snapshots : List Snapshot) : History :=
  snapshots.foldl commit history

/-- A version as it was committed. Version 0 is empty. -/
def versionAt (snapshots : List Snapshot) : Version → Snapshot
  | 0 => .empty
  | earlier + 1 => { snapshots[earlier]?.getD .empty with version := earlier + 1 }

@[simp] theorem version_versionAt (snapshots : List Snapshot) (version : Version) :
    (versionAt snapshots version).version = version := by
  cases version <;> rfl

/-- A further commit leaves the earlier versions as they are. -/
theorem versionAt_append {snapshots more : List Snapshot} {version : Nat}
    (known : version ≤ snapshots.length) :
    versionAt (snapshots ++ more) version = versionAt snapshots version := by
  cases version with
  | zero => rfl
  | succ earlier => rw [versionAt, versionAt, List.getElem?_append_left known]

theorem versionAt_last (snapshots : List Snapshot) (snapshot : Snapshot) :
    versionAt (snapshots ++ [snapshot]) (snapshots.length + 1) =
      { snapshot with version := snapshots.length + 1 } := by
  rw [versionAt, List.getElem?_concat_length, Option.getD_some]

/-! ### Windows -/

/-- All versions from one on, oldest first. -/
def window (snapshots : List Snapshot) (oldest : Nat) : List Snapshot :=
  (List.range' oldest (snapshots.length + 1 - oldest)).map (versionAt snapshots)

theorem length_window (snapshots : List Snapshot) (oldest : Nat) :
    (window snapshots oldest).length = snapshots.length + 1 - oldest := by
  rw [window, List.length_map, List.length_range']

theorem drop_window (snapshots : List Snapshot) (oldest passed : Nat) :
    (window snapshots oldest).drop passed = window snapshots (oldest + passed) := by
  rw [window, ← List.map_drop, List.drop_range', window, Nat.mul_one, Nat.sub_sub]

theorem getElem?_window {snapshots : List Snapshot} {oldest index : Nat}
    (known : oldest + index ≤ snapshots.length) :
    (window snapshots oldest)[index]? = some (versionAt snapshots (oldest + index)) := by
  rw [window, List.getElem?_map, List.getElem?_range' (by omega), Option.map_some, Nat.one_mul]

theorem window_append {snapshots : List Snapshot} {oldest : Nat} (snapshot : Snapshot)
    (known : oldest ≤ snapshots.length + 1) :
    window (snapshots ++ [snapshot]) oldest =
      window snapshots oldest ++ [{ snapshot with version := snapshots.length + 1 }] := by
  have longer : (snapshots ++ [snapshot]).length + 1 - oldest =
      snapshots.length + 1 - oldest + 1 := by
    rw [List.length_append, List.length_singleton]
    omega
  have last : oldest + 1 * (snapshots.length + 1 - oldest) = snapshots.length + 1 := by omega
  have before : (List.range' oldest (snapshots.length + 1 - oldest)).map
      (versionAt (snapshots ++ [snapshot])) = window snapshots oldest := by
    refine List.map_congr_left fun version listed => versionAt_append ?_
    have bound := (List.mem_range'_1.mp listed).2
    omega
  rw [window, longer, List.range'_concat, List.map_append, before, last, List.map_singleton,
    versionAt_last]

theorem find?_window (snapshots : List Snapshot) (oldest version : Nat) :
    (window snapshots oldest).find? (·.version == version) =
      if oldest ≤ version ∧ version ≤ snapshots.length then some (versionAt snapshots version)
      else none := by
  have numbered : ((·.version == version) ∘ versionAt snapshots) = (· == version) := by
    funext other
    rw [Function.comp_apply, version_versionAt]
  rw [window, List.find?_map, numbered]
  split
  · rename_i inside
    have found : (List.range' oldest (snapshots.length + 1 - oldest)).find? (· == version) =
        some version := by
      refine List.find?_range'_eq_some.mpr ⟨beq_self_eq_true version, ?_, fun other _ before => ?_⟩
      · rw [List.mem_range'_1]
        omega
      · rw [beq_false_of_ne (Nat.ne_of_lt before), Bool.not_false]
    rw [found, Option.map_some]
  · rename_i outside
    have missing : (List.range' oldest (snapshots.length + 1 - oldest)).find? (· == version) =
        none := by
      refine List.find?_eq_none.mpr fun other listed same => outside ?_
      rw [← eq_of_beq same]
      have bounds := List.mem_range'_1.mp listed
      omega
    rw [missing, Option.map_none]

/-! ### Commits -/

/-- A history whose retained versions are the last ones of all that were committed. -/
structure Keeps (history : History) (snapshots : List Snapshot) : Prop where
  positive : 0 < history.capacity
  retained : history.retained = window snapshots (snapshots.length + 1 - history.capacity)

namespace Keeps

variable {history : History} {snapshots : List Snapshot}

theorem current (keeps : history.Keeps snapshots) :
    history.current = versionAt snapshots snapshots.length := by
  have positive := keeps.positive
  have last : history.retained.getLast? = some history.current := List.getLast?_concat
  have end_ : snapshots.length + 1 - history.capacity +
      (snapshots.length + 1 - (snapshots.length + 1 - history.capacity) - 1) = snapshots.length := by
    omega
  rw [List.getLast?_eq_getElem?, keeps.retained, length_window, getElem?_window (by omega), end_,
    Option.some.injEq] at last
  exact last.symm

theorem version (keeps : history.Keeps snapshots) : history.version = snapshots.length := by
  rw [History.version, keeps.current, version_versionAt]

theorem oldest (keeps : history.Keeps snapshots) :
    history.oldest = snapshots.length + 1 - history.capacity := by
  have positive := keeps.positive
  have first : history.retained.head? =
      some (versionAt snapshots (snapshots.length + 1 - history.capacity)) := by
    rw [List.head?_eq_getElem?, keeps.retained, getElem?_window (by omega), Nat.add_zero]
  cases earlier : history.earlier with
  | nil =>
    rw [History.retained, earlier, List.nil_append, List.head?_cons, Option.some.injEq] at first
    rw [History.oldest, earlier, List.head?_nil, Option.map_none, Option.getD_none, History.version,
      first, version_versionAt]
  | cons snapshot rest =>
    rw [History.retained, earlier, List.cons_append, List.head?_cons, Option.some.injEq] at first
    rw [History.oldest, earlier, List.head?_cons, Option.map_some, Option.getD_some, first,
      version_versionAt]

theorem snapshotAt (keeps : history.Keeps snapshots) (version : Nat) :
    history.snapshotAt version =
      if snapshots.length + 1 - history.capacity ≤ version ∧ version ≤ snapshots.length then
        .ok (versionAt snapshots version)
      else .error (.versionUnavailable version (snapshots.length + 1 - history.capacity)
        snapshots.length) := by
  rw [History.snapshotAt, keeps.retained, find?_window, keeps.oldest, keeps.version]
  by_cases inside : snapshots.length + 1 - history.capacity ≤ version ∧ version ≤ snapshots.length
  · rw [if_pos inside, if_pos inside]
  · rw [if_neg inside, if_neg inside]

theorem query (keeps : history.Keeps snapshots) (relation : Relation) (id : NodeId) (version : Nat) :
    history.query relation id (some version) =
      if snapshots.length + 1 - history.capacity ≤ version ∧ version ≤ snapshots.length then
        (versionAt snapshots version).query relation id
      else .error (.versionUnavailable version (snapshots.length + 1 - history.capacity)
        snapshots.length) := by
  simp only [History.query, keeps.snapshotAt]
  by_cases inside : snapshots.length + 1 - history.capacity ≤ version ∧ version ≤ snapshots.length
  · rw [if_pos inside, if_pos inside]
  · rw [if_neg inside, if_neg inside]

/-- A commit moves the window on by one version, once it is full. -/
theorem commit (keeps : history.Keeps snapshots) (snapshot : Snapshot) :
    (history.commit snapshot).Keeps (snapshots ++ [snapshot]) := by
  have positive := keeps.positive
  refine ⟨positive, ?_⟩
  have passed : snapshots.length + 1 - history.capacity + (history.retained.length + 1 -
      history.capacity) = snapshots.length + 1 + 1 - history.capacity := by
    rw [keeps.retained, length_window]
    omega
  show history.retained.drop (history.retained.length + 1 - history.capacity) ++
      [{ snapshot with version := history.version + 1 }] =
    window (snapshots ++ [snapshot]) ((snapshots ++ [snapshot]).length + 1 - history.capacity)
  rw [List.length_append, List.length_singleton, window_append snapshot (by omega), ← passed,
    ← drop_window, ← keeps.retained, keeps.version]

end Keeps

theorem keeps_start (capacity : Nat) : (start capacity).Keeps [] := by
  have positive : 0 < max capacity 1 := by omega
  refine ⟨positive, ?_⟩
  have none : 1 - max capacity 1 = 0 := by omega
  show [Snapshot.empty] = window [] (1 - max capacity 1)
  rw [none]
  rfl

theorem Keeps.commitAll {history : History} {snapshots : List Snapshot}
    (keeps : history.Keeps snapshots) (more : List Snapshot) :
    (history.commitAll more).Keeps (snapshots ++ more) ∧
      (history.commitAll more).capacity = history.capacity := by
  induction more generalizing history snapshots with
  | nil =>
    rw [List.append_nil]
    exact ⟨keeps, rfl⟩
  | cons snapshot rest ih =>
    rw [← List.singleton_append, ← List.append_assoc]
    exact ih (keeps.commit snapshot)

theorem keeps_commitAll (capacity : Nat) (snapshots : List Snapshot) :
    ((start capacity).commitAll snapshots).Keeps snapshots ∧
      ((start capacity).commitAll snapshots).capacity = max capacity 1 :=
  (keeps_start capacity).commitAll snapshots

/-! ### Answers -/

/-- What a history answers after some commits: it is a window over their versions. -/
structure Answers (capacity : Nat) (snapshots : List Snapshot) (first : Nat) (history : History) :
    Prop where
  /-- Each commit made the next version. -/
  numbers : ∀ count ≤ snapshots.length,
    ((start capacity).commitAll (snapshots.take count)).version = count
  current : history.current = versionAt snapshots snapshots.length
  /-- The retained versions follow each other without a gap, each as it was committed. -/
  retained : history.retained =
    (List.range' first (snapshots.length + 1 - first)).map (versionAt snapshots)
  oldest : history.oldest = first
  snapshotAt : ∀ version, history.snapshotAt version =
    if first ≤ version ∧ version ≤ snapshots.length then .ok (versionAt snapshots version)
    else .error (.versionUnavailable version first snapshots.length)
  unavailable : ∀ relation id version, ¬ (first ≤ version ∧ version ≤ snapshots.length) →
    history.query relation id (some version) =
      .error (.versionUnavailable version first snapshots.length)
  query : ∀ relation id version, first ≤ version → version ≤ snapshots.length →
    history.query relation id (some version) = (versionAt snapshots version).query relation id
  /-- A node that the version does not have is unknown, even if another one has it. -/
  unknown : ∀ relation id version, first ≤ version → version ≤ snapshots.length →
    (versionAt snapshots version).contains id = false →
    history.query relation id (some version) = .error (.unknownNode id)
  /-- Without targets the relation decides between no answer and an empty one. -/
  known : ∀ relation id version, first ≤ version → version ≤ snapshots.length →
    (versionAt snapshots version).contains id = true →
    history.query relation id (some version) = .ok
      (match (versionAt snapshots version).targets relation id with
        | [] => if relation.absentWhenEmpty then none else some []
        | target :: more => some (target :: more))

/-- However many snapshots are committed and however few versions are retained, the history answers
from the last versions, and from each as it was committed. -/
theorem answers_commitAll (capacity : Nat) (snapshots : List Snapshot) :
    Answers capacity snapshots
      (snapshots.length + 1 - min (max capacity 1) (snapshots.length + 1))
      ((start capacity).commitAll snapshots) := by
  obtain ⟨keeps, bound⟩ := keeps_commitAll capacity snapshots
  have same : snapshots.length + 1 - ((start capacity).commitAll snapshots).capacity =
      snapshots.length + 1 - min (max capacity 1) (snapshots.length + 1) := by
    rw [bound]
    omega
  have snapshotAt := keeps.snapshotAt
  have query := keeps.query
  rw [same] at snapshotAt query
  exact {
    numbers := fun count known => by
      rw [(keeps_commitAll capacity (snapshots.take count)).1.version, List.length_take_of_le known]
    current := keeps.current
    retained := by rw [keeps.retained, same, window]
    oldest := by rw [keeps.oldest, same]
    snapshotAt := snapshotAt
    unavailable := fun relation id version outside => by rw [query, if_neg outside]
    query := fun relation id version lower upper => by rw [query, if_pos ⟨lower, upper⟩]
    unknown := fun relation id version lower upper absent => by
      rw [query, if_pos ⟨lower, upper⟩, Snapshot.query, absent, if_neg Bool.false_ne_true]
    known := fun relation id version lower upper present => by
      rw [query, if_pos ⟨lower, upper⟩, Snapshot.query, present, if_pos rfl]
      cases (versionAt snapshots version).targets relation id with
      | nil => rfl
      | cons target more => rfl }

end Accessibility.History
