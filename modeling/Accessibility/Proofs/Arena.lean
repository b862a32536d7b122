import Accessibility.Arena
import Mathlib.Data.List.Nodup

/-!
Arenas hand out keys that are not in use: no two stored values share a slot, and no vacant slot is
in use or vacant twice.
-/

set_option autoImplicit false

namespace Accessibility.Arena

open Std

variable {α : Type}

/-- Whether a slot is that of a stored value. -/
def Occupied (arena : Arena α) (index : Nat) : Prop :=
  ∃ key value, arena.get? key = some value ∧ key.index = index

/-- Stored values have slots of their own, apart from the vacant ones, and all slots from some number
on were never used. -/
structure Tidy (arena : Arena α) : Prop where
  unique : ∀ {left right : Key} {value other : α}, arena.get? left = some value →
    arena.get? right = some other → left.index = right.index → left = right
  vacant_nodup : (arena.vacant.map Key.index).Nodup
  vacant_free : ∀ key ∈ arena.vacant, ¬ arena.Occupied key.index
  used : ∀ {key : Key} {value : α}, arena.get? key = some value → key.index < arena.fresh
  vacant_used : ∀ key ∈ arena.vacant, key.index < arena.fresh

theorem tidy_empty : (empty : Arena α).Tidy where
  unique := fun stored => by simp [get?_empty] at stored
  vacant_nodup := List.nodup_nil
  vacant_free := nofun
  used := fun stored => by simp [get?_empty] at stored
  vacant_used := nofun

theorem mem_toList {arena : Arena α} {key : Key} {value : α} :
    (key, value) ∈ arena.toList ↔ arena.get? key = some value := by
  rw [toList, ExtTreeMap.mem_toList_iff_getElem?_eq_some, get?]

theorem mem_keys {arena : Arena α} {key : Key} :
    key ∈ arena.entries.keys ↔ ∃ value, arena.get? key = some value := by
  rw [ExtTreeMap.mem_keys, ExtTreeMap.mem_iff_isSome_getElem?, Option.isSome_iff_exists]
  rfl

namespace Tidy

variable {arena : Arena α}

/-- The next key is not in use, nor is its slot. -/
theorem nextKey_free (tidy : arena.Tidy) : ¬ arena.Occupied arena.nextKey.index := by
  unfold nextKey
  cases waiting : arena.vacant with
  | nil =>
    rintro ⟨key, value, stored, same⟩
    exact absurd (tidy.used stored) (by rw [same]; exact Nat.lt_irrefl _)
  | cons key rest => exact tidy.vacant_free key (by rw [waiting]; exact List.mem_cons_self)

theorem get?_nextKey (tidy : arena.Tidy) : arena.get? arena.nextKey = none := by
  cases stored : arena.get? arena.nextKey with
  | none => rfl
  | some value => exact absurd ⟨_, value, stored, rfl⟩ tidy.nextKey_free

/-- What an arena with an insertion has is new or was there. -/
theorem nextKey_or_get?_of_insert {key : Key} {value other : α}
    (stored : (arena.insert value).get? key = some other) :
    arena.nextKey = key ∨ arena.get? key = some other := by
  rw [get?_insert] at stored
  split at stored
  · exact .inl ‹_›
  · exact .inr stored

theorem unique_insert (tidy : arena.Tidy) {value : α} {left right : Key} {first second : α}
    (storedLeft : (arena.insert value).get? left = some first)
    (storedRight : (arena.insert value).get? right = some second)
    (same : left.index = right.index) : left = right := by
  rcases nextKey_or_get?_of_insert storedLeft with rfl | storedLeft
  · rcases nextKey_or_get?_of_insert storedRight with rfl | storedRight
    · rfl
    · exact absurd ⟨right, second, storedRight, same.symm⟩ tidy.nextKey_free
  · rcases nextKey_or_get?_of_insert storedRight with rfl | storedRight
    · exact absurd ⟨left, first, storedLeft, same⟩ tidy.nextKey_free
    · exact tidy.unique storedLeft storedRight same

/-- A value gets a slot that was never used. -/
theorem insert_fresh (tidy : arena.Tidy) (value : α) (waiting : arena.vacant = []) :
    (arena.insert value).Tidy := by
  have next : arena.nextKey = ⟨arena.fresh, 1⟩ := by rw [nextKey, waiting]
  have vacant : (arena.insert value).vacant = [] := by
    unfold Arena.insert
    rw [waiting]
  have fresh : (arena.insert value).fresh = arena.fresh + 1 := by
    unfold Arena.insert
    rw [waiting]
  have idle {p : Key → Prop} : ∀ key ∈ (arena.insert value).vacant, p key := by
    intro key listed
    rw [vacant] at listed
    cases listed
  refine ⟨tidy.unique_insert, by rw [vacant]; exact List.nodup_nil, idle, ?_, idle⟩
  intro key other stored
  rw [fresh]
  rcases nextKey_or_get?_of_insert stored with rfl | stored
  · rw [next]
    exact Nat.lt_succ_self _
  · exact Nat.lt_succ_of_lt (tidy.used stored)

/-- A value gets the first slot that is vacant. -/
theorem insert_reused (tidy : arena.Tidy) (value : α) {first : Key} {rest : List Key}
    (waiting : arena.vacant = first :: rest) : (arena.insert value).Tidy := by
  have next : arena.nextKey = first := by rw [nextKey, waiting]
  have vacant : (arena.insert value).vacant = rest := by
    unfold Arena.insert
    rw [waiting]
  have fresh : (arena.insert value).fresh = arena.fresh := by
    unfold Arena.insert
    rw [waiting]
  have nodup := tidy.vacant_nodup
  rw [waiting, List.map_cons, List.nodup_cons] at nodup
  have listed {key : Key} (later : key ∈ rest) : key ∈ arena.vacant := by
    rw [waiting]
    exact List.mem_cons_of_mem _ later
  refine ⟨tidy.unique_insert, by rw [vacant]; exact nodup.2, ?_, ?_, ?_⟩
  · rw [vacant]
    rintro key later ⟨used, other, stored, same⟩
    rcases nextKey_or_get?_of_insert stored with rfl | stored
    · rw [next] at same
      exact nodup.1 (same ▸ List.mem_map_of_mem later)
    · exact tidy.vacant_free key (listed later) ⟨used, other, stored, same⟩
  · intro key other stored
    rw [fresh]
    rcases nextKey_or_get?_of_insert stored with rfl | stored
    · rw [next]
      exact tidy.vacant_used first (by rw [waiting]; exact List.mem_cons_self)
    · exact tidy.used stored
  · rw [vacant, fresh]
    exact fun key later => tidy.vacant_used key (listed later)

theorem insert (tidy : arena.Tidy) (value : α) : (arena.insert value).Tidy := by
  cases waiting : arena.vacant with
  | nil => exact tidy.insert_fresh value waiting
  | cons first rest => exact tidy.insert_reused value waiting

theorem modify (tidy : arena.Tidy) (key : Key) (change : α → α) :
    (arena.modify key change).Tidy := by
  have before {other : Key} {value : α} (stored : (arena.modify key change).get? other = some value) :
      ∃ old, arena.get? other = some old := by
    rw [get?_modify] at stored
    split at stored
    · rename_i same
      subst same
      obtain ⟨old, stored, -⟩ := Option.map_eq_some_iff.mp stored
      exact ⟨old, stored⟩
    · exact ⟨value, stored⟩
  refine ⟨?_, tidy.vacant_nodup, ?_, ?_, tidy.vacant_used⟩
  · intro left right value other storedLeft storedRight same
    obtain ⟨_, storedLeft⟩ := before storedLeft
    obtain ⟨_, storedRight⟩ := before storedRight
    exact tidy.unique storedLeft storedRight same
  · rintro vacant listed ⟨other, value, stored, same⟩
    obtain ⟨old, stored⟩ := before stored
    exact tidy.vacant_free vacant listed ⟨other, old, stored, same⟩
  · intro other value stored
    obtain ⟨_, stored⟩ := before stored
    exact tidy.used stored

theorem remove (tidy : arena.Tidy) (key : Key) : (arena.remove key).Tidy := by
  by_cases absent : arena.contains key = false
  · rw [Arena.remove, if_neg (by simp [absent])]
    exact tidy
  rw [Bool.not_eq_false] at absent
  have storedKey : ∃ value, arena.get? key = some value := by
    rw [contains, ExtTreeMap.contains_eq_isSome_getElem?, Option.isSome_iff_exists] at absent
    exact absent
  obtain ⟨value, storedKey⟩ := storedKey
  have before {other : Key} {found : α} (stored : (arena.remove key).get? other = some found) :
      key ≠ other ∧ arena.get? other = some found := by
    rw [get?_remove] at stored
    split at stored
    · cases stored
    · exact ⟨‹_›, stored⟩
  have vacant : (arena.remove key).vacant = key.next :: arena.vacant := by
    rw [Arena.remove, if_pos absent]
  have fresh : (arena.remove key).fresh = arena.fresh := by
    rw [Arena.remove, if_pos absent]
  refine ⟨?_, ?_, ?_, ?_, ?_⟩
  · intro left right value other storedLeft storedRight same
    exact tidy.unique (before storedLeft).2 (before storedRight).2 same
  · rw [vacant, List.map_cons, List.nodup_cons]
    refine ⟨?_, tidy.vacant_nodup⟩
    intro listed
    obtain ⟨other, listed, same⟩ := List.mem_map.mp listed
    exact tidy.vacant_free other listed ⟨key, value, storedKey, same.symm⟩
  · rw [vacant, List.forall_mem_cons]
    constructor
    · rintro ⟨other, found, stored, same⟩
      exact (before stored).1 (tidy.unique storedKey (before stored).2 same.symm)
    · rintro other listed ⟨used, found, stored, same⟩
      exact tidy.vacant_free other listed ⟨used, found, (before stored).2, same⟩
  · intro other found stored
    rw [fresh]
    exact tidy.used (before stored).2
  · rw [vacant, fresh, List.forall_mem_cons]
    have used := tidy.used storedKey
    exact ⟨used, tidy.vacant_used⟩

/-- Stored values stand in slot order. -/
theorem pairwise_keys (tidy : arena.Tidy) :
    arena.entries.keys.Pairwise fun left right => left.index < right.index := by
  refine ExtTreeMap.ordered_keys.imp_of_mem ?_
  intro left right listed listedRight before
  obtain ⟨value, stored⟩ := mem_keys.mp listed
  obtain ⟨other, storedRight⟩ := mem_keys.mp listedRight
  have lower : left.index < right.index ∨ left.index = right.index ∧ left.version < right.version := by
    have unfolded : compareLex (compareOn Key.index) (compareOn Key.version) left right = .lt := before
    simp only [compareLex, compareOn, Ordering.then_eq_lt, Nat.compare_eq_lt,
      Std.compare_eq_iff_eq] at unfolded
    exact unfolded
  rcases lower with lower | ⟨same, earlier⟩
  · exact lower
  · rw [tidy.unique stored storedRight same] at earlier
    exact absurd earlier (Nat.lt_irrefl _)

end Tidy

theorem size_eq_length (arena : Arena α) : arena.size = arena.entries.keys.length := by
  rw [size, ExtTreeMap.length_keys]

/-! ### Keys that were handed out -/

/-- Whether a key was handed out before: its slot has this tenant or a later one, or waits for a
later one. -/
def Issued (arena : Arena α) (key : Key) : Prop :=
  (∃ stored value, arena.get? stored = some value ∧ stored.index = key.index ∧
    key.version ≤ stored.version) ∨
  ∃ waiting ∈ arena.vacant, waiting.index = key.index ∧ key.version < waiting.version

variable {arena : Arena α} {key : Key}

theorem issued_of_get? {value : α} (stored : arena.get? key = some value) : arena.Issued key :=
  .inl ⟨key, value, stored, rfl, Nat.le_refl _⟩

/-- The key of the next value is a new one. -/
theorem Tidy.not_issued_nextKey (tidy : arena.Tidy) : ¬ arena.Issued arena.nextKey := by
  rintro (⟨stored, value, found, same, -⟩ | ⟨waiting, listed, same, later⟩)
  · exact tidy.nextKey_free ⟨stored, value, found, same⟩
  · cases vacant : arena.vacant with
    | nil =>
      rw [vacant] at listed
      cases listed
    | cons first rest =>
      rw [nextKey, vacant] at same later
      have distinct := tidy.vacant_nodup
      rw [vacant, List.map_cons, List.nodup_cons] at distinct
      rw [vacant, List.mem_cons] at listed
      rcases listed with rfl | listed
      · exact Nat.lt_irrefl _ later
      · exact distinct.1 (same ▸ List.mem_map_of_mem listed)

/-- The slot of a new value waited for it or was never used, so no key is forgotten. -/
theorem Issued.insert (issued : arena.Issued key) (tidy : arena.Tidy) (value : α) :
    (arena.insert value).Issued key := by
  rcases issued with ⟨stored, other, found, same, earlier⟩ | ⟨waiting, listed, same, later⟩
  · refine .inl ⟨stored, other, ?_, same, earlier⟩
    rw [get?_insert, if_neg, found]
    rintro rfl
    rw [tidy.get?_nextKey] at found
    cases found
  · cases vacant : arena.vacant with
    | nil =>
      rw [vacant] at listed
      cases listed
    | cons first rest =>
      rw [vacant, List.mem_cons] at listed
      rcases listed with rfl | listed
      · refine .inl ⟨waiting, value, ?_, same, Nat.le_of_lt later⟩
        rw [get?_insert, if_pos]
        rw [nextKey, vacant]
      · refine .inr ⟨waiting, ?_, same, later⟩
        unfold Arena.insert
        rw [vacant]
        exact listed

theorem Issued.modify (issued : arena.Issued key) (other : Key) (change : α → α) :
    (arena.modify other change).Issued key := by
  rcases issued with ⟨stored, value, found, same, earlier⟩ | waits
  · by_cases here : other = stored
    · subst here
      refine .inl ⟨other, change value, ?_, same, earlier⟩
      rw [get?_modify, if_pos rfl, found, Option.map_some]
    · refine .inl ⟨stored, value, ?_, same, earlier⟩
      rw [get?_modify, if_neg here, found]
  · exact .inr waits

/-- The slot of a removed value waits for a later tenant. -/
theorem Issued.remove (issued : arena.Issued key) (other : Key) :
    (arena.remove other).Issued key := by
  by_cases absent : arena.contains other = true
  · have vacant : (arena.remove other).vacant = other.next :: arena.vacant := by
      rw [Arena.remove, if_pos absent]
    rcases issued with ⟨stored, value, found, same, earlier⟩ | ⟨waiting, listed, same, later⟩
    · by_cases here : other = stored
      · subst here
        refine .inr ⟨other.next, ?_, same, ?_⟩
        · rw [vacant]
          exact List.mem_cons_self
        · exact Nat.lt_of_le_of_lt earlier (Nat.lt_add_of_pos_right Nat.two_pos)
      · refine .inl ⟨stored, value, ?_, same, earlier⟩
        rw [get?_remove, if_neg here, found]
    · refine .inr ⟨waiting, ?_, same, later⟩
      rw [vacant]
      exact List.mem_cons_of_mem _ listed
  · rw [Arena.remove, if_neg absent]
    exact issued

end Accessibility.Arena
