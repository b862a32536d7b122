import Std.Data.ExtTreeMap

/-!
An arena hands out keys for the values it stores. A slot is used again after its value is removed,
the slot freed last first, and each new tenant of a slot gets a higher version, so a key never
denotes two values.
-/

set_option autoImplicit false

namespace Accessibility

open Std

/-- A slot of an arena and the version of its tenant. -/
structure Key where
  index : Nat
  version : Nat
deriving DecidableEq, Repr

namespace Key

/-- Keys are ordered by slot. -/
instance : Ord Key :=
  ⟨compareLex (compareOn Key.index) (compareOn Key.version)⟩

instance : TransOrd Key :=
  inferInstanceAs (TransCmp (compareLex (compareOn Key.index) (compareOn Key.version)))

instance : LawfulEqOrd Key where
  eq_of_compare {a b} same := by
    have same : compareLex (compareOn Key.index) (compareOn Key.version) a b = .eq := same
    cases a
    cases b
    simp [compareLex, compareOn, Ordering.then_eq_eq] at same
    simp [same]

/-- Slot numbers fill one word of 32 bits of the raw form, and so do versions. -/
def wordSize : Nat := 4294967296

/-- The slot number that no arena hands out. -/
def nullIndex : Nat := wordSize - 1

/-- Both numbers in one: the version above, the slot below. -/
def toRaw (key : Key) : Nat :=
  key.version * wordSize + key.index

/-- Every raw number denotes a key: the versions of stored values are odd, and an even one is read
as the next odd one. -/
def ofRaw (raw : Nat) : Key :=
  ⟨raw % wordSize, raw / wordSize ||| 1⟩

/-- The key for the next tenant of the same slot. -/
def next (key : Key) : Key :=
  ⟨key.index, key.version + 2⟩

def text (key : Key) : String :=
  toString key.index ++ "v" ++ toString key.version

/-- The key under the name of its family, such as `NodeId(2v1)`. -/
def display (family : String) (key : Key) : String :=
  family ++ "(" ++ (if key.index = nullIndex then "null" else key.text) ++ ")"

end Key

/-- The accessible nodes are known by these keys. -/
abbrev NodeId := Key

/-- The connected listeners are known by these keys. -/
abbrev ListenerId := Key

def NodeId.display (id : NodeId) : String :=
  Key.display "NodeId" id

def ListenerId.display (id : ListenerId) : String :=
  Key.display "ListenerId" id

/-- Stored values, the keys that wait for a new tenant (freed last first), and the lowest slot that
was never used. -/
structure Arena (α : Type) where
  entries : ExtTreeMap Key α
  vacant : List Key
  fresh : Nat

namespace Arena

variable {α : Type}

def empty : Arena α :=
  ⟨∅, [], 1⟩

def get? (arena : Arena α) (key : Key) : Option α :=
  arena.entries[key]?

def contains (arena : Arena α) (key : Key) : Bool :=
  arena.entries.contains key

def size (arena : Arena α) : Nat :=
  arena.entries.size

/-- The stored values in slot order. -/
def toList (arena : Arena α) : List (Key × α) :=
  arena.entries.toList

/-- The key that the next insertion hands out. -/
def nextKey (arena : Arena α) : Key :=
  match arena.vacant with
  | key :: _ => key
  | [] => ⟨arena.fresh, 1⟩

def insert (arena : Arena α) (value : α) : Arena α :=
  match arena.vacant with
  | key :: rest => { arena with entries := arena.entries.insert key value, vacant := rest }
  | [] =>
    { arena with entries := arena.entries.insert ⟨arena.fresh, 1⟩ value, fresh := arena.fresh + 1 }

def remove (arena : Arena α) (key : Key) : Arena α :=
  if arena.contains key then
    { arena with entries := arena.entries.erase key, vacant := key.next :: arena.vacant }
  else arena

def modify (arena : Arena α) (key : Key) (change : α → α) : Arena α :=
  { arena with entries := arena.entries.modify key change }

theorem get?_empty (key : Key) : (empty : Arena α).get? key = none := by
  simp [empty, get?]

theorem get?_insert (arena : Arena α) (value : α) (key : Key) :
    (arena.insert value).get? key = if arena.nextKey = key then some value else arena.get? key := by
  cases h : arena.vacant <;> simp [insert, nextKey, get?, h, ExtTreeMap.getElem?_insert]

theorem get?_modify (arena : Arena α) (key other : Key) (change : α → α) :
    (arena.modify key change).get? other =
      if key = other then (arena.get? key).map change else arena.get? other := by
  simp [modify, get?, ExtTreeMap.getElem?_modify]

theorem get?_remove (arena : Arena α) (key other : Key) :
    (arena.remove key).get? other = if key = other then none else arena.get? other := by
  unfold remove
  split
  · simp [get?, ExtTreeMap.getElem?_erase]
  · rename_i absent
    split
    · rename_i same
      subst same
      simpa [get?, contains] using absent
    · rfl

end Arena

end Accessibility
