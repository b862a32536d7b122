/-!
The kinds of relation between accessible nodes, and families of values indexed by them.
-/

set_option autoImplicit false

namespace Accessibility

/-- A directed relation between accessible nodes. -/
inductive Relation where
  /-- From a node to those that label it. -/
  | labelledBy
  /-- From a label to the nodes that it labels. -/
  | labelFor
  /-- From a radio button to all members of its group, itself included. -/
  | memberOf
  /-- From a node to those that tell its details. -/
  | details
  /-- From a node to those whose details it tells. -/
  | detailsFor
  /-- From a link to its destination in the document. -/
  | linksTo
deriving DecidableEq, Repr

namespace Relation

def all : List Relation :=
  [labelledBy, labelFor, memberOf, details, detailsFor, linksTo]

theorem mem_all (relation : Relation) : relation ∈ all := by
  cases relation <;> decide

/-- The position in the list of all relations. -/
def index : Relation → Nat
  | labelledBy => 0
  | labelFor => 1
  | memberOf => 2
  | details => 3
  | detailsFor => 4
  | linksTo => 5

/-- The relation that holds the same edges turned round, if there is one. -/
def reverse? : Relation → Option Relation
  | labelledBy => some labelFor
  | labelFor => some labelledBy
  | details => some detailsFor
  | detailsFor => some details
  | memberOf => none
  | linksTo => none

theorem reverse?_reverse? {relation reverse : Relation}
    (paired : relation.reverse? = some reverse) :
    reverse.reverse? = some relation := by
  cases relation <;> simp_all [reverse?] <;> subst paired <;> rfl

/-- Whether an empty list of targets is reported as an absent relation. A node without details has
an empty list of them. -/
def absentWhenEmpty : Relation → Bool
  | details => false
  | detailsFor => false
  | _ => true

def name : Relation → String
  | labelledBy => "labelled_by"
  | labelFor => "label_for"
  | memberOf => "member_of"
  | details => "details"
  | detailsFor => "details_for"
  | linksTo => "links_to"

/-- One value for each relation. -/
structure Family (α : Type) where
  labelledBy : α
  labelFor : α
  memberOf : α
  details : α
  detailsFor : α
  linksTo : α
deriving DecidableEq, Repr

namespace Family

variable {α β : Type}

def get (family : Family α) : Relation → α
  | .labelledBy => family.labelledBy
  | .labelFor => family.labelFor
  | .memberOf => family.memberOf
  | .details => family.details
  | .detailsFor => family.detailsFor
  | .linksTo => family.linksTo

def ofFn (value : Relation → α) : Family α :=
  ⟨value .labelledBy, value .labelFor, value .memberOf, value .details, value .detailsFor,
    value .linksTo⟩

@[simp] theorem get_ofFn (value : Relation → α) (relation : Relation) :
    (ofFn value).get relation = value relation := by
  cases relation <;> rfl

theorem ext_get {left right : Family α}
    (same : ∀ relation, left.get relation = right.get relation) :
    left = right := by
  cases left
  cases right
  simpa [get] using
    ⟨same .labelledBy, same .labelFor, same .memberOf, same .details, same .detailsFor,
      same .linksTo⟩

end Family

end Relation

/-- A set of relations. -/
abbrev RelationSet := Relation.Family Bool

namespace RelationSet

def none : RelationSet :=
  .ofFn fun _ => false

def every : RelationSet :=
  .ofFn fun _ => true

def contains (set : RelationSet) (relation : Relation) : Bool :=
  set.get relation

def isEmpty (set : RelationSet) : Bool :=
  Relation.all.all (! set.contains ·)

/-- The members in the order of all relations. -/
def toList (set : RelationSet) : List Relation :=
  Relation.all.filter set.contains

def insert (set : RelationSet) (relation : Relation) : RelationSet :=
  .ofFn fun other => other == relation || set.contains other

/-- Adds a relation together with its reverse. -/
def insertPair (set : RelationSet) (relation : Relation) : RelationSet :=
  match relation.reverse? with
  | some reverse => (set.insert relation).insert reverse
  | Option.none => set.insert relation

def union (left right : RelationSet) : RelationSet :=
  .ofFn fun relation => left.contains relation || right.contains relation

/-- The set of exactly these relations. -/
def ofList (relations : List Relation) : RelationSet :=
  relations.foldl insert none

/-- The set of these relations and their reverses. -/
def ofPairs (relations : List Relation) : RelationSet :=
  relations.foldl insertPair none

@[simp] theorem contains_none (relation : Relation) : none.contains relation = false := by
  simp [none, contains]

@[simp] theorem contains_every (relation : Relation) : every.contains relation = true := by
  simp [every, contains]

@[simp] theorem contains_insert (set : RelationSet) (relation other : Relation) :
    (set.insert relation).contains other = (other == relation || set.contains other) := by
  simp [insert, contains]

@[simp] theorem contains_union (left right : RelationSet) (relation : Relation) :
    (left.union right).contains relation = (left.contains relation || right.contains relation) := by
  simp [union, contains]

theorem contains_insertPair (set : RelationSet) (relation other : Relation) :
    (set.insertPair relation).contains other =
      (other == relation || relation.reverse? == some other || set.contains other) := by
  unfold insertPair
  cases paired : relation.reverse? with
  | none => simp
  | some reverse =>
    have turned : (some reverse == some other) = (other == reverse) := by
      cases reverse <;> cases other <;> rfl
    simp only [contains_insert, turned]
    cases other == relation <;> cases other == reverse <;> simp

theorem mem_toList (set : RelationSet) (relation : Relation) :
    relation ∈ set.toList ↔ set.contains relation = true := by
  simp [toList, Relation.mem_all]

end RelationSet

end Accessibility
