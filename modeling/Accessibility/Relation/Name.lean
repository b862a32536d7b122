import Accessibility.Relation.Basic
import Accessibility.Text.Ascii
import Accessibility.Text.Blank

/-!
Reading the name of a relation. The constant spelling `RELATION_LABELLED_BY` is read as well as the
plain name, letters may have any case, and a hyphen stands for an underscore.
-/

set_option autoImplicit false

namespace Accessibility.Relation

/-- A text that names no relation. -/
structure UnknownName where
  text : String
deriving DecidableEq, Repr

def UnknownName.message (unknown : UnknownName) : String :=
  "Unknown relation kind '" ++ unknown.text ++ "'"

/-- The text without the copies of a stem that it starts with, at most `count` of them. -/
def dropCopies (stem : List Char) : (count : Nat) → List Char → List Char
  | 0, text => text
  | count + 1, text =>
    if stem.isPrefixOf text then dropCopies stem count (text.drop stem.length) else text

def upperStem : List Char := "RELATION_".toList

def lowerStem : List Char := "relation_".toList

def underscored (c : Char) : Char :=
  if c = '-' then '_' else c

/-- The text in the spelling of the names: without blanks at its ends and without leading stems,
first those in capitals and then those in small letters. -/
def normalName (text : String) : String :=
  let bare := Text.trimBlanks text.toList
  let upperless := dropCopies upperStem bare.length bare
  let stemless := dropCopies lowerStem upperless.length upperless
  String.ofList (stemless.map fun c => underscored c.toLower)

def ofText (text : String) : Except UnknownName Relation :=
  match all.find? (·.name == normalName text) with
  | some relation => .ok relation
  | none => .error ⟨text⟩

end Accessibility.Relation
