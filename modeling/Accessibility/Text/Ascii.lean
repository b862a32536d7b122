/-!
Text as markup compares it: only the letters `A` to `Z` have a lower case, and lists of words are
separated by the five ASCII blanks.
-/

set_option autoImplicit false

namespace Accessibility.Text

def lower (text : String) : String :=
  text.map Char.toLower

/-- Equality up to the case of ASCII letters. -/
def sameLetters (left right : String) : Bool :=
  lower left == lower right

/-- The blanks that separate words: space, tab, line feed, form feed, carriage return. A vertical
tab is none of them. -/
def isSeparator (c : Char) : Bool :=
  c == ' ' || c == '\t' || c == '\n' || c == '\x0c' || c == '\r'

/-- The pieces between separators, empty ones included; there is always at least one. -/
def pieces (separates : Char → Bool) : List Char → List (List Char)
  | [] => [[]]
  | c :: rest =>
    if separates c then [] :: pieces separates rest
    else
      match pieces separates rest with
      | [] => [[c]]
      | piece :: others => (c :: piece) :: others

/-- The words of a blank separated list, in order. -/
def words (text : String) : List String :=
  ((pieces isSeparator text.toList).filter (! ·.isEmpty)).map String.ofList

theorem pieces_ne_nil (separates : Char → Bool) (text : List Char) :
    pieces separates text ≠ [] := by
  cases text with
  | nil => simp [pieces]
  | cons c rest =>
    unfold pieces
    split
    · simp
    · split <;> simp

/-- No piece holds a separator. -/
theorem not_separates_of_mem_pieces {separates : Char → Bool} {text piece : List Char} {c : Char}
    (listed : piece ∈ pieces separates text) (inside : c ∈ piece) : separates c = false := by
  induction text generalizing piece with
  | nil => simp_all [pieces]
  | cons d rest ih =>
    unfold pieces at listed
    split at listed
    · rcases List.mem_cons.1 listed with rfl | listed
      · simp at inside
      · exact ih listed inside
    · rename_i letter
      split at listed
      · rename_i empty
        exact absurd empty (pieces_ne_nil separates rest)
      · rename_i first others same
        rcases List.mem_cons.1 listed with rfl | listed
        · rcases List.mem_cons.1 inside with rfl | inside
          · simpa using letter
          · exact ih (same ▸ List.mem_cons_self) inside
        · exact ih (same ▸ List.mem_cons_of_mem _ listed) inside

end Accessibility.Text
