import Accessibility.Proofs.Lists
import Accessibility.Relation.Name
import Mathlib.Data.List.TakeWhile

/-!
The texts that name a relation, told by a grammar. Stems are dropped as long as the text begins with
them, those in capitals before those in small letters, and the case of letters is looked at only
afterwards; so a stem in mixed case, or one in capitals behind one in small letters, is part of the
word. No name begins with a stem, so there is one way only to read a text.
-/

set_option autoImplicit false

namespace Accessibility

namespace Text

/-- What stands between the blanks at both ends of a text. -/
structure IsCore (text core : List Char) : Prop where
  inside : ∃ front back, text = front ++ core ++ back ∧ (∀ c ∈ front, isBlank c = true) ∧
    ∀ c ∈ back, isBlank c = true
  first : ∀ c, core.head? = some c → isBlank c = false
  last : ∀ c, core.getLast? = some c → isBlank c = false

theorem dropWhile_isBlank_append {front rest : List Char} (blank : ∀ c ∈ front, isBlank c = true)
    (begins : ∀ c, rest.head? = some c → isBlank c = false) :
    (front ++ rest).dropWhile isBlank = rest := by
  rw [List.dropWhile_append_of_pos blank]
  cases rest with
  | nil => rfl
  | cons c rest => exact List.dropWhile_cons_of_neg (by simp [begins c rfl])

theorem IsCore.trimBlanks_eq {text core : List Char} (isCore : IsCore text core) :
    trimBlanks text = core := by
  obtain ⟨front, back, rfl, blankFront, blankBack⟩ := isCore.inside
  by_cases empty : core = []
  · subst empty
    have blank : ∀ c ∈ front ++ [] ++ back, isBlank c = true := by
      simp only [List.append_nil, List.mem_append]
      exact fun c listed => listed.elim (blankFront c) (blankBack c)
    have nothing : (front ++ [] ++ back).dropWhile isBlank = [] := List.dropWhile_eq_nil_iff.mpr blank
    simp only [trimBlanks, nothing, List.reverse_nil, List.dropWhile_nil]
  · have begins : ∀ c, (core ++ back).head? = some c → isBlank c = false := by
      intro c first
      rw [List.head?_append_of_ne_nil _ empty] at first
      exact isCore.first c first
    have ends : ∀ c, core.reverse.head? = some c → isBlank c = false := by
      intro c last
      rw [List.head?_reverse] at last
      exact isCore.last c last
    rw [trimBlanks, List.append_assoc, dropWhile_isBlank_append blankFront begins,
      List.reverse_append, dropWhile_isBlank_append (by simpa using blankBack) ends,
      List.reverse_reverse]

theorem isCore_trimBlanks (text : List Char) : IsCore text (trimBlanks text) := by
  let bare := text.dropWhile isBlank
  have whole : text = text.takeWhile isBlank ++ bare := (List.takeWhile_append_dropWhile).symm
  have core : bare = trimBlanks text ++ (bare.reverse.takeWhile isBlank).reverse := by
    rw [trimBlanks, ← List.reverse_append, List.takeWhile_append_dropWhile, List.reverse_reverse]
  refine ⟨⟨text.takeWhile isBlank, (bare.reverse.takeWhile isBlank).reverse, ?_, ?_, ?_⟩, ?_, ?_⟩
  · rw [List.append_assoc, ← core]
    exact whole
  · exact fun c listed => List.mem_takeWhile_imp listed
  · intro c listed
    exact List.mem_takeWhile_imp (List.mem_reverse.mp listed)
  · intro c first
    have begins : bare.head? = some c := by
      rw [core, List.head?_append, first, Option.some_or]
    have stops := List.head?_dropWhile_not isBlank text
    rw [show (text.dropWhile isBlank).head? = some c from begins] at stops
    exact stops
  · intro c last
    rw [trimBlanks, List.getLast?_reverse] at last
    have stops := List.head?_dropWhile_not isBlank bare.reverse
    rw [last] at stops
    exact stops

/-- Trimming a text leaves what stands between its blanks, and nothing else does. -/
theorem isCore_iff {text core : List Char} : IsCore text core ↔ trimBlanks text = core := by
  constructor
  · exact IsCore.trimBlanks_eq
  · rintro rfl
    exact isCore_trimBlanks text

end Text

namespace Relation

/-! ### Stems -/

/-- A stem some times over. -/
def copies (count : Nat) (stem : List Char) : List Char :=
  (List.replicate count stem).flatten

theorem copies_succ (count : Nat) (stem : List Char) :
    copies (count + 1) stem = stem ++ copies count stem := by
  rw [copies, List.replicate_succ, List.flatten_cons, copies]

variable {stem text rest : List Char} {count : Nat}

theorem dropCopies_append (number : Nat) (enough : number ≤ count)
    (ends : ¬ stem <+: rest) : dropCopies stem count (copies number stem ++ rest) = rest := by
  induction count generalizing number with
  | zero =>
    have none : number = 0 := by omega
    subst none
    rfl
  | succ count ih =>
    rw [dropCopies]
    cases number with
    | zero =>
      have stays : ¬ stem.isPrefixOf rest = true := by rwa [List.isPrefixOf_iff_prefix]
      exact if_neg stays
    | succ number =>
      have begins : stem.isPrefixOf (copies (number + 1) stem ++ rest) = true := by
        rw [List.isPrefixOf_iff_prefix, copies_succ, List.append_assoc]
        exact List.prefix_append _ _
      rw [if_pos begins, copies_succ, List.append_assoc, List.drop_left]
      exact ih number (by omega)

theorem exists_copies_dropCopies (nonempty : stem ≠ []) (enough : text.length ≤ count) :
    ∃ number, text = copies number stem ++ dropCopies stem count text ∧
      ¬ stem <+: dropCopies stem count text := by
  induction count generalizing text with
  | zero =>
    have empty : text = [] := List.eq_nil_of_length_eq_zero (by omega)
    subst empty
    exact ⟨0, rfl, fun begins => nonempty (List.prefix_nil.mp begins)⟩
  | succ count ih =>
    rw [dropCopies]
    split
    · rename_i begins
      obtain ⟨behind, rfl⟩ := List.isPrefixOf_iff_prefix.mp begins
      have shorter : 0 < stem.length := List.length_pos_iff.mpr nonempty
      rw [List.length_append] at enough
      have enoughBehind : behind.length ≤ count := by omega
      obtain ⟨number, split, ends⟩ := ih enoughBehind
      rw [List.drop_left]
      refine ⟨number + 1, ?_, ends⟩
      rw [copies_succ, List.append_assoc, ← split]
    · rename_i stays
      rw [List.isPrefixOf_iff_prefix] at stays
      exact ⟨0, rfl, stays⟩

theorem le_length_copies (nonempty : stem ≠ []) (number : Nat) (rest : List Char) :
    number ≤ (copies number stem ++ rest).length := by
  induction number with
  | zero => exact Nat.zero_le _
  | succ number ih =>
    have longer : 0 < stem.length := List.length_pos_iff.mpr nonempty
    rw [copies_succ, List.append_assoc, List.length_append]
    omega

/-- Stems are dropped until the text begins with none, however many there are. -/
theorem dropCopies_eq_iff (nonempty : stem ≠ []) :
    dropCopies stem text.length text = rest ↔
      (∃ number, text = copies number stem ++ rest) ∧ ¬ stem <+: rest := by
  constructor
  · rintro rfl
    obtain ⟨number, split, ends⟩ := exists_copies_dropCopies nonempty (Nat.le_refl text.length)
    exact ⟨⟨number, split⟩, ends⟩
  · rintro ⟨⟨number, rfl⟩, ends⟩
    exact dropCopies_append number (le_length_copies nonempty number rest) ends

/-! ### Words -/

/-- A word in the spelling of the names. -/
def spelling (word : List Char) : List Char :=
  (word.map Char.toLower).map underscored

theorem spelling_isPrefix {word : List Char} (begins : stem <+: word) :
    spelling stem <+: spelling word :=
  (begins.map Char.toLower).map underscored

theorem name_inj {left right : Relation} (same : left.name = right.name) : left = right := by
  cases left <;> cases right <;> first | rfl | exact absurd same (by decide)

/-- No name begins with a stem. -/
theorem not_stem_isPrefix_name (relation : Relation) : ¬ lowerStem <+: relation.name.toList := by
  cases relation <;> decide

/-- Whether what stands between the blanks of a text is some stems in capitals, then some in small
letters, and then a word that is the name of a relation, up to the case of letters from A to Z and
hyphens for underscores. -/
def Spells (text : String) (relation : Relation) : Prop :=
  ∃ (capitals smalls : Nat) (word : List Char),
    Text.IsCore text.toList (copies capitals upperStem ++ copies smalls lowerStem ++ word) ∧
      spelling word = relation.name.toList

/-- A word that is a name begins with no stem, in capitals or in small letters. -/
theorem not_isPrefix_of_spelling {word : List Char} {relation : Relation}
    (spelled : spelling word = relation.name.toList) {stem : List Char}
    (isStem : spelling stem = lowerStem) : ¬ stem <+: word := by
  intro begins
  have named := spelling_isPrefix begins
  rw [isStem, spelled] at named
  exact not_stem_isPrefix_name relation named

/-- A stem in capitals is never one in small letters, so the first kind ends where the second begins. -/
theorem not_upperStem_isPrefix {word : List Char} (ends : ¬ upperStem <+: word) (smalls : Nat) :
    ¬ upperStem <+: copies smalls lowerStem ++ word := by
  cases smalls with
  | zero => exact ends
  | succ smalls =>
    rw [copies_succ, List.append_assoc]
    rintro ⟨behind, same⟩
    exact absurd (List.cons.inj same).1 (by decide)

/-- A text is read as a name exactly if the grammar spells it so. -/
theorem normalName_eq_iff {text : String} {relation : Relation} :
    normalName text = relation.name ↔ Spells text relation := by
  let bare := Text.trimBlanks text.toList
  let behind := dropCopies upperStem bare.length bare
  have upper : upperStem ≠ [] := by decide
  have lower : lowerStem ≠ [] := by decide
  rw [normalName, ← String.toList_inj, String.toList_ofList]
  constructor
  · intro spelled
    obtain ⟨⟨capitals, split⟩, -⟩ := (dropCopies_eq_iff upper).mp (rfl : _ = behind)
    obtain ⟨⟨smalls, splitBehind⟩, -⟩ :=
      (dropCopies_eq_iff lower).mp (rfl : dropCopies lowerStem behind.length behind = _)
    refine ⟨capitals, smalls, dropCopies lowerStem behind.length behind, ?_, ?_⟩
    · rw [List.append_assoc, ← splitBehind, ← split]
      exact Text.isCore_iff.mpr rfl
    · rw [spelling, List.map_map]
      exact spelled
  · rintro ⟨capitals, smalls, word, isCore, spelled⟩
    have noCapitals : ¬ upperStem <+: word := not_isPrefix_of_spelling spelled (by decide)
    have noSmalls : ¬ lowerStem <+: word := not_isPrefix_of_spelling spelled (by decide)
    have bare_eq : bare = copies capitals upperStem ++ (copies smalls lowerStem ++ word) := by
      rw [← List.append_assoc]
      exact Text.isCore_iff.mp isCore
    have behind_eq : behind = copies smalls lowerStem ++ word :=
      (dropCopies_eq_iff upper).mpr ⟨⟨capitals, bare_eq⟩, not_upperStem_isPrefix noCapitals smalls⟩
    have word_eq : dropCopies lowerStem behind.length behind = word :=
      (dropCopies_eq_iff lower).mpr ⟨⟨smalls, behind_eq⟩, noSmalls⟩
    rw [show dropCopies lowerStem _ _ = word from word_eq, ← spelled, spelling, List.map_map]
    rfl

theorem ofText_eq_ok_iff {text : String} {relation : Relation} :
    ofText text = .ok relation ↔ Spells text relation := by
  rw [← normalName_eq_iff, ofText]
  constructor
  · intro read
    cases found : all.find? (·.name == normalName text) with
    | none =>
      rw [found] at read
      cases read
    | some other =>
      rw [found] at read
      have named := List.find?_some found
      rw [← Except.ok.inj read, eq_of_beq named]
  · intro named
    have found : all.find? (·.name == normalName text) = some relation := by
      refine Lists.find?_eq_some_of_unique relation.mem_all (beq_iff_eq.mpr named.symm) ?_
      intro other _ same
      exact name_inj ((beq_iff_eq.mp same).trans named)
    rw [found]

/-- Every text is read by one grammar: it names at most one relation and is read as that, a text that
names none is given back unchanged, and the name of a relation is read as that relation. -/
theorem ofText_iff_spells (text : String) :
    (∀ relation, ofText text = .ok relation ↔ Spells text relation) ∧
      (∀ relation other, Spells text relation ∧ Spells text other → relation = other) ∧
      (ofText text = .error ⟨text⟩ ↔ ∀ relation, ¬ Spells text relation) ∧
      ∀ relation, ofText relation.name = .ok relation := by
  refine ⟨fun relation => ofText_eq_ok_iff, ?_, ?_, fun relation => by cases relation <;> decide⟩
  · intro relation other spelled
    have first := ofText_eq_ok_iff.mpr spelled.1
    rw [ofText_eq_ok_iff.mpr spelled.2] at first
    exact (Except.ok.inj first).symm
  · constructor
    · intro failed relation spelled
      rw [ofText_eq_ok_iff.mpr spelled] at failed
      cases failed
    · intro spelled
      cases read : ofText text with
      | ok relation => exact absurd (ofText_eq_ok_iff.mp read) (spelled relation)
      | error unknown =>
        rw [ofText] at read
        split at read <;> cases read
        rfl

/-- Blanks of any kind, both stems more than once, and a hyphen. -/
example : ofText "\u2003RELATION_RELATION_relation_Label-FOR\t" = .ok .labelFor := by
  decide

/-- Behind a stem in small letters, one in capitals is part of the word. -/
example : ofText "relation_RELATION_details" = .error ⟨"relation_RELATION_details"⟩ := by
  decide

end Relation

end Accessibility
