import Mathlib.Data.List.Nodup

/-!
Facts about lists: what is listed before a value, lists of which parts are left out, lists in which
values rise, and lists whose repetitions are erased.
-/

set_option autoImplicit false

namespace Accessibility.Lists

/-- Where a value is listed with nothing before it but what has some property. -/
theorem exists_append_cons_iff {α : Type} {kept : α → Prop} {first value : α} {rest : List α} :
    (∃ before after, first :: rest = before ++ value :: after ∧ ∀ other ∈ before, kept other) ↔
      first = value ∨ kept first ∧
        ∃ before after, rest = before ++ value :: after ∧ ∀ other ∈ before, kept other := by
  constructor
  · rintro ⟨before, after, split, keeps⟩
    cases before with
    | nil => exact .inl (List.cons.inj split).1
    | cons other before =>
      obtain ⟨rfl, splitRest⟩ := List.cons.inj split
      obtain ⟨keepsFirst, keepsRest⟩ := List.forall_mem_cons.mp keeps
      exact .inr ⟨keepsFirst, before, after, splitRest, keepsRest⟩
  · rintro (rfl | ⟨keepsFirst, before, after, rfl, keeps⟩)
    · exact ⟨[], rest, rfl, nofun⟩
    · exact ⟨first :: before, after, rfl, List.forall_mem_cons.mpr ⟨keepsFirst, keeps⟩⟩

/-- A search finds the one value that it can find. -/
theorem find?_eq_some_of_unique {α : Type} {kept : α → Bool} {values : List α} {value : α}
    (listed : value ∈ values) (keeps : kept value = true)
    (unique : ∀ other ∈ values, kept other = true → other = value) :
    values.find? kept = some value := by
  cases found : values.find? kept with
  | none => exact absurd keeps (List.find?_eq_none.mp found value listed)
  | some other => rw [unique other (List.mem_of_find?_eq_some found) (List.find?_some found)]

/-- What a search finds stands before all else that it could have found. -/
theorem find?_spec_of_pairwise {α : Type} {comesBefore : α → α → Prop} {kept : α → Bool}
    {values : List α} {value : α} (rising : values.Pairwise comesBefore)
    (found : values.find? kept = some value) :
    value ∈ values ∧ kept value = true ∧
      ∀ other ∈ values, kept other = true → other = value ∨ comesBefore value other := by
  obtain ⟨keeps, before, after, rfl, unfit⟩ := List.find?_eq_some_iff_append.mp found
  obtain ⟨-, risingAfter, -⟩ := List.pairwise_append.mp rising
  refine ⟨List.mem_append_right _ List.mem_cons_self, keeps, fun other listed keepsOther => ?_⟩
  rcases List.mem_append.mp listed with earlier | listed
  · have passed := unfit other earlier
    rw [keepsOther] at passed
    cases passed
  · exact (List.mem_cons.mp listed).imp_right ((List.pairwise_cons.mp risingAfter).1 other)

/-- Values that contribute nothing may be left out. -/
theorem flatMap_filter_of_nil {α β : Type} {kept : α → Bool} {inside : α → List β}
    {values : List α} (empty : ∀ value ∈ values, kept value = false → inside value = []) :
    (values.filter kept).flatMap inside = values.flatMap inside := by
  induction values with
  | nil => rfl
  | cons value rest ih =>
    obtain ⟨emptyFirst, emptyRest⟩ := List.forall_mem_cons.mp empty
    rw [List.flatMap_cons, ← ih emptyRest]
    cases keeps : kept value with
    | true => rw [List.filter_cons_of_pos keeps, List.flatMap_cons]
    | false =>
      rw [List.filter_cons_of_neg (Bool.eq_false_iff.mp keeps), emptyFirst keeps, List.nil_append]

/-- In a list without repetitions the positions rise. -/
theorem pairwise_idxOf {α : Type} [BEq α] [LawfulBEq α] {values : List α} (nodup : values.Nodup) :
    values.Pairwise fun left right => values.idxOf left < values.idxOf right := by
  rw [List.pairwise_iff_getElem]
  intro i j hi hj less
  rwa [nodup.idxOf_getElem, nodup.idxOf_getElem]

/-- Where every value comes before all that are listed behind it, two values compare as their positions
do. -/
theorem compare_idxOf {α : Type} [BEq α] [LawfulBEq α] {cmp : α → α → Ordering}
    [Std.OrientedCmp cmp] {values : List α}
    (rising : values.Pairwise fun left right => cmp left right = .lt) {left right : α}
    (listed : left ∈ values) (listedRight : right ∈ values) :
    cmp left right = compare (values.idxOf left) (values.idxOf right) := by
  induction values with
  | nil => cases listed
  | cons first rest ih =>
    obtain ⟨before, risingRest⟩ := List.pairwise_cons.mp rising
    by_cases atLeft : first = left
    · subst atLeft
      by_cases atRight : first = right
      · have same : cmp first first = .eq := Std.ReflCmp.compare_self
        rw [← atRight, same]
        exact (Nat.compare_eq_eq.mpr rfl).symm
      · have later := List.mem_of_ne_of_mem (Ne.symm atRight) listedRight
        rw [before right later, List.idxOf_cons_self, List.idxOf_cons_ne rest atRight]
        exact (Nat.compare_eq_lt.mpr (Nat.succ_pos _)).symm
    · have laterLeft := List.mem_of_ne_of_mem (Ne.symm atLeft) listed
      by_cases atRight : first = right
      · subst atRight
        rw [Std.OrientedCmp.gt_iff_lt.mpr (before left laterLeft), List.idxOf_cons_self,
          List.idxOf_cons_ne rest atLeft]
        exact (Nat.compare_eq_gt.mpr (Nat.succ_pos _)).symm
      · have laterRight := List.mem_of_ne_of_mem (Ne.symm atRight) listedRight
        rw [ih risingRest laterLeft laterRight, List.idxOf_cons_ne rest atLeft,
          List.idxOf_cons_ne rest atRight]
        simp only [Nat.compare_eq_ite_lt, Nat.succ_lt_succ_iff]

/-- Lists of the same values in the same strict order are equal. -/
theorem eq_of_pairwise {α : Type} {comesBefore : α → α → Prop} {left right : List α}
    (asymm : ∀ {one other : α}, comesBefore one other → ¬ comesBefore other one)
    (rising : left.Pairwise comesBefore) (risingRight : right.Pairwise comesBefore)
    (same : ∀ value, value ∈ left ↔ value ∈ right) : left = right := by
  have nodup {values : List α} (rising : values.Pairwise comesBefore) : values.Nodup :=
    List.Pairwise.imp (fun {one other} less (equal : one = other) =>
      asymm (equal ▸ less) (equal ▸ less)) rising
  have perm := (List.perm_ext_iff_of_nodup (nodup rising) (nodup risingRight)).mpr same
  exact perm.eq_of_pairwise (fun _ _ _ _ less greater => absurd greater (asymm less)) rising risingRight

variable {α β : Type} [DecidableEq α]

theorem eraseDups_of_nodup {values : List α} (nodup : values.Nodup) :
    values.eraseDups = values := by
  induction values with
  | nil => rfl
  | cons value rest ih =>
    obtain ⟨absent, nodupRest⟩ := List.nodup_cons.mp nodup
    rw [List.eraseDups_cons, List.filter_eq_self.mpr, ih nodupRest]
    intro other listed
    simpa using fun same : other = value => absent (same ▸ listed)

/-- Erasing repetitions and leaving values out can be done in either order. -/
theorem eraseDups_filter (kept : α → Bool) (values : List α) :
    (values.filter kept).eraseDups = values.eraseDups.filter kept := by
  induction length : values.length using Nat.strongRecOn generalizing values with
  | ind length ih =>
    subst length
    cases values with
    | nil => rfl
    | cons value rest =>
      have shorter := List.length_filter_le (fun other => !other == value) rest
      have later := ih _ (by rw [List.length_cons]; omega) (rest.filter fun other => !other == value) rfl
      rw [List.eraseDups_cons, List.filter_cons, List.filter_cons, ← later, List.filter_filter]
      split
      · rw [List.eraseDups_cons, List.filter_filter]
        refine congrArg (fun others => value :: others.eraseDups) (List.filter_congr fun other _ => ?_)
        exact Bool.and_comm _ _
      · -- What is equal to the first value is left out in any case.
        rename_i dropped
        refine congrArg List.eraseDups (List.filter_congr fun other _ => ?_)
        by_cases same : other = value
        · rw [same, Bool.eq_false_iff.mpr dropped, Bool.false_and]
        · rw [beq_false_of_ne same, Bool.not_false, Bool.and_true]

theorem eraseDups_cons_eq (value : α) (rest : List α) :
    (value :: rest).eraseDups = value :: rest.eraseDups.filter fun other => !other == value := by
  rw [List.eraseDups_cons, eraseDups_filter]

theorem nodup_eraseDups (values : List α) : values.eraseDups.Nodup := by
  induction values with
  | nil => exact List.nodup_nil
  | cons value rest ih =>
    rw [eraseDups_cons_eq, List.nodup_cons]
    refine ⟨fun listed => ?_, ih.filter _⟩
    simpa using (List.mem_filter.mp listed).2

/-- Erasing repetitions and renaming apart can be done in either order. -/
theorem eraseDups_map [DecidableEq β] {name : α → β} {values : List α}
    (apart : ∀ left ∈ values, ∀ right ∈ values, name left = name right → left = right) :
    (values.map name).eraseDups = values.eraseDups.map name := by
  induction values with
  | nil => rfl
  | cons value rest ih =>
    have apartRest : ∀ left ∈ rest, ∀ right ∈ rest, name left = name right → left = right :=
      fun left listed right listedRight =>
        apart left (List.mem_cons_of_mem _ listed) right (List.mem_cons_of_mem _ listedRight)
    rw [List.map_cons, eraseDups_cons_eq, eraseDups_cons_eq, List.map_cons, ih apartRest,
      List.filter_map]
    refine congrArg (fun others => name value :: others.map name)
      (List.filter_congr fun other listed => ?_)
    rw [Function.comp_apply]
    by_cases same : other = value
    · rw [same, beq_self_eq_true, beq_self_eq_true]
    · have differ : name other ≠ name value := fun equal => same (apart other
        (List.mem_cons_of_mem _ (List.mem_eraseDups.mp listed)) value List.mem_cons_self equal)
      rw [beq_false_of_ne same, beq_false_of_ne differ]

end Accessibility.Lists
