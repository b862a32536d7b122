import Accessibility.Proofs.Change.Pairs

/-!
Cancelling transient subtrees preserves the document as long as the node of each cancelled pair stays
in the document in between. The induction is over the records from the last one back: when a pair
is dealt with, the places before lead to the same document as the records.
-/

set_option autoImplicit false

namespace Accessibility.Recorded

/-! ### What is traced of cleared insertions -/

theorem mem_coveredAfter {node : Handle} {handles : List Handle} (covered : node ∈ handles)
    (places : List Place) :
    node ∈ coveredAfter handles places ∨
      ∃ (later : Nat) (recorded : Recorded),
        places[later]? = some (some recorded) ∧ recorded.carries node = true := by
  induction places generalizing handles with
  | nil => exact .inl covered
  | cons place rest ih =>
    obtain ⟨place', handles', step, steps⟩ := clear_cons handles place
    rw [(steps rest).2]
    rcases step.keeps covered with kept | ⟨recorded, rfl, carried⟩
    · refine (ih kept).imp_right ?_
      rintro ⟨later, recorded, listed, carried⟩
      exact ⟨later + 1, recorded, listed, carried⟩
    · exact .inr ⟨0, recorded, rfl, carried⟩

/-- A node that a cleared insertion carries is covered in the end, unless a later insertion that
stands carries it again. -/
theorem mem_coveredAfter_of_cleared {node : Handle} {handles : List Handle} {places : List Place}
    {position : Nat} {recorded : Recorded} (before : places[position]? = some (some recorded))
    (cleared : (clear handles places)[position]? = some none)
    (carried : recorded.carries node = true) :
    node ∈ coveredAfter handles places ∨
      ∃ (later : Nat) (other : Recorded),
        position < later ∧ places[later]? = some (some other) ∧ other.carries node = true := by
  induction places generalizing handles position with
  | nil => cases before
  | cons place rest ih =>
    obtain ⟨place', handles', step, steps⟩ := clear_cons handles place
    rw [(steps rest).1] at cleared
    rw [(steps rest).2]
    cases position with
    | zero =>
      have covered := step.covers (Option.some.inj before) (Option.some.inj cleared) carried
      refine (mem_coveredAfter covered rest).imp_right ?_
      rintro ⟨later, other, listed, carries⟩
      exact ⟨later + 1, other, Nat.succ_pos later, listed, carries⟩
    | succ position =>
      refine (ih before cleared).imp_right ?_
      rintro ⟨later, other, behind, listed, carries⟩
      exact ⟨later + 1, other, Nat.succ_lt_succ behind, listed, carries⟩

theorem clear_kept {handles : List Handle} {places : List Place} {position : Nat}
    {recorded : Recorded} (kept : (clear handles places)[position]? = some (some recorded)) :
    places[position]? = some (some recorded) := by
  induction places generalizing handles position with
  | nil => cases kept
  | cons place rest ih =>
    obtain ⟨place', handles', step, steps⟩ := clear_cons handles place
    rw [(steps rest).1] at kept
    cases position with
    | zero =>
      rcases step.stands with rfl | rfl
      · exact kept
      · cases kept
    | succ position => exact ih kept

/-! ### Cutting a transient subtree out -/

/-- A place that inserts a subtree, the places from there to its removal, and what clearing them
comes to. -/
structure Cut (document : Document) (before : List Place) (parent : Handle) (index : Nat)
    (subtree : Subtree) (between : List Place) : Prop where
  fit : AllFit document (standing before)
  attachable : (replay document (standing before)).Attachable parent subtree
  clears : Clears ((replay document (standing before)).attach parent index subtree)
    (replay document (standing before)) subtree.handle parent
    (coveredAfter subtree.handles between) (standing between)
    (standing (clear subtree.handles between))

theorem cut_of_fit {document : Document} (wellFormed : document.WellFormed) {before : List Place}
    {parent : Handle} {index : Nat} {subtree : Subtree} {previous : Option String}
    {between : List Place}
    (fit : AllFit document
      (standing (before ++ some ⟨.inserted parent index subtree, previous⟩ :: between)))
    (beside : between.any (insertsUnder parent) = false) :
    Cut document before parent index subtree between := by
  rw [standing_append, allFit_append] at fit
  obtain ⟨fit, attachable, fitBetween⟩ := fit
  have kept := fit.wellFormed wellFormed
  have attachable : (replay document (standing before)).Attachable parent subtree := attachable
  dsimp only at fitBetween
  rw [after_inserted_of_fits attachable] at fitBetween
  have clears := clear_of_covers (kept.attach attachable index)
    (Document.Covers.attached kept attachable index) fitBetween beside
  rw [kept.remove_attach attachable index] at clears
  exact ⟨fit, attachable, clears⟩

namespace Cut

variable {document : Document} {before : List Place} {parent : Handle} {index : Nat}
  {subtree : Subtree} {between : List Place} {previous : Option String}

theorem replay_full (cut : Cut document before parent index subtree between)
    (previous : Option String) :
    replay document
        (standing (before ++ some ⟨.inserted parent index subtree, previous⟩ :: between)) =
      replay ((replay document (standing before)).attach parent index subtree)
        (standing between) := by
  rw [standing_append, replay_append, standing_some, replay_cons,
    after_inserted_of_fits cut.attachable]

theorem replay_cut (cut : Cut document before parent index subtree between) :
    AllFit document (standing (before ++ none :: clear subtree.handles between ++ [none])) ∧
      replay document (standing (before ++ none :: clear subtree.handles between ++ [none])) =
        replay (replay document (standing before)) (standing (clear subtree.handles between)) := by
  rw [List.append_assoc, standing_append, List.cons_append, standing_none, standing_append,
    standing_none, standing_nil, List.append_nil, replay_append, allFit_append]
  exact ⟨⟨cut.fit, cut.clears.fit⟩, rfl⟩

end Cut

/-! ### Places that settle records -/

/-- Places that some records come to once their pairs are dealt with. They lead to the same document,
and a node of it that a cancelled insertion carries is carried again later. -/
structure Settles (document : Document) (records : List Recorded) (places : List Place) :
    Prop where
  length : places.length = records.length
  kept : ∀ {position : Nat} {recorded : Recorded},
    places[position]? = some (some recorded) → records[position]? = some recorded
  fit : AllFit document (standing places)
  same : replay document (standing places) = replay document records
  traced : ∀ {position : Nat} {recorded : Recorded} {node : Handle},
    places[position]? = some none → records[position]? = some recorded →
    recorded.carries node = true → (replay document records).contains node = true →
    ∃ (later : Nat) (other : Recorded), position < later ∧ records[later]? = some other ∧
      other.carries node = true

namespace Settles

variable {document : Document} {records : List Recorded} {places : List Place}
  {recorded : Recorded}

theorem replay_snoc (records : List Recorded) (recorded : Recorded) :
    replay document (records ++ [recorded]) =
      (replay document records).after recorded.change := by
  rw [replay_append, replay_cons, replay_nil]

/-- A record that stands. -/
theorem snoc (settles : Settles document records places) (wellFormed : document.WellFormed)
    (fits : recorded.Fits (replay document records)) :
    Settles document (records ++ [recorded]) (places ++ [some recorded]) where
  length := by rw [List.length_append, List.length_append, settles.length]; rfl
  kept := by
    intro position other listed
    rcases Nat.lt_or_ge position places.length with inside | beyond
    · rw [List.getElem?_append_left inside] at listed
      rw [List.getElem?_append_left (settles.length ▸ inside)]
      exact settles.kept listed
    · rw [List.getElem?_append_right beyond] at listed
      rw [List.getElem?_append_right (settles.length ▸ beyond), ← settles.length]
      rw [List.getElem?_singleton] at listed ⊢
      split at listed
      · rename_i first
        rw [if_pos first]
        exact Option.some.inj listed
      · cases listed
  fit := by
    rw [standing_append, allFit_append, settles.same]
    exact ⟨settles.fit, fits, trivial⟩
  same := by
    rw [standing_append, replay_append, settles.same, replay_append]
    rfl
  traced := by
    intro position other node cancelled listed carried stored
    have inside : position < places.length := by
      by_contra beyond
      rw [List.getElem?_append_right (Nat.le_of_not_lt beyond), List.getElem?_singleton] at cancelled
      split at cancelled <;> cases cancelled
    rw [List.getElem?_append_left inside] at cancelled
    rw [settles.length] at inside
    rw [List.getElem?_append_left inside] at listed
    by_cases again : recorded.carries node = true
    · exact ⟨records.length, recorded, inside, List.getElem?_concat_length, again⟩
    · rw [replay_snoc] at stored
      have kept : (replay document records).WellFormed := by
        rw [← settles.same]
        exact settles.fit.wellFormed wellFormed
      obtain ⟨later, other, behind, listed, carried⟩ := settles.traced cancelled listed carried
        (fits.contains_before kept (by simpa using again) stored)
      refine ⟨later, other, behind, ?_, carried⟩
      rwa [List.getElem?_append_left (List.getElem?_eq_some_iff.mp listed).1]

/-- If no insertion that still stands behind a position carries a stored node, then no insertion
behind it does at all. -/
theorem not_carries_of_standing (settles : Settles document records places) {node : Handle}
    (stored : (replay document records).contains node = true) {start : Nat}
    (standsNone : ∀ {position : Nat} {other : Recorded}, start < position →
      places[position]? = some (some other) → other.carries node = false)
    {position : Nat} {other : Recorded} (behind : start < position)
    (listed : records[position]? = some other) : other.carries node = false := by
  induction remaining : records.length - position using Nat.strongRecOn
    generalizing position other with
  | ind remaining ih =>
    have inside := (List.getElem?_eq_some_iff.mp listed).1
    by_contra carried
    rw [Bool.not_eq_false] at carried
    have place : places[position]? = some (places.get ⟨position, settles.length ▸ inside⟩) :=
      List.getElem?_eq_getElem (settles.length ▸ inside)
    cases still : places.get ⟨position, settles.length ▸ inside⟩ with
    | none =>
      rw [still] at place
      obtain ⟨later, again, further, listedLater, carriedLater⟩ :=
        settles.traced place listed carried stored
      have insideLater := (List.getElem?_eq_some_iff.mp listedLater).1
      have absent := ih (records.length - later) (by omega) (by omega) listedLater rfl
      rw [absent] at carriedLater
      cases carriedLater
    | some kept =>
      rw [still] at place
      have same := settles.kept place
      rw [listed] at same
      cases same
      rw [standsNone behind place] at carried
      cases carried

end Settles

/-! ### Dealing with one pair -/

section Cutting

variable {document : Document} {before between : List Place} {first middle : List Recorded}
  {parent : Handle} {index : Nat} {subtree : Subtree} {previous : Option String}

theorem getElem?_behind {α : Type} (front : List α) (value : α) (back : List α) (steps : Nat) :
    (front ++ value :: back)[front.length + (steps + 1)]? = back[steps]? := by
  rw [List.getElem?_append_right (by omega), Nat.add_sub_cancel_left, List.getElem?_cons_succ]

/-- The transient node stays in the run of the places exactly if it stays in that of the records. -/
theorem Settles.stays_iff_of_cut
    (settles : Settles document (first ++ ⟨.inserted parent index subtree, previous⟩ :: middle)
      (before ++ some ⟨.inserted parent index subtree, previous⟩ :: between))
    (aligned : before.length = first.length) (wellFormed : document.WellFormed)
    (fit : AllFit document (first ++ ⟨.inserted parent index subtree, previous⟩ :: middle))
    (cut : Cut document before parent index subtree between)
    (stored : (replay document
      (first ++ ⟨.inserted parent index subtree, previous⟩ :: middle)).contains
        subtree.handle = true) :
    Stays subtree.handle ((replay document (standing before)).attach parent index subtree)
        (standing between) ↔
      Stays subtree.handle
        (replay document (first ++ [⟨.inserted parent index subtree, previous⟩])) middle := by
  have sameEnd := settles.same
  rw [cut.replay_full] at sameEnd
  have fitPlaces := settles.fit
  rw [standing_append, standing_some, allFit_append] at fitPlaces
  obtain ⟨-, -, fitBetween⟩ := fitPlaces
  dsimp only at fitBetween
  rw [after_inserted_of_fits cut.attachable] at fitBetween
  have keptBefore := (cut.fit.wellFormed wellFormed).attach cut.attachable index
  rw [List.append_cons, allFit_append] at fit
  have keptFirst := fit.1.wellFormed wellFormed
  rw [stays_iff keptBefore fitBetween (sameEnd ▸ stored),
    stays_iff keptFirst fit.2 (by rwa [← replay_append, ← List.append_cons])]
  constructor
  · intro standsNone recorded listed
    obtain ⟨steps, found⟩ := List.getElem?_of_mem listed
    have behind : first.length < first.length + (steps + 1) := by omega
    refine settles.not_carries_of_standing stored ?_ behind
      (getElem?_behind first _ middle steps ▸ found)
    intro position other behind place
    obtain ⟨steps, rfl⟩ := Nat.exists_eq_add_of_lt behind
    rw [← aligned, Nat.add_assoc, getElem?_behind] at place
    exact standsNone other (mem_standing.mpr (List.mem_of_getElem? place))
  · intro none recorded listed
    obtain ⟨steps, found⟩ := List.getElem?_of_mem (mem_standing.mp listed)
    rw [← getElem?_behind before (some ⟨.inserted parent index subtree, previous⟩) between steps]
      at found
    have kept := settles.kept found
    rw [aligned, getElem?_behind] at kept
    exact none recorded (List.mem_of_getElem? kept)

/-- A place that is still there after a cut was there before it. -/
theorem kept_of_cut {position : Nat} {recorded other : Recorded}
    (kept : (before ++ none :: clear subtree.handles between ++ [none])[position]? =
      some (some recorded)) :
    (before ++ some other :: between)[position]? = some (some recorded) := by
  rw [List.append_assoc] at kept
  rcases Nat.lt_or_ge position before.length with inside | beyond
  · rw [List.getElem?_append_left inside] at kept ⊢
    exact kept
  · obtain ⟨steps, rfl⟩ := Nat.exists_eq_add_of_le beyond
    cases steps with
    | zero =>
      rw [List.getElem?_append_right (by omega)] at kept
      simp at kept
    | succ steps =>
      rw [List.cons_append, getElem?_behind] at kept
      rw [getElem?_behind]
      rcases Nat.lt_or_ge steps (clear subtree.handles between).length with inside | beyond
      · rw [List.getElem?_append_left inside] at kept
        exact clear_kept kept
      · rw [List.getElem?_append_right beyond, List.getElem?_singleton] at kept
        split at kept <;> cases kept

/-- A node that an insertion carries which a cut clears is covered by the cut, unless a later
insertion that stands carries it again. -/
theorem covered_of_cut {position : Nat} {recorded : Recorded} {node : Handle}
    (place : (before ++ some ⟨.inserted parent index subtree, previous⟩ :: between)[position]? =
      some (some recorded))
    (cleared : (before ++ none :: clear subtree.handles between ++ [none])[position]? = some none)
    (carried : recorded.carries node = true) :
    node ∈ coveredAfter subtree.handles between ∨
      ∃ (later : Nat) (other : Recorded), position < later ∧
        (before ++ some ⟨.inserted parent index subtree, previous⟩ :: between)[later]? =
          some (some other) ∧ other.carries node = true := by
  rw [List.append_assoc] at cleared
  rcases Nat.lt_or_ge position before.length with inside | beyond
  · rw [List.getElem?_append_left inside] at place cleared
    rw [place] at cleared
    cases cleared
  · obtain ⟨steps, rfl⟩ := Nat.exists_eq_add_of_le beyond
    cases steps with
    | zero =>
      rw [List.getElem?_append_right (by omega)] at place
      simp only [Nat.add_zero, Nat.sub_self, List.getElem?_cons_zero, Option.some.injEq] at place
      subst place
      have mentioned : node ∈ subtree.handles := by
        simpa [carries, Subtree.mentions] using carried
      refine (mem_coveredAfter mentioned between).imp_right ?_
      rintro ⟨later, other, listed, carries⟩
      exact ⟨before.length + (later + 1), other, by omega,
        getElem?_behind before _ between later ▸ listed, carries⟩
    | succ steps =>
      rw [List.cons_append, getElem?_behind] at cleared
      rw [getElem?_behind] at place
      have inside := (List.getElem?_eq_some_iff.mp place).1
      rw [List.getElem?_append_left (by rwa [length_clear])] at cleared
      refine (mem_coveredAfter_of_cleared place cleared carried).imp_right ?_
      rintro ⟨later, other, behind, listed, carries⟩
      exact ⟨before.length + (later + 1), other, by omega,
        getElem?_behind before _ between later ▸ listed, carries⟩

/-- A pair that is cancelled while its node stays. -/
theorem Settles.cancel {records : List Recorded} {removal : Option String}
    (settles : Settles document records
      (before ++ some ⟨.inserted parent index subtree, previous⟩ :: between))
    (wellFormed : document.WellFormed)
    (cut : Cut document before parent index subtree between)
    (stays : Stays subtree.handle
      ((replay document (standing before)).attach parent index subtree) (standing between)) :
    Settles document (records ++ [⟨.removed subtree.handle, removal⟩])
      (before ++ none :: clear subtree.handles between ++ [none]) := by
  have kept : (replay document records).WellFormed := by
    rw [← settles.same]
    exact settles.fit.wellFormed wellFormed
  obtain ⟨covers, cleared⟩ := cut.clears.stays stays
  rw [← cut.replay_full previous, settles.same] at covers cleared
  have removes : replay document (records ++ [⟨.removed subtree.handle, removal⟩]) =
      ((replay document records).remove subtree.handle).state := by
    rw [Settles.replay_snoc, Change.after_removed]
  have length : (before ++ none :: clear subtree.handles between).length = records.length := by
    have same := settles.length
    simp only [List.length_append, List.length_cons, length_clear] at same ⊢
    omega
  refine ⟨?_, ?_, cut.replay_cut.1, ?_, ?_⟩
  · simp only [List.length_append, List.length_cons, List.length_nil] at length ⊢
    omega
  · intro position recorded place
    have listed := settles.kept (kept_of_cut place)
    rwa [List.getElem?_append_left (List.getElem?_eq_some_iff.mp listed).1]
  · rw [cut.replay_cut.2, cleared, removes]
  · intro position recorded node place listed carried stored
    rw [removes, kept.contains_remove covers.stored (covers.ne_root kept)] at stored
    have inside : position < records.length := by
      by_contra beyond
      rw [List.getElem?_append_right (Nat.le_of_not_lt beyond), List.getElem?_singleton] at listed
      split at listed <;> cases listed
      cases carried
    rw [List.getElem?_append_left inside] at listed
    have further (found : ∃ (later : Nat) (other : Recorded), position < later ∧
        records[later]? = some other ∧ other.carries node = true) :
        ∃ (later : Nat) (other : Recorded), position < later ∧
          (records ++ [⟨.removed subtree.handle, removal⟩])[later]? = some other ∧
            other.carries node = true := by
      obtain ⟨later, other, behind, listed, carries⟩ := found
      refine ⟨later, other, behind, ?_, carries⟩
      rwa [List.getElem?_append_left (List.getElem?_eq_some_iff.mp listed).1]
    have insidePlaces := settles.length.symm ▸ inside
    have before : _ = some (List.get _ ⟨position, insidePlaces⟩) :=
      List.getElem?_eq_getElem insidePlaces
    cases still : List.get _ ⟨position, insidePlaces⟩ with
    | none =>
      rw [still] at before
      exact further (settles.traced before listed carried stored.1)
    | some other =>
      rw [still] at before
      have same := settles.kept before
      rw [listed] at same
      cases same
      rcases covered_of_cut before place carried with covered | ⟨later, again, behind, place, carries⟩
      · exact absurd ((covers.covered node stored.1).mp covered) stored.2
      · exact further ⟨later, again, behind, settles.kept place, carries⟩

end Cutting

/-- A pair that is cancelled splits the records at its insertion, and the places as well. -/
theorem split_of_cancels {document : Document} {records : List Recorded} {places : List Place}
    {recorded : Recorded} {pair : Nat × Nat} (settles : Settles document records places)
    (closed : closedPair? records.reverse recorded = some pair)
    (cancelled : cancels (places ++ [some recorded]) pair = true) :
    ∃ removal first parent index subtree previous middle before between,
      recorded = ⟨.removed subtree.handle, removal⟩ ∧
        records = first ++ ⟨.inserted parent index subtree, previous⟩ :: middle ∧
        places = before ++ some ⟨.inserted parent index subtree, previous⟩ :: between ∧
        before.length = first.length ∧ pair = (first.length, records.length) ∧
        between.any (insertsUnder parent) = false ∧
        cancel (places ++ [some recorded]) pair =
          before ++ none :: clear subtree.handles between ++ [none] := by
  obtain ⟨node, removal, first, parent, index, subtree, previous, middle, rfl, split, rfl, rfl⟩ :=
    closedPair?_eq_some closed
  obtain ⟨parent', index', subtree', previous', standing, beside, equal⟩ :=
    exists_of_cancels cancelled
  have inside : first.length < places.length := by
    rw [settles.length, split]
    simp
  dsimp only at standing beside equal
  rw [List.getElem?_append_left inside] at standing
  have same := settles.kept standing
  rw [split, List.getElem?_append_right (Nat.le_refl _), Nat.sub_self, List.getElem?_cons_zero]
    at same
  cases same
  have range := inBetween_end inside
    ([some ⟨.removed subtree.handle, removal⟩] : List Place)
  rw [settles.length] at range
  have splitPlaces : places = places.take first.length ++
      some ⟨.inserted parent index subtree, previous⟩ :: places.drop (first.length + 1) := by
    rw [List.getElem?_eq_some_iff] at standing
    obtain ⟨_, here⟩ := standing
    rw [← here, List.getElem_cons_drop, List.take_append_drop]
  rw [range] at beside equal
  refine ⟨removal, first, parent, index, subtree, previous, middle, places.take first.length,
    places.drop (first.length + 1), rfl, split, splitPlaces, ?_, rfl, beside, ?_⟩
  · rw [List.length_take]
    omega
  · have length (place : Place) : (places ++ [place]).length = records.length + 1 := by
      rw [List.length_append, settles.length, List.length_singleton]
    rw [equal, List.take_append_of_le_length (Nat.le_of_lt inside),
      List.drop_of_length_le (Nat.le_of_eq (length _))]

/-! ### Dealing with all pairs -/

/-- The node of each cancelled pair stays in the document from its insertion to its removal. -/
def Steady (document : Document) (records : List Recorded) : Prop :=
  ∀ pair ∈ cancelledPairs records, ∀ node removal,
    records[pair.2]? = some ⟨.removed node, removal⟩ →
      Stays node (replay document (records.take (pair.1 + 1))) (inBetween pair records)

theorem mem_of_mem_cancelledAmong {pair : Nat × Nat} {places : List Place}
    {pairs : List (Nat × Nat)} (listed : pair ∈ cancelledAmong places pairs) : pair ∈ pairs := by
  induction pairs generalizing places with
  | nil => cases listed
  | cons first rest ih =>
    rw [cancelledAmong] at listed
    split at listed
    · rcases List.mem_cons.mp listed with rfl | later
      · exact List.mem_cons_self
      · exact List.mem_cons_of_mem _ (ih later)
    · exact List.mem_cons_of_mem _ (ih listed)

theorem mem_cancelledPairs_snoc {records : List Recorded} {recorded : Recorded}
    {pair : Nat × Nat} :
    pair ∈ cancelledPairs (records ++ [recorded]) ↔
      pair ∈ cancelledPairs records ∨
        (closedPair? records.reverse recorded = some pair ∧
          cancels (settledPlaces records ++ [some recorded]) pair = true) := by
  rw [cancelledPairs_snoc, List.mem_append]
  refine or_congr_right ?_
  cases closedPair? records.reverse recorded with
  | none => simp [cancelledAmong]
  | some closed =>
    rw [Option.toList_some, cancelledAmong, cancelledAmong]
    by_cases cancelled : cancels (settledPlaces records ++ [some recorded]) closed = true
    · rw [if_pos cancelled, List.mem_singleton]
      constructor
      · rintro rfl
        exact ⟨rfl, cancelled⟩
      · rintro ⟨same, -⟩
        exact (Option.some.inj same).symm
    · rw [if_neg cancelled]
      constructor
      · exact fun listed => by cases listed
      · rintro ⟨same, cancels⟩
        cases same
        exact absurd cancels cancelled

/-- One record more keeps the earlier pairs as they are. -/
theorem steady_snoc {document : Document} {records : List Recorded} {recorded : Recorded} :
    Steady document (records ++ [recorded]) ↔
      Steady document records ∧ ∀ pair node removal,
        closedPair? records.reverse recorded = some pair →
        cancels (settledPlaces records ++ [some recorded]) pair = true →
        recorded = ⟨.removed node, removal⟩ →
          Stays node (replay document (records.take (pair.1 + 1)))
            (records.drop (pair.1 + 1)) := by
  have earlier {pair : Nat × Nat} (spans : Spans pair records.length) :
      (records ++ [recorded])[pair.2]? = records[pair.2]? ∧
        (records ++ [recorded]).take (pair.1 + 1) = records.take (pair.1 + 1) ∧
        inBetween pair (records ++ [recorded]) = inBetween pair records := by
    have ordered := spans.ordered
    have inside := spans.inside
    exact ⟨List.getElem?_append_left inside, List.take_append_of_le_length (by omega),
      inBetween_append spans [recorded]⟩
  have last {pair : Nat × Nat} (closed : closedPair? records.reverse recorded = some pair) :
      (records ++ [recorded])[pair.2]? = some recorded ∧
        (records ++ [recorded]).take (pair.1 + 1) = records.take (pair.1 + 1) ∧
        inBetween pair (records ++ [recorded]) = records.drop (pair.1 + 1) := by
    obtain ⟨_, _, first, _, _, _, _, middle, -, split, -, rfl⟩ := closedPair?_eq_some closed
    have bound : first.length < records.length := by simp [split]
    exact ⟨List.getElem?_concat_length, List.take_append_of_le_length bound,
      inBetween_end bound [recorded]⟩
  constructor
  · intro steady
    constructor
    · intro pair listed node removal ends
      have spans := spans_of_mem_transientPairs (mem_of_mem_cancelledAmong listed)
      obtain ⟨sameEnd, sameStart, sameRange⟩ := earlier spans
      have stays := steady pair (mem_cancelledPairs_snoc.mpr (.inl listed)) node removal
        (sameEnd.trans ends)
      rwa [sameStart, sameRange] at stays
    · rintro pair node removal closed cancelled rfl
      obtain ⟨sameEnd, sameStart, sameRange⟩ := last closed
      have stays := steady pair (mem_cancelledPairs_snoc.mpr (.inr ⟨closed, cancelled⟩)) node
        removal sameEnd
      rwa [sameStart, sameRange] at stays
  · rintro ⟨steady, stays⟩ pair listed node removal ends
    rcases mem_cancelledPairs_snoc.mp listed with listed | ⟨closed, cancelled⟩
    · have spans := spans_of_mem_transientPairs (mem_of_mem_cancelledAmong listed)
      obtain ⟨sameEnd, sameStart, sameRange⟩ := earlier spans
      rw [sameStart, sameRange]
      exact steady pair listed node removal (sameEnd.symm.trans ends)
    · obtain ⟨sameEnd, sameStart, sameRange⟩ := last closed
      rw [sameEnd] at ends
      rw [sameStart, sameRange]
      exact stays pair node removal closed cancelled (Option.some.inj ends)

theorem Steady.of_append {document : Document} {first second : List Recorded}
    (steady : Steady document (first ++ second)) : Steady document first := by
  induction second using List.reverseRecOn with
  | nil => rwa [List.append_nil] at steady
  | append_singleton second recorded ih =>
    rw [← List.append_assoc] at steady
    exact ih (steady_snoc.mp steady).1

/-- Every removal names a node that is in the document. -/
def RemovesStored (document : Document) (records : List Recorded) : Prop :=
  ∀ first node removal rest, records = first ++ ⟨.removed node, removal⟩ :: rest →
    (replay document first).contains node = true

section Settled

variable {document : Document} {records : List Recorded} {recorded : Recorded}

theorem removesStored_snoc (removes : RemovesStored document (records ++ [recorded])) :
    RemovesStored document records ∧ ∀ node removal, recorded = ⟨.removed node, removal⟩ →
      (replay document records).contains node = true := by
  constructor
  · rintro first node removal rest rfl
    exact removes first node removal (rest ++ [recorded]) (by simp)
  · rintro node removal rfl
    exact removes records node removal [] rfl

/-- A pair that is cancelled although its node does not stay: the removal is lost. -/
theorem replay_settledPlaces_of_lost {places : List Place} {pair : Nat × Nat} {node : Handle}
    {removal : Option String} (wellFormed : document.WellFormed) (fit : AllFit document records)
    (settles : Settles document records places)
    (stored : (replay document records).contains node = true)
    (closed : closedPair? records.reverse ⟨.removed node, removal⟩ = some pair)
    (cancelled : cancels (places ++ [some ⟨.removed node, removal⟩]) pair = true)
    (lost : ¬ Stays node (replay document (records.take (pair.1 + 1)))
      (records.drop (pair.1 + 1))) :
    AllFit document (standing (cancel (places ++ [some ⟨.removed node, removal⟩]) pair)) ∧
      replay document (standing (cancel (places ++ [some ⟨.removed node, removal⟩]) pair)) =
        replay document records := by
  obtain ⟨_, first, parent, index, subtree, previous, middle, before, between, same, rfl, rfl,
    aligned, rfl, beside, equal⟩ := split_of_cancels settles closed cancelled
  cases same
  have cut := cut_of_fit wellFormed settles.fit beside
  rw [equal]
  refine ⟨cut.replay_cut.1, ?_⟩
  dsimp only at lost
  rw [take_through, drop_through, ← settles.stays_iff_of_cut aligned wellFormed fit cut stored] at lost
  rw [cut.replay_cut.2, cut.clears.lost lost, ← cut.replay_full previous,
    settles.same]

/-- If the node of each cancelled pair stays, the places that are left lead to the same document. -/
theorem settles_of_steady (wellFormed : document.WellFormed) (fit : AllFit document records)
    (removes : RemovesStored document records) (steady : Steady document records) :
    Settles document records (settledPlaces records) := by
  induction records using List.reverseRecOn with
  | nil =>
    refine { length := rfl, kept := ?_, fit := trivial, same := rfl, traced := ?_ }
    · intro _ _ found
      cases found
    · intro _ _ _ found
      cases found
  | append_singleton records recorded ih =>
    obtain ⟨fitFirst, fits, -⟩ := allFit_append.mp fit
    obtain ⟨removesFirst, removesLast⟩ := removesStored_snoc removes
    obtain ⟨steadyFirst, stays⟩ := steady_snoc.mp steady
    have settles := ih fitFirst removesFirst steadyFirst
    have stands := settles.snoc wellFormed fits
    rw [settledPlaces_snoc]
    cases closed : closedPair? records.reverse recorded with
    | none => exact stands
    | some pair =>
      rw [Option.toList_some, List.foldl_cons, List.foldl_nil]
      by_cases cancelled : cancels (settledPlaces records ++ [some recorded]) pair = true
      · obtain ⟨removal, first, parent, index, subtree, previous, middle, before, between, rfl,
          split, splitPlaces, aligned, rfl, beside, equal⟩ :=
            split_of_cancels settles closed cancelled
        have stays := stays _ subtree.handle removal closed cancelled rfl
        have stored := removesLast subtree.handle removal rfl
        rw [equal]
        rw [splitPlaces, split] at settles
        rw [split] at fitFirst stored stays
        have cut := cut_of_fit wellFormed settles.fit beside
        dsimp only at stays
        rw [take_through, drop_through,
          ← settles.stays_iff_of_cut aligned wellFormed fitFirst cut stored] at stays
        rw [split]
        exact settles.cancel wellFormed cut stays
      · rw [cancel_of_not_cancels (by simpa using cancelled)]
        exact stands

end Settled

end Accessibility.Recorded
