import Accessibility.Proofs.Document.Layout

/-!
The order of the layout. Behind each entry stand the entries below it and nothing else, so the layout
is the walk that begins at the root and goes from each entry to those that name it as their parent.
-/

set_option autoImplicit false

namespace Accessibility.Document

/-- Entries below one parent: each is followed by those below it. -/
inductive Nested : Handle → List Exposed → Prop
  | nil (parent : Handle) : Nested parent []
  | cons {parent : Handle} {entry : Exposed} {inner rest : List Exposed}
      (named : entry.parent = some parent) (below : Nested entry.handle inner)
      (beside : Nested parent rest) : Nested parent (entry :: (inner ++ rest))

namespace Nested

variable {parent : Handle} {entries : List Exposed}

theorem append {more : List Exposed} (first : Nested parent entries) (second : Nested parent more) :
    Nested parent (entries ++ more) := by
  induction first with
  | nil _ => exact second
  | cons named below _ _ ih =>
    rw [List.cons_append, List.append_assoc]
    exact .cons named below (ih second)

theorem flatMap {α : Type} {parts : List α} {entriesOf : α → List Exposed}
    (each : ∀ part ∈ parts, Nested parent (entriesOf part)) :
    Nested parent (parts.flatMap entriesOf) := by
  induction parts with
  | nil => exact .nil parent
  | cons part rest ih =>
    rw [List.flatMap_cons]
    exact (each part List.mem_cons_self).append
      (ih fun other listed => each other (List.mem_cons_of_mem _ listed))

/-- The parent of an entry is the common one or stands among the entries. -/
theorem parent_of_mem (nested : Nested parent entries) {entry : Exposed} (listed : entry ∈ entries) :
    ∃ above, entry.parent = some above ∧ (above = parent ∨ above ∈ entries.map Exposed.handle) := by
  induction nested with
  | nil _ => cases listed
  | @cons parent first inner rest named _ _ ihBelow ihBeside =>
    simp only [List.map_cons, List.map_append, List.mem_cons, List.mem_append] at listed ⊢
    rcases listed with rfl | listed | listed
    · exact ⟨parent, named, .inl rfl⟩
    · obtain ⟨above, linked, same | inside⟩ := ihBelow listed
      · exact ⟨above, linked, .inr (.inl same)⟩
      · exact ⟨above, linked, .inr (.inr (.inl inside))⟩
    · obtain ⟨above, linked, same | inside⟩ := ihBeside listed
      · exact ⟨above, linked, .inl same⟩
      · exact ⟨above, linked, .inr (.inr (.inr inside))⟩

end Nested

/-- The content of those entries that name a parent. -/
def entriesUnder (entries : List Exposed) (parent : Handle) : List Handle :=
  (entries.filter fun entry => entry.parent = some parent).map Exposed.handle

theorem entriesUnder_append (first second : List Exposed) (parent : Handle) :
    entriesUnder (first ++ second) parent = entriesUnder first parent ++ entriesUnder second parent := by
  rw [entriesUnder, List.filter_append, List.map_append, entriesUnder, entriesUnder]

theorem entriesUnder_cons (entry : Exposed) (rest : List Exposed) (parent : Handle) :
    entriesUnder (entry :: rest) parent =
      if entry.parent = some parent then entry.handle :: entriesUnder rest parent
      else entriesUnder rest parent := by
  rw [entriesUnder, List.filter_cons]
  simp only [decide_eq_true_eq]
  split <;> rfl

/-- Nothing that is neither the common parent nor an entry has entries under it. -/
theorem Nested.entriesUnder_eq_nil {parent other : Handle} {entries : List Exposed}
    (nested : Nested parent entries) (apart : other ≠ parent)
    (absent : other ∉ entries.map Exposed.handle) : entriesUnder entries other = [] := by
  rw [entriesUnder, List.map_eq_nil_iff, List.filter_eq_nil_iff]
  intro entry listed
  rw [decide_eq_true_eq]
  intro named
  obtain ⟨above, linked, same | inside⟩ := nested.parent_of_mem listed
  · rw [named] at linked
    cases linked
    exact apart same
  · rw [named] at linked
    cases linked
    exact absent inside

/-- A walk that goes from each entry to those under it tells the entries in their order. -/
theorem Nested.flatMap_walk {β : Type} {parent : Handle} {entries : List Exposed}
    (nested : Nested parent entries) (distinct : (parent :: entries.map Exposed.handle).Nodup)
    {tell : Handle → β} {walk : Handle → List β}
    (step : ∀ entry ∈ entries, walk entry.handle =
      tell entry.handle :: (entriesUnder entries entry.handle).flatMap walk) :
    (entriesUnder entries parent).flatMap walk =
      entries.map fun entry => tell entry.handle := by
  induction nested with
  | nil _ => rfl
  | @cons parent entry inner rest named below beside ihBelow ihBeside =>
    simp only [List.map_cons, List.map_append, List.nodup_cons, List.mem_cons, List.mem_append,
      not_or, List.nodup_append'] at distinct
    obtain ⟨⟨differ, parentInner, parentRest⟩, ⟨entryInner, entryRest⟩, distinctInner, distinctRest,
      disjoint⟩ := distinct
    have under (handle : Handle) : entriesUnder (entry :: (inner ++ rest)) handle =
        if parent = handle then entry.handle :: (entriesUnder inner handle ++ entriesUnder rest handle)
        else entriesUnder inner handle ++ entriesUnder rest handle := by
      rw [entriesUnder_cons, named, entriesUnder_append]
      simp only [Option.some.injEq]
    have underEntry : entriesUnder (entry :: (inner ++ rest)) entry.handle =
        entriesUnder inner entry.handle := by
      rw [under, if_neg differ, beside.entriesUnder_eq_nil (Ne.symm differ) entryRest,
        List.append_nil]
    have walkEntry : walk entry.handle =
        tell entry.handle :: inner.map fun other => tell other.handle := by
      rw [step entry List.mem_cons_self, underEntry]
      refine congrArg (tell entry.handle :: ·) (ihBelow ?_ fun other listed => ?_)
      · exact List.nodup_cons.mpr ⟨entryInner, distinctInner⟩
      · have inside := List.mem_map_of_mem (f := Exposed.handle) listed
        have apart : other.handle ≠ parent := fun same => parentInner (same ▸ inside)
        rw [step other (by simp [listed]), under, if_neg (Ne.symm apart),
          beside.entriesUnder_eq_nil apart fun again => disjoint inside again, List.append_nil]
    have walkRest : (entriesUnder rest parent).flatMap walk =
        rest.map fun other => tell other.handle := by
      refine ihBeside (List.nodup_cons.mpr ⟨parentRest, distinctRest⟩) fun other listed => ?_
      have inside := List.mem_map_of_mem (f := Exposed.handle) listed
      have apart : other.handle ≠ parent := fun same => parentRest (same ▸ inside)
      have apartEntry : other.handle ≠ entry.handle := fun same => entryRest (same ▸ inside)
      rw [step other (by simp [listed]), under, if_neg (Ne.symm apart),
        below.entriesUnder_eq_nil apartEntry fun again => disjoint again inside, List.nil_append]
    rw [under, if_pos rfl, below.entriesUnder_eq_nil differ parentInner, List.nil_append,
      List.flatMap_cons, walkEntry, walkRest, List.map_cons, List.map_append, List.cons_append]

variable {document : Document}

theorem nested_layOut (wellFormed : document.WellFormed) {scope : Scope} {task : LayoutTask}
    (met : document.Met task) (tracks : document.Tracks scope task.handle) (depth : Nat)
    (parent : Handle) : Nested parent (document.layOut depth task parent scope) := by
  induction depth generalizing task parent scope with
  | zero => exact .nil parent
  | succ depth ih =>
    rw [layOut_succ wellFormed met tracks]
    cases below : document.tasksBelow task with
    | none => exact .nil parent
    | some tasks =>
      have rest (parent : Handle) : Nested parent (tasks.flatMap fun next =>
          document.layOut depth next parent (document.scopeBelow scope task next)) :=
        Nested.flatMap fun next listed => ih (wellFormed.met_below met below listed).1
          (wellFormed.tracks_below met tracks below listed) parent
      cases document.exposedIn? scope task with
      | none => exact rest parent
      | some handle =>
        dsimp only
        rw [← List.append_nil (tasks.flatMap _)]
        exact .cons rfl (rest handle) (.nil parent)

theorem nested_layout (wellFormed : document.WellFormed) :
    Nested document.root document.layout.tail :=
  nested_layOut wellFormed wellFormed.met_root wellFormed.tracks_root _ _

/-- The parent of an entry is exposed itself. -/
theorem parent_mem_layout (wellFormed : document.WellFormed) {entry : Exposed} {parent : Handle}
    (listed : entry ∈ document.layout) (named : entry.parent = some parent) :
    parent ∈ document.layout.map Exposed.handle := by
  rcases List.mem_cons.mp listed with rfl | listed
  · cases named
  · obtain ⟨above, linked, same⟩ := (nested_layout wellFormed).parent_of_mem listed
    rw [named] at linked
    cases linked
    exact List.mem_cons.mpr same

/-- The walk from the root tells the layout. -/
theorem walk_layout (wellFormed : document.WellFormed) {β : Type} {tell : Handle → β}
    {walk : Handle → List β}
    (step : ∀ entry ∈ document.layout, walk entry.handle =
      tell entry.handle :: (entriesUnder document.layout entry.handle).flatMap walk) :
    walk document.root = document.layout.map fun entry => tell entry.handle := by
  have under (handle : Handle) :
      entriesUnder document.layout handle = entriesUnder document.layout.tail handle := by
    rw [layout, entriesUnder_cons, if_neg (Option.some_ne_none handle).symm]
    rfl
  have walked : (entriesUnder document.layout.tail document.root).flatMap walk =
      document.layout.tail.map fun entry => tell entry.handle := by
    refine (nested_layout wellFormed).flatMap_walk (layout_nodup wellFormed) fun entry listed => ?_
    rw [step entry (List.mem_of_mem_tail listed), under]
  rw [step ⟨document.root, none, .document⟩ List.mem_cons_self, under, walked]
  rfl

end Accessibility.Document
