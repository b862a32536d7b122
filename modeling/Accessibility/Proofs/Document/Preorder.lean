import Accessibility.Proofs.Document.Insertion
import Accessibility.Proofs.Document.Nesting

/-!
The layout loop of a well-formed document ends, does each task at most once, and lists the exposed
content in preorder.
-/

set_option autoImplicit false

namespace Accessibility.Document

variable {document : Document}

/-! ### The loop over a stack -/

/-- From a stack that begins with some jobs, the loop does the jobs that are told and no other before
it takes up the rest of the stack. -/
def Finishes (document : Document) (jobs visited : List LayoutJob) : Prop :=
  ∀ (more : Nat) (stack : List LayoutJob),
    document.layoutLoop (visited.length + more) (jobs ++ stack) =
      (visited ++ (document.layoutLoop more stack).1, (document.layoutLoop more stack).2)

namespace Finishes

variable {jobs visited : List LayoutJob}

theorem nil (document : Document) : document.Finishes [] [] := by
  intro more stack
  rw [List.length_nil, Nat.zero_add, List.nil_append, List.nil_append]

theorem append {others visitedOthers : List LayoutJob} (first : document.Finishes jobs visited)
    (second : document.Finishes others visitedOthers) :
    document.Finishes (jobs ++ others) (visited ++ visitedOthers) := by
  intro more stack
  rw [List.length_append, Nat.add_assoc, List.append_assoc, first, second, List.append_assoc]

/-- A job is finished with the jobs that it leads to. -/
theorem job {job : LayoutJob} (below : document.Finishes (document.proceed job).2 visited) :
    document.Finishes [job] (job :: visited) := by
  intro more stack
  rw [List.length_cons, Nat.add_right_comm, List.singleton_append, layoutLoop, below]
  rfl

theorem flatMap {visits : LayoutJob → List LayoutJob}
    (each : ∀ job ∈ jobs, document.Finishes [job] (visits job)) :
    document.Finishes jobs (jobs.flatMap visits) := by
  induction jobs with
  | nil => exact .nil document
  | cons job rest ih =>
    rw [List.flatMap_cons, ← List.singleton_append]
    exact (each job List.mem_cons_self).append
      (ih fun other listed => each other (List.mem_cons_of_mem _ listed))

/-- A loop that finishes its stack has ended, and steps to spare change nothing. -/
theorem layoutLoop_eq (finishes : document.Finishes jobs visited) {steps : Nat}
    (enough : visited.length ≤ steps) : document.layoutLoop steps jobs = (visited, []) := by
  obtain ⟨spare, rfl⟩ := Nat.exists_eq_add_of_le enough
  have done := finishes spare []
  rw [List.append_nil] at done
  rw [done]
  cases spare <;> simp only [layoutLoop, List.append_nil]

end Finishes

/-- The jobs that a job leads to. -/
def jobsBelow? (document : Document) (job : LayoutJob) : Option (List LayoutJob) :=
  some (document.proceed job).2

theorem jobsBelow?_eq (document : Document) (job : LayoutJob) :
    document.jobsBelow? job = some (document.proceed job).2 := rfl

/-- The tasks that a task leads to, none if it is passed over. -/
def tasksNext? (document : Document) (task : LayoutTask) : Option (List LayoutTask) :=
  some ((document.tasksBelow task).getD [])

/-- Where ways down end, the loop does the jobs of the walk, in its order. -/
theorem finishes_descend {depth : Nat} {job : LayoutJob}
    (bounded : ∀ steps target, Walk.Reaches document.jobsBelow? steps job target → steps < depth) :
    document.Finishes [job] (Walk.descend document.jobsBelow? depth job) := by
  induction depth generalizing job with
  | zero => exact absurd (bounded 0 job (.here job)) (Nat.not_lt_zero 0)
  | succ depth ih =>
    rw [Walk.descend_succ_of_some (document.jobsBelow?_eq job)]
    refine .job (.flatMap fun next listed => ih fun steps target lower => ?_)
    exact Nat.lt_of_succ_lt_succ (bounded (steps + 1) target (.step rfl listed lower))

/-- What is laid out is what the jobs of the walk expose. -/
theorem layOut_eq_filterMap (document : Document) (depth : Nat) (job : LayoutJob) :
    document.layOut depth job.task job.parent job.scope =
      (Walk.descend document.jobsBelow? depth job).filterMap
        fun visited => (document.proceed visited).1 := by
  induction depth generalizing job with
  | zero => rfl
  | succ depth ih =>
    rw [layOut_eq_proceed, Walk.descend_succ_of_some (document.jobsBelow?_eq job),
      List.filterMap_cons, List.filterMap_flatMap]
    simp only [ih]
    cases (document.proceed job).1 <;> rfl

/-- The jobs that the loop gets to. -/
inductive Reached (document : Document) : LayoutJob → Prop
  | first : Reached document document.firstJob
  | onward {job next : LayoutJob} (reached : Reached document job)
      (listed : next ∈ (document.proceed job).2) : Reached document next

namespace Reached

theorem of_reaches {steps : Nat} {job target : LayoutJob} (reached : document.Reached job)
    (lower : Walk.Reaches document.jobsBelow? steps job target) : document.Reached target := by
  induction lower with
  | here _ => exact reached
  | step known listed _ ih =>
    cases known
    exact ih (reached.onward listed)

theorem reaches {job : LayoutJob} (reached : document.Reached job) :
    ∃ steps, Walk.Reaches document.jobsBelow? steps document.firstJob job := by
  induction reached with
  | first => exact ⟨0, .here _⟩
  | onward _ listed ih =>
    obtain ⟨steps, upper⟩ := ih
    exact ⟨steps + 1, upper.snoc rfl listed⟩

theorem proper (wellFormed : document.WellFormed) {job : LayoutJob}
    (reached : document.Reached job) : document.Proper job := by
  induction reached with
  | first => exact ⟨wellFormed.met_root, wellFormed.tracks_root⟩
  | onward _ listed ih =>
    obtain ⟨tasks, task, known, listedTask, rfl⟩ := exists_of_mem_proceed wellFormed ih listed
    exact ⟨(wellFormed.met_below ih.met known listedTask).1,
      wellFormed.tracks_below ih.met ih.tracks known listedTask⟩

end Reached

/-- The tasks of the jobs below a job are the tasks below its task. -/
theorem WellFormed.tasksNext?_of_reaches (wellFormed : document.WellFormed) (steps : Nat)
    (job : LayoutJob) (upper : Walk.Reaches document.jobsBelow? steps document.firstJob job) :
    document.tasksNext? job.task = (document.jobsBelow? job).map (List.map LayoutJob.task) := by
  rw [tasksNext?, jobsBelow?, Option.map_some]
  cases known : document.tasksBelow job.task with
  | none =>
    rw [proceed_of_none known]
    rfl
  | some below =>
    have proper := (Reached.first.of_reaches upper).proper wellFormed
    rw [proceed_of_some wellFormed proper known, Option.getD_some, List.map_map]
    exact congrArg some (List.map_id below).symm

theorem tasksBelow_of_mem_tasksNext? {task next : LayoutTask} {below : List LayoutTask}
    (known : document.tasksNext? task = some below) (listed : next ∈ below) :
    document.tasksBelow task = some below := by
  rw [tasksNext?, Option.some.injEq] at known
  subst known
  cases stored : document.tasksBelow task with
  | none =>
    rw [stored] at listed
    cases listed
  | some tasks => rfl

theorem reaches_of_tasksNext? {steps : Nat} {task target : LayoutTask}
    (reached : Walk.Reaches document.tasksNext? steps task target) :
    Walk.Reaches document.tasksBelow steps task target := by
  induction reached with
  | here _ => exact .here _
  | step known listed _ ih => exact .step (tasksBelow_of_mem_tasksNext? known listed) listed ih

namespace WellFormed

theorem tasksNext_rooted (wellFormed : document.WellFormed) :
    Walk.Rooted document.tasksNext? document.taskAbove? (.inside document.root) where
  parent_root := wellFormed.tasks_rooted.parent_root
  parent_listed := fun reached known listed =>
    wellFormed.tasks_rooted.parent_listed (reaches_of_tasksNext? reached)
      (tasksBelow_of_mem_tasksNext? known listed) listed
  nodup := by
    intro steps task below _ known
    cases below with
    | nil => exact List.nodup_nil
    | cons next rest =>
      exact wellFormed.tasks_nodup (tasksBelow_of_mem_tasksNext? known List.mem_cons_self)

end WellFormed

/-- All tasks about stored content. -/
def allTasks (document : Document) : List LayoutTask :=
  document.nodes.keys.map .inside ++ document.nodes.keys.map .self

theorem length_allTasks (document : Document) : document.allTasks.length = 2 * document.size := by
  rw [allTasks, List.length_append, List.length_map, List.length_map,
    Std.ExtTreeMap.length_keys, size]
  omega

theorem mem_allTasks {task : LayoutTask} (stored : document.contains task.handle = true) :
    task ∈ document.allTasks := by
  have listed := (document.mem_keys_iff_contains task.handle).mpr stored
  cases task with
  | inside handle => exact List.mem_append_left _ (List.mem_map_of_mem listed)
  | self handle => exact List.mem_append_right _ (List.mem_map_of_mem listed)

/-- The jobs that the loop does, in its order. -/
def visits (document : Document) : List LayoutJob :=
  Walk.descend document.jobsBelow? (2 * document.size) document.firstJob

namespace WellFormed

theorem jobs_bounded (wellFormed : document.WellFormed) (steps : Nat) (job : LayoutJob)
    (upper : Walk.Reaches document.jobsBelow? steps document.firstJob job) :
    steps < 2 * document.size := by
  rw [← document.length_allTasks]
  refine wellFormed.tasksNext_rooted.steps_lt_length ?_ (upper.map wellFormed.tasksNext?_of_reaches)
  intro _ task reachedTask
  exact mem_allTasks (wellFormed.met_of_reaches (reaches_of_tasksNext? reachedTask)).stored

theorem mem_visits (wellFormed : document.WellFormed) {job : LayoutJob} :
    job ∈ document.visits ↔ document.Reached job := by
  rw [visits, Walk.mem_descend]
  constructor
  · rintro ⟨⟨steps, -, upper⟩, -⟩
    exact Reached.first.of_reaches upper
  · intro reached
    obtain ⟨steps, upper⟩ := reached.reaches
    exact ⟨⟨steps, wellFormed.jobs_bounded steps job upper, upper⟩, rfl⟩

/-- The loop does no task twice. -/
theorem nodup_visits (wellFormed : document.WellFormed) :
    (document.visits.map LayoutJob.task).Nodup := by
  rw [visits, ← Walk.descend_map wellFormed.tasksNext?_of_reaches]
  exact wellFormed.tasksNext_rooted.nodup_descend (.here _)

theorem length_visits_le (wellFormed : document.WellFormed) :
    document.visits.length ≤ 2 * document.size := by
  rw [← List.length_map (f := LayoutJob.task), ← document.length_allTasks]
  refine (List.subperm_of_subset wellFormed.nodup_visits fun task listed => ?_).length_le
  obtain ⟨job, visited, rfl⟩ := List.mem_map.mp listed
  exact mem_allTasks ((wellFormed.mem_visits.mp visited).proper wellFormed).met.stored

/-- The loop ends, and steps to spare change nothing. -/
theorem layoutLoop_eq_visits (wellFormed : document.WellFormed) {steps : Nat}
    (enough : 2 * document.size ≤ steps) :
    document.layoutLoop steps [document.firstJob] = (document.visits, []) :=
  (finishes_descend wellFormed.jobs_bounded).layoutLoop_eq
    (Nat.le_trans wellFormed.length_visits_le enough)

/-- The layout is what the loop exposes. -/
theorem layout_eq_visits (wellFormed : document.WellFormed) :
    document.layout = ⟨document.root, none, .document⟩ ::
      document.visits.filterMap fun job => (document.proceed job).1 := by
  have deep : 2 * document.size ≤ document.layoutDepth :=
    Nat.le_trans (Nat.mul_le_mul_left 2 (Nat.le_succ document.size))
      (Nat.le_mul_of_pos_right _ (Nat.succ_pos document.size))
  rw [visits, ← Walk.descend_eq_of_le deep wellFormed.jobs_bounded, ← layOut_eq_filterMap]
  rfl

end WellFormed

/-! ### Preorder -/

/-- The links of the tree that entries tell by naming their parents. -/
def linksIn? (entries : List Exposed) (handle : Handle) : Option (List Handle) :=
  some (entriesUnder entries handle)

theorem linksIn?_eq (entries : List Exposed) (handle : Handle) :
    linksIn? entries handle = some (entriesUnder entries handle) := rfl

/-- Entries that list a tree in preorder: the root first, every other entry behind that of its parent,
and siblings in the order of their entries. -/
structure InPreorder (root : Handle) (entries : List Exposed) : Prop where
  distinct : (entries.map Exposed.handle).Nodup
  head : entries.head? = some ⟨root, none, .document⟩
  behind : ∀ {before : List Exposed} {entry : Exposed} {after : List Exposed},
    entries = before ++ entry :: after → before ≠ [] →
      ∃ parent ∈ before, entry.parent = some parent.handle
  ordered : ∀ depth ≥ entries.length,
    Walk.descend (linksIn? entries) depth root = entries.map Exposed.handle

/-- The parent that the entry of some content names. -/
def parentIn? (entries : List Exposed) (handle : Handle) : Option Handle :=
  (entries.find? fun entry => entry.handle = handle).bind Exposed.parent

theorem parentIn?_of_mem {entries : List Exposed} (distinct : (entries.map Exposed.handle).Nodup)
    {entry : Exposed} (listed : entry ∈ entries) : parentIn? entries entry.handle = entry.parent := by
  have found : (entries.find? fun other => other.handle = entry.handle) = some entry := by
    refine Lists.find?_eq_some_of_unique listed (decide_eq_true rfl) fun other listedOther same => ?_
    exact List.inj_on_of_nodup_map distinct listedOther listed (of_decide_eq_true same)
  rw [parentIn?, found, Option.bind_some]

theorem mem_entriesUnder {entries : List Exposed} {parent handle : Handle} :
    handle ∈ entriesUnder entries parent ↔
      ∃ entry ∈ entries, entry.parent = some parent ∧ entry.handle = handle := by
  simp only [entriesUnder, List.mem_map, List.mem_filter, decide_eq_true_eq, and_assoc]

namespace Standing

/-- An entry stands behind its parent. -/
theorem parent_before {known : List Handle} {entries before after : List Exposed} {entry : Exposed}
    (standing : Standing known entries) (split : entries = before ++ entry :: after) :
    ∃ parent ∈ known ++ before.map Exposed.handle, entry.parent = some parent := by
  subst split
  induction before generalizing known with
  | nil =>
    rw [List.map_nil, List.append_nil]
    exact standing.1
  | cons first rest ih =>
    obtain ⟨parent, listed, named⟩ := ih standing.2
    rw [List.append_assoc] at listed
    exact ⟨parent, listed, named⟩

/-- Each entry is reached from what is known by going from parents to entries under them. -/
theorem reaches {known : List Handle} {entries all : List Exposed} {root : Handle}
    (standing : Standing known entries) (contained : entries ⊆ all)
    (reached : ∀ handle ∈ known, ∃ steps, Walk.Reaches (linksIn? all) steps root handle)
    {entry : Exposed} (listed : entry ∈ entries) :
    ∃ steps, Walk.Reaches (linksIn? all) steps root entry.handle := by
  -- The induction is along the list, and what is known grows with it.
  induction entries generalizing known with
  | nil => cases listed
  | cons first rest ih =>
    obtain ⟨containedFirst, containedRest⟩ := List.cons_subset.mp contained
    obtain ⟨⟨parent, listedParent, named⟩, standingRest⟩ := standing
    obtain ⟨steps, upper⟩ := reached parent listedParent
    have next := upper.snoc rfl (mem_entriesUnder.mpr ⟨first, containedFirst, named, rfl⟩)
    rcases List.mem_cons.mp listed with rfl | listed
    · exact ⟨steps + 1, next⟩
    · refine ih standingRest containedRest (fun handle listedHandle => ?_) listed
      rcases List.mem_append.mp listedHandle with old | same
      · exact reached handle old
      · rw [List.mem_singleton.mp same]
        exact ⟨steps + 1, next⟩

end Standing

namespace WellFormed

/-- Links lead from the root to every entry. -/
theorem layout_reaches (wellFormed : document.WellFormed) {entry : Exposed}
    (listed : entry ∈ document.layout) :
    ∃ steps, Walk.Reaches (linksIn? document.layout) steps document.root entry.handle := by
  rcases List.mem_cons.mp listed with rfl | listed
  · exact ⟨0, .here _⟩
  · have contained : document.layout.tail ⊆ document.layout := (List.tail_sublist _).subset
    refine (standing_layout wellFormed).reaches contained (fun handle known => ?_) listed
    rw [List.mem_singleton.mp known]
    exact ⟨0, .here _⟩

theorem layout_rooted (wellFormed : document.WellFormed) :
    Walk.Rooted (linksIn? document.layout) (parentIn? document.layout) document.root where
  parent_root := parentIn?_of_mem (layout_nodup wellFormed)
    (List.mem_cons_self : (⟨document.root, none, .document⟩ : Exposed) ∈ document.layout)
  parent_listed := by
    rintro steps parent child below - ⟨⟩ listed
    obtain ⟨entry, listedEntry, named, rfl⟩ := mem_entriesUnder.mp listed
    rw [parentIn?_of_mem (layout_nodup wellFormed) listedEntry, named]
  nodup := by
    rintro steps parent below - ⟨⟩
    exact (layout_nodup wellFormed).sublist (List.filter_sublist.map Exposed.handle)

/-- The number of entries bounds every way along the links. -/
theorem layout_bounded (wellFormed : document.WellFormed) {steps : Nat} {handle : Handle}
    (reached : Walk.Reaches (linksIn? document.layout) steps document.root handle) :
    steps < document.layout.length := by
  rw [← List.length_map (f := Exposed.handle)]
  refine wellFormed.layout_rooted.steps_lt_length (fun more met reachedMet => ?_) reached
  cases more with
  | zero => exact reachedMet.eq_of_zero ▸ List.mem_cons_self
  | succ more =>
    obtain ⟨parent, below, -, ⟨⟩, listed⟩ := reachedMet.last
    obtain ⟨entry, listedEntry, -, rfl⟩ := mem_entriesUnder.mp listed
    exact List.mem_map_of_mem listedEntry

/-- Behind each entry the walk goes on with the entries under it, and it is deep enough for them. -/
theorem descend_entry (wellFormed : document.WellFormed) {entry : Exposed}
    (listed : entry ∈ document.layout) :
    Walk.descend (linksIn? document.layout) document.layout.length entry.handle =
      entry.handle :: (entriesUnder document.layout entry.handle).flatMap
        (Walk.descend (linksIn? document.layout) document.layout.length) := by
  obtain ⟨above, reached⟩ := wellFormed.layout_reaches listed
  obtain ⟨less, length⟩ : ∃ less, document.layout.length = less + 1 := ⟨_, rfl⟩
  rw [length, Walk.descend_succ_of_some (linksIn?_eq document.layout entry.handle)]
  refine congrArg (entry.handle :: ·) (List.flatMap_congr fun child listedChild => ?_)
  refine (Walk.descend_eq_of_le (Nat.le_succ less) fun steps target lower => ?_).symm
  have bound := wellFormed.layout_bounded ((reached.snoc rfl listedChild).trans lower)
  omega

/-- The layout is the walk along its own links. -/
theorem descend_layout (wellFormed : document.WellFormed) :
    Walk.descend (linksIn? document.layout) document.layout.length document.root =
      document.layout.map Exposed.handle := by
  have walked : Walk.descend (linksIn? document.layout) document.layout.length document.root =
      document.layout.map fun entry => id entry.handle :=
    walk_layout wellFormed fun _ listed => wellFormed.descend_entry listed
  exact walked

theorem preorder_layout (wellFormed : document.WellFormed) :
    InPreorder document.root document.layout where
  distinct := layout_nodup wellFormed
  head := rfl
  behind := by
    intro before entry after split nonempty
    obtain ⟨first, rest, rfl⟩ := List.exists_cons_of_ne_nil nonempty
    rw [layout, List.cons_append] at split
    obtain ⟨rfl, splitTail⟩ := List.cons.inj split
    obtain ⟨parent, listed, named⟩ := (standing_layout wellFormed).parent_before splitTail
    rw [List.singleton_append] at listed
    have exposed : parent ∈ List.map Exposed.handle (⟨document.root, none, .document⟩ :: rest) :=
      listed
    obtain ⟨above, listedAbove, rfl⟩ := List.mem_map.mp exposed
    exact ⟨above, listedAbove, named⟩
  ordered := by
    intro depth enough
    rw [← wellFormed.descend_layout]
    exact Walk.descend_eq_of_le enough fun _ _ reached => wellFormed.layout_bounded reached

end WellFormed

/-- The loop over a stack, begun with what is inside the root, ends after no more steps than there are
tasks and does none of them twice. What it exposes is listed behind the root, and the list is a
preorder. -/
theorem layout_preorder (wellFormed : document.WellFormed) :
    InPreorder document.root document.layout ∧
      ∃ visited : List LayoutJob,
        (∀ steps ≥ 2 * document.size,
          document.layoutLoop steps [document.firstJob] = (visited, [])) ∧
        (visited.map LayoutJob.task).Nodup ∧
        document.layout = ⟨document.root, none, .document⟩ ::
          visited.filterMap fun job => (document.proceed job).1 :=
  ⟨wellFormed.preorder_layout, document.visits, fun _ enough => wellFormed.layoutLoop_eq_visits enough,
    wellFormed.nodup_visits, wellFormed.layout_eq_visits⟩

/-- A host with two shadow roots. In the first there is another host, and the slot among its children
goes to a slot in turn; the other slot there has content of its own. Two of the three children of the
outer host are shown. -/
def slottedPage : Subtree :=
  let slot (handle : Handle) (children : List Subtree) : Subtree :=
    { Subtree.single handle (.element "slot") with children }
  let innerTree : Subtree :=
    { Subtree.single ⟨4⟩ .shadowRoot with
      children := [slot ⟨5⟩ [.single ⟨6⟩ .text],
        (slot ⟨7⟩ [.single ⟨8⟩ (.element "em")]).withAttribute "name" "none"] }
  let outerTree : Subtree :=
    { Subtree.single ⟨2⟩ .shadowRoot with
      children := [{ Subtree.single ⟨3⟩ (.element "div") with children := [innerTree, slot ⟨9⟩ []] }] }
  { Subtree.single ⟨0⟩ .document with
    children := [{ Subtree.single ⟨1⟩ (.element "div") with
      children := [outerTree,
        { Subtree.single ⟨10⟩ .shadowRoot with children := [.single ⟨11⟩ (.element "p")] },
        .single ⟨12⟩ (.element "p"), .single ⟨13⟩ .text,
        (Subtree.single ⟨14⟩ (.element "p")).withAttribute "hidden" ""] }] }

theorem layout_preorder_slottedPage :
    slottedPage.Distinct ∧ (ofSubtree slottedPage).kind? ⟨0⟩ = some .document ∧
      (ofSubtree slottedPage).layout =
        [⟨⟨0⟩, none, .document⟩, ⟨⟨1⟩, some ⟨0⟩, .document⟩, ⟨⟨3⟩, some ⟨1⟩, .shadow ⟨2⟩⟩,
          ⟨⟨12⟩, some ⟨3⟩, .document⟩, ⟨⟨13⟩, some ⟨3⟩, .document⟩, ⟨⟨8⟩, some ⟨3⟩, .shadow ⟨4⟩⟩] ∧
      InPreorder ⟨0⟩ (ofSubtree slottedPage).layout ∧
      ∃ visited : List LayoutJob,
        (∀ steps ≥ 2 * (ofSubtree slottedPage).size,
          (ofSubtree slottedPage).layoutLoop steps [(ofSubtree slottedPage).firstJob] =
            (visited, [])) ∧
        (visited.map LayoutJob.task).Nodup ∧
        (ofSubtree slottedPage).layout = ⟨⟨0⟩, none, .document⟩ ::
          visited.filterMap fun job => ((ofSubtree slottedPage).proceed job).1 := by
  have distinct : slottedPage.Distinct := by decide +kernel
  exact ⟨distinct, by decide +kernel, by decide +kernel,
    layout_preorder (wellFormed_ofSubtree distinct)⟩

end Accessibility.Document
