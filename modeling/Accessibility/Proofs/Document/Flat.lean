import Accessibility.Proofs.Document.Preorder
import Accessibility.Proofs.Document.Slots

/-!
The layout of a document told from the content upwards. The jobs of the layout loop go down where flat
parents lead up, so what is exposed is what can be exposed and is shown, and its parent in the layout
is the first of its flat parents that is not transparent.
-/

set_option autoImplicit false

namespace Accessibility.Document

variable {document : Document}

/-! ### Flat parents -/

/-- Whether a node shows its own children: it is no slot of a shadow tree, or nothing is assigned to
it. -/
def Opens (document : Document) (handle : Handle) (node : ContentNode) : Prop :=
  ∀ root, document.scopeOf handle = .shadow root → node.kind.isSlot = true →
    document.assigned root handle = []

/-- Where a node is laid out: inside its own parent, or in the slot that shows it. -/
inductive Placed (document : Document) (handle : Handle) : Handle → Prop
  | own {node above : ContentNode} {parent : Handle} (stored : document.get? handle = some node)
      (linked : node.parent = some parent) (storedParent : document.get? parent = some above)
      (free : ∀ root, document.shadowRootOf? above = some root → root = handle)
      (opens : document.Opens parent above) : Placed document handle parent
  | slotted {node above : ContentNode} {parent root slot : Handle}
      (stored : document.get? handle = some node) (linked : node.parent = some parent)
      (storedParent : document.get? parent = some above)
      (entered : document.shadowRootOf? above = some root) (apart : root ≠ handle)
      (listed : handle ∈ document.assigned root slot) : Placed document handle slot

theorem ownPlace_eq_some {parent place : Handle} {above : ContentNode} :
    placeUnder?.ownPlace document parent above = some place ↔
      parent = place ∧ document.Opens parent above := by
  unfold placeUnder?.ownPlace Opens
  cases document.scopeOf parent with
  | document => simp
  | shadow root =>
    cases isSlot : above.kind.isSlot with
    | false => simp
    | true => cases shown : document.assigned root parent <;> simp [shown]

theorem flatParent?_eq_some {handle place : Handle} :
    document.flatParent? handle = some place ↔ document.Placed handle place := by
  unfold flatParent?
  constructor
  · intro placed
    split at placed
    · cases placed
    rename_i parent link
    obtain ⟨node, stored, linked⟩ := Option.bind_eq_some_iff.mp link
    split at placed
    · cases placed
    rename_i above storedParent
    unfold placeUnder? at placed
    split at placed
    · rename_i none
      obtain ⟨rfl, opens⟩ := ownPlace_eq_some.mp placed
      exact .own stored linked storedParent (fun root entered => by rw [none] at entered; cases entered)
        opens
    · rename_i root entered
      split at placed
      · rename_i same
        subst same
        obtain ⟨rfl, opens⟩ := ownPlace_eq_some.mp placed
        refine .own stored linked storedParent (fun other entered' => ?_) opens
        rw [entered] at entered'
        exact (Option.some.inj entered').symm
      · rename_i apart
        exact .slotted stored linked storedParent entered apart (find_slotsOf_eq_some.mp placed)
  · intro placed
    cases placed with
    | own stored linked storedParent free opens =>
      simp only [stored, Option.bind_some, linked, storedParent, placeUnder?]
      have own := ownPlace_eq_some.mpr ⟨rfl, opens⟩
      cases entered : document.shadowRootOf? _ with
      | none => exact own
      | some root =>
        dsimp only
        rw [if_pos (free root entered)]
        exact own
    | slotted stored linked storedParent entered apart listed =>
      simp only [stored, Option.bind_some, linked, storedParent, placeUnder?, entered, if_neg apart]
      exact find_slotsOf_eq_some.mpr listed

namespace HangsBelow

variable {handle place above : Handle}

theorem unique (one : document.HangsBelow handle above) {other : Handle}
    (two : document.HangsBelow handle other) : other = above := by
  induction one with
  | place placed solid =>
    cases two with
    | place placed' _ =>
      rw [placed] at placed'
      exact (Option.some.inj placed').symm
    | through placed' transparent _ =>
      rw [placed] at placed'
      cases placed'
      rw [solid] at transparent
      cases transparent
  | through placed transparent _ ih =>
    cases two with
    | place placed' solid =>
      rw [placed] at placed'
      cases placed'
      rw [solid] at transparent
      cases transparent
    | through placed' _ rest =>
      rw [placed] at placed'
      cases placed'
      exact ih rest

end HangsBelow

/-- The exposed node that what is placed in a node hangs below: the node itself, or the one that it
hangs below if it is transparent. -/
def Fronts (document : Document) (place above : Handle) : Prop :=
  if document.isTransparent place then document.HangsBelow place above else place = above

theorem Fronts.hangsBelow {handle place above : Handle} (fronts : document.Fronts place above)
    (placed : document.flatParent? handle = some place) : document.HangsBelow handle above := by
  unfold Fronts at fronts
  split at fronts
  · rename_i transparent
    exact .through placed transparent fronts
  · rename_i solid
    subst fronts
    exact .place placed (Bool.eq_false_iff.mpr solid)

theorem letsThrough_eq_true {node : ContentNode} :
    letsThrough node = true ↔
      node.kind = .shadowRoot ∨ node.kind ≠ .document ∧ node.isHidden = false := by
  unfold letsThrough
  cases node.kind <;> simp

/-! ### What the jobs tell -/

/-- The job stands where flat parents lead: what is inside a node hangs below the exposed parent of
the job, and so does a node that is laid out itself. -/
inductive Seated (document : Document) : LayoutTask → Handle → Prop
  | inside {handle above : Handle} (shown : document.Shown handle)
      (opens : ∀ node, document.get? handle = some node → document.Opens handle node)
      (fronts : document.Fronts handle above) : Seated document (.inside handle) above
  | self {handle place above : Handle} (placed : document.flatParent? handle = some place)
      (shown : document.Shown place) (hangs : document.HangsBelow handle above) :
      Seated document (.self handle) above

theorem inside_mem_tasksAt {handle : Handle} {node : ContentNode} :
    .inside handle ∈ document.tasksAt handle node ↔ document.Opens handle node := by
  unfold tasksAt Opens
  cases document.scopeOf handle with
  | document => simp
  | shadow root =>
    cases isSlot : node.kind.isSlot with
    | false => simp
    | true => cases shown : document.assigned root handle <;> simp [shown]

theorem self_mem_tasksAt {root slot light : Handle} {node : ContentNode}
    (isSlot : node.kind.isSlot = true) (scope : document.scopeOf slot = .shadow root)
    (listed : light ∈ document.assigned root slot) :
    .self light ∈ document.tasksAt slot node := by
  simp only [tasksAt, scope, isSlot, if_true]
  cases shown : document.assigned root slot with
  | nil =>
    rw [shown] at listed
    cases listed
  | cons first rest => exact List.mem_map_of_mem (shown ▸ listed)

theorem tasksBelow_self {handle : Handle} {node : ContentNode}
    (stored : document.get? handle = some node)
    (shown : ¬ (node.kind = .shadowRoot ∨ node.kind = .document ∨ node.isHidden)) :
    document.tasksBelow (.self handle) = some (document.tasksAt handle node) := by
  rw [tasksBelow, stored, Option.bind_some, if_neg shown]

/-- Below a document only the slots of shadow trees are not exposed. -/
theorem Proper.exposedIn?_self (wellFormed : document.WellFormed)
    (top : document.kind? document.root = some .document) {job : LayoutJob} {handle : Handle}
    (proper : document.Proper job) (task : job.task = .self handle) :
    document.exposedIn? job.scope job.task =
      if document.isShadowSlot handle then none else some handle := by
  have scope := proper.tracks.scopeOf_eq wellFormed proper.met.stored (not_shadowRoot_root top)
  rw [task, LayoutTask.handle] at scope
  rw [scope, task, exposedIn?, isShadowSlot, Bool.and_comm]

/-- The slot that shows a child of a host is its flat parent. -/
theorem flatParent?_light (wellFormed : document.WellFormed) {root slot light : Handle}
    (met : document.Met (.self slot)) (scope : document.scopeOf slot = .shadow root)
    (listed : light ∈ document.assigned root slot) :
    document.flatParent? light = some slot ∧ document.isShadowSlot slot = true := by
  obtain ⟨host, above, node, -, storedHost, listedLight, stored, plain, entered, -, -⟩ :=
    wellFormed.met_assigned met scope listed
  have linked := wellFormed.parent_of_mem_children storedHost listedLight stored
  have apart : root ≠ light := by
    rintro rfl
    exact plain ((isShadowRoot_of_get? stored).mp (List.find?_some entered))
  refine ⟨flatParent?_eq_some.mpr (.slotted stored linked storedHost entered apart listed), ?_⟩
  rw [isShadowSlot, (wellFormed.slot_of_assigned (List.find?_some entered) listed).1, scope]
  rfl

namespace Seated

/-- What is inside the first shadow root of a host is in the place of what is inside the host. -/
theorem shadow (wellFormed : document.WellFormed) {host root parent : Handle} {above : ContentNode}
    (seated : document.Seated (.inside host) parent) (stored : document.get? host = some above)
    (first : document.shadowRootOf? above = some root) :
    document.Seated (.inside root) parent := by
  cases seated with
  | inside shown opens fronts =>
    have isRoot : document.isShadowRoot root = true := List.find?_some first
    obtain ⟨node, storedRoot, linked⟩ :=
      wellFormed.linked stored (List.mem_of_find?_eq_some first)
    have kind := (isShadowRoot_of_get? storedRoot).mp isRoot
    have free (other : Handle) (entered : document.shadowRootOf? above = some other) :
        other = root := by
      rw [first] at entered
      exact (Option.some.inj entered).symm
    have placed : document.flatParent? root = some host :=
      flatParent?_eq_some.mpr (.own storedRoot linked stored free (opens above stored))
    refine .inside (.inside storedRoot (letsThrough_eq_true.mpr (.inl kind)) placed shown) ?_ ?_
    · intro other stored' _ _ isSlot
      rw [storedRoot] at stored'
      cases stored'
      rw [kind] at isSlot
      cases isSlot
    · rw [Fronts, isTransparent, isRoot, Bool.true_or, if_pos rfl]
      exact fronts.hangsBelow placed

theorem child (wellFormed : document.WellFormed) {host handle parent : Handle} {above : ContentNode}
    (seated : document.Seated (.inside host) parent) (stored : document.get? host = some above)
    (none : document.shadowRootOf? above = none) (listed : handle ∈ above.children) :
    document.Seated (.self handle) parent := by
  cases seated with
  | inside shown opens fronts =>
    obtain ⟨node, storedChild, linked⟩ := wellFormed.linked stored listed
    have free (root : Handle) (entered : document.shadowRootOf? above = some root) :
        root = handle := by
      rw [none] at entered
      cases entered
    have placed : document.flatParent? handle = some host :=
      flatParent?_eq_some.mpr (.own storedChild linked stored free (opens above stored))
    exact .self placed shown (fronts.hangsBelow placed)

/-- A node that is laid out lets through what is inside it. -/
theorem shown_self {handle parent : Handle} {node : ContentNode}
    (seated : document.Seated (.self handle) parent) (stored : document.get? handle = some node)
    (plain : ¬ (node.kind = .shadowRoot ∨ node.kind = .document ∨ node.isHidden)) :
    document.Shown handle := by
  obtain ⟨-, rest⟩ := not_or.mp plain
  obtain ⟨kind, visible⟩ := not_or.mp rest
  cases seated with
  | self placed shown hangs =>
    exact .inside stored (letsThrough_eq_true.mpr (.inr ⟨kind, Bool.eq_false_iff.mpr visible⟩))
      placed shown

/-- What is inside a node hangs below it, if it is exposed, and otherwise where the node hangs. -/
theorem content {handle parent : Handle} {node : ContentNode}
    (seated : document.Seated (.self handle) parent) (stored : document.get? handle = some node)
    (plain : ¬ (node.kind = .shadowRoot ∨ node.kind = .document ∨ node.isHidden))
    (opens : document.Opens handle node) :
    document.Seated (.inside handle)
      ((if document.isShadowSlot handle then none else some handle).getD parent) := by
  refine .inside (seated.shown_self stored plain) (fun other stored' => ?_) ?_
  · rw [stored] at stored'
    cases stored'
    exact opens
  · have noRoot : document.isShadowRoot handle = false :=
      (not_isShadowRoot_of_get? stored).mpr fun kind => plain (.inl kind)
    rw [Fronts, isTransparent, noRoot, Bool.false_or]
    cases seated with
    | self _ _ hangs => cases document.isShadowSlot handle <;> simp [hangs]

/-- What is assigned to a slot hangs below what the slot hangs below. -/
theorem light (wellFormed : document.WellFormed) {root slot handle parent : Handle}
    {node : ContentNode} (seated : document.Seated (.self slot) parent)
    (met : document.Met (.self slot)) (stored : document.get? slot = some node)
    (plain : ¬ (node.kind = .shadowRoot ∨ node.kind = .document ∨ node.isHidden))
    (scope : document.scopeOf slot = .shadow root) (listed : handle ∈ document.assigned root slot) :
    document.isShadowSlot slot = true ∧ document.Seated (.self handle) parent := by
  obtain ⟨placed, isSlot⟩ := flatParent?_light wellFormed met scope listed
  refine ⟨isSlot, .self placed (seated.shown_self stored plain) ?_⟩
  cases seated with
  | self _ _ hangs =>
    refine .through placed ?_ hangs
    rw [isTransparent, isSlot, Bool.or_true]

/-- The jobs that a seated job leads to are seated. -/
theorem below (wellFormed : document.WellFormed)
    (top : document.kind? document.root = some .document) {job : LayoutJob}
    (proper : document.Proper job) (seated : document.Seated job.task job.parent)
    {tasks : List LayoutTask} (known : document.tasksBelow job.task = some tasks)
    {next : LayoutTask} (listed : next ∈ tasks) :
    document.Seated next (document.jobBelow job next).parent := by
  have met := proper.met
  have exposed {handle : Handle} (task : job.task = .self handle) :=
    proper.exposedIn?_self wellFormed top task
  rw [jobBelow]
  -- What the cases say of the task must not touch the other fields of the job.
  generalize job.task = task at *
  cases taskBelow_of_mem known listed with
  | shadow stored first => exact seated.shadow wellFormed stored first
  | child stored none listedChild => exact seated.child wellFormed stored none listedChild
  | content stored plain =>
    rw [tasksBelow_self stored plain] at known
    cases known
    rw [exposed rfl]
    exact seated.content stored plain (inside_mem_tasksAt.mp listed)
  | light stored plain own listedLight =>
    obtain ⟨isSlot, seated⟩ := seated.light wellFormed met stored plain own listedLight
    rw [exposed rfl, isSlot]
    exact seated

end Seated

theorem Reached.seated (wellFormed : document.WellFormed)
    (top : document.kind? document.root = some .document) {job : LayoutJob}
    (reached : document.Reached job) : document.Seated job.task job.parent := by
  induction reached with
  | first =>
    -- The loop begins inside the root, which is no slot and hangs below nothing.
    refine .inside .root (fun node stored _ _ isSlot => ?_) ?_
    · rw [kind?, stored, Option.map_some, Option.some.injEq] at top
      rw [top] at isSlot
      cases isSlot
    · rw [Fronts, isTransparent, not_shadowRoot_root top, isShadowSlot, top]
      rfl
  | onward reached listed ih =>
    have proper := reached.proper wellFormed
    obtain ⟨tasks, task, known, listedTask, rfl⟩ := exists_of_mem_proceed wellFormed proper listed
    exact ih.below wellFormed top proper known listedTask

/-- The jobs that expose a node, and what they tell of it. -/
theorem Proper.exposes_iff (wellFormed : document.WellFormed)
    (top : document.kind? document.root = some .document) {job : LayoutJob}
    (proper : document.Proper job) {entry : Exposed} :
    (document.proceed job).1 = some entry ↔
      ∃ node, job.task = .self entry.handle ∧ document.get? entry.handle = some node ∧
        ¬ (node.kind = .shadowRoot ∨ node.kind = .document ∨ node.isHidden) ∧
        document.isShadowSlot entry.handle = false ∧
        entry = ⟨entry.handle, some job.parent, job.scope⟩ := by
  constructor
  · intro exposes
    cases known : document.tasksBelow job.task with
    | none =>
      rw [proceed_of_none known] at exposes
      cases exposes
    | some tasks =>
      rw [proceed_of_some wellFormed proper known] at exposes
      obtain ⟨handle, exposed, rfl⟩ := Option.map_eq_some_iff.mp exposes
      cases task : job.task with
      | inside other =>
        rw [task] at exposed
        cases exposed
      | self other =>
        rw [proper.exposedIn?_self wellFormed top task] at exposed
        split at exposed
        · cases exposed
        rename_i noSlot
        cases exposed
        rw [task] at known
        obtain ⟨node, stored, kept⟩ := Option.bind_eq_some_iff.mp known
        split at kept
        · cases kept
        rename_i plain
        exact ⟨node, rfl, stored, plain, Bool.eq_false_iff.mpr noSlot, rfl⟩
  · rintro ⟨node, task, stored, plain, noSlot, same⟩
    have known := tasksBelow_self stored plain
    rw [← task] at known
    rw [proceed_of_some wellFormed proper known, proper.exposedIn?_self wellFormed top task, noSlot,
      same]
    rfl

/-! ### From flat parents to jobs -/

/-- Whether the loop does a task. -/
def Visits (document : Document) (task : LayoutTask) : Prop :=
  ∃ job, document.Reached job ∧ job.task = task

theorem Visits.below (wellFormed : document.WellFormed) {task next : LayoutTask}
    (visits : document.Visits task) {tasks : List LayoutTask}
    (known : document.tasksBelow task = some tasks) (listed : next ∈ tasks) :
    document.Visits next := by
  obtain ⟨job, reached, rfl⟩ := visits
  refine ⟨document.jobBelow job next, reached.onward ?_, rfl⟩
  rw [proceed_of_some wellFormed (reached.proper wellFormed) known]
  exact List.mem_map_of_mem listed

/-- The task that content is first met in: the root and shadow roots are not laid out themselves. -/
def entryTask (document : Document) (handle : Handle) : LayoutTask :=
  if handle = document.root ∨ document.isShadowRoot handle = true then .inside handle
  else .self handle

theorem entryTask_of_plain {handle : Handle} (below : handle ≠ document.root)
    (plain : document.isShadowRoot handle = false) : document.entryTask handle = .self handle := by
  refine if_neg (not_or.mpr ⟨below, ?_⟩)
  rw [plain]
  exact Bool.false_ne_true

namespace Shown

variable {handle : Handle}

theorem stored (wellFormed : document.WellFormed) (shown : document.Shown handle) :
    ∃ node, document.get? handle = some node := by
  cases shown with
  | root => exact exists_of_contains wellFormed.contains_root
  | inside stored _ _ _ => exact ⟨_, stored⟩

/-- Content that is shown and laid out itself is passed through. -/
theorem plain (shown : document.Shown handle) (below : handle ≠ document.root)
    (noRoot : document.isShadowRoot handle = false) {node : ContentNode}
    (stored : document.get? handle = some node) :
    ¬ (node.kind = .shadowRoot ∨ node.kind = .document ∨ node.isHidden) := by
  cases shown with
  | root => exact absurd rfl below
  | inside stored' lets _ _ =>
    rw [stored] at stored'
    cases stored'
    have other := (not_isShadowRoot_of_get? stored).mp noRoot
    rcases letsThrough_eq_true.mp lets with kind | ⟨kind, visible⟩
    · exact absurd kind other
    · simp [other, kind, visible]

/-- What is inside shown content is met with it, if nothing is shown in its place. -/
theorem visits_inside (wellFormed : document.WellFormed) {node : ContentNode}
    (shown : document.Shown handle) (visits : document.Visits (document.entryTask handle))
    (stored : document.get? handle = some node) (opens : document.Opens handle node) :
    document.Visits (.inside handle) := by
  unfold entryTask at visits
  split at visits
  · exact visits
  · rename_i other
    obtain ⟨below, noRoot⟩ := not_or.mp other
    have plain := shown.plain below (Bool.eq_false_iff.mpr noRoot) stored
    exact visits.below wellFormed (tasksBelow_self stored plain) (inside_mem_tasksAt.mpr opens)

/-- Content that is placed in its parent is met with what is inside the parent. -/
theorem visits_own (wellFormed : document.WellFormed) {node above : ContentNode} {parent : Handle}
    (inside : document.Visits (.inside parent)) (stored : document.get? handle = some node)
    (linked : node.parent = some parent) (storedParent : document.get? parent = some above)
    (free : ∀ root, document.shadowRootOf? above = some root → root = handle) :
    document.Visits (document.entryTask handle) := by
  have listed := wellFormed.listed_of_parent stored linked storedParent
  have known : document.tasksBelow (.inside parent) = some (document.tasksInside above) := by
    rw [tasksBelow, storedParent, Option.map_some]
  unfold tasksInside at known
  cases entered : document.shadowRootOf? above with
  | none =>
    have noRoot := List.find?_eq_none.mp entered handle listed
    rw [entered] at known
    rw [entryTask_of_plain (wellFormed.ne_root_of_child storedParent listed)
      (Bool.eq_false_iff.mpr noRoot)]
    exact inside.below wellFormed known (List.mem_map_of_mem listed)
  | some root =>
    have same := free root entered
    subst same
    rw [entered] at known
    rw [entryTask, if_pos (.inr (List.find?_some entered))]
    exact inside.below wellFormed known List.mem_cons_self

/-- Content that is placed in a slot is met with the slot. -/
theorem visits_slotted (wellFormed : document.WellFormed)
    (top : document.kind? document.root = some .document) {root slot : Handle}
    (shown : document.Shown slot) (visits : document.Visits (document.entryTask slot))
    (isRoot : document.isShadowRoot root = true) (listed : handle ∈ document.assigned root slot) :
    document.Visits (document.entryTask handle) := by
  obtain ⟨isSlot, scope⟩ := wellFormed.slot_of_assigned isRoot listed
  have below : slot ≠ document.root := by
    rintro rfl
    rw [top] at isSlot
    cases isSlot
  obtain ⟨slotNode, storedSlot, isSlot⟩ : ∃ node, document.get? slot = some node ∧
      node.kind.isSlot = true := by
    rwa [kind?, Option.any_map, Option.any_eq_true] at isSlot
  obtain ⟨host, above, node, linked, storedHost, listedLight, stored, plain, -⟩ := mem_assigned listed
  have noRoot : document.isShadowRoot slot = false := by
    refine (not_isShadowRoot_of_get? storedSlot).mpr fun kind => ?_
    rw [kind] at isSlot
    cases isSlot
  have plainLight := (not_isShadowRoot_of_get? stored).mpr plain
  rw [entryTask_of_plain below noRoot] at visits
  rw [entryTask_of_plain (wellFormed.ne_root_of_child storedHost listedLight) plainLight]
  exact visits.below wellFormed (tasksBelow_self storedSlot (shown.plain below noRoot storedSlot))
    (self_mem_tasksAt isSlot scope listed)

/-- The loop meets all shown content. -/
theorem visits (wellFormed : document.WellFormed)
    (top : document.kind? document.root = some .document) (shown : document.Shown handle) :
    document.Visits (document.entryTask handle) := by
  -- The induction is on the way up: the place is met already, so its tasks lead to the content.
  induction shown with
  | root => exact ⟨document.firstJob, .first, (if_pos (.inl rfl)).symm⟩
  | inside _ _ placed rest ih =>
    cases flatParent?_eq_some.mp placed with
    | own stored linked storedParent free opens =>
      exact visits_own wellFormed (rest.visits_inside wellFormed ih storedParent opens) stored linked
        storedParent free
    | slotted _ _ _ entered _ listed =>
      exact visits_slotted wellFormed top rest ih (List.find?_some entered) listed

end Shown

/-! ### The layout -/

/-- Content that can be exposed is not passed over, unless it is hidden. -/
theorem canBeExposed_iff {handle : Handle} {node : ContentNode}
    (stored : document.get? handle = some node) :
    document.canBeExposed handle = true ↔
      node.kind ≠ .shadowRoot ∧ node.kind ≠ .document ∧ document.isShadowSlot handle = false := by
  rw [canBeExposed, kind?, stored, Option.map_some]
  cases kind : node.kind with
  | element tag => simp
  | text => simp [isShadowSlot, kind?, stored, kind, Kind.isSlot, Kind.tag?]
  | document => simp
  | shadowRoot => simp

theorem mem_layout_iff (wellFormed : document.WellFormed) {entry : Exposed} :
    entry ∈ document.layout ↔ entry = ⟨document.root, none, .document⟩ ∨
      ∃ job, document.Reached job ∧ (document.proceed job).1 = some entry := by
  rw [wellFormed.layout_eq_visits, List.mem_cons, List.mem_filterMap]
  simp only [wellFormed.mem_visits]

/-- What is exposed besides the root is what can be exposed and is shown. -/
theorem exposed_iff (wellFormed : document.WellFormed)
    (top : document.kind? document.root = some .document) {handle : Handle} :
    handle ∈ document.layout.map Exposed.handle ↔
      handle = document.root ∨ document.canBeExposed handle = true ∧ document.Shown handle := by
  constructor
  · intro listed
    obtain ⟨entry, listedEntry, rfl⟩ := List.mem_map.mp listed
    rcases (mem_layout_iff wellFormed).mp listedEntry with rfl | ⟨job, reached, exposes⟩
    · exact .inl rfl
    · obtain ⟨node, task, stored, plain, noSlot, -⟩ :=
        ((reached.proper wellFormed).exposes_iff wellFormed top).mp exposes
      have seated := reached.seated wellFormed top
      rw [task] at seated
      obtain ⟨noRoot, rest⟩ := not_or.mp plain
      exact .inr ⟨(canBeExposed_iff stored).mpr ⟨noRoot, (not_or.mp rest).1, noSlot⟩,
        seated.shown_self stored plain⟩
  · rintro (rfl | ⟨canBe, shown⟩)
    · exact List.mem_cons_self
    · by_cases below : handle = document.root
      · exact below ▸ List.mem_cons_self
      obtain ⟨node, stored⟩ := shown.stored wellFormed
      obtain ⟨kind, -, noSlot⟩ := (canBeExposed_iff stored).mp canBe
      have noRoot := (not_isShadowRoot_of_get? stored).mpr kind
      have visits := shown.visits wellFormed top
      rw [entryTask_of_plain below noRoot] at visits
      obtain ⟨job, reached, task⟩ := visits
      have exposes : (document.proceed job).1 = some ⟨handle, some job.parent, job.scope⟩ :=
        ((reached.proper wellFormed).exposes_iff wellFormed top).mpr
          ⟨node, task, stored, shown.plain below noRoot stored, noSlot, rfl⟩
      exact List.mem_map_of_mem ((mem_layout_iff wellFormed).mpr (.inr ⟨job, reached, exposes⟩))

/-- The content that is exposed besides the root is the content that can be exposed and is shown, and
its parent in the layout is the first of its flat parents that is not transparent. -/
theorem layout_shown (wellFormed : document.WellFormed)
    (top : document.kind? document.root = some .document) :
    (∀ handle, handle ∈ document.layout.map Exposed.handle ↔
      handle = document.root ∨ document.canBeExposed handle = true ∧ document.Shown handle) ∧
    ∀ entry ∈ document.layout, entry.handle ≠ document.root →
      ∃ parent, entry.parent = some parent ∧
        ∀ place, document.HangsBelow entry.handle place ↔ place = parent := by
  refine ⟨fun handle => exposed_iff wellFormed top, fun entry listed below => ?_⟩
  rcases (mem_layout_iff wellFormed).mp listed with rfl | ⟨job, reached, exposes⟩
  · exact absurd rfl below
  · obtain ⟨node, task, -, -, -, same⟩ :=
      ((reached.proper wellFormed).exposes_iff wellFormed top).mp exposes
    have seated := reached.seated wellFormed top
    rw [task] at seated
    refine ⟨job.parent, by rw [same], fun place => ?_⟩
    cases seated with
    | self _ _ hangs =>
      constructor
      · exact fun other => hangs.unique other
      · rintro rfl
        exact hangs

/-- The paragraph shows through two slots and hangs below the inner host. Content of a slot that shows
other content, content of the second shadow root, and hidden content are not shown. -/
theorem layout_shown_slottedPage :
    slottedPage.Distinct ∧
      (ofSubtree slottedPage).kind? (ofSubtree slottedPage).root = some .document ∧
      (ofSubtree slottedPage).Shown ⟨12⟩ ∧ (ofSubtree slottedPage).HangsBelow ⟨12⟩ ⟨3⟩ ∧
      ∀ handle ∈ [⟨6⟩, ⟨11⟩, ⟨14⟩],
        (ofSubtree slottedPage).canBeExposed handle = true ∧
          ¬ (ofSubtree slottedPage).Shown handle := by
  have distinct : slottedPage.Distinct := by decide +kernel
  have top : (ofSubtree slottedPage).kind? (ofSubtree slottedPage).root = some .document := by
    decide +kernel
  obtain ⟨exposed, parents⟩ := layout_shown (wellFormed_ofSubtree distinct) top
  have entry : ⟨⟨12⟩, some ⟨3⟩, .document⟩ ∈ (ofSubtree slottedPage).layout := by decide +kernel
  obtain ⟨parent, named, hangs⟩ := parents _ entry (by decide +kernel)
  refine ⟨distinct, top, ?_, (hangs _).mpr (Option.some.inj named), fun handle listed => ?_⟩
  · rcases (exposed ⟨12⟩).mp (List.mem_map_of_mem entry) with atTop | ⟨-, shown⟩
    · exact absurd atTop (by decide +kernel)
    · exact shown
  · have canBe : ∀ handle ∈ [⟨6⟩, ⟨11⟩, ⟨14⟩],
        (ofSubtree slottedPage).canBeExposed handle = true := by decide +kernel
    have absent : ∀ handle ∈ [⟨6⟩, ⟨11⟩, ⟨14⟩],
        handle ∉ (ofSubtree slottedPage).layout.map Exposed.handle := by decide +kernel
    exact ⟨canBe handle listed, fun shown =>
      absent handle listed ((exposed handle).mpr (.inr ⟨canBe handle listed, shown⟩))⟩

end Accessibility.Document
