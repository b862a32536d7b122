import Accessibility.Document.Flat
import Accessibility.Document.Worklist
import Accessibility.Proofs.Document.Scoping

/-!
The layout of a well-formed document as a walk over its tasks. The task that a task is met below is
known from its content alone, so no task is met twice and no content is laid out twice; and each
entry stands behind the entry of its parent.
-/

set_option autoImplicit false

namespace Accessibility

/-- The name of the slot that a child of a host goes to. -/
def ContentNode.slotWanted (node : ContentNode) : String :=
  match node.kind with
  | .element _ => node.attributes.valueOrEmpty "slot"
  | _ => ""

theorem ContentNode.slotWanted_of_goesTo {node : ContentNode} {name : String}
    (goes : node.goesTo name = true) : node.slotWanted = name ∧ node.kind ≠ .shadowRoot := by
  unfold goesTo at goes
  unfold slotWanted
  cases kind : node.kind with
  | element tag =>
    rw [kind] at goes
    exact ⟨eq_of_beq goes, Kind.noConfusion⟩
  | text =>
    rw [kind] at goes
    exact ⟨(String.isEmpty_iff.mp goes).symm, Kind.noConfusion⟩
  | document =>
    rw [kind] at goes
    cases goes
  | shadowRoot =>
    rw [kind] at goes
    cases goes

namespace Document

def LayoutTask.handle : LayoutTask → Handle
  | .inside handle => handle
  | .self handle => handle

/-- The tasks inside a node: its children, or its shadow root in place of them. -/
def tasksInside (document : Document) (node : ContentNode) : List LayoutTask :=
  match document.shadowRootOf? node with
  | some root => [.inside root]
  | none => node.children.map .self

/-- The tasks that a node leads to: those assigned to it, if it is a slot with any, or else what is
inside it. -/
def tasksAt (document : Document) (handle : Handle) (node : ContentNode) : List LayoutTask :=
  match document.scopeOf handle with
  | .document => [.inside handle]
  | .shadow root =>
    if node.kind.isSlot then
      match document.assigned root handle with
      | [] => [.inside handle]
      | lights => lights.map .self
    else [.inside handle]

/-- The tasks that a task is made of. -/
def tasksBelow (document : Document) : LayoutTask → Option (List LayoutTask)
  | .inside handle => (document.get? handle).map document.tasksInside
  | .self handle =>
    (document.get? handle).bind fun node =>
      if node.kind = .shadowRoot ∨ node.kind = .document ∨ node.isHidden then none
      else some (document.tasksAt handle node)

/-- How a task comes to be below another one: what is inside a host is inside its shadow root, or else
it is its children; and a node that is laid out leads to what is inside it, or to what is assigned to
it. -/
inductive TaskBelow (document : Document) : LayoutTask → LayoutTask → Prop
  | shadow {host root : Handle} {above : ContentNode} (stored : document.get? host = some above)
    (first : document.shadowRootOf? above = some root) :
    TaskBelow document (.inside host) (.inside root)
  | child {parent child : Handle} {above : ContentNode} (stored : document.get? parent = some above)
    (none : document.shadowRootOf? above = none) (listed : child ∈ above.children) :
    TaskBelow document (.inside parent) (.self child)
  | content {handle : Handle} {node : ContentNode} (stored : document.get? handle = some node)
    (shown : ¬ (node.kind = .shadowRoot ∨ node.kind = .document ∨ node.isHidden)) :
    TaskBelow document (.self handle) (.inside handle)
  | light {root slot light : Handle} {node : ContentNode} (stored : document.get? slot = some node)
    (shown : ¬ (node.kind = .shadowRoot ∨ node.kind = .document ∨ node.isHidden))
    (scope : document.scopeOf slot = .shadow root) (listed : light ∈ document.assigned root slot) :
    TaskBelow document (.self slot) (.self light)

/-- The content that a task lays out itself, in some scope. -/
def exposedIn? (document : Document) (scope : Scope) : LayoutTask → Option Handle
  | .inside _ => none
  | .self handle =>
    if scope != .document && (document.kind? handle).any Kind.isSlot then none else some handle

/-- The scope of a task below a task in some scope. What is inside a shadow root is in its scope, and
what is assigned to a slot is in the scope around. -/
def scopeBelow (document : Document) (scope : Scope) : LayoutTask → LayoutTask → Scope
  | .inside _, .inside root => .shadow root
  | .self _, .self _ => (document.enclosingScope? scope).getD .document
  | _, _ => scope

/-- The task that a task is met below. -/
def taskAbove? (document : Document) : LayoutTask → Option LayoutTask
  | .inside handle =>
    if handle = document.root then none
    else if document.isShadowRoot handle then (document.parentOf? handle).map .inside
    else some (.self handle)
  | .self handle =>
    (document.parentOf? handle).bind fun parent =>
      (document.get? parent).bind fun above =>
        match document.shadowRootOf? above with
        | none => some (.inside parent)
        | some root =>
          ((document.get? handle).bind fun node =>
            document.firstSlot? root node.slotWanted).map .self

/-- Tasks that are met from the root: their nodes are stored, the root is not laid out below another
node, and of the shadow roots of one host only the first is ever entered. -/
structure Met (document : Document) (task : LayoutTask) : Prop where
  stored : document.contains task.handle = true
  below : ∀ {handle : Handle}, task = .self handle → handle ≠ document.root
  entered : ∀ {root : Handle}, document.Leads root task.handle →
    document.isShadowRoot root = true → root ≠ document.root →
    ∃ host above, document.parentOf? root = some host ∧ document.get? host = some above ∧
      document.shadowRootOf? above = some root

/-- The scope in which content is laid out is its own, but what is in the scope of the root is laid
out as content of the document, even if the root is a shadow root. -/
def Tracks (document : Document) (scope : Scope) (handle : Handle) : Prop :=
  scope = document.scopeOf handle ∨
    scope = .document ∧ document.scopeOf handle = .shadow document.root

variable {document : Document}

theorem isShadowRoot_of_get? {handle : Handle} {node : ContentNode}
    (stored : document.get? handle = some node) :
    document.isShadowRoot handle = true ↔ node.kind = .shadowRoot := by
  rw [isShadowRoot, kind?, stored, Option.map_some, beq_iff_eq, Option.some.injEq]

theorem not_isShadowRoot_of_get? {handle : Handle} {node : ContentNode}
    (stored : document.get? handle = some node) :
    document.isShadowRoot handle = false ↔ node.kind ≠ .shadowRoot := by
  rw [← Bool.not_eq_true, isShadowRoot_of_get? stored]

theorem mem_assigned {root slot light : Handle} (listed : light ∈ document.assigned root slot) :
    ∃ host above node, (document.get? root).bind ContentNode.parent = some host ∧
      document.get? host = some above ∧ light ∈ above.children ∧
      document.get? light = some node ∧ node.kind ≠ .shadowRoot ∧
      document.firstSlot? root node.slotWanted = some slot := by
  unfold assigned at listed
  dsimp only at listed
  split at listed
  · rename_i first
    split at listed
    · cases listed
    · rename_i above storedHost
      obtain ⟨host, linked, storedHost⟩ := Option.bind_eq_some_iff.mp storedHost
      obtain ⟨listed, goes⟩ := List.mem_filter.mp listed
      cases stored : document.get? light with
      | none =>
        rw [stored] at goes
        cases goes
      | some node =>
        rw [stored, Option.any_some] at goes
        obtain ⟨wanted, plain⟩ := ContentNode.slotWanted_of_goesTo goes
        exact ⟨host, above, node, linked, storedHost, listed, rfl, plain, wanted ▸ first⟩
  · cases listed

theorem taskBelow_of_mem {task next : LayoutTask} {below : List LayoutTask}
    (known : document.tasksBelow task = some below) (listed : next ∈ below) :
    document.TaskBelow task next := by
  cases task with
  | inside handle =>
    obtain ⟨node, stored, rfl⟩ := Option.map_eq_some_iff.mp known
    unfold tasksInside at listed
    split at listed
    · rename_i root first
      cases List.mem_singleton.mp listed
      exact .shadow stored first
    · rename_i none
      obtain ⟨child, listedChild, rfl⟩ := List.mem_map.mp listed
      exact .child stored none listedChild
  | self handle =>
    obtain ⟨node, stored, kept⟩ := Option.bind_eq_some_iff.mp known
    split at kept
    · cases kept
    rename_i shown
    cases kept
    unfold tasksAt at listed
    split at listed
    · cases List.mem_singleton.mp listed
      exact .content stored shown
    · rename_i root scope
      split at listed
      · split at listed
        · cases List.mem_singleton.mp listed
          exact .content stored shown
        · obtain ⟨light, listedLight, rfl⟩ := List.mem_map.mp listed
          exact .light stored shown scope listedLight
      · cases List.mem_singleton.mp listed
        exact .content stored shown

namespace WellFormed

/-- Nothing is assigned to the slots of the root. -/
theorem assigned_root (wellFormed : document.WellFormed) (slot : Handle) :
    document.assigned document.root slot = [] := by
  obtain ⟨top, stored, parentless⟩ := wellFormed.root_stored
  rw [assigned, stored, Option.bind_some, parentless, Option.bind_none]
  exact ite_self []

/-- The host of the scope of a slot that is met, and the content assigned to the slot. -/
theorem met_assigned (wellFormed : document.WellFormed) {root slot light : Handle}
    (met : document.Met (.self slot)) (scope : document.scopeOf slot = .shadow root)
    (listed : light ∈ document.assigned root slot) :
    ∃ host above node, document.enclosingScope? (.shadow root) = some (document.scopeOf host) ∧
      document.get? host = some above ∧ light ∈ above.children ∧
      document.get? light = some node ∧ node.kind ≠ .shadowRoot ∧
      document.shadowRootOf? above = some root ∧
      document.firstSlot? root node.slotWanted = some slot ∧ document.Leads host slot := by
  obtain ⟨host, above, node, linked, storedHost, listedLight, stored, plain, first⟩ :=
    mem_assigned listed
  have below : root ≠ document.root := by
    rintro rfl
    rw [wellFormed.assigned_root] at listed
    cases listed
  obtain ⟨isRoot, leads⟩ := wellFormed.leads_of_scopeOf met.stored scope
  obtain ⟨host', above', linked', storedHost', entered⟩ := met.entered leads isRoot below
  rw [parentOf?, linked] at linked'
  cases linked'
  rw [storedHost] at storedHost'
  cases storedHost'
  refine ⟨host, above, node, ?_, storedHost, listedLight, stored, plain, entered, first, ?_⟩
  · rw [enclosingScope?, linked, Option.map_some]
  · exact (Leads.step storedHost (List.mem_of_find?_eq_some entered)).trans leads

/-- What is inside the first shadow root of a host is met with what is inside the host. -/
theorem met_shadow (wellFormed : document.WellFormed) {host root : Handle} {above : ContentNode}
    (met : document.Met (.inside host)) (stored : document.get? host = some above)
    (first : document.shadowRootOf? above = some root) :
    document.Met (.inside root) ∧ document.taskAbove? (.inside root) = some (.inside host) := by
  have isRoot : document.isShadowRoot root = true := List.find?_some first
  have listed := List.mem_of_find?_eq_some first
  obtain ⟨rootNode, storedRoot, linked⟩ := wellFormed.linked stored listed
  refine ⟨⟨contains_of_get? storedRoot, nofun, ?_⟩, ?_⟩
  · intro other leads isOther belowRoot
    rcases wellFormed.leads_of_child stored listed leads with rfl | leads
    · exact ⟨host, above, by rw [parentOf?_of_get? storedRoot, linked], stored, first⟩
    · exact met.entered leads isOther belowRoot
  · rw [taskAbove?, if_neg (wellFormed.ne_root_of_child stored listed), if_pos isRoot,
      parentOf?_of_get? storedRoot, linked, Option.map_some]

/-- A child that is not a shadow root is met with its parent. -/
theorem met_child (wellFormed : document.WellFormed) {parent child : Handle} {above node : ContentNode}
    {task : LayoutTask} (met : document.Met task) (leads : document.Leads parent task.handle)
    (stored : document.get? parent = some above) (listed : child ∈ above.children)
    (storedChild : document.get? child = some node) (plain : node.kind ≠ .shadowRoot) :
    document.Met (.self child) := by
  refine ⟨contains_of_get? storedChild, ?_, ?_⟩
  · rintro _ ⟨⟩
    exact wellFormed.ne_root_of_child stored listed
  · intro other leadsOther isOther belowRoot
    rcases wellFormed.leads_of_child stored listed leadsOther with rfl | leadsOther
    · exact absurd ((isShadowRoot_of_get? storedChild).mp isOther) plain
    · exact met.entered (leadsOther.trans leads) isOther belowRoot

/-- The tasks below a task that is met are met, too, and each has its task above. -/
theorem met_below (wellFormed : document.WellFormed) {task next : LayoutTask}
    {below : List LayoutTask} (met : document.Met task) (known : document.tasksBelow task = some below)
    (listed : next ∈ below) : document.Met next ∧ document.taskAbove? next = some task := by
  cases taskBelow_of_mem known listed with
  | shadow stored first => exact wellFormed.met_shadow met stored first
  | @child parent child above stored none listedChild =>
    obtain ⟨node, storedChild, linked⟩ := wellFormed.linked stored listedChild
    have plain : node.kind ≠ .shadowRoot := fun kind =>
      List.find?_eq_none.mp none child listedChild ((isShadowRoot_of_get? storedChild).mpr kind)
    refine ⟨wellFormed.met_child met (.refl _ _) stored listedChild storedChild plain, ?_⟩
    rw [taskAbove?, parentOf?_of_get? storedChild, linked, Option.bind_some, stored,
      Option.bind_some, none]
  | content stored shown =>
    refine ⟨⟨met.stored, nofun, met.entered⟩, ?_⟩
    rw [taskAbove?, if_neg (met.below rfl), if_neg]
    rw [isShadowRoot_of_get? stored]
    exact fun kind => shown (.inl kind)
  | light _ _ scope listedLight =>
    obtain ⟨host, above, node, -, storedHost, listedHost, storedLight, plain, entered, first,
      leadsHost⟩ := wellFormed.met_assigned met scope listedLight
    have linked := wellFormed.parent_of_mem_children storedHost listedHost storedLight
    refine ⟨wellFormed.met_child met leadsHost storedHost listedHost storedLight plain, ?_⟩
    rw [taskAbove?, parentOf?_of_get? storedLight, linked, Option.bind_some, storedHost,
      Option.bind_some, entered]
    dsimp only
    rw [storedLight, Option.bind_some, first, Option.map_some]

theorem eq_of_leads_root (wellFormed : document.WellFormed) {handle : Handle}
    (leads : document.Leads handle document.root) : handle = document.root := by
  rcases leads.eq_or_parent with same | ⟨parent, above, -, stored, listed⟩
  · exact same
  · exact absurd rfl (wellFormed.ne_root_of_child stored listed)

/-- The root is where the layout begins. -/
theorem met_root (wellFormed : document.WellFormed) : document.Met (.inside document.root) :=
  ⟨wellFormed.contains_root, nofun, fun leads _ below =>
    absurd (wellFormed.eq_of_leads_root leads) below⟩

theorem met_of_reaches (wellFormed : document.WellFormed) {steps : Nat} {task : LayoutTask}
    (reached : Walk.Reaches document.tasksBelow steps (.inside document.root) task) :
    document.Met task := by
  induction steps generalizing task with
  | zero => exact reached.eq_of_zero ▸ wellFormed.met_root
  | succ steps ih =>
    obtain ⟨above, below, upper, known, listed⟩ := reached.last
    exact (wellFormed.met_below (ih upper) known listed).1

theorem tasks_nodup (wellFormed : document.WellFormed) {task : LayoutTask} {below : List LayoutTask}
    (known : document.tasksBelow task = some below) : below.Nodup := by
  have selves {handles : List Handle} (nodup : handles.Nodup) :
      (handles.map LayoutTask.self).Nodup :=
    nodup.map fun _ _ same => LayoutTask.self.inj same
  cases task with
  | inside handle =>
    obtain ⟨node, stored, rfl⟩ := Option.map_eq_some_iff.mp known
    unfold tasksInside
    split
    · exact List.nodup_singleton _
    · exact selves (wellFormed.nodup stored)
  | self handle =>
    obtain ⟨node, stored, kept⟩ := Option.bind_eq_some_iff.mp known
    split at kept
    · cases kept
    cases kept
    unfold tasksAt
    split
    · exact List.nodup_singleton _
    · split
      · split
        · exact List.nodup_singleton _
        · refine selves ?_
          unfold assigned
          dsimp only
          split
          · split
            · exact List.nodup_nil
            · rename_i above storedHost
              obtain ⟨host, -, storedHost⟩ := Option.bind_eq_some_iff.mp storedHost
              exact (wellFormed.nodup storedHost).filter _
          · exact List.nodup_nil
      · exact List.nodup_singleton _

theorem tasks_rooted (wellFormed : document.WellFormed) :
    Walk.Rooted document.tasksBelow document.taskAbove? (.inside document.root) where
  parent_root := by rw [taskAbove?, if_pos rfl]
  parent_listed := fun reached known listed =>
    (wellFormed.met_below (wellFormed.met_of_reaches reached) known listed).2
  nodup := fun _ known => wellFormed.tasks_nodup known

/-! ### Scopes of tasks -/

/-- What is in the scope of the root is laid out in the scope of the document. -/
theorem tracks_root (wellFormed : document.WellFormed) :
    document.Tracks .document document.root := by
  rw [Tracks, scopeOf, wellFormed.lineage_root]
  cases isRoot : document.isShadowRoot document.root with
  | true => exact .inr ⟨rfl, by rw [List.find?_cons_of_pos isRoot]⟩
  | false => exact .inl (by rw [List.find?_cons_of_neg (by simp [isRoot]), List.find?_nil])

theorem tracks_below (wellFormed : document.WellFormed) {scope : Scope} {task next : LayoutTask}
    {below : List LayoutTask} (met : document.Met task) (tracks : document.Tracks scope task.handle)
    (known : document.tasksBelow task = some below) (listed : next ∈ below) :
    document.Tracks (document.scopeBelow scope task next) next.handle := by
  cases taskBelow_of_mem known listed with
  | shadow stored first => exact .inl (wellFormed.scopeOf_shadowRoot (List.find?_some first)).symm
  | @child parent child above stored none listedChild =>
    obtain ⟨node, storedChild, linked⟩ := wellFormed.linked stored listedChild
    have plain := List.find?_eq_none.mp none child listedChild
    show document.Tracks scope child
    rw [Tracks, wellFormed.scopeOf_child storedChild linked (Bool.eq_false_iff.mpr plain)]
    exact tracks
  | content stored shown => exact tracks
  | @light root slot light _ _ _ own listedLight =>
    obtain ⟨host, above, node, around, storedHost, listedHost, storedLight, plain, -⟩ :=
      wellFormed.met_assigned met own listedLight
    have linked := wellFormed.parent_of_mem_children storedHost listedHost storedLight
    have same : scope = .shadow root := by
      rcases tracks with same | ⟨-, atRoot⟩
      · exact same.trans own
      · cases own.symm.trans atRoot
        rw [wellFormed.assigned_root] at listedLight
        cases listedLight
    refine .inl ?_
    rw [same, scopeBelow, around, Option.getD_some, LayoutTask.handle,
      wellFormed.scopeOf_child storedLight linked]
    exact (not_isShadowRoot_of_get? storedLight).mpr plain

end WellFormed

/-! ### The layout as a walk -/

/-- A job of the layout whose task is met, in the scope that its content is laid out in. -/
structure Proper (document : Document) (job : LayoutJob) : Prop where
  met : document.Met job.task
  tracks : document.Tracks job.scope job.task.handle

/-- A job goes on with the tasks below its own, under what it exposes itself, if it does. -/
def jobBelow (document : Document) (job : LayoutJob) (next : LayoutTask) : LayoutJob where
  task := next
  parent := (document.exposedIn? job.scope job.task).getD job.parent
  scope := document.scopeBelow job.scope job.task next

theorem proceed_of_none {job : LayoutJob} (passed : document.tasksBelow job.task = none) :
    document.proceed job = (none, []) := by
  obtain ⟨task, parent, scope⟩ := job
  cases task with
  | inside handle =>
    have absent := Option.map_eq_none_iff.mp passed
    simp only [proceed, absent]
  | self handle =>
    simp only [tasksBelow] at passed
    simp only [proceed]
    cases stored : document.get? handle with
    | none => rfl
    | some node =>
      rw [stored, Option.bind_some] at passed
      dsimp only
      split at passed
      · rename_i hidden
        rw [if_pos hidden]
      · cases passed

theorem proceed_of_some (wellFormed : document.WellFormed) {job : LayoutJob}
    (proper : document.Proper job) {below : List LayoutTask}
    (known : document.tasksBelow job.task = some below) :
    document.proceed job =
      ((document.exposedIn? job.scope job.task).map fun handle => ⟨handle, some job.parent, job.scope⟩,
        below.map (document.jobBelow job)) := by
  obtain ⟨task, parent, scope⟩ := job
  obtain ⟨met, tracks⟩ := proper
  dsimp only at met tracks known ⊢
  cases task with
  | inside handle =>
    obtain ⟨node, stored, rfl⟩ := Option.map_eq_some_iff.mp known
    simp only [proceed, stored, exposedIn?, Option.map_none, tasksInside]
    cases document.shadowRootOf? node with
    | some root => rfl
    | none => rw [List.map_map]; rfl
  | self handle =>
    obtain ⟨node, stored, kept⟩ := Option.bind_eq_some_iff.mp known
    by_cases hidden : node.kind = .shadowRoot ∨ node.kind = .document ∨ node.isHidden
    · rw [if_pos hidden] at kept
      cases kept
    rw [if_neg hidden, Option.some.injEq] at kept
    subst kept
    simp only [proceed, stored, if_neg hidden]
    have kind : document.kind? handle = some node.kind := by rw [kind?, stored, Option.map_some]
    cases scope with
    | document =>
      have inside : document.tasksAt handle node = [.inside handle] := by
        rcases tracks with own | ⟨-, own⟩
        · rw [LayoutTask.handle] at own
          rw [tasksAt, ← own]
        · rw [LayoutTask.handle] at own
          simp only [tasksAt, own, wellFormed.assigned_root, ite_self]
      rw [inside]
      rfl
    | shadow root =>
      have own : document.scopeOf handle = .shadow root := by
        rcases tracks with own | ⟨other, -⟩
        · exact own.symm
        · cases other
      have other : (Scope.shadow root != Scope.document) = true := rfl
      cases isSlot : node.kind.isSlot with
      | false =>
        simp only [exposedIn?, kind, Option.any_some, isSlot, own, tasksAt, other, Bool.and_false,
          Bool.false_eq_true, if_false, Option.map_some, jobBelow, Option.getD_some, List.map_cons,
          List.map_nil, scopeBelow]
      | true =>
        have unexposed : document.exposedIn? (.shadow root) (.self handle) = none := by
          simp only [exposedIn?, kind, Option.any_some, isSlot, other, Bool.and_self, if_true]
        simp only [isSlot, own, tasksAt, if_true, unexposed, Option.map_none]
        cases document.assigned root handle with
        | nil =>
          simp only [List.map_cons, List.map_nil, jobBelow, unexposed, Option.getD_none, scopeBelow]
        | cons light rest =>
          simp only [List.map_cons, List.map_map, jobBelow, unexposed, Option.getD_none, scopeBelow,
            Function.comp_def]

/-- A job leads only to jobs for the tasks below its own. -/
theorem exists_of_mem_proceed (wellFormed : document.WellFormed) {job next : LayoutJob}
    (proper : document.Proper job) (listed : next ∈ (document.proceed job).2) :
    ∃ tasks task, document.tasksBelow job.task = some tasks ∧ task ∈ tasks ∧
      document.jobBelow job task = next := by
  cases known : document.tasksBelow job.task with
  | none =>
    rw [proceed_of_none known] at listed
    cases listed
  | some tasks =>
    rw [proceed_of_some wellFormed proper known] at listed
    obtain ⟨task, listedTask, same⟩ := List.mem_map.mp listed
    exact ⟨tasks, task, rfl, listedTask, same⟩

/-- One level of the layout of a task that is met. -/
theorem layOut_succ (wellFormed : document.WellFormed) {scope : Scope} {task : LayoutTask}
    (met : document.Met task) (tracks : document.Tracks scope task.handle) (depth : Nat)
    (parent : Handle) :
    document.layOut (depth + 1) task parent scope =
      match document.tasksBelow task with
      | none => []
      | some below =>
        match document.exposedIn? scope task with
        | none => below.flatMap fun next =>
            document.layOut depth next parent (document.scopeBelow scope task next)
        | some handle =>
          ⟨handle, some parent, scope⟩ :: below.flatMap fun next =>
            document.layOut depth next handle (document.scopeBelow scope task next) := by
  rw [document.layOut_eq_proceed depth ⟨task, parent, scope⟩]
  cases known : document.tasksBelow task with
  | none =>
    rw [proceed_of_none known]
    rfl
  | some below =>
    rw [proceed_of_some wellFormed ⟨met, tracks⟩ known, List.flatMap_map]
    dsimp only [jobBelow]
    cases document.exposedIn? scope task <;> rfl

/-- The content that a task is about, if it is laid out itself. -/
def LayoutTask.self? : LayoutTask → Option Handle
  | .inside _ => none
  | .self handle => some handle

theorem self?_of_exposedIn? {scope : Scope} {task : LayoutTask} {handle : Handle}
    (exposed : document.exposedIn? scope task = some handle) : task.self? = some handle := by
  cases task with
  | inside _ => cases exposed
  | self _ =>
    rw [exposedIn?] at exposed
    split at exposed
    · cases exposed
    · exact exposed

/-- Whatever holds of each entry of each part holds of the whole, part by part. -/
theorem sublist_flatMap {α β γ : Type} {parts : List α} {left : α → List β} {right : α → List γ}
    (tell : β → γ) (each : ∀ part ∈ parts, ((left part).map tell).Sublist (right part)) :
    ((parts.flatMap left).map tell).Sublist (parts.flatMap right) := by
  induction parts with
  | nil => exact List.Sublist.slnil
  | cons part rest ih =>
    rw [List.flatMap_cons, List.flatMap_cons, List.map_append]
    exact (each part List.mem_cons_self).append
      (ih fun other listed => each other (List.mem_cons_of_mem _ listed))

/-- What is laid out is met on the walk, in the same order. -/
theorem sublist_layOut (wellFormed : document.WellFormed) {scope : Scope} {task : LayoutTask}
    (met : document.Met task) (tracks : document.Tracks scope task.handle) (depth : Nat)
    (parent : Handle) :
    ((document.layOut depth task parent scope).map Exposed.handle).Sublist
      ((Walk.descend document.tasksBelow depth task).filterMap LayoutTask.self?) := by
  induction depth generalizing task parent scope with
  | zero => exact List.Sublist.slnil
  | succ depth ih =>
    rw [layOut_succ wellFormed met tracks]
    cases known : document.tasksBelow task with
    | none => exact List.nil_sublist _
    | some below =>
      rw [Walk.descend_succ_of_some known]
      have rest (parent : Handle) :
          ((below.flatMap fun next => document.layOut depth next parent
            (document.scopeBelow scope task next)).map Exposed.handle).Sublist
            ((below.flatMap (Walk.descend document.tasksBelow depth)).filterMap
              LayoutTask.self?) := by
        rw [List.filterMap_flatMap]
        exact sublist_flatMap Exposed.handle fun next listed =>
          ih (wellFormed.met_below met known listed).1
            (wellFormed.tracks_below met tracks known listed) parent
      cases exposed : document.exposedIn? scope task with
      | none =>
        rw [← List.singleton_append, List.filterMap_append]
        exact (rest parent).trans (List.sublist_append_right _ _)
      | some handle =>
        rw [List.filterMap_cons_some (self?_of_exposedIn? exposed), List.map_cons]
        exact (rest handle).cons_cons handle

/-- No content is laid out twice. -/
theorem layout_nodup (wellFormed : document.WellFormed) :
    (document.layout.map Exposed.handle).Nodup := by
  have tasks : (Walk.descend document.tasksBelow document.layoutDepth
      (.inside document.root)).Nodup :=
    wellFormed.tasks_rooted.nodup_descend (.here _)
  have selves {task : LayoutTask} {handle : Handle} (about : task.self? = some handle) :
      task = .self handle := by
    cases task with
    | inside _ => cases about
    | self _ =>
      cases about
      rfl
  have walked := sublist_layOut wellFormed wellFormed.met_root wellFormed.tracks_root
    document.layoutDepth document.root
  rw [layout, List.map_cons, List.nodup_cons]
  constructor
  · intro again
    obtain ⟨task, met, about⟩ := List.mem_filterMap.mp (walked.subset again)
    obtain ⟨⟨steps, -, reached⟩, -⟩ := Walk.mem_descend.mp met
    exact (wellFormed.met_of_reaches reached).below (selves about) rfl
  · refine (tasks.filterMap ?_).sublist walked
    intro left right handle aboutLeft aboutRight
    rw [selves aboutLeft, selves aboutRight]

/-! ### Entries and their parents -/

/-- Entries each below known content or below the content of an entry before it. -/
def Standing (known : List Handle) : List Exposed → Prop
  | [] => True
  | entry :: rest =>
    (∃ parent ∈ known, entry.parent = some parent) ∧ Standing (known ++ [entry.handle]) rest

namespace Standing

theorem mono {known more : List Handle} {entries : List Exposed} (standing : Standing known entries)
    (contained : known ⊆ more) : Standing more entries := by
  induction entries generalizing known more with
  | nil => trivial
  | cons entry rest ih =>
    obtain ⟨⟨parent, listed, named⟩, others⟩ := standing
    refine ⟨⟨parent, contained listed, named⟩, ih others ?_⟩
    exact List.append_subset.mpr ⟨List.subset_append_of_subset_left _ contained,
      List.subset_append_right _ _⟩

theorem append {known : List Handle} {first second : List Exposed} (one : Standing known first)
    (other : Standing known second) : Standing known (first ++ second) := by
  induction first generalizing known with
  | nil => exact other
  | cons entry rest ih =>
    exact ⟨one.1, ih one.2 (other.mono (List.subset_append_left _ _))⟩

theorem flatMap {α : Type} {known : List Handle} {parts : List α} {entriesOf : α → List Exposed}
    (each : ∀ part ∈ parts, Standing known (entriesOf part)) :
    Standing known (parts.flatMap entriesOf) := by
  induction parts with
  | nil => trivial
  | cons part rest ih =>
    rw [List.flatMap_cons]
    exact (each part List.mem_cons_self).append
      (ih fun other listed => each other (List.mem_cons_of_mem _ listed))

end Standing

theorem standing_layOut (wellFormed : document.WellFormed) {scope : Scope} {task : LayoutTask}
    (met : document.Met task) (tracks : document.Tracks scope task.handle) (depth : Nat)
    {parent : Handle} {known : List Handle} (listed : parent ∈ known) :
    Standing known (document.layOut depth task parent scope) := by
  induction depth generalizing task parent scope known with
  | zero => trivial
  | succ depth ih =>
    rw [layOut_succ wellFormed met tracks]
    cases below : document.tasksBelow task with
    | none => trivial
    | some tasks =>
      have rest {parent : Handle} {known : List Handle} (listed : parent ∈ known) :
          Standing known (tasks.flatMap fun next =>
            document.layOut depth next parent (document.scopeBelow scope task next)) :=
        Standing.flatMap fun next listedNext =>
          ih (wellFormed.met_below met below listedNext).1
            (wellFormed.tracks_below met tracks below listedNext) listed
      cases document.exposedIn? scope task with
      | none => exact rest listed
      | some handle =>
        exact ⟨⟨parent, listed, rfl⟩, rest (List.mem_append_right _ List.mem_cons_self)⟩

/-- What an entry tells of its content. -/
structure Entered (document : Document) (entry : Exposed) : Prop where
  stored : document.contains entry.handle = true
  scope : document.isShadowRoot document.root = false →
    entry.scope = document.scopeOf entry.handle
  /-- Only the root is exposed even if it is hidden. -/
  shown : entry.handle ≠ document.root → ∀ {node : ContentNode},
    document.get? entry.handle = some node → node.isHidden = false

/-- Only below a shadow root as root is a scope not told. -/
theorem Tracks.scopeOf_eq (wellFormed : document.WellFormed) {scope : Scope} {handle : Handle}
    (tracks : document.Tracks scope handle) (stored : document.contains handle = true)
    (plain : document.isShadowRoot document.root = false) : scope = document.scopeOf handle := by
  rcases tracks with same | ⟨-, atRoot⟩
  · exact same
  · have isRoot := (wellFormed.leads_of_scopeOf stored atRoot).1
    rw [plain] at isRoot
    cases isRoot

theorem entered_layOut (wellFormed : document.WellFormed) {scope : Scope} {task : LayoutTask}
    (met : document.Met task) (tracks : document.Tracks scope task.handle) (depth : Nat)
    {parent : Handle} {entry : Exposed}
    (listed : entry ∈ document.layOut depth task parent scope) : document.Entered entry := by
  induction depth generalizing task parent scope with
  | zero => cases listed
  | succ depth ih =>
    rw [layOut_succ wellFormed met tracks] at listed
    cases below : document.tasksBelow task with
    | none =>
      rw [below] at listed
      cases listed
    | some tasks =>
      rw [below] at listed
      have rest {parent : Handle} (listed : entry ∈ tasks.flatMap fun next =>
          document.layOut depth next parent (document.scopeBelow scope task next)) :
          document.Entered entry := by
        obtain ⟨next, listedNext, listed⟩ := List.mem_flatMap.mp listed
        exact ih (wellFormed.met_below met below listedNext).1
          (wellFormed.tracks_below met tracks below listedNext) listed
      cases exposed : document.exposedIn? scope task with
      | none =>
        rw [exposed] at listed
        exact rest listed
      | some handle =>
        rw [exposed] at listed
        rcases List.mem_cons.mp listed with rfl | listed
        · cases task with
          | inside _ => cases exposed
          | self _ =>
            cases self?_of_exposedIn? exposed
            refine ⟨met.stored, tracks.scopeOf_eq wellFormed met.stored, fun _ node stored => ?_⟩
            rw [tasksBelow, stored, Option.bind_some] at below
            split at below
            · cases below
            · rename_i plain
              exact Bool.eq_false_iff.mpr fun hidden => plain (.inr (.inr hidden))
        · exact rest listed

theorem standing_layout (wellFormed : document.WellFormed) :
    Standing [document.root] document.layout.tail :=
  standing_layOut wellFormed wellFormed.met_root wellFormed.tracks_root _ List.mem_cons_self

theorem entered_layout (wellFormed : document.WellFormed) {entry : Exposed}
    (listed : entry ∈ document.layout) : document.Entered entry := by
  rcases List.mem_cons.mp listed with rfl | listed
  · exact ⟨wellFormed.contains_root,
      wellFormed.tracks_root.scopeOf_eq wellFormed wellFormed.contains_root, absurd rfl⟩
  · exact entered_layOut wellFormed wellFormed.met_root wellFormed.tracks_root _ listed

end Document

end Accessibility
