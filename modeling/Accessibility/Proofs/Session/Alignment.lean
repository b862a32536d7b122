import Accessibility.Proofs.Session.Placing

/-!
An alignment never fails, and leaves the tree in line with the layout: its live nodes are those of
the entries, each below the node of its parent and with its children in the order of the layout.
-/

set_option autoImplicit false

namespace Accessibility.Alignment

open Std

/-! ### What is not exposed -/

/-- Some nodes of content that is not exposed are gone, with all below them. -/
structure Pruned (exposed : List Handle) (before after : Tree) : Prop where
  sound : after.Sound
  root : after.root = before.root
  kept : ∀ {id : NodeId} {node : AccessibleNode}, before.live id = some node →
    node.content ∈ exposed → ∃ node', after.live id = some node' ∧ node.SameSelf node'
  origin : ∀ {id : NodeId} {node' : AccessibleNode}, after.live id = some node' →
    ∃ node, before.live id = some node ∧ node.SameSelf node'

namespace Pruned

variable {exposed : List Handle} {before middle after : Tree}

theorem refl (sound : before.Sound) : Pruned exposed before before :=
  ⟨sound, rfl, fun alive _ => ⟨_, alive, .refl _⟩, fun alive => ⟨_, alive, .refl _⟩⟩

theorem trans (first : Pruned exposed before middle) (second : Pruned exposed middle after) :
    Pruned exposed before after := by
  refine ⟨second.sound, second.root.trans first.root, ?_, ?_⟩
  · intro id node alive listed
    obtain ⟨node', alive', same⟩ := first.kept alive listed
    obtain ⟨node'', alive'', same'⟩ := second.kept alive' (same.content ▸ listed)
    exact ⟨node'', alive'', same.trans same'⟩
  · intro id node'' alive''
    obtain ⟨node', alive', same'⟩ := second.origin alive''
    obtain ⟨node, alive, same⟩ := first.origin alive'
    exact ⟨node, alive, same.trans same'⟩

theorem closed (pruned : Pruned exposed before after) (closed : before.Closed exposed) :
    after.Closed exposed := by
  intro parent child above node aliveParent alive linked listed
  obtain ⟨above', aliveParent', sameAbove⟩ := pruned.origin aliveParent
  obtain ⟨node', alive', same⟩ := pruned.origin alive
  rw [sameAbove.content]
  exact closed aliveParent' alive' (same.parent ▸ linked) (same.content ▸ listed)

end Pruned

section Dismissals

variable {exposed : List Handle} {progress : Progress}

/-- The root stands for exposed content. -/
def RootExposed (exposed : List Handle) (tree : Tree) : Prop :=
  ∃ top node, tree.root = some top ∧ tree.live top = some node ∧ node.content ∈ exposed

/-- No node of exposed content is below one whose content is not exposed. -/
theorem not_leads_to_exposed {tree : Tree} (sound : tree.Sound) (closed : tree.Closed exposed)
    {id other : NodeId} {node node' : AccessibleNode} (alive : tree.live id = some node)
    (gone : node.content ∉ exposed) (aliveOther : tree.live other = some node')
    (listed : node'.content ∈ exposed) : ¬ tree.live.Leads id other := by
  intro leads
  obtain ⟨above, alive', listed'⟩ := closed.of_leads sound leads aliveOther listed
  rw [alive] at alive'
  cases alive'
  exact gone listed'

/-- A node of content that is not exposed goes with all below it, and none of that is exposed. -/
theorem pruned_shutdown {before after : Tree} (sound : before.Sound) (closed : before.Closed exposed)
    (top : RootExposed exposed before) {id : NodeId} {node : AccessibleNode}
    (alive : before.live id = some node) (gone : node.content ∉ exposed) (soundAfter : after.Sound)
    (root : after.root = if before.root = some id then none else before.root)
    (removed : before.live.Removed after.live id) : Pruned exposed before after := by
  have below : before.root ≠ some id := by
    intro atTop
    obtain ⟨top, topNode, atTop', aliveTop, listed⟩ := top
    rw [atTop] at atTop'
    cases atTop'
    exact not_leads_to_exposed sound closed alive gone aliveTop listed (.refl _ id)
  refine ⟨soundAfter, root.trans (if_neg below), ?_, ?_⟩
  · intro other node' aliveOther listed
    refine ⟨node'.without id, ?_, rfl, rfl, rfl, rfl, rfl⟩
    rw [removed.kept (not_leads_to_exposed sound closed alive gone aliveOther listed), aliveOther,
      Option.map_some]
  · intro other node' aliveOther
    obtain ⟨-, old, aliveOld, rfl⟩ := (Forest.eq_some_of_removed removed).mp aliveOther
    exact ⟨old, aliveOld, rfl, rfl, rfl, rfl, rfl⟩

/-- The live nodes of content that is not exposed, in tree order. -/
def unexposed (exposed : List Handle) (tree : Tree) : List NodeId :=
  tree.preorder.filter fun id => (tree.get? id).any fun node => !exposed.contains node.content

theorem mem_unexposed {tree : Tree} (sound : tree.Sound) {id : NodeId} :
    id ∈ unexposed exposed tree ↔ ∃ node, tree.live id = some node ∧ node.content ∉ exposed := by
  rw [unexposed, List.mem_filter, sound.mem_preorder]
  constructor
  · rintro ⟨⟨node, alive⟩, outside⟩
    rw [Tree.get?_of_live alive, Option.any_some] at outside
    exact ⟨node, alive, by simpa using outside⟩
  · rintro ⟨node, alive, outside⟩
    refine ⟨⟨node, alive⟩, ?_⟩
    rw [Tree.get?_of_live alive, Option.any_some]
    simpa using outside

theorem unexposed_nodup {tree : Tree} (sound : tree.Sound) : (unexposed exposed tree).Nodup :=
  sound.preorder_nodup.filter _

/-- The nodes that go with one of content that is not exposed are missing from those that were left. -/
theorem length_unexposed {before after : Tree} (sound : before.Sound) (soundAfter : after.Sound)
    (closed : before.Closed exposed) {id : NodeId} {node : AccessibleNode}
    (alive : before.live id = some node) (gone : node.content ∉ exposed)
    (removed : before.live.Removed after.live id) :
    (unexposed exposed before).length =
      (unexposed exposed after).length + (before.below id).length := by
  have distinct : (unexposed exposed after ++ before.below id).Nodup := by
    refine List.nodup_append'.mpr ⟨unexposed_nodup soundAfter, sound.below_nodup alive, ?_⟩
    intro other left below
    obtain ⟨node', aliveAfter, -⟩ := (mem_unexposed soundAfter).mp left
    rw [removed.gone ((sound.mem_below alive).mp below)] at aliveAfter
    cases aliveAfter
  have perm : (unexposed exposed before).Perm (unexposed exposed after ++ before.below id) := by
    refine (List.perm_ext_iff_of_nodup (unexposed_nodup sound) distinct).mpr fun other => ?_
    rw [List.mem_append, mem_unexposed sound, mem_unexposed soundAfter, sound.mem_below alive]
    constructor
    · rintro ⟨old, aliveOld, outside⟩
      by_cases below : before.live.Leads id other
      · exact .inr below
      · exact .inl ⟨old.without id, by rw [removed.kept below, aliveOld, Option.map_some], outside⟩
    · rintro (⟨node', aliveAfter, outside⟩ | below)
      · obtain ⟨-, old, aliveOld, rfl⟩ := (Forest.eq_some_of_removed removed).mp aliveAfter
        exact ⟨old, aliveOld, outside⟩
      · obtain ⟨old, aliveOld⟩ := sound.forest.leads_live below alive
        exact ⟨old, aliveOld, fun listed =>
          not_leads_to_exposed sound closed alive gone aliveOld listed below⟩
  rw [perm.length_eq, List.length_append]

/-- Dismissals count the nodes that go: whatever is missing from the nodes of content that is not
exposed is added to the count. -/
structure Dismissed (exposed : List Handle) (before after : Progress) : Prop where
  listed : after.listed = before.listed
  created : after.counts.created = before.counts.created
  moved : after.counts.moved = before.counts.moved
  shutDown : after.counts.shutDown + (unexposed exposed after.tree).length =
    before.counts.shutDown + (unexposed exposed before.tree).length

namespace Dismissed

variable {before middle after : Progress}

theorem refl (progress : Progress) : Dismissed exposed progress progress :=
  ⟨rfl, rfl, rfl, rfl⟩

theorem trans (first : Dismissed exposed before middle) (second : Dismissed exposed middle after) :
    Dismissed exposed before after :=
  ⟨second.listed.trans first.listed, second.created.trans first.created,
    second.moved.trans first.moved, second.shutDown.trans first.shutDown⟩

end Dismissed

theorem dismiss_done (sound : progress.tree.Sound) (closed : progress.tree.Closed exposed)
    (top : RootExposed exposed progress.tree) (id : NodeId) :
    ∃ after, progress.dismiss exposed id = .done after () ∧ Dismissed exposed progress after ∧
      Pruned exposed progress.tree after.tree ∧
      ∀ {node : AccessibleNode}, after.tree.live id = some node → node.content ∈ exposed := by
  have idle (nothing : progress.dismiss exposed id = .done progress ())
      (listed : ∀ {node : AccessibleNode}, progress.tree.live id = some node →
        node.content ∈ exposed) :
      ∃ after, progress.dismiss exposed id = .done after () ∧ Dismissed exposed progress after ∧
        Pruned exposed progress.tree after.tree ∧
        ∀ {node : AccessibleNode}, after.tree.live id = some node → node.content ∈ exposed :=
    ⟨progress, nothing, .refl progress, .refl sound, listed⟩
  cases stored : progress.tree.get? id with
  | none =>
    refine idle (by simp only [Progress.dismiss, stored]) fun alive => ?_
    rw [Tree.get?_of_live alive] at stored
    cases stored
  | some node =>
    by_cases gone : node.alive = true ∧ node.content ∉ exposed
    · have alive : progress.tree.live id = some node := Tree.live_eq_some.mpr ⟨stored, gone.1⟩
      obtain ⟨after, done, soundAfter, root, removed⟩ := sound.beginShutdown alive
      refine ⟨({ progress with tree := after } : Progress).countShutDown
        (progress.tree.below id).length, ?_, ⟨rfl, rfl, rfl, ?_⟩,
        pruned_shutdown sound closed top alive gone.2 soundAfter root removed, fun aliveAfter => ?_⟩
      · have unlisted : exposed.contains node.content = false := by simpa using gone.2
        simp only [Progress.dismiss, stored, gone.1, unlisted, Bool.not_false, Bool.and_self, if_true]
        rw [onTree_done done, Outcome.done_andThen]
      · rw [length_unexposed sound soundAfter closed alive gone.2 removed]
        simp only [Progress.countShutDown]
        omega
      · rw [Progress.countShutDown, removed.gone (.refl _ id)] at aliveAfter
        cases aliveAfter
    · refine idle ?_ fun alive => ?_
      · have kept : (node.alive && !exposed.contains node.content) = false := by
          rw [← Bool.not_eq_true]
          intro both
          simp only [Bool.and_eq_true, Bool.not_eq_true', List.contains_eq_mem,
            decide_eq_false_iff_not] at both
          exact gone both
        simp only [Progress.dismiss, stored, kept, Bool.false_eq_true, if_false]
      · obtain ⟨same, isAlive⟩ := Tree.live_eq_some.mp alive
        rw [stored] at same
        cases same
        by_contra absent
        exact gone ⟨isAlive, absent⟩

theorem dismissAll_done (ids : List NodeId) (sound : progress.tree.Sound)
    (closed : progress.tree.Closed exposed) (top : RootExposed exposed progress.tree) :
    ∃ after, progress.dismissAll exposed ids = .done after () ∧ Dismissed exposed progress after ∧
      Pruned exposed progress.tree after.tree ∧
      ∀ id ∈ ids, ∀ {node : AccessibleNode}, after.tree.live id = some node →
        node.content ∈ exposed := by
  induction ids generalizing progress with
  | nil => exact ⟨progress, rfl, .refl progress, .refl sound, nofun⟩
  | cons id rest ih =>
    obtain ⟨middle, done, dismissed, pruned, settled⟩ := dismiss_done sound closed top id
    have topMiddle : RootExposed exposed middle.tree := by
      obtain ⟨top, node, atTop, alive, inside⟩ := top
      obtain ⟨node', alive', same⟩ := pruned.kept alive inside
      exact ⟨top, node', pruned.root.trans atTop, alive', same.content.symm ▸ inside⟩
    obtain ⟨after, doneAll, dismissedAll, prunedAll, settledAll⟩ :=
      ih pruned.sound (pruned.closed closed) topMiddle
    refine ⟨after, ?_, dismissed.trans dismissedAll, pruned.trans prunedAll, ?_⟩
    · rw [Progress.dismissAll, done, Outcome.done_andThen, doneAll]
    · intro other listedOther node alive
      rcases List.mem_cons.mp listedOther with rfl | later
      · obtain ⟨node', alive', same⟩ := prunedAll.origin alive
        rw [same.content]
        exact settled alive'
      · exact settledAll other later alive

end Dismissals

/-! ### Orders of children -/

/-- Some nodes have their children in another order. -/
structure Reordering (before after : Tree) (orders : List (NodeId × List NodeId)) : Prop where
  sound : after.Sound
  root : after.root = before.root
  kept : ∀ {id : NodeId} {node : AccessibleNode}, before.live id = some node →
    ∃ node', after.live id = some node' ∧ node.SameSelf node' ∧
      ((∃ order, (id, order) ∈ orders ∧ node'.children = order) ∨
        (id ∉ orders.map Prod.fst ∧ node'.children = node.children))
  origin : ∀ {id : NodeId} {node' : AccessibleNode}, after.live id = some node' →
    ∃ node, before.live id = some node ∧ node.SameSelf node'

theorem Reordering.nil {tree : Tree} (sound : tree.Sound) : Reordering tree tree [] :=
  ⟨sound, rfl, fun alive => ⟨_, alive, .refl _, .inr ⟨List.not_mem_nil, rfl⟩⟩,
    fun alive => ⟨_, alive, .refl _⟩⟩

theorem Reordering.cons {before middle after : Tree} {parent : NodeId} {order : List NodeId}
    {rest : List (NodeId × List NodeId)} (root : middle.root = before.root)
    (lives : ∀ id, middle.live id = (before.live id).map fun node =>
      if id = parent then { node with children := order } else node)
    (later : Reordering middle after rest) : Reordering before after ((parent, order) :: rest) := by
  have arranged (id : NodeId) (node : AccessibleNode) :
      node.SameSelf (if id = parent then { node with children := order } else node) := by
    split <;> exact ⟨rfl, rfl, rfl, rfl, rfl⟩
  refine ⟨later.sound, later.root.trans root, ?_, ?_⟩
  · intro id old aliveOld
    have aliveMiddle : middle.live id =
        some (if id = parent then { old with children := order } else old) := by
      rw [lives, aliveOld, Option.map_some]
    obtain ⟨last, aliveLast, self, children⟩ := later.kept aliveMiddle
    refine ⟨last, aliveLast, (arranged id old).trans self, ?_⟩
    rcases children with ⟨order', listed, ordered⟩ | ⟨absent, kept⟩
    · exact .inl ⟨order', List.mem_cons_of_mem _ listed, ordered⟩
    · by_cases here : id = parent
      · subst here
        rw [if_pos rfl] at kept
        exact .inl ⟨order, List.mem_cons_self, kept⟩
      · rw [if_neg here] at kept
        refine .inr ⟨?_, kept⟩
        rw [List.map_cons, List.mem_cons, not_or]
        exact ⟨here, absent⟩
  · intro id last aliveLast
    obtain ⟨between, aliveBetween, self⟩ := later.origin aliveLast
    rw [lives] at aliveBetween
    obtain ⟨old, aliveOld, rfl⟩ := Option.map_eq_some_iff.mp aliveBetween
    exact ⟨old, aliveOld, (arranged id old).trans self⟩

theorem arrangeAll_done {progress : Progress} {orders : List (NodeId × List NodeId)}
    (sound : progress.tree.Sound) (distinct : (orders.map Prod.fst).Nodup)
    (fits : ∀ entry ∈ orders, ∃ node, progress.tree.live entry.1 = some node ∧
      entry.2.Perm node.children) :
    ∃ after, progress.arrangeAll orders = .done after () ∧ after.counts = progress.counts ∧
      Reordering progress.tree after.tree orders := by
  induction orders generalizing progress with
  | nil => exact ⟨progress, rfl, rfl, .nil sound⟩
  | cons entry rest ih =>
    obtain ⟨parent, order⟩ := entry
    obtain ⟨node, alive, same⟩ := fits (parent, order) List.mem_cons_self
    obtain ⟨fresh, distinctRest⟩ := List.nodup_cons.mp distinct
    obtain ⟨middle, changed, done, soundMiddle, root, lives⟩ :=
      sound.arrange (Tree.get?_of_live alive) same
    -- The other orders are of other nodes, whose children are as they were.
    have fitsRest : ∀ entry ∈ rest, ∃ node, middle.live entry.1 = some node ∧
        entry.2.Perm node.children := by
      intro entry listed
      obtain ⟨other, aliveOther, sameOther⟩ := fits entry (List.mem_cons_of_mem _ listed)
      have differ : entry.1 ≠ parent := fun here => fresh (List.mem_map.mpr ⟨entry, listed, here⟩)
      refine ⟨other, ?_, sameOther⟩
      rw [lives, aliveOther, Option.map_some, if_neg differ]
    obtain ⟨after, doneAll, counts, reordered⟩ :=
      @ih { progress with tree := middle } soundMiddle distinctRest fitsRest
    refine ⟨after, ?_, counts, reordered.cons root lives⟩
    rw [Progress.arrangeAll, onTree_done done, Outcome.done_andThen, doneAll]

/-- Each order is one of the children that the node has when its turn comes. -/
theorem arrange_permutes {progress : Progress} {earlier later : List (NodeId × List NodeId)}
    {parent : NodeId} {order : List NodeId} (sound : progress.tree.Sound)
    (distinct : ((earlier ++ (parent, order) :: later).map Prod.fst).Nodup)
    (fits : ∀ entry ∈ earlier ++ (parent, order) :: later,
      ∃ node, progress.tree.live entry.1 = some node ∧ entry.2.Perm node.children) :
    ∃ arranged, progress.arrangeAll earlier = .done arranged () ∧
      arranged.tree.isAlive parent = true ∧ order.Perm (arranged.tree.children parent) := by
  rw [List.map_append, List.map_cons] at distinct
  obtain ⟨arranged, done, -, reordered⟩ := arrangeAll_done sound distinct.of_append_left
    fun entry listed => fits entry (List.mem_append_left _ listed)
  obtain ⟨node, alive, same⟩ := fits (parent, order) (by simp)
  obtain ⟨node', alive', -, children⟩ := reordered.kept alive
  refine ⟨arranged, done, Tree.isAlive_iff_live.mpr ⟨node', alive'⟩, ?_⟩
  rw [Tree.children_of_live alive']
  rcases children with ⟨other, entered, -⟩ | ⟨-, kept⟩
  · have again : parent ∈ earlier.map Prod.fst := List.mem_map.mpr ⟨_, entered, rfl⟩
    exact absurd List.mem_cons_self ((List.disjoint_of_nodup_append distinct) again)
  · rw [kept]
    exact same

/-! ### The whole alignment -/

section Run

variable {document : Document} {entries : List Exposed} {progress : Progress}

theorem mem_seatsBelow {tree : Tree} {id child : NodeId} :
    child ∈ seatsBelow tree entries id ↔ ∃ entry ∈ entries,
      entry.parent.bind tree.nodeFor? = some id ∧ tree.nodeFor? entry.handle = some child := by
  rw [seatsBelow, List.mem_filterMap]
  refine exists_congr fun entry => and_congr_right fun _ => ?_
  split
  · exact (and_iff_right ‹_›).symm
  · exact iff_of_false (Option.some_ne_none _).symm fun both => absurd both.1 ‹_›

/-- The nodes of entries below one node are distinct. -/
theorem seatsBelow_nodup {tree : Tree} (sound : tree.Sound)
    (distinct : (entries.map Exposed.handle).Nodup) (id : NodeId) :
    (seatsBelow tree entries id).Nodup := by
  refine List.pairwise_filterMap.mpr ((List.pairwise_map.mp distinct).imp ?_)
  intro left right differ first seatedLeft second seatedRight same
  split at seatedLeft
  · split at seatedRight
    · exact differ (sound.eq_of_nodeFor? seatedLeft (same ▸ seatedRight))
    · cases seatedRight
  · cases seatedLeft

theorem seatsBelow_congr {left right : Tree} (bound : Bound entries)
    (same : ∀ handle ∈ entries.map Exposed.handle, left.nodeFor? handle = right.nodeFor? handle)
    (id : NodeId) : seatsBelow left entries id = seatsBelow right entries id := by
  refine List.filterMap_congr fun entry listed => ?_
  have parents : entry.parent.bind left.nodeFor? = entry.parent.bind right.nodeFor? := by
    cases named : entry.parent with
    | none => rfl
    | some parent => exact same parent (bound entry listed named)
  rw [parents, same entry.handle (List.mem_map_of_mem listed)]

/-- Once only exposed content is left, the children of a node are the seats below it. -/
theorem seatsBelow_perm (placed : Placed document entries progress)
    (distinct : (entries.map Exposed.handle).Nodup) {after : Tree}
    (pruned : Pruned (entries.map Exposed.handle) progress.tree after)
    (only : ∀ {id : NodeId} {node : AccessibleNode}, after.live id = some node →
      node.content ∈ entries.map Exposed.handle)
    {id : NodeId} {node : AccessibleNode} (alive : after.live id = some node) :
    (seatsBelow progress.tree entries id).Perm node.children := by
  refine (List.perm_ext_iff_of_nodup (seatsBelow_nodup placed.sound distinct id)
    (pruned.sound.forest.nodup alive)).mpr fun child => ?_
  rw [mem_seatsBelow, pruned.sound.forest.listed alive]
  constructor
  · rintro ⟨entry, listed, named, known⟩
    obtain ⟨child', seat, seated⟩ := placed.seated entry listed
    rw [seated.known] at known
    cases known
    have same := placed.sound.content_of_nodeFor? seated.known seated.alive
    obtain ⟨kept, aliveKept, self⟩ :=
      pruned.kept seated.alive (same.symm ▸ List.mem_map_of_mem listed)
    exact ⟨kept, aliveKept, (self.parent.trans seated.parent).trans named⟩
  · rintro ⟨kept, aliveKept, linked⟩
    obtain ⟨seat, aliveSeat, self⟩ := pruned.origin aliveKept
    obtain ⟨entry, listed, same⟩ := List.mem_map.mp (only aliveKept)
    obtain ⟨child', seat', seated⟩ := placed.seated entry listed
    have known := placed.sound.nodeFor?_of_live aliveSeat
    rw [← self.content, ← same, seated.known] at known
    cases known
    rw [seated.alive] at aliveSeat
    cases aliveSeat
    exact ⟨entry, listed, by rw [← seated.parent, ← self.parent, linked], seated.known⟩

/-- The orders that placing leaves behind are the seats below the nodes that have some. -/
theorem mem_orders (placed : Placed document entries progress) {id : NodeId} {order : List NodeId}
    (entered : (id, order) ∈ progress.listed.toList) :
    order ≠ [] ∧ order = seatsBelow progress.tree entries id := by
  rw [Std.ExtTreeMap.mem_toList_iff_getElem?_eq_some,
    Edges.getElem?_eq_some_iff placed.occupied, placed.listed] at entered
  exact ⟨entered.1, entered.2.symm⟩

theorem orders_distinct (progress : Progress) : (progress.listed.toList.map Prod.fst).Nodup := by
  rw [Std.ExtTreeMap.map_fst_toList_eq_keys]
  exact Std.ExtTreeMap.nodup_keys

/-- A node without an order has no seats below it. -/
theorem seatsBelow_eq_nil (placed : Placed document entries progress) {id : NodeId}
    (absent : id ∉ progress.listed.toList.map Prod.fst) :
    seatsBelow progress.tree entries id = [] := by
  rw [← placed.listed, Edges.targets]
  cases entered : progress.listed[id]? with
  | none => rfl
  | some order =>
    have inList := Std.ExtTreeMap.mem_toList_iff_getElem?_eq_some.mpr entered
    exact absurd (List.mem_map.mpr ⟨_, inList, rfl⟩) absent

/-- What is left to arrange can be arranged: the orders are of children of live nodes. -/
theorem orders_fit (placed : Placed document entries progress) (bound : Bound entries)
    (distinct : (entries.map Exposed.handle).Nodup) {after : Tree}
    (pruned : Pruned (entries.map Exposed.handle) progress.tree after)
    (only : ∀ {id : NodeId} {node : AccessibleNode}, after.live id = some node →
      node.content ∈ entries.map Exposed.handle) :
    ∀ entry ∈ progress.listed.toList, ∃ node, after.live entry.1 = some node ∧
      entry.2.Perm node.children := by
  rintro ⟨parent, order⟩ entered
  obtain ⟨some, rfl⟩ := mem_orders placed entered
  obtain ⟨child, member⟩ := List.exists_mem_of_ne_nil _ some
  obtain ⟨entry, inside, named, -⟩ := mem_seatsBelow.mp member
  obtain ⟨handle, above, known⟩ := Option.bind_eq_some_iff.mp named
  obtain ⟨node, alive, same⟩ := placed.sound.live_of_nodeFor? known
  obtain ⟨kept, aliveKept, -⟩ := pruned.kept alive (same.symm ▸ bound entry inside above)
  exact ⟨kept, aliveKept, seatsBelow_perm placed distinct pruned only aliveKept⟩

/-- The live nodes are those of the layout, each as its entry tells, and in the order of the
layout. -/
structure Aligned (document : Document) (tree : Tree) : Prop where
  top : ∃ id, tree.root = some id ∧ tree.nodeFor? document.root = some id
  seated : ∀ entry ∈ document.layout, ∃ id node, Seated document tree entry id node ∧
    node.children = seatsBelow tree document.layout id
  only : ∀ {id : NodeId} {node : AccessibleNode}, tree.live id = some node →
    node.content ∈ document.layout.map Exposed.handle

section Stages

variable {between after : Tree} (placed : Placed document entries progress)
  (pruned : Pruned (entries.map Exposed.handle) progress.tree between)
  (reordered : Reordering between after progress.listed.toList)
include placed pruned reordered

/-- A node of exposed content is left as it was placed, with the seats below it as its children. -/
theorem live_arranged (distinct : (entries.map Exposed.handle).Nodup)
    (only : ∀ {id : NodeId} {node : AccessibleNode}, between.live id = some node →
      node.content ∈ entries.map Exposed.handle)
    {id : NodeId} {node : AccessibleNode} (alive : progress.tree.live id = some node)
    (inside : node.content ∈ entries.map Exposed.handle) :
    ∃ last, after.live id = some last ∧ node.SameSelf last ∧
      last.children = seatsBelow progress.tree entries id := by
  obtain ⟨kept, aliveKept, self⟩ := pruned.kept alive inside
  obtain ⟨last, aliveLast, self', children⟩ := reordered.kept aliveKept
  refine ⟨last, aliveLast, self.trans self', ?_⟩
  rcases children with ⟨order, entered, ordered⟩ | ⟨absent, same⟩
  · exact ordered.trans (mem_orders placed entered).2
  · have perm := seatsBelow_perm placed distinct pruned only aliveKept
    rw [seatsBelow_eq_nil placed absent] at perm ⊢
    rw [same, perm.nil_eq]

/-- Exposed content has the node that it was placed with. -/
theorem nodeFor?_arranged {handle : Handle} (inside : handle ∈ entries.map Exposed.handle) :
    after.nodeFor? handle = progress.tree.nodeFor? handle := by
  obtain ⟨id, known⟩ := placed.known inside
  obtain ⟨node, alive, rfl⟩ := placed.sound.live_of_nodeFor? known
  obtain ⟨kept, aliveKept, self⟩ := pruned.kept alive inside
  obtain ⟨last, aliveLast, self', -⟩ := reordered.kept aliveKept
  rw [known, ← (self.trans self').content]
  exact reordered.sound.nodeFor?_of_live aliveLast

end Stages

theorem aligned_arranged {between after : Tree} (placed : Placed document document.layout progress)
    (bound : Bound document.layout) (distinct : (document.layout.map Exposed.handle).Nodup)
    (pruned : Pruned (document.layout.map Exposed.handle) progress.tree between)
    (only : ∀ {id : NodeId} {node : AccessibleNode}, between.live id = some node →
      node.content ∈ document.layout.map Exposed.handle)
    (reordered : Reordering between after progress.listed.toList) : Aligned document after := by
  have known (handle : Handle) (inside : handle ∈ document.layout.map Exposed.handle) :
      after.nodeFor? handle = progress.tree.nodeFor? handle :=
    nodeFor?_arranged placed pruned reordered inside
  refine ⟨?_, ?_, ?_⟩
  · obtain ⟨id, atRoot, knownRoot⟩ := placed.top
    refine ⟨id, (reordered.root.trans pruned.root).trans atRoot, ?_⟩
    rw [known document.root List.mem_cons_self, knownRoot]
  · intro entry inside
    obtain ⟨id, node, seated⟩ := placed.seated entry inside
    have same := placed.sound.content_of_nodeFor? seated.known seated.alive
    obtain ⟨last, aliveLast, self, children⟩ := live_arranged placed pruned reordered distinct only
      seated.alive (same.symm ▸ List.mem_map_of_mem inside)
    have parents : entry.parent.bind after.nodeFor? =
        entry.parent.bind progress.tree.nodeFor? := by
      cases named : entry.parent with
      | none => rfl
      | some parent => exact known parent (bound entry inside named)
    refine ⟨id, last, ⟨?_, aliveLast, ?_, ?_, ?_⟩, ?_⟩
    · rw [known _ (List.mem_map_of_mem inside), seated.known]
    · rw [self.attributes, seated.attributes]
    · exact fun plain => self.scope.trans (seated.scope plain)
    · rw [self.parent, seated.parent, parents]
    · rw [children, seatsBelow_congr bound known]
  · intro id node alive
    obtain ⟨before, aliveBefore, self⟩ := reordered.origin alive
    rw [self.content]
    exact only aliveBefore

/-- The three passes of an alignment, and what each of them leaves behind. -/
structure Stages (document : Document) (tree : Tree) (placed dismissed arranged : Progress) :
    Prop where
  placing : (Progress.start tree).placeAll document document.layout = .done placed ()
  dismissing : placed.dismissAll (document.layout.map Exposed.handle) placed.tree.preorder =
    .done dismissed ()
  arranging : dismissed.arrangeAll dismissed.listed.toList = .done arranged ()
  seats : Placed document document.layout placed
  bound : Bound document.layout
  keeps : Keeps tree placed.tree
  tallies : Tallies document.layout (Progress.start tree) placed
  dismissals : Dismissed (document.layout.map Exposed.handle) placed dismissed
  pruned : Pruned (document.layout.map Exposed.handle) placed.tree dismissed.tree
  only : ∀ {id : NodeId} {node : AccessibleNode}, dismissed.tree.live id = some node →
    node.content ∈ document.layout.map Exposed.handle
  counts : arranged.counts = dismissed.counts
  reordered : Reordering dismissed.tree arranged.tree placed.listed.toList

theorem exists_stages (wellFormed : document.WellFormed) {tree : Tree} (sound : tree.Sound)
    {top : NodeId} (atTop : tree.root = some top)
    (knownTop : tree.nodeFor? document.root = some top) :
    ∃ placed dismissed arranged, Stages document tree placed dismissed arranged := by
  obtain ⟨first, donePlacing, placed, bound, keeps, tallies⟩ :=
    placeAll_layout wellFormed sound atTop knownTop
  have distinct := Document.layout_nodup wellFormed
  have rootExposed : RootExposed (document.layout.map Exposed.handle) first.tree := by
    obtain ⟨id, atRoot, known⟩ := placed.top
    obtain ⟨node, alive, same⟩ := placed.sound.live_of_nodeFor? known
    refine ⟨id, node, atRoot, alive, ?_⟩
    rw [same]
    exact List.mem_cons_self
  obtain ⟨second, doneDismissing, dismissals, pruned, settled⟩ :=
    dismissAll_done first.tree.preorder placed.sound (placed.closed bound) rootExposed
  have only {id : NodeId} {node : AccessibleNode} (alive : second.tree.live id = some node) :
      node.content ∈ document.layout.map Exposed.handle := by
    obtain ⟨before, aliveBefore, -⟩ := pruned.origin alive
    exact settled id (placed.sound.mem_preorder.mpr ⟨before, aliveBefore⟩) alive
  obtain ⟨third, doneArranging, counts, reordered⟩ := arrangeAll_done pruned.sound
    (orders_distinct second) (dismissals.listed.symm ▸ orders_fit placed bound distinct pruned only)
  exact ⟨first, second, third, donePlacing, doneDismissing, doneArranging, placed, bound, keeps,
    tallies, dismissals, pruned, only, counts, dismissals.listed ▸ reordered⟩

namespace Stages

variable {tree : Tree} {placed dismissed arranged : Progress}

theorem run_eq (stages : Stages document tree placed dismissed arranged) :
    Alignment.run document tree = .done arranged.tree arranged.counts := by
  unfold Alignment.run
  dsimp only
  rw [stages.placing, Outcome.done_andThen, stages.dismissing, Outcome.done_andThen,
    stages.arranging]
  rfl

theorem aligned (stages : Stages document tree placed dismissed arranged)
    (wellFormed : document.WellFormed) : Aligned document arranged.tree :=
  aligned_arranged stages.seats stages.bound (Document.layout_nodup wellFormed) stages.pruned
    stages.only stages.reordered

theorem root (stages : Stages document tree placed dismissed arranged) :
    arranged.tree.root = tree.root :=
  (stages.reordered.root.trans stages.pruned.root).trans stages.keeps.root

/-- Exposed content that had a node keeps it. -/
theorem nodeFor?_of_some (stages : Stages document tree placed dismissed arranged)
    {handle : Handle} {id : NodeId} (inside : handle ∈ document.layout.map Exposed.handle)
    (before : tree.nodeFor? handle = some id) : arranged.tree.nodeFor? handle = some id := by
  rw [nodeFor?_arranged stages.seats stages.pruned stages.reordered inside,
    stages.keeps.known before]

end Stages

/-- A tree whose root stands for the root of the document is aligned with it. Content that is exposed
and has a node keeps it. -/
theorem run_done (wellFormed : document.WellFormed) {tree : Tree} (sound : tree.Sound)
    {top : NodeId} (atTop : tree.root = some top)
    (knownTop : tree.nodeFor? document.root = some top) :
    ∃ after alignment, Alignment.run document tree = .done after alignment ∧ after.Sound ∧
      Aligned document after ∧ after.root = tree.root ∧
      ∀ {handle : Handle} {id : NodeId}, handle ∈ document.layout.map Exposed.handle →
        tree.nodeFor? handle = some id → after.nodeFor? handle = some id := by
  obtain ⟨placed, dismissed, arranged, stages⟩ := exists_stages wellFormed sound atTop knownTop
  exact ⟨arranged.tree, arranged.counts, stages.run_eq, stages.reordered.sound,
    stages.aligned wellFormed, stages.root, stages.nodeFor?_of_some⟩

end Run

end Accessibility.Alignment
