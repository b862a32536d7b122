import Accessibility.Proofs.Document.Layout
import Accessibility.Proofs.Relation.Edges
import Accessibility.Proofs.Tree.Shutdown
import Accessibility.Session.Alignment

/-!
The first pass of an alignment gives every entry of the layout its node. The nodes of the entries so
far stand below one another up to the root, so no node is ever moved below itself.
-/

set_option autoImplicit false

namespace Accessibility

/-- The same node but for its child list. -/
structure AccessibleNode.SameSelf (left right : AccessibleNode) : Prop where
  content : right.content = left.content
  kind : right.kind = left.kind
  attributes : right.attributes = left.attributes
  scope : right.scope = left.scope
  parent : right.parent = left.parent

namespace AccessibleNode.SameSelf

variable {left middle right : AccessibleNode}

theorem refl (node : AccessibleNode) : node.SameSelf node :=
  ⟨rfl, rfl, rfl, rfl, rfl⟩

theorem trans (first : left.SameSelf middle) (second : middle.SameSelf right) :
    left.SameSelf right :=
  ⟨second.content.trans first.content, second.kind.trans first.kind,
    second.attributes.trans first.attributes, second.scope.trans first.scope,
    second.parent.trans first.parent⟩

end AccessibleNode.SameSelf

/-- Where a parent stands for known content, the child does not stand for other content. -/
def Tree.Closed (known : List Handle) (tree : Tree) : Prop :=
  ∀ {parent child : NodeId} {above node : AccessibleNode}, tree.live parent = some above →
    tree.live child = some node → node.parent = some parent → node.content ∈ known →
    above.content ∈ known

/-- What stands above a node of known content stands for known content. -/
theorem Tree.Closed.of_leads {tree : Tree} {known : List Handle} (closed : tree.Closed known)
    (sound : tree.Sound) {upper lower : NodeId} {node : AccessibleNode}
    (leads : tree.live.Leads upper lower) (alive : tree.live lower = some node)
    (listed : node.content ∈ known) :
    ∃ above, tree.live upper = some above ∧ above.content ∈ known := by
  refine leads.induction (motive := fun lower => ∀ node, tree.live lower = some node →
    node.content ∈ known → ∃ above, tree.live upper = some above ∧ above.content ∈ known)
    (fun node alive listed => ⟨node, alive, listed⟩) ?_ node alive listed
  intro parent child above _ ih aliveParent listedChild node alive listed
  have linked := sound.forest.parent_of_listed aliveParent listedChild alive
  exact ih above aliveParent (closed aliveParent alive linked listed)

def Document.attributesOf? (document : Document) (handle : Handle) : Option Attributes :=
  (document.get? handle).map ContentNode.attributes

namespace Alignment

/-! ### One seat -/

/-- Content has been given a node under a parent, and all other nodes are where they were. -/
structure Seating (before after : Tree) (content : Handle) (attributes : Attributes)
    (scope : Scope) (parent : Option NodeId) (id : NodeId) : Prop where
  sound : after.Sound
  root : after.root = before.root
  seated : ∃ node, after.live id = some node ∧ node.content = content ∧
    node.attributes = attributes ∧ node.scope = scope ∧ node.parent = parent
  same : ∀ {node : AccessibleNode}, before.live id = some node → node.content = content
  kept : ∀ {other : NodeId} {node : AccessibleNode}, other ≠ id → before.live other = some node →
    ∃ node', after.live other = some node' ∧ node.SameSelf node'
  origin : ∀ {other : NodeId} {node' : AccessibleNode}, other ≠ id → after.live other = some node' →
    ∃ node, before.live other = some node ∧ node.SameSelf node'

section Seat

variable {progress : Progress} {parent id : NodeId} {above : AccessibleNode}

theorem onTree_done {α : Type} {call : Tree → Outcome Tree α} {after : Tree} {answer : α}
    (done : call progress.tree = .done after answer) :
    progress.onTree call = .done { progress with tree := after } answer := by
  rw [Progress.onTree, done]
  rfl

/-- A call that changes the other nodes in their child lists at most. -/
theorem Seating.of_map {before after : Tree} {content : Handle} {attributes : Attributes}
    {scope : Scope} {link : Option NodeId} (sound : after.Sound) (root : after.root = before.root)
    (seated : ∃ node, after.live id = some node ∧ node.content = content ∧
      node.attributes = attributes ∧ node.scope = scope ∧ node.parent = link)
    (same : ∀ {node : AccessibleNode}, before.live id = some node → node.content = content)
    {change : NodeId → AccessibleNode → AccessibleNode}
    (lives : ∀ {other : NodeId}, other ≠ id →
      after.live other = (before.live other).map (change other))
    (self : ∀ {other : NodeId}, other ≠ id → ∀ node : AccessibleNode,
      node.SameSelf (change other node)) :
    Seating before after content attributes scope link id := by
  refine ⟨sound, root, seated, same, ?_, ?_⟩
  · intro other node differ alive
    refine ⟨change other node, ?_, self differ node⟩
    rw [lives differ, alive, Option.map_some]
  · intro other node' differ alive
    rw [lives differ] at alive
    obtain ⟨node, aliveBefore, rfl⟩ := Option.map_eq_some_iff.mp alive
    exact ⟨node, aliveBefore, self differ node⟩

theorem seating_create {tree : Tree} (sound : tree.Sound) (alive : tree.live parent = some above)
    {content : Handle} (absent : tree.nodeFor? content = none) (index : Nat) (seed : Seed) :
    ∃ after, tree.create content parent index seed = .done after tree.nodes.nextKey ∧
      Seating tree after content seed.attributes seed.scope (some parent)
        tree.nodes.nextKey := by
  obtain ⟨after, created, soundAfter, root, lives⟩ := sound.create alive absent index seed
  have leafAt : after.live tree.nodes.nextKey = some (Tree.leaf content (some parent) seed) := by
    rw [lives, Live.withLeaf, if_pos rfl]
  have others {other : NodeId} (differ : other ≠ tree.nodes.nextKey) :
      after.live other = (tree.live other).map fun node =>
        if other = parent then node.withChild index tree.nodes.nextKey else node := by
    rw [lives, Live.withLeaf, if_neg differ]
  refine ⟨after, created, .of_map soundAfter root ⟨_, leafAt, rfl, rfl, rfl, rfl⟩ ?_ others
    fun _ node => ?_⟩
  · intro node aliveBefore
    rw [sound.live_nextKey] at aliveBefore
    cases aliveBefore
  · split
    · exact ⟨rfl, rfl, rfl, rfl, rfl⟩
    · exact .refl node

/-- A node whose links are settled gets the attributes and the scope of its content. -/
theorem seating_sync {tree : Tree} (sound : tree.Sound) {node : AccessibleNode}
    (alive : tree.live id = some node) (attributes : Attributes) (scope : Scope) :
    ∃ after changed, tree.sync id attributes scope = .done after changed ∧
      Seating tree after node.content attributes scope node.parent id := by
  obtain ⟨after, changed, synced, soundAfter, root, lives⟩ :=
    sound.sync (Tree.get?_of_live alive) attributes scope
  have syncedAt : after.live id = some { node with attributes := attributes, scope := scope } := by
    rw [lives, alive, Option.map_some, if_pos rfl]
  refine ⟨after, changed, synced, .of_map soundAfter root ⟨_, syncedAt, rfl, rfl, rfl, rfl⟩ ?_
    (fun {other} _ => lives other) fun differ old => ?_⟩
  · intro node' aliveBefore
    rw [alive] at aliveBefore
    cases aliveBefore
    rfl
  · rw [if_neg differ]
    exact .refl old

/-- A move leaves every node but the moved one as it is, apart from child lists. -/
theorem seating_reparent {tree : Tree} (sound : tree.Sound) {node : AccessibleNode}
    (alive : tree.live id = some node) (aliveParent : tree.live parent = some above)
    (apart : ¬ tree.live.Leads id parent) (index : Nat) :
    ∃ after, tree.reparent id parent index = .done after () ∧
      Seating tree after node.content node.attributes node.scope (some parent) id := by
  obtain ⟨after, moved, soundAfter, root, lives⟩ := sound.reparent alive aliveParent apart index
  have movedAt : after.live id = some { node with parent := some parent } := by
    rw [lives, Live.moved, alive, Option.map_some, if_pos rfl]
  refine ⟨after, moved, .of_map soundAfter root ⟨_, movedAt, rfl, rfl, rfl, rfl⟩ ?_
    (fun {other} _ => congrFun lives other) fun differ old => ?_⟩
  · intro node' aliveBefore
    rw [alive] at aliveBefore
    cases aliveBefore
    rfl
  · rw [if_neg differ]
    split <;> exact ⟨rfl, rfl, rfl, rfl, rfl⟩

/-- A second call on the same node. -/
theorem Seating.trans {first second third : Tree} {content : Handle}
    {attributes attributes' : Attributes} {scope scope' : Scope} {link link' : Option NodeId}
    (one : Seating first second content attributes scope link id)
    (other : Seating second third content attributes' scope' link' id) :
    Seating first third content attributes' scope' link' id := by
  refine ⟨other.sound, other.root.trans one.root, other.seated, one.same, ?_, ?_⟩
  · intro node old differ alive
    obtain ⟨middle, aliveMiddle, same⟩ := one.kept differ alive
    obtain ⟨last, aliveLast, same'⟩ := other.kept differ aliveMiddle
    exact ⟨last, aliveLast, same.trans same'⟩
  · intro node last differ alive
    obtain ⟨middle, aliveMiddle, same⟩ := other.origin differ alive
    obtain ⟨old, aliveOld, same'⟩ := one.origin differ aliveMiddle
    exact ⟨old, aliveOld, same'.trans same⟩

/-- Content that has a node keeps it. -/
theorem Seating.nodeFor?_of_some {before after : Tree} {content wanted : Handle}
    {attributes : Attributes} {scope : Scope} {link : Option NodeId}
    (seating : Seating before after content attributes scope link id) (sound : before.Sound)
    {found : NodeId} (known : before.nodeFor? wanted = some found) :
    after.nodeFor? wanted = some found := by
  obtain ⟨node, alive, rfl⟩ := sound.live_of_nodeFor? known
  by_cases here : found = id
  · subst here
    obtain ⟨node', aliveAfter, same, -⟩ := seating.seated
    rw [seating.same alive, ← same]
    exact seating.sound.nodeFor?_of_live aliveAfter
  · obtain ⟨node', aliveAfter, same⟩ := seating.kept here alive
    rw [← same.content]
    exact seating.sound.nodeFor?_of_live aliveAfter

/-- Other content has the node that it had, or none as before. -/
theorem Seating.nodeFor?_of_ne {before after : Tree} {content wanted : Handle}
    {attributes : Attributes} {scope : Scope} {link : Option NodeId}
    (seating : Seating before after content attributes scope link id) (sound : before.Sound)
    (differ : wanted ≠ content) : after.nodeFor? wanted = before.nodeFor? wanted := by
  cases known : before.nodeFor? wanted with
  | some found => exact seating.nodeFor?_of_some sound known
  | none =>
    cases knownAfter : after.nodeFor? wanted with
    | none => rfl
    | some found =>
      obtain ⟨node', aliveAfter, rfl⟩ := seating.sound.live_of_nodeFor? knownAfter
      have apart : found ≠ id := by
        rintro rfl
        obtain ⟨seated, aliveSeated, same, -⟩ := seating.seated
        rw [aliveAfter] at aliveSeated
        cases aliveSeated
        exact differ same
      obtain ⟨node, alive, same⟩ := seating.origin apart aliveAfter
      rw [same.content, sound.nodeFor?_of_live alive] at known
      cases known

/-- The node of other content stays under its parent. -/
theorem Seating.parent?_of_ne {before after : Tree} {content wanted : Handle}
    {attributes : Attributes} {scope : Scope} {link : Option NodeId}
    (seating : Seating before after content attributes scope link id) (sound : before.Sound)
    (differ : wanted ≠ content) {found : NodeId} (known : before.nodeFor? wanted = some found) :
    after.parent? found = before.parent? found := by
  obtain ⟨node, alive, rfl⟩ := sound.live_of_nodeFor? known
  have apart : found ≠ id := by
    rintro rfl
    exact differ (seating.same alive)
  obtain ⟨node', aliveAfter, same⟩ := seating.kept apart alive
  rw [Tree.parent?_of_live aliveAfter, Tree.parent?_of_live alive, same.parent]

/-- The root stays, and content that has a node keeps it. -/
structure Keeps (before after : Tree) : Prop where
  root : after.root = before.root
  known : ∀ {content : Handle} {id : NodeId}, before.nodeFor? content = some id →
    after.nodeFor? content = some id

namespace Keeps

variable {before middle after : Tree}

theorem refl (tree : Tree) : Keeps tree tree :=
  ⟨rfl, fun known => known⟩

theorem trans (first : Keeps before middle) (second : Keeps middle after) : Keeps before after :=
  ⟨second.root.trans first.root, fun known => second.known (first.known known)⟩

end Keeps

/-- What placing some entries adds to the counts: one for each whose content had no node, and one for
each whose node has another parent than before. The nodes of other content stay where they are. -/
structure Tallies (entries : List Exposed) (before after : Progress) : Prop where
  created : after.counts.created = before.counts.created +
    entries.countP fun entry => (before.tree.nodeFor? entry.handle).isNone
  moved : after.counts.moved = before.counts.moved + entries.countP fun entry =>
    (before.tree.nodeFor? entry.handle).any fun id =>
      after.tree.parent? id != before.tree.parent? id
  shutDown : after.counts.shutDown = before.counts.shutDown
  known : ∀ {handle : Handle}, handle ∉ entries.map Exposed.handle →
    after.tree.nodeFor? handle = before.tree.nodeFor? handle
  parent : ∀ {handle : Handle} {id : NodeId}, handle ∉ entries.map Exposed.handle →
    before.tree.nodeFor? handle = some id → after.tree.parent? id = before.tree.parent? id

namespace Tallies

variable {first second : List Exposed} {before middle after : Progress}

theorem refl (progress : Progress) : Tallies [] progress progress :=
  ⟨rfl, rfl, rfl, fun _ => rfl, fun _ _ => rfl⟩

/-- The counts of entries of different content add up. -/
theorem trans (one : Tallies first before middle) (other : Tallies second middle after)
    (keeps : Keeps before.tree middle.tree)
    (distinct : ((first ++ second).map Exposed.handle).Nodup) :
    Tallies (first ++ second) before after := by
  rw [List.map_append] at distinct
  have disjoint := List.disjoint_of_nodup_append distinct
  have apart {entry : Exposed} (listed : entry ∈ second) :
      entry.handle ∉ first.map Exposed.handle :=
    fun again => disjoint again (List.mem_map_of_mem listed)
  have later {entry : Exposed} (listed : entry ∈ first) :
      entry.handle ∉ second.map Exposed.handle :=
    fun again => disjoint (List.mem_map_of_mem listed) again
  refine ⟨?_, ?_, other.shutDown.trans one.shutDown, ?_, ?_⟩
  · rw [other.created, one.created, List.countP_append, Nat.add_assoc]
    congr 2
    refine List.countP_congr fun entry listed => ?_
    rw [one.known (apart listed)]
  · rw [other.moved, one.moved, List.countP_append, Nat.add_assoc]
    congr 2
    · refine List.countP_congr fun entry listed => ?_
      cases known : before.tree.nodeFor? entry.handle with
      | none => rfl
      | some id =>
        rw [Option.any_some, Option.any_some, other.parent (later listed) (keeps.known known)]
    · refine List.countP_congr fun entry listed => ?_
      rw [one.known (apart listed)]
      cases known : before.tree.nodeFor? entry.handle with
      | none => rfl
      | some id => rw [Option.any_some, Option.any_some, one.parent (apart listed) known]
  · intro handle absent
    rw [List.map_append, List.mem_append, not_or] at absent
    rw [other.known absent.2, one.known absent.1]
  · intro handle id absent known
    rw [List.map_append, List.mem_append, not_or] at absent
    rw [other.parent absent.2 (keeps.known known), one.parent absent.1 known]

end Tallies

/-- One entry more has its node, and the counts tell how it came to it. -/
theorem Seating.tallies {before after : Progress} (sound : before.tree.Sound) {entry : Exposed}
    {attributes : Attributes} {scope : Scope} {link : Option NodeId}
    (seating : Seating before.tree after.tree entry.handle attributes scope link id)
    (created : after.counts.created =
      before.counts.created + if before.tree.nodeFor? entry.handle = none then 1 else 0)
    (moved : after.counts.moved = before.counts.moved +
      if before.tree.nodeFor? entry.handle = some id ∧ before.tree.parent? id ≠ link then 1 else 0)
    (shutDown : after.counts.shutDown = before.counts.shutDown) :
    Tallies [entry] before after := by
  refine ⟨?_, ?_, shutDown, ?_, ?_⟩
  · rw [created, List.countP_singleton]
    simp only [Option.isNone_iff_eq_none]
  · rw [moved, List.countP_singleton]
    congr 1
    refine if_congr ?_ rfl rfl
    cases known : before.tree.nodeFor? entry.handle with
    | none => simp
    | some found =>
      have here := seating.nodeFor?_of_some sound known
      obtain ⟨node, alive, same, -, -, linked⟩ := seating.seated
      rw [← same, seating.sound.nodeFor?_of_live alive] at here
      cases here
      rw [Option.any_some, bne_iff_ne, Tree.parent?_of_live alive, linked]
      simp only [true_and, ne_comm]
  · intro handle absent
    exact seating.nodeFor?_of_ne sound fun same => absent (List.mem_singleton.mpr same)
  · intro handle found absent known
    exact seating.parent?_of_ne sound (fun same => absent (List.mem_singleton.mpr same)) known

/-- Content gets its node under a live parent that is not below that node. -/
theorem seat_done (progress : Progress) (sound : progress.tree.Sound) (node : ContentNode)
    (entry : Exposed) (alive : progress.tree.live parent = some above)
    (apart : ∀ {id : NodeId}, progress.tree.nodeFor? entry.handle = some id →
      ¬ progress.tree.live.Leads id parent) :
    ∃ after id, progress.seat node entry parent = .done after id ∧
      after.listed = progress.listed ∧
      Seating progress.tree after.tree entry.handle node.attributes entry.scope
        (some parent) id ∧ Tallies [entry] progress after := by
  unfold Progress.seat
  cases known : progress.tree.nodeFor? entry.handle with
  | none =>
    obtain ⟨after, created, seating⟩ := seating_create sound alive known
      (progress.tree.children parent).length ⟨node.kind, node.attributes, entry.scope⟩
    refine ⟨{ progress.countCreated with tree := after }, progress.tree.nodes.nextKey, ?_, rfl,
      seating, seating.tallies sound ?_ ?_ rfl⟩
    · dsimp only
      rw [onTree_done created]
    · rw [if_pos known]
      rfl
    · rw [known, if_neg fun both => absurd both.1 nofun]
      rfl
  | some id =>
    obtain ⟨old, aliveOld, same⟩ := sound.live_of_nodeFor? known
    dsimp only
    by_cases there : progress.tree.parent? id = some parent
    · obtain ⟨after, changed, synced, seating⟩ :=
        seating_sync sound aliveOld node.attributes entry.scope
      have linked := (Tree.parent?_of_live aliveOld).symm.trans there
      rw [linked, same] at seating
      refine ⟨{ progress with tree := after }, id, ?_, rfl, seating, seating.tallies sound ?_ ?_ rfl⟩
      · rw [if_pos there, Outcome.done_andThen, onTree_done synced, Outcome.done_andThen]
      · rw [known, if_neg nofun]
        rfl
      · rw [if_neg fun both => both.2 there]
        rfl
    · obtain ⟨middle, moved, first⟩ := seating_reparent sound aliveOld alive (apart known)
        (progress.tree.children parent).length
      obtain ⟨old', aliveMiddle, same', -, -, linked⟩ := first.seated
      obtain ⟨after, changed, synced, second⟩ :=
        seating_sync first.sound aliveMiddle node.attributes entry.scope
      rw [same] at first
      rw [same', same, linked] at second
      have seating := first.trans second
      refine ⟨{ progress.countMoved with tree := after }, id, ?_, rfl, seating,
        seating.tallies sound ?_ ?_ rfl⟩
      · rw [if_neg there, onTree_done moved, Outcome.done_andThen, Outcome.done_andThen]
        have syncedMoved : (Progress.countMoved { progress with tree := middle }).onTree
            (·.sync id node.attributes entry.scope) =
              .done { progress.countMoved with tree := after } changed := onTree_done synced
        rw [syncedMoved, Outcome.done_andThen]
      · rw [known, if_neg nofun]
        rfl
      · rw [if_pos ⟨known, there⟩]
        rfl

end Seat

/-! ### All seats -/

/-- The node of an entry of the layout, with what the entry asks of it. If the root is a shadow root,
the scope of the entry need not be that of its content, and either may be found. -/
structure Seated (document : Document) (tree : Tree) (entry : Exposed) (id : NodeId)
    (node : AccessibleNode) : Prop where
  known : tree.nodeFor? entry.handle = some id
  alive : tree.live id = some node
  attributes : document.attributesOf? entry.handle = some node.attributes
  scope : document.isShadowRoot document.root = false → node.scope = entry.scope
  parent : node.parent = entry.parent.bind tree.nodeFor?

/-- The nodes of those entries that stand below a node. -/
def seatsBelow (tree : Tree) (entries : List Exposed) (id : NodeId) : List NodeId :=
  entries.filterMap fun entry =>
    if entry.parent.bind tree.nodeFor? = some id then tree.nodeFor? entry.handle else none

/-- Entries whose parents are among them. -/
def Bound (entries : List Exposed) : Prop :=
  ∀ entry ∈ entries, ∀ {parent : Handle}, entry.parent = some parent →
    parent ∈ entries.map Exposed.handle

/-- An alignment that has placed these entries. -/
structure Placed (document : Document) (entries : List Exposed) (progress : Progress) : Prop where
  sound : progress.tree.Sound
  top : ∃ id, progress.tree.root = some id ∧ progress.tree.nodeFor? document.root = some id
  seated : ∀ entry ∈ entries, ∃ id node, Seated document progress.tree entry id node
  listed : ∀ id, progress.listed.targets id = seatsBelow progress.tree entries id
  occupied : progress.listed.Occupied

namespace Placed

variable {document : Document} {entries : List Exposed} {progress : Progress}

theorem known (placed : Placed document entries progress) {handle : Handle}
    (listed : handle ∈ entries.map Exposed.handle) :
    ∃ id, progress.tree.nodeFor? handle = some id := by
  obtain ⟨entry, listedEntry, rfl⟩ := List.mem_map.mp listed
  obtain ⟨id, node, seated⟩ := placed.seated entry listedEntry
  exact ⟨id, seated.known⟩

theorem closed (placed : Placed document entries progress) (bound : Bound entries) :
    progress.tree.Closed (entries.map Exposed.handle) := by
  intro parent child above node aliveParent alive linked listed
  obtain ⟨entry, listedEntry, same⟩ := List.mem_map.mp listed
  obtain ⟨id, node', seated⟩ := placed.seated entry listedEntry
  have here := placed.sound.nodeFor?_of_live alive
  rw [← same, seated.known] at here
  cases here
  rw [seated.alive] at alive
  cases alive
  have above' := seated.parent
  rw [linked] at above'
  obtain ⟨handle, named, knownParent⟩ := Option.bind_eq_some_iff.mp above'.symm
  rw [placed.sound.content_of_nodeFor? knownParent aliveParent]
  exact bound entry listedEntry named

/-- One entry more. -/
theorem snoc (placed : Placed document entries progress) (bound : Bound entries) {entry : Exposed}
    (fresh : entry.handle ∉ entries.map Exposed.handle)
    (below : ∀ {parent : Handle}, entry.parent = some parent → parent ∈ entries.map Exposed.handle)
    {content : ContentNode} (stored : document.get? entry.handle = some content) {after : Progress}
    {id : NodeId} (seating : Seating progress.tree after.tree entry.handle content.attributes
      entry.scope (entry.parent.bind progress.tree.nodeFor?) id)
    (listed : ∀ other, after.listed.targets other = progress.listed.targets other ++
      if entry.parent.bind progress.tree.nodeFor? = some other then [id] else [])
    (occupied : after.listed.Occupied) :
    Placed document (entries ++ [entry]) after := by
  have keeps {handle : Handle} (earlier : handle ∈ entries.map Exposed.handle) :
      after.tree.nodeFor? handle = progress.tree.nodeFor? handle := by
    obtain ⟨found, known⟩ := placed.known earlier
    rw [known, seating.nodeFor?_of_some placed.sound known]
  have parents {other : Exposed} (inside : ∀ {parent : Handle}, other.parent = some parent →
      parent ∈ entries.map Exposed.handle) :
      other.parent.bind after.tree.nodeFor? = other.parent.bind progress.tree.nodeFor? := by
    cases named : other.parent with
    | none => rfl
    | some parent => exact keeps (inside named)
  obtain ⟨seatedNode, aliveSeated, same, attributes, scope, linked⟩ := seating.seated
  have known : after.tree.nodeFor? entry.handle = some id := by
    rw [← same]
    exact seating.sound.nodeFor?_of_live aliveSeated
  refine ⟨seating.sound, ?_, ?_, ?_, occupied⟩
  · obtain ⟨top, atTop, knownTop⟩ := placed.top
    exact ⟨top, seating.root.trans atTop, seating.nodeFor?_of_some placed.sound knownTop⟩
  · intro other listedOther
    rcases List.mem_append.mp listedOther with earlier | last
    · obtain ⟨found, node, seated⟩ := placed.seated other earlier
      have apart : found ≠ id := by
        rintro rfl
        have content := seating.same seated.alive
        rw [placed.sound.content_of_nodeFor? seated.known seated.alive] at content
        exact fresh (content ▸ List.mem_map_of_mem earlier)
      obtain ⟨node', aliveAfter, self⟩ := seating.kept apart seated.alive
      refine ⟨found, node', seating.nodeFor?_of_some placed.sound seated.known, aliveAfter, ?_, ?_, ?_⟩
      · rw [self.attributes, seated.attributes]
      · exact fun plain => self.scope.trans (seated.scope plain)
      · rw [self.parent, seated.parent, parents (bound other earlier)]
    · cases List.mem_singleton.mp last
      refine ⟨id, seatedNode, known, aliveSeated, ?_, fun _ => scope, ?_⟩
      · rw [Document.attributesOf?, stored, Option.map_some, attributes]
      · rw [linked, parents below]
  · intro other
    rw [listed, placed.listed, seatsBelow, seatsBelow, List.filterMap_append]
    congr 1
    · refine List.filterMap_congr fun earlier listedEarlier => ?_
      rw [parents (bound earlier listedEarlier), keeps (List.mem_map_of_mem listedEarlier)]
    · rw [List.filterMap_cons, List.filterMap_nil, parents below, known]
      split
      · rfl
      · rfl

/-- An entry below one that is placed is placed under it. -/
theorem place_done (placed : Placed document entries progress) (bound : Bound entries)
    {entry : Exposed} (fresh : entry.handle ∉ entries.map Exposed.handle) {above : Handle}
    (named : entry.parent = some above) (listed : above ∈ entries.map Exposed.handle)
    (stored : document.contains entry.handle = true) :
    ∃ after, progress.place document entry = .done after () ∧
      Placed document (entries ++ [entry]) after ∧ Keeps progress.tree after.tree ∧
      Tallies [entry] progress after := by
  obtain ⟨content, storedContent⟩ := Document.exists_of_contains stored
  obtain ⟨parent, knownParent⟩ := placed.known listed
  obtain ⟨aboveNode, aliveParent, sameAbove⟩ := placed.sound.live_of_nodeFor? knownParent
  have apart {id : NodeId} (known : progress.tree.nodeFor? entry.handle = some id) :
      ¬ progress.tree.live.Leads id parent := by
    intro leads
    obtain ⟨node, alive, inside⟩ := Tree.Closed.of_leads (placed.closed bound) placed.sound leads
      aliveParent (sameAbove.symm ▸ listed)
    exact fresh (placed.sound.content_of_nodeFor? known alive ▸ inside)
  obtain ⟨seated, id, done, kept, seating, tallies⟩ :=
    seat_done progress placed.sound content entry aliveParent apart
  have link : entry.parent.bind progress.tree.nodeFor? = some parent := by
    rw [named, Option.bind_some, knownParent]
  rw [← link] at seating
  refine ⟨{ seated with listed := seated.listed.push parent id }, ?_,
    placed.snoc bound fresh (fun same => ?_) storedContent seating (fun other => ?_)
      (Edges.occupied_push (kept ▸ placed.occupied) parent id),
    ⟨seating.root, seating.nodeFor?_of_some placed.sound⟩,
    ⟨tallies.created, tallies.moved, tallies.shutDown, tallies.known, tallies.parent⟩⟩
  · simp only [Progress.place, storedContent, named, knownParent]
    rw [done, Outcome.done_andThen]
  · rw [named] at same
    cases same
    exact listed
  · rw [Edges.targets_push, kept, link]
    by_cases here : parent = other
    · rw [if_pos here, if_pos (congrArg some here)]
    · rw [if_neg here, if_neg fun same => here (Option.some.inj same), List.append_nil]

/-- All entries below placed ones are placed. -/
theorem placeAll_done {rest : List Exposed} (placed : Placed document entries progress)
    (bound : Bound entries) (nodup : ((entries ++ rest).map Exposed.handle).Nodup)
    (standing : Document.Standing (entries.map Exposed.handle) rest)
    (stored : ∀ entry ∈ rest, document.contains entry.handle = true) :
    ∃ after, progress.placeAll document rest = .done after () ∧
      Placed document (entries ++ rest) after ∧ Bound (entries ++ rest) ∧
      Keeps progress.tree after.tree ∧ Tallies rest progress after := by
  induction rest generalizing entries progress with
  | nil =>
    rw [List.append_nil]
    exact ⟨progress, rfl, placed, bound, .refl progress.tree, .refl progress⟩
  | cons entry rest ih =>
    obtain ⟨⟨above, listed, named⟩, others⟩ := standing
    have fresh : entry.handle ∉ entries.map Exposed.handle := by
      rw [List.map_append, List.map_cons] at nodup
      intro again
      exact (List.disjoint_of_nodup_append nodup) again List.mem_cons_self
    obtain ⟨middle, done, placedMiddle, keepsMiddle, talliesMiddle⟩ :=
      placed.place_done bound fresh named listed (stored entry List.mem_cons_self)
    have boundMiddle : Bound (entries ++ [entry]) := by
      intro other listedOther parent namedParent
      rw [List.map_append]
      rcases List.mem_append.mp listedOther with earlier | last
      · exact List.mem_append_left _ (bound other earlier namedParent)
      · cases List.mem_singleton.mp last
        rw [named] at namedParent
        cases namedParent
        exact List.mem_append_left _ listed
    have distinct : ((entry :: rest).map Exposed.handle).Nodup := by
      rw [List.map_append] at nodup
      exact nodup.of_append_right
    rw [List.append_cons] at nodup
    obtain ⟨after, doneAll, placedAll, boundAll, keepsAll, talliesAll⟩ := ih placedMiddle boundMiddle
      nodup (by rwa [List.map_append]) fun other listedOther =>
        stored other (List.mem_cons_of_mem _ listedOther)
    rw [List.append_cons]
    refine ⟨after, ?_, placedAll, boundAll, keepsMiddle.trans keepsAll,
      talliesMiddle.trans talliesAll keepsMiddle distinct⟩
    rw [Progress.placeAll, done, Outcome.done_andThen, doneAll]

end Placed

/-- The whole layout is placed in a tree whose root stands for the root of the document. -/
theorem placeAll_layout {document : Document} (wellFormed : document.WellFormed) {tree : Tree}
    (sound : tree.Sound) {top : NodeId} (atTop : tree.root = some top)
    (knownTop : tree.nodeFor? document.root = some top) :
    ∃ after, (Progress.start tree).placeAll document document.layout = .done after () ∧
      Placed document document.layout after ∧ Bound document.layout ∧ Keeps tree after.tree ∧
      Tallies document.layout (Progress.start tree) after := by
  obtain ⟨content, stored, -⟩ := wellFormed.root_stored
  obtain ⟨topNode, aliveTop, same⟩ := sound.live_of_nodeFor? knownTop
  have parentless := sound.forest.parentless atTop aliveTop
  obtain ⟨synced, changed, done, seating⟩ :=
    seating_sync sound aliveTop content.attributes .document
  rw [same, parentless] at seating
  let entry : Exposed := ⟨document.root, none, .document⟩
  have first : Placed document [entry] { Progress.start tree with tree := synced } := by
    have nothing : Placed document [] (Progress.start tree) :=
      ⟨sound, ⟨top, atTop, knownTop⟩, nofun, fun id => Edges.targets_empty id, Edges.occupied_empty⟩
    refine nothing.snoc nofun List.not_mem_nil (fun named => ?_) stored seating (fun other => ?_)
      nothing.occupied
    · cases named
    · rw [if_neg nofun, List.append_nil]
  have layout : document.layout = entry :: document.layout.tail := rfl
  have nodup := Document.layout_nodup wellFormed
  rw [layout] at nodup
  obtain ⟨after, doneAll, placed, bound, keeps, tallies⟩ := first.placeAll_done
    (by
      intro other listed parent named
      cases List.mem_singleton.mp listed
      cases named)
    nodup (Document.standing_layout wellFormed) fun other listed =>
      (Document.entered_layout wellFormed (List.mem_of_mem_tail listed)).stored
  rw [layout]
  have keepsFirst : Keeps tree synced := ⟨seating.root, seating.nodeFor?_of_some sound⟩
  have talliesFirst : Tallies [entry] (Progress.start tree)
      { Progress.start tree with tree := synced } := by
    refine Seating.tallies sound seating ?_ ?_ rfl
    · rw [show (Progress.start tree).tree.nodeFor? entry.handle = some top from knownTop, if_neg nofun]
      rfl
    · rw [if_neg fun both => both.2 ((Tree.parent?_of_live aliveTop).trans parentless)]
      rfl
  refine ⟨after, ?_, placed, bound, keepsFirst.trans keeps,
    talliesFirst.trans tallies keepsFirst nodup⟩
  have firstDone : (Progress.start tree).place document entry =
      .done { Progress.start tree with tree := synced } () := by
    have call : (Progress.start tree).onTree (·.sync top content.attributes .document) =
        .done { Progress.start tree with tree := synced } changed := onTree_done done
    simp only [Progress.place, stored, entry,
      show (Progress.start tree).tree.root = some top from atTop]
    rw [call, Outcome.done_andThen]
  rw [Progress.placeAll, firstDone, Outcome.done_andThen]
  exact doneAll

end Alignment

end Accessibility
