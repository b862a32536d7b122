import Accessibility.Proofs.Document.Nesting
import Accessibility.Proofs.Session.Rebuilding
import Accessibility.Proofs.Tree.Pending

/-!
What an alignment reaches from any sound tree whose root stands for the root of the document: the
layout itself, in tree order, with counts that tell exactly what became of each node. Another
alignment finds nothing to do.
-/

set_option autoImplicit false

namespace Accessibility.Alignment

variable {document : Document} {tree : Tree}

/-! ### Tree order -/

/-- The children of a node are the nodes of the entries under its content. -/
theorem seatsBelow_eq_filterMap (sound : tree.Sound) {handle : Handle} {id : NodeId}
    (known : tree.nodeFor? handle = some id) (entries : List Exposed) :
    seatsBelow tree entries id = (Document.entriesUnder entries handle).filterMap tree.nodeFor? := by
  rw [seatsBelow, Document.entriesUnder, List.filterMap_map, List.filterMap_filter]
  refine List.filterMap_congr fun entry _ => ?_
  have same : entry.parent.bind tree.nodeFor? = some id ↔ entry.parent = some handle := by
    constructor
    · intro named
      obtain ⟨parent, linked, knownParent⟩ := Option.bind_eq_some_iff.mp named
      rw [linked, sound.eq_of_nodeFor? knownParent known]
    · intro linked
      rw [linked, Option.bind_some, known]
  by_cases here : entry.parent = some handle
  · rw [if_pos (same.mpr here), if_pos (decide_eq_true here)]
    rfl
  · rw [if_neg fun named => here (same.mp named), if_neg (by simpa using here)]

/-- The content of the nodes in tree order is the layout. -/
theorem Aligned.map_preorder (aligned : Aligned document tree) (sound : tree.Sound)
    (wellFormed : document.WellFormed) :
    tree.preorder.map (fun id => (tree.get? id).map AccessibleNode.content) =
      document.layout.map fun entry => some entry.handle := by
  let contentAt (id : NodeId) : Option Handle := (tree.get? id).map AccessibleNode.content
  let walk (handle : Handle) : List (Option Handle) :=
    (tree.nodeFor? handle).toList.flatMap fun id => (tree.below id).map contentAt
  have walked : walk document.root = document.layout.map fun entry => some entry.handle := by
    refine Document.walk_layout wellFormed fun entry listed => ?_
    obtain ⟨id, node, seated, children⟩ := aligned.seated entry listed
    have content : contentAt id = some entry.handle := by
      show (tree.get? id).map AccessibleNode.content = some entry.handle
      rw [Tree.get?_of_live seated.alive, Option.map_some,
        sound.content_of_nodeFor? seated.known seated.alive]
    show (tree.nodeFor? entry.handle).toList.flatMap (fun id => (tree.below id).map contentAt) = _
    rw [seated.known, Option.toList_some, List.flatMap_singleton, sound.below_cons seated.alive,
      List.map_cons, content, children, seatsBelow_eq_filterMap sound seated.known,
      List.filterMap_eq_flatMap_toList, List.flatMap_assoc, List.map_flatMap]
    refine congrArg (some entry.handle :: ·) (List.flatMap_congr fun handle _ => ?_)
    exact List.map_flatMap ..
  obtain ⟨top, atTop, knownTop⟩ := aligned.top
  rw [← walked]
  show _ = (tree.nodeFor? document.root).toList.flatMap fun id => (tree.below id).map contentAt
  rw [knownTop, Option.toList_some, List.flatMap_singleton, Tree.preorder, atTop]

/-! ### Counts -/

section Counts

variable {placed dismissed arranged : Progress}

/-- Placing leaves the nodes of content that is not exposed as they are. -/
theorem unexposed_placed (sound : tree.Sound)
    (stages : Stages document tree placed dismissed arranged) :
    (unexposed (document.layout.map Exposed.handle) placed.tree).length =
      (unexposed (document.layout.map Exposed.handle) tree).length := by
  have same {handle : Handle} (outside : handle ∉ document.layout.map Exposed.handle) :
      placed.tree.nodeFor? handle = tree.nodeFor? handle :=
    stages.tallies.known outside
  refine List.Perm.length_eq ((List.perm_ext_iff_of_nodup (unexposed_nodup stages.seats.sound)
    (unexposed_nodup sound)).mpr fun id => ?_)
  rw [mem_unexposed stages.seats.sound, mem_unexposed sound]
  constructor
  · rintro ⟨node, alive, outside⟩
    have known := stages.seats.sound.nodeFor?_of_live alive
    rw [same outside] at known
    obtain ⟨old, aliveOld, content⟩ := sound.live_of_nodeFor? known
    exact ⟨old, aliveOld, content ▸ outside⟩
  · rintro ⟨old, aliveOld, outside⟩
    have known := sound.nodeFor?_of_live aliveOld
    rw [← same outside] at known
    obtain ⟨node, alive, content⟩ := stages.seats.sound.live_of_nodeFor? known
    exact ⟨node, alive, content ▸ outside⟩

/-- Every node that was live and is not exposed is shut down, and counted once. -/
theorem Stages.counts_shutDown (stages : Stages document tree placed dismissed arranged)
    (sound : tree.Sound) :
    arranged.counts.shutDown = (unexposed (document.layout.map Exposed.handle) tree).length := by
  have nothing : unexposed (document.layout.map Exposed.handle) dismissed.tree = [] := by
    refine List.eq_nil_iff_forall_not_mem.mpr fun id left => ?_
    obtain ⟨node, alive, outside⟩ := (mem_unexposed stages.pruned.sound).mp left
    exact outside (stages.only alive)
  have balance := stages.dismissals.shutDown
  rw [nothing, List.length_nil, unexposed_placed sound stages, stages.tallies.shutDown] at balance
  rw [stages.counts]
  exact balance.trans (Nat.zero_add _)

theorem Stages.counts_created (stages : Stages document tree placed dismissed arranged) :
    arranged.counts.created =
      document.layout.countP fun entry => (tree.nodeFor? entry.handle).isNone := by
  rw [stages.counts, stages.dismissals.created, stages.tallies.created]
  exact Nat.zero_add _

/-- The last two passes leave the nodes of exposed content under the parents that they were given. -/
theorem Stages.parent?_eq (stages : Stages document tree placed dismissed arranged) {handle : Handle}
    {id : NodeId} (inside : handle ∈ document.layout.map Exposed.handle)
    (known : placed.tree.nodeFor? handle = some id) :
    arranged.tree.parent? id = placed.tree.parent? id := by
  obtain ⟨node, alive, rfl⟩ := stages.seats.sound.live_of_nodeFor? known
  obtain ⟨kept, aliveKept, self⟩ := stages.pruned.kept alive inside
  obtain ⟨last, aliveLast, self', -⟩ := stages.reordered.kept aliveKept
  rw [Tree.parent?_of_live aliveLast, Tree.parent?_of_live alive, (self.trans self').parent]

theorem Stages.counts_moved (stages : Stages document tree placed dismissed arranged) :
    arranged.counts.moved = document.layout.countP fun entry =>
      (tree.nodeFor? entry.handle).any fun id => arranged.tree.parent? id != tree.parent? id := by
  rw [stages.counts, stages.dismissals.moved, stages.tallies.moved]
  refine (Nat.zero_add _).trans (List.countP_congr fun entry listed => ?_)
  cases known : tree.nodeFor? entry.handle with
  | none => rw [show (Progress.start tree).tree.nodeFor? entry.handle = none from known]; rfl
  | some id =>
    rw [show (Progress.start tree).tree.nodeFor? entry.handle = some id from known,
      Option.any_some, Option.any_some,
      stages.parent?_eq (List.mem_map_of_mem listed) (stages.keeps.known known)]
    rfl

end Counts

/-! ### A tree that is aligned already -/

section Idle

variable {progress : Progress}

variable (aligned : Aligned document progress.tree) (sound : progress.tree.Sound)
  (plain : document.isShadowRoot document.root = false)
include aligned sound plain

/-- The node of an entry is where it belongs, and is not counted. -/
theorem place_idle {entry : Exposed} (listed : entry ∈ document.layout) :
    ∃ after, progress.place document entry = .done after () ∧ after.tree = progress.tree ∧
      after.counts = progress.counts := by
  obtain ⟨id, node, seated, -⟩ := aligned.seated entry listed
  obtain ⟨content, stored, attributes⟩ := Option.map_eq_some_iff.mp seated.attributes
  have synced : progress.onTree (·.sync id content.attributes entry.scope) = .done progress false := by
    rw [attributes, ← seated.scope plain]
    exact onTree_done (Tree.sync_eq_idle (Tree.get?_of_live seated.alive))
  cases named : entry.parent with
  | none =>
    have linked := seated.parent
    rw [named, Option.bind_none] at linked
    have atTop := sound.forest.root_of_parentless seated.alive linked
    refine ⟨progress, ?_, rfl, rfl⟩
    simp only [Progress.place, stored, named, atTop]
    rw [synced, Outcome.done_andThen]
  | some above =>
    cases knownParent : progress.tree.nodeFor? above with
    | none =>
      refine ⟨progress, ?_, rfl, rfl⟩
      simp only [Progress.place, stored, named, knownParent]
    | some parent =>
      have linked := seated.parent
      rw [named, Option.bind_some, knownParent] at linked
      refine ⟨{ progress with listed := progress.listed.push parent id }, ?_, rfl, rfl⟩
      simp only [Progress.place, stored, named, knownParent, Progress.seat, seated.known,
        (Tree.parent?_of_live seated.alive).trans linked, if_true]
      rw [Outcome.done_andThen, synced]
      rfl

theorem placeAll_idle {entries : List Exposed} (listed : entries ⊆ document.layout) :
    ∃ after, progress.placeAll document entries = .done after () ∧ after.tree = progress.tree ∧
      after.counts = progress.counts := by
  induction entries generalizing progress with
  | nil => exact ⟨progress, rfl, rfl, rfl⟩
  | cons entry rest ih =>
    obtain ⟨middle, done, sameTree, sameCounts⟩ :=
      place_idle aligned sound plain (listed List.mem_cons_self)
    obtain ⟨after, doneAll, sameTree', sameCounts'⟩ := ih (sameTree.symm ▸ aligned)
      (sameTree.symm ▸ sound) fun other later => listed (List.mem_cons_of_mem _ later)
    refine ⟨after, ?_, sameTree'.trans sameTree, sameCounts'.trans sameCounts⟩
    rw [Progress.placeAll, done, Outcome.done_andThen, doneAll]

omit sound plain in
theorem dismissAll_idle (ids : List NodeId) :
    progress.dismissAll (document.layout.map Exposed.handle) ids = .done progress () := by
  induction ids with
  | nil => rfl
  | cons id rest ih =>
    have idle : progress.dismiss (document.layout.map Exposed.handle) id = .done progress () := by
      rw [Progress.dismiss]
      cases stored : progress.tree.get? id with
      | none => rfl
      | some node =>
        have kept : (node.alive && !(document.layout.map Exposed.handle).contains node.content) =
            false := by
          cases alive : node.alive with
          | false => rfl
          | true => simpa using aligned.only (Tree.live_eq_some.mpr ⟨stored, alive⟩)
        simp only [kept, Bool.false_eq_true, if_false]
    rw [Progress.dismissAll, idle, Outcome.done_andThen, ih]

omit aligned sound plain in
theorem arrangeAll_idle {orders : List (NodeId × List NodeId)}
    (same : ∀ entry ∈ orders, ∃ node, progress.tree.live entry.1 = some node ∧
      node.children = entry.2) : progress.arrangeAll orders = .done progress () := by
  induction orders with
  | nil => rfl
  | cons entry rest ih =>
    obtain ⟨node, alive, children⟩ := same entry List.mem_cons_self
    have idle : progress.onTree (·.arrange entry.1 entry.2) = .done progress false := by
      rw [← children]
      exact onTree_done (Tree.arrange_eq_idle (Tree.get?_of_live alive))
    rw [Progress.arrangeAll, idle, Outcome.done_andThen,
      ih fun other later => same other (List.mem_cons_of_mem _ later)]

end Idle

/-- Another alignment with the same document changes nothing. -/
theorem Aligned.run_idle (aligned : Aligned document tree) (sound : tree.Sound)
    (wellFormed : document.WellFormed) (plain : document.isShadowRoot document.root = false) :
    Alignment.run document tree = .done tree ⟨0, 0, 0⟩ := by
  obtain ⟨top, atTop, knownTop⟩ := aligned.top
  obtain ⟨placed, dismissed, arranged, stages⟩ := exists_stages wellFormed sound atTop knownTop
  obtain ⟨placed', placing, sameTree, sameCounts⟩ :=
    @placeAll_idle document (Progress.start tree) aligned sound plain document.layout
      (List.Subset.refl _)
  obtain rfl : placed = placed' := congrArg Outcome.state (stages.placing.symm.trans placing)
  replace sameTree : placed.tree = tree := sameTree
  have dismissing := @dismissAll_idle document placed (sameTree.symm ▸ aligned) placed.tree.preorder
  obtain rfl : dismissed = placed :=
    congrArg Outcome.state (stages.dismissing.symm.trans dismissing)
  have arranging : dismissed.arrangeAll dismissed.listed.toList = .done dismissed () := by
    refine arrangeAll_idle fun entry entered => ?_
    obtain ⟨some, order⟩ := mem_orders stages.seats entered
    obtain ⟨child, member⟩ := List.exists_mem_of_ne_nil _ (order ▸ some)
    obtain ⟨inner, -, named, -⟩ := mem_seatsBelow.mp member
    obtain ⟨above, -, knownAbove⟩ := Option.bind_eq_some_iff.mp named
    obtain ⟨node, alive, -⟩ := stages.seats.sound.live_of_nodeFor? knownAbove
    rw [sameTree] at alive order ⊢
    obtain ⟨-, -, -, -, children⟩ := aligned.entry sound alive
    exact ⟨node, alive, children.trans order.symm⟩
  obtain rfl : arranged = dismissed :=
    congrArg Outcome.state (stages.arranging.symm.trans arranging)
  rw [stages.run_eq, sameTree, sameCounts]
  rfl

/-! ### The whole alignment -/

/-- The live nodes tell the layout in tree order, each below the node of its parent and with the data
of its content, and the counts tell what became of the content and of the nodes. -/
structure Exact (document : Document) (before after : Tree) (counts : Alignment) : Prop where
  order : after.preorder.map (fun id => (after.get? id).map AccessibleNode.content) =
    document.layout.map fun entry => some entry.handle
  mirrored : ∀ {id : NodeId} {node : AccessibleNode}, after.live id = some node →
    ∃ entry ∈ document.layout, entry.handle = node.content ∧
      (node.parent.bind after.live).map AccessibleNode.content = entry.parent ∧
      document.attributesOf? node.content = some node.attributes ∧
      node.scope = document.scopeOf node.content
  created : counts.created =
    document.layout.countP fun entry => (before.nodeFor? entry.handle).isNone
  moved : counts.moved = document.layout.countP fun entry =>
    (before.nodeFor? entry.handle).any fun id => after.parent? id != before.parent? id
  shutDown : counts.shutDown = before.preorder.countP fun id => (before.get? id).any fun node =>
    !(document.layout.map Exposed.handle).contains node.content

/-- The last pass gives each node an order of the children that it has when its turn comes. -/
def Permutes (document : Document) (before : Tree) : Prop :=
  ∃ placed dismissed, (Progress.start before).placeAll document document.layout = .done placed () ∧
    placed.dismissAll (document.layout.map Exposed.handle) placed.tree.preorder =
      .done dismissed () ∧
    ∀ {earlier later : List (NodeId × List NodeId)} {parent : NodeId} {order : List NodeId},
      dismissed.listed.toList = earlier ++ (parent, order) :: later →
      ∃ arranged, dismissed.arrangeAll earlier = .done arranged () ∧
        arranged.tree.isAlive parent = true ∧ order.Perm (arranged.tree.children parent)

theorem Stages.permutes {placed dismissed arranged : Progress}
    (stages : Stages document tree placed dismissed arranged) (wellFormed : document.WellFormed) :
    Permutes document tree := by
  refine ⟨placed, dismissed, stages.placing, stages.dismissing, ?_⟩
  intro earlier later parent order split
  have fits := orders_fit stages.seats stages.bound (Document.layout_nodup wellFormed)
    stages.pruned stages.only
  rw [← stages.dismissals.listed, split] at fits
  have distinct := orders_distinct dismissed
  rw [split] at distinct
  exact arrange_permutes stages.pruned.sound distinct fits

/-- A live node of an aligned tree has the place and the data of its content. -/
theorem Aligned.mirrored (aligned : Aligned document tree) (sound : tree.Sound)
    (wellFormed : document.WellFormed) (plain : document.isShadowRoot document.root = false)
    {id : NodeId} {node : AccessibleNode} (alive : tree.live id = some node) :
    ∃ entry ∈ document.layout, entry.handle = node.content ∧
      (node.parent.bind tree.live).map AccessibleNode.content = entry.parent ∧
      document.attributesOf? node.content = some node.attributes ∧
      node.scope = document.scopeOf node.content := by
  obtain ⟨entry, listed, content, seated, -⟩ := aligned.entry sound alive
  refine ⟨entry, listed, content, ?_, ?_, ?_⟩
  · cases named : entry.parent with
    | none => rw [seated.parent, named, Option.bind_none, Option.bind_none, Option.map_none]
    | some above =>
      obtain ⟨parent, knownParent⟩ : ∃ parent, tree.nodeFor? above = some parent :=
        (aligned.known_iff sound above).mpr (Document.parent_mem_layout wellFormed listed named)
      obtain ⟨parentNode, aliveParent, same⟩ := sound.live_of_nodeFor? knownParent
      rw [seated.parent, named, Option.bind_some, knownParent, Option.bind_some, aliveParent,
        Option.map_some, same]
  · exact aligned.attributes sound alive
  · exact aligned.scope sound wellFormed plain alive

/-- From any sound tree whose root stands for the root of the document, whatever else its live nodes
stand for and however they are arranged, an alignment succeeds and is exact, and another one with the
same document has nothing to do. -/
theorem run_exact (wellFormed : document.WellFormed)
    (kind : document.kind? document.root = some .document) {before : Tree} (sound : before.Sound)
    {top : NodeId} (atTop : before.root = some top)
    (knownTop : before.nodeFor? document.root = some top) :
    ∃ after counts, Alignment.run document before = .done after counts ∧ after.Sound ∧
      Exact document before after counts ∧ Permutes document before ∧
      Alignment.run document after = .done after ⟨0, 0, 0⟩ := by
  have plain : document.isShadowRoot document.root = false := by
    rw [Document.isShadowRoot, kind]
    rfl
  obtain ⟨placed, dismissed, arranged, stages⟩ := exists_stages wellFormed sound atTop knownTop
  have soundAfter := stages.reordered.sound
  have aligned := stages.aligned wellFormed
  refine ⟨arranged.tree, arranged.counts, stages.run_eq, soundAfter, ?_, stages.permutes wellFormed,
    aligned.run_idle soundAfter wellFormed plain⟩
  refine ⟨aligned.map_preorder soundAfter wellFormed,
    aligned.mirrored soundAfter wellFormed plain, stages.counts_created, stages.counts_moved, ?_⟩
  rw [stages.counts_shutDown sound, unexposed, List.countP_eq_length_filter]

/-- The paragraph is around the `div` now, and a text is new. -/
def swappedPage : Subtree :=
  { Subtree.single ⟨0⟩ .document with
    children := [{ Subtree.single ⟨3⟩ (.element "p") with
      children := [.single ⟨1⟩ (.element "div")] }, .single ⟨4⟩ .text] }

/-- The `div` was around the paragraph, there was a list of one item beside it, and another node is
pending. -/
def swappedCalls : List Tree.Call :=
  let seed (tag : String) : Seed := ⟨.element tag, ∅, .document⟩
  [.createRoot ⟨0⟩ ⟨.document, ∅, .document⟩, .create ⟨1⟩ ⟨1, 1⟩ 0 (seed "div"),
    .create ⟨3⟩ ⟨2, 1⟩ 0 (seed "p"), .create ⟨2⟩ ⟨1, 1⟩ 1 (seed "ul"),
    .create ⟨5⟩ ⟨4, 1⟩ 0 (seed "li"), .create ⟨6⟩ ⟨1, 1⟩ 0 (seed "hr"), .beginShutdown ⟨6, 1⟩]

theorem run_exact_swappedPage :
    ∃ before after : Tree, before.Reachable ∧ before.lifecycle ⟨6, 1⟩ = .pendingShutdown ∧
      Alignment.run (Document.ofSubtree swappedPage) before = .done after ⟨1, 2, 2⟩ ∧
      after.Sound ∧ Exact (Document.ofSubtree swappedPage) before after ⟨1, 2, 2⟩ ∧
      Permutes (Document.ofSubtree swappedPage) before ∧
      Alignment.run (Document.ofSubtree swappedPage) after = .done after ⟨0, 0, 0⟩ := by
  let before : Tree := swappedCalls.foldl (fun tree call => (call.run tree).1) .empty
  have reachable : before.Reachable := by
    iterate 7 refine .call ?_ _ trivial
    exact .empty
  have distinct : swappedPage.Distinct := by decide
  obtain ⟨after, counts, done, sound, exact, permutes, again⟩ :=
    run_exact (Document.wellFormed_ofSubtree distinct) (by decide +kernel)
      reachable.intact.toSound (show before.root = some ⟨1, 1⟩ by decide +kernel)
      (by decide +kernel)
  have told : (Alignment.run (Document.ofSubtree swappedPage) before).answer = .ok ⟨1, 2, 2⟩ := by
    decide +kernel
  rw [done] at told
  cases told
  exact ⟨before, after, reachable, by decide +kernel, done, sound, exact, permutes, again⟩

end Accessibility.Alignment
