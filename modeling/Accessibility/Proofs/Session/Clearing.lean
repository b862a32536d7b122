import Accessibility.Proofs.Tree.Shutdown
import Accessibility.Session.Basic

/-!
The nodes of content that was taken over are shut down before anything else happens to the tree. They
go with all that is below them, and nothing else goes.
-/

set_option autoImplicit false

namespace Accessibility

/-- Whether the node of one of some handles is a node, or stands above it. -/
def Tree.Covers (tree : Tree) (handles : List Handle) (id : NodeId) : Prop :=
  ∃ handle ∈ handles, ∃ above, tree.nodeFor? handle = some above ∧ tree.live.Leads above id

namespace Session

/-- What is left of a tree when the nodes of some handles have gone. -/
structure Cleared (handles : List Handle) (before after : Tree) : Prop where
  sound : after.Sound
  root : ∀ {top : NodeId}, before.root = some top → ¬ before.Covers handles top →
    after.root = some top
  gone : ∀ {id : NodeId}, before.Covers handles id → after.live id = none
  kept : ∀ {id : NodeId} {node : AccessibleNode}, before.live id = some node →
    ¬ before.Covers handles id → ∃ node', after.live id = some node' ∧ node'.content = node.content
  origin : ∀ {id : NodeId} {node' : AccessibleNode}, after.live id = some node' →
    ∃ node, before.live id = some node ∧ node'.content = node.content

section Removed

variable {tree middle : Tree} {id : NodeId}

theorem nodeFor?_of_removed (sound : tree.Sound) (soundMiddle : middle.Sound)
    (removed : tree.live.Removed middle.live id) {content : Handle} {other : NodeId} :
    middle.nodeFor? content = some other ↔
      tree.nodeFor? content = some other ∧ ¬ tree.live.Leads id other := by
  rw [soundMiddle.content, sound.content]
  constructor
  · rintro ⟨node', alive', rfl⟩
    obtain ⟨apart, node, alive, rfl⟩ := (Forest.eq_some_of_removed removed).mp alive'
    exact ⟨⟨node, alive, rfl⟩, apart⟩
  · rintro ⟨⟨node, alive, rfl⟩, apart⟩
    exact ⟨node.without id, (Forest.eq_some_of_removed removed).mpr ⟨apart, node, alive, rfl⟩, rfl⟩

/-- What stands above a node that is left is left too. -/
theorem covers_of_removed (sound : tree.Sound) (soundMiddle : middle.Sound)
    (removed : tree.live.Removed middle.live id) {handles : List Handle} {other : NodeId}
    (apart : ¬ tree.live.Leads id other) :
    middle.Covers handles other ↔ tree.Covers handles other := by
  refine exists_congr fun handle => and_congr_right fun _ => exists_congr fun above => ?_
  rw [nodeFor?_of_removed sound soundMiddle removed, Forest.leads_iff_of_removed removed apart,
    and_assoc]
  refine and_congr_right fun _ => and_iff_right_of_imp fun leads => ?_
  exact fun leads' => apart (leads'.trans leads)

end Removed

namespace Cleared

variable {tree middle after : Tree} {handle : Handle} {rest : List Handle}

theorem refl (sound : tree.Sound) : Cleared [] tree tree where
  sound := sound
  root := fun atTop _ => atTop
  gone := by
    rintro id ⟨handle, listed, -⟩
    cases listed
  kept := fun alive _ => ⟨_, alive, rfl⟩
  origin := fun alive => ⟨_, alive, rfl⟩

/-- A handle without a node changes nothing. -/
theorem cons_of_none (unknown : tree.nodeFor? handle = none) (cleared : Cleared rest tree after) :
    Cleared (handle :: rest) tree after := by
  have covers {id : NodeId} : tree.Covers (handle :: rest) id ↔ tree.Covers rest id := by
    simp only [Tree.Covers, List.exists_mem_cons_iff, unknown, reduceCtorEq, false_and, exists_false,
      false_or]
  exact ⟨cleared.sound, fun atTop apart => cleared.root atTop fun below => apart (covers.mpr below),
    fun below => cleared.gone (covers.mp below),
    fun alive apart => cleared.kept alive fun below => apart (covers.mpr below), cleared.origin⟩

/-- The first node goes, and then those of the other handles. -/
theorem cons_of_removed (sound : tree.Sound) (soundMiddle : middle.Sound) {id : NodeId}
    (known : tree.nodeFor? handle = some id) (removed : tree.live.Removed middle.live id)
    (root : tree.root ≠ some id → middle.root = tree.root) (cleared : Cleared rest middle after) :
    Cleared (handle :: rest) tree after := by
  have covers {other : NodeId} : tree.Covers (handle :: rest) other ↔
      tree.live.Leads id other ∨ tree.Covers rest other := by
    simp only [Tree.Covers, List.exists_mem_cons_iff, known, Option.some.injEq, exists_eq_left']
  have origin {other : NodeId} {node' : AccessibleNode} (alive : middle.live other = some node') :
      ∃ node, tree.live other = some node ∧ node'.content = node.content := by
    obtain ⟨-, node, aliveBefore, rfl⟩ := (Forest.eq_some_of_removed removed).mp alive
    exact ⟨node, aliveBefore, rfl⟩
  refine ⟨cleared.sound, ?_, ?_, ?_, ?_⟩
  · intro top atTop apart
    rw [covers, not_or] at apart
    have differ : tree.root ≠ some id := by
      rw [atTop]
      rintro ⟨⟩
      exact apart.1 (.refl _ _)
    refine cleared.root ((root differ).trans atTop) ?_
    rw [covers_of_removed sound soundMiddle removed apart.1]
    exact apart.2
  · intro other below
    cases alive : after.live other with
    | none => rfl
    | some node' =>
      obtain ⟨between, aliveBetween, -⟩ := cleared.origin alive
      obtain ⟨apart, -⟩ := (Forest.eq_some_of_removed removed).mp aliveBetween
      have later := (covers.mp below).resolve_left apart
      rw [← covers_of_removed sound soundMiddle removed apart] at later
      rw [cleared.gone later] at alive
      cases alive
  · intro other node alive apart
    rw [covers, not_or] at apart
    have aliveBetween : middle.live other = some (node.without id) :=
      (Forest.eq_some_of_removed removed).mpr ⟨apart.1, node, alive, rfl⟩
    obtain ⟨node', alive', same⟩ := cleared.kept aliveBetween
      (by rw [covers_of_removed sound soundMiddle removed apart.1]; exact apart.2)
    exact ⟨node', alive', same⟩
  · intro other node' alive
    obtain ⟨between, aliveBetween, same⟩ := cleared.origin alive
    obtain ⟨node, aliveBefore, same'⟩ := origin aliveBetween
    exact ⟨node, aliveBefore, same.trans same'⟩

end Cleared

/-- Whatever stood at or below the nodes of some handles is gone, and all else is left. -/
theorem dismissAll_done {tree : Tree} (sound : tree.Sound) (handles : List Handle) :
    Cleared handles tree (handles.foldl dismissNodeOf tree) := by
  induction handles generalizing tree with
  | nil => exact .refl sound
  | cons handle rest ih =>
    rw [List.foldl_cons]
    cases known : tree.nodeFor? handle with
    | none =>
      have idle : dismissNodeOf tree handle = tree := by rw [dismissNodeOf, known]
      rw [idle]
      exact (ih sound).cons_of_none known
    | some id =>
      obtain ⟨node, alive, -⟩ := sound.live_of_nodeFor? known
      obtain ⟨middle, done, soundMiddle, root, removed⟩ := sound.beginShutdown alive
      have dismissed : dismissNodeOf tree handle = middle := by
        rw [dismissNodeOf, known]
        dsimp only
        rw [done]
        rfl
      rw [dismissed]
      exact .cons_of_removed sound soundMiddle known removed (fun differ => root.trans (if_neg differ))
        (ih soundMiddle)

/-- The topmost node goes only if its own content was taken over. -/
theorem not_covers_root {tree : Tree} (sound : tree.Sound) {top : NodeId} {root : Handle}
    (atTop : tree.root = some top) (known : tree.nodeFor? root = some top) {handles : List Handle}
    (below : root ∉ handles) : ¬ tree.Covers handles top := by
  rintro ⟨handle, listed, above, knownAbove, leads⟩
  obtain ⟨node, alive, -⟩ := sound.live_of_nodeFor? knownAbove
  cases sound.forest.leads_antisymm alive leads (sound.forest.leads_of_top atTop alive)
  exact below (sound.eq_of_nodeFor? known knownAbove ▸ listed)

end Session

end Accessibility
