import Accessibility.Document.Scoping
import Accessibility.Proofs.Document.Insertion

/-!
Documents that have the same nodes with the same links, and may differ in the data of their nodes.
Removing and inserting asks for links only, so it treats such documents in the same way.
-/

set_option autoImplicit false

namespace Accessibility

open Std

/-- What a document asks of a node before it is moved: all but its data. -/
structure ContentNode.SameLinks (left right : ContentNode) : Prop where
  kind : left.kind = right.kind
  parent : left.parent = right.parent
  children : left.children = right.children

namespace ContentNode.SameLinks

variable {left middle right : ContentNode}

theorem refl (node : ContentNode) : node.SameLinks node :=
  ⟨rfl, rfl, rfl⟩

theorem symm (links : left.SameLinks right) : right.SameLinks left :=
  ⟨links.kind.symm, links.parent.symm, links.children.symm⟩

theorem trans (first : left.SameLinks middle) (second : middle.SameLinks right) :
    left.SameLinks right :=
  ⟨first.kind.trans second.kind, first.parent.trans second.parent,
    first.children.trans second.children⟩

end ContentNode.SameLinks

/-- What the links of a node leave open. -/
structure ContentNode.SameData (left right : ContentNode) : Prop where
  attributes : left.attributes = right.attributes
  showing : left.popoverShowing = right.popoverShowing
  target : left.popoverTarget = right.popoverTarget

theorem ContentNode.SameLinks.eq {left right : ContentNode} (links : left.SameLinks right)
    (data : left.SameData right) : left = right := by
  cases left
  cases right
  simp only [mk.injEq]
  exact ⟨links.kind, data.attributes, data.showing, data.target, links.parent, links.children⟩

namespace Document

theorem update_of_contains {document : Document} {handle : Handle}
    (stored : document.contains handle = true) (change : ContentNode → ContentNode) :
    (document.update handle change).state = document.modify handle change := by
  rw [update, if_pos stored]
  rfl

theorem update_of_not_contains {document : Document} {handle : Handle}
    (absent : document.contains handle = false) (change : ContentNode → ContentNode) :
    (document.update handle change).state = document := by
  rw [update, if_neg (by simp [absent])]
  rfl

theorem root_update (document : Document) (handle : Handle)
    (change : ContentNode → ContentNode) :
    (document.update handle change).state.root = document.root := by
  rw [update]
  split <;> rfl

theorem get?_update (document : Document) (handle other : Handle)
    (change : ContentNode → ContentNode) :
    (document.update handle change).state.get? other =
      if handle = other then (document.get? handle).map change else document.get? other := by
  by_cases absent : document.contains handle = false
  · rw [update_of_not_contains absent]
    split
    · rename_i same
      rw [← same, get?_eq_none_of_not_contains absent, Option.map_none]
    · rfl
  · rw [update_of_contains (by simpa using absent), get?_modify]

theorem update_id (document : Document) (handle : Handle) :
    (document.update handle id).state = document := by
  refine ext_get? (root_update document handle id) fun other => ?_
  rw [get?_update, Option.map_id]
  split
  · rename_i same
    rw [same]
    rfl
  · rfl

/-- The same nodes with the same links, their data related handle by handle. -/
structure Alike (same : Handle → ContentNode → ContentNode → Prop) (left right : Document) :
    Prop where
  root : left.root = right.root
  nodes : ∀ handle, Option.Rel (fun before after => before.SameLinks after ∧ same handle before after)
    (left.get? handle) (right.get? handle)

namespace Alike

variable {same : Handle → ContentNode → ContentNode → Prop} {left right : Document}

theorem refl (reflexive : ∀ handle node, same handle node node) (document : Document) :
    Alike same document document := by
  refine ⟨rfl, fun handle => ?_⟩
  cases document.get? handle with
  | none => exact .none
  | some node => exact .some ⟨.refl node, reflexive handle node⟩

theorem none_iff (alike : Alike same left right) (handle : Handle) :
    left.get? handle = none ↔ right.get? handle = none := by
  have related := alike.nodes handle
  cases storedLeft : left.get? handle <;> cases storedRight : right.get? handle <;>
    simp_all

/-- A stored node has its counterpart. -/
theorem exists_right (alike : Alike same left right) {handle : Handle} {node : ContentNode}
    (stored : left.get? handle = some node) :
    ∃ other, right.get? handle = some other ∧ node.SameLinks other ∧ same handle node other := by
  have related := alike.nodes handle
  rw [stored] at related
  cases storedRight : right.get? handle with
  | none =>
    rw [storedRight] at related
    cases related
  | some other =>
    rw [storedRight, Option.rel_some_some] at related
    exact ⟨other, rfl, related⟩

theorem exists_left (alike : Alike same left right) {handle : Handle} {node : ContentNode}
    (stored : right.get? handle = some node) :
    ∃ other, left.get? handle = some other ∧ other.SameLinks node ∧ same handle other node := by
  have related := alike.nodes handle
  rw [stored] at related
  cases storedLeft : left.get? handle with
  | none =>
    rw [storedLeft] at related
    cases related
  | some other =>
    rw [storedLeft, Option.rel_some_some] at related
    exact ⟨other, rfl, related⟩

/-- The relation between the data may change where the nodes allow it. -/
theorem imp {finer : Handle → ContentNode → ContentNode → Prop} (alike : Alike same left right)
    (implies : ∀ handle before after, left.get? handle = some before →
      right.get? handle = some after → same handle before after → finer handle before after) :
    Alike finer left right := by
  refine ⟨alike.root, fun handle => ?_⟩
  cases stored : left.get? handle with
  | none =>
    rw [(alike.none_iff handle).mp stored]
    exact .none
  | some node =>
    obtain ⟨other, storedRight, links, data⟩ := alike.exists_right stored
    rw [storedRight]
    exact .some ⟨links, implies handle node other stored storedRight data⟩

/-- Documents that also agree in all data are equal. -/
theorem eq (alike : Alike same left right)
    (data : ∀ handle before after, same handle before after → before.SameData after) :
    left = right := by
  refine ext_get? alike.root fun handle => ?_
  cases stored : left.get? handle with
  | none => rw [(alike.none_iff handle).mp stored]
  | some node =>
    obtain ⟨other, storedRight, links, related⟩ := alike.exists_right stored
    rw [storedRight, links.eq (data handle node other related)]

theorem contains_eq (alike : Alike same left right) (handle : Handle) :
    left.contains handle = right.contains handle := by
  have none := alike.none_iff handle
  rw [contains_eq_isSome_get?, contains_eq_isSome_get?]
  cases storedLeft : left.get? handle <;> cases storedRight : right.get? handle <;> simp_all

theorem map_eq {α : Type} (alike : Alike same left right) (handle : Handle)
    (read : ContentNode → α)
    (agrees : ∀ before after, before.SameLinks after → same handle before after →
      read before = read after) :
    (left.get? handle).map read = (right.get? handle).map read := by
  cases stored : left.get? handle with
  | none => rw [(alike.none_iff handle).mp stored]
  | some node =>
    obtain ⟨other, storedRight, links, data⟩ := alike.exists_right stored
    rw [storedRight, Option.map_some, Option.map_some, agrees node other links data]

theorem childrenOf?_eq (alike : Alike same left right) :
    left.childrenOf? = right.childrenOf? := by
  funext handle
  exact alike.map_eq handle _ fun _ _ links _ => links.children

theorem parentOf?_eq (alike : Alike same left right) (handle : Handle) :
    left.parentOf? handle = right.parentOf? handle := by
  cases stored : left.get? handle with
  | none => rw [parentOf?, parentOf?, stored, (alike.none_iff handle).mp stored]
  | some node =>
    obtain ⟨other, storedRight, links, -⟩ := alike.exists_right stored
    rw [parentOf?_of_get? stored, parentOf?_of_get? storedRight, links.parent]

theorem kind?_eq (alike : Alike same left right) (handle : Handle) :
    left.kind? handle = right.kind? handle :=
  alike.map_eq handle _ fun _ _ links _ => links.kind

theorem isShadowRoot_eq (alike : Alike same left right) :
    left.isShadowRoot = right.isShadowRoot := by
  funext handle
  rw [isShadowRoot, isShadowRoot, alike.kind?_eq]

theorem size_eq (alike : Alike same left right) : left.size = right.size := by
  have keys : left.nodes.keys.Perm right.nodes.keys := by
    rw [List.perm_ext_iff_of_nodup ExtTreeMap.nodup_keys ExtTreeMap.nodup_keys]
    intro handle
    rw [mem_keys_iff_contains, mem_keys_iff_contains, alike.contains_eq]
  rw [size, size, ← ExtTreeMap.length_keys, ← ExtTreeMap.length_keys]
  exact keys.length_eq

theorem below_eq (alike : Alike same left right) : left.below = right.below := by
  funext handle
  rw [below, below, descend_eq_walk, descend_eq_walk, alike.size_eq, alike.childrenOf?_eq]

theorem leads_iff (alike : Alike same left right) (upper lower : Handle) :
    left.Leads upper lower ↔ right.Leads upper lower := by
  rw [Leads, Leads, alike.childrenOf?_eq]

theorem ascend_eq (alike : Alike same left right) (height : Nat) (handle : Option Handle) :
    left.ascend height handle = right.ascend height handle := by
  induction height generalizing handle with
  | zero => rfl
  | succ height ih =>
    cases handle with
    | none => rfl
    | some handle =>
      cases stored : left.get? handle with
      | none => simp only [ascend, stored, (alike.none_iff handle).mp stored]
      | some node =>
        obtain ⟨other, storedRight, links, -⟩ := alike.exists_right stored
        simp only [ascend, stored, storedRight, ih, links.parent]

theorem scopeOf_eq (alike : Alike same left right) : left.scopeOf = right.scopeOf := by
  funext handle
  rw [scopeOf, scopeOf, lineage, lineage, alike.size_eq, alike.ascend_eq, alike.isShadowRoot_eq]

theorem enclosingScope?_eq (alike : Alike same left right) :
    left.enclosingScope? = right.enclosingScope? := by
  funext scope
  cases scope with
  | document => rfl
  | shadow root =>
    have parents := alike.parentOf?_eq root
    rw [parentOf?, parentOf?] at parents
    simp only [enclosingScope?, parents, alike.scopeOf_eq]

theorem encloses_eq (alike : Alike same left right) (outer inner : Scope) :
    left.encloses outer inner = right.encloses outer inner := by
  have scopes : ∀ height scope, left.ascendScopes height scope = right.ascendScopes height scope := by
    intro height
    induction height with
    | zero => exact fun _ => rfl
    | succ height ih =>
      intro scope
      simp only [ascendScopes, alike.enclosingScope?_eq, ih]
  rw [encloses, encloses, enclosingScopes, enclosingScopes, alike.size_eq, scopes]

theorem under (alike : Alike same left right) {lower upper : Handle}
    (under : left.Under lower upper) : right.Under lower upper := by
  induction under with
  | self stored => exact .self ((alike.contains_eq _).symm.trans stored)
  | above stored linked _ ih =>
    obtain ⟨other, storedRight, links, -⟩ := alike.exists_right stored
    exact .above storedRight (links.parent.symm.trans linked) ih

protected theorem wellFormed (alike : Alike same left right) (wellFormed : left.WellFormed) :
    right.WellFormed := by
  refine ⟨?_, ?_, ?_, ?_, ?_⟩
  · obtain ⟨node, stored, top⟩ := wellFormed.root_stored
    obtain ⟨other, storedRight, links, -⟩ := alike.exists_right stored
    exact ⟨other, alike.root ▸ storedRight, links.parent ▸ top⟩
  · intro handle node stored below
    obtain ⟨other, storedLeft, links, -⟩ := alike.exists_left stored
    obtain ⟨parent, above, linked, storedParent, listed⟩ :=
      wellFormed.listed storedLeft (alike.root ▸ below)
    obtain ⟨above', storedAbove, linksAbove, -⟩ := alike.exists_right storedParent
    exact ⟨parent, above', links.parent ▸ linked, storedAbove, linksAbove.children ▸ listed⟩
  · intro parent child above stored listed
    obtain ⟨other, storedLeft, links, -⟩ := alike.exists_left stored
    obtain ⟨node, storedChild, linked⟩ := wellFormed.linked storedLeft (links.children ▸ listed)
    obtain ⟨node', storedRight, linksChild, -⟩ := alike.exists_right storedChild
    exact ⟨node', storedRight, linksChild.parent ▸ linked⟩
  · intro parent above stored
    obtain ⟨other, storedLeft, links, -⟩ := alike.exists_left stored
    exact links.children ▸ wellFormed.nodup storedLeft
  · intro handle stored
    rw [← alike.contains_eq] at stored
    rw [← alike.root]
    exact alike.under (wellFormed.grounded stored)

/-! ### Edits -/

theorem modify (alike : Alike same left right) (handle : Handle)
    {change : ContentNode → ContentNode}
    (kept : ∀ before after, before.SameLinks after → same handle before after →
      (change before).SameLinks (change after) ∧ same handle (change before) (change after)) :
    Alike same (left.modify handle change) (right.modify handle change) := by
  refine ⟨alike.root, fun other => ?_⟩
  rw [get?_modify, get?_modify]
  by_cases here : handle = other
  · subst here
    rw [if_pos rfl, if_pos rfl]
    cases stored : left.get? handle with
    | none =>
      rw [(alike.none_iff handle).mp stored]
      exact .none
    | some node =>
      obtain ⟨counterpart, storedRight, links, data⟩ := alike.exists_right stored
      rw [storedRight]
      exact .some (kept node counterpart links data)
  · rw [if_neg here, if_neg here]
    exact alike.nodes other

theorem erase (alike : Alike same left right) (handles : List Handle) :
    Alike same (handles.foldl Document.erase left) (handles.foldl Document.erase right) := by
  refine ⟨?_, fun other => ?_⟩
  · rw [root_foldl_erase, root_foldl_erase, alike.root]
  · rw [get?_foldl_erase, get?_foldl_erase]
    split
    · exact .none
    · exact alike.nodes other

end Alike

/-- The relation asks nothing of child lists, so it outlives a change of them. -/
def IgnoresChildren (same : Handle → ContentNode → ContentNode → Prop) : Prop :=
  ∀ handle before after children children', same handle before after →
    same handle { before with children := children } { after with children := children' }

namespace Alike

variable {same : Handle → ContentNode → ContentNode → Prop} {left right : Document}

theorem modify_children (alike : Alike same left right) (ignores : IgnoresChildren same)
    (handle : Handle) (change : List Handle → List Handle) :
    Alike same (left.modify handle fun node => { node with children := change node.children })
      (right.modify handle fun node => { node with children := change node.children }) := by
  apply alike.modify handle
  intro before after links data
  exact ⟨⟨links.kind, links.parent, congrArg change links.children⟩,
    ignores handle before after _ _ data⟩

theorem unlink (alike : Alike same left right) (ignores : IgnoresChildren same) (handle : Handle)
    {before after : ContentNode} (parents : before.parent = after.parent) :
    Alike same (left.unlink handle before) (right.unlink handle after) := by
  rw [Document.unlink, Document.unlink, parents]
  cases after.parent with
  | none => exact alike
  | some parent => exact alike.modify_children ignores parent _

theorem remove (alike : Alike same left right) (ignores : IgnoresChildren same)
    (handle : Handle) :
    Alike same (left.remove handle).state (right.remove handle).state ∧
      (left.remove handle).answer = (right.remove handle).answer := by
  rw [Document.remove, Document.remove, alike.root]
  split
  · exact ⟨alike, rfl⟩
  · cases stored : left.get? handle with
    | none =>
      rw [(alike.none_iff handle).mp stored]
      exact ⟨alike, rfl⟩
    | some node =>
      obtain ⟨other, storedRight, links, -⟩ := alike.exists_right stored
      have unlinked := alike.unlink ignores handle links.parent
      rw [storedRight]
      dsimp only [Outcome.done]
      rw [unlinked.below_eq]
      exact ⟨unlinked.erase _, rfl⟩

theorem attachable (alike : Alike same left right) {parent : Handle} {subtree : Subtree}
    (attachable : left.Attachable parent subtree) : right.Attachable parent subtree where
  parent_stored := (alike.contains_eq parent).symm.trans attachable.parent_stored
  distinct := attachable.distinct
  fresh := fun handle mentioned =>
    (alike.contains_eq handle).symm.trans (attachable.fresh handle mentioned)

/-- Attaching a subtree gives both documents the same new nodes, so the data of these may be asked
to be related in another way than that of the nodes from before. -/
theorem attach {finer : Handle → ContentNode → ContentNode → Prop} (alike : Alike same left right)
    (ignores : IgnoresChildren finer) {parent : Handle} {subtree : Subtree}
    (attachable : left.Attachable parent subtree) (index : Nat)
    (fresh : ∀ handle ∈ subtree.handles, ∀ node, finer handle node node)
    (kept : ∀ handle before after, handle ∉ subtree.handles → same handle before after →
      finer handle before after) :
    Alike finer (left.attach parent index subtree) (right.attach parent index subtree) := by
  have attachableRight := alike.attachable attachable
  refine ⟨alike.root, fun handle => ?_⟩
  by_cases mentioned : handle ∈ subtree.handles
  · obtain ⟨node, entered⟩ := Subtree.exists_entry (some parent) mentioned
    rw [attachable.get?_of_entry index entered, attachableRight.get?_of_entry index entered]
    exact .some ⟨.refl node, fresh handle mentioned node⟩
  · by_cases here : handle = parent
    · subst here
      rw [attachable.get?_parent, attachableRight.get?_parent]
      cases stored : left.get? handle with
      | none =>
        rw [(alike.none_iff handle).mp stored]
        exact .none
      | some node =>
        obtain ⟨other, storedRight, links, data⟩ := alike.exists_right stored
        rw [storedRight]
        exact .some ⟨⟨links.kind, links.parent,
          congrArg (insertAt index subtree.handle) links.children⟩,
          ignores handle node other _ _ (kept handle node other mentioned data)⟩
    · rw [Attachable.get?_of_ne index mentioned here, Attachable.get?_of_ne index mentioned here]
      cases stored : left.get? handle with
      | none =>
        rw [(alike.none_iff handle).mp stored]
        exact .none
      | some node =>
        obtain ⟨other, storedRight, links, data⟩ := alike.exists_right stored
        rw [storedRight]
        exact .some ⟨links, kept handle node other mentioned data⟩

/-- Updates of one node on both sides. -/
theorem update {finer : Handle → ContentNode → ContentNode → Prop} (alike : Alike same left right)
    {handle : Handle} {changeLeft changeRight : ContentNode → ContentNode}
    (linksLeft : ∀ node : ContentNode, node.SameLinks (changeLeft node))
    (linksRight : ∀ node : ContentNode, node.SameLinks (changeRight node))
    (here : ∀ before after, left.get? handle = some before → right.get? handle = some after →
      same handle before after → finer handle (changeLeft before) (changeRight after))
    (elsewhere : ∀ other before after, other ≠ handle → same other before after →
      finer other before after) :
    Alike finer (left.update handle changeLeft).state (right.update handle changeRight).state := by
  refine ⟨by rw [root_update, root_update, alike.root], fun other => ?_⟩
  rw [get?_update, get?_update]
  cases stored : left.get? other with
  | none =>
    have storedRight := (alike.none_iff other).mp stored
    rw [storedRight]
    split
    · rename_i same
      subst same
      rw [stored, storedRight]
      exact .none
    · exact .none
  | some node =>
    obtain ⟨counterpart, storedRight, links, data⟩ := alike.exists_right stored
    rw [storedRight]
    split
    · rename_i same
      subst same
      rw [stored, storedRight]
      exact .some ⟨((linksLeft node).symm.trans links).trans (linksRight counterpart),
        here node counterpart stored storedRight data⟩
    · rename_i differ
      exact .some ⟨links, elsewhere other node counterpart (Ne.symm differ) data⟩

end Alike

/-! ### Changes of data -/

/-- A change of the data of a node that neither looks at its links nor alters them. -/
structure IsDataChange (change : ContentNode → ContentNode) : Prop where
  links : ∀ node : ContentNode, node.SameLinks (change node)
  children : ∀ (node : ContentNode) (children : List Handle),
    change { node with children := children } = { change node with children := children }

/-- A change of data leaves a document with the same nodes and links. -/
theorem IsDataChange.alike {change : ContentNode → ContentNode} (data : IsDataChange change)
    (document : Document) (handle : Handle) :
    Alike (fun _ _ _ => True) document (document.update handle change).state := by
  refine ⟨(root_update document handle change).symm, fun other => ?_⟩
  rw [get?_update]
  split
  · rename_i same
    subst same
    cases document.get? handle with
    | none => exact .none
    | some node => exact .some ⟨data.links node, trivial⟩
  · cases document.get? other with
    | none => exact .none
    | some node => exact .some ⟨.refl node, trivial⟩

end Document

end Accessibility
