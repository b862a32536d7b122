import Accessibility.Document.Layout
import Accessibility.Proofs.Document.Alike
import Accessibility.Session.Effects

/-!
What the layout of a document depends on: the links of its nodes, the attributes that decide what is
exposed, the names of slots, and which popovers show.
-/

set_option autoImplicit false

namespace Accessibility

/-- Nodes that the layout treats alike. -/
structure ContentNode.SameExposure (left right : ContentNode) : Prop where
  showing : left.popoverShowing = right.popoverShowing
  attributes : ∀ {name : String}, Change.isExposureAttribute name = true →
    left.attributes[name]? = right.attributes[name]?
  slotName : left.kind.isSlot = true → left.attributes["name"]? = right.attributes["name"]?

namespace ContentNode

variable {left right : ContentNode}

theorem SameExposure.isHidden (same : left.SameExposure right) : left.isHidden = right.isHidden := by
  have contains {name : String} (exposes : Change.isExposureAttribute name = true) :
      left.attributes.contains name = right.attributes.contains name := by
    rw [Std.ExtTreeMap.contains_eq_isSome_getElem?, Std.ExtTreeMap.contains_eq_isSome_getElem?,
      same.attributes exposes]
  rw [ContentNode.isHidden, ContentNode.isHidden, contains rfl, contains rfl, same.showing]

theorem SameExposure.goesTo (same : left.SameExposure right) (links : left.SameLinks right)
    (name : String) : left.goesTo name = right.goesTo name := by
  have slot : left.attributes.valueOrEmpty "slot" = right.attributes.valueOrEmpty "slot" := by
    rw [Attributes.valueOrEmpty, Attributes.valueOrEmpty, same.attributes rfl]
  rw [ContentNode.goesTo, ContentNode.goesTo, links.kind, slot]

theorem SameExposure.slotName_eq (same : left.SameExposure right)
    (isSlot : left.kind.isSlot = true) : left.slotName = right.slotName := by
  rw [ContentNode.slotName, ContentNode.slotName, Attributes.valueOrEmpty, Attributes.valueOrEmpty,
    same.slotName isSlot]

end ContentNode

namespace Document

/-- Documents that are laid out alike. -/
abbrev ExposedAlike (left right : Document) : Prop :=
  Alike (fun _ => ContentNode.SameExposure) left right

namespace ExposedAlike

variable {left right : Document}

theorem slotsWithin_eq (alike : ExposedAlike left right) (name : String) (depth : Nat)
    (handle : Handle) : left.slotsWithin name depth handle = right.slotsWithin name depth handle := by
  induction depth generalizing handle with
  | zero => rfl
  | succ depth ih =>
    unfold slotsWithin
    cases stored : left.get? handle with
    | none => rw [(alike.none_iff handle).mp stored]
    | some node =>
      obtain ⟨other, storedRight, links, same⟩ := alike.exists_right stored
      rw [storedRight]
      dsimp only
      rw [← links.children, ← links.kind, alike.isShadowRoot_eq, funext fun child => ih child]
      cases isSlot : node.kind.isSlot with
      | false => rfl
      | true => rw [same.slotName_eq isSlot]

theorem firstSlot?_eq (alike : ExposedAlike left right) (root : Handle) (name : String) :
    left.firstSlot? root name = right.firstSlot? root name := by
  rw [firstSlot?, firstSlot?, alike.size_eq, alike.slotsWithin_eq]

theorem assigned_eq (alike : ExposedAlike left right) (root : Handle) {slot : Handle}
    {node : ContentNode} (stored : left.get? slot = some node) (isSlot : node.kind.isSlot = true) :
    left.assigned root slot = right.assigned root slot := by
  obtain ⟨other, storedRight, links, same⟩ := alike.exists_right stored
  have host : ((left.get? root).bind ContentNode.parent) =
      ((right.get? root).bind ContentNode.parent) := alike.parentOf?_eq root
  unfold assigned
  simp only [stored, storedRight, Option.map_some, Option.getD_some, same.slotName_eq isSlot,
    alike.firstSlot?_eq, host]
  split
  · cases linked : (right.get? root).bind ContentNode.parent with
    | none => rfl
    | some parent =>
      rw [Option.bind_some, Option.bind_some]
      cases storedHost : left.get? parent with
      | none => rw [(alike.none_iff parent).mp storedHost]
      | some above =>
        obtain ⟨above', storedHost', linksHost, -⟩ := alike.exists_right storedHost
        rw [storedHost']
        dsimp only
        rw [← linksHost.children]
        refine List.filter_congr fun child _ => ?_
        cases storedChild : left.get? child with
        | none => rw [(alike.none_iff child).mp storedChild]
        | some node =>
          obtain ⟨node', storedChild', linksChild, sameChild⟩ := alike.exists_right storedChild
          rw [storedChild', Option.any_some, Option.any_some, sameChild.goesTo linksChild]
  · rfl

theorem layOut_eq (alike : ExposedAlike left right) (depth : Nat) (task : LayoutTask)
    (parent : Handle) (scope : Scope) :
    left.layOut depth task parent scope = right.layOut depth task parent scope := by
  induction depth generalizing task parent scope with
  | zero => cases task <;> rfl
  | succ depth ih =>
    cases task with
    | inside handle =>
      unfold layOut
      cases stored : left.get? handle with
      | none => rw [(alike.none_iff handle).mp stored]
      | some node =>
        obtain ⟨other, storedRight, links, -⟩ := alike.exists_right stored
        rw [storedRight]
        dsimp only
        rw [shadowRootOf?, shadowRootOf?, ← links.children, alike.isShadowRoot_eq]
        split
        · exact ih _ _ _
        · exact List.flatMap_congr fun child _ => ih _ _ _
    | self handle =>
      unfold layOut
      cases stored : left.get? handle with
      | none => rw [(alike.none_iff handle).mp stored]
      | some node =>
        obtain ⟨other, storedRight, links, same⟩ := alike.exists_right stored
        rw [storedRight]
        dsimp only
        rw [← links.kind, ← same.isHidden, alike.enclosingScope?_eq]
        split
        · rfl
        · cases scope with
          | document => exact congrArg _ (ih _ _ _)
          | shadow root =>
            dsimp only
            split
            · rename_i isSlot
              rw [← alike.assigned_eq root stored isSlot]
              split
              · exact ih _ _ _
              · exact List.flatMap_congr fun light _ => ih _ _ _
            · exact congrArg _ (ih _ _ _)

/-- Documents that differ in nothing that decides exposure have the same layout. -/
theorem layout_eq (alike : ExposedAlike left right) : left.layout = right.layout := by
  rw [layout, layout, layoutDepth, layoutDepth, alike.root, alike.size_eq, alike.layOut_eq]

end ExposedAlike

end Document

end Accessibility
