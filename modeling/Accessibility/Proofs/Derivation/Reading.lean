import Accessibility.Derivation.Tables

/-!
What the edges of a relation are derived from: the kinds of nodes, and the attributes that the
relation is read from. Nodes that agree in these are treated alike.
-/

set_option autoImplicit false

namespace Accessibility

/-- A relation and its reverse are read from the same attributes. -/
theorem RelationSet.contains_readFrom_reverse {relation reverse : Relation}
    (paired : relation.reverse? = some reverse) (name : String) :
    (readFrom name).contains reverse = (readFrom name).contains relation := by
  unfold readFrom
  cases relation <;> cases paired <;> split <;> rfl

namespace Derivation

/-- Nodes of one kind that agree in the attributes that a relation is read from. Popovers must be
told apart from other nodes as well. -/
structure AgreeFor (relation : Relation) (left right : AccessibleNode) : Prop where
  kind : right.kind = left.kind
  value : ∀ {name : String}, (RelationSet.readFrom name).contains relation = true →
    right.attributes[name]? = left.attributes[name]?
  popover : right.attributes["popover"]? = left.attributes["popover"]?

namespace AgreeFor

variable {relation : Relation} {left right : AccessibleNode}

theorem of_same_attributes (kind : right.kind = left.kind)
    (attributes : right.attributes = left.attributes) : AgreeFor relation left right :=
  ⟨kind, fun _ => by rw [attributes], by rw [attributes]⟩

theorem reverse (agree : AgreeFor relation left right) {reverse : Relation}
    (paired : relation.reverse? = some reverse) : AgreeFor reverse left right := by
  refine ⟨agree.kind, fun reads => agree.value ?_, agree.popover⟩
  rwa [RelationSet.contains_readFrom_reverse paired] at reads

theorem hasTag (agree : AgreeFor relation left right) (tag : String) :
    right.hasTag tag = left.hasTag tag := by
  rw [AccessibleNode.hasTag, AccessibleNode.hasTag, AccessibleNode.tag?, AccessibleNode.tag?,
    agree.kind]

theorem valueOrEmpty (agree : AgreeFor relation left right) {name : String}
    (reads : (RelationSet.readFrom name).contains relation = true) :
    right.attributes.valueOrEmpty name = left.attributes.valueOrEmpty name := by
  rw [Attributes.valueOrEmpty, Attributes.valueOrEmpty, agree.value reads]

/-- Ids, roles and types are read for every relation. -/
theorem idValue (agree : AgreeFor relation left right) :
    right.attributes["id"]? = left.attributes["id"]? :=
  agree.value (RelationSet.contains_every relation)

theorem type (agree : AgreeFor relation left right) :
    right.attributes.valueOrEmpty "type" = left.attributes.valueOrEmpty "type" :=
  agree.valueOrEmpty (RelationSet.contains_every relation)

theorem roleWords (agree : AgreeFor relation left right) :
    right.attributes.valueOrEmpty "role" = left.attributes.valueOrEmpty "role" :=
  agree.valueOrEmpty (RelationSet.contains_every relation)

theorem domId? (agree : AgreeFor relation left right) : right.domId? = left.domId? := by
  rw [AccessibleNode.domId?, AccessibleNode.domId?, Attributes.domId?, Attributes.domId?,
    agree.idValue]

theorem isNativeRadio (agree : AgreeFor relation left right) :
    right.isNativeRadio = left.isNativeRadio := by
  rw [AccessibleNode.isNativeRadio, AccessibleNode.isNativeRadio, agree.hasTag, agree.type]

theorem isLabelable (agree : AgreeFor relation left right) :
    isLabelable right = isLabelable left := by
  unfold Derivation.isLabelable
  rw [AccessibleNode.tag?, AccessibleNode.tag?, agree.kind, agree.type]

theorem isInvoker (agree : AgreeFor relation left right) : isInvoker right = isInvoker left := by
  unfold Derivation.isInvoker
  rw [AccessibleNode.tag?, AccessibleNode.tag?, agree.kind, agree.type]

theorem isPopover (agree : AgreeFor relation left right) :
    right.attributes.contains "popover" = left.attributes.contains "popover" := by
  rw [Std.ExtTreeMap.contains_eq_isSome_getElem?, Std.ExtTreeMap.contains_eq_isSome_getElem?,
    agree.popover]

end AgreeFor

end Derivation

namespace Role

variable {left right : Attributes} {wanted : Role}

/-- Roles that no attribute but `role` and `type` can give or take. -/
def Steady (role : Role) : Prop :=
  role ≠ link ∧ role ≠ «section» ∧ role ≠ listBox ∧ role ≠ comboBox

instance : DecidablePred Steady :=
  fun _ => inferInstanceAs (Decidable (_ ∧ _))

theorem ofTag_eq_iff (steady : wanted.Steady)
    (type : right.valueOrEmpty "type" = left.valueOrEmpty "type") (tag : String) :
    ofTag right tag = wanted ↔ ofTag left tag = wanted := by
  obtain ⟨notLink, notSection, notListBox, notComboBox⟩ := steady
  have anchor (attributes : Attributes) :
      (if attributes.contains "href" then link else «section») ≠ wanted := by
    split
    · exact notLink.symm
    · exact notSection.symm
  have select (attributes : Attributes) :
      (if showsSeveral attributes then listBox else comboBox) ≠ wanted := by
    split
    · exact notListBox.symm
    · exact notComboBox.symm
  unfold ofTag
  split
  · exact iff_of_false (anchor right) (anchor left)
  · exact Iff.rfl
  · rw [type]
  · exact iff_of_false (select right) (select left)
  all_goals exact Iff.rfl

/-- Whether a tag makes a link depends on whether there is an address. -/
theorem ofTag_eq_link_iff (address : right["href"]? = left["href"]?)
    (type : right.valueOrEmpty "type" = left.valueOrEmpty "type") (tag : String) :
    ofTag right tag = link ↔ ofTag left tag = link := by
  have select (attributes : Attributes) :
      (if showsSeveral attributes then listBox else comboBox) ≠ link := by
    split <;> nofun
  have addressed : right.contains "href" = left.contains "href" := by
    rw [Std.ExtTreeMap.contains_eq_isSome_getElem?, Std.ExtTreeMap.contains_eq_isSome_getElem?,
      address]
  unfold ofTag
  split
  · rw [addressed]
  · exact Iff.rfl
  · rw [type]
  · exact iff_of_false (select right) (select left)
  all_goals exact Iff.rfl

theorem ofContent_eq_iff (kind : Kind)
    (words : right.valueOrEmpty "role" = left.valueOrEmpty "role")
    (native : ∀ tag, ofTag right tag = wanted ↔ ofTag left tag = wanted) :
    ofContent kind right = wanted ↔ ofContent kind left = wanted := by
  cases kind with
  | element tag =>
    rw [ofContent, ofContent, words]
    cases (Text.words (left.valueOrEmpty "role")).findSome? ofWord? with
    | none => exact native tag
    | some role => exact Iff.rfl
  | _ => exact Iff.rfl

end Role

namespace Derivation.AgreeFor

variable {relation : Relation} {left right : AccessibleNode}

theorem role_eq_iff (agree : AgreeFor relation left right) {wanted : Role}
    (steady : wanted.Steady) : right.role = wanted ↔ left.role = wanted := by
  rw [AccessibleNode.role, AccessibleNode.role, agree.kind]
  exact Role.ofContent_eq_iff left.kind agree.roleWords (Role.ofTag_eq_iff steady agree.type)

theorem role_beq (agree : AgreeFor relation left right) {wanted : Role} (steady : wanted.Steady) :
    (right.role == wanted) = (left.role == wanted) := by
  rw [Bool.eq_iff_iff, beq_iff_eq, beq_iff_eq, agree.role_eq_iff steady]

theorem isLink_iff (agree : AgreeFor .linksTo left right) :
    right.role = .link ↔ left.role = .link := by
  rw [AccessibleNode.role, AccessibleNode.role, agree.kind]
  exact Role.ofContent_eq_iff left.kind agree.roleWords
    (Role.ofTag_eq_link_iff (agree.value rfl) agree.type)

theorem onlyHides (agree : AgreeFor .details left right) : onlyHides right = onlyHides left := by
  have value : right.attributes.valueOrEmpty "popovertargetaction" =
      left.attributes.valueOrEmpty "popovertargetaction" := agree.valueOrEmpty rfl
  rw [Derivation.onlyHides, Derivation.onlyHides, value]

end Derivation.AgreeFor

end Accessibility
