import Accessibility.Proofs.Session.Alignment
import Accessibility.Proofs.Session.Continuity
import Accessibility.Proofs.Tree.Renaming

/-!
Two trees that are aligned with the same document are the same but for the keys of their nodes,
whatever either of them was before: the node of some content in one goes with the node of the same
content in the other.
-/

set_option autoImplicit false

namespace Accessibility

/-- A handle is described with the one kind that it has. -/
def KindOf (kinds : Handle → Kind) (handle : Handle) (kind : Kind) : Prop :=
  kind = kinds handle

instance (kinds : Handle → Kind) (handle : Handle) (kind : Kind) :
    Decidable (KindOf kinds handle kind) :=
  inferInstanceAs (Decidable (_ = _))

namespace Alignment

variable {document : Document} {left right : Tree} {id : NodeId} {node : AccessibleNode}

/-- The node of another tree that stands for the same content. -/
def counterpart (left right : Tree) (id : NodeId) : NodeId :=
  ((left.live id).bind fun node => right.nodeFor? node.content).getD id

namespace Aligned

/-- Every live node has its entry. -/
theorem entry (aligned : Aligned document left) (sound : left.Sound)
    (alive : left.live id = some node) :
    ∃ entry ∈ document.layout, entry.handle = node.content ∧ Seated document left entry id node ∧
      node.children = seatsBelow left document.layout id := by
  obtain ⟨entry, listed, same⟩ := List.mem_map.mp (aligned.only alive)
  obtain ⟨id', node', seated, children⟩ := aligned.seated entry listed
  have known := seated.known
  rw [same, sound.nodeFor?_of_live alive] at known
  cases known
  have alive' := seated.alive
  rw [alive] at alive'
  cases alive'
  exact ⟨entry, listed, same, seated, children⟩

/-- Every live node has the attributes of its content. -/
theorem attributes (aligned : Aligned document left) (sound : left.Sound)
    (alive : left.live id = some node) :
    document.attributesOf? node.content = some node.attributes := by
  obtain ⟨entry, -, same, seated, -⟩ := aligned.entry sound alive
  rw [← same, seated.attributes]

/-- Unless the root is a shadow root, every live node has the scope that the document tells. -/
theorem scope (aligned : Aligned document left) (sound : left.Sound)
    (wellFormed : document.WellFormed) (plain : document.isShadowRoot document.root = false)
    (alive : left.live id = some node) : node.scope = document.scopeOf node.content := by
  obtain ⟨entry, listed, same, seated, -⟩ := aligned.entry sound alive
  rw [seated.scope plain, (Document.entered_layout wellFormed listed).scope plain, same]

theorem known_iff (aligned : Aligned document left) (sound : left.Sound) (handle : Handle) :
    (∃ id, left.nodeFor? handle = some id) ↔ handle ∈ document.layout.map Exposed.handle := by
  constructor
  · rintro ⟨id, known⟩
    obtain ⟨node, alive, rfl⟩ := sound.live_of_nodeFor? known
    exact aligned.only alive
  · intro listed
    obtain ⟨entry, inside, rfl⟩ := List.mem_map.mp listed
    obtain ⟨id, node, seated, -⟩ := aligned.seated entry inside
    exact ⟨id, seated.known⟩

section Counterparts

variable (alignedLeft : Aligned document left) (alignedRight : Aligned document right)
  (soundLeft : left.Sound) (soundRight : right.Sound)
include alignedLeft alignedRight soundLeft soundRight

theorem nodeFor?_counterpart (handle : Handle) :
    right.nodeFor? handle = (left.nodeFor? handle).map (counterpart left right) := by
  cases known : left.nodeFor? handle with
  | none =>
    rw [Option.map_none, Option.eq_none_iff_forall_ne_some]
    intro id' known'
    obtain ⟨id, knownLeft⟩ := (alignedLeft.known_iff soundLeft handle).mpr
      ((alignedRight.known_iff soundRight handle).mp ⟨id', known'⟩)
    rw [known] at knownLeft
    cases knownLeft
  | some id =>
    obtain ⟨id', known'⟩ := (alignedRight.known_iff soundRight handle).mpr
      ((alignedLeft.known_iff soundLeft handle).mp ⟨id, known⟩)
    obtain ⟨node, alive, rfl⟩ := soundLeft.live_of_nodeFor? known
    rw [Option.map_some, counterpart, alive, Option.bind_some, known', Option.getD_some]

theorem counterpart_injective {other : NodeId} {node' : AccessibleNode}
    (alive : left.live id = some node) (alive' : left.live other = some node')
    (same : counterpart left right id = counterpart left right other) : id = other := by
  have first := nodeFor?_counterpart alignedLeft alignedRight soundLeft soundRight node.content
  have second := nodeFor?_counterpart alignedLeft alignedRight soundLeft soundRight node'.content
  rw [soundLeft.nodeFor?_of_live alive, Option.map_some] at first
  rw [soundLeft.nodeFor?_of_live alive', Option.map_some, ← same] at second
  exact soundLeft.content_injective alive alive' (soundRight.eq_of_nodeFor? first second)

theorem seatsBelow_counterpart (alive : left.live id = some node) :
    seatsBelow right document.layout (counterpart left right id) =
      (seatsBelow left document.layout id).map (counterpart left right) := by
  have known (handle : Handle) :=
    nodeFor?_counterpart alignedLeft alignedRight soundLeft soundRight handle
  rw [seatsBelow, seatsBelow, List.map_filterMap]
  refine List.filterMap_congr fun entry _ => ?_
  have parents : entry.parent.bind right.nodeFor? = some (counterpart left right id) ↔
      entry.parent.bind left.nodeFor? = some id := by
    cases entry.parent with
    | none => exact iff_of_false (Option.some_ne_none _).symm (Option.some_ne_none _).symm
    | some parent =>
      rw [Option.bind_some, Option.bind_some, known, Option.map_eq_some_iff]
      constructor
      · rintro ⟨other, knownOther, same⟩
        obtain ⟨node', alive', -⟩ := soundLeft.live_of_nodeFor? knownOther
        rw [knownOther, counterpart_injective alignedLeft alignedRight soundLeft soundRight alive'
          alive same]
      · exact fun knownLeft => ⟨id, knownLeft, rfl⟩
  by_cases here : entry.parent.bind left.nodeFor? = some id
  · rw [if_pos here, if_pos (parents.mpr here), known]
  · rw [if_neg here, if_neg fun there => here (parents.mp there)]
    rfl

/-- Nodes of aligned trees that stand for the same content have the same attributes, and go together
in everything but their keys. -/
theorem renamed (plain : document.isShadowRoot document.root = false) {kinds : Handle → Kind}
    (kindsLeft : left.Allows (KindOf kinds)) (kindsRight : right.Allows (KindOf kinds)) :
    Tree.Renamed (counterpart left right) (fun node node' => node'.attributes = node.attributes)
      left right := by
  have known (handle : Handle) :=
    nodeFor?_counterpart alignedLeft alignedRight soundLeft soundRight handle
  refine ⟨soundLeft, soundRight, ?_, ?_, ?_⟩
  · obtain ⟨top, atTop, knownTop⟩ := alignedLeft.top
    obtain ⟨top', atTop', knownTop'⟩ := alignedRight.top
    rw [known, knownTop] at knownTop'
    rw [atTop, atTop', knownTop']
  · intro id node alive
    obtain ⟨entry, listed, content, seated, children⟩ := alignedLeft.entry soundLeft alive
    obtain ⟨id', node', seated', children'⟩ := alignedRight.seated entry listed
    have here : counterpart left right id = id' := by
      have knownRight := known entry.handle
      rw [seated.known, seated'.known, Option.map_some] at knownRight
      exact (Option.some.inj knownRight).symm
    have content' := soundRight.content_of_nodeFor? seated'.known seated'.alive
    rw [here]
    refine ⟨node', seated'.alive, ⟨content'.trans content, ?_, ?_, ?_, ?_⟩, ?_⟩
    · rw [kindsRight seated'.alive, kindsLeft alive, content', content]
    · rw [seated'.scope plain, seated.scope plain]
    · rw [seated'.parent, seated.parent]
      cases entry.parent with
      | none => rfl
      | some parent => exact known parent
    · rw [children', children, ← here,
        seatsBelow_counterpart alignedLeft alignedRight soundLeft soundRight alive]
    · have attributes := seated'.attributes
      rw [seated.attributes] at attributes
      exact (Option.some.inj attributes).symm
  · intro id' node' alive'
    have knownRight := soundRight.nodeFor?_of_live alive'
    rw [known, Option.map_eq_some_iff] at knownRight
    obtain ⟨id, knownLeft, same⟩ := knownRight
    obtain ⟨node, alive, -⟩ := soundLeft.live_of_nodeFor? knownLeft
    exact ⟨id, node, alive, same⟩

end Counterparts

end Aligned

end Alignment

end Accessibility
