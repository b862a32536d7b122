import Accessibility.Proofs.Derivation.Targets
import Accessibility.Proofs.Document.Scoping

/-!
Where references lead. Whatever a node names by a DOM id is looked up in its own scope; only an element
that an invoker holds may be in another scope, and then in one around the invoker. What labels a node by
its place in the tree, such as a caption, is no reference and keeps to no scope.
-/

set_option autoImplicit false

namespace Accessibility

namespace Derivation

/-- What makes a node the label of another one. -/
inductive LabelOrigin where
  /-- The other node names it by a word of `aria-labelledby`. -/
  | word
  /-- It is a `label` element that names the other node. -/
  | forAttribute
  /-- It is a `label` element around the other node. -/
  | around
  /-- It is the caption of the other node. -/
  | caption
deriving DecidableEq, Repr

/-- Whether one of the two nodes names the other by a DOM id. -/
def LabelOrigin.isReference : LabelOrigin → Bool
  | word | forAttribute => true
  | around | caption => false

namespace Source

variable {source : Source} {id target : NodeId} {node : AccessibleNode}

/-- The nodes that the words of `aria-labelledby` lead to. -/
def wordLabels (source : Source) (node : AccessibleNode) : List NodeId :=
  source.resolveAll (node.attributes.valueOrEmpty "aria-labelledby") node.scope

/-- The `label` of a node, with what makes it one. A `label` element counts only where no word leads
anywhere. -/
inductive Labels (source : Source) : LabelOrigin → (id label : NodeId) → Prop
  | word {id label : NodeId} {node : AccessibleNode} (alive : source.tree.live id = some node)
    (listed : label ∈ source.wordLabels node) : Labels source .word id label
  | forAttribute {id label : NodeId} {node labelNode : AccessibleNode} {domId : String}
    (alive : source.tree.live id = some node) (unnamed : source.wordLabels node = [])
    (aliveLabel : source.tree.live label = some labelNode)
    (isLabel : labelNode.hasTag "label" = true)
    (named : labelNode.attributes["for"]? = some domId)
    (found : source.tree.lookup? (Text.trim domId) labelNode.scope = some id) :
    Labels source .forAttribute id label
  | around {id label : NodeId} {node labelNode : AccessibleNode}
    (alive : source.tree.live id = some node) (unnamed : source.wordLabels node = [])
    (aliveLabel : source.tree.live label = some labelNode)
    (isLabel : labelNode.hasTag "label" = true)
    (anonymous : labelNode.attributes["for"]? = none)
    (first : (source.tree.below label).tail.find?
      (fun inner => (source.tree.get? inner).any isLabelable) = some id) :
    Labels source .around id label
  | caption {id label : NodeId} {node : AccessibleNode} (alive : source.tree.live id = some node)
    (first : source.caption? node = some label) : Labels source .caption id label

/-- Whether two live nodes are in one scope. -/
def SharesScope (source : Source) (id other : NodeId) : Prop :=
  ∃ node otherNode, source.tree.live id = some node ∧ source.tree.live other = some otherNode ∧
    otherNode.scope = node.scope

/-! ### Lookups -/

theorem sharesScope_of_lookup? (sound : source.tree.Sound) (alive : source.tree.live id = some node)
    {domId : String} (found : source.tree.lookup? domId node.scope = some target) :
    source.SharesScope id target := by
  obtain ⟨targetNode, aliveTarget, scope, -⟩ := sound.carries_of_lookup? found
  exact ⟨node, targetNode, alive, aliveTarget, scope⟩

theorem sharesScope_of_mem_resolveAll (sound : source.tree.Sound)
    (alive : source.tree.live id = some node) {list : String}
    (listed : target ∈ source.resolveAll list node.scope) : source.SharesScope id target := by
  rw [resolveAll, List.mem_eraseDups] at listed
  obtain ⟨word, -, found⟩ := List.mem_filterMap.mp listed
  exact sharesScope_of_lookup? sound alive found

theorem SharesScope.symm {other : NodeId} (shares : source.SharesScope id other) :
    source.SharesScope other id := by
  obtain ⟨node, otherNode, alive, aliveOther, scope⟩ := shares
  exact ⟨otherNode, node, aliveOther, alive, scope.symm⟩

/-! ### Links -/

theorem sharesScope_of_links (sound : source.tree.Sound) (listed : target ∈ source.links.targets id) :
    source.SharesScope id target := by
  rw [links, targets_edges sound] at listed
  split at listed
  · cases listed
  rename_i node alive
  have found := Option.mem_toList.mp listed
  rw [destination?] at found
  split at found
  · obtain ⟨fragment, -, found⟩ := Option.bind_eq_some_iff.mp found
    rcases Option.or_eq_some_iff.mp found with found | ⟨-, found⟩
    · exact sharesScope_of_lookup? sound alive found
    · obtain ⟨⟨anchor, anchorNode⟩, first, rfl⟩ := Option.map_eq_some_iff.mp found
      have fits := List.find?_some first
      simp only [Bool.and_eq_true, beq_iff_eq] at fits
      exact ⟨node, anchorNode, alive, (mem_nodes sound).mp (List.mem_of_find?_eq_some first),
        fits.1.1⟩
  · cases found

/-! ### Labels -/

theorem mem_withCaption {labels : List NodeId} {caption : Option NodeId} :
    target ∈ withCaption labels caption ↔ target ∈ labels ∨ caption = some target := by
  cases caption with
  | none => simp [withCaption]
  | some last =>
    rw [withCaption]
    split
    · rename_i listed
      rw [List.contains_iff_mem] at listed
      refine (or_iff_left_of_imp ?_).symm
      rintro ⟨⟩
      exact listed
    · rw [List.mem_append, List.mem_singleton, Option.some.injEq, eq_comm]

theorem mem_labelElements (sound : source.tree.Sound) {label : NodeId} :
    label ∈ source.labelElements.targets id ↔ ∃ labelNode, source.tree.live label = some labelNode ∧
      labelNode.hasTag "label" = true ∧ source.labelled? label labelNode = some id := by
  rw [targets_labelElements, List.mem_map]
  constructor
  · rintro ⟨⟨label, labelNode⟩, listed, rfl⟩
    obtain ⟨listed, isLabel⟩ := List.mem_filter.mp listed
    rw [isLabelOf, Bool.and_eq_true, beq_iff_eq] at isLabel
    exact ⟨labelNode, (mem_nodes sound).mp listed, isLabel⟩
  · rintro ⟨labelNode, alive, isLabel⟩
    refine ⟨(label, labelNode), List.mem_filter.mpr ⟨(mem_nodes sound).mpr alive, ?_⟩, rfl⟩
    rwa [isLabelOf, Bool.and_eq_true, beq_iff_eq]

theorem Labels.live {origin : LabelOrigin} {label : NodeId}
    (labels : source.Labels origin id label) : ∃ node, source.tree.live id = some node := by
  cases labels with
  | word alive | forAttribute alive | around alive | caption alive => exact ⟨_, alive⟩

/-- A `label` element that labels a node is one by its `for` attribute or, without one, by being around
the node. -/
theorem exists_labels_of_labelElements (sound : source.tree.Sound)
    (alive : source.tree.live id = some node) (unnamed : source.wordLabels node = [])
    {label : NodeId} (listed : label ∈ source.labelElements.targets id) :
    ∃ origin, source.Labels origin id label := by
  obtain ⟨labelNode, aliveLabel, isLabel, found⟩ := (mem_labelElements sound).mp listed
  rw [labelled?] at found
  split at found
  · rename_i named
    exact ⟨.forAttribute, .forAttribute alive unnamed aliveLabel isLabel named found⟩
  · rename_i anonymous
    exact ⟨.around, .around alive unnamed aliveLabel isLabel anonymous found⟩

/-- What makes a node a label, in the order of preference: `label` elements come after the words, and
a caption counts beside either. -/
theorem exists_labels_iff (sound : source.tree.Sound) (alive : source.tree.live id = some node)
    {label : NodeId} : (∃ origin, source.Labels origin id label) ↔
      label ∈ source.wordLabels node ∨
        (source.wordLabels node = [] ∧ label ∈ source.labelElements.targets id) ∨
        source.caption? node = some label := by
  constructor
  · rintro ⟨origin, labels⟩
    have same {node' : AccessibleNode} (alive' : source.tree.live id = some node') :
        node' = node := Option.some.inj (alive'.symm.trans alive)
    cases labels with
    | word alive' listed => exact .inl (same alive' ▸ listed)
    | forAttribute alive' unnamed aliveLabel isLabel named found =>
      refine .inr (.inl ⟨same alive' ▸ unnamed, (mem_labelElements sound).mpr ?_⟩)
      exact ⟨_, aliveLabel, isLabel, by simpa only [labelled?, named] using found⟩
    | around alive' unnamed aliveLabel isLabel anonymous first =>
      refine .inr (.inl ⟨same alive' ▸ unnamed, (mem_labelElements sound).mpr ?_⟩)
      exact ⟨_, aliveLabel, isLabel, by simpa only [labelled?, anonymous] using first⟩
    | caption alive' first => exact .inr (.inr (same alive' ▸ first))
  · rintro (listed | ⟨unnamed, listed⟩ | first)
    · exact ⟨.word, .word alive listed⟩
    · exact exists_labels_of_labelElements sound alive unnamed listed
    · exact ⟨.caption, .caption alive first⟩

/-- The labels of a node are those with an origin. -/
theorem mem_labels (sound : source.tree.Sound) {label : NodeId} :
    label ∈ source.labels.targets id ↔ ∃ origin, source.Labels origin id label := by
  rw [labels, targets_edges sound]
  cases alive : source.tree.live id with
  | none =>
    refine iff_of_false List.not_mem_nil ?_
    rintro ⟨origin, labels⟩
    obtain ⟨node, alive'⟩ := labels.live
    rw [alive] at alive'
    cases alive'
  | some node =>
    dsimp only
    rw [exists_labels_iff sound alive, labelsOf_eq, mem_withCaption, ← wordLabels, ← or_assoc]
    refine or_congr_left ?_
    split
    · rename_i unnamed
      rw [List.isEmpty_iff.mp unnamed, or_iff_right List.not_mem_nil, and_iff_right rfl]
    · rename_i named
      exact (or_iff_left fun element => named (List.isEmpty_iff.mpr element.1)).symm

theorem Labels.sharesScope (sound : source.tree.Sound) {origin : LabelOrigin} {label : NodeId}
    (labels : source.Labels origin id label) (reference : origin.isReference = true) :
    source.SharesScope id label := by
  cases labels with
  | word alive listed => exact sharesScope_of_mem_resolveAll sound alive listed
  | forAttribute _ _ aliveLabel _ _ found => exact (sharesScope_of_lookup? sound aliveLabel found).symm
  | around | caption => cases reference

/-! ### Details -/

/-- An element that an invoker holds is in the scope of the invoker or one around it. -/
theorem encloses_of_invoked? (sound : source.tree.Sound)
    (told : ∀ {id : NodeId} {node : AccessibleNode}, source.tree.live id = some node →
      node.scope = source.document.scopeOf node.content)
    (found : source.invoked? node = some target) :
    ∃ targetNode, source.tree.live target = some targetNode ∧
      source.document.encloses targetNode.scope node.scope = true := by
  rw [invoked?] at found
  split at found
  · rename_i content _
    split at found
    · rename_i reachable
      obtain ⟨targetNode, aliveTarget, rfl⟩ := sound.live_of_nodeFor? found
      rw [Bool.and_eq_true] at reachable
      exact ⟨targetNode, aliveTarget, told aliveTarget ▸ reachable.2⟩
    · cases found
  · obtain ⟨domId, -, found⟩ := Option.bind_eq_some_iff.mp found
    obtain ⟨targetNode, aliveTarget, scope, -⟩ := sound.carries_of_lookup? found
    exact ⟨targetNode, aliveTarget, scope ▸ source.document.encloses_self node.scope⟩

/-- A popover that tells details is one, and does not follow its invoker. -/
theorem popover?_eq_some (found : source.popover? id node = some target) :
    source.invoked? node = some target ∧
      (source.tree.get? target).any (·.attributes.contains "popover") = true ∧
      source.tree.nextSibling? id ≠ some target := by
  rw [popover?] at found
  split at found
  · obtain ⟨invoked, fits⟩ := Option.filter_eq_some_iff.mp found
    rw [Bool.and_eq_true, bne_iff_ne] at fits
    exact ⟨invoked, fits⟩
  · cases found

/-- Details are named by the words of `aria-details`, or else are a popover. -/
theorem mem_detailsOf (listed : target ∈ source.detailsOf id node) :
    target ∈ source.resolveAll (node.attributes.valueOrEmpty "aria-details") node.scope ∨
      source.resolveAll (node.attributes.valueOrEmpty "aria-details") node.scope = [] ∧
        source.popover? id node = some target := by
  rw [detailsOf] at listed
  split at listed
  · rename_i nowhere
    exact .inr ⟨nowhere, Option.mem_toList.mp listed⟩
  · exact .inl listed

theorem encloses_of_details (sound : source.tree.Sound)
    (told : ∀ {id : NodeId} {node : AccessibleNode}, source.tree.live id = some node →
      node.scope = source.document.scopeOf node.content)
    (listed : target ∈ source.details.targets id) :
    ∃ node targetNode, source.tree.live id = some node ∧ source.tree.live target = some targetNode ∧
      source.document.encloses targetNode.scope node.scope = true := by
  rw [details, targets_edges sound] at listed
  split at listed
  · cases listed
  rename_i node alive
  rcases mem_detailsOf listed with named | ⟨-, found⟩
  · obtain ⟨node', targetNode, alive', aliveTarget, scope⟩ :=
      sharesScope_of_mem_resolveAll sound alive named
    exact ⟨node', targetNode, alive', aliveTarget,
      scope ▸ source.document.encloses_self targetNode.scope⟩
  · obtain ⟨targetNode, aliveTarget, encloses⟩ :=
      encloses_of_invoked? sound told (popover?_eq_some found).1
    exact ⟨node, targetNode, alive, aliveTarget, encloses⟩

/-- Where no word of `aria-details` leads anywhere, all that can be told is a popover. -/
theorem popover_of_details (sound : source.tree.Sound) (alive : source.tree.live id = some node)
    (nowhere : ∀ word ∈ Text.words (node.attributes.valueOrEmpty "aria-details"),
      source.tree.lookup? word node.scope = none)
    (listed : target ∈ source.details.targets id) :
    source.tree.nextSibling? id ≠ some target ∧ ∃ targetNode,
      source.tree.live target = some targetNode ∧
        targetNode.attributes.contains "popover" = true := by
  obtain ⟨targetNode, aliveTarget⟩ := (fitting_details sound id).live target listed
  rw [details, targets_edges sound, alive] at listed
  rcases mem_detailsOf listed with named | ⟨-, found⟩
  · rw [resolveAll, List.mem_eraseDups] at named
    obtain ⟨word, among, found⟩ := List.mem_filterMap.mp named
    rw [nowhere word among] at found
    cases found
  · obtain ⟨-, isPopover, apart⟩ := popover?_eq_some found
    rw [Tree.get?_of_live aliveTarget, Option.any_some] at isPopover
    exact ⟨apart, targetNode, aliveTarget, isPopover⟩

end Source

end Derivation

end Accessibility
