import Accessibility.Proofs.Document.Insertion
import Accessibility.Proofs.Document.Layout

/-!
The slots of a shadow tree and what is assigned to them. The two searches for slots are both the walk
down from the shadow root with all but some handles left out, and the first slot of each name takes the
children of the host that go to the name.
-/

set_option autoImplicit false

namespace Accessibility.Document

variable {document : Document}

/-! ### The searches for slots -/

/-- Whether a node has a name as a slot. -/
def isNamed (document : Document) (name : String) (handle : Handle) : Bool :=
  (document.get? handle).any (·.slotName == name)

/-- Whether a node is a slot in a scope. -/
def isSlotIn (document : Document) (scope : Scope) (handle : Handle) : Bool :=
  (document.kind? handle).any Kind.isSlot && document.scopeOf handle == scope

/-- The slots of a shadow tree in preorder, told by their scope. -/
def slotsIn (document : Document) (root : Handle) : List Handle :=
  (document.below root).filter (document.isSlotIn (.shadow root))

/-- Which slots have a name is seen on the way down or at the end. -/
theorem slotsWithin_eq_filter (document : Document) (name : String) (depth : Nat)
    (handle : Handle) :
    document.slotsWithin name depth handle =
      (document.slotsBelow depth handle).filter (document.isNamed name) := by
  induction depth generalizing handle with
  | zero => rfl
  | succ depth ih =>
    simp only [slotsWithin, slotsBelow]
    cases stored : document.get? handle with
    | none => rfl
    | some node =>
      have named : document.isNamed name handle = (node.slotName == name) := by
        rw [isNamed, stored, Option.any_some]
      have inside (children : List Handle) : children.flatMap (document.slotsWithin name depth) =
          (children.flatMap (document.slotsBelow depth)).filter (document.isNamed name) := by
        rw [List.filter_flatMap]
        exact List.flatMap_congr fun child _ => ih child
      dsimp only
      rw [inside]
      cases node.kind.isSlot with
      | false => rfl
      | true =>
        rw [if_pos rfl, List.filter_cons, named, Bool.true_and]

/-- The first slot of a name is looked up among all slots. -/
theorem firstSlot?_eq_find? (document : Document) (root : Handle) (name : String) :
    document.firstSlot? root name = (document.slotsOf root).find? (document.isNamed name) := by
  rw [firstSlot?, slotsWithin_eq_filter, List.head?_filter, slotsOf]

namespace WellFormed

/-- What is below a shadow root is in its scope or in that of a shadow root inside. -/
theorem exists_scopeOf_below (wellFormed : document.WellFormed) {root lower : Handle}
    (isRoot : document.isShadowRoot root = true) (leads : document.Leads root lower) :
    ∃ inner, document.scopeOf lower = .shadow inner ∧ document.Leads root inner := by
  obtain ⟨steps, reached⟩ := leads
  induction steps generalizing lower with
  | zero =>
    rw [← reached.eq_of_zero]
    exact ⟨root, wellFormed.scopeOf_shadowRoot isRoot, .refl document root⟩
  | succ steps ih =>
    obtain ⟨parent, children, upper, known, listed⟩ := reached.last
    obtain ⟨above, storedParent, rfl⟩ := get?_of_childrenOf? known
    obtain ⟨node, stored, linked⟩ := wellFormed.linked storedParent listed
    cases isInner : document.isShadowRoot lower with
    | true => exact ⟨lower, wellFormed.scopeOf_shadowRoot isInner, steps + 1, reached⟩
    | false =>
      rw [wellFormed.scopeOf_child stored linked isInner]
      exact ih upper

/-- The scope around a shadow root does not go on below it. -/
theorem scopeOf_ne_below (wellFormed : document.WellFormed) {parent root lower : Handle}
    {above : ContentNode} (stored : document.get? parent = some above)
    (listed : root ∈ above.children) (isRoot : document.isShadowRoot root = true)
    (leads : document.Leads root lower) : document.scopeOf lower ≠ document.scopeOf parent := by
  intro same
  obtain ⟨inner, scope, below⟩ := wellFormed.exists_scopeOf_below isRoot leads
  rw [scope] at same
  have outer := (wellFormed.leads_of_scopeOf (contains_of_get? stored) same.symm).2
  exact wellFormed.not_leads_to_parent stored listed (below.trans outer)

/-- The search for the slots of a shadow tree meets those on the way down that are in its scope. -/
theorem slotsBelow_eq_filter (wellFormed : document.WellFormed) (depth : Nat) (handle : Handle) :
    document.slotsBelow depth handle =
      (document.descend depth handle).filter (document.isSlotIn (document.scopeOf handle)) := by
  induction depth generalizing handle with
  | zero => rfl
  | succ depth ih =>
    simp only [slotsBelow, descend]
    cases stored : document.get? handle with
    | none => rfl
    | some node =>
      have slot : document.isSlotIn (document.scopeOf handle) handle = node.kind.isSlot := by
        rw [isSlotIn, kind?, stored, Option.map_some, Option.any_some, beq_self_eq_true,
          Bool.and_true]
      have plain : ∀ child ∈ node.children.filter (! document.isShadowRoot ·),
          document.slotsBelow depth child = (document.descend depth child).filter
            (document.isSlotIn (document.scopeOf handle)) := by
        intro child kept
        obtain ⟨listed, plain⟩ := List.mem_filter.mp kept
        obtain ⟨below, storedChild, linked⟩ := wellFormed.linked stored listed
        rw [ih, wellFormed.scopeOf_child storedChild linked (by simpa using plain)]
      have entered : ∀ child ∈ node.children, (! document.isShadowRoot child) = false →
          (document.descend depth child).filter
            (document.isSlotIn (document.scopeOf handle)) = [] := by
        intro child listed isRoot
        rw [List.filter_eq_nil_iff]
        intro lower met isSlot
        rw [descend_eq_walk] at met
        obtain ⟨⟨steps, -, reached⟩, -⟩ := Walk.mem_descend.mp met
        rw [isSlotIn, Bool.and_eq_true, beq_iff_eq] at isSlot
        exact wellFormed.scopeOf_ne_below stored listed (by simpa using isRoot) ⟨steps, reached⟩
          isSlot.2
      dsimp only
      rw [List.flatMap_congr plain, Lists.flatMap_filter_of_nil entered, ← List.filter_flatMap,
        List.filter_cons, slot]

theorem slotsOf_eq_slotsIn (wellFormed : document.WellFormed) {root : Handle}
    (stored : document.contains root = true) (isRoot : document.isShadowRoot root = true) :
    document.slotsOf root = document.slotsIn root := by
  rw [slotsOf, wellFormed.slotsBelow_eq_filter, wellFormed.scopeOf_shadowRoot isRoot, slotsIn,
    wellFormed.below_eq_descend stored]

theorem mem_slotsOf (wellFormed : document.WellFormed) {root slot : Handle}
    (listed : slot ∈ document.slotsOf root) :
    document.Leads root slot ∧ (document.kind? slot).any Kind.isSlot = true ∧
      document.scopeOf slot = document.scopeOf root := by
  rw [slotsOf, wellFormed.slotsBelow_eq_filter, descend_eq_walk, List.mem_filter, isSlotIn,
    Bool.and_eq_true, beq_iff_eq] at listed
  obtain ⟨met, isSlot, scope⟩ := listed
  obtain ⟨⟨steps, -, reached⟩, -⟩ := Walk.mem_descend.mp met
  exact ⟨⟨steps, reached⟩, isSlot, scope⟩

end WellFormed

/-! ### What is assigned -/

theorem goesTo_iff {node : ContentNode} {name : String} : node.goesTo name = true ↔
    (∃ tag, node.kind = .element tag) ∧ node.attributes.valueOrEmpty "slot" = name ∨
      node.kind = .text ∧ name = "" := by
  unfold ContentNode.goesTo
  cases node.kind <;> simp

/-- The first slot of a name has that name. -/
theorem get?_of_firstSlot? {root slot : Handle} {name : String}
    (first : document.firstSlot? root name = some slot) :
    slot ∈ document.slotsOf root ∧ ∃ node, document.get? slot = some node ∧ node.slotName = name := by
  rw [firstSlot?_eq_find?] at first
  have named := List.find?_some first
  rw [isNamed, Option.any_eq_true] at named
  obtain ⟨node, stored, same⟩ := named
  exact ⟨List.mem_of_find?_eq_some first, node, stored, eq_of_beq same⟩

/-- A slot with content is one of the slots. -/
theorem mem_slotsOf_of_assigned {root slot light : Handle}
    (listed : light ∈ document.assigned root slot) : slot ∈ document.slotsOf root := by
  obtain ⟨-, -, node, -, -, -, -, -, first⟩ := mem_assigned listed
  exact (get?_of_firstSlot? first).1

theorem assigned_unique {root slot other light : Handle} (left : light ∈ document.assigned root slot)
    (right : light ∈ document.assigned root other) : other = slot := by
  obtain ⟨-, -, node, -, -, -, stored, -, first⟩ := mem_assigned left
  obtain ⟨-, -, node', -, -, -, stored', -, first'⟩ := mem_assigned right
  rw [stored] at stored'
  cases stored'
  rw [first] at first'
  exact (Option.some.inj first').symm

/-- The one slot of a shadow tree that shows a child of the host. -/
theorem find_slotsOf_eq_some {root slot light : Handle} :
    ((document.slotsOf root).find? fun slot => (document.assigned root slot).contains light) =
        some slot ↔ light ∈ document.assigned root slot := by
  constructor
  · intro found
    have shows := List.find?_some found
    exact List.contains_iff_mem.mp shows
  · intro listed
    refine Lists.find?_eq_some_of_unique (mem_slotsOf_of_assigned listed)
      (List.contains_iff_mem.mpr listed) ?_
    intro other _ shows
    exact assigned_unique listed (List.contains_iff_mem.mp shows)

/-- A slot with content is a slot of the shadow tree that its content is assigned in. -/
theorem WellFormed.slot_of_assigned (wellFormed : document.WellFormed) {root slot light : Handle}
    (isRoot : document.isShadowRoot root = true) (listed : light ∈ document.assigned root slot) :
    (document.kind? slot).any Kind.isSlot = true ∧ document.scopeOf slot = .shadow root := by
  obtain ⟨-, isSlot, scope⟩ := wellFormed.mem_slotsOf (mem_slotsOf_of_assigned listed)
  exact ⟨isSlot, scope.trans (wellFormed.scopeOf_shadowRoot isRoot)⟩

/-- Where there is a slot of a name, there is a first one. -/
theorem exists_firstSlot? {root slot : Handle} {node : ContentNode}
    (listed : slot ∈ document.slotsOf root) (stored : document.get? slot = some node) :
    ∃ first, document.firstSlot? root node.slotName = some first := by
  rw [firstSlot?_eq_find?, ← Option.isSome_iff_exists, List.find?_isSome]
  exact ⟨slot, listed, by rw [isNamed, stored, Option.any_some, beq_self_eq_true]⟩

/-- Of the children of one node only one leads to a node below. -/
theorem WellFormed.child_unique (wellFormed : document.WellFormed) {parent left right lower : Handle}
    {above : ContentNode} (stored : document.get? parent = some above)
    (listedLeft : left ∈ above.children) (listedRight : right ∈ above.children)
    (leadsLeft : document.Leads left lower) (leadsRight : document.Leads right lower) :
    left = right := by
  rcases wellFormed.leads_total leadsLeft leadsRight with leads | leads
  · rcases wellFormed.leads_of_child stored listedRight leads with same | up
    · exact same
    · exact absurd up (wellFormed.not_leads_to_parent stored listedLeft)
  · rcases wellFormed.leads_of_child stored listedLeft leads with same | up
    · exact same.symm
    · exact absurd up (wellFormed.not_leads_to_parent stored listedRight)

section Host

variable {root host slot light : Handle} {rootNode above : ContentNode}
  (storedRoot : document.get? root = some rootNode) (linked : rootNode.parent = some host)
  (storedHost : document.get? host = some above)
include storedRoot linked storedHost

theorem assigned_eq {name : String}
    (named : ((document.get? slot).map ContentNode.slotName).getD "" = name) :
    document.assigned root slot =
      if document.firstSlot? root name = some slot then
        above.children.filter fun light => (document.get? light).any (·.goesTo name)
      else [] := by
  simp only [assigned, storedRoot, Option.bind_some, linked, storedHost, named]

theorem assigned_sublist (slot : Handle) :
    (document.assigned root slot).Sublist above.children := by
  rw [assigned_eq storedRoot linked storedHost rfl]
  split
  · exact List.filter_sublist
  · exact List.nil_sublist _

/-- A child of the host is assigned to the first slot of the name that it goes to. -/
theorem mem_assigned_iff :
    light ∈ document.assigned root slot ↔
      light ∈ above.children ∧ ∃ node name, document.get? light = some node ∧
        node.goesTo name = true ∧ document.firstSlot? root name = some slot := by
  constructor
  · intro listed
    rw [assigned_eq storedRoot linked storedHost rfl] at listed
    split at listed
    · rename_i first
      obtain ⟨listed, goes⟩ := List.mem_filter.mp listed
      obtain ⟨node, stored, goes⟩ := (Option.any_eq_true _ _).mp goes
      exact ⟨listed, node, _, stored, goes, first⟩
    · cases listed
  · rintro ⟨listed, node, name, stored, goes, first⟩
    obtain ⟨-, slotNode, storedSlot, named⟩ := get?_of_firstSlot? first
    rw [← named] at goes first
    rw [assigned_eq storedRoot linked storedHost (by rw [storedSlot, Option.map_some,
      Option.getD_some]), if_pos first, List.mem_filter]
    exact ⟨listed, by rw [stored, Option.any_some, goes]⟩

/-- The slots together show the children that go to one of them. -/
theorem mem_flatMap_assigned_iff :
    light ∈ (document.slotsOf root).flatMap (document.assigned root) ↔
      light ∈ above.children ∧ ∃ node, document.get? light = some node ∧
        ∃ slot ∈ document.slotsOf root, ∃ slotNode, document.get? slot = some slotNode ∧
          node.goesTo slotNode.slotName = true := by
  rw [List.mem_flatMap]
  constructor
  · rintro ⟨slot, listedSlot, listed⟩
    obtain ⟨listed, node, name, stored, goes, first⟩ :=
      (mem_assigned_iff storedRoot linked storedHost).mp listed
    obtain ⟨-, slotNode, storedSlot, rfl⟩ := get?_of_firstSlot? first
    exact ⟨listed, node, stored, slot, listedSlot, slotNode, storedSlot, goes⟩
  · rintro ⟨listed, node, stored, slot, listedSlot, slotNode, storedSlot, goes⟩
    obtain ⟨first, found⟩ := exists_firstSlot? listedSlot storedSlot
    exact ⟨first, (get?_of_firstSlot? found).1,
      (mem_assigned_iff storedRoot linked storedHost).mpr ⟨listed, node, _, stored, goes, found⟩⟩

/-- A slot below a shadow root shows children of the host in that shadow tree, or in none. -/
theorem WellFormed.root_of_assigned (wellFormed : document.WellFormed) {asked : Handle}
    (leads : document.Leads root slot) (shown : light ∈ document.assigned asked slot)
    (listed : light ∈ above.children) : asked = root := by
  obtain ⟨askedHost, askedAbove, node, linkedAsked, storedAskedHost, listedAsked, stored, -⟩ :=
    mem_assigned shown
  -- What is asked about has the same host, since a node has one parent.
  have sameHost := wellFormed.parent_of_mem_children storedAskedHost listedAsked stored
  rw [wellFormed.parent_of_mem_children storedHost listed stored] at sameHost
  cases sameHost
  obtain ⟨askedNode, storedAsked, linkedAsked⟩ := Option.bind_eq_some_iff.mp linkedAsked
  obtain ⟨leadsAsked, -⟩ := wellFormed.mem_slotsOf (mem_slotsOf_of_assigned shown)
  exact wellFormed.child_unique storedHost
    (wellFormed.listed_of_parent storedAsked linkedAsked storedHost)
    (wellFormed.listed_of_parent storedRoot linked storedHost) leadsAsked leads

end Host

/-! ### The slots share out the children of a host -/

/-- What the slots of a shadow tree show of the children of its host: no child twice and the children
of one slot in their old order, only the first slot of each name any, and together the elements that
name one of the slots, and the texts if one has no name. Slots of shadow trees inside show none, in
whatever shadow tree the question is asked. -/
structure SharedOut (document : Document) (root : Handle) (above : ContentNode) : Prop where
  ordered : ∀ slot, (document.assigned root slot).Sublist above.children
  disjoint : ∀ {slot other : Handle}, slot ≠ other →
    (document.assigned root slot).Disjoint (document.assigned root other)
  once : ((document.slotsIn root).flatMap (document.assigned root)).Nodup
  first : ∀ {slot : Handle}, document.assigned root slot ≠ [] →
    ∃ node, document.get? slot = some node ∧
      (document.slotsIn root).find? (document.isNamed node.slotName) = some slot
  shown : ∀ {light : Handle}, light ∈ (document.slotsIn root).flatMap (document.assigned root) ↔
    light ∈ above.children ∧ ∃ node, document.get? light = some node ∧
      ∃ slot ∈ document.slotsIn root, ∃ slotNode, document.get? slot = some slotNode ∧
        ((∃ tag, node.kind = .element tag) ∧
            node.attributes.valueOrEmpty "slot" = slotNode.attributes.valueOrEmpty "name" ∨
          node.kind = .text ∧ slotNode.attributes.valueOrEmpty "name" = "")
  nested : ∀ {slot : Handle}, document.Under slot root → document.scopeOf slot ≠ .shadow root →
    ∀ asked, (document.assigned asked slot).Disjoint above.children

/-- In a well-formed document the slots of every shadow tree share out the children of its host. -/
theorem sharedOut (wellFormed : document.WellFormed) {root host : Handle}
    {rootNode above : ContentNode} (storedRoot : document.get? root = some rootNode)
    (kind : rootNode.kind = .shadowRoot) (linked : rootNode.parent = some host)
    (storedHost : document.get? host = some above) : document.SharedOut root above := by
  have isRoot := (isShadowRoot_of_get? storedRoot).mpr kind
  have contained := contains_of_get? storedRoot
  have slots := wellFormed.slotsOf_eq_slotsIn contained isRoot
  have sublist := assigned_sublist storedRoot linked storedHost
  refine ⟨sublist, ?_, ?_, ?_, ?_, ?_⟩
  · intro slot other apart light listed listedOther
    exact apart (assigned_unique listedOther listed)
  · rw [List.nodup_flatMap]
    refine ⟨fun slot _ => (wellFormed.nodup storedHost).sublist (sublist slot), ?_⟩
    refine ((wellFormed.below_nodup contained).filter _).imp ?_
    intro slot other apart light listed listedOther
    exact apart (assigned_unique listedOther listed)
  · intro slot some
    obtain ⟨light, listed⟩ := List.exists_mem_of_ne_nil _ some
    obtain ⟨-, node, name, -, -, first⟩ := (mem_assigned_iff storedRoot linked storedHost).mp listed
    obtain ⟨-, slotNode, storedSlot, named⟩ := get?_of_firstSlot? first
    refine ⟨slotNode, storedSlot, ?_⟩
    rw [← slots, named, ← firstSlot?_eq_find?, first]
  · intro light
    rw [← slots, mem_flatMap_assigned_iff storedRoot linked storedHost]
    simp only [goesTo_iff, ContentNode.slotName]
  · intro slot under inner asked light shown listed
    have leads := (wellFormed.under_iff_leads under.contains_lower).mp under
    obtain rfl := wellFormed.root_of_assigned storedRoot linked storedHost leads shown listed
    exact inner (wellFormed.slot_of_assigned isRoot shown).2

/-- A host with an element for each of two slots, one for none, and two texts. Behind the slot without
a name there is a host in its shadow tree, with a slot of its own and another one of the first name
among its children, and after that a third slot of the name. -/
def namedSlotsPage : Subtree :=
  let slot (handle : Handle) : Subtree := .single handle (.element "slot")
  let named (handle : Handle) : Subtree := (slot handle).withAttribute "name" "title"
  let wanting (handle : Handle) (name : String) : Subtree :=
    (Subtree.single handle (.element "p")).withAttribute "slot" name
  let innerTree : Subtree := { Subtree.single ⟨5⟩ .shadowRoot with children := [named ⟨6⟩] }
  let innerHost : Subtree :=
    { Subtree.single ⟨4⟩ (.element "div") with children := [innerTree, named ⟨7⟩] }
  let outerTree : Subtree :=
    { Subtree.single ⟨2⟩ .shadowRoot with children := [slot ⟨3⟩, innerHost, named ⟨8⟩] }
  { Subtree.single ⟨0⟩ .document with
    children := [{ Subtree.single ⟨1⟩ (.element "div") with
      children := [.single ⟨9⟩ .text, outerTree, wanting ⟨10⟩ "title", wanting ⟨11⟩ "none",
        wanting ⟨12⟩ "", .single ⟨13⟩ .text, wanting ⟨14⟩ "title"] }] }

theorem sharedOut_namedSlotsPage :
    namedSlotsPage.Distinct ∧ ∃ rootNode above,
      (ofSubtree namedSlotsPage).get? ⟨2⟩ = some rootNode ∧ rootNode.kind = .shadowRoot ∧
      rootNode.parent = some ⟨1⟩ ∧ (ofSubtree namedSlotsPage).get? ⟨1⟩ = some above ∧
      (ofSubtree namedSlotsPage).SharedOut ⟨2⟩ above ∧
      (ofSubtree namedSlotsPage).slotsIn ⟨2⟩ = [⟨3⟩, ⟨7⟩, ⟨8⟩] ∧
      (ofSubtree namedSlotsPage).assigned ⟨2⟩ ⟨3⟩ = [⟨9⟩, ⟨12⟩, ⟨13⟩] ∧
      (ofSubtree namedSlotsPage).assigned ⟨2⟩ ⟨7⟩ = [⟨10⟩, ⟨14⟩] ∧
      (ofSubtree namedSlotsPage).assigned ⟨2⟩ ⟨8⟩ = [] ∧
      (ofSubtree namedSlotsPage).assigned ⟨2⟩ ⟨6⟩ = [] := by
  have distinct : namedSlotsPage.Distinct := by decide +kernel
  obtain ⟨rootNode, storedRoot, kind, linked⟩ : ∃ node,
      (ofSubtree namedSlotsPage).get? ⟨2⟩ = some node ∧ node.kind = .shadowRoot ∧
        node.parent = some ⟨1⟩ := ⟨_, rfl, by decide +kernel, by decide +kernel⟩
  obtain ⟨above, storedHost⟩ : ∃ node, (ofSubtree namedSlotsPage).get? ⟨1⟩ = some node :=
    exists_of_contains (by decide +kernel)
  exact ⟨distinct, rootNode, above, storedRoot, kind, linked, storedHost,
    sharedOut (wellFormed_ofSubtree distinct) storedRoot kind linked storedHost,
    by decide +kernel, by decide +kernel, by decide +kernel, by decide +kernel, by decide +kernel⟩

end Accessibility.Document
