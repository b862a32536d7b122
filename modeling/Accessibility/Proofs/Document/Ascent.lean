import Accessibility.Document.Ascent
import Accessibility.Proofs.Document.Edits
import Accessibility.Proofs.Document.Preorder
import Mathlib.Order.Defs.Unbundled

/-!
Scopes told in two ways: the layout carries them down through hosts and out again with what is
assigned to slots, and the searches look for them upwards. In a well-formed document the searches
end, and both tell the same.
-/

set_option autoImplicit false

namespace Accessibility.Document

variable {document : Document}

/-! ### The searches and the ways they take -/

theorem length_ascend_le (document : Document) (height : Nat) (current : Option Handle) :
    (document.ascend height current).length ≤ height := by
  induction height generalizing current with
  | zero => exact Nat.le_refl 0
  | succ height ih =>
    cases current with
    | none => exact Nat.zero_le _
    | some handle =>
      rw [ascend]
      cases document.get? handle with
      | none => exact Nat.zero_le _
      | some node => exact Nat.succ_le_succ (ih node.parent)

/-- The search finds the first shadow root on the way up, or else the document once the way has
ended. -/
theorem seekScope_eq (document : Document) (height : Nat) (current : Option Handle) :
    document.seekScope height current =
      match (document.ascend height current).find? document.isShadowRoot with
      | some root => some (.shadow root)
      | none => if (document.ascend height current).length < height then some .document else none := by
  induction height generalizing current with
  | zero => rfl
  | succ height ih =>
    cases current with
    | none => rfl
    | some handle =>
      rw [seekScope, ascend]
      cases stored : document.get? handle with
      | none => rfl
      | some node =>
        dsimp only
        by_cases kind : node.kind = .shadowRoot
        · rw [if_pos kind, List.find?_cons_of_pos ((isShadowRoot_of_get? stored).mpr kind)]
        · rw [if_neg kind, List.find?_cons_of_neg (mt (isShadowRoot_of_get? stored).mp kind), ih,
            List.length_cons]
          simp only [Nat.add_lt_add_iff_right]

/-- The search finds a scope on the way out, or fails to once the way has ended. -/
theorem seekOuter_eq (document : Document) (outer : Scope) (height : Nat) (inner : Scope) :
    document.seekOuter outer height (some inner) =
      if (document.ascendScopes height inner).contains outer then some true
      else if (document.ascendScopes height inner).length < height then some false else none := by
  induction height generalizing inner with
  | zero => rfl
  | succ height ih =>
    rw [seekOuter, ascendScopes, List.contains_cons]
    by_cases same : inner = outer
    · rw [if_pos same, same, beq_self_eq_true, Bool.true_or, if_pos rfl]
    · rw [if_neg same, beq_false_of_ne (Ne.symm same), Bool.false_or, List.length_cons]
      simp only [Nat.add_lt_add_iff_right]
      cases document.enclosingScope? inner with
      | none => cases height <;> rfl
      | some around => exact ih around

theorem length_ascendScopes_le (document : Document) (height : Nat) (scope : Scope) :
    (document.ascendScopes height scope).length ≤ height := by
  induction height generalizing scope with
  | zero => exact Nat.le_refl 0
  | succ height ih =>
    rw [ascendScopes, List.length_cons]
    cases document.enclosingScope? scope with
    | none => exact Nat.succ_le_succ (Nat.zero_le _)
    | some around => exact Nat.succ_le_succ (ih around)

namespace WellFormed

/-- The ways up from all content end, whether it is stored or not. -/
theorem ascend_eq_lineage (wellFormed : document.WellFormed) (handle : Handle) {height : Nat}
    (enough : document.size ≤ height) :
    document.ascend height (some handle) = document.lineage handle ∧
      (document.lineage handle).length ≤ document.size := by
  refine ⟨?_, length_ascend_le document _ _⟩
  cases stored : document.contains handle with
  | false =>
    have absent := get?_eq_none_of_not_contains stored
    have empty (height : Nat) : document.ascend height (some handle) = [] := by
      cases height with
      | zero => rfl
      | succ height => simp only [ascend, absent]
    rw [lineage, empty, empty]
  | true => exact wellFormed.walkable.up stored enough

theorem seekScope_eq_scopeOf (wellFormed : document.WellFormed) (handle : Handle) {steps : Nat}
    (enough : document.size < steps) :
    document.seekScope steps (some handle) = some (document.scopeOf handle) := by
  obtain ⟨ended, short⟩ := wellFormed.ascend_eq_lineage handle (Nat.le_of_lt enough)
  rw [seekScope_eq, ended, scopeOf, if_pos (Nat.lt_of_le_of_lt short enough)]
  cases (document.lineage handle).find? document.isShadowRoot <;> rfl

/-! ### The scopes around a node -/

theorem scopeOf_root (wellFormed : document.WellFormed)
    (plain : document.isShadowRoot document.root = false) :
    document.scopeOf document.root = .document := by
  rw [scopeOf, wellFormed.lineage_root, List.find?_cons_of_neg (by simp [plain]), List.find?_nil]

/-- A shadow root begins a scope inside that of its host, and any other node is in the scope of its
parent. -/
theorem scopeOf_below (wellFormed : document.WellFormed) {handle parent : Handle}
    {node : ContentNode} (stored : document.get? handle = some node)
    (linked : node.parent = some parent) :
    document.isShadowRoot handle = true ∧ document.scopeOf handle = .shadow handle ∧
        document.enclosingScope? (.shadow handle) = some (document.scopeOf parent) ∨
      document.isShadowRoot handle = false ∧ document.scopeOf handle = document.scopeOf parent := by
  cases isRoot : document.isShadowRoot handle with
  | true =>
    refine .inl ⟨rfl, wellFormed.scopeOf_shadowRoot isRoot, ?_⟩
    rw [enclosingScope?, stored, Option.bind_some, linked, Option.map_some]
  | false => exact .inr ⟨rfl, wellFormed.scopeOf_child stored linked isRoot⟩

theorem enclosingScope?_root (wellFormed : document.WellFormed) :
    document.enclosingScope? (document.scopeOf document.root) = none := by
  obtain ⟨top, stored, parentless⟩ := wellFormed.root_stored
  cases isRoot : document.isShadowRoot document.root with
  | true => rw [wellFormed.scopeOf_shadowRoot isRoot, enclosingScope?, stored, Option.bind_some,
      parentless, Option.map_none]
  | false => rw [wellFormed.scopeOf_root isRoot, enclosingScope?]

/-- The way out from the scope of a node ends, since each scope on it leaves a node of the way up
behind. -/
theorem ascendScopes_scopeOf (wellFormed : document.WellFormed) {steps : Nat} {handle : Handle}
    (reached : Walk.Reaches document.childrenOf? steps document.root handle) {height : Nat}
    (high : steps < height) :
    document.ascendScopes height (document.scopeOf handle) =
      document.ascendScopes (steps + 1) (document.scopeOf handle) := by
  -- A shadow root takes one scope of the way out and one node of the way up; any other node, one node
  -- of the way up alone.
  induction steps generalizing handle height with
  | zero =>
    obtain ⟨height, rfl⟩ : ∃ less, height = less + 1 := ⟨height - 1, by omega⟩
    rw [← reached.eq_of_zero, ascendScopes, ascendScopes, wellFormed.enclosingScope?_root]
  | succ steps ih =>
    obtain ⟨parent, node, upper, stored, linked⟩ := wellFormed.last_step reached
    rcases wellFormed.scopeOf_below stored linked with ⟨-, own, around⟩ | ⟨-, inherited⟩
    · obtain ⟨height, rfl⟩ : ∃ less, height = less + 1 := ⟨height - 1, by omega⟩
      rw [own, ascendScopes, ascendScopes, around]
      exact congrArg _ (ih upper (Nat.lt_of_succ_lt_succ high))
    · rw [inherited, ih upper (by omega), ih upper (by omega : steps < steps + 1 + 1)]

/-- The ways out from all scopes end, whether a node of the document owns them or not. -/
theorem ascendScopes_eq_enclosingScopes (wellFormed : document.WellFormed) (scope : Scope)
    {height : Nat} (enough : document.size < height) :
    document.ascendScopes height scope = document.enclosingScopes scope ∧
      (document.enclosingScopes scope).length ≤ document.size := by
  have positive := wellFormed.steps_lt_size (.here document.root)
  obtain ⟨height, rfl⟩ : ∃ less, height = less + 1 := ⟨height - 1, by omega⟩
  rw [enclosingScopes, ascendScopes, ascendScopes]
  cases around : document.enclosingScope? scope with
  | none => exact ⟨rfl, positive⟩
  | some next =>
    obtain ⟨root, rfl⟩ : ∃ root, scope = .shadow root := by
      cases scope with
      | document => cases around
      | shadow root => exact ⟨root, rfl⟩
    obtain ⟨host, linked, rfl⟩ := Option.map_eq_some_iff.mp around
    obtain ⟨node, stored, linked⟩ := Option.bind_eq_some_iff.mp linked
    obtain ⟨above, storedHost, listed⟩ := wellFormed.mem_children_of_parent stored linked
    obtain ⟨steps, reached⟩ := wellFormed.root_leads (contains_of_get? storedHost)
    have bound := wellFormed.steps_lt_size (reached.snoc (childrenOf?_of_get? storedHost) listed)
    dsimp only
    rw [wellFormed.ascendScopes_scopeOf reached (by omega : steps < document.size),
      wellFormed.ascendScopes_scopeOf reached (by omega : steps < height)]
    exact ⟨rfl, Nat.succ_le_of_lt (Nat.lt_of_le_of_lt (length_ascendScopes_le document _ _) bound)⟩

theorem seekOuter_eq_encloses (wellFormed : document.WellFormed) (outer inner : Scope) {steps : Nat}
    (enough : document.size < steps) :
    document.seekOuter outer steps (some inner) = some (document.encloses outer inner) := by
  obtain ⟨ended, short⟩ := wellFormed.ascendScopes_eq_enclosingScopes inner enough
  rw [seekOuter_eq, ended, if_pos (Nat.lt_of_le_of_lt short enough), encloses]
  cases (document.enclosingScopes inner).contains outer <;> rfl

end WellFormed

theorem contains_of_isShadowRoot {handle : Handle} (isRoot : document.isShadowRoot handle = true) :
    document.contains handle = true := by
  obtain ⟨node, stored, -⟩ := Option.map_eq_some_iff.mp (eq_of_beq isRoot)
  exact contains_of_get? stored

/-- The scopes around a node: the document, and those of the shadow roots among it and its
ancestors. -/
def Around (document : Document) (handle : Handle) : Scope → Prop
  | .document => True
  | .shadow root => document.isShadowRoot root = true ∧ document.Under handle root

/-- A scope that the document has: its own, or that of a stored shadow root. -/
def HasScope (document : Document) : Scope → Prop
  | .document => True
  | .shadow root => document.isShadowRoot root = true

namespace WellFormed

/-- Around a node are its own scope and those around its parent. -/
theorem around_below (wellFormed : document.WellFormed) {handle parent : Handle}
    {node : ContentNode} (stored : document.get? handle = some node)
    (linked : node.parent = some parent) (scope : Scope) :
    document.Around handle scope ↔
      scope = .shadow handle ∧ document.isShadowRoot handle = true ∨
        document.Around parent scope := by
  obtain ⟨above, storedParent, listed⟩ := wellFormed.mem_children_of_parent stored linked
  cases scope with
  | document => exact ⟨fun _ => .inr trivial, fun _ => trivial⟩
  | shadow root =>
    simp only [Around, Scope.shadow.injEq,
      wellFormed.under_iff_leads (contains_of_get? stored),
      wellFormed.under_iff_leads (contains_of_get? storedParent)]
    constructor
    · rintro ⟨isRoot, leads⟩
      rcases wellFormed.leads_of_child storedParent listed leads with rfl | leads
      · exact .inl ⟨rfl, isRoot⟩
      · exact .inr ⟨isRoot, leads⟩
    · rintro (⟨rfl, isRoot⟩ | ⟨isRoot, leads⟩)
      · exact ⟨isRoot, .refl document _⟩
      · exact ⟨isRoot, leads.trans (.step storedParent listed)⟩

theorem mem_ascendScopes (wellFormed : document.WellFormed)
    (plain : document.isShadowRoot document.root = false) {steps : Nat} {handle : Handle}
    (reached : Walk.Reaches document.childrenOf? steps document.root handle) {height : Nat}
    (high : steps < height) (scope : Scope) :
    scope ∈ document.ascendScopes height (document.scopeOf handle) ↔
      document.Around handle scope := by
  induction steps generalizing handle height with
  | zero =>
    obtain ⟨height, rfl⟩ : ∃ less, height = less + 1 := ⟨height - 1, by omega⟩
    rw [← reached.eq_of_zero, ascendScopes, wellFormed.enclosingScope?_root,
      wellFormed.scopeOf_root plain, List.mem_singleton]
    cases scope with
    | document => exact iff_of_true rfl trivial
    | shadow root =>
      refine iff_of_false Scope.noConfusion ?_
      rintro ⟨isRoot, under⟩
      rw [wellFormed.under_iff_leads wellFormed.contains_root] at under
      rw [wellFormed.eq_of_leads_root under, plain] at isRoot
      cases isRoot
  | succ steps ih =>
    obtain ⟨parent, node, upper, stored, linked⟩ := wellFormed.last_step reached
    rw [wellFormed.around_below stored linked]
    rcases wellFormed.scopeOf_below stored linked with ⟨isRoot, own, around⟩ | ⟨isPlain, inherited⟩
    · obtain ⟨height, rfl⟩ : ∃ less, height = less + 1 := ⟨height - 1, by omega⟩
      rw [own, ascendScopes, around, List.mem_cons, ih upper (Nat.lt_of_succ_lt_succ high), isRoot,
        eq_self_iff_true, and_true]
    · rw [inherited, ih upper (Nat.lt_of_succ_lt high), isPlain]
      simp only [Bool.false_eq_true, and_false, false_or]

theorem encloses_scopeOf (wellFormed : document.WellFormed)
    (plain : document.isShadowRoot document.root = false) {handle : Handle}
    (stored : document.contains handle = true) (outer : Scope) :
    document.encloses outer (document.scopeOf handle) = true ↔ document.Around handle outer := by
  obtain ⟨steps, reached⟩ := wellFormed.root_leads stored
  have bound := wellFormed.steps_lt_size reached
  rw [encloses, List.contains_iff_mem, enclosingScopes,
    wellFormed.mem_ascendScopes plain reached (Nat.lt_succ_of_lt bound)]

/-! ### The order of the scopes -/

theorem encloses_document (wellFormed : document.WellFormed)
    (plain : document.isShadowRoot document.root = false) {inner : Scope}
    (has : document.HasScope inner) : document.encloses .document inner = true := by
  cases inner with
  | document => exact document.encloses_self .document
  | shadow root =>
    rw [← wellFormed.scopeOf_shadowRoot has,
      wellFormed.encloses_scopeOf plain (contains_of_isShadowRoot has)]
    trivial

theorem encloses_shadow_shadow (wellFormed : document.WellFormed)
    (plain : document.isShadowRoot document.root = false) {outer inner : Handle}
    (has : document.isShadowRoot inner = true) :
    document.encloses (.shadow outer) (.shadow inner) = true ↔
      document.isShadowRoot outer = true ∧ document.Leads outer inner := by
  have stored := contains_of_isShadowRoot has
  rw [← wellFormed.scopeOf_shadowRoot has, wellFormed.encloses_scopeOf plain stored,
    Around, wellFormed.under_iff_leads stored]

/-- The scopes of a document are partially ordered, each around those that it encloses. -/
theorem encloses_isPartialOrder (wellFormed : document.WellFormed)
    (plain : document.isShadowRoot document.root = false) :
    IsPartialOrder {scope // document.HasScope scope}
      fun outer inner => document.encloses outer.val inner.val = true where
  refl := fun scope => document.encloses_self scope.val
  trans := by
    rintro ⟨first | first, hasFirst⟩ ⟨second, hasSecond⟩ ⟨third, hasThird⟩ one other
    · exact wellFormed.encloses_document plain hasThird
    · cases second with
      | document => cases one
      | shadow second =>
        cases third with
        | document => cases other
        | shadow third =>
          obtain ⟨-, upper⟩ := (wellFormed.encloses_shadow_shadow plain hasSecond).mp one
          obtain ⟨-, lower⟩ := (wellFormed.encloses_shadow_shadow plain hasThird).mp other
          exact (wellFormed.encloses_shadow_shadow plain hasThird).mpr
            ⟨hasFirst, upper.trans lower⟩
  antisymm := by
    rintro ⟨left | left, hasLeft⟩ ⟨right | right, hasRight⟩ one other
    · rfl
    · cases other
    · cases one
    · obtain ⟨-, down⟩ := (wellFormed.encloses_shadow_shadow plain hasRight).mp one
      obtain ⟨-, up⟩ := (wellFormed.encloses_shadow_shadow plain hasLeft).mp other
      cases wellFormed.leads_antisymm (contains_of_isShadowRoot hasLeft) down up
      rfl

end WellFormed

/-- The scopes that the layout carries down and those that are found upwards are the same, and what is
found of them orders the scopes of the document. -/
structure ScopesAgree (document : Document) : Prop where
  found : ∀ (handle : Handle), ∀ steps > document.size,
    document.seekScope steps (some handle) = some (document.scopeOf handle)
  laidOut : ∀ entry ∈ document.layout, entry.scope = document.scopeOf entry.handle
  decided : ∀ (outer inner : Scope), ∀ steps > document.size,
    document.seekOuter outer steps (some inner) = some (document.encloses outer inner)
  around : ∀ {handle : Handle}, document.contains handle = true → ∀ (outer : Scope),
    document.encloses outer (document.scopeOf handle) = true ↔ document.Around handle outer
  ordered : IsPartialOrder {scope // document.HasScope scope}
    fun outer inner => document.encloses outer.val inner.val = true

/-- In a well-formed document whose root is of the document kind, every search upwards ends, and each
entry of the layout has the scope that is found for its node. The scopes that enclose it are those of
the document and of the shadow roots on the way up. -/
theorem scopes_agree (wellFormed : document.WellFormed)
    (top : document.kind? document.root = some .document) : document.ScopesAgree := by
  have plain := not_shadowRoot_root top
  exact
    { found := fun handle _ enough => wellFormed.seekScope_eq_scopeOf handle enough
      laidOut := fun _ listed => (entered_layout wellFormed listed).scope plain
      decided := fun outer inner _ enough => wellFormed.seekOuter_eq_encloses outer inner enough
      around := fun stored => wellFormed.encloses_scopeOf plain stored
      ordered := wellFormed.encloses_isPartialOrder plain }

/-- The light child 12 goes through the slot 9 in a shadow tree to the slot 5 in another one inside,
and is laid out in the scope of the document; the fallback 8 stays in the inner scope. -/
theorem scopes_agree_slottedPage :
    slottedPage.Distinct ∧
      (ofSubtree slottedPage).kind? (ofSubtree slottedPage).root = some .document ∧
      (ofSubtree slottedPage).ScopesAgree ∧
      ⟨⟨12⟩, some ⟨3⟩, (ofSubtree slottedPage).scopeOf ⟨12⟩⟩ ∈ (ofSubtree slottedPage).layout ∧
      ⟨⟨8⟩, some ⟨3⟩, (ofSubtree slottedPage).scopeOf ⟨8⟩⟩ ∈ (ofSubtree slottedPage).layout ∧
      (ofSubtree slottedPage).Around ⟨8⟩ (.shadow ⟨2⟩) ∧
      ¬ (ofSubtree slottedPage).Around ⟨12⟩ (.shadow ⟨2⟩) := by
  have distinct : slottedPage.Distinct := by decide +kernel
  have top : (ofSubtree slottedPage).kind? (ofSubtree slottedPage).root = some .document := by
    decide +kernel
  have agree := scopes_agree (wellFormed_ofSubtree distinct) top
  refine ⟨distinct, top, agree, by decide +kernel, by decide +kernel, ?_, ?_⟩
  · exact (agree.around (by decide +kernel) _).mp (by decide +kernel)
  · intro around
    have enclosed := (agree.around (by decide +kernel) _).mpr around
    exact absurd enclosed (by decide +kernel)

end Accessibility.Document
