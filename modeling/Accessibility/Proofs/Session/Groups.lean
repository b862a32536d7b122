import Accessibility.Proofs.Derivation.Grouping
import Accessibility.Proofs.Session.Carrying

/-!
The groups of radio buttons of a session. They are read from roles, names and the places of nodes alone,
so whatever the root is, they are always as if they had just been derived; and they are the classes of an
equivalence relation.
-/

set_option autoImplicit false

namespace Accessibility

/-! ### Groups that are carried over -/

namespace Tree.Synced

variable {document document' : Document} {stale : RelationSet} {touched : List Handle}
  {tree after : Tree}
  (synced : Tree.Synced document' touched tree after)
  (alike : Document.Alike (ContentNode.Renewable stale touched) document document')
  (aligned : Alignment.Aligned document tree)
  (fresh : stale.contains .memberOf = false)
include synced alike aligned fresh

theorem groupKey? {id : NodeId} {node : AccessibleNode} (alive : tree.live id = some node) :
    (Derivation.Source.ofTree after document').groupKey? id (node.synced document' touched) =
      (Derivation.Source.ofTree tree document).groupKey? id node := by
  have agree {id : NodeId} {node : AccessibleNode} (alive : tree.live id = some node) :
      Derivation.AgreeFor .memberOf node (node.synced document' touched) :=
    synced.agreeFor alike aligned alive fresh
  have nearest {role : Role} (steady : role.Steady) :
      after.nearest? id (·.role == role) = tree.nearest? id (·.role == role) :=
    synced.nearest? alive fun alive => (agree alive).role_beq steady
  have value : (node.synced document' touched).attributes.valueOrEmpty "name" =
      node.attributes.valueOrEmpty "name" := (agree alive).valueOrEmpty rfl
  have radio := (agree alive).role_eq_iff (show Role.radioButton.Steady by decide)
  simp only [Derivation.Source.groupKey?, Derivation.Source.ofTree, (agree alive).isNativeRadio,
    value, radio, synced.root, nearest (show Role.form.Steady by decide),
    nearest (show Role.radioGroup.Steady by decide)]

theorem groups_eq :
    (Derivation.Source.ofTree after document').groups =
      (Derivation.Source.ofTree tree document).groups := by
  refine Derivation.Source.groups_congr ?_
  rw [Derivation.Source.grouped_eq, Derivation.Source.grouped_eq]
  show after.preorder.filterMap _ = tree.preorder.filterMap _
  rw [synced.preorder]
  refine List.filterMap_congr fun id listed => ?_
  obtain ⟨node, alive⟩ := synced.soundBefore.mem_preorder.mp listed
  show ((after.get? id).bind _).map _ = ((tree.get? id).bind _).map _
  rw [get?_of_live alive, get?_of_live (synced.live_of_live alive), Option.bind_some,
    Option.bind_some, synced.groupKey? alike aligned fresh alive]

end Tree.Synced

namespace Session

theorem groups_of_reachable {subtree : Subtree} (distinct : subtree.Distinct) {capacity : Nat}
    {verifies : Bool} {session : Session} (reachable : Reachable subtree capacity verifies session) :
    session.history.current.edges.memberOf = session.source.groups := by
  induction reachable with
  | start started =>
    have sound := ((Reachable.start started).settled distinct).1.sound
    rw [edges_of_start started sound]
    rfl
  | @apply session reached changes sound ih =>
    obtain ⟨settled, root⟩ := reached.settled distinct
    obtain ⟨compared, carries⟩ := apply_carries settled (root.symm ▸ sound)
    -- Groups read no scopes, so those carried over are those of the tree for a shadow root as well.
    cases fresh : compared.contains .memberOf with
    | true => exact carries.anew fresh
    | false =>
      have carried := carries.carried fresh
      have same := carried.synced.groups_eq carried.alike settled.aligned carried.stale
      exact carried.edges.trans (ih.trans same.symm)

/-- In every session that sound batches lead to, radio buttons of one form and name, and others around
which the same radio group is the nearest, are members of each other's groups, and no other nodes are. -/
theorem groupsRadios_of_reachable {subtree : Subtree} (distinct : subtree.Distinct) {capacity : Nat}
    {verifies : Bool} {session : Session} (reachable : Reachable subtree capacity verifies session) :
    session.tree.GroupsRadios session.history.current.edges.memberOf := by
  have sound : session.source.tree.Sound := (reachable.settled distinct).1.sound
  rw [groups_of_reachable distinct reachable]
  exact Derivation.Source.groupsRadios sound

/-- A form with a nested one, a radio outside, and a radio group that holds a native radio without a name.
The root is a shadow root. -/
def radioPage : Subtree :=
  let radio (handle : Nat) (name : String) : Subtree :=
    ((Subtree.element ⟨handle⟩ "input").withAttribute "type" "radio").withAttribute "name" name
  { Subtree.single ⟨0⟩ .shadowRoot with
    children :=
      [{ Subtree.element ⟨1⟩ "form" with
          children :=
            [radio 2 "size",
              { (Subtree.element ⟨3⟩ "div").withAttribute "role" "form" with
                children := [radio 4 "size"] }] },
        radio 5 "size",
        { (Subtree.element ⟨6⟩ "div").withAttribute "role" "radiogroup" with
          children :=
            [(Subtree.element ⟨7⟩ "span").withAttribute "role" "radio", radio 8 ""] }] }

/-- The inner form is made a group, so its radio joins that of the outer one. -/
def ungrouping : List Change :=
  [.attribute ⟨3⟩ "role" (some "group")]

theorem groupsRadios_radioPage :
    ∃ session next : Session, Reachable radioPage 4 true session ∧
      next = (session.apply ungrouping).state ∧
      session.tree.GroupsRadios session.history.current.edges.memberOf ∧
      next.tree.GroupsRadios next.history.current.edges.memberOf ∧
      session.history.current.edges.memberOf.toList =
        [(⟨3, 1⟩, [⟨3, 1⟩]), (⟨5, 1⟩, [⟨5, 1⟩]), (⟨6, 1⟩, [⟨6, 1⟩]), (⟨8, 1⟩, [⟨8, 1⟩])] ∧
      next.history.current.edges.memberOf.toList =
        [(⟨3, 1⟩, [⟨3, 1⟩, ⟨5, 1⟩]), (⟨5, 1⟩, [⟨3, 1⟩, ⟨5, 1⟩]), (⟨6, 1⟩, [⟨6, 1⟩]),
          (⟨8, 1⟩, [⟨8, 1⟩])] := by
  have distinct : radioPage.Distinct := by decide
  have told : (Session.start radioPage 4 true).map (fun session =>
      (session.history.current.edges.memberOf.toList,
        (session.apply ungrouping).state.history.current.edges.memberOf.toList)) =
      .ok ([(⟨3, 1⟩, [⟨3, 1⟩]), (⟨5, 1⟩, [⟨5, 1⟩]), (⟨6, 1⟩, [⟨6, 1⟩]), (⟨8, 1⟩, [⟨8, 1⟩])],
        [(⟨3, 1⟩, [⟨3, 1⟩, ⟨5, 1⟩]), (⟨5, 1⟩, [⟨3, 1⟩, ⟨5, 1⟩]), (⟨6, 1⟩, [⟨6, 1⟩]),
          (⟨8, 1⟩, [⟨8, 1⟩])]) := by decide +kernel
  obtain ⟨session, -, -, -, -, starts, -⟩ := start_done distinct 4
  rw [starts] at told
  obtain ⟨before, after⟩ := Prod.mk.inj (Except.ok.inj told)
  have reachable : Reachable radioPage 4 true (session.rewire true session.hub) :=
    .start (starts true)
  have sound : ∀ change ∈ ungrouping, change.Sound radioPage.handle := by decide
  exact ⟨_, _, reachable, rfl, groupsRadios_of_reachable distinct reachable,
    groupsRadios_of_reachable distinct (reachable.apply ungrouping sound), before, after⟩

end Session

end Accessibility
