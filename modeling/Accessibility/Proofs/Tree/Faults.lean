import Accessibility.Proofs.Tree.Paths

/-!
Calls that fail. Every call looks at its arguments before it touches anything, so it fails exactly
where they are wrong and leaves the tree as it was. A move that succeeds puts the child at its place
among the other children of the parent, and no two other nodes change their order.
-/

set_option autoImplicit false

namespace Accessibility

namespace Outcome

variable {σ α β : Type} {before : σ}

@[simp] theorem answer_done (state : σ) (answer : α) : (done state answer).answer = .ok answer :=
  rfl

@[simp] theorem answer_failed (state : σ) (fault : Fault) :
    (failed state fault : Outcome σ α).answer = .error fault :=
  rfl

/-- A fault leaves the state as it was before. -/
structure Sparing (before : σ) (outcome : Outcome σ α) : Prop where
  state : ∀ {fault : Fault}, outcome.answer = .error fault → outcome.state = before

namespace Sparing

theorem done (before state : σ) (answer : α) : (Outcome.done state answer).Sparing before := by
  refine ⟨fun wrong => ?_⟩
  rw [answer_done] at wrong
  cases wrong

theorem failed (before : σ) (fault : Fault) :
    (Outcome.failed before fault : Outcome σ α).Sparing before :=
  ⟨fun _ => rfl⟩

theorem andThen {outcome : Outcome σ α} {next : σ → α → Outcome σ β}
    (first : outcome.Sparing before) (second : ∀ state answer, (next state answer).Sparing before) :
    (outcome.andThen next).Sparing before := by
  unfold Outcome.andThen
  split
  · exact second _ _
  · rename_i fault wrong
    rw [first.state wrong]
    exact .failed before fault

end Sparing

end Outcome

namespace Tree

variable {tree after : Tree} {content : Handle} {child parent id : NodeId} {index : Nat}
  {fault : Fault}

/-! ### What a fault leaves behind -/

theorem sparing_createRoot (tree : Tree) (content : Handle) (seed : Seed) :
    (tree.createRoot content seed).Sparing tree := by
  rcases tree.createRoot_cases content seed with ⟨fault, failed⟩ | ⟨-, -, done⟩
  · rw [failed]
    exact .failed tree fault
  · rw [done]
    exact .done tree _ _

theorem sparing_create (tree : Tree) (content : Handle) (parent : NodeId) (index : Nat)
    (seed : Seed) : (tree.create content parent index seed).Sparing tree := by
  rcases tree.create_cases content parent index seed with ⟨fault, failed⟩ | ⟨-, -, done⟩
  · rw [failed]
    exact .failed tree fault
  · rw [done]
    exact .done tree _ _

theorem sparing_beginShutdown (tree : Tree) (id : NodeId) :
    (tree.beginShutdown id).Sparing tree := by
  rcases tree.beginShutdown_cases id with ⟨-, failed⟩ | ⟨-, idle⟩ | ⟨node, -, done⟩
  · rw [failed]
    exact .failed tree _
  · rw [idle]
    exact .done tree _ _
  · rw [done]
    exact .done tree _ _

theorem sparing_retire (tree : Tree) (id : NodeId) : (tree.retire id).Sparing tree :=
  (sparing_beginShutdown tree id).andThen fun _ _ => .done tree _ ()

theorem sparing_reparent (tree : Tree) (child parent : NodeId) (index : Nat) :
    (tree.reparent child parent index).Sparing tree := by
  rcases tree.reparent_cases child parent index with ⟨fault, failed⟩ | ⟨-, -, -, done⟩
  · rw [failed]
    exact .failed tree fault
  · rw [done]
    exact .done tree _ _

theorem sparing_arrange (tree : Tree) (parent : NodeId) (order : List NodeId) :
    (tree.arrange parent order).Sparing tree := by
  rcases tree.arrange_cases parent order with ⟨-, failed⟩ | ⟨node, -, ⟨-, idle⟩ | done⟩
  · rw [failed]
    exact .failed tree _
  · rw [idle]
    exact .done tree _ _
  · rw [done]
    exact .done tree _ _

theorem sparing_sync (tree : Tree) (id : NodeId) (attributes : Attributes) (scope : Scope) :
    (tree.sync id attributes scope).Sparing tree := by
  rcases tree.sync_cases id attributes scope with ⟨-, failed⟩ | ⟨node, -, ⟨-, -, idle⟩ | done⟩
  · rw [failed]
    exact .failed tree _
  · rw [idle]
    exact .done tree _ _
  · rw [done]
    exact .done tree _ _

theorem Call.told_eq {α : Type} {outcome : Outcome Tree α} (sparing : outcome.Sparing tree)
    (failed : (Call.run.told outcome).2 = some fault) : (Call.run.told outcome).1 = tree := by
  cases answered : outcome.answer with
  | ok answer =>
    rw [Call.run.told, answered] at failed
    cases failed
  | error wrong => exact sparing.state answered

theorem Call.run_eq_of_fault {call : Call} (failed : (call.run tree).2 = some fault) :
    (call.run tree).1 = tree := by
  cases call with
  | createRoot content seed => exact told_eq (sparing_createRoot tree content seed) failed
  | create content parent index seed =>
    exact told_eq (sparing_create tree content parent index seed) failed
  | beginShutdown id => exact told_eq (sparing_beginShutdown tree id) failed
  | retire id => exact told_eq (sparing_retire tree id) failed
  | retirePending => cases failed
  | reparent child parent index => exact told_eq (sparing_reparent tree child parent index) failed
  | arrange parent order => exact told_eq (sparing_arrange tree parent order) failed
  | sync id attributes scope => exact told_eq (sparing_sync tree id attributes scope) failed

/-! ### When calls fail -/

/-- Whether a live node stands for some content. -/
def StandsFor (tree : Tree) (id : NodeId) (content : Handle) : Prop :=
  ∃ node, tree.get? id = some node ∧ node.alive = true ∧ node.content = content

theorem Sound.standsFor_iff (sound : tree.Sound) :
    tree.StandsFor id content ↔ tree.nodeFor? content = some id := by
  simp only [StandsFor, sound.content, live_eq_some, and_assoc]

theorem lifecycle_eq_dead_iff : tree.lifecycle id = .dead ↔ tree.get? id = none := by
  unfold lifecycle
  cases tree.get? id with
  | none => exact iff_of_true rfl rfl
  | some node =>
    refine iff_of_false ?_ nofun
    dsimp only
    split <;> exact nofun

theorem Sound.createRoot_error_iff (sound : tree.Sound) (seed : Seed) :
    (tree.createRoot content seed).answer = .error fault ↔
      ∃ existing, fault = .duplicateIdentity content existing ∧
        (tree.root = some existing ∨ tree.root = none ∧ tree.StandsFor existing content) := by
  simp only [Tree.createRoot, sound.standsFor_iff]
  cases tree.root with
  | some root => simp [eq_comm]
  | none => cases tree.nodeFor? content <;> simp [eq_comm]

theorem Sound.create_error_iff (sound : tree.Sound) (seed : Seed) :
    (tree.create content parent index seed).answer = .error fault ↔
      (tree.isAlive parent = false ∧ fault = .unknownNode parent) ∨
      (tree.isAlive parent = true ∧
        ∃ existing, tree.StandsFor existing content ∧
          fault = .duplicateIdentity content existing) := by
  simp only [Tree.create, sound.standsFor_iff]
  cases tree.isAlive parent with
  | false => simp [eq_comm]
  | true => cases tree.nodeFor? content <;> simp [eq_comm]

/-- What the walk up from the new parent looks for. -/
theorem Sound.isAncestorOf_iff_under (sound : tree.Sound) (alive : tree.isAlive parent = true) :
    tree.isAncestorOf child parent = true ↔ tree.Under parent child := by
  obtain ⟨above, alive⟩ := isAlive_iff_live.mp alive
  rw [sound.isAncestorOf_iff alive]
  exact ⟨under_of_leads sound, fun under => sound.leads_of_under under alive⟩

theorem Sound.reparent_error_iff (sound : tree.Sound) :
    (tree.reparent child parent index).answer = .error fault ↔
      (tree.isAlive child = false ∧ fault = .unknownNode child) ∨
      (tree.isAlive child = true ∧ tree.isAlive parent = false ∧ fault = .unknownNode parent) ∨
      (tree.isAlive child = true ∧ tree.isAlive parent = true ∧ tree.Under parent child ∧
        fault = .circularParentage) := by
  unfold Tree.reparent
  cases aliveChild : tree.isAlive child with
  | false => simp [@eq_comm Fault _ fault]
  | true =>
    cases aliveParent : tree.isAlive parent with
    | false => simp [@eq_comm Fault _ fault]
    | true =>
      rw [← sound.isAncestorOf_iff_under aliveParent]
      cases tree.isAncestorOf child parent <;> simp [@eq_comm Fault _ fault]

theorem beginShutdown_error_iff :
    (tree.beginShutdown id).answer = .error fault ↔
      tree.lifecycle id = .dead ∧ fault = .unknownNode id := by
  rw [lifecycle_eq_dead_iff, beginShutdown]
  cases tree.get? id with
  | none => simp [eq_comm]
  | some node => cases alive : node.alive <;> simp [alive]

theorem retire_error_iff :
    (tree.retire id).answer = .error fault ↔
      tree.lifecycle id = .dead ∧ fault = .unknownNode id := by
  rw [← beginShutdown_error_iff, retire, Outcome.andThen]
  cases (tree.beginShutdown id).answer <;> simp

theorem arrange_error_iff {order : List NodeId} :
    (tree.arrange parent order).answer = .error fault ↔
      tree.lifecycle parent = .dead ∧ fault = .unknownNode parent := by
  rw [lifecycle_eq_dead_iff, arrange]
  cases tree.get? parent with
  | none => simp [eq_comm]
  | some node =>
    dsimp only
    split <;> simp

theorem sync_error_iff {attributes : Attributes} {scope : Scope} :
    (tree.sync id attributes scope).answer = .error fault ↔
      tree.lifecycle id = .dead ∧ fault = .unknownNode id := by
  rw [lifecycle_eq_dead_iff, sync]
  cases tree.get? id with
  | none => simp [eq_comm]
  | some node =>
    dsimp only
    split <;> simp

/-! ### Moves that succeed -/

/-- A live node is in no child list but that of its parent, and pending nodes list no live ones. -/
theorem Intact.not_listed (intact : tree.Intact) {node above : AccessibleNode}
    (alive : tree.live child = some node) (stored : tree.get? id = some above)
    (apart : node.parent ≠ some id) : child ∉ above.children := by
  intro listed
  cases aliveAbove : above.alive with
  | true =>
    have aliveId : tree.live id = some above := live_eq_some.mpr ⟨stored, aliveAbove⟩
    exact apart (intact.forest.parent_of_listed aliveId listed alive)
  | false =>
    have gone := (intact.apart stored aliveAbove (.inr listed)).1
    rw [alive] at gone
    cases gone

theorem Intact.not_own_child (intact : tree.Intact) {node : AccessibleNode}
    (alive : tree.live child = some node) : child ∉ node.children := by
  refine intact.not_listed alive (get?_of_live alive) fun linked => ?_
  exact intact.not_under ((parent?_of_live alive).trans linked) (.self child)

/-- Taking a live node out of the child list of its parent takes it out of every list. -/
theorem Intact.get?_unlink (intact : tree.Intact) {node : AccessibleNode}
    (alive : tree.live child = some node) (other : NodeId) :
    (tree.unlink child).get? other = (tree.get? other).map (·.without child) := by
  have unlisted (apart : node.parent ≠ some other) :
      tree.get? other = (tree.get? other).map (·.without child) := by
    cases stored : tree.get? other with
    | none => rfl
    | some above =>
      rw [Option.map_some, AccessibleNode.without_of_not_mem (intact.not_listed alive stored apart)]
  rw [unlink, parent?_of_live alive]
  cases linked : node.parent with
  | none =>
    apply unlisted
    rw [linked]
    exact (Option.some_ne_none other).symm
  | some upper =>
    dsimp only
    rw [get?_modify]
    split
    · rename_i same
      rw [same]
      rfl
    · rename_i differ
      apply unlisted
      rw [linked]
      exact fun same => differ (Option.some.inj same)

theorem Sound.of_reparent_ok (sound : tree.Sound)
    (done : (tree.reparent child parent index).answer = .ok ()) :
    tree.isAlive child = true ∧ tree.isAlive parent = true ∧ ¬ tree.Under parent child := by
  have faultless (fault : Fault) : (tree.reparent child parent index).answer ≠ .error fault := by
    rw [done]
    exact nofun
  have aliveChild : tree.isAlive child = true := by
    rw [← Bool.not_eq_false]
    exact fun gone => faultless _ (sound.reparent_error_iff.mpr (.inl ⟨gone, rfl⟩))
  have aliveParent : tree.isAlive parent = true := by
    rw [← Bool.not_eq_false]
    exact fun gone =>
      faultless _ (sound.reparent_error_iff.mpr (.inr (.inl ⟨aliveChild, gone, rfl⟩)))
  refine ⟨aliveChild, aliveParent, fun under => ?_⟩
  exact faultless _
    (sound.reparent_error_iff.mpr (.inr (.inr ⟨aliveChild, aliveParent, under, rfl⟩)))

/-- What a move does to all nodes, pending ones included. -/
theorem Intact.get?_reparent (intact : tree.Intact)
    (done : (tree.reparent child parent index).answer = .ok ()) (other : NodeId) :
    (tree.reparent child parent index).state.get? other =
      Live.moved tree.get? child parent index other := by
  obtain ⟨aliveChild, aliveParent, acyclic⟩ := intact.of_reparent_ok done
  have differ : parent ≠ child := by
    rintro rfl
    exact acyclic (.self parent)
  rw [← intact.isAncestorOf_iff_under aliveParent, Bool.not_eq_true] at acyclic
  obtain ⟨node, alive⟩ := isAlive_iff_live.mp aliveChild
  rw [reparent_eq_done aliveChild aliveParent acyclic index]
  simp only [Outcome.done, withMoved, link, get?_modify, intact.get?_unlink alive, Live.moved]
  by_cases atParent : parent = other
  · subst atParent
    simp only [differ, differ.symm, if_true, if_false, Option.map_map]
    rfl
  · by_cases atChild : child = other
    · subst atChild
      have childless := intact.not_listed alive (get?_of_live alive) fun self =>
        intact.not_under ((parent?_of_live alive).trans self) (.self child)
      simp only [atParent, if_true, if_false, get?_of_live alive, Option.map_some,
        AccessibleNode.without_of_not_mem childless, AccessibleNode.withParent]
    · simp only [atParent, atChild, Ne.symm atParent, Ne.symm atChild, if_false]

/-- The other children of a node: all that it lists but one. -/
def childrenBut (tree : Tree) (id child : NodeId) : List NodeId :=
  (tree.children id).filter (· != child)

/-- A move puts the child at its place among the other children of the parent, takes it out of all
other lists, and leaves the order in them and the other parent links as they were. -/
structure Placed (tree after : Tree) (child parent : NodeId) (index : Nat) : Prop where
  linked : after.parent? child = some parent
  position : (after.children parent).idxOf child =
    min index (tree.childrenBut parent child).length
  children : after.children parent =
    Document.insertAt (min index (tree.childrenBut parent child).length) child
      (tree.childrenBut parent child)
  others : ∀ other ≠ parent, after.children other = tree.childrenBut other child
  parents : ∀ other ≠ child, after.parent? other = tree.parent? other

theorem insertAt_min {α : Type} (index : Nat) (value : α) (values : List α) :
    Document.insertAt (min index values.length) value values =
      Document.insertAt index value values := by
  rcases Nat.le_total index values.length with short | long
  · rw [Nat.min_eq_left short]
  · simp only [Document.insertAt, Nat.min_eq_right long, List.take_length, List.drop_length,
      List.take_of_length_le long, List.drop_of_length_le long]

theorem idxOf_insertAt {index : Nat} {values : List NodeId} (absent : id ∉ values)
    (within : index ≤ values.length) : (Document.insertAt index id values).idxOf id = index := by
  have before : id ∉ values.take index := fun listed => absent (List.mem_of_mem_take listed)
  rw [Document.insertAt, List.idxOf_append_of_notMem before, List.idxOf_cons_self,
    List.length_take, Nat.min_eq_left within, Nat.add_zero]

theorem Intact.placed_reparent (intact : tree.Intact)
    (done : (tree.reparent child parent index).answer = .ok ()) :
    tree.Placed (tree.reparent child parent index).state child parent index := by
  have moved (other : NodeId) := intact.get?_reparent done other
  obtain ⟨aliveChild, aliveParent, acyclic⟩ := intact.of_reparent_ok done
  have differ : parent ≠ child := by
    rintro rfl
    exact acyclic (.self parent)
  obtain ⟨node, aliveChild⟩ := isAlive_iff_live.mp aliveChild
  obtain ⟨above, aliveParent⟩ := isAlive_iff_live.mp aliveParent
  have children : (tree.reparent child parent index).state.children parent =
      Document.insertAt index child (tree.childrenBut parent child) := by
    rw [Tree.children, moved, Live.moved, get?_of_live aliveParent, childrenBut, Tree.children,
      get?_of_live aliveParent, Option.map_some, if_neg differ, if_pos rfl]
    rfl
  have absent : child ∉ tree.childrenBut parent child := by
    rw [childrenBut, List.mem_filter, bne_self_eq_false]
    exact fun both => Bool.false_ne_true both.2
  refine ⟨?_, ?_, ?_, ?_, ?_⟩
  · rw [parent?, moved, Live.moved, get?_of_live aliveChild, Option.map_some, if_pos rfl]
    rfl
  · rw [children, ← insertAt_min]
    exact idxOf_insertAt absent (Nat.min_le_right _ _)
  · rw [children, insertAt_min]
  · intro other apart
    rw [childrenBut, Tree.children, Tree.children, moved, Live.moved]
    cases stored : tree.get? other with
    | none => rfl
    | some old =>
      by_cases here : other = child
      · subst here
        obtain rfl := Option.some.inj (stored.symm.trans (get?_of_live aliveChild))
        simp only [Option.map_some, if_true, Option.getD_some]
        exact congrArg AccessibleNode.children
          (AccessibleNode.without_of_not_mem (intact.not_own_child aliveChild)).symm
      · simp only [here, apart, if_false, Option.map_some, Option.getD_some]
        rfl
  · intro other apart
    rw [parent?, parent?, moved, Live.moved]
    cases stored : tree.get? other with
    | none => rfl
    | some old =>
      simp only [apart, if_false, Option.map_some, Option.bind_some]
      split <;> rfl

/-! ### Trees that calls lead to -/

/-- The faults of every call, none of which changes anything, and what a move does that succeeds. -/
structure Guarded (tree : Tree) : Prop where
  createRoot : ∀ {content : Handle} {seed : Seed} {fault : Fault},
    (tree.createRoot content seed).answer = .error fault ↔
      ∃ existing, fault = .duplicateIdentity content existing ∧
        (tree.root = some existing ∨ tree.root = none ∧ tree.StandsFor existing content)
  create : ∀ {content : Handle} {parent : NodeId} {index : Nat} {seed : Seed} {fault : Fault},
    (tree.create content parent index seed).answer = .error fault ↔
      (tree.isAlive parent = false ∧ fault = .unknownNode parent) ∨
      (tree.isAlive parent = true ∧
        ∃ existing, tree.StandsFor existing content ∧
          fault = .duplicateIdentity content existing)
  reparent : ∀ {child parent : NodeId} {index : Nat} {fault : Fault},
    (tree.reparent child parent index).answer = .error fault ↔
      (tree.isAlive child = false ∧ fault = .unknownNode child) ∨
      (tree.isAlive child = true ∧ tree.isAlive parent = false ∧ fault = .unknownNode parent) ∨
      (tree.isAlive child = true ∧ tree.isAlive parent = true ∧ tree.Under parent child ∧
        fault = .circularParentage)
  beginShutdown : ∀ {id : NodeId} {fault : Fault},
    (tree.beginShutdown id).answer = .error fault ↔
      tree.lifecycle id = .dead ∧ fault = .unknownNode id
  retire : ∀ {id : NodeId} {fault : Fault},
    (tree.retire id).answer = .error fault ↔ tree.lifecycle id = .dead ∧ fault = .unknownNode id
  arrange : ∀ {parent : NodeId} {order : List NodeId} {fault : Fault},
    (tree.arrange parent order).answer = .error fault ↔
      tree.lifecycle parent = .dead ∧ fault = .unknownNode parent
  sync : ∀ {id : NodeId} {attributes : Attributes} {scope : Scope} {fault : Fault},
    (tree.sync id attributes scope).answer = .error fault ↔
      tree.lifecycle id = .dead ∧ fault = .unknownNode id
  unchanged : ∀ {call : Call} {fault : Fault}, (call.run tree).2 = some fault →
    (call.run tree).1 = tree
  moved : ∀ {child parent : NodeId} {index : Nat},
    (tree.reparent child parent index).answer = .ok () →
      tree.Placed (tree.reparent child parent index).state child parent index

/-- In every tree that calls lead to, whichever nodes are live, pending or gone, a call fails exactly
where one of its arguments is wrong, names the first that is, and changes nothing. -/
theorem guarded_of_reachable (reachable : tree.Reachable) : tree.Guarded where
  createRoot := reachable.intact.createRoot_error_iff _
  create := reachable.intact.create_error_iff _
  reparent := reachable.intact.reparent_error_iff
  beginShutdown := beginShutdown_error_iff
  retire := retire_error_iff
  arrange := arrange_error_iff
  sync := sync_error_iff
  unchanged := Call.run_eq_of_fault
  moved := reachable.intact.placed_reparent

/-- A list of three items, one of which shuts down, and another list beside it with an item that is
retired. -/
def listCalls : List Call :=
  let seed (tag : String) : Seed := ⟨.element tag, ∅, .document⟩
  [.createRoot ⟨0⟩ ⟨.document, ∅, .document⟩, .create ⟨1⟩ ⟨1, 1⟩ 0 (seed "ul"),
    .create ⟨2⟩ ⟨2, 1⟩ 0 (seed "li"), .create ⟨3⟩ ⟨2, 1⟩ 1 (seed "li"),
    .create ⟨4⟩ ⟨2, 1⟩ 2 (seed "li"), .create ⟨5⟩ ⟨1, 1⟩ 1 (seed "ol"),
    .create ⟨6⟩ ⟨6, 1⟩ 0 (seed "li"), .create ⟨7⟩ ⟨2, 1⟩ 3 (seed "li"), .beginShutdown ⟨8, 1⟩,
    .retire ⟨7, 1⟩]

theorem guarded_listCalls :
    ∃ tree : Tree, tree = listCalls.foldl (fun tree call => (call.run tree).1) empty ∧
      tree.Reachable ∧ tree.Guarded ∧ tree.lifecycle ⟨8, 1⟩ = .pendingShutdown ∧
      tree.lifecycle ⟨7, 1⟩ = .dead ∧
      tree.children ⟨2, 1⟩ = [⟨3, 1⟩, ⟨4, 1⟩, ⟨5, 1⟩] ∧
      (tree.reparent ⟨8, 1⟩ ⟨7, 1⟩ 0).answer = .error (.unknownNode ⟨8, 1⟩) ∧
      (tree.reparent ⟨1, 1⟩ ⟨3, 1⟩ 0).answer = .error .circularParentage ∧
      (tree.reparent ⟨3, 1⟩ ⟨2, 1⟩ 9).answer = .ok () ∧
      (tree.reparent ⟨3, 1⟩ ⟨2, 1⟩ 9).state.children ⟨2, 1⟩ = [⟨4, 1⟩, ⟨5, 1⟩, ⟨3, 1⟩] := by
  have reachable :
      (listCalls.foldl (fun tree call => (call.run tree).1) empty).Reachable := by
    iterate 10 refine .call ?_ _ trivial
    exact .empty
  exact ⟨_, rfl, reachable, guarded_of_reachable reachable, by decide +kernel, by decide +kernel,
    by decide +kernel, by decide +kernel, by decide +kernel, by decide +kernel, by decide +kernel⟩

end Tree

end Accessibility
