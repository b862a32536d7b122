import Accessibility.Proofs.Tree.Links

/-!
The lives of nodes over runs of calls. A key is handed out once, for a live node; whatever is called
after that, the node goes from live to pending to dead and never back, and only a shutdown or a
retirement of a node above it makes it go.
-/

set_option autoImplicit false

namespace Accessibility

/-- How far the life of a node has gone. -/
def Lifecycle.stage : Lifecycle → Nat
  | .alive => 0
  | .pendingShutdown => 1
  | .dead => 2

namespace Tree

variable {before tree after : Tree} {id parent child other : NodeId} {node : AccessibleNode}
  {call : Call} {calls : List Call}

/-! ### What goes, and what stays -/

theorem lifecycle_of_stored (stored : tree.get? id = some node) :
    tree.lifecycle id = if node.alive then .alive else .pendingShutdown := by
  simp only [lifecycle, stored]

/-- The nodes that go with a node: in a shutdown the live ones below it, which the answer tells in
preorder; in a retirement all that are left below it; and of the pending ones all. -/
structure PartsCleanly (tree : Tree) : Prop where
  shutdown : ∀ {id : NodeId}, tree.isAlive id = true → ∃ after leaving,
    tree.beginShutdown id = .done after leaving ∧ leaving.Sublist tree.preorder ∧
    (∀ other, other ∈ leaving ↔ tree.isAlive other = true ∧ tree.Under other id) ∧
    ∀ other, after.lifecycle other =
      if other ∈ leaving then .pendingShutdown else tree.lifecycle other
  retirement : ∀ {id : NodeId}, tree.lifecycle id ≠ .dead → ∃ after,
    tree.retire id = .done after () ∧ ∀ other,
      (tree.Under other id → after.lifecycle other = .dead) ∧
      (¬ tree.Under other id → after.lifecycle other = tree.lifecycle other)
  clearing : ∀ other : NodeId, tree.retirePending.lifecycle other =
    if tree.lifecycle other = .pendingShutdown then .dead else tree.lifecycle other

/-- The way up to a node does not use the link above it. -/
theorem under_iff_of_detached
    (parents : ∀ other, after.parent? other = if other = id then none else tree.parent? other) :
    after.Under other id ↔ tree.Under other id := by
  constructor
  · intro under
    induction under with
    | self id => exact .self id
    | above linked _ ih =>
      rw [parents] at linked
      split at linked
      · cases linked
      · exact .above linked (ih parents)
  · intro under
    induction under with
    | self id => exact .self id
    | @above lower parent id linked _ ih =>
      by_cases here : lower = id
      · rw [here]
        exact .self id
      · refine .above ?_ (ih parents)
        rw [parents, if_neg here, linked]

namespace Joined

theorem mem_below_of_live (joined : tree.Joined) (alive : tree.isAlive id = true) :
    other ∈ tree.below id ↔ tree.isAlive other = true ∧ tree.Under other id := by
  obtain ⟨node, alive⟩ := isAlive_iff_live.mp alive
  rw [joined.toSound.mem_below alive, isAlive_iff_live]
  constructor
  · intro leads
    exact ⟨joined.forest.leads_live leads alive, under_of_leads joined.toSound leads⟩
  · rintro ⟨⟨otherNode, aliveOther⟩, under⟩
    exact joined.toSound.leads_of_under under aliveOther

theorem below_sublist (joined : tree.Joined) (alive : tree.isAlive id = true) :
    (tree.below id).Sublist tree.preorder := by
  have inside : tree.below id ⊆ tree.preorder := by
    intro other met
    rw [joined.toSound.mem_preorder, ← isAlive_iff_live]
    exact ((joined.mem_below_of_live alive).mp met).1
  have antisymm : Std.Antisymm fun left right => tree.order left right = .lt := by
    refine ⟨fun left right less greater => ?_⟩
    rw [Std.OrientedCmp.gt_of_lt greater] at less
    cases less
  obtain ⟨node, live⟩ := isAlive_iff_live.mp alive
  have rising : (tree.below id).Pairwise fun left right => tree.order left right = .lt := by
    rw [joined.toSound.below_eq live (Nat.le_refl _)]
    exact joined.toSound.pairwise_descend live
  exact List.sublist_of_subperm_of_pairwise
    (List.subperm_of_subset (joined.toSound.below_nodup live) inside) rising
    joined.toSound.pairwise_preorder

theorem lifecycle_beginShutdown (joined : tree.Joined) (alive : tree.live id = some node)
    (other : NodeId) : (tree.beginShutdown id).state.lifecycle other =
      if other ∈ tree.below id then .pendingShutdown else tree.lifecycle other := by
  have self : id ∈ tree.below id := (joined.toSound.mem_below alive).mpr (.refl _ id)
  have same := joined.toIntact.get?_beginShutdown alive other
  cases stored : tree.get? other with
  | none =>
    have outside : other ∉ tree.below id := by
      intro met
      obtain ⟨⟨otherNode, storedOther⟩, -⟩ := joined.mem_below.mp met
      rw [stored] at storedOther
      cases storedOther
    rw [stored, Option.map_none] at same
    rw [if_neg outside, lifecycle_eq_dead_iff.mpr same, lifecycle_eq_dead_iff.mpr stored]
  | some old =>
    rw [stored, Option.map_some] at same
    rw [lifecycle_of_stored same, lifecycle_of_stored stored]
    by_cases here : other = id
    · subst here
      simp only [self, if_true, Bool.false_eq_true, if_false]
    · by_cases met : other ∈ tree.below id
      · simp only [here, met, if_true, Bool.false_eq_true, if_false]
      · simp only [here, met, if_false]
        rfl

theorem under_beginShutdown (joined : tree.Joined) (id other : NodeId) :
    (tree.beginShutdown id).state.Under other id ↔ tree.Under other id := by
  cases alive : tree.live id with
  | none => rw [state_beginShutdown_of_not_live alive]
  | some node => exact under_iff_of_detached (joined.toIntact.parent?_beginShutdown alive)

/-- A shutdown leaves what is not below the node as it is. -/
theorem lifecycle_beginShutdown_outside (joined : tree.Joined) (outside : ¬ tree.Under other id) :
    (tree.beginShutdown id).state.lifecycle other = tree.lifecycle other := by
  cases alive : tree.live id with
  | none => rw [state_beginShutdown_of_not_live alive]
  | some node =>
    rw [joined.lifecycle_beginShutdown alive, if_neg]
    exact fun met => outside (joined.mem_below.mp met).2

theorem partsCleanly (joined : tree.Joined) : tree.PartsCleanly where
  shutdown := by
    intro id alive
    obtain ⟨node, live⟩ := isAlive_iff_live.mp alive
    obtain ⟨after, done, -, -, -⟩ := joined.toSound.beginShutdown live
    refine ⟨after, tree.below id, done, joined.below_sublist alive,
      fun other => joined.mem_below_of_live alive, fun other => ?_⟩
    have lives := joined.lifecycle_beginShutdown live other
    rw [done] at lives
    exact lives
  retirement := by
    intro id there
    obtain ⟨node, stored⟩ := Option.ne_none_iff_exists'.mp (mt lifecycle_eq_dead_iff.mpr there)
    obtain ⟨suspended, same, joinedAfter, -, done⟩ := joined.retire_eq stored
    have under (other : NodeId) : suspended.Under other id ↔ tree.Under other id := by
      rw [same]
      exact joined.under_beginShutdown id other
    -- The shutdown comes first, but cuts no link below the node.
    refine ⟨_, done, fun other => ⟨fun below => ?_, fun outside => ?_⟩⟩
    · rw [lifecycle_eq_dead_iff, get?_foldl_discard]
      split
      · rfl
      · rename_i absent
        cases storedOther : suspended.get? other with
        | none => rfl
        | some left =>
          exact absurd (joinedAfter.mem_below.mpr ⟨⟨left, storedOther⟩, (under other).mpr below⟩) absent
    · have absent : other ∉ suspended.below id := fun met =>
        outside ((under other).mp (joinedAfter.mem_below.mp met).2)
      have kept := joined.lifecycle_beginShutdown_outside outside
      rw [← same] at kept
      rw [← kept, lifecycle, get?_foldl_discard, if_neg absent]
      rfl
  clearing := by
    intro other
    rw [lifecycle, lifecycle, get?_retirePending, live]
    cases tree.get? other with
    | none => rfl
    | some node => cases alive : node.alive <;> simp [Option.filter_some, alive]

end Joined

/-! ### Keys that calls hand out -/

/-- The key that a call hands out, if it creates a node. -/
def Call.created? (tree : Tree) : Call → Option NodeId
  | .createRoot content seed => (tree.createRoot content seed).answer.toOption
  | .create content parent index seed => (tree.create content parent index seed).answer.toOption
  | _ => none

/-- The tree that calls lead to, one after the other. -/
def afterAll (tree : Tree) (calls : List Call) : Tree :=
  calls.foldl (fun tree call => (call.run tree).1) tree

/-- The keys that calls hand out, one after the other. -/
def created (tree : Tree) : List Call → List NodeId
  | [] => []
  | call :: rest => (call.created? tree).toList ++ (call.run tree).1.created rest

/-- Every call is admissible when its turn comes. -/
def AllAdmissible (tree : Tree) : List Call → Prop
  | [] => True
  | call :: rest => call.Admissible tree ∧ (call.run tree).1.AllAdmissible rest

/-! ### One call -/

theorem stored_of_add {content : Handle} {above : Option NodeId} {seed : Seed}
    (stored : (tree.add content above seed).get? id = some node) :
    (∃ old, tree.get? id = some old) ∨ tree.nodes.nextKey = id := by
  rw [get?_add] at stored
  split at stored
  · exact .inr ‹_›
  · exact .inl ⟨node, stored⟩

/-- A node that is there after a call was there before, or the call has made it. -/
theorem Call.origin (intact : tree.Intact) (admissible : call.Admissible tree)
    (stored : (call.run tree).1.get? id = some node) :
    (∃ old, tree.get? id = some old) ∨ call.created? tree = some id := by
  have faded (fades : Fades tree (call.run tree).1) : ∃ old, tree.get? id = some old := by
    obtain ⟨old, storedBefore, -⟩ := fades.origin stored
    exact ⟨old, storedBefore⟩
  cases call with
  | createRoot content seed =>
    rw [Call.run] at stored
    rw [created?]
    rcases tree.createRoot_cases content seed with ⟨fault, failed⟩ | ⟨-, -, done⟩
    · rw [failed] at stored
      exact .inl ⟨node, stored⟩
    · rw [done] at stored ⊢
      exact (stored_of_add stored).imp_right (congrArg some)
  | create content parent index seed =>
    rw [Call.run] at stored
    rw [created?]
    rcases tree.create_cases content parent index seed with ⟨fault, failed⟩ | ⟨-, -, done⟩
    · rw [failed] at stored
      exact .inl ⟨node, stored⟩
    · rw [done] at stored ⊢
      replace stored := (get?_modify _ parent id _).symm.trans stored
      split at stored
      · rename_i same
        subst same
        obtain ⟨old, stored, -⟩ := Option.map_eq_some_iff.mp stored
        exact (stored_of_add stored).imp_right (congrArg some)
      · exact (stored_of_add stored).imp_right (congrArg some)
  | beginShutdown other => exact .inl (faded ((Fades.refl tree).beginShutdown other))
  | retire other => exact .inl (faded ((Fades.refl tree).retire other))
  | retirePending =>
    rw [Call.run, get?_retirePending] at stored
    exact .inl ⟨node, get?_of_live stored⟩
  | reparent child parent index =>
    refine .inl ?_
    replace stored : (tree.reparent child parent index).state.get? id = some node := stored
    cases answered : (tree.reparent child parent index).answer with
    | error fault =>
      rw [(sparing_reparent tree child parent index).state answered] at stored
      exact ⟨node, stored⟩
    | ok _ =>
      rw [intact.get?_reparent answered] at stored
      obtain ⟨old, stored, -⟩ := Option.map_eq_some_iff.mp stored
      exact ⟨old, stored⟩
  | arrange parent order => exact .inl (faded ((Fades.refl tree).arrange admissible))
  | sync other attributes scope =>
    exact .inl (faded ((Fades.refl tree).sync other attributes scope))

/-- A call hands out the next key, for a live node. -/
theorem Call.of_created (made : call.created? tree = some id) :
    id = tree.nodes.nextKey ∧ ∃ node, (call.run tree).1.live id = some node := by
  cases call with
  | createRoot content seed =>
    rw [created?] at made
    rw [Call.run]
    rcases tree.createRoot_cases content seed with ⟨fault, failed⟩ | ⟨-, -, done⟩
    · rw [failed] at made
      cases made
    · rw [done] at made ⊢
      cases made
      refine ⟨rfl, leaf content none seed, ?_⟩
      exact (live_add none seed tree.nodes.nextKey).trans (if_pos rfl)
  | create content parent index seed =>
    rw [created?] at made
    rw [Call.run]
    rcases tree.create_cases content parent index seed with ⟨fault, failed⟩ | ⟨-, -, done⟩
    · rw [failed] at made
      cases made
    · rw [done] at made ⊢
      cases made
      refine ⟨rfl, Option.ne_none_iff_exists'.mp (mt link_eq_none.mp ?_)⟩
      rw [live_add, if_pos rfl]
      exact nofun
  | beginShutdown other => cases made
  | retire other => cases made
  | retirePending => cases made
  | reparent child parent index => cases made
  | arrange parent order => cases made
  | sync other attributes scope => cases made

theorem Call.continues (tidy : tree.nodes.Tidy) (call : Call) :
    Continues (fun _ _ => True) tree (call.run tree).1 := by
  have idle : Continues (fun _ _ => True) tree tree := .refl tidy
  cases call with
  | createRoot content seed => exact idle.createRoot trivial
  | create content parent index seed => exact idle.create parent index trivial
  | beginShutdown id => exact idle.beginShutdown id
  | retire id => exact idle.retire id
  | retirePending => exact idle.retirePending
  | reparent child parent index => exact idle.reparent child parent index
  | arrange parent order => exact idle.arrange parent order
  | sync id attributes scope => exact idle.sync id attributes scope

theorem stage_of_live (alive : tree.live id = some node) : (tree.lifecycle id).stage = 0 := by
  rw [lifecycle_of_live alive]
  rfl

/-- No call brings a node back that has gone, nor gives a key a second node. -/
theorem Call.stage_le (intact : tree.Intact) (admissible : call.Admissible tree)
    (issued : tree.nodes.Issued id) :
    (tree.lifecycle id).stage ≤ ((call.run tree).1.lifecycle id).stage := by
  have continues := Call.continues intact.tidy call
  cases alive : (call.run tree).1.live id with
  | some node =>
    obtain ⟨old, aliveBefore, -⟩ := continues.live_of_issued alive issued
    rw [stage_of_live aliveBefore]
    exact Nat.zero_le _
  | none =>
    cases stored : (call.run tree).1.get? id with
    | none =>
      rw [lifecycle_eq_dead_iff.mpr stored]
      cases tree.lifecycle id <;> decide
    | some node =>
      have pending := pending_of_not_live stored alive
      -- It was there before: a call makes live nodes only.
      have there : tree.lifecycle id ≠ .dead := by
        rw [Ne, lifecycle_eq_dead_iff]
        rcases Call.origin intact admissible stored with ⟨old, storedBefore⟩ | made
        · rw [storedBefore]
          exact nofun
        · obtain ⟨-, new, aliveAfter⟩ := Call.of_created made
          rw [alive] at aliveAfter
          cases aliveAfter
      rw [lifecycle_of_stored stored, pending]
      cases stage : tree.lifecycle id with
      | alive => decide
      | pendingShutdown => decide
      | dead => exact absurd stage there

/-! ### Runs -/

theorem reachable_afterAll (reachable : tree.Reachable) (admissible : tree.AllAdmissible calls) :
    (tree.afterAll calls).Reachable := by
  induction calls generalizing tree with
  | nil => exact reachable
  | cons call rest ih => exact ih (.call reachable call admissible.1) admissible.2

theorem afterAll_append (tree : Tree) (calls later : List Call) :
    tree.afterAll (calls ++ later) = (tree.afterAll calls).afterAll later :=
  List.foldl_append

theorem allAdmissible_append {later : List Call} : tree.AllAdmissible (calls ++ later) ↔
    tree.AllAdmissible calls ∧ (tree.afterAll calls).AllAdmissible later := by
  induction calls generalizing tree with
  | nil => exact (and_iff_right trivial).symm
  | cons call rest ih => exact (and_congr_right fun _ => ih).trans and_assoc.symm

theorem issued_afterAll (tidy : tree.nodes.Tidy) (issued : tree.nodes.Issued id)
    (calls : List Call) : (tree.afterAll calls).nodes.Issued id := by
  induction calls generalizing tree with
  | nil => exact issued
  | cons call rest ih =>
    have continues := Call.continues tidy call
    exact ih continues.tidy (continues.issued issued)

/-- What a run hands out are new keys, each of them once. -/
theorem created_new (tidy : tree.nodes.Tidy) (calls : List Call) :
    (tree.created calls).Nodup ∧
      ∀ id ∈ tree.created calls, ¬ tree.nodes.Issued id ∧ (tree.afterAll calls).nodes.Issued id := by
  induction calls generalizing tree with
  | nil => exact ⟨List.nodup_nil, nofun⟩
  | cons call rest ih =>
    have continues := Call.continues tidy call
    obtain ⟨nodup, new⟩ := ih continues.tidy
    rw [created]
    cases made : call.created? tree with
    | none =>
      refine ⟨nodup, fun id listed => ?_⟩
      exact ⟨fun issued => (new id listed).1 (continues.issued issued), (new id listed).2⟩
    | some first =>
      obtain ⟨rfl, node, alive⟩ := Call.of_created made
      rw [Option.toList_some, List.singleton_append]
      refine ⟨List.nodup_cons.mpr ⟨fun again => ?_, nodup⟩, fun id listed => ?_⟩
      · exact (new _ again).1 (issued_of_live alive)
      · rcases List.mem_cons.mp listed with rfl | later
        · exact ⟨tidy.not_issued_nextKey,
            issued_afterAll continues.tidy (issued_of_live alive) rest⟩
        · exact ⟨fun issued => (new id later).1 (continues.issued issued), (new id later).2⟩

theorem stage_le_afterAll (reachable : tree.Reachable) (admissible : tree.AllAdmissible calls)
    (issued : tree.nodes.Issued id) :
    (tree.lifecycle id).stage ≤ ((tree.afterAll calls).lifecycle id).stage := by
  induction calls generalizing tree with
  | nil => exact Nat.le_refl _
  | cons call rest ih =>
    have intact := reachable.intact
    calc (tree.lifecycle id).stage
        ≤ ((call.run tree).1.lifecycle id).stage := Call.stage_le intact admissible.1 issued
      _ ≤ (((call.run tree).1.afterAll rest).lifecycle id).stage :=
          ih (.call reachable call admissible.1) admissible.2
            ((Call.continues intact.tidy call).issued issued)

/-- What is there after a run was there before, or the run has made it. -/
theorem origin_afterAll (reachable : tree.Reachable) (admissible : tree.AllAdmissible calls)
    (stored : (tree.afterAll calls).get? id = some node) :
    (∃ old, tree.get? id = some old) ∨ id ∈ tree.created calls := by
  induction calls generalizing tree with
  | nil => exact .inl ⟨node, stored⟩
  | cons call rest ih =>
    rw [created, List.mem_append, Option.mem_toList]
    rcases ih (.call reachable call admissible.1) admissible.2 stored with ⟨old, there⟩ | made
    · exact (Call.origin reachable.intact admissible.1 there).imp_right .inl
    · exact .inr (.inr made)

/-- The keys that a run hands out are all different, each stands for one node from its creation on,
and that node is first live, then pending or gone, and once gone never back. Wherever the run stops,
nodes go as they should. -/
structure NeverRecycles (calls : List Call) : Prop where
  distinct : (empty.created calls).Nodup
  born : ∀ {earlier later : List Call} {call : Call} {id : NodeId},
    calls = earlier ++ call :: later → call.created? (empty.afterAll earlier) = some id →
    (empty.afterAll earlier).lifecycle id = .dead ∧
      (call.run (empty.afterAll earlier)).1.lifecycle id = .alive
  known : ∀ {id : NodeId}, (empty.afterAll calls).lifecycle id ≠ .dead → id ∈ empty.created calls
  forward : ∀ {earlier later : List Call} {id : NodeId}, calls = earlier ++ later →
    id ∈ empty.created earlier →
    ((empty.afterAll earlier).lifecycle id).stage ≤ ((empty.afterAll calls).lifecycle id).stage
  parting : (empty.afterAll calls).PartsCleanly

/-- Whatever is called, on live, pending and retired nodes alike, no key ever stands for two nodes
and no node comes back. -/
theorem neverRecycles (admissible : empty.AllAdmissible calls) : NeverRecycles calls where
  distinct := (created_new Arena.tidy_empty calls).1
  born := by
    rintro earlier later call id rfl made
    obtain ⟨admissibleEarlier, -⟩ := allAdmissible_append.mp admissible
    obtain ⟨rfl, node, alive⟩ := Call.of_created made
    refine ⟨?_, lifecycle_of_live alive⟩
    exact lifecycle_eq_dead_iff.mpr
      (reachable_afterAll .empty admissibleEarlier).intact.tidy.get?_nextKey
  known := by
    intro id there
    obtain ⟨node, stored⟩ := Option.ne_none_iff_exists'.mp (mt lifecycle_eq_dead_iff.mpr there)
    rcases origin_afterAll .empty admissible stored with ⟨old, impossible⟩ | made
    · cases (Arena.get?_empty id).symm.trans impossible
    · exact made
  forward := by
    rintro earlier later id rfl made
    obtain ⟨admissibleEarlier, admissibleLater⟩ := allAdmissible_append.mp admissible
    rw [afterAll_append]
    exact stage_le_afterAll (reachable_afterAll .empty admissibleEarlier) admissibleLater
      ((created_new Arena.tidy_empty earlier).2 id made).2
  parting := (reachable_afterAll .empty admissible).joined.partsCleanly

/-- An element with two texts shuts down. One of the texts is retired, its slot goes to a new text, the
element itself is retired, and the rest of what is pending is cleared. -/
def recycledCalls : List Call :=
  let seed (kind : Kind) : Seed := ⟨kind, ∅, .document⟩
  [.createRoot ⟨0⟩ (seed .document), .create ⟨1⟩ ⟨1, 1⟩ 0 (seed (.element "div")),
    .create ⟨2⟩ ⟨2, 1⟩ 0 (seed .text), .create ⟨3⟩ ⟨2, 1⟩ 1 (seed .text), .beginShutdown ⟨2, 1⟩,
    .retire ⟨3, 1⟩, .create ⟨2⟩ ⟨1, 1⟩ 0 (seed .text), .sync ⟨4, 1⟩ ∅ .document,
    .retire ⟨2, 1⟩, .create ⟨3⟩ ⟨1, 1⟩ 0 (seed .text), .beginShutdown ⟨3, 3⟩, .retirePending,
    .createRoot ⟨9⟩ (seed .document)]

theorem neverRecycles_recycledCalls :
    empty.AllAdmissible recycledCalls ∧ NeverRecycles recycledCalls ∧
      empty.created recycledCalls = [⟨1, 1⟩, ⟨2, 1⟩, ⟨3, 1⟩, ⟨4, 1⟩, ⟨3, 3⟩, ⟨4, 3⟩] ∧
      (empty.afterAll (recycledCalls.take 6)).lifecycle ⟨2, 1⟩ = .pendingShutdown ∧
      (empty.afterAll (recycledCalls.take 6)).lifecycle ⟨3, 1⟩ = .dead ∧
      (empty.afterAll (recycledCalls.take 6)).lifecycle ⟨4, 1⟩ = .pendingShutdown ∧
      (empty.afterAll (recycledCalls.take 6)).children ⟨2, 1⟩ = [⟨3, 1⟩, ⟨4, 1⟩] ∧
      (empty.afterAll recycledCalls).preorder = [⟨1, 1⟩, ⟨4, 3⟩] := by
  have admissible : empty.AllAdmissible recycledCalls := by
    iterate 13 refine ⟨trivial, ?_⟩
    trivial
  exact ⟨admissible, neverRecycles admissible, by decide +kernel, by decide +kernel,
    by decide +kernel, by decide +kernel, by decide +kernel, by decide +kernel⟩

end Tree

end Accessibility
