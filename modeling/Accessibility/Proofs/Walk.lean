import Mathlib.Data.List.Nodup
import Mathlib.Data.List.Perm.Subperm

/-!
Walks down a structure whose nodes list their children. A walk is bounded in depth and passes over
whatever has no child list. Where every node is listed by one parent only, a walk meets no node
twice, and the number of nodes bounds its depth.
-/

set_option autoImplicit false

namespace Accessibility.Walk

variable {α β : Type}

/-- The nodes met on the way down, in preorder and at most `depth` levels deep. -/
def descend (children : α → Option (List α)) : (depth : Nat) → α → List α
  | 0, _ => []
  | depth + 1, node =>
    match children node with
    | none => []
    | some below => node :: below.flatMap (descend children depth)

/-- A way down of a number of steps, from each node to one that it lists. -/
inductive Reaches (children : α → Option (List α)) : Nat → α → α → Prop
  | here (node : α) : Reaches children 0 node node
  | step {steps : Nat} {node child target : α} {below : List α}
      (known : children node = some below) (listed : child ∈ below)
      (rest : Reaches children steps child target) : Reaches children (steps + 1) node target

variable {children : α → Option (List α)}

namespace Reaches

theorem eq_of_zero {node target : α} (reached : Reaches children 0 node target) :
    node = target := by
  cases reached
  rfl

theorem trans {first second : Nat} {node middle target : α}
    (upper : Reaches children first node middle) (lower : Reaches children second middle target) :
    Reaches children (first + second) node target := by
  induction upper with
  | here _ => simpa only [Nat.zero_add] using lower
  | step known listed _ ih =>
    rw [Nat.add_right_comm]
    exact .step known listed (ih lower)

theorem snoc {steps : Nat} {node parent target : α} {below : List α}
    (upper : Reaches children steps node parent) (known : children parent = some below)
    (listed : target ∈ below) : Reaches children (steps + 1) node target :=
  upper.trans (.step known listed (.here target))

/-- The last step of a way that has one. -/
theorem last {steps : Nat} {node target : α}
    (reached : Reaches children (steps + 1) node target) :
    ∃ parent below, Reaches children steps node parent ∧ children parent = some below ∧
      target ∈ below := by
  induction steps generalizing node with
  | zero =>
    cases reached with
    | step known listed rest =>
      have same := rest.eq_of_zero
      subst same
      exact ⟨_, _, .here _, known, listed⟩
  | succ steps ih =>
    cases reached with
    | step known listed rest =>
      obtain ⟨parent, below, upper, knownParent, listedTarget⟩ := ih rest
      exact ⟨parent, below, .step known listed upper, knownParent, listedTarget⟩

end Reaches

@[simp] theorem descend_zero (node : α) : descend children 0 node = [] := rfl

theorem descend_succ_of_some {node : α} {below : List α} (known : children node = some below)
    (depth : Nat) :
    descend children (depth + 1) node = node :: below.flatMap (descend children depth) := by
  simp only [descend, known]

theorem descend_succ_of_none {node : α} (unknown : children node = none) (depth : Nat) :
    descend children (depth + 1) node = [] := by
  simp only [descend, unknown]

theorem mem_descend {depth : Nat} {node target : α} :
    target ∈ descend children depth node ↔
      (∃ steps, steps < depth ∧ Reaches children steps node target) ∧
        (children target).isSome = true := by
  induction depth generalizing node with
  | zero => simp
  | succ depth ih =>
    cases known : children node with
    | none =>
      rw [descend_succ_of_none known]
      constructor
      · intro listed
        cases listed
      · rintro ⟨⟨steps, -, reached⟩, stored⟩
        cases reached with
        | here _ =>
          rw [known] at stored
          cases stored
        | step known' _ _ =>
          rw [known] at known'
          cases known'
    | some below =>
      rw [descend_succ_of_some known, List.mem_cons, List.mem_flatMap]
      constructor
      · rintro (rfl | ⟨child, listed, lower⟩)
        · exact ⟨⟨0, Nat.zero_lt_succ depth, .here _⟩, by simp only [known, Option.isSome_some]⟩
        · obtain ⟨⟨steps, bound, reached⟩, stored⟩ := ih.mp lower
          exact ⟨⟨steps + 1, Nat.succ_lt_succ bound, .step known listed reached⟩, stored⟩
      · rintro ⟨⟨steps, bound, reached⟩, stored⟩
        cases reached with
        | here _ => exact .inl rfl
        | step known' listed rest =>
          cases known.symm.trans known'
          exact .inr ⟨_, listed, ih.mpr ⟨⟨_, Nat.lt_of_succ_lt_succ bound, rest⟩, stored⟩⟩

/-- Renaming the nodes of a structure renames its ways down. -/
theorem Reaches.map {renamed : β → Option (List β)} {name : α → β} {steps : Nat} {node target : α}
    (reached : Reaches children steps node target)
    (same : ∀ steps target, Reaches children steps node target →
      renamed (name target) = (children target).map (List.map name)) :
    Reaches renamed steps (name node) (name target) := by
  induction reached with
  | here _ => exact .here _
  | @step steps node child target below known listed rest ih =>
    have renamedNode := same 0 node (.here node)
    rw [known, Option.map_some] at renamedNode
    exact .step renamedNode (List.mem_map_of_mem listed)
      (ih fun _ _ lower => same _ _ (.step known listed lower))

/-- Renaming the nodes of a structure renames its walks. -/
theorem descend_map {renamed : β → Option (List β)} {name : α → β} {depth : Nat} {node : α}
    (same : ∀ steps target, Reaches children steps node target →
      renamed (name target) = (children target).map (List.map name)) :
    descend renamed depth (name node) = (descend children depth node).map name := by
  induction depth generalizing node with
  | zero => rfl
  | succ depth ih =>
    have renamedNode := same 0 node (.here node)
    cases known : children node with
    | none =>
      rw [known] at renamedNode
      rw [descend_succ_of_none known, descend_succ_of_none renamedNode]
      rfl
    | some below =>
      rw [known] at renamedNode
      rw [descend_succ_of_some known, descend_succ_of_some renamedNode, List.map_cons,
        List.flatMap_map, List.map_flatMap]
      congr 1
      apply List.flatMap_congr
      intro child listed
      apply ih
      intro steps target lower
      exact same (steps + 1) target (.step known listed lower)

/-- A walk does not depend on child lists that it does not meet. -/
theorem descend_congr {other : α → Option (List α)} {depth : Nat} {node : α}
    (same : ∀ steps target, Reaches children steps node target → other target = children target) :
    descend other depth node = descend children depth node := by
  have renamed : descend other depth (id node) = (descend children depth node).map id := by
    refine descend_map fun steps target reached => ?_
    rw [List.map_id_fun, Option.map_id_fun]
    exact same steps target reached
  simpa only [id_eq, List.map_id_fun] using renamed

/-- More depth than there is to go down changes nothing. -/
theorem descend_eq_of_le {depth deeper : Nat} {node : α} (le : depth ≤ deeper)
    (bounded : ∀ steps target, Reaches children steps node target → steps < depth) :
    descend children deeper node = descend children depth node := by
  induction depth generalizing node deeper with
  | zero => exact absurd (bounded 0 node (.here node)) (Nat.not_lt_zero 0)
  | succ depth ih =>
    obtain ⟨deeper, rfl⟩ : ∃ less, deeper = less + 1 := ⟨deeper - 1, by omega⟩
    cases known : children node with
    | none => rw [descend_succ_of_none known, descend_succ_of_none known]
    | some below =>
      rw [descend_succ_of_some known, descend_succ_of_some known]
      congr 1
      apply List.flatMap_congr
      intro child listed
      apply ih (Nat.le_of_succ_le_succ le)
      intro steps target lower
      exact Nat.lt_of_succ_lt_succ (bounded (steps + 1) target (.step known listed lower))

/-- Below the root every node is listed once, by the one node that it names as its parent. -/
structure Rooted (children : α → Option (List α)) (parent : α → Option α) (root : α) : Prop where
  parent_root : parent root = none
  parent_listed : ∀ {steps : Nat} {node child : α} {below : List α},
    Reaches children steps root node → children node = some below → child ∈ below →
    parent child = some node
  nodup : ∀ {steps : Nat} {node : α} {below : List α}, Reaches children steps root node →
    children node = some below → below.Nodup

namespace Rooted

variable {parent : α → Option α} {root : α}

theorem parent_of_step (rooted : Rooted children parent root) {steps : Nat} {target : α}
    (reached : Reaches children (steps + 1) root target) :
    ∃ above, Reaches children steps root above ∧ parent target = some above := by
  obtain ⟨above, below, upper, known, listed⟩ := reached.last
  exact ⟨above, upper, rooted.parent_listed upper known listed⟩

/-- All ways from the root to a node have the same number of steps. -/
theorem steps_unique (rooted : Rooted children parent root) {first second : Nat} {target : α}
    (left : Reaches children first root target) (right : Reaches children second root target) :
    first = second := by
  induction first generalizing second target with
  | zero =>
    cases second with
    | zero => rfl
    | succ second =>
      obtain ⟨above, -, named⟩ := rooted.parent_of_step right
      rw [← left.eq_of_zero, rooted.parent_root] at named
      cases named
  | succ first ih =>
    obtain ⟨above, upper, named⟩ := rooted.parent_of_step left
    cases second with
    | zero =>
      rw [← right.eq_of_zero, rooted.parent_root] at named
      cases named
    | succ second =>
      obtain ⟨above', upper', named'⟩ := rooted.parent_of_step right
      rw [named] at named'
      cases named'
      rw [ih upper upper']

/-- Two ways of the same length to one node start at the same node. -/
theorem start_unique (rooted : Rooted children parent root) {depth depth' steps : Nat}
    {left right target : α} (reachedLeft : Reaches children depth root left)
    (reachedRight : Reaches children depth' root right)
    (lowerLeft : Reaches children steps left target)
    (lowerRight : Reaches children steps right target) : left = right := by
  induction steps generalizing target with
  | zero => exact lowerLeft.eq_of_zero.trans lowerRight.eq_of_zero.symm
  | succ steps ih =>
    obtain ⟨above, below, upper, known, listed⟩ := lowerLeft.last
    obtain ⟨above', below', upper', known', listed'⟩ := lowerRight.last
    have named := rooted.parent_listed (reachedLeft.trans upper) known listed
    have named' := rooted.parent_listed (reachedRight.trans upper') known' listed'
    rw [named] at named'
    cases named'
    exact ih upper upper'

theorem nodup_descend (rooted : Rooted children parent root) {steps depth : Nat} {node : α}
    (reached : Reaches children steps root node) : (descend children depth node).Nodup := by
  induction depth generalizing steps node with
  | zero => exact List.nodup_nil
  | succ depth ih =>
    cases known : children node with
    | none =>
      rw [descend_succ_of_none known]
      exact List.nodup_nil
    | some below =>
      rw [descend_succ_of_some known, List.nodup_cons]
      constructor
      · intro again
        obtain ⟨child, listed, lower⟩ := List.mem_flatMap.mp again
        obtain ⟨⟨more, -, rest⟩, -⟩ := mem_descend.mp lower
        have longer := (reached.snoc known listed).trans rest
        have same := rooted.steps_unique reached longer
        omega
      · rw [List.nodup_flatMap]
        constructor
        · intro child listed
          exact ih (reached.snoc known listed)
        · -- Two siblings with a common node below them are at the same distance from it.
          refine (rooted.nodup reached known).imp_of_mem ?_
          intro left right listedLeft listedRight differ target lowerLeft lowerRight
          obtain ⟨⟨first, -, restLeft⟩, -⟩ := mem_descend.mp lowerLeft
          obtain ⟨⟨second, -, restRight⟩, -⟩ := mem_descend.mp lowerRight
          have reachedLeft := reached.snoc known listedLeft
          have reachedRight := reached.snoc known listedRight
          have same := rooted.steps_unique (reachedLeft.trans restLeft)
            (reachedRight.trans restRight)
          obtain rfl : first = second := by omega
          exact differ (rooted.start_unique reachedLeft reachedRight restLeft restRight)

/-- The way to a node meets as many nodes as it has steps, and one more. -/
theorem exists_path (rooted : Rooted children parent root) {steps : Nat} {target : α}
    (reached : Reaches children steps root target) :
    ∃ path : List α, path.length = steps + 1 ∧ path.Nodup ∧
      ∀ node ∈ path, ∃ fewer, fewer ≤ steps ∧ Reaches children fewer root node := by
  induction steps generalizing target with
  | zero =>
    refine ⟨[target], rfl, List.nodup_singleton target, ?_⟩
    intro node listed
    rw [List.mem_singleton] at listed
    subst listed
    exact ⟨0, Nat.le_refl 0, reached⟩
  | succ steps ih =>
    obtain ⟨above, upper, -⟩ := rooted.parent_of_step reached
    obtain ⟨path, length, nodup, met⟩ := ih upper
    refine ⟨target :: path, by rw [List.length_cons, length], ?_, ?_⟩
    · refine List.nodup_cons.mpr ⟨?_, nodup⟩
      intro again
      obtain ⟨fewer, bound, earlier⟩ := met target again
      have same := rooted.steps_unique reached earlier
      omega
    · intro node listed
      rcases List.mem_cons.mp listed with rfl | listed
      · exact ⟨steps + 1, Nat.le_refl _, reached⟩
      · obtain ⟨fewer, bound, earlier⟩ := met node listed
        exact ⟨fewer, Nat.le_succ_of_le bound, earlier⟩

theorem steps_lt_length (rooted : Rooted children parent root) {nodes : List α}
    (complete : ∀ steps node, Reaches children steps root node → node ∈ nodes)
    {steps : Nat} {target : α} (reached : Reaches children steps root target) :
    steps < nodes.length := by
  obtain ⟨path, length, nodup, met⟩ := rooted.exists_path reached
  have contained : path ⊆ nodes := by
    intro node listed
    obtain ⟨fewer, -, earlier⟩ := met node listed
    exact complete fewer node earlier
  have bound := (List.subperm_of_subset nodup contained).length_le
  omega

end Rooted

end Accessibility.Walk
