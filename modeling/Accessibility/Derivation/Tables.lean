import Accessibility.Derivation.Details
import Accessibility.Derivation.Groups
import Accessibility.Derivation.Labels
import Accessibility.Derivation.Links

/-!
The edges of all relations, and which of them depend on an attribute. A reverse relation is always
made from its partner in the same step, so no edge is without its reverse.
-/

set_option autoImplicit false

namespace Accessibility

/-- The relations that an attribute is read for. Attributes that change what is exposed are not
among them, because such a change renews every relation. -/
def RelationSet.readFrom (name : String) : RelationSet :=
  match name with
  | "id" | "role" | "type" => .every
  | "aria-labelledby" | "for" => .ofPairs [.labelledBy]
  | "name" => .ofPairs [.memberOf, .linksTo]
  | "aria-details" | "popovertarget" | "popovertargetaction" => .ofPairs [.details]
  | "href" => .ofPairs [.linksTo]
  | _ => .none

namespace Derivation.Source

/-- The edges of the stale relations derived anew, those of the others as before. Partners are
renewed together. -/
def renew (source : Source) (stale : RelationSet) (edges : Relation.Family Edges) :
    Relation.Family Edges :=
  let labelled :=
    if stale.contains .labelledBy || stale.contains .labelFor then
      let labels := source.labels
      { edges with labelledBy := labels, labelFor := labels.reversed source.preorder }
    else edges
  let grouped :=
    if stale.contains .memberOf then { labelled with memberOf := source.groups } else labelled
  let detailed :=
    if stale.contains .details || stale.contains .detailsFor then
      let details := source.details
      { grouped with details := details, detailsFor := details.reversed source.preorder }
    else grouped
  if stale.contains .linksTo then { detailed with linksTo := source.links } else detailed

end Derivation.Source

end Accessibility
