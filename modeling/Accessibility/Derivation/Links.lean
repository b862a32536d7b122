import Accessibility.Derivation.Source

/-!
Destinations of links. A link leads to the node whose DOM id is the fragment of its address, taken
literally; if there is none, to the first anchor of that name.
-/

set_option autoImplicit false

namespace Accessibility.Derivation

/-- Everything after the first hash mark, unless that is empty. -/
def fragment? (address : String) : Option String :=
  match address.toList.dropWhile (· != '#') with
  | [] => none
  | [_] => none
  | _ :: fragment => some (String.ofList fragment)

/-- The first anchor of a name in a scope. -/
def Source.anchor? (source : Source) (name : String) (scope : Scope) : Option NodeId :=
  (source.nodes.find? fun (_, node) =>
    node.scope == scope && node.hasTag "a" && node.attributes["name"]? == some name).map Prod.fst

def Source.destination? (source : Source) (node : AccessibleNode) : Option NodeId :=
  if node.role = .link then
    (node.attributes["href"]?.bind fragment?).bind fun fragment =>
      (source.tree.lookup? fragment node.scope).or (source.anchor? fragment node.scope)
  else none

def Source.links (source : Source) : Edges :=
  source.edges fun _ node => (source.destination? node).toList

end Accessibility.Derivation
