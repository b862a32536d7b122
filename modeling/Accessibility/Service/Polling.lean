import Accessibility.Fault

/-!
Asking again and again until there is an answer or the wait is over.
-/

set_option autoImplicit false

namespace Accessibility

/-- Asks for the first, second, … time, as often as the wait allows and at least once, and answers
the first value that is given. -/
def poll {α : Type} (condition : Nat → Option α) (retries : Nat) : Except Fault α :=
  match ((List.range (retries + 1)).map (· + 1)).findSome? condition with
  | some value => .ok value
  | none => .error .timedOut

end Accessibility
