/-!
Reading a bounded number from decimal digits.
-/

set_option autoImplicit false

namespace Accessibility.Text

def isDigit (c : Char) : Bool :=
  '0' ≤ c && c ≤ '9'

/-- The number that a list of digits denotes, most significant digit first. -/
def digitsValue (digits : List Char) : Nat :=
  digits.foldl (fun value c => value * 10 + (c.toNat - '0'.toNat)) 0

/-- Reads one or more digits after an optional plus sign. Any other text, and any number that is
not below the bound, is refused. -/
def readBelow? (bound : Nat) (text : String) : Option Nat :=
  let digits :=
    match text.toList with
    | '+' :: rest => rest
    | chars => chars
  if digits.isEmpty || !digits.all isDigit then none
  else
    let value := digitsValue digits
    if value < bound then some value else none

end Accessibility.Text
