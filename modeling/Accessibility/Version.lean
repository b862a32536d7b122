/-!
Numbers of committed versions. They count up from zero, the version before the first commit.
-/

set_option autoImplicit false

namespace Accessibility

abbrev Version := Nat

namespace Version

def text (version : Version) : String :=
  "v" ++ toString version

def display (version : Version) : String :=
  "Version(" ++ toString version ++ ")"

end Version

end Accessibility
