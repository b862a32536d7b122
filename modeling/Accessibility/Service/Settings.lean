/-!
Settings of a service. At least one batch can be queued and at least one version is retained.
-/

set_option autoImplicit false

namespace Accessibility

/-- Waits are given in milliseconds. -/
structure Settings where
  threadName : String
  queueCapacity : Nat
  retainedVersions : Nat
  waitTimeout : Nat
  pollInterval : Nat
  /-- Whether snapshots are checked before they are committed. -/
  verifies : Bool
deriving DecidableEq, Repr

namespace Settings

def standard : Settings :=
  ⟨"a11y-relation-cache", 256, 8, 5000, 10, true⟩

def named (name : String) : Settings :=
  { standard with threadName := name }

def withThreadName (settings : Settings) (name : String) : Settings :=
  { settings with threadName := name }

def withQueueCapacity (settings : Settings) (capacity : Nat) : Settings :=
  { settings with queueCapacity := max capacity 1 }

def withRetainedVersions (settings : Settings) (count : Nat) : Settings :=
  { settings with retainedVersions := max count 1 }

def withWaitTimeout (settings : Settings) (milliseconds : Nat) : Settings :=
  { settings with waitTimeout := milliseconds }

def withPollInterval (settings : Settings) (milliseconds : Nat) : Settings :=
  { settings with pollInterval := milliseconds }

def withVerification (settings : Settings) (verifies : Bool) : Settings :=
  { settings with verifies := verifies }

end Settings

end Accessibility
