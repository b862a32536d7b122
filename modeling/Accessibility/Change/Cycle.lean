import Accessibility.Change.Normal

/-!
Collecting the reports of an update cycle until it ends. Cycles that come to nothing are not
counted.
-/

set_option autoImplicit false

namespace Accessibility

/-- The reports of the current cycle and the number of cycles that came to something. -/
structure Collector where
  pending : List Report
  cycles : Nat
deriving DecidableEq

namespace Collector

def empty : Collector :=
  ⟨[], 0⟩

def record (collector : Collector) (report : Report) : Collector :=
  { collector with pending := collector.pending ++ [report] }

/-- Records a report unless it tells of an unknown property. -/
def notify (collector : Collector) (report : Report) : Collector :=
  if report.isKnown then collector.record report else collector

/-- Ends the cycle and answers its batch, if the reports come to anything. -/
def endCycle (collector : Collector) : Collector × Option Batch :=
  match Report.normalize collector.pending with
  | [] => ({ collector with pending := [] }, none)
  | changes =>
    let cycle := collector.cycles + 1
    (⟨[], cycle⟩, some ⟨cycle, changes⟩)

end Collector

end Accessibility
