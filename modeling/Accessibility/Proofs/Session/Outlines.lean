import Accessibility.Proofs.Session.Runs
import Accessibility.Proofs.Snapshot.Drawing

/-!
Outlines of the versions that sessions commit. Each of these is a single tree, so its outline shows the
nodes in tree order.
-/

set_option autoImplicit false

namespace Accessibility.Session

open Outline

theorem Settled.hangs {session : Session} (settled : session.Settled) :
    ∃ root, session.history.current.Hangs root := by
  obtain ⟨root, _, atTop, -⟩ := settled.rooted
  obtain ⟨version, edges, current⟩ := settled.current
  rw [current]
  exact ⟨root, (Tree.hangs_snapshot settled.sound atTop).versioned version⟩

end Accessibility.Session
