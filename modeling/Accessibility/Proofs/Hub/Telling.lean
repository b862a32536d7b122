import Accessibility.Proofs.Hub.Listeners
import Accessibility.Proofs.Hub.Streams

/-!
What a hub tells everybody, however it is used. Each stream and each listener gets its own complete
history in order, whatever the others do.
-/

set_option autoImplicit false

namespace Accessibility.Hub

/-- What everybody gets of a hub once some actions were done with it. -/
structure Tells (actions : List Action) : Prop where
  /-- What was read from a stream and what it still has queued is all that was sent out since it was
  opened. -/
  stream : ∀ {before since : List Action}, actions = before ++ .subscribe :: since →
    ∀ {id : StreamId}, (start.afterAll before).subscribe.2 = id → .abandon id ∉ since →
      (start.afterAll before).subscribe.1.takesAll id since ++ (start.afterAll actions).queued id =
        sent since
  waitFor : ∀ (id : StreamId) (wanted : Notice → Bool),
    Waits wanted ((start.afterAll actions).queued id)
      ((start.afterAll actions).takes id (.waitFor id wanted))
      ((start.afterAll actions).waitFor id wanted).answer
      (((start.afterAll actions).waitFor id wanted).state.queued id)
  /-- A wait takes nothing from other streams. -/
  others : ∀ {id other : StreamId}, id ≠ other → ∀ wanted : Notice → Bool,
    ((start.afterAll actions).waitFor id wanted).state.queued other =
      (start.afterAll actions).queued other
  /-- A listener was called with all that was sent out while it was connected. -/
  listener : ∀ {before since : List Action} {listener : Listener},
    actions = before ++ .connect listener :: since →
    ∀ {id : ListenerId}, ((start.afterAll before).connect listener).2 = id →
      (start.afterAll actions).heard id = listener.hears id since
  /-- Notices reach all connected listeners in slot order, one after the other. -/
  order : ∃ connected : List ListenerId,
    (connected.Pairwise fun left right => left.index < right.index) ∧
    (∀ {id : ListenerId}, id ∈ connected ↔ ∃ listener, Stays actions id listener) ∧
    ∀ action : Action, ((start.afterAll actions).after action).calls =
      (start.afterAll actions).calls ++
        action.notices.flatMap fun notice => connected.map (·, notice)
  /-- Streams without a reader are forgotten in the course of sending. -/
  pruned : ∀ {notices : List Notice}, notices ≠ [] →
    let all := retain notices (start.afterAll actions).subscribers (start.afterAll actions).queues
    ((start.afterAll actions).dispatch notices).subscribers = all.1 ∧
      ((start.afterAll actions).dispatch notices).queues = all.2

theorem tells_everyone (actions : List Action) : Tells actions := by
  have streaming : (start.afterAll actions).Streaming := streaming_start.afterAll actions
  have calling : (start.afterAll actions).Calling := calling_start.afterAll actions
  have parted {before since : List Action} {action : Action} (split : actions = before ++ action :: since) :
      start.afterAll actions = ((start.afterAll before).after action).afterAll since := by
    rw [split]
    exact List.foldl_append
  exact {
    stream := by
      intro before since split id named kept
      subst named
      rw [parted split]
      exact (streaming_start.afterAll before).subscribed_since kept
    waitFor := waits_waitFor streaming.isOpen
    others := by
      intro id other differ wanted
      rw [state_waitFor]
      exact queued_keep_of_ne differ _
    listener := by
      intro before since listener split id named
      subst named
      rw [parted split]
      exact heard_since (calling_start.afterAll before) listener since
    order := by
      refine ⟨_, calling.tidy.pairwise_keys, ?_, calls_after _⟩
      intro id
      rw [Arena.mem_keys]
      simp only [get?_afterAll]
    pruned := fun nonempty => dispatch_eq_retain _ nonempty }

/-- The second listener, called once, gets all of the first dispatch, and nothing of the second. -/
example (first second third : Notice) :
    (start.afterAll [.connect ⟨false⟩, .connect ⟨true⟩, .dispatch [first, second],
      .dispatch [third]]).calls =
      [(⟨1, 1⟩, first), (⟨2, 1⟩, first), (⟨1, 1⟩, second), (⟨2, 1⟩, second), (⟨1, 1⟩, third)] :=
  rfl

end Accessibility.Hub
