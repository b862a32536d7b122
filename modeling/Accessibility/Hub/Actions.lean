import Accessibility.Hub

/-!
What is done with a hub, one action after the other, and what its streams and listeners get of that.
-/

set_option autoImplicit false

namespace Accessibility

open Std

namespace Hub

inductive Action where
  | connect (listener : Listener)
  | disconnect (id : ListenerId)
  | subscribe
  | abandon (id : StreamId)
  | dispatch (notices : List Notice)
  | tryNext (id : StreamId)
  | waitFor (id : StreamId) (wanted : Notice → Bool)
  | drain (id : StreamId)

/-- The notices that an action sends out. -/
def Action.notices : Action → List Notice
  | dispatch notices => notices
  | _ => []

/-- All that some actions send out, in order. -/
def sent (actions : List Action) : List Notice :=
  actions.flatMap Action.notices

def after (hub : Hub) : Action → Hub
  | .connect listener => (hub.connect listener).1
  | .disconnect id => (hub.disconnect id).1
  | .subscribe => hub.subscribe.1
  | .abandon id => hub.abandon id
  | .dispatch notices => hub.dispatch notices
  | .tryNext id => (hub.tryNext id).1
  | .waitFor id wanted => (hub.waitFor id wanted).state
  | .drain id => (hub.drain id).1

def afterAll (hub : Hub) (actions : List Action) : Hub :=
  actions.foldl after hub

/-! ### Streams -/

/-- What a wait receives of a queue, one notice after the other until one is wanted. -/
def received (wanted : Notice → Bool) : List Notice → List Notice
  | [] => []
  | notice :: rest => if wanted notice then [notice] else notice :: received wanted rest

/-- What an action takes from a stream. -/
def takes (hub : Hub) (id : StreamId) : Action → List Notice
  | .tryNext stream => if stream = id then (hub.tryNext stream).2.toList else []
  | .waitFor stream wanted => if stream = id then received wanted (hub.queued stream) else []
  | .drain stream => if stream = id then (hub.drain stream).2 else []
  | _ => []

/-- All that some actions take from a stream, in order. -/
def takesAll (hub : Hub) (id : StreamId) : List Action → List Notice
  | [] => []
  | action :: rest => hub.takes id action ++ (hub.after action).takesAll id rest

/-- Sends notices to a stream one by one, for as long as it has a reader, and tells whether all of
them were sent. -/
def send (id : StreamId) :
    List Notice → ExtTreeMap StreamId (List Notice) → ExtTreeMap StreamId (List Notice) × Bool
  | [], queues => (queues, true)
  | notice :: rest, queues =>
    if queues.contains id then send id rest (queues.modify id (· ++ [notice]))
    else (queues, false)

/-- Goes through streams and keeps those that the notices are sent to. -/
def retain (notices : List Notice) : List StreamId → ExtTreeMap StreamId (List Notice) →
    List StreamId × ExtTreeMap StreamId (List Notice)
  | [], queues => ([], queues)
  | id :: rest, queues =>
    let (queues, kept) := send id notices queues
    let (others, queues) := retain notices rest queues
    (if kept then id :: others else others, queues)

/-! ### Listeners -/

/-- What a listener was called with. -/
def heard (hub : Hub) (id : ListenerId) : List Notice :=
  (hub.calls.filter (·.1 == id)).map Prod.snd

end Hub

namespace Listener

/-- Whether a connected listener is disconnected by an action. -/
def leaves (listener : Listener) (id : ListenerId) : Hub.Action → Bool
  | .disconnect other => other == id
  | .dispatch notices => listener.once && !notices.isEmpty
  | _ => false

/-- What is sent out while a listener is connected, from an action that finds it connected on. -/
def hears (listener : Listener) (id : ListenerId) : List Hub.Action → List Notice
  | [] => []
  | action :: rest =>
    action.notices ++ if listener.leaves id action then [] else listener.hears id rest

end Listener

end Accessibility
