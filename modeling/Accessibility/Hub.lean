import Accessibility.Snapshot.Notice

/-!
The hub fans notices out. Listeners are called with every notice; streams queue notices until their
reader takes them. A stream that its reader has given up is counted until the next notices go out.
-/

set_option autoImplicit false

namespace Accessibility

open Std

abbrev StreamId := Nat

/-- A listener that is called `once` disconnects itself inside its first call. -/
structure Listener where
  once : Bool
deriving DecidableEq, Repr

/-- `queues` holds what each stream has not yet given to its reader; `subscribers` are the streams
that notices are sent to, in the order of their subscription; `calls` are the calls made to
listeners and not yet collected. -/
structure Hub where
  listeners : Arena Listener
  queues : ExtTreeMap StreamId (List Notice)
  subscribers : List StreamId
  freshStream : StreamId
  calls : List (ListenerId × Notice)
  isOpen : Bool

namespace Hub

def start : Hub :=
  ⟨.empty, ∅, [], 0, [], true⟩

def listenerCount (hub : Hub) : Nat :=
  hub.listeners.size

def subscriberCount (hub : Hub) : Nat :=
  hub.subscribers.length

def connect (hub : Hub) (listener : Listener) : Hub × ListenerId :=
  ({ hub with listeners := hub.listeners.insert listener }, hub.listeners.nextKey)

/-- Disconnects a listener and answers whether it was connected. -/
def disconnect (hub : Hub) (id : ListenerId) : Hub × Bool :=
  ({ hub with listeners := hub.listeners.remove id }, hub.listeners.contains id)

def subscribe (hub : Hub) : Hub × StreamId :=
  let id := hub.freshStream
  ({ hub with
    queues := hub.queues.insert id []
    subscribers := hub.subscribers ++ [id]
    freshStream := id + 1 }, id)

/-- The reader of a stream gives it up, with all that it has not read. -/
def abandon (hub : Hub) (id : StreamId) : Hub :=
  { hub with queues := hub.queues.erase id }

/-- No more notices go out. Streams keep what they have queued. -/
def close (hub : Hub) : Hub :=
  { hub with listeners := .empty, subscribers := [], isOpen := false }

/-- The calls that some notices cause: each notice reaches all listeners in slot order before the
next one does. -/
def callsFor (hub : Hub) (notices : List Notice) : List (ListenerId × Notice) :=
  notices.flatMap fun notice => hub.listeners.toList.map fun (id, _) => (id, notice)

/-- The listeners that stay connected once they were called. -/
def remaining (hub : Hub) : Arena Listener :=
  (hub.listeners.toList.filter (·.2.once)).foldl (fun arena (id, _) => arena.remove id)
    hub.listeners

/-- Sends notices to every listener and stream. Those who are connected when it begins get all of
them. Streams without a reader are forgotten. -/
def dispatch (hub : Hub) : List Notice → Hub
  | [] => hub
  | notices =>
    let subscribers := hub.subscribers.filter hub.queues.contains
    { hub with
      calls := hub.calls ++ hub.callsFor notices
      listeners := hub.remaining
      subscribers := subscribers
      queues := subscribers.foldl (fun queues id => queues.modify id (· ++ notices)) hub.queues }

/-- Takes the calls that were made to listeners. -/
def takeCalls (hub : Hub) : Hub × List (ListenerId × Notice) :=
  ({ hub with calls := [] }, hub.calls)

def queued (hub : Hub) (id : StreamId) : List Notice :=
  hub.queues[id]?.getD []

/-- Leaves a stream with these notices unread. -/
def keep (hub : Hub) (id : StreamId) (unread : List Notice) : Hub :=
  { hub with queues := hub.queues.modify id fun _ => unread }

/-- The next notice of a stream, if one is queued. -/
def tryNext (hub : Hub) (id : StreamId) : Hub × Option Notice :=
  match hub.queued id with
  | [] => (hub, none)
  | notice :: unread => (hub.keep id unread, some notice)

/-- What waiting on an empty stream comes to. -/
def emptyFault (hub : Hub) : Fault :=
  if hub.isOpen then .timedOut else .disconnected

/-- The first queued notice that is wanted. The notices before it are consumed, and all of them if
there is none. -/
def waitFor (hub : Hub) (id : StreamId) (wanted : Notice → Bool) : Outcome Hub Notice :=
  match (hub.queued id).dropWhile (! wanted ·) with
  | [] => .failed (hub.keep id []) hub.emptyFault
  | notice :: unread => .done (hub.keep id unread) notice

/-- Everything that a stream has queued. -/
def drain (hub : Hub) (id : StreamId) : Hub × List Notice :=
  (hub.keep id [], hub.queued id)

def describe (hub : Hub) : String :=
  "Dispatcher \x7b listeners: " ++ toString hub.listenerCount
    ++ ", subscribers: " ++ toString hub.subscriberCount ++ " \x7d"

end Hub

end Accessibility
