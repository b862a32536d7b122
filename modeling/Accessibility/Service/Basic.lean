import Accessibility.Change.Cycle
import Accessibility.Service.Polling
import Accessibility.Service.Settings
import Accessibility.Session.Basic

/-!
A session behind a bounded queue. Clients submit batches; a worker takes them from the queue and
applies them in the order of their arrival. After the shutdown no batch is accepted, and those that
were accepted are still applied before the worker exits.
-/

set_option autoImplicit false

namespace Accessibility

inductive Message where
  | batch (changes : List Change)
  /-- Apply what is queued, then exit. -/
  | stop
deriving DecidableEq

/-- A draining worker has met the message to stop. -/
inductive Worker where
  | waiting
  | draining
  | exited
deriving DecidableEq, Repr

structure Service where
  session : Session
  queue : List Message
  capacity : Nat
  /-- Whether batches are accepted. -/
  running : Bool
  /-- Accepted batches that are not yet applied. -/
  pending : Nat
  worker : Worker
  /-- Whether somebody has waited for the exit of the worker. -/
  joined : Bool

namespace Service

/-- Starts a service for a document. Its first version is committed before anything is accepted. -/
def start (subtree : Subtree) (settings : Settings) : Except Fault Service := do
  let session ← Session.start subtree settings.retainedVersions settings.verifies
  return ⟨session, [], max settings.queueCapacity 1, true, 0, .waiting, false⟩

def hasRoom (service : Service) : Bool :=
  service.queue.length < service.capacity

/-- Applies an accepted batch. -/
def applyBatch (service : Service) (changes : List Change) : Service :=
  { service with
    session := (service.session.apply changes).state
    pending := service.pending - 1 }

def exit (service : Service) : Service :=
  { service with worker := .exited, running := false }

/-- One step of the worker. A waiting worker takes a message, or, when there is none, exits if
nothing more can come; a draining one applies what is queued and then exits. -/
def work (service : Service) : Service :=
  match service.worker, service.queue with
  | .exited, _ => service
  | .waiting, [] => if service.running || service.pending != 0 then service else service.exit
  | .waiting, .batch changes :: queue => { service with queue }.applyBatch changes
  | .waiting, .stop :: queue => { service with queue, worker := .draining }
  | .draining, [] => service.exit
  | .draining, .batch changes :: queue => { service with queue }.applyBatch changes
  | .draining, .stop :: queue => { service with queue }

def workFor (service : Service) : (steps : Nat) → Service
  | 0 => service
  | steps + 1 => service.work.workFor steps

/-- Lets the worker go on until it has nothing more to do: one step for each message, and one to
exit. -/
def settle (service : Service) : Service :=
  service.workFor (service.queue.length + 1)

/-- A client with a batch waits while the queue is full. -/
def makeRoom (service : Service) : Service :=
  if service.hasRoom then service else service.work

/-- Accepts a batch, unless the service was shut down. A worker that has exited takes nothing from
the queue, so that what is sent to it is refused and not counted. -/
def submit (service : Service) (changes : List Change) : Outcome Service Unit :=
  if service.running then
    let service := service.makeRoom
    if service.worker = .exited then .failed service .disconnected
    else .done
      { service with queue := service.queue ++ [.batch changes], pending := service.pending + 1 } ()
  else .failed service .disconnected

/-- Accepts nothing more. Without room for the message to stop, the worker exits once it has nothing
to do. -/
def shutDown (service : Service) : Service :=
  let closed := { service with running := false }
  if service.hasRoom && service.worker != .exited then
    { closed with queue := closed.queue ++ [.stop] }
  else closed

/-- Waits for the worker to exit. Answers whether it was the first to do so. -/
def join (service : Service) : Service × Bool :=
  if service.joined then (service, false) else ({ service.settle with joined := true }, true)

/-- Waits until every accepted batch is applied, and answers the snapshot that there is then. -/
def awaitIdle (service : Service) : Outcome Service Snapshot :=
  let settled := service.settle
  if settled.pending = 0 then .done settled settled.session.history.current
  else .failed settled .timedOut

/-- Waits for a version. -/
def awaitVersion (service : Service) (version : Version) : Outcome Service Snapshot :=
  let settled := service.settle
  ⟨settled, settled.session.history.awaitVersion version⟩

/-- Waits for a node that stands for a content node. -/
def awaitExposed (service : Service) (content : Handle) : Outcome Service NodeId :=
  let settled := service.settle
  ⟨settled, poll (fun _ => settled.session.history.current.nodeFor? content) 0⟩

def withHub (service : Service) (hub : Hub) : Service :=
  { service with session := { service.session with hub } }

def describe (service : Service) : String :=
  "AccessibilityCache \x7b running: " ++ toString service.running
    ++ ", pending_batches: " ++ toString service.pending
    ++ ", version: " ++ service.session.history.version.display ++ " \x7d"

/-- The text for the side of the service that only accepts batches. -/
def describeSink (service : Service) : String :=
  "CacheSink \x7b running: " ++ toString service.running ++ " \x7d"

end Service

/-- Ends a cycle and delivers its batch, if it has any. A cycle is over even if its batch is
refused. Answers whether a batch was delivered. -/
def Collector.flush {σ : Type} (collector : Collector) (receiver : σ)
    (deliver : σ → Batch → Outcome σ Unit) : Collector × Outcome σ Bool :=
  match collector.endCycle with
  | (ended, none) => (ended, .done receiver false)
  | (ended, some batch) =>
    (ended, (deliver receiver batch).andThen fun receiver _ => .done receiver true)

end Accessibility
