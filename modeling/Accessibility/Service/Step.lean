import Accessibility.Service.Basic

/-!
A service as clients and the worker act on it in any order. What is accepted and applied is recorded
beside the service, and who can still reach it: the owner, and sinks that only submit batches.
-/

set_option autoImplicit false

namespace Accessibility.Service

/-- A service with the batches accepted so far and those applied so far, in order. -/
structure Trace where
  service : Service
  /-- Whether the owner still has the service. -/
  owned : Bool
  /-- How many sinks there are. -/
  sinks : Nat
  accepted : List (List Change)
  applied : List (List Change)

/-- The batches in a queue. -/
def batches (queue : List Message) : List (List Change) :=
  queue.filterMap fun
    | .batch changes => some changes
    | .stop => none

/-- The batch that the next step of the worker applies. -/
def nextApplied (service : Service) : List (List Change) :=
  match service.worker, service.queue with
  | .exited, _ => []
  | _, .batch changes :: _ => [changes]
  | _, _ => []

namespace Trace

/-- A service that has just been started, with its owner alone. -/
def begin (service : Service) : Trace :=
  ⟨service, true, 0, [], []⟩

/-- Whether anybody can still submit. -/
def isHeld (trace : Trace) : Bool :=
  trace.owned || trace.sinks != 0

/-- Submits a batch. It is accepted if the answer says so. -/
def submit (trace : Trace) (changes : List Change) : Trace :=
  let outcome := trace.service.submit changes
  { trace with
    service := outcome.state
    accepted := match outcome.answer with
      | .ok _ => trace.accepted ++ [changes]
      | .error _ => trace.accepted }

def shutDown (trace : Trace) : Trace :=
  { trace with service := trace.service.shutDown }

/-- The worker takes one step. -/
def work (trace : Trace) : Trace :=
  { trace with
    service := trace.service.work
    applied := trace.applied ++ trace.service.nextApplied }

/-- The worker takes some steps. -/
def workFor (trace : Trace) : (steps : Nat) → Trace
  | 0 => trace
  | steps + 1 => trace.work.workFor steps

end Trace

/-- One atomic step. To drain the queue takes a step for each message, so others can act in
between. -/
inductive Step : Trace → Trace → Prop
  /-- A client waits while the queue is full. -/
  | submit (trace : Trace) (changes : List Change) (held : trace.isHeld = true)
      (ready : trace.service.running = true → trace.service.hasRoom = true) :
      Step trace (trace.submit changes)
  | shutDown (trace : Trace) (owned : trace.owned = true) : Step trace trace.shutDown
  /-- The worker takes a message, or finds none in time, or goes on to drain the queue. -/
  | work (trace : Trace) : Step trace trace.work
  /-- The owner hands out a sink, or a sink is copied. -/
  | share (trace : Trace) (held : trace.isHeld = true) :
      Step trace { trace with sinks := trace.sinks + 1 }
  | release (trace : Trace) (shared : trace.sinks ≠ 0) :
      Step trace { trace with sinks := trace.sinks - 1 }
  /-- The owner gives the service up, which shuts it down. -/
  | abandon (trace : Trace) (owned : trace.owned = true) :
      Step trace { trace.shutDown with owned := false }
  /-- A worker that waits for messages exits when nobody is left to send any. -/
  | disconnect (trace : Trace) (unheld : trace.isHeld = false)
      (waits : trace.service.worker = .waiting) (idle : trace.service.queue = []) :
      Step trace { trace with service := trace.service.exit }

end Accessibility.Service
