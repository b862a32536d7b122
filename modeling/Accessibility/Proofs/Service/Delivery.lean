import Accessibility.Proofs.Document.Edits
import Accessibility.Proofs.Session.Runs
import Accessibility.Service.Step
import Mathlib.Logic.Relation

/-!
A service neither loses nor repeats a batch, and applies batches in the order in which it accepted
them. What carries this over every step is that the batches applied, followed by those in the queue,
are the accepted ones; that only a waiting worker is ever behind an open service; and that a worker
leaves an empty queue behind.
-/

set_option autoImplicit false

open Relation

namespace Accessibility

/-! ### Versions of a run -/

namespace Session

/-- A batch that is applied makes the next version, whatever the session. -/
theorem version_of_answer {session : Session} {changes : List Change} {version : Version}
    (answered : (session.apply changes).answer = .ok version) :
    (session.apply changes).state.history.version = session.history.version + 1 := by
  unfold apply at answered ⊢
  dsimp only at answered ⊢
  split
  · rename_i alters
    rw [if_pos alters] at answered
    split
    · rename_i failed
      rw [failed] at answered
      cases answered
    · rfl
  · rfl

theorem Succeeds.version {session : Session} {batches : List (List Change)}
    (succeeds : session.Succeeds batches) :
    (session.run batches).history.version = session.history.version + batches.length := by
  induction batches generalizing session with
  | nil => rfl
  | cons changes rest ih =>
    obtain ⟨⟨version, answered⟩, others⟩ := succeeds
    rw [run_cons, ih others, version_of_answer answered, List.length_cons, Nat.add_assoc,
      Nat.add_comm 1]

/-- Sound batches are all applied. -/
theorem Settled.succeeds {session : Session} (settled : session.Settled)
    {batches : List (List Change)}
    (sound : ∀ changes ∈ batches, ∀ change ∈ changes, change.Sound session.document.root) :
    session.Succeeds batches := by
  induction batches generalizing session with
  | nil => trivial
  | cons changes rest ih =>
    obtain ⟨soundHere, soundRest⟩ := List.forall_mem_cons.mp sound
    obtain ⟨compared, -, applied⟩ := apply_advanced settled soundHere
    have root : (session.apply changes).state.document.root = session.document.root := by
      rw [document_apply settled soundHere, Document.root_afterAll]
    refine ⟨⟨_, congrArg Outcome.answer (applied session.hub)⟩, ih (settled.apply soundHere) ?_⟩
    rw [root]
    exact soundRest

/-- A session begins with version 1. -/
theorem version_of_start {subtree : Subtree} {capacity : Nat} {verifies : Bool} {session : Session}
    (started : Session.start subtree capacity verifies = .ok session) :
    session.history.version = 1 := by
  rw [start_eq] at started
  dsimp only at started
  split at started
  · cases started
  · rename_i node _
    cases rooted : (Tree.empty.createRoot (Document.ofSubtree subtree).root
      ⟨node.kind, node.attributes, .document⟩).answer with
    | error fault =>
      rw [rooted] at started
      cases started
    | ok id =>
      rw [rooted] at started
      dsimp only [bind, Except.bind] at started
      split at started
      · cases started
      · cases started
        rfl

end Session

namespace Service

variable {service : Service} {first : Session} {trace next : Trace}

/-! ### Steps -/

theorem batches_append (first second : List Message) :
    batches (first ++ second) = batches first ++ batches second :=
  List.filterMap_append

theorem makeRoom_of_hasRoom (room : service.hasRoom = true) : service.makeRoom = service := by
  rw [makeRoom, if_pos room]

theorem batches_shutDown (service : Service) :
    batches service.shutDown.queue = batches service.queue := by
  unfold shutDown
  dsimp only
  split
  · rw [batches_append]
    exact List.append_nil _
  · rfl

theorem session_shutDown (service : Service) : service.shutDown.session = service.session := by
  unfold shutDown
  dsimp only
  split <;> rfl

/-- What one step of the worker can be, with the batches that it applies. -/
inductive Works (service : Service) : List (List Change) → Service → Prop
  | stays (still : service.queue = [] ∨ service.worker = .exited) : Works service [] service
  | exits (empty : service.queue = []) (closed : service.worker = .draining ∨ service.running = false) :
    Works service [] service.exit
  | applies {changes : List Change} {rest : List Message} (active : service.worker ≠ .exited)
    (taken : service.queue = .batch changes :: rest) :
    Works service [changes] ({ service with queue := rest }.applyBatch changes)
  | stops {rest : List Message} (active : service.worker ≠ .exited)
    (taken : service.queue = .stop :: rest) :
    Works service [] { service with queue := rest, worker := .draining }

theorem works (service : Service) : Works service service.nextApplied service.work := by
  obtain ⟨session, queue, capacity, running, pending, worker, joined⟩ := service
  cases worker with
  | exited => exact .stays (.inr rfl)
  | waiting =>
    match queue with
    | [] =>
      unfold work nextApplied
      dsimp only
      split
      · exact .stays (.inl rfl)
      · rename_i exited
        rw [Bool.not_eq_true, Bool.or_eq_false_iff] at exited
        exact .exits rfl (.inr exited.1)
    | .batch changes :: rest => exact .applies Worker.noConfusion rfl
    | .stop :: rest => exact .stops Worker.noConfusion rfl
  | draining =>
    match queue with
    | [] => exact .exits rfl (.inl rfl)
    | .batch changes :: rest => exact .applies Worker.noConfusion rfl
    | .stop :: rest => exact .stops Worker.noConfusion rfl

/-! ### What every step keeps -/

/-- A service whose count, queue and worker are in step. -/
structure Orderly (service : Service) : Prop where
  counted : service.pending = (batches service.queue).length
  bounded : service.queue.length ≤ service.capacity
  /-- As long as batches are accepted, the worker waits and nothing tells it to stop. -/
  accepting : service.running = true → service.worker = .waiting ∧ .stop ∉ service.queue
  emptied : service.worker = .exited → service.queue = []

namespace Orderly

theorem exit (orderly : service.Orderly) (empty : service.queue = []) : service.exit.Orderly where
  counted := orderly.counted
  bounded := orderly.bounded
  accepting := nofun
  emptied _ := empty

theorem shutDown (orderly : service.Orderly) : service.shutDown.Orderly := by
  unfold Service.shutDown
  dsimp only
  split
  · rename_i sends
    obtain ⟨room, active⟩ := Bool.and_eq_true_iff.mp sends
    refine ⟨?_, ?_, nofun, fun exited => absurd exited (bne_iff_ne.mp active)⟩
    · dsimp only
      rw [batches_append, orderly.counted]
      exact congrArg List.length (List.append_nil _).symm
    · dsimp only
      rw [List.length_append]
      exact of_decide_eq_true room
  · exact ⟨orderly.counted, orderly.bounded, nofun, orderly.emptied⟩

/-- An open service with room takes a batch at the end of its queue. -/
theorem submit_eq (orderly : service.Orderly) (open_ : service.running = true)
    (room : service.hasRoom = true) (changes : List Change) :
    service.submit changes = .done
      { service with
        queue := service.queue ++ [.batch changes], pending := service.pending + 1 } () := by
  have active : service.worker ≠ .exited := by
    rw [(orderly.accepting open_).1]
    exact Worker.noConfusion
  unfold Service.submit
  dsimp only
  rw [if_pos open_, makeRoom_of_hasRoom room, if_neg active]

theorem enqueued (orderly : service.Orderly) (open_ : service.running = true)
    (room : service.hasRoom = true) (changes : List Change) :
    Orderly { service with
      queue := service.queue ++ [.batch changes], pending := service.pending + 1 } := by
  obtain ⟨waits, unstopped⟩ := orderly.accepting open_
  refine ⟨?_, ?_, fun _ => ⟨waits, ?_⟩, fun exited => ?_⟩
  · dsimp only
    rw [batches_append, orderly.counted, List.length_append]
    rfl
  · dsimp only
    rw [List.length_append]
    exact of_decide_eq_true room
  · dsimp only
    rw [List.mem_append]
    rintro (stopped | stopped)
    · exact unstopped stopped
    · cases List.mem_singleton.mp stopped
  · rw [waits] at exited
    cases exited

theorem works (orderly : service.Orderly) {applied : List (List Change)} {after : Service}
    (worked : Works service applied after) : after.Orderly := by
  cases worked with
  | stays => exact orderly
  | exits empty closed => exact orderly.exit empty
  | @applies changes rest active taken =>
    have counted := orderly.counted
    have bounded := orderly.bounded
    rw [taken] at counted bounded
    refine ⟨?_, Nat.le_of_succ_le bounded, fun open_ => ?_, fun exited => absurd exited active⟩
    · show service.pending - 1 = _
      rw [counted]
      rfl
    · obtain ⟨waits, unstopped⟩ := orderly.accepting open_
      rw [taken] at unstopped
      exact ⟨waits, fun stopped => unstopped (List.mem_cons_of_mem _ stopped)⟩
  | @stops rest active taken =>
    have counted := orderly.counted
    have bounded := orderly.bounded
    rw [taken] at counted bounded
    refine ⟨counted, Nat.le_of_succ_le bounded, fun open_ => ?_, nofun⟩
    have unstopped := (orderly.accepting open_).2
    rw [taken] at unstopped
    exact absurd List.mem_cons_self unstopped

/-- The worker takes the messages off the queue one by one. -/
theorem queue_works (orderly : service.Orderly) {applied : List (List Change)} {after : Service}
    (worked : Works service applied after) : after.queue = service.queue.tail := by
  cases worked with
  | stays still =>
    have empty : service.queue = [] := still.elim id orderly.emptied
    rw [empty, List.tail_nil]
  | exits empty closed =>
    show service.queue = _
    rw [empty, List.tail_nil]
  | applies active taken =>
    rw [taken]
    rfl
  | stops active taken =>
    rw [taken]
    rfl

theorem queue_workFor (orderly : service.Orderly) (steps : Nat) :
    (service.workFor steps).queue = service.queue.drop steps := by
  induction steps generalizing service with
  | zero => rfl
  | succ steps ih =>
    have worked := service.works
    rw [workFor, ih (orderly.works worked), orderly.queue_works worked, List.drop_tail]

end Orderly

/-- A trace that goes back to a session: every accepted batch is either applied or in the queue, in
the order of the submissions, and the applied ones have made the session what it is. -/
structure Recorded (first : Session) (trace : Trace) : Prop where
  orderly : trace.service.Orderly
  order : trace.applied ++ batches trace.service.queue = trace.accepted
  session : trace.service.session = first.run trace.applied

namespace Recorded

theorem works (recorded : Recorded first trace) {applied : List (List Change)} {after : Service}
    (worked : Works trace.service applied after) :
    Recorded first { trace with service := after, applied := trace.applied ++ applied } := by
  have order := recorded.order
  have session := recorded.session
  refine ⟨recorded.orderly.works worked, ?_, ?_⟩
  · cases worked with
    | stays => rw [List.append_nil, order]
    | exits =>
      rw [List.append_nil]
      exact order
    | applies active taken =>
      rw [taken] at order
      rw [List.append_assoc]
      exact order
    | stops active taken =>
      rw [taken] at order
      rw [List.append_nil]
      exact order
  · cases worked with
    | stays => rw [List.append_nil, session]
    | exits =>
      rw [List.append_nil]
      exact session
    | applies =>
      rw [Session.run_snoc, ← session]
      rfl
    | stops =>
      rw [List.append_nil]
      exact session

theorem submit (recorded : Recorded first trace) (changes : List Change)
    (ready : trace.service.running = true → trace.service.hasRoom = true) :
    Recorded first (trace.submit changes) := by
  unfold Trace.submit
  dsimp only
  cases running : trace.service.running with
  | true =>
    have room := ready running
    rw [recorded.orderly.submit_eq running room]
    refine ⟨recorded.orderly.enqueued running room changes, ?_, recorded.session⟩
    show trace.applied ++ batches (trace.service.queue ++ [.batch changes]) = _
    rw [batches_append, ← List.append_assoc, recorded.order]
    rfl
  | false =>
    have refused : trace.service.submit changes = .failed trace.service .disconnected := by
      rw [Service.submit, running, if_neg Bool.false_ne_true]
    rw [refused]
    exact recorded

theorem shutDown (recorded : Recorded first trace) : Recorded first trace.shutDown where
  orderly := recorded.orderly.shutDown
  order := (congrArg (trace.applied ++ ·) (batches_shutDown trace.service)).trans recorded.order
  session := (session_shutDown trace.service).trans recorded.session

/-- Every step keeps the record. -/
theorem step (recorded : Recorded first trace) (step : Step trace next) : Recorded first next := by
  cases step with
  | submit changes held ready => exact recorded.submit changes ready
  | shutDown owned => exact recorded.shutDown
  | work => exact recorded.works trace.service.works
  | share held => exact ⟨recorded.orderly, recorded.order, recorded.session⟩
  | release shared => exact ⟨recorded.orderly, recorded.order, recorded.session⟩
  | abandon owned =>
    have closed := recorded.shutDown
    exact ⟨closed.orderly, closed.order, closed.session⟩
  | disconnect unheld waits idle =>
    exact ⟨recorded.orderly.exit idle, recorded.order, recorded.session⟩

theorem steps (recorded : Recorded first trace) (steps : ReflTransGen Step trace next) :
    Recorded first next := by
  induction steps with
  | refl => exact recorded
  | tail _ last ih => exact ih.step last

end Recorded

/-- A service starts with nothing in its queue, and its session with version 1. -/
theorem recorded_begin {subtree : Subtree} {settings : Settings}
    (started : Service.start subtree settings = .ok service) :
    Recorded service.session (.begin service) ∧ service.session.history.version = 1 := by
  unfold Service.start at started
  cases begun : Session.start subtree settings.retainedVersions settings.verifies with
  | error fault =>
    rw [begun] at started
    cases started
  | ok session =>
    rw [begun] at started
    cases started
    exact ⟨⟨⟨rfl, Nat.zero_le _, fun _ => ⟨rfl, nofun⟩, nofun⟩, rfl, rfl⟩,
      Session.version_of_start begun⟩

/-! ### Closed services -/

theorem running_shutDown (service : Service) : service.shutDown.running = false := by
  unfold shutDown
  dsimp only
  split <;> rfl

theorem closed_works (closed : service.running = false) {applied : List (List Change)}
    {after : Service} (worked : Works service applied after) : after.running = false := by
  cases worked with
  | exits => rfl
  | _ => exact closed

/-- A service that accepts nothing never accepts anything again. -/
theorem closed_step (closed : trace.service.running = false) (step : Step trace next) :
    next.service.running = false := by
  cases step with
  | submit changes =>
    unfold Trace.submit Service.submit
    rw [closed, if_neg Bool.false_ne_true]
    exact closed
  | shutDown => exact running_shutDown _
  | work => exact closed_works closed trace.service.works
  | share => exact closed
  | release => exact closed
  | abandon => exact running_shutDown _
  | disconnect => rfl

theorem closed_steps (closed : trace.service.running = false)
    (steps : ReflTransGen Step trace next) : next.service.running = false := by
  induction steps with
  | refl => exact closed
  | tail _ last ih => exact closed_step ih last

/-! ### Waiting until all is applied -/

theorem workFor_trace (trace : Trace) (steps : Nat) :
    ReflTransGen Step trace (trace.workFor steps) ∧
      (trace.workFor steps).service = trace.service.workFor steps ∧
      (trace.workFor steps).accepted = trace.accepted := by
  induction steps generalizing trace with
  | zero => exact ⟨.refl, rfl, rfl⟩
  | succ steps ih =>
    obtain ⟨later, service, accepted⟩ := ih trace.work
    exact ⟨.head (.work trace) later, service, accepted⟩

namespace Recorded

/-- Where nothing is pending, all that was accepted is applied. -/
theorem applied_of_idle (recorded : Recorded first trace) (idle : trace.service.pending = 0) :
    trace.applied = trace.accepted := by
  have none : batches trace.service.queue = [] :=
    List.eq_nil_of_length_eq_zero (recorded.orderly.counted.symm.trans idle)
  rw [← recorded.order, none, List.append_nil]

/-- Whoever waits gets the session that the accepted batches lead to. -/
theorem awaitIdle_eq (recorded : Recorded first trace) :
    trace.service.awaitIdle =
      .done trace.service.settle (first.run trace.accepted).history.current := by
  obtain ⟨later, service, accepted⟩ := workFor_trace trace (trace.service.queue.length + 1)
  have settled := recorded.steps later
  have empty : (trace.service.workFor (trace.service.queue.length + 1)).queue = [] := by
    rw [recorded.orderly.queue_workFor]
    exact List.drop_eq_nil_of_le (Nat.le_succ _)
  have idle : trace.service.settle.pending = 0 := by
    have counted := settled.orderly.counted
    rw [service, empty] at counted
    exact counted
  have session : trace.service.settle.session = first.run trace.accepted := by
    rw [← accepted, ← settled.applied_of_idle (by rw [service]; exact idle), ← settled.session,
      service]
    rfl
  unfold awaitIdle
  dsimp only
  rw [if_pos idle, session]

end Recorded

/-! ### Delivery -/

/-- What is promised of a service that began with a session, wherever clients and worker have brought
it. -/
structure Delivers (first : Session) (trace : Trace) : Prop where
  /-- A service that is open and has room takes every batch. -/
  accepts : trace.service.running = true → trace.service.hasRoom = true →
    ∀ changes, (trace.service.submit changes).answer = .ok ()
  /-- The batches applied, then those in the queue: each accepted batch is there once, in the order
  of the submissions. -/
  order : trace.applied ++ batches trace.service.queue = trace.accepted
  counted : trace.service.pending = (batches trace.service.queue).length
  bounded : trace.service.queue.length ≤ trace.service.capacity
  /-- From a shutdown on every batch is refused, whatever happens in between. -/
  closed : ∀ {later : Trace}, ReflTransGen Step trace.shutDown later →
    ∀ changes, (later.service.submit changes).answer = .error .disconnected
  emptied : trace.service.worker = .exited → trace.service.queue = [] ∧ trace.service.pending = 0
  /-- The session is the one that the applied batches lead to, one after the other. -/
  session : trace.service.session = first.run trace.applied
  version : first.Succeeds trace.applied →
    trace.service.session.history.version = 1 + trace.applied.length
  /-- When nothing is pending, and so when a wait is over, all that was accepted is committed. -/
  idle : first.Succeeds trace.accepted → trace.service.pending = 0 →
    trace.service.session.history.current.version = 1 + trace.accepted.length
  /-- Whoever waits is answered: the worker needs no more than to go on. -/
  awaited : first.Succeeds trace.accepted → ∃ snapshot, trace.service.awaitIdle.answer = .ok snapshot ∧
    snapshot.version = 1 + trace.accepted.length

/-- Wherever clients and worker bring a service, in any order and number of steps, it has lost,
repeated and reordered nothing. -/
theorem delivers_of_steps {subtree : Subtree} {settings : Settings}
    (started : Service.start subtree settings = .ok service)
    (steps : ReflTransGen Step (.begin service) trace) : Delivers service.session trace := by
  obtain ⟨begun, one⟩ := recorded_begin started
  have recorded := begun.steps steps
  have orderly := recorded.orderly
  have versioned {batches : List (List Change)} (succeeds : service.session.Succeeds batches) :
      (service.session.run batches).history.version = 1 + batches.length := by
    rw [succeeds.version, one]
  exact {
    accepts := fun open_ room changes => by rw [orderly.submit_eq open_ room changes]; rfl
    order := recorded.order
    counted := orderly.counted
    bounded := orderly.bounded
    closed := fun later changes => by
      rw [submit, closed_steps (running_shutDown trace.service) later, if_neg Bool.false_ne_true]
      rfl
    emptied := fun exited => by
      have empty := orderly.emptied exited
      refine ⟨empty, ?_⟩
      rw [orderly.counted, empty]
      rfl
    session := recorded.session
    version := fun succeeds => by rw [recorded.session, versioned succeeds]
    idle := fun succeeds idle => by
      rw [recorded.session, recorded.applied_of_idle idle]
      exact versioned succeeds
    awaited := fun succeeds => by
      rw [recorded.awaitIdle_eq]
      exact ⟨_, rfl, versioned succeeds⟩ }

/-- The message to stop finds no room, so the worker applies the batch before it and exits once
nothing comes any more. -/
theorem delivers_fullQueue : ∃ service trace,
    Service.start Document.nestedPage { Settings.standard with queueCapacity := 1 } = .ok service ∧
      ReflTransGen Step (.begin service) trace ∧ trace.accepted = [Document.nestedChanges] ∧
      service.session.Succeeds trace.accepted ∧ trace.service.worker = .exited ∧
      Delivers service.session trace ∧ trace.service.session.history.version = 2 := by
  have distinct : Document.nestedPage.Distinct := by decide
  have sound : ∀ changes ∈ [Document.nestedChanges], ∀ change ∈ changes,
      change.Sound Document.nestedPage.handle := by decide
  obtain ⟨session, settled, -, document, -, starts, -⟩ := Session.start_done distinct 8
  have begun : Session.start Document.nestedPage 8 true = .ok (session.rewire true session.hub) :=
    starts true
  let service : Service := ⟨session.rewire true session.hub, [], 1, true, 0, .waiting, false⟩
  have started : Service.start Document.nestedPage { Settings.standard with queueCapacity := 1 } =
      .ok service := by
    unfold Service.start
    dsimp only [Settings.standard]
    rw [begun]
    rfl
  let trace := ((Trace.begin service).submit Document.nestedChanges).shutDown.work.work
  have steps : ReflTransGen Step (.begin service) trace :=
    .tail (.tail (.tail (.single (.submit _ _ rfl fun _ => rfl)) (.shutDown _ rfl)) (.work _))
      (.work _)
  have succeeds : service.session.Succeeds [Document.nestedChanges] := by
    refine (settled.rewire true session.hub).succeeds ?_
    rw [show (session.rewire true session.hub).document = session.document from rfl, document]
    exact sound
  have delivers := delivers_of_steps started steps
  exact ⟨service, trace, started, steps, rfl, succeeds, rfl, delivers, delivers.version succeeds⟩

end Service

end Accessibility
