import Accessibility.Hub.Actions
import Mathlib.Data.List.Nodup

/-!
Streams of a hub. What a stream has given to its reader, with what it has queued, is all that was sent
out since it was opened. One action keeps that, whatever it does to other streams.
-/

set_option autoImplicit false

namespace Accessibility.Hub

open Std

variable {hub : Hub} {id : StreamId} {notices : List Notice}
  {queues : ExtTreeMap StreamId (List Notice)}

/-! ### Sending -/

theorem modify_modify (first second : List Notice) :
    (queues.modify id (· ++ first)).modify id (· ++ second) =
      queues.modify id (· ++ (first ++ second)) := by
  apply ExtTreeMap.ext_getElem?
  intro other
  simp only [ExtTreeMap.getElem?_modify, Std.compare_eq_iff_eq]
  by_cases same : id = other
  · subst same
    simp only [if_true, Option.map_map, Function.comp_def, List.append_assoc]
  · simp only [if_neg same]

theorem modify_nil : queues.modify id (· ++ []) = queues := by
  apply ExtTreeMap.ext_getElem?
  intro other
  simp only [ExtTreeMap.getElem?_modify, Std.compare_eq_iff_eq, List.append_nil, Option.map_id']
  by_cases same : id = other
  · rw [if_pos same, same]
  · rw [if_neg same]

/-- A stream with a reader takes all notices. -/
theorem send_of_open (isOpen : queues.contains id = true) :
    send id notices queues = (queues.modify id (· ++ notices), true) := by
  induction notices generalizing queues with
  | nil => rw [send, modify_nil]
  | cons notice rest ih =>
    have stillOpen : (queues.modify id (· ++ [notice])).contains id = true := by
      rw [ExtTreeMap.contains_modify, isOpen]
    rw [send, if_pos isOpen, ih stillOpen, modify_modify, List.singleton_append]

/-- A stream without a reader takes none. -/
theorem send_of_closed (closed : queues.contains id = false) (nonempty : notices ≠ []) :
    send id notices queues = (queues, false) := by
  cases notices with
  | nil => exact absurd rfl nonempty
  | cons notice rest => rw [send, closed, if_neg Bool.false_ne_true]

/-- To send while going through the streams is to forget those without a reader, and then to send. -/
theorem retain_eq (nonempty : notices ≠ []) (ids : List StreamId) :
    retain notices ids queues =
      (ids.filter queues.contains,
        (ids.filter queues.contains).foldl (fun queues id => queues.modify id (· ++ notices))
          queues) := by
  induction ids generalizing queues with
  | nil => rfl
  | cons id rest ih =>
    rw [retain]
    cases reader : queues.contains id with
    | true =>
      have same : (queues.modify id (· ++ notices)).contains = queues.contains := by
        funext other
        exact ExtTreeMap.contains_modify
      rw [send_of_open reader, List.filter_cons_of_pos reader, List.foldl_cons]
      dsimp only
      rw [ih, same]
      rfl
    | false =>
      rw [send_of_closed reader nonempty, List.filter_cons_of_neg (by simp [reader])]
      dsimp only
      rw [ih]
      rfl

/-- A dispatch finds out in the course of sending which streams still have a reader. -/
theorem dispatch_eq_retain (hub : Hub) (nonempty : notices ≠ []) :
    (hub.dispatch notices).subscribers = (retain notices hub.subscribers hub.queues).1 ∧
      (hub.dispatch notices).queues = (retain notices hub.subscribers hub.queues).2 := by
  rw [retain_eq nonempty]
  cases notices with
  | nil => exact absurd rfl nonempty
  | cons notice rest => exact ⟨rfl, rfl⟩

theorem getElem?_foldl_modify {ids : List StreamId} (nodup : ids.Nodup) :
    (ids.foldl (fun queues id => queues.modify id (· ++ notices)) queues)[id]? =
      if id ∈ ids then queues[id]?.map (· ++ notices) else queues[id]? := by
  induction ids generalizing queues with
  | nil => rfl
  | cons first rest ih =>
    obtain ⟨fresh, nodupRest⟩ := List.nodup_cons.mp nodup
    rw [List.foldl_cons, ih nodupRest]
    simp only [ExtTreeMap.getElem?_modify, Std.compare_eq_iff_eq, List.mem_cons]
    by_cases same : first = id
    · subst same
      simp only [if_neg fresh, if_true, true_or]
    · simp only [if_neg same, Ne.symm same, false_or]

theorem contains_foldl_modify (ids : List StreamId) :
    (ids.foldl (fun queues id => queues.modify id (· ++ notices)) queues).contains id =
      queues.contains id := by
  induction ids generalizing queues with
  | nil => rfl
  | cons first rest ih => rw [List.foldl_cons, ih, ExtTreeMap.contains_modify]

/-! ### Reading -/

theorem getElem?_of_open (isOpen : hub.queues.contains id = true) :
    hub.queues[id]? = some (hub.queued id) := by
  rw [ExtTreeMap.contains_eq_isSome_getElem?, Option.isSome_iff_exists] at isOpen
  obtain ⟨queue, stored⟩ := isOpen
  rw [queued, stored, Option.getD_some]

theorem queued_keep (isOpen : hub.queues.contains id = true) (stream : StreamId)
    (unread : List Notice) :
    (hub.keep stream unread).queued id = if stream = id then unread else hub.queued id := by
  rw [queued, keep]
  simp only [ExtTreeMap.getElem?_modify, Std.compare_eq_iff_eq]
  by_cases same : stream = id
  · subst same
    rw [if_pos rfl, if_pos rfl, getElem?_of_open isOpen, Option.map_some, Option.getD_some]
  · rw [if_neg same, if_neg same, queued]

theorem queued_keep_of_ne {stream : StreamId} (differ : stream ≠ id) (unread : List Notice) :
    (hub.keep stream unread).queued id = hub.queued id := by
  rw [queued, keep]
  simp only [ExtTreeMap.getElem?_modify, Std.compare_eq_iff_eq, if_neg differ]
  rfl

theorem keep_queued : hub.keep id (hub.queued id) = hub := by
  have same : hub.queues.modify id (fun _ => hub.queued id) = hub.queues := by
    apply ExtTreeMap.ext_getElem?
    intro other
    simp only [ExtTreeMap.getElem?_modify, Std.compare_eq_iff_eq]
    by_cases here : id = other
    · subst here
      rw [if_pos rfl, queued]
      cases hub.queues[id]? <;> rfl
    · rw [if_neg here]
  rw [keep, same]

theorem tryNext_eq (hub : Hub) (id : StreamId) :
    hub.tryNext id = (hub.keep id (hub.queued id).tail, (hub.queued id).head?) := by
  rw [tryNext]
  cases waiting : hub.queued id with
  | nil =>
    have same : hub.keep id (hub.queued id) = hub := keep_queued
    rw [waiting] at same
    simp only [List.tail_nil, List.head?_nil, same]
  | cons notice unread => rfl

/-- What a wait leaves unread of a queue. -/
def unread (wanted : Notice → Bool) (queue : List Notice) : List Notice :=
  (queue.dropWhile (! wanted ·)).tail

theorem state_waitFor (hub : Hub) (id : StreamId) (wanted : Notice → Bool) :
    (hub.waitFor id wanted).state = hub.keep id (unread wanted (hub.queued id)) := by
  rw [waitFor, unread]
  cases (hub.queued id).dropWhile (! wanted ·) <;> rfl

theorem received_append_unread (wanted : Notice → Bool) (queue : List Notice) :
    received wanted queue ++ unread wanted queue = queue := by
  induction queue with
  | nil => rfl
  | cons notice rest ih =>
    rw [received, unread, List.dropWhile_cons]
    by_cases hit : wanted notice = true
    · simp only [hit, if_true, Bool.not_true, Bool.false_eq_true, if_false, List.tail_cons,
        List.singleton_append]
    · simp only [hit, Bool.false_eq_true, if_false, Bool.not_false, if_true, List.cons_append]
      exact congrArg (notice :: ·) ih

/-- How a wait ends: with the first notice that is wanted if any is queued, or else in vain. -/
inductive Waits (wanted : Notice → Bool) : (queue taken : List Notice) →
    (answer : Except Fault Notice) → (left : List Notice) → Prop
  | found {passed left : List Notice} {notice : Notice}
      (unwanted : ∀ other ∈ passed, wanted other = false) (hit : wanted notice = true) :
      Waits wanted (passed ++ notice :: left) (passed ++ [notice]) (.ok notice) left
  | nothing {queue : List Notice} (unwanted : ∀ other ∈ queue, wanted other = false) :
      Waits wanted queue queue (.error .timedOut) []

/-- A wait passes over a notice that is not wanted. -/
theorem Waits.pass {wanted : Notice → Bool} {notice : Notice} {queue taken left : List Notice}
    {answer : Except Fault Notice} (unwanted : wanted notice = false)
    (waits : Waits wanted queue taken answer left) :
    Waits wanted (notice :: queue) (notice :: taken) answer left := by
  cases waits with
  | @found passed left found others hit =>
    rw [← List.cons_append, ← List.cons_append]
    exact .found (List.forall_mem_cons.mpr ⟨unwanted, others⟩) hit
  | nothing others => exact .nothing (List.forall_mem_cons.mpr ⟨unwanted, others⟩)

theorem waits_queue (wanted : Notice → Bool) (queue : List Notice) :
    Waits wanted queue (received wanted queue)
      (match queue.dropWhile (! wanted ·) with
        | [] => .error .timedOut
        | notice :: _ => .ok notice)
      (unread wanted queue) := by
  induction queue with
  | nil => exact .nothing nofun
  | cons notice rest ih =>
    rw [received, unread, List.dropWhile_cons]
    cases hit : wanted notice with
    | true =>
      have here : Waits wanted ([] ++ notice :: rest) ([] ++ [notice]) (.ok notice) rest :=
        .found nofun hit
      exact here
    | false => exact ih.pass hit

theorem waits_waitFor (running : hub.isOpen = true) (id : StreamId) (wanted : Notice → Bool) :
    Waits wanted (hub.queued id) (hub.takes id (.waitFor id wanted)) (hub.waitFor id wanted).answer
      ((hub.waitFor id wanted).state.queued id) := by
  have left : (hub.waitFor id wanted).state.queued id = unread wanted (hub.queued id) := by
    rw [state_waitFor]
    cases reader : hub.queues.contains id with
    | true => rw [queued_keep reader, if_pos rfl]
    | false =>
      have empty : hub.queued id = [] := by
        rw [queued, Std.ExtTreeMap.getElem?_eq_none_of_contains_eq_false reader]
        rfl
      have same : hub.keep id (hub.queued id) = hub := keep_queued
      rw [empty] at same ⊢
      exact (congrArg (Hub.queued · id) same).trans empty
  have answer : (hub.waitFor id wanted).answer =
      match (hub.queued id).dropWhile (! wanted ·) with
        | [] => .error .timedOut
        | notice :: _ => .ok notice := by
    rw [waitFor, emptyFault, running, if_pos rfl]
    cases (hub.queued id).dropWhile (! wanted ·) <;> rfl
  rw [left, answer, takes, if_pos rfl]
  exact waits_queue wanted (hub.queued id)

/-! ### One action -/

/-- What an action can do to the streams: nothing, open or close one, send to all of them, or read from
one. -/
theorem streams_cases (hub : Hub) (action : Action) :
    (∃ listeners, hub.after action = { hub with listeners } ∧ action.notices = [] ∧
      ∀ id, hub.takes id action = []) ∨
    action = .subscribe ∨ (∃ stream, action = .abandon stream) ∨
    (∃ notice rest, action = .dispatch (notice :: rest)) ∨
    (∃ stream front left, front ++ left = hub.queued stream ∧
      hub.after action = hub.keep stream left ∧ action.notices = [] ∧
      ∀ id, hub.takes id action = if stream = id then front else []) := by
  cases action with
  | connect listener => exact .inl ⟨_, rfl, rfl, fun _ => rfl⟩
  | disconnect id => exact .inl ⟨_, rfl, rfl, fun _ => rfl⟩
  | subscribe => exact .inr (.inl rfl)
  | abandon stream => exact .inr (.inr (.inl ⟨stream, rfl⟩))
  | dispatch notices =>
    cases notices with
    | nil => exact .inl ⟨hub.listeners, rfl, rfl, fun _ => rfl⟩
    | cons notice rest => exact .inr (.inr (.inr (.inl ⟨notice, rest, rfl⟩)))
  | tryNext stream =>
    have split : (hub.queued stream).head?.toList ++ (hub.queued stream).tail = hub.queued stream := by
      cases hub.queued stream <;> rfl
    refine .inr (.inr (.inr (.inr ⟨stream, _, _, split, ?_, rfl, fun id => ?_⟩)))
    · rw [after, tryNext_eq]
    · rw [takes, tryNext_eq]
  | waitFor stream wanted =>
    have split := received_append_unread wanted (hub.queued stream)
    exact .inr (.inr (.inr (.inr ⟨stream, _, _, split, state_waitFor _ _ _, rfl, fun id => rfl⟩)))
  | drain stream =>
    have split : hub.queued stream ++ [] = hub.queued stream := List.append_nil _
    exact .inr (.inr (.inr (.inr ⟨stream, _, _, split, rfl, rfl, fun id => rfl⟩)))

/-- Only its own reader closes a stream. -/
theorem contains_after (reader : hub.queues.contains id = true) {action : Action}
    (kept : action ≠ .abandon id) : (hub.after action).queues.contains id = true := by
  rcases streams_cases hub action with
    ⟨listeners, done, -⟩ | rfl | ⟨stream, rfl⟩ | ⟨notice, rest, rfl⟩ | ⟨stream, front, left, -, done, -⟩
  · rw [done]
    exact reader
  · rw [after, subscribe, ExtTreeMap.contains_insert, reader, Bool.or_true]
  · have differ : stream ≠ id := fun same => kept (congrArg Action.abandon same)
    simp only [after, abandon, ExtTreeMap.contains_erase, reader, Bool.and_true, bne_iff_ne, ne_eq,
      Std.compare_eq_iff_eq]
    exact differ
  · exact (contains_foldl_modify _).trans reader
  · rw [done]
    exact ExtTreeMap.contains_modify.trans reader

/-- Every stream with a reader is sent to, each once, and a new stream is a stream of its own. -/
structure Streaming (hub : Hub) : Prop where
  nodup : hub.subscribers.Nodup
  subscribed : ∀ {id : StreamId}, hub.queues.contains id = true → id ∈ hub.subscribers
  below : ∀ {id : StreamId}, id ∈ hub.subscribers → id < hub.freshStream
  isOpen : hub.isOpen = true

theorem streaming_start : start.Streaming where
  nodup := List.nodup_nil
  subscribed := by
    intro id reader
    rw [start, ExtTreeMap.contains_empty] at reader
    cases reader
  below := nofun
  isOpen := rfl

namespace Streaming

theorem subscribe (streaming : hub.Streaming) : hub.subscribe.1.Streaming where
  nodup := by
    have fresh : hub.freshStream ∉ hub.subscribers := fun listed =>
      Nat.lt_irrefl _ (streaming.below listed)
    exact List.nodup_append_comm.mp (List.nodup_cons.mpr ⟨fresh, streaming.nodup⟩)
  subscribed := by
    intro id reader
    rw [Hub.subscribe, ExtTreeMap.contains_insert, Bool.or_eq_true, beq_iff_eq,
      Std.compare_eq_iff_eq] at reader
    rcases reader with rfl | reader
    · exact List.mem_append_right _ List.mem_cons_self
    · exact List.mem_append_left _ (streaming.subscribed reader)
  below := by
    intro id listed
    rcases List.mem_append.mp listed with earlier | last
    · exact Nat.lt_succ_of_lt (streaming.below earlier)
    · rw [List.mem_singleton.mp last]
      exact Nat.lt_succ_self _
  isOpen := streaming.isOpen

theorem dispatch (streaming : hub.Streaming) (notice : Notice) (rest : List Notice) :
    (hub.dispatch (notice :: rest)).Streaming where
  nodup := streaming.nodup.filter _
  subscribed := by
    intro id reader
    have reader : hub.queues.contains id = true := by
      rw [← contains_foldl_modify (hub.subscribers.filter hub.queues.contains)]
      exact reader
    exact List.mem_filter.mpr ⟨streaming.subscribed reader, reader⟩
  below := fun listed => streaming.below (List.mem_filter.mp listed).1
  isOpen := streaming.isOpen

theorem after (streaming : hub.Streaming) (action : Action) : (hub.after action).Streaming := by
  rcases streams_cases hub action with
    ⟨listeners, done, -⟩ | rfl | ⟨stream, rfl⟩ | ⟨notice, rest, rfl⟩ | ⟨stream, front, left, -, done, -⟩
  · rw [done]
    exact ⟨streaming.nodup, streaming.subscribed, streaming.below, streaming.isOpen⟩
  · exact streaming.subscribe
  · refine ⟨streaming.nodup, ?_, streaming.below, streaming.isOpen⟩
    intro id reader
    rw [Hub.after, abandon, ExtTreeMap.contains_erase, Bool.and_eq_true] at reader
    exact streaming.subscribed reader.2
  · exact streaming.dispatch notice rest
  · rw [done]
    refine ⟨streaming.nodup, ?_, streaming.below, streaming.isOpen⟩
    intro id reader
    rw [keep, ExtTreeMap.contains_modify] at reader
    exact streaming.subscribed reader

theorem queued_dispatch (streaming : hub.Streaming) (reader : hub.queues.contains id = true)
    (nonempty : notices ≠ []) : (hub.dispatch notices).queued id = hub.queued id ++ notices := by
  have listed : id ∈ hub.subscribers.filter hub.queues.contains :=
    List.mem_filter.mpr ⟨streaming.subscribed reader, reader⟩
  rw [queued, (hub.dispatch_eq_retain nonempty).2, retain_eq nonempty]
  dsimp only
  rw [getElem?_foldl_modify (streaming.nodup.filter _), if_pos listed, getElem?_of_open reader,
    Option.map_some, Option.getD_some]

/-- Whatever is done, what it takes from a stream, with what is queued then, is what was queued before
with what is sent out. -/
theorem takes_append_queued (streaming : hub.Streaming) (reader : hub.queues.contains id = true)
    {action : Action} (kept : action ≠ .abandon id) :
    hub.takes id action ++ (hub.after action).queued id = hub.queued id ++ action.notices := by
  rcases streams_cases hub action with
    ⟨listeners, done, silent, idle⟩ | rfl | ⟨stream, rfl⟩ | ⟨notice, rest, rfl⟩ |
      ⟨stream, front, left, split, done, silent, taken⟩
  · rw [done, silent, idle, List.append_nil]
    rfl
  · have fresh : hub.freshStream ≠ id :=
      (Nat.ne_of_lt (streaming.below (streaming.subscribed reader))).symm
    have same : (hub.after .subscribe).queued id = hub.queued id := by
      simp only [Hub.after, Hub.subscribe, queued, ExtTreeMap.getElem?_insert, Std.compare_eq_iff_eq,
        if_neg fresh]
    rw [same]
    exact (List.append_nil _).symm
  · have differ : stream ≠ id := fun same => kept (congrArg Action.abandon same)
    have same : (hub.after (.abandon stream)).queued id = hub.queued id := by
      simp only [Hub.after, abandon, queued, ExtTreeMap.getElem?_erase, Std.compare_eq_iff_eq,
        if_neg differ]
    rw [same]
    exact (List.append_nil _).symm
  · exact streaming.queued_dispatch reader (List.cons_ne_nil notice rest)
  · rw [done, silent, taken, queued_keep reader, List.append_nil]
    by_cases same : stream = id
    · rw [if_pos same, if_pos same, split, same]
    · rw [if_neg same, if_neg same, List.nil_append]

/-! ### Many actions -/

theorem afterAll (streaming : hub.Streaming) (actions : List Action) :
    (hub.afterAll actions).Streaming := by
  induction actions generalizing hub with
  | nil => exact streaming
  | cons action rest ih => exact ih (streaming.after action)

/-- What is read from a stream, with what is left, is what it had queued with all that is sent out. -/
theorem takesAll_append_queued (streaming : hub.Streaming) (reader : hub.queues.contains id = true)
    {actions : List Action} (kept : .abandon id ∉ actions) :
    hub.takesAll id actions ++ (hub.afterAll actions).queued id = hub.queued id ++ sent actions := by
  induction actions generalizing hub with
  | nil => exact (List.append_nil _).symm
  | cons action rest ih =>
    rw [List.mem_cons, not_or] at kept
    obtain ⟨keptHere, keptRest⟩ := kept
    have here := streaming.takes_append_queued reader (Ne.symm keptHere)
    have later := ih (streaming.after action) (contains_after reader (Ne.symm keptHere)) keptRest
    calc hub.takesAll id (action :: rest) ++ (hub.afterAll (action :: rest)).queued id
        = hub.takes id action ++ ((hub.after action).takesAll id rest ++
            ((hub.after action).afterAll rest).queued id) := List.append_assoc _ _ _
      _ = (hub.takes id action ++ (hub.after action).queued id) ++ sent rest := by
          rw [later, List.append_assoc]
      _ = hub.queued id ++ sent (action :: rest) := by
          rw [here, List.append_assoc]
          rfl

/-- A stream starts with nothing queued. -/
theorem subscribed_since (streaming : hub.Streaming) {actions : List Action}
    (kept : .abandon hub.subscribe.2 ∉ actions) :
    hub.subscribe.1.takesAll hub.subscribe.2 actions ++
      (hub.subscribe.1.afterAll actions).queued hub.subscribe.2 = sent actions := by
  have stored : hub.subscribe.1.queues[hub.subscribe.2]? = some [] := ExtTreeMap.getElem?_insert_self
  have reader : hub.subscribe.1.queues.contains hub.subscribe.2 = true := by
    rw [ExtTreeMap.contains_eq_isSome_getElem?, stored, Option.isSome_some]
  have opened := streaming.subscribe
  rw [opened.takesAll_append_queued reader kept, queued, stored, Option.getD_some, List.nil_append]

end Streaming

end Accessibility.Hub
