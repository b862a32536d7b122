import Accessibility.Hub.Actions
import Accessibility.Proofs.Arena
import Mathlib.Data.List.Induction

/-!
Listeners of a hub. While a listener is connected it is called with all that is sent out, before and
after that with nothing; no other listener ever gets its key.
-/

set_option autoImplicit false

namespace Accessibility

open Std

namespace Hub

variable {hub : Hub} {id : ListenerId} {listener : Listener} {action : Action}

/-- The connected listeners, as they are called one after the other. -/
def connected (hub : Hub) : List ListenerId :=
  hub.listeners.entries.keys

theorem callsFor_eq (hub : Hub) (notices : List Notice) :
    hub.callsFor notices = notices.flatMap fun notice => hub.connected.map (·, notice) := by
  have names : hub.connected = hub.listeners.toList.map Prod.fst :=
    ExtTreeMap.map_fst_toList_eq_keys.symm
  rw [callsFor, names]
  simp only [List.map_map]
  rfl

/-- Each action calls the listeners that it finds connected, with one notice after the other. -/
theorem calls_after (hub : Hub) (action : Action) :
    (hub.after action).calls =
      hub.calls ++ action.notices.flatMap fun notice => hub.connected.map (·, notice) := by
  rw [← callsFor_eq]
  cases action with
  | connect listener => exact (List.append_nil _).symm
  | disconnect id => exact (List.append_nil _).symm
  | subscribe => exact (List.append_nil _).symm
  | abandon id => exact (List.append_nil _).symm
  | dispatch notices =>
    cases notices with
    | nil => exact (List.append_nil _).symm
    | cons notice rest => rfl
  | tryNext id =>
    rw [after, tryNext]
    split <;> exact (List.append_nil _).symm
  | waitFor id wanted =>
    rw [after, waitFor]
    split <;> exact (List.append_nil _).symm
  | drain id => exact (List.append_nil _).symm

/-! ### Who stays connected -/

section Removal

variable {arena : Arena Listener} (entries : List (ListenerId × Listener))

theorem get?_foldl_remove (id : ListenerId) :
    (entries.foldl (fun arena (id, _) => arena.remove id) arena).get? id =
      if id ∈ entries.map Prod.fst then none else arena.get? id := by
  induction entries generalizing arena with
  | nil => rfl
  | cons entry rest ih =>
    rw [List.foldl_cons, ih, Arena.get?_remove]
    simp only [List.map_cons, List.mem_cons]
    by_cases later : id ∈ rest.map Prod.fst
    · simp only [later, or_true, if_true]
    · simp only [later, or_false, if_false, eq_comm]

theorem tidy_foldl_remove (tidy : arena.Tidy) :
    (entries.foldl (fun arena (id, _) => arena.remove id) arena).Tidy := by
  induction entries generalizing arena with
  | nil => exact tidy
  | cons entry rest ih => exact ih (tidy.remove entry.1)

theorem issued_foldl_remove (issued : arena.Issued id) :
    (entries.foldl (fun arena (id, _) => arena.remove id) arena).Issued id := by
  induction entries generalizing arena with
  | nil => exact issued
  | cons entry rest ih => exact ih (issued.remove entry.1)

end Removal

theorem get?_remaining :
    hub.remaining.get? id = some listener ↔
      hub.listeners.get? id = some listener ∧ listener.once = false := by
  have gone : id ∈ (hub.listeners.toList.filter (·.2.once)).map Prod.fst ↔
      ∃ other, hub.listeners.get? id = some other ∧ other.once = true := by
    rw [List.mem_map]
    constructor
    · rintro ⟨⟨_, other⟩, listed, rfl⟩
      obtain ⟨stored, once⟩ := List.mem_filter.mp listed
      exact ⟨other, Arena.mem_toList.mp stored, once⟩
    · rintro ⟨other, stored, once⟩
      exact ⟨(id, other), List.mem_filter.mpr ⟨Arena.mem_toList.mpr stored, once⟩, rfl⟩
  rw [remaining, get?_foldl_remove]
  by_cases leaves : id ∈ (hub.listeners.toList.filter (·.2.once)).map Prod.fst
  · obtain ⟨other, stored, once⟩ := gone.mp leaves
    rw [if_pos leaves, stored]
    refine iff_of_false nofun ?_
    rintro ⟨same, stays⟩
    cases same
    rw [once] at stays
    cases stays
  · rw [if_neg leaves, iff_self_and]
    intro stored
    by_contra once
    rw [Bool.not_eq_false] at once
    exact leaves (gone.mpr ⟨listener, stored, once⟩)

/-- What an action can do to the listeners. -/
theorem listeners_cases (hub : Hub) (action : Action) :
    (∃ new, action = .connect new ∧ (hub.after action).listeners = hub.listeners.insert new) ∨
    (∃ other, action = .disconnect other ∧
      (hub.after action).listeners = hub.listeners.remove other) ∨
    (∃ notice rest, action = .dispatch (notice :: rest) ∧
      (hub.after action).listeners = hub.remaining) ∨
    ((∀ new, action ≠ .connect new) ∧
      (∀ (listener : Listener) id, listener.leaves id action = false) ∧
      (hub.after action).listeners = hub.listeners) := by
  cases action with
  | connect new => exact .inl ⟨new, rfl, rfl⟩
  | disconnect other => exact .inr (.inl ⟨other, rfl, rfl⟩)
  | dispatch notices =>
    cases notices with
    | nil => exact .inr (.inr (.inr ⟨nofun, fun listener id => Bool.and_false _, rfl⟩))
    | cons notice rest => exact .inr (.inr (.inl ⟨notice, rest, rfl, rfl⟩))
  | subscribe => exact .inr (.inr (.inr ⟨nofun, fun listener id => rfl, rfl⟩))
  | abandon stream => exact .inr (.inr (.inr ⟨nofun, fun listener id => rfl, rfl⟩))
  | tryNext stream =>
    refine .inr (.inr (.inr ⟨nofun, fun listener id => rfl, ?_⟩))
    rw [after, tryNext]
    split <;> rfl
  | waitFor stream wanted =>
    refine .inr (.inr (.inr ⟨nofun, fun listener id => rfl, ?_⟩))
    rw [after, waitFor]
    split <;> rfl
  | drain stream => exact .inr (.inr (.inr ⟨nofun, fun listener id => rfl, rfl⟩))

/-- Connected after an action are the listener that it connects, and those that it does not
disconnect. -/
theorem get?_after (tidy : hub.listeners.Tidy) :
    (hub.after action).listeners.get? id = some listener ↔
      (action = .connect listener ∧ hub.listeners.nextKey = id) ∨
        (hub.listeners.get? id = some listener ∧ listener.leaves id action = false) := by
  rcases listeners_cases hub action with
    ⟨new, rfl, done⟩ | ⟨other, rfl, done⟩ | ⟨notice, rest, rfl, done⟩ | ⟨other, stays, done⟩
  · have stays : listener.leaves id (.connect new) = false := rfl
    rw [done, Arena.get?_insert, Action.connect.injEq, stays]
    by_cases here : hub.listeners.nextKey = id
    · subst here
      simp only [if_true, Option.some.injEq, and_true, tidy.get?_nextKey, reduceCtorEq, or_false]
    · simp only [here, if_false, and_false, false_or, and_true]
  · rw [done, Arena.get?_remove, Listener.leaves, beq_eq_false_iff_ne]
    by_cases here : other = id
    · simp only [here, if_true, reduceCtorEq, ne_eq, not_true_eq_false, and_false, false_and, or_self]
    · simp only [here, if_false, ne_eq, not_false_eq_true, and_true, reduceCtorEq, false_and, false_or]
  · have leaves : listener.leaves id (.dispatch (notice :: rest)) = listener.once := Bool.and_true _
    simp only [done, get?_remaining, leaves, reduceCtorEq, false_and, false_or]
  · simp only [done, other, stays, false_and, false_or, and_true]

/-! ### What listeners are called with -/

/-- Every listener has a key of its own, also among all that were ever called. -/
structure Calling (hub : Hub) : Prop where
  tidy : hub.listeners.Tidy
  called : ∀ call ∈ hub.calls, hub.listeners.Issued call.1

theorem calling_start : start.Calling where
  tidy := Arena.tidy_empty
  called := nofun

theorem mem_connected : id ∈ hub.connected ↔ ∃ listener, hub.listeners.get? id = some listener :=
  Arena.mem_keys

namespace Calling

/-- No key that was given away is forgotten. -/
theorem issued_after (calling : hub.Calling) (issued : hub.listeners.Issued id) (action : Action) :
    (hub.after action).listeners.Issued id := by
  rcases listeners_cases hub action with
    ⟨new, -, done⟩ | ⟨other, -, done⟩ | ⟨notice, rest, -, done⟩ | ⟨-, -, done⟩
  · rw [done]
    exact issued.insert calling.tidy new
  · rw [done]
    exact issued.remove other
  · rw [done]
    exact issued_foldl_remove _ issued
  · rw [done]
    exact issued

theorem after (calling : hub.Calling) (action : Action) : (hub.after action).Calling where
  tidy := by
    rcases listeners_cases hub action with
      ⟨new, -, done⟩ | ⟨other, -, done⟩ | ⟨notice, rest, -, done⟩ | ⟨-, -, done⟩
    · rw [done]
      exact calling.tidy.insert new
    · rw [done]
      exact calling.tidy.remove other
    · rw [done]
      exact tidy_foldl_remove _ calling.tidy
    · rw [done]
      exact calling.tidy
  called := by
    intro call made
    apply calling.issued_after
    rw [calls_after, List.mem_append] at made
    rcases made with earlier | now
    · exact calling.called call earlier
    · obtain ⟨notice, -, listed⟩ := List.mem_flatMap.mp now
      obtain ⟨id, connected, rfl⟩ := List.mem_map.mp listed
      obtain ⟨listener, stored⟩ := mem_connected.mp connected
      exact Arena.issued_of_get? stored

theorem afterAll (calling : hub.Calling) (actions : List Action) : (hub.afterAll actions).Calling := by
  induction actions generalizing hub with
  | nil => exact calling
  | cons action rest ih => exact ih (calling.after action)

/-- An old key stands for no listener once that is disconnected. -/
theorem get?_after_eq_none (calling : hub.Calling) (issued : hub.listeners.Issued id)
    (leaves : ∀ listener, hub.listeners.get? id = some listener → listener.leaves id action = true) :
    (hub.after action).listeners.get? id = none := by
  rw [Option.eq_none_iff_forall_ne_some]
  intro listener stored
  rcases (get?_after calling.tidy).mp stored with ⟨-, new⟩ | ⟨stored, stays⟩
  · rw [← new] at issued
    exact calling.tidy.not_issued_nextKey issued
  · rw [leaves listener stored] at stays
    cases stays

end Calling

/-- Of one round of calls a listener gets the call to itself. -/
theorem filter_round {ids : List ListenerId} (nodup : ids.Nodup) (notice : Notice) :
    ((ids.map (·, notice)).filter (·.1 == id)).map Prod.snd =
      if id ∈ ids then [notice] else [] := by
  have own : ids.filter (· == id) = List.replicate (if id ∈ ids then 1 else 0) id := by
    rw [List.filter_beq, nodup.count]
  rw [List.filter_map, List.map_map]
  have mapped : (ids.filter (· == id)).map (fun _ => notice) =
      if id ∈ ids then [notice] else [] := by
    rw [own, List.map_replicate]
    split <;> rfl
  exact mapped

theorem heard_after (hub : Hub) (id : ListenerId) (action : Action) :
    (hub.after action).heard id =
      hub.heard id ++ if id ∈ hub.connected then action.notices else [] := by
  have nodup : hub.connected.Nodup := Std.ExtTreeMap.nodup_keys
  rw [heard, calls_after, List.filter_append, List.map_append, heard]
  refine congrArg (_ ++ ·) ?_
  induction action.notices with
  | nil => exact (ite_self _).symm
  | cons notice rest ih =>
    rw [List.flatMap_cons, List.filter_append, List.map_append, filter_round nodup, ih]
    split <;> rfl

/-- A listener that is gone is not called again. -/
theorem heard_afterAll_of_gone (calling : hub.Calling) (issued : hub.listeners.Issued id)
    (gone : hub.listeners.get? id = none) (actions : List Action) :
    (hub.afterAll actions).heard id = hub.heard id := by
  induction actions generalizing hub with
  | nil => rfl
  | cons action rest ih =>
    have silent : id ∉ hub.connected := by
      rw [mem_connected, gone]
      rintro ⟨listener, stored⟩
      cases stored
    have stillGone : (hub.after action).listeners.get? id = none := by
      apply calling.get?_after_eq_none issued
      rw [gone]
      exact nofun
    have later := ih (calling.after action) (calling.issued_after issued action) stillGone
    have now := heard_after hub id action
    rw [if_neg silent, List.append_nil] at now
    exact later.trans now

/-- A connected listener hears what is sent out until it is disconnected. -/
theorem heard_afterAll (calling : hub.Calling) (stored : hub.listeners.get? id = some listener)
    (actions : List Action) :
    (hub.afterAll actions).heard id = hub.heard id ++ listener.hears id actions := by
  induction actions generalizing hub with
  | nil => exact (List.append_nil _).symm
  | cons action rest ih =>
    have now : (hub.after action).heard id = hub.heard id ++ action.notices := by
      rw [heard_after, if_pos (mem_connected.mpr ⟨listener, stored⟩)]
    rw [Listener.hears, ← List.append_assoc, ← now]
    cases leaves : listener.leaves id action with
    | false =>
      have stays := (get?_after calling.tidy).mpr (.inr ⟨stored, leaves⟩)
      exact ih (calling.after action) stays
    | true =>
      have issued := Arena.issued_of_get? stored
      have gone : (hub.after action).listeners.get? id = none := by
        apply calling.get?_after_eq_none issued
        intro other same
        rw [stored] at same
        cases same
        exact leaves
      rw [if_pos rfl, List.append_nil]
      exact heard_afterAll_of_gone (calling.after action) (calling.issued_after issued action) gone rest

/-- A listener that has just been connected has heard nothing yet. -/
theorem heard_since (calling : hub.Calling) (listener : Listener) (actions : List Action) :
    ((hub.connect listener).1.afterAll actions).heard (hub.connect listener).2 =
      listener.hears (hub.connect listener).2 actions := by
  have stored : (hub.connect listener).1.listeners.get? (hub.connect listener).2 = some listener := by
    rw [connect, Arena.get?_insert, if_pos rfl]
  have silent : (hub.connect listener).1.heard (hub.connect listener).2 = [] := by
    have nothing : hub.calls.filter (·.1 == hub.listeners.nextKey) = [] := by
      rw [List.filter_eq_nil_iff]
      intro call made own
      have issued := calling.called call made
      rw [eq_of_beq own] at issued
      exact calling.tidy.not_issued_nextKey issued
    exact congrArg (List.map Prod.snd) nothing
  have connected : (hub.connect listener).1.Calling := calling.after (.connect listener)
  rw [heard_afterAll connected stored, silent, List.nil_append]

/-! ### Who is connected -/

theorem afterAll_snoc (hub : Hub) (actions : List Action) (action : Action) :
    hub.afterAll (actions ++ [action]) = (hub.afterAll actions).after action :=
  List.foldl_append

/-- Whether an action of a run connected a listener that no later one disconnected. -/
def Stays (actions : List Action) (id : ListenerId) (listener : Listener) : Prop :=
  ∃ before since, actions = before ++ .connect listener :: since ∧
    ((start.afterAll before).connect listener).2 = id ∧
    ∀ action ∈ since, listener.leaves id action = false

theorem stays_snoc {actions : List Action} :
    Stays (actions ++ [action]) id listener ↔
      (action = .connect listener ∧ (start.afterAll actions).listeners.nextKey = id) ∨
        (Stays actions id listener ∧ listener.leaves id action = false) := by
  constructor
  · rintro ⟨before, since, split, named, stays⟩
    rcases List.eq_nil_or_concat' since with rfl | ⟨since, last, rfl⟩
    · obtain ⟨rfl, rfl⟩ := List.append_singleton_inj.mp split
      exact .inl ⟨rfl, named⟩
    · rw [← List.cons_append, ← List.append_assoc] at split
      obtain ⟨rfl, rfl⟩ := List.append_singleton_inj.mp split
      obtain ⟨staysBefore, staysLast⟩ := List.forall_mem_append.mp stays
      exact .inr ⟨⟨before, since, rfl, named, staysBefore⟩, staysLast _ List.mem_cons_self⟩
  · rintro (⟨rfl, named⟩ | ⟨⟨before, since, rfl, named, stays⟩, staysLast⟩)
    · exact ⟨actions, [], rfl, named, nofun⟩
    · refine ⟨before, since ++ [action], by rw [List.append_assoc, List.cons_append], named, ?_⟩
      rw [List.forall_mem_append, List.forall_mem_singleton]
      exact ⟨stays, staysLast⟩

theorem get?_afterAll {actions : List Action} :
    (start.afterAll actions).listeners.get? id = some listener ↔ Stays actions id listener := by
  induction actions using List.reverseRecOn with
  | nil =>
    refine iff_of_false nofun ?_
    rintro ⟨before, since, split, -⟩
    exact List.append_ne_nil_of_right_ne_nil before (List.cons_ne_nil _ since) split.symm
  | append_singleton actions action ih =>
    rw [afterAll_snoc, get?_after (calling_start.afterAll actions).tidy, ih, stays_snoc]

end Hub

end Accessibility
