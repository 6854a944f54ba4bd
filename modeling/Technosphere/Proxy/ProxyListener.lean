import Mathlib.Algebra.Order.Ring.Int
import Technosphere.Proxy.Connection

/-!
# The connections of a listener

`listener_cb` puts a new connection into `conn_list` and then establishes it.
Nothing takes it out again when that fails, and nothing frees what was acquired
by then; a failing `connect` is not even noticed, since the result of a
comparison is compared with `-1`.

`conn_list_working_iff` says for which runs the list only has connections that
work.
-/

namespace Proxy

open Transition

/-- How `connect` ends: with 0, or with -1 and `EINPROGRESS`, or with -1 and
another error. -/
inductive Connect where
  | connected
  | inProgress
  | error
  deriving DecidableEq, Repr

def Connect.returned : Connect → Int
  | connected => 0
  | inProgress => -1
  | error => -1

/-- Which of the calls in `establish` succeed, as far as they are made. -/
structure Outcomes where
  bevIn : Bool
  socket : Bool
  bevOut : Bool
  connect : Connect
  deriving DecidableEq, Repr

/-- One of the calls fails. -/
def Outcomes.Failed (o : Outcomes) : Prop :=
  o.bevIn = false ∨ o.socket = false ∨ o.bevOut = false ∨ o.connect = .error

instance (o : Outcomes) : Decidable o.Failed :=
  inferInstanceAs (Decidable
    (o.bevIn = false ∨ o.socket = false ∨ o.bevOut = false ∨ o.connect = .error))

/-- What a connection can have open. -/
inductive Resource where
  | incomingFd
  | bevIn
  | farseekSocket
  | bevOut
  deriving DecidableEq, Repr

/-- The constructor of `Connection`. -/
def Connection.constructed : Connection := ⟨0, fun _ => ⟨[], [], false, [], []⟩, false⟩

/-- The end of `establish`: its result, the connection and whether its callbacks
are set, what is open, and whether the event loop was broken. -/
structure Established where
  result : Int
  connection : Connection
  callbacks : Bool
  held : List Resource
  loopbreak : Bool

/-- `establish`. -/
def establish (o : Outcomes) : Established :=
  if o.bevIn = false then ⟨1, .constructed, false, [.incomingFd], true⟩
  else if o.socket = false then ⟨1, .constructed, false, [.incomingFd, .bevIn], false⟩
  else if o.bevOut = false then
    ⟨1, .constructed, false, [.incomingFd, .bevIn, .farseekSocket], true⟩
  else
    let connResult : Int := if o.connect.returned < 0 then 1 else 0
    if connResult = -1 then
      ⟨1, { Connection.established with connectionCounter := 0 }, true,
        [.incomingFd, .bevIn, .farseekSocket, .bevOut], false⟩
    else ⟨0, .established, true, [.incomingFd, .bevIn, .farseekSocket, .bevOut], false⟩

/-- An element of `conn_list`. -/
structure Listed where
  id : Nat
  connection : Connection
  callbacks : Bool

/-- What has happened to a connection. -/
inductive Event where
  | established (id : Nat)
  | failed (id : Nat)
  | closed (id : Nat)
  deriving DecidableEq, Repr

def Event.id : Event → Nat
  | established id => id
  | failed id => id
  | closed id => id

/-- `held` has what is open for each connection, listed or not, and `history`
what has happened; the code has neither. `stopped` is set by `loopbreak`. -/
structure ProxyListener where
  idBase : Nat
  connList : List Listed
  stopped : Bool
  held : Nat → List Resource
  history : List Event

namespace ProxyListener

/-- Before the first accept. Other listeners may have used some of the ids. -/
def start (idBase : Nat) : ProxyListener := ⟨idBase, [], false, fun _ => [], []⟩

/-- `listener_cb`. -/
def listenerCb (s : ProxyListener) (o : Outcomes) : ProxyListener :=
  let r := establish o
  { idBase := s.idBase + 1
    connList := s.connList ++ [⟨s.idBase, r.connection, r.callbacks⟩]
    stopped := r.loopbreak
    held := Function.update s.held s.idBase r.held
    history := s.history ++ [if o.Failed then .failed s.idBase else .established s.idBase] }

/-- `remove_connection`, which erases the first connection with the same id. -/
def removeConnection (s : ProxyListener) (id : Nat) : ProxyListener :=
  { s with connList := s.connList.eraseP fun current => current.id == id }

/-- After a callback of a connection. When the callback has freed the two
bufferevents and so closed their sockets, it has called `remove_connection` too. -/
def afterCallback (s : ProxyListener) (id : Nat) (c : Connection) : ProxyListener :=
  if c.freed then
    { s with
      held := Function.update s.held id []
      history := s.history ++ [Event.closed id] }.removeConnection id
  else
    { s with
      connList := s.connList.map fun l => if l.id = id then { l with connection := c } else l }

inductive Act where
  /-- `listener_cb` is called. -/
  | accept (o : Outcomes)
  /-- Something happens on a side of a connection, or its end of file. -/
  | event (id : Nat) (a : Proxy.Act)
  /-- `conn_eventcb` is called with an error. -/
  | error (id : Nat) (bev : Side)

/-- A callback for a connection, if any are set. -/
def callback (s : ProxyListener) (id : Nat) (run : Connection → Option Connection) :
    Option ProxyListener :=
  match s.connList.find? fun l => l.id == id with
  | none => none
  | some l => if l.callbacks then (run l.connection).map (s.afterCallback id) else none

/-- What happens while the loop runs. There is no accept where `id_base++` would
overflow. -/
def step (s : ProxyListener) (a : Act) : Option ProxyListener :=
  if s.stopped then none
  else match a with
    | .accept o => if s.idBase < 2 ^ 31 - 1 then some (s.listenerCb o) else none
    | .event id a => s.callback id fun c => Proxy.step c a
    | .error id bev => s.callback id fun c =>
      if c.freed then none else some (c.connEventcb bev false true)

/-- The connections in the list, each once, are those that were established and
not closed, and those that were not have nothing open. -/
structure Working (s : ProxyListener) : Prop where
  once : (s.connList.map Listed.id).Nodup
  listed : ∀ id, id ∈ s.connList.map Listed.id ↔
    Event.established id ∈ s.history ∧ Event.closed id ∉ s.history
  released : ∀ id, Event.failed id ∈ s.history → s.held id = []

/-- An accept returns a non-zero result exactly when one of its calls failed, and
the list works after each step. -/
def Right (_ : ProxyListener) (a : Act) (t : ProxyListener) : Prop :=
  (∀ o, a = .accept o → ((establish o).result ≠ 0 ↔ o.Failed)) ∧ Working t

/-- A step other than an accept with a failing call. -/
def NoFailure (_ : ProxyListener) (a : Act) (_ : ProxyListener) : Prop :=
  ∀ o, a = .accept o → ¬ o.Failed

/-! ## Single steps -/

variable {s t : ProxyListener}

theorem callback_cases {id : Nat} {run : Connection → Option Connection}
    (h : s.callback id run = some t) :
    ∃ c, id ∈ s.connList.map Listed.id ∧ t = s.afterCallback id c := by
  rw [callback] at h
  split at h
  · cases h
  · rename_i l found
    split at h
    · obtain ⟨c, _, rfl⟩ := Option.map_eq_some_iff.mp h
      refine ⟨c, ?_, rfl⟩
      have same := List.find?_some found
      rw [← beq_iff_eq.mp same]
      exact List.mem_map_of_mem (List.mem_of_find?_eq_some found)
    · cases h

/-- A step is an accept or a callback for a listed connection. -/
theorem step_cases {a : Act} (h : step s a = some t) :
    (∃ o, a = .accept o ∧ t = s.listenerCb o) ∨
      (∀ o, a ≠ .accept o) ∧
        ∃ id c, id ∈ s.connList.map Listed.id ∧ t = s.afterCallback id c := by
  unfold step at h
  split at h
  · cases h
  cases a with
  | accept o =>
      dsimp only at h
      split at h
      · exact .inl ⟨o, rfl, (Option.some.inj h).symm⟩
      · cases h
  | event id a => exact .inr ⟨fun _ => Act.noConfusion, id, callback_cases h⟩
  | error id bev => exact .inr ⟨fun _ => Act.noConfusion, id, callback_cases h⟩

/-- `establish` only notices what fails before `connect`. -/
theorem establish_result (o : Outcomes) : (establish o).result ≠ 0 ↔
    o.bevIn = false ∨ o.socket = false ∨ o.bevOut = false := by
  by_cases first : o.bevIn = false
  · simp [establish, first]
  by_cases second : o.socket = false
  · simp [establish, first, second]
  by_cases third : o.bevOut = false
  · simp [establish, first, second, third]
  · cases last : o.connect <;> simp [establish, first, second, third, last, Connect.returned]

/-- The accepted socket is never closed by `establish`. -/
theorem incomingFd_held (o : Outcomes) : Resource.incomingFd ∈ (establish o).held := by
  rw [establish]
  split_ifs <;> exact List.mem_cons_self

/-- The invariant of runs without a failing call. -/
structure Inv (s : ProxyListener) : Prop where
  working : Working s
  fresh : ∀ e ∈ s.history, e.id < s.idBase
  unfailed : ∀ id, Event.failed id ∉ s.history

theorem inv_start (idBase : Nat) : Inv (start idBase) where
  working := ⟨List.nodup_nil, fun id => by simp [start], fun id failed => by simp [start] at failed⟩
  fresh := List.forall_mem_nil _
  unfailed _ := List.not_mem_nil

theorem Inv.lt_of_listed (h : Inv s) {id : Nat} (mem : id ∈ s.connList.map Listed.id) :
    id < s.idBase :=
  h.fresh _ ((h.working.listed id).mp mem).1

theorem ids_listenerCb (s : ProxyListener) (o : Outcomes) :
    (s.listenerCb o).connList.map Listed.id = s.connList.map Listed.id ++ [s.idBase] := by
  rw [listenerCb, List.map_append, List.map_singleton]

theorem Inv.listenerCb (h : Inv s) {o : Outcomes} (good : ¬ o.Failed) : Inv (s.listenerCb o) := by
  have history : (s.listenerCb o).history = s.history ++ [.established s.idBase] := by
    rw [ProxyListener.listenerCb, if_neg good]
  have unclosed : Event.closed s.idBase ∉ s.history := fun mem =>
    Nat.lt_irrefl _ (h.fresh _ mem)
  refine ⟨⟨?_, fun id => ?_, fun id failed => ?_⟩, fun e mem => ?_, fun id failed => ?_⟩
  · rw [ids_listenerCb, List.nodup_append]
    refine ⟨h.working.once, List.pairwise_singleton _ _, fun id mem id' mem' same => ?_⟩
    rw [same, List.mem_singleton.mp mem'] at mem
    exact Nat.lt_irrefl _ (h.lt_of_listed mem)
  · rw [ids_listenerCb, history, List.mem_append, h.working.listed]
    by_cases new : id = s.idBase
    · simp [new, unclosed]
    · simp [new]
  · rw [history] at failed
    exact absurd (by simpa using failed) (h.unfailed id)
  · rw [history] at mem
    obtain earlier | new := List.mem_append.mp mem
    · exact Nat.lt_succ_of_lt (h.fresh e earlier)
    · rw [List.mem_singleton.mp new]
      exact Nat.lt_succ_self _
  · rw [history] at failed
    exact h.unfailed id (by simpa using failed)

theorem ids_removeConnection (s : ProxyListener) (id : Nat) :
    (s.removeConnection id).connList.map Listed.id = (s.connList.map Listed.id).erase id := by
  rw [List.erase_eq_eraseP', List.eraseP_map]
  rfl

theorem Inv.afterCallback (h : Inv s) {id : Nat} (mem : id ∈ s.connList.map Listed.id)
    (c : Connection) : Inv (s.afterCallback id c) := by
  rw [ProxyListener.afterCallback]
  split
  · have unfailed : ∀ other, Event.failed other ∉ s.history ++ [.closed id] := fun other failed =>
      h.unfailed other (by simpa using failed)
    refine ⟨⟨?_, fun other => ?_, fun other failed => ?_⟩, fun e closed => ?_, unfailed⟩
    · rw [ids_removeConnection]
      exact h.working.once.erase id
    · rw [ids_removeConnection, h.working.once.mem_erase_iff, h.working.listed, removeConnection]
      simp only [List.mem_append, List.mem_singleton, reduceCtorEq, or_false, Event.closed.injEq]
      tauto
    · exact absurd failed (unfailed other)
    · obtain earlier | new := List.mem_append.mp closed
      · exact h.fresh e earlier
      · rw [List.mem_singleton.mp new]
        exact h.lt_of_listed mem
  · have ids : (s.connList.map fun l => if l.id = id then { l with connection := c } else l).map
        Listed.id = s.connList.map Listed.id := by
      rw [List.map_map]
      refine List.map_congr_left fun l _ => ?_
      simp only [Function.comp_apply]
      split <;> rfl
    refine ⟨⟨ids ▸ h.working.once, fun other => ?_, h.working.released⟩, h.fresh, h.unfailed⟩
    rw [← h.working.listed, ids]

/-- A connection that was not established stays in the list and its sockets stay open. -/
theorem Inv.left_by_failure (h : Inv s) {o : Outcomes} (failed : o.Failed) :
    s.idBase ∈ (s.listenerCb o).connList.map Listed.id ∧
      Event.established s.idBase ∉ (s.listenerCb o).history ∧
        Resource.incomingFd ∈ (s.listenerCb o).held s.idBase := by
  refine ⟨?_, fun established => ?_, ?_⟩
  · rw [ids_listenerCb]
    exact List.mem_append_right _ (List.mem_singleton_self _)
  · rw [ProxyListener.listenerCb, if_pos failed] at established
    exact Nat.lt_irrefl _ (h.fresh (.established s.idBase) (by simpa using established))
  · have held : (s.listenerCb o).held s.idBase = (establish o).held :=
      Function.update_self _ _ _
    rw [held]
    exact incomingFd_held o

theorem Inv.not_working (h : Inv s) {o : Outcomes} (failed : o.Failed) :
    ¬ Working (s.listenerCb o) := by
  intro working
  obtain ⟨listed, unestablished, _⟩ := h.left_by_failure failed
  exact unestablished ((working.listed s.idBase).mp listed).1

/-- In every run the results of all accepts and the list are right throughout if and
only if no call in an accept fails. -/
theorem conn_list_working_iff (idBase : Nat) (acts : List Act) :
    Throughout step Right acts (start idBase) ↔ Throughout step NoFailure acts (start idBase) := by
  refine throughout_congr_of_kept Inv (fun h taken right => ?_) (fun h taken => ?_) acts
    (inv_start idBase)
  · obtain ⟨o, rfl, rfl⟩ | ⟨_, id, c, mem, rfl⟩ := step_cases taken
    · exact h.listenerCb fun failed => h.not_working failed right.2
    · exact h.afterCallback mem c
  · obtain ⟨o, rfl, rfl⟩ | ⟨other, id, c, mem, rfl⟩ := step_cases taken
    · constructor
      · rintro ⟨_, working⟩ o' same failed
        cases same
        exact h.not_working failed working
      · intro good
        refine ⟨fun o' same => ?_, (h.listenerCb (good o rfl)).working⟩
        cases same
        rw [establish_result]
        refine ⟨fun early => ?_, fun failed => absurd failed (good o rfl)⟩
        obtain first | second | third := early
        · exact .inl first
        · exact .inr (.inl second)
        · exact .inr (.inr (.inl third))
    · exact iff_of_true ⟨fun o same => absurd same (other o), (h.afterCallback mem c).working⟩
        fun o same => absurd same (other o)

/-- A `connect` that fails at once is taken for a success. -/
theorem not_always_working :
    ¬ ∀ (idBase : Nat) (acts : List Act), Throughout step Right acts (start idBase) := by
  intro always
  obtain ⟨⟨noticed, _⟩, _⟩ := always 0 [.accept ⟨true, true, true, .error⟩] _ rfl
  exact (noticed _ rfl).mpr (by decide) rfl

end ProxyListener

end Proxy
