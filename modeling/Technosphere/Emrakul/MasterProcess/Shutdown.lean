import Mathlib.Algebra.Order.BigOperators.Group.Finset
import Technosphere.Emrakul.ConnectionList
import Technosphere.Emrakul.MasterProcess.FailedReceive

/-!
# Shutting v1.0 down

A signal that the event loop handles closes the connections and ends the loop
after a delay, in which clients are still served. The master then sends each
worker a message that tells it to terminate, waits for all of them, and removes
the queue, the table and the semaphores. A worker may still have commands to
execute at that time, since a signal also makes the `msgrcv` of the master fail.

Signals may kill workers, but not in `dispatch_message`: the permits of a worker
that is killed in a critical section are lost, and the others then wait for ever.
When nobody is, every call comes to its end. With two or more connections
`signal_cb` does not return. The queue always has room.

`shutdown_completes` says that every schedule comes to the removal, that no
worker is left then, and that no command is lost but those for killed workers.
-/

namespace EmrakulV1

namespace Shutdown

open Bytes SharedMemory Emrakul Transition FailedReceive ConnectionList

/-! ## The master from its event loop to its end -/

/-- A worker, with `dispatch_message` as a place of its own. -/
inductive Worker where
  /-- In `msgrcv`. -/
  | waiting
  /-- In front of `dispatch_message`. -/
  | received (ticket : Nat) (msg : CommandMessage)
  /-- In `dispatch_message`. -/
  | dispatching (ticket : Nat) (msg : CommandMessage)
  /-- In front of `msgsnd`. -/
  | answering (ticket : Nat) (reply : CommandMessage)
  /-- Out of its loop. -/
  | stopped

/-- The message that a worker has received and not yet dispatched. -/
def Worker.message : Worker → Option (Nat × CommandMessage)
  | .received ticket msg | .dispatching ticket msg => some (ticket, msg)
  | _ => none

inductive Phase where
  /-- In the event loop, or in `execute_query`. -/
  | inLoop
  /-- In `shutdown_workers`, with that many workers told to terminate. -/
  | leaving (told : Nat)
  /-- Behind `release_ipc`. -/
  | released
  deriving DecidableEq

/-- How many workers have been told to terminate. -/
def Phase.told : Phase → Nat
  | .inLoop => 0
  | .leaving told => told
  | .released => workerProcessesCount

/-- `idBase` is the id of the next connection, and `exiting` says that
`event_base_loopexit` was called. `relayed` and `executed` record the commands
that were relayed and those that `dispatch_message` has executed, `killed` the
workers that signals killed. -/
structure Server where
  phase : Phase
  exiting : Bool
  connList : List ClientConnection
  idBase : Nat
  queue : List (Nat × CommandMessage)
  awaiting : Bool
  workers : Nat → Worker
  tickets : Nat
  relayed : List (Nat × CommandMessage)
  executed : List (Nat × CommandMessage)
  killed : List Nat

inductive Move where
  /-- The worker receives a message of its type. -/
  | receive
  /-- It calls `dispatch_message`. -/
  | call
  /-- What `dispatch_message` does up to the `msgsnd` in it is over. -/
  | dispatch (status : Int) (data : Memory)
  /-- It sends its reply. -/
  | reply
  /-- A signal kills it. -/
  | kill

inductive Act where
  /-- `listener_cb`. Without a bufferevent, `establish` breaks the event loop. -/
  | connect (bevIn : Option Nat)
  /-- A client has gone, and its connection is closed. -/
  | close (conn : ClientConnection)
  /-- `signal_cb`. -/
  | signal
  /-- The master reads a command from an open connection and calls `execute_query`. -/
  | query (q : Query)
  /-- The `msgrcv` of the master fails. -/
  | fail
  /-- The master receives a message of its type. -/
  | answer
  /-- The event loop is over. -/
  | leave
  /-- The next worker is told to terminate; the other fields are not set. -/
  | terminate (unset : CommandMessage)
  /-- There is no child left to wait for, and `release_ipc` is called. -/
  | release
  /-- A worker goes on, or is killed. -/
  | worker (w : Nat) (move : Move)

/-- The message that `shutdown_workers` sends to the worker `w`. -/
def termMsg (w : Nat) (unset : CommandMessage) : CommandMessage :=
  { unset with mtype := w, operation := .term }

def workerStep (s : Server) (w : Nat) : Move → Option Server
  | .receive =>
    match s.workers w, msgrcv w s.queue with
    | .waiting, some (m, queue) =>
      some { s with queue := queue, workers := Function.update s.workers w (.received m.1 m.2) }
    | _, _ => none
  | .call =>
    match s.workers w with
    | .received t msg =>
      some { s with workers := Function.update s.workers w (.dispatching t msg) }
    | _ => none
  | .dispatch status data =>
    match s.workers w with
    | .dispatching t msg =>
      match afterDispatch msg status data with
      | some reply =>
        some { s with
          workers := Function.update s.workers w (.answering t reply)
          executed := s.executed ++ [(t, msg)] }
      | none => some { s with workers := Function.update s.workers w .stopped }
    | _ => none
  | .reply =>
    match s.workers w with
    | .answering t reply =>
      some { s with
        queue := s.queue ++ [(t, reply)]
        workers := Function.update s.workers w .waiting }
    | _ => none
  | .kill =>
    match s.workers w with
    | .dispatching _ _ | .stopped => none
    | _ =>
      some { s with workers := Function.update s.workers w .stopped, killed := w :: s.killed }

/-- The master is in the event loop, not in one of the callbacks. -/
def Server.Idle (s : Server) : Prop := s.phase = .inLoop ∧ s.awaiting = false

instance (s : Server) : Decidable s.Idle := inferInstanceAs (Decidable (_ ∧ _))

def step (s : Server) : Act → Option Server
  | .connect bevIn =>
    if s.Idle then
      let s := { s with
        connList := s.connList ++ [⟨s.idBase, bevIn.getD 0⟩]
        idBase := s.idBase + 1 }
      if bevIn.isSome then some s else some { s with phase := .leaving 0 }
    else none
  | .close conn =>
    if s.Idle ∧ conn ∈ s.connList then
      some { s with connList := removeConnection conn s.connList }
    else none
  | .signal =>
    if s.Idle then
      match signalCb s.connList with
      | .returned closing => some { s with connList := closing.connList, exiting := true }
      | .outOfRange _ _ => none
    else none
  | .query q =>
    if ¬ s.Idle ∨ q.connection ∉ s.connList.map ClientConnection.id then none
    else if q.command.operation = .none then some s
    else
      some { s with
        queue := s.queue ++ [(s.tickets, q.message)]
        awaiting := true
        tickets := s.tickets + 1
        relayed := s.relayed ++ [(s.tickets, q.message)] }
  | .fail => if s.awaiting then some { s with awaiting := false } else none
  | .answer =>
    match s.awaiting, msgrcv masterMsgtype s.queue with
    | true, some (_, queue) => some { s with queue := queue, awaiting := false }
    | _, _ => none
  | .leave =>
    if s.Idle ∧ s.exiting then some { s with phase := .leaving 0 } else none
  | .terminate unset =>
    match s.phase with
    | .leaving told =>
      if told < workerProcessesCount then
        some { s with
          phase := .leaving (told + 1)
          queue := s.queue ++ [(0, termMsg (told + 2) unset)] }
      else none
    | _ => none
  | .release =>
    if s.phase = .leaving workerProcessesCount ∧
        ∀ w ∈ workerIds, s.workers w matches .stopped then
      some { s with phase := .released }
    else none
  | .worker w move => if w ∈ workerIds then workerStep s w move else none

/-- The event loop starts on an empty queue, with all workers in `msgrcv`. -/
def start : Server := ⟨.inLoop, false, [], 0, [], false, fun _ => .waiting, 0, [], [], []⟩

/-- `signal_cb` comes back from the loop over at most one connection. -/
theorem few_of_returned {connList : List ClientConnection} {closing : Closing}
    (distinct : (connList.map ClientConnection.id).Nodup)
    (returned : signalCb connList = .returned closing) :
    connList.length ≤ 1 ∧ closing.connList = [] := by
  match connList with
  | [] =>
      cases returned
      exact ⟨Nat.zero_le _, rfl⟩
  | [conn] =>
      have removed : removeConnection conn [conn] = [] := if_pos rfl
      cases returned
      exact ⟨Nat.le_refl _, removed⟩
  | _ :: _ :: _ =>
      rw [signalCb_outOfRange distinct (Nat.le_add_left _ _)] at returned
      cases returned

/-! ## The connections -/

/-- The ids in the vector are different, and have been given out. -/
structure Numbered (s : Server) : Prop where
  distinct : (s.connList.map ClientConnection.id).Nodup
  given : ∀ conn ∈ s.connList, conn.id < s.idBase

theorem workerStep_connList {s t : Server} {w : Nat} {move : Move}
    (taken : workerStep s w move = some t) : t.connList = s.connList ∧ t.idBase = s.idBase := by
  cases move with
  | receive | call | reply =>
      simp only [workerStep] at taken
      split at taken
      · cases taken
        exact ⟨rfl, rfl⟩
      · cases taken
  | dispatch status data =>
      simp only [workerStep] at taken
      split at taken
      · split at taken <;> cases taken <;> exact ⟨rfl, rfl⟩
      · cases taken
  | kill =>
      simp only [workerStep] at taken
      split at taken
      · cases taken
      · cases taken
      · cases taken
        exact ⟨rfl, rfl⟩

namespace Numbered

variable {s t : Server}

theorem same (h : Numbered s) (kept : t.connList = s.connList ∧ t.idBase = s.idBase) :
    Numbered t := by
  obtain ⟨connList, idBase⟩ := kept
  exact ⟨connList ▸ h.distinct, connList ▸ idBase ▸ h.given⟩

theorem connect (h : Numbered s) {bevIn : Option Nat} (taken : step s (.connect bevIn) = some t) :
    Numbered t := by
  simp only [step] at taken
  obtain ⟨_, taken⟩ := Option.ite_none_right_eq_some.mp taken
  have added : Numbered { s with
      connList := s.connList ++ [⟨s.idBase, bevIn.getD 0⟩], idBase := s.idBase + 1 } := by
    constructor
    · show ((s.connList ++ [_]).map ClientConnection.id).Nodup
      rw [List.map_append, List.map_singleton, ← List.concat_eq_append, List.nodup_concat]
      refine ⟨fun inside => ?_, h.distinct⟩
      obtain ⟨conn, inside, same⟩ := List.mem_map.mp inside
      exact (h.given conn inside).ne same
    · intro conn inside
      rcases List.mem_append.mp inside with before | new
      · exact (h.given conn before).trans (Nat.lt_succ_self _)
      · rw [List.mem_singleton.mp new]
        exact Nat.lt_succ_self _
  split at taken
  · cases taken
    exact added
  · cases taken
    exact added.same ⟨rfl, rfl⟩

theorem close (h : Numbered s) {conn : ClientConnection} (taken : step s (.close conn) = some t) :
    Numbered t := by
  simp only [step] at taken
  obtain ⟨_, same⟩ := Option.ite_none_right_eq_some.mp taken
  cases same
  have removed := removeConnection_eq_filter h.distinct conn
  constructor
  · show ((removeConnection conn s.connList).map ClientConnection.id).Nodup
    rw [removed]
    exact (List.filter_sublist.map _).nodup h.distinct
  · intro c inside
    change c ∈ removeConnection conn s.connList at inside
    rw [removed] at inside
    exact h.given c (List.mem_filter.mp inside).1

theorem signal (h : Numbered s) (taken : step s .signal = some t) :
    Numbered t ∧ s.connList.length ≤ 1 ∧ t.connList = [] := by
  simp only [step] at taken
  obtain ⟨_, taken⟩ := Option.ite_none_right_eq_some.mp taken
  split at taken
  · rename_i closing returned
    cases taken
    obtain ⟨few, empty⟩ := few_of_returned h.distinct returned
    refine ⟨⟨?_, ?_⟩, few, empty⟩
    · show (closing.connList.map ClientConnection.id).Nodup
      rw [empty]
      exact List.nodup_nil
    · show ∀ conn ∈ closing.connList, conn.id < s.idBase
      rw [empty]
      exact List.forall_mem_nil _
  · cases taken

theorem step {a : Act} (h : Numbered s) (taken : step s a = some t) : Numbered t := by
  cases a with
  | connect bevIn => exact h.connect taken
  | close conn => exact h.close taken
  | signal => exact (h.signal taken).1
  | worker w move =>
      obtain ⟨_, taken⟩ := Option.ite_none_right_eq_some.mp taken
      exact h.same (workerStep_connList taken)
  | query q =>
      simp only [Shutdown.step] at taken
      split at taken
      · cases taken
      · split at taken <;> cases taken <;> exact h.same ⟨rfl, rfl⟩
  | fail | leave | release | terminate unset | answer =>
      simp only [Shutdown.step] at taken
      split at taken
      · first
        | cases taken
          exact h.same ⟨rfl, rfl⟩
        | obtain ⟨_, same⟩ := Option.ite_none_right_eq_some.mp taken
          cases same
          exact h.same ⟨rfl, rfl⟩
      · cases taken

end Numbered

/-- In every run `signal_cb` comes back only when at most one client is
connected, and then no connection is left. -/
theorem few_of_signal {acts : List Act} {s t : Server} (reached : Run step Always start acts s)
    (taken : step s .signal = some t) : s.connList.length ≤ 1 ∧ t.connList = [] := by
  have first : Numbered start := ⟨List.nodup_nil, List.forall_mem_nil _⟩
  have numbered : Numbered s :=
    reached.invariant (fun _ s => Numbered s) first fun h _ taken => h.step taken
  exact (numbered.signal taken).2

/-! ## What a worker has before it -/

def IsTerm (m : Nat × CommandMessage) : Prop := m.2.operation = .term

/-- Only a termination is not answered. -/
theorem afterDispatch_eq_none (msg : CommandMessage) (status : Int) (data : Memory) :
    afterDispatch msg status data = none ↔ msg.operation = .term := by
  unfold afterDispatch
  cases msg.operation <;> simp

/-- The messages in the queue for a worker. -/
def pending (w : Nat) (queue : List (Nat × CommandMessage)) : List (Nat × CommandMessage) :=
  queue.filter fun m => m.2.mtype == w

/-- A message in the queue is among those for its own type. -/
theorem mem_pending {m : Nat × CommandMessage} {queue : List (Nat × CommandMessage)} :
    m ∈ pending m.2.mtype queue ↔ m ∈ queue := by
  rw [pending, List.mem_filter]
  exact and_iff_left (beq_self_eq_true _)

theorem pending_append (w : Nat) (queue : List (Nat × CommandMessage))
    (m : Nat × CommandMessage) :
    pending w (queue ++ [m]) = pending w queue ++ if m.2.mtype = w then [m] else [] := by
  rw [pending, List.filter_append]
  by_cases own : m.2.mtype = w <;> simp [pending, own]

theorem pending_of_msgrcv {t : Nat} {queue rest : List (Nat × CommandMessage)}
    {m : Nat × CommandMessage} (h : msgrcv t queue = some (m, rest)) :
    m.2.mtype = t ∧ pending t queue = m :: pending t rest ∧
      ∀ w, w ≠ t → pending w queue = pending w rest := by
  obtain ⟨before, after, rfl, rfl, own, others⟩ := of_msgrcv h
  have none : pending t before = [] := by
    simpa [pending, List.filter_eq_nil_iff] using others
  refine ⟨own, ?_, fun w other => ?_⟩
  · simp only [pending] at none
    simp [pending, none, own]
  · simp [pending, own, Ne.symm other]

theorem msgrcv_of_pending {w : Nat} {queue : List (Nat × CommandMessage)}
    (some : pending w queue ≠ []) : ∃ m rest, msgrcv w queue = .some (m, rest) := by
  obtain ⟨m, inside⟩ := List.exists_mem_of_ne_nil _ some
  obtain ⟨there, own⟩ := List.mem_filter.mp inside
  have found : (queue.find? fun m => m.2.mtype == w).isSome :=
    List.find?_isSome.mpr ⟨m, there, own⟩
  obtain ⟨m', found⟩ := Option.isSome_iff_exists.mp found
  exact ⟨m', _, by rw [msgrcv, found, Option.map_some]⟩

/-- Where a worker stands: it has not been told to terminate, or that is the
last message for it, or it holds that message, or it is gone. -/
inductive Course (killed : Prop) :
    (told : Bool) → Worker → List (Nat × CommandMessage) → Prop where
  | untold {worker pending} : (∀ m ∈ pending, ¬ IsTerm m) →
      (∀ m, worker.message = some m → ¬ IsTerm m) → worker ≠ .stopped →
      Course killed false worker pending
  | told {worker commands last} : (∀ m ∈ commands, ¬ IsTerm m) → IsTerm last →
      (∀ m, worker.message = some m → ¬ IsTerm m) → worker ≠ .stopped →
      Course killed true worker (commands ++ [last])
  | last {worker m} : worker.message = some m → IsTerm m → Course killed true worker []
  | gone {told pending} : (killed ∨ told = true ∧ pending = []) →
      Course killed told .stopped pending

namespace Course

variable {killed : Prop} {told : Bool} {worker : Worker} {m : Nat × CommandMessage}
  {queue rest : List (Nat × CommandMessage)}

theorem command (h : Course killed false worker queue) (command : ¬ IsTerm m) :
    Course killed false worker (queue ++ [m]) := by
  cases h with
  | untold none holds going =>
      refine .untold (fun x inside => ?_) holds going
      rcases List.mem_append.mp inside with inside | same
      · exact none x inside
      · rw [List.mem_singleton.mp same]
        exact command
  | gone finished => exact .gone (Or.inl (finished.resolve_right fun h => Bool.noConfusion h.1))

theorem terminate (h : Course killed false worker queue) (term : IsTerm m) :
    Course killed true worker (queue ++ [m]) := by
  cases h with
  | untold none holds going => exact .told none term holds going
  | gone finished => exact .gone (Or.inl (finished.resolve_right fun h => Bool.noConfusion h.1))

theorem receive (h : Course killed told .waiting (m :: rest)) :
    Course killed told (.received m.1 m.2) rest := by
  generalize split : m :: rest = queue at h
  cases h with
  | untold none _ _ =>
      subst split
      refine .untold (fun x inside => none x (List.mem_cons_of_mem _ inside)) ?_ nofun
      rintro _ ⟨⟩
      exact none m List.mem_cons_self
  | @told _ commands last none term _ _ =>
      rcases List.cons_eq_append_iff.mp split with ⟨rfl, same⟩ | ⟨commands, rfl, rfl⟩
      · cases same
        exact .last rfl term
      · refine .told (fun x inside => none x (List.mem_cons_of_mem _ inside)) term ?_ nofun
        rintro _ ⟨⟩
        exact none m List.mem_cons_self
  | last has _ => cases has

/-- The worker goes on with the message it has, or without one. -/
theorem next (h : Course killed told worker queue) (going : worker ≠ .stopped)
    (command : ∀ m, worker.message = some m → ¬ IsTerm m) {worker' : Worker}
    (idle : worker'.message = none) (going' : worker' ≠ .stopped) :
    Course killed told worker' queue := by
  have holds : ∀ m, worker'.message = some m → ¬ IsTerm m := by
    intro m same
    rw [idle] at same
    cases same
  cases h with
  | untold none _ _ => exact .untold none holds going'
  | told none term _ _ => exact .told none term holds going'
  | last same term => exact absurd term (command _ same)
  | gone _ => exact absurd rfl going

/-- The worker still has the message that it had. -/
theorem hold (h : Course killed told worker queue) (going : worker ≠ .stopped)
    {worker' : Worker} (same : worker'.message = worker.message) (going' : worker' ≠ .stopped) :
    Course killed told worker' queue := by
  cases h with
  | untold none holds _ => exact .untold none (same ▸ holds) going'
  | told none term holds _ => exact .told none term (same ▸ holds) going'
  | last has term => exact .last (same.trans has) term
  | gone _ => exact absurd rfl going

theorem stop (h : Course killed told worker queue) (has : worker.message = some m)
    (term : IsTerm m) : Course killed told .stopped queue := by
  cases h with
  | untold _ holds _ => exact absurd term (holds m has)
  | told _ _ holds _ => exact absurd term (holds m has)
  | last _ _ => exact .gone (Or.inr ⟨rfl, rfl⟩)
  | gone _ => cases has

theorem mono {killed' : Prop} (h : Course killed told worker queue) (weaken : killed → killed') :
    Course killed' told worker queue := by
  cases h with
  | untold none holds going => exact .untold none holds going
  | told none term holds going => exact .told none term holds going
  | last has term => exact .last has term
  | gone finished => exact .gone (finished.imp_left weaken)

end Course

/-! ## What every step keeps -/

structure Tracked (s : Server) : Prop where
  course : ∀ w ∈ workerIds, Course (w ∈ s.killed) (decide (w < 2 + s.phase.told)) (s.workers w)
    (pending w s.queue)
  holds : ∀ w m, (s.workers w).message = some m → m.2.mtype = w
  replies : ∀ w t reply, s.workers w = .answering t reply → reply.mtype = masterMsgtype
  commands : ∀ m ∈ s.relayed, ¬ IsTerm m
  kept : ∀ m ∈ s.relayed, m.2.mtype ∈ workerIds → m ∈ s.executed ∨ m ∈ s.queue ∨
    (s.workers m.2.mtype).message = some m ∨ m.2.mtype ∈ s.killed
  ended : s.phase = .released → ∀ w ∈ workerIds, s.workers w = .stopped
  idle : s.phase ≠ .inLoop → s.awaiting = false
  few : s.phase.told ≤ workerProcessesCount

/-- A message stays with its worker, whatever another one does. -/
theorem message_update {workers : Nat → Worker} {v w : Nat} {x : Worker}
    {m : Nat × CommandMessage} (held : (workers v).message = some m)
    (own : ∀ m, (workers w).message = some m → x.message = some m) :
    (Function.update workers w x v).message = some m := by
  by_cases same : v = w
  · subst same
    rw [Function.update_self]
    exact own m held
  · rw [Function.update_of_ne same, held]

/-- In the event loop no worker has been told to terminate. -/
theorem untold_inLoop {w : Nat} (inside : w ∈ workerIds) :
    decide (w < 2 + Phase.inLoop.told) = false :=
  decide_eq_false (Nat.not_lt.mpr (mem_workerIds.mp inside).1)

namespace Tracked

variable {s t : Server} {w : Nat} {x : Worker}

theorem start : Tracked start where
  course w inside := by
    show Course _ (decide (w < 2 + Phase.inLoop.told)) _ _
    rw [untold_inLoop inside]
    exact .untold nofun nofun nofun
  holds _ _ same := by cases same
  replies _ _ _ same := by cases same
  commands := nofun
  kept := nofun
  ended := nofun
  idle other := absurd rfl other
  few := Nat.zero_le _

theorem master_notMem : masterMsgtype ∉ workerIds := by decide

/-- The connections are of no account. -/
theorem connections (h : Tracked s) (exiting : Bool) (connList : List ClientConnection)
    (idBase : Nat) :
    Tracked { s with exiting := exiting, connList := connList, idBase := idBase } :=
  ⟨h.course, h.holds, h.replies, h.commands, h.kept, h.ended, h.idle, h.few⟩

/-- The event loop is over. -/
theorem out (h : Tracked s) (idle : s.Idle) : Tracked { s with phase := .leaving 0 } := by
  refine ⟨fun w inside => ?_, h.holds, h.replies, h.commands, h.kept, nofun, fun _ => idle.2,
    Nat.zero_le _⟩
  have course := h.course w inside
  rw [idle.1] at course
  exact course

theorem connect (h : Tracked s) {bevIn : Option Nat} (taken : step s (.connect bevIn) = some t) :
    Tracked t := by
  simp only [step] at taken
  obtain ⟨idle, taken⟩ := Option.ite_none_right_eq_some.mp taken
  have added := h.connections s.exiting (s.connList ++ [⟨s.idBase, bevIn.getD 0⟩]) (s.idBase + 1)
  split at taken
  · cases taken
    exact added
  · cases taken
    exact added.out idle

theorem close (h : Tracked s) {conn : ClientConnection} (taken : step s (.close conn) = some t) :
    Tracked t := by
  simp only [step] at taken
  obtain ⟨_, same⟩ := Option.ite_none_right_eq_some.mp taken
  cases same
  exact h.connections s.exiting _ s.idBase

theorem signal (h : Tracked s) (taken : step s .signal = some t) : Tracked t := by
  simp only [step] at taken
  obtain ⟨_, taken⟩ := Option.ite_none_right_eq_some.mp taken
  split at taken
  · cases taken
    exact h.connections true _ s.idBase
  · cases taken

theorem query (h : Tracked s) {q : Query} (taken : step s (.query q) = some t) : Tracked t := by
  simp only [step] at taken
  split at taken
  · cases taken
  rename_i free
  obtain ⟨⟨inLoop, _⟩, _⟩ := (not_or.mp free).imp_left not_not.mp
  split at taken
  · cases taken
    exact h
  cases taken
  have command : ¬ IsTerm (s.tickets, q.message) := q.command.notTerm
  refine ⟨fun w inside => ?_, h.holds, h.replies, ?_, ?_, h.ended,
    fun other => absurd inLoop other, h.few⟩
  · have course := h.course w inside
    rw [pending_append]
    split
    · rw [inLoop, untold_inLoop inside] at course
      show Course _ (decide (w < 2 + s.phase.told)) _ _
      rw [inLoop, untold_inLoop inside]
      exact course.command command
    · rw [List.append_nil]
      exact course
  · intro m inside
    rcases List.mem_append.mp inside with before | same
    · exact h.commands m before
    · rw [List.mem_singleton.mp same]
      exact command
  · intro m inside own
    rcases List.mem_append.mp inside with before | same
    · refine (h.kept m before own).imp_right (Or.imp_left ?_)
      exact List.mem_append_left _
    · exact Or.inr (Or.inl (List.mem_append_right _ same))

theorem fail (h : Tracked s) (taken : step s .fail = some t) : Tracked t := by
  simp only [step] at taken
  split at taken
  · cases taken
    exact ⟨h.course, h.holds, h.replies, h.commands, h.kept, h.ended, fun _ => rfl, h.few⟩
  · cases taken

theorem answer (h : Tracked s) (taken : step s .answer = some t) : Tracked t := by
  simp only [step] at taken
  split at taken
  · rename_i m queue awaiting received
    cases taken
    obtain ⟨own, first, others⟩ := pending_of_msgrcv received
    refine ⟨fun w inside => ?_, h.holds, h.replies, h.commands, fun m' inside mine => ?_, h.ended,
      fun _ => rfl, h.few⟩
    · have other : w ≠ masterMsgtype := fun same => master_notMem (same ▸ inside)
      have course := h.course w inside
      rw [others w other] at course
      exact course
    · refine (h.kept m' inside mine).imp_right (Or.imp_left fun there => ?_)
      have other : m'.2.mtype ≠ masterMsgtype := fun same => master_notMem (same ▸ mine)
      have mine' := mem_pending.mpr there
      rw [others _ other] at mine'
      exact mem_pending.mp mine'
  · cases taken

theorem leave (h : Tracked s) (taken : step s .leave = some t) : Tracked t := by
  simp only [step] at taken
  obtain ⟨⟨idle, _⟩, same⟩ := Option.ite_none_right_eq_some.mp taken
  cases same
  exact h.out idle

theorem terminate (h : Tracked s) {unset : CommandMessage}
    (taken : step s (.terminate unset) = some t) : Tracked t := by
  simp only [step] at taken
  split at taken
  · rename_i told leaving
    obtain ⟨few, same⟩ := Option.ite_none_right_eq_some.mp taken
    cases same
    refine ⟨fun w inside => ?_, h.holds, h.replies, h.commands, fun m inside mine => ?_, nofun,
      fun _ => h.idle (by rw [leaving]; nofun), few⟩
    · have course := h.course w inside
      rw [leaving] at course
      rw [pending_append]
      show Course _ (decide (w < 2 + (told + 1))) _ (_ ++ if told + 2 = w then _ else _)
      change Course _ (decide (w < 2 + told)) _ _ at course
      split
      · rename_i own
        subst own
        rw [decide_eq_false (by omega)] at course
        rw [decide_eq_true (by omega)]
        exact course.terminate rfl
      · have same : decide (w < 2 + (told + 1)) = decide (w < 2 + told) :=
          decide_eq_decide.mpr (by omega)
        rw [List.append_nil, same]
        exact course
    · refine (h.kept m inside mine).imp_right (Or.imp_left ?_)
      exact List.mem_append_left _
  · cases taken

theorem release (h : Tracked s) (taken : step s .release = some t) : Tracked t := by
  simp only [step] at taken
  obtain ⟨⟨leaving, finished⟩, same⟩ := Option.ite_none_right_eq_some.mp taken
  cases same
  refine ⟨fun w inside => ?_, h.holds, h.replies, h.commands, h.kept, fun _ w inside => ?_,
    fun _ => h.idle (by rw [leaving]; nofun), Nat.le_refl _⟩
  · have course := h.course w inside
    rw [leaving] at course
    exact course
  · have stopped := finished w inside
    cases worker : s.workers w with
    | stopped => rfl
    | waiting | received | dispatching | answering => simp [worker] at stopped

/-- A worker that is not gone becomes `x`. -/
theorem moved (h : Tracked s) (inside : w ∈ workerIds) (going : s.workers w ≠ .stopped)
    {queue executed : List (Nat × CommandMessage)} {killed : List Nat}
    (own : Course (w ∈ killed) (decide (w < 2 + s.phase.told)) x (pending w queue))
    (others : ∀ w' ∈ workerIds, w' ≠ w → pending w' queue = pending w' s.queue)
    (more : ∀ w', w' ∈ s.killed → w' ∈ killed)
    (holds : ∀ m, x.message = some m → m.2.mtype = w)
    (replies : ∀ t reply, x = .answering t reply → reply.mtype = masterMsgtype)
    (kept : ∀ m ∈ s.relayed, m.2.mtype ∈ workerIds → m ∈ executed ∨ m ∈ queue ∨
      (Function.update s.workers w x m.2.mtype).message = some m ∨ m.2.mtype ∈ killed) :
    Tracked { s with
      queue := queue, workers := Function.update s.workers w x
      executed := executed, killed := killed } where
  course w' inside' := by
    show Course _ _ (Function.update s.workers w x w') _
    by_cases same : w' = w
    · rw [same, Function.update_self]
      exact own
    · rw [Function.update_of_ne same, others w' inside' same]
      exact (h.course w' inside').mono (more w')
  holds w' m there := by
    change (Function.update s.workers w x w').message = _ at there
    by_cases same : w' = w
    · rw [same, Function.update_self] at there
      rw [same]
      exact holds m there
    · rw [Function.update_of_ne same] at there
      exact h.holds w' m there
  replies w' t reply there := by
    change Function.update s.workers w x w' = _ at there
    by_cases same : w' = w
    · rw [same, Function.update_self] at there
      exact replies t reply there
    · rw [Function.update_of_ne same] at there
      exact h.replies w' t reply there
  commands := h.commands
  kept := kept
  ended finished := absurd (h.ended finished w inside) going
  idle := h.idle
  few := h.few

theorem receive (h : Tracked s) (inside : w ∈ workerIds)
    (taken : workerStep s w .receive = some t) : Tracked t := by
  simp only [workerStep] at taken
  split at taken
  · rename_i m queue waiting received
    cases taken
    obtain ⟨own, first, others⟩ := pending_of_msgrcv received
    have course := h.course w inside
    rw [waiting, first] at course
    refine h.moved inside (by simp [waiting]) course.receive ?_ (fun _ => id) ?_ nofun ?_
    · exact fun w' _ other => (others w' other).symm
    · rintro _ ⟨⟩
      exact own
    · intro m' relayed mine
      rcases h.kept m' relayed mine with executed | queued | held | killed
      · exact Or.inl executed
      · by_cases same : m'.2.mtype = w
        · have there : m' ∈ m :: pending w queue := by
            rw [← first]
            exact List.mem_filter.mpr ⟨queued, by simp [same]⟩
          rcases List.mem_cons.mp there with rfl | later
          · right; right; left
            rw [same, Function.update_self, Worker.message]
          · exact Or.inr (Or.inl (List.mem_filter.mp later).1)
        · have there := mem_pending.mpr queued
          rw [others _ same] at there
          exact Or.inr (Or.inl (mem_pending.mp there))
      · refine Or.inr (Or.inr (Or.inl (message_update held fun _ has => ?_)))
        rw [waiting] at has
        cases has
      · exact Or.inr (Or.inr (Or.inr killed))
  · cases taken

theorem call (h : Tracked s) (inside : w ∈ workerIds)
    (taken : workerStep s w .call = some t) : Tracked t := by
  simp only [workerStep] at taken
  split at taken
  · rename_i ticket msg here
    cases taken
    have course := h.course w inside
    rw [here] at course
    refine h.moved inside (by simp [here]) (course.hold nofun rfl nofun) (fun _ _ _ => rfl)
      (fun _ => id) ?_ nofun ?_
    · rintro _ ⟨⟩
      exact h.holds w (ticket, msg) (by rw [here, Worker.message])
    · intro m relayed mine
      refine (h.kept m relayed mine).imp_right (Or.imp_right (Or.imp_left fun held => ?_))
      refine message_update held fun _ has => ?_
      rw [here] at has
      exact has
  · cases taken

theorem dispatch (h : Tracked s) (inside : w ∈ workerIds) {status : Int} {data : Memory}
    (taken : workerStep s w (.dispatch status data) = some t) : Tracked t := by
  simp only [workerStep] at taken
  split at taken
  · rename_i ticket msg here
    have course := h.course w inside
    rw [here] at course
    split at taken
    · rename_i reply executed
      cases taken
      have command : ¬ IsTerm (ticket, msg) := by
        intro term
        rw [(afterDispatch_eq_none msg status data).mpr term] at executed
        cases executed
      refine h.moved inside (by simp [here]) (course.next nofun ?_ rfl nofun)
        (fun _ _ _ => rfl) (fun _ => id) nofun ?_ ?_
      · rintro _ ⟨⟩
        exact command
      · rintro _ _ ⟨⟩
        exact afterDispatch_mtype executed
      · intro m relayed mine
        rcases h.kept m relayed mine with before | queued | held | killed
        · exact Or.inl (List.mem_append_left _ before)
        · exact Or.inr (Or.inl queued)
        · by_cases same : m.2.mtype = w
          · rw [same, here] at held
            cases held
            exact Or.inl (List.mem_append_right _ (List.mem_singleton.mpr rfl))
          · right; right; left
            rw [Function.update_of_ne same, held]
        · exact Or.inr (Or.inr (Or.inr killed))
    · rename_i none
      cases taken
      have term : IsTerm (ticket, msg) := (afterDispatch_eq_none msg status data).mp none
      refine h.moved inside (by simp [here]) (course.stop rfl term) (fun _ _ _ => rfl)
        (fun _ => id) nofun nofun ?_
      intro m relayed mine
      refine (h.kept m relayed mine).imp_right (Or.imp_right (Or.imp_left fun held => ?_))
      rw [Function.update_of_ne, held]
      rintro rfl
      rw [here] at held
      exact h.commands m relayed (Option.some.inj held ▸ term)
  · cases taken

/-- The reply is for the master. -/
theorem pending_reply (h : Tracked s) {ticket : Nat} {reply : CommandMessage}
    (here : s.workers w = .answering ticket reply) {w' : Nat} (inside : w' ∈ workerIds) :
    pending w' (s.queue ++ [(ticket, reply)]) = pending w' s.queue := by
  rw [pending_append, if_neg, List.append_nil]
  rintro rfl
  rw [h.replies w ticket reply here] at inside
  exact master_notMem inside

theorem reply (h : Tracked s) (inside : w ∈ workerIds)
    (taken : workerStep s w .reply = some t) : Tracked t := by
  simp only [workerStep] at taken
  split at taken
  · rename_i ticket reply here
    cases taken
    have course := h.course w inside
    rw [here] at course
    refine h.moved inside (by simp [here]) ?_ (fun w' inside' _ => h.pending_reply here inside')
      (fun _ => id) nofun nofun ?_
    · rw [h.pending_reply here inside]
      exact course.next nofun nofun rfl nofun
    · intro m relayed mine
      refine (h.kept m relayed mine).imp_right (Or.imp (List.mem_append_left _) (Or.imp_left ?_))
      refine fun held => message_update held fun _ has => ?_
      rw [here] at has
      cases has
  · cases taken

theorem kill (h : Tracked s) (inside : w ∈ workerIds)
    (taken : workerStep s w .kill = some t) : Tracked t := by
  simp only [workerStep] at taken
  split at taken
  · cases taken
  · cases taken
  · rename_i going
    cases taken
    refine h.moved inside (fun gone => going gone) (.gone (Or.inl List.mem_cons_self))
      (fun _ _ _ => rfl) (fun _ => List.mem_cons_of_mem _) nofun nofun ?_
    intro m relayed mine
    rcases h.kept m relayed mine with before | queued | held | killed
    · exact Or.inl before
    · exact Or.inr (Or.inl queued)
    · by_cases same : m.2.mtype = w
      · rw [same]
        exact Or.inr (Or.inr (Or.inr List.mem_cons_self))
      · right; right; left
        rw [Function.update_of_ne same, held]
    · exact Or.inr (Or.inr (Or.inr (List.mem_cons_of_mem _ killed)))

theorem step {a : Act} (h : Tracked s) (taken : step s a = some t) : Tracked t := by
  cases a with
  | connect bevIn => exact h.connect taken
  | close conn => exact h.close taken
  | signal => exact h.signal taken
  | query q => exact h.query taken
  | fail => exact h.fail taken
  | answer => exact h.answer taken
  | leave => exact h.leave taken
  | terminate unset => exact h.terminate taken
  | release => exact h.release taken
  | worker w move =>
      obtain ⟨inside, taken⟩ := Option.ite_none_right_eq_some.mp taken
      cases move with
      | receive => exact h.receive inside taken
      | call => exact h.call inside taken
      | dispatch status data => exact h.dispatch inside taken
      | reply => exact h.reply inside taken
      | kill => exact h.kill inside taken

end Tracked

/-! ## Behind the event loop -/

def weight : Worker → Nat
  | .stopped => 0
  | .waiting => 1
  | .answering _ _ => 2
  | .dispatching _ _ => 3
  | .received _ _ => 4

/-- What a worker has ahead of it. A message takes up to four steps. -/
def ahead (s : Server) (w : Nat) : Nat := 4 * (pending w s.queue).length + weight (s.workers w)

def Phase.left : Phase → Nat
  | .leaving told => 5 * (workerProcessesCount - told) + 1
  | _ => 0

/-- A bound for the steps that are left when the event loop is over. -/
def Server.left (s : Server) : Nat := ∑ w ∈ workerIds.toFinset, ahead s w + s.phase.left

section Leaving

variable {s t : Server} {w : Nat}

/-- A worker has less ahead of it, and nothing else has changed. -/
theorem left_lt (inside : w ∈ workerIds) (phase : t.phase = s.phase) (less : ahead t w < ahead s w)
    (others : ∀ w' ∈ workerIds, w' ≠ w → ahead t w' = ahead s w') : t.left < s.left := by
  rw [Server.left, Server.left, phase]
  apply Nat.add_lt_add_right
  refine Finset.sum_lt_sum (fun w' inside' => ?_) ⟨w, List.mem_toFinset.mpr inside, less⟩
  by_cases same : w' = w
  · rw [same]
    exact less.le
  · exact (others w' (List.mem_toFinset.mp inside') same).le

/-- A worker has fewer steps of its own ahead of it, and no messages for workers have
come or gone. -/
theorem left_lt_of_weight (inside : w ∈ workerIds) {x : Worker}
    {queue executed : List (Nat × CommandMessage)} {killed : List Nat}
    (same : ∀ w' ∈ workerIds, pending w' queue = pending w' s.queue)
    (lighter : weight x < weight (s.workers w)) :
    Server.left { s with
      queue := queue, workers := Function.update s.workers w x
      executed := executed, killed := killed } < s.left := by
  refine left_lt inside rfl ?_ fun w' inside' apart => ?_
  · simp only [ahead, Function.update_self, same w inside]
    exact Nat.add_lt_add_left lighter _
  · simp only [ahead, Function.update_of_ne apart, same w' inside']

theorem left_terminate {told : Nat} (leaving : s.phase = .leaving told)
    (few : told < workerProcessesCount) (unset : CommandMessage) :
    Server.left { s with
      phase := .leaving (told + 1)
      queue := s.queue ++ [(0, termMsg (told + 2) unset)] } < s.left := by
  have each : ∀ w ∈ workerIds.toFinset, ahead { s with
      phase := .leaving (told + 1)
      queue := s.queue ++ [(0, termMsg (told + 2) unset)] } w ≤
        ahead s w + if told + 2 = w then 4 else 0 := by
    intro w _
    simp only [ahead, pending_append]
    show 4 * (pending w s.queue ++ if told + 2 = w then _ else _).length + _ ≤ _
    split
    · rw [List.length_append, List.length_singleton]
      omega
    · rw [List.append_nil, Nat.add_zero]
  have sum := Finset.sum_le_sum each
  rw [Finset.sum_add_distrib] at sum
  have once : ∑ w ∈ workerIds.toFinset, (if told + 2 = w then 4 else 0) ≤ 4 := by
    rw [Finset.sum_ite_eq]
    split <;> decide
  rw [Server.left, Server.left, leaving]
  simp only [Phase.left] at sum ⊢
  omega

/-- A worker that goes on, or is killed, has less ahead of it. -/
theorem Tracked.worker_down {move : Move} (h : Tracked s) (inside : w ∈ workerIds)
    (taken : workerStep s w move = some t) : t.phase = s.phase ∧ t.left < s.left := by
  cases move with
  | receive =>
      simp only [workerStep] at taken
      split at taken
      · rename_i m queue waiting received
        cases taken
        obtain ⟨_, first, others⟩ := pending_of_msgrcv received
        refine ⟨rfl, left_lt inside rfl ?_ fun w' _ apart => ?_⟩
        · simp only [ahead, first, waiting, Function.update_self, List.length_cons, weight]
          omega
        · simp only [ahead, others w' apart, Function.update_of_ne apart]
      · cases taken
  | call =>
      simp only [workerStep] at taken
      split at taken
      · rename_i ticket msg here
        cases taken
        exact ⟨rfl, left_lt_of_weight inside (fun _ _ => rfl) (by simp [here, weight])⟩
      · cases taken
  | dispatch status data =>
      simp only [workerStep] at taken
      split at taken
      · rename_i ticket msg here
        split at taken <;> cases taken
        · exact ⟨rfl, left_lt_of_weight inside (fun _ _ => rfl) (by simp [here, weight])⟩
        · exact ⟨rfl, left_lt_of_weight inside (fun _ _ => rfl) (by simp [here, weight])⟩
      · cases taken
  | reply =>
      simp only [workerStep] at taken
      split at taken
      · rename_i ticket reply here
        cases taken
        have foreign : ∀ w' ∈ workerIds, pending w' (s.queue ++ [(ticket, reply)]) =
            pending w' s.queue := fun w' inside' => h.pending_reply here inside'
        exact ⟨rfl, left_lt_of_weight inside foreign (by simp [here, weight])⟩
      · cases taken
  | kill =>
      simp only [workerStep] at taken
      split at taken
      · cases taken
      · cases taken
      · rename_i going
        cases taken
        have alive : 0 < weight (s.workers w) := by
          cases worker : s.workers w with
          | stopped => exact absurd worker going
          | waiting | received | dispatching | answering => simp [weight]
        exact ⟨rfl, left_lt_of_weight inside (fun _ _ => rfl) alive⟩

/-- Behind the event loop every step brings the end nearer. -/
theorem Tracked.down {a : Act} (h : Tracked s) (out : s.phase ≠ .inLoop)
    (taken : Shutdown.step s a = some t) :
    (Tracked t ∧ t.phase ≠ .inLoop) ∧ t.left < s.left := by
  have kept := h.step taken
  have free : s.awaiting = false := h.idle out
  have busy : ¬ s.Idle := fun idle => out idle.1
  cases a with
  | connect bevIn => simp [Shutdown.step, busy] at taken
  | close conn => simp [Shutdown.step, busy] at taken
  | signal => simp [Shutdown.step, busy] at taken
  | query q => simp [Shutdown.step, busy] at taken
  | fail => simp [Shutdown.step, free] at taken
  | answer => simp [Shutdown.step, free] at taken
  | leave => simp [Shutdown.step, busy] at taken
  | terminate unset =>
      simp only [Shutdown.step] at taken
      split at taken
      · rename_i told leaving
        obtain ⟨few, same⟩ := Option.ite_none_right_eq_some.mp taken
        cases same
        exact ⟨⟨kept, nofun⟩, left_terminate leaving few unset⟩
      · cases taken
  | release =>
      simp only [Shutdown.step] at taken
      obtain ⟨⟨leaving, _⟩, same⟩ := Option.ite_none_right_eq_some.mp taken
      cases same
      refine ⟨⟨kept, nofun⟩, ?_⟩
      rw [Server.left, Server.left, leaving]
      exact Nat.add_lt_add_left (Nat.succ_pos _) _
  | worker w move =>
      obtain ⟨inside, taken⟩ := Option.ite_none_right_eq_some.mp taken
      obtain ⟨phase, less⟩ := h.worker_down inside taken
      exact ⟨⟨kept, phase ▸ out⟩, less⟩

/-- The step does not kill a worker. -/
def Unharmed (_ : Server) (a : Act) : Prop := ∀ w, a ≠ .worker w .kill

/-- A worker that has been told to terminate and is not gone can go on. -/
theorem Tracked.worker_go (h : Tracked s) (inside : w ∈ workerIds) (going : s.workers w ≠ .stopped)
    (told : w < 2 + s.phase.told) : ∃ move, move ≠ .kill ∧ (workerStep s w move).isSome := by
  cases worker : s.workers w with
  | stopped => exact absurd worker going
  | waiting =>
      have course := h.course w inside
      rw [decide_eq_true told, worker] at course
      have some : pending w s.queue ≠ [] := by
        generalize pending w s.queue = messages at course
        cases course with
        | told _ _ _ _ => simp
        | last has _ => cases has
      obtain ⟨m, queue, received⟩ := msgrcv_of_pending some
      exact ⟨.receive, nofun, by simp [workerStep, worker, received]⟩
  | received ticket msg => exact ⟨.call, nofun, by simp [workerStep, worker]⟩
  | dispatching ticket msg =>
      refine ⟨.dispatch 0 msg.data, nofun, ?_⟩
      simp only [workerStep, worker]
      cases afterDispatch msg 0 msg.data <;> rfl
  | answering ticket reply => exact ⟨.reply, nofun, by simp [workerStep, worker]⟩

theorem Tracked.go (h : Tracked s) (out : s.phase ≠ .inLoop) (more : s.phase ≠ .released) :
    ∃ a, Unharmed s a ∧ (Shutdown.step s a).isSome := by
  cases phase : s.phase with
  | inLoop => exact absurd phase out
  | released => exact absurd phase more
  | leaving told =>
      by_cases few : told < workerProcessesCount
      · refine ⟨.terminate ⟨0, .none, 0, 0, fun _ => 0⟩, fun _ => nofun, ?_⟩
        simp [Shutdown.step, phase, few]
      · have all : told = workerProcessesCount := by
          have most := h.few
          rw [phase] at most
          exact Nat.le_antisymm most (Nat.le_of_not_lt few)
        by_cases gone : ∀ w ∈ workerIds, s.workers w = .stopped
        · have finished : s.phase = .leaving workerProcessesCount ∧
              ∀ w ∈ workerIds, s.workers w matches .stopped :=
            ⟨all ▸ phase, fun w inside => by rw [gone w inside]⟩
          refine ⟨.release, fun _ => nofun, ?_⟩
          simp only [Shutdown.step, if_pos finished, Option.isSome_some]
        · push Not at gone
          obtain ⟨w, inside, going⟩ := gone
          have told' : w < 2 + s.phase.told := by
            rw [phase, all]
            exact (mem_workerIds.mp inside).2
          obtain ⟨move, unharmed, taken⟩ := h.worker_go inside going told'
          refine ⟨.worker w move, ?_, ?_⟩
          · rintro w' ⟨⟩
            exact unharmed rfl
          · simpa only [Shutdown.step, if_pos inside] using taken

end Leaving

end Shutdown

end EmrakulV1
