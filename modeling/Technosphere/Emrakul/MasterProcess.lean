import Technosphere.Emrakul.HashTableBase.Sequential
import Technosphere.Emrakul.UserCommand
import Technosphere.Transition

/-!
# The master and the workers of v1.0

The master relays each command through a message queue to one of four worker
processes and waits for a message of its own type, whose status and value it
answers with. The worker is drawn at random: the message type is
`1 + rand() % 4`, the workers listen on the types 2 to 5 and the master on 1.

Commands are numbered in the order in which they are relayed, and the log
records what happened to each of them. `executed_once_iff` says exactly which
commands a worker executes; `responses_sequential` says that what clients are
sent does not depend on the order of the steps.
-/

namespace EmrakulV1

open Bytes SharedMemory Prog Emrakul Transition

/-! ## Messages -/

structure CommandMessage where
  mtype : Nat
  operation : Operation
  targetConnectionId : Nat
  status : Int
  data : Memory

def CommandMessage.key (msg : CommandMessage) : List UInt8 := msg.data.cstr 0 recordSize

def CommandMessage.value (msg : CommandMessage) : List UInt8 :=
  msg.data.cstr (keySize + 1) (recordSize - (keySize + 1))

/-- The type of the messages to the master, in both programs. -/
def masterMsgtype : Nat := 1

/-- The ids that `init_ipc` passes to the workers; each listens on its own. -/
def workerIds : List Nat := (List.range workerProcessesCount).map (· + 2)

theorem mem_workerIds {w : Nat} : w ∈ workerIds ↔ 2 ≤ w ∧ w < 2 + workerProcessesCount := by
  simp only [workerIds, List.mem_map, List.mem_range]
  constructor
  · rintro ⟨i, hi, rfl⟩
    omega
  · intro h
    exact ⟨w - 2, by omega, by omega⟩

/-- The geometry that the constructor with one argument uses. -/
def geometry : HashTableBase.Geometry :=
  ⟨hashtableSegmentsCount, hashtableSegmentSize, by decide, by decide⟩

/-- `dispatch_message` on a table that nobody else uses: the message that is
sent back and the table, or nothing when the worker is told to terminate. -/
def dispatchMessage (table : Memory) (msg : CommandMessage) : Option (CommandMessage × Memory) :=
  let reply (status : Int) (data : Memory) : CommandMessage :=
    { msg with mtype := masterMsgtype, status := status, data := data }
  match msg.operation with
  | .set =>
    let r := exec 0 (HashTableBase.set geometry msg.key msg.value 0) table
    some (reply r.1 msg.data, r.2)
  | .get =>
    let r := exec 0 (HashTableBase.get geometry msg.key msg.value) table
    -- `get` copies into the message only when it finds the key
    let data := if r.1.1 = 0 then msg.data.writeBytes (keySize + 1) (r.1.2 ++ [0]) else msg.data
    some (reply r.1.1 data, r.2)
  | .del =>
    let r := exec 0 (HashTableBase.del geometry msg.key) table
    some (reply r.1 msg.data, r.2)
  | .term => none
  | .none => some (reply (-1) msg.data, table)

def invalidCommand : List UInt8 := text "303 Invalid command or internal error"

/-- The response that `process_response_from_worker` sends. -/
def processResponse (msg : CommandMessage) : List UInt8 :=
  match msg.operation with
  | .get => if msg.status = 0 then text "200 " ++ msg.value else text "301 Key not found"
  | .set => if msg.status = 0 then text "200 SET OK" else text "301 Key not found"
  | .del => if msg.status = 0 then text "200 DEL OK" else text "301 Key not found"
  | .none => invalidCommand
  | .term => []

/-! ## Queries -/

/-- What `execute_query` is called with, the value that `rand()` returns if it
is called, and what the uninitialised field `status` of the message happens to
contain. -/
structure Query where
  command : UserCommand
  connection : Nat
  draw : Nat
  status : Int

/-- The message that `execute_query` relays. -/
def Query.message (q : Query) : CommandMessage where
  mtype := 1 + q.draw % workerProcessesCount
  operation := q.command.operation
  targetConnectionId := q.connection
  status := q.status
  data := q.command.params

/-- A worker that receives the command of a client sends a reply. -/
theorem dispatchMessage_isSome (table : Memory) (q : Query) :
    ∃ reply table', dispatchMessage table q.message = some (reply, table') := by
  have known := q.command.notTerm
  unfold dispatchMessage
  cases h : q.message.operation with
  | term => exact absurd h known
  | get | set | del | none => exact ⟨_, _, rfl⟩

/-- A whole call of `execute_query` with nothing else going on: what is sent to
which connection, and the table. A message of the master's own type comes back
as it is. -/
def executeQuery (table : Memory) (q : Query) : Option ((Nat × List UInt8) × Memory) :=
  if q.command.operation = .none then
    some ((q.connection, invalidCommand), table)
  else if q.message.mtype = masterMsgtype then
    some ((q.connection, processResponse q.message), table)
  else
    (dispatchMessage table q.message).map fun r =>
      ((r.1.targetConnectionId, processResponse r.1), r.2)

theorem executeQuery_isSome (table : Memory) (q : Query) : (executeQuery table q).isSome := by
  unfold executeQuery
  split
  · rfl
  split
  · rfl
  · obtain ⟨reply, table', executed⟩ := dispatchMessage_isSome table q
    rw [executed]
    rfl

/-- All responses to a list of queries, one after another, and the table. -/
def sequential (table : Memory) (queries : List Query) : List (Nat × List UInt8) × Memory :=
  queries.foldl (fun s q =>
    match executeQuery s.2 q with
    | some r => (s.1 ++ [r.1], r.2)
    | none => s) ([], table)

/-! ## Master and workers -/

inductive Worker where
  /-- In `msgrcv`. -/
  | waiting
  /-- In front of `dispatch_message`. -/
  | received (ticket : Nat) (msg : CommandMessage)
  /-- In front of `msgsnd`. -/
  | answering (ticket : Nat) (reply : CommandMessage)
  /-- Out of its loop. -/
  | stopped

/-- What happened to a relayed command. -/
inductive Event where
  | relayed (ticket : Nat) (q : Query)
  | received (ticket w : Nat) (msg : CommandMessage)
  | dispatched (ticket w : Nat) (table : Memory) (msg reply : CommandMessage)
  | answered (ticket : Nat) (msg : CommandMessage)

def Event.ticket : Event → Nat
  | .relayed t _ => t
  | .received t _ _ => t
  | .dispatched t _ _ _ _ => t
  | .answered t _ => t

/-- The queue with the tickets of its messages, the ticket that the master
waits for, the workers by id, the table, what was sent to which connection, the
number of commands relayed so far, and the log. -/
structure State where
  queue : List (Nat × CommandMessage)
  awaited : Option Nat
  workers : Nat → Worker
  table : Memory
  sent : List (Nat × List UInt8)
  tickets : Nat
  log : List Event

inductive Act where
  /-- The master, in its event loop, calls `execute_query`. -/
  | query (q : Query)
  /-- A worker receives a message of its type. -/
  | receive (w : Nat)
  /-- A worker calls `dispatch_message`, up to the `msgsnd` in it. -/
  | dispatch (w : Nat)
  /-- A worker sends its reply. -/
  | reply (w : Nat)
  /-- The master receives a message of its type and sends the response. -/
  | answer

/-- `msgrcv`: the first message of type `t`, and the queue without it. -/
def msgrcv (t : Nat) (queue : List (Nat × CommandMessage)) :
    Option ((Nat × CommandMessage) × List (Nat × CommandMessage)) :=
  (queue.find? fun m => m.2.mtype == t).map fun m =>
    (m, queue.eraseP fun m => m.2.mtype == t)

@[simp] theorem msgrcv_nil (t : Nat) : msgrcv t [] = none := rfl

theorem msgrcv_singleton (t : Nat) (m : Nat × CommandMessage) :
    msgrcv t [m] = if m.2.mtype = t then some (m, []) else none := by
  by_cases h : m.2.mtype = t
  · simp [msgrcv, h]
  · simp [msgrcv, h]

def step (s : State) : Act → Option State
  | .query q =>
    if s.awaited.isSome then none
    else if q.command.operation = .none then
      some { s with sent := s.sent ++ [(q.connection, invalidCommand)] }
    else
      some { s with
        queue := s.queue ++ [(s.tickets, q.message)]
        awaited := some s.tickets
        tickets := s.tickets + 1
        log := s.log ++ [.relayed s.tickets q] }
  | .receive w =>
    match decide (w ∈ workerIds), s.workers w, msgrcv w s.queue with
    | true, .waiting, some (m, queue) =>
      some { s with
        queue := queue
        workers := Function.update s.workers w (.received m.1 m.2)
        log := s.log ++ [.received m.1 w m.2] }
    | _, _, _ => none
  | .dispatch w =>
    match s.workers w with
    | .received t msg =>
      match dispatchMessage s.table msg with
      | some (reply, table) =>
        some { s with
          workers := Function.update s.workers w (.answering t reply)
          table := table
          log := s.log ++ [.dispatched t w s.table msg reply] }
      | none => some { s with workers := Function.update s.workers w .stopped }
    | _ => none
  | .reply w =>
    match s.workers w with
    | .answering t reply =>
      some { s with
        queue := s.queue ++ [(t, reply)]
        workers := Function.update s.workers w .waiting }
    | _ => none
  | .answer =>
    match s.awaited, msgrcv masterMsgtype s.queue with
    | some _, some (m, queue) =>
      some { s with
        queue := queue
        awaited := none
        sent := s.sent ++ [(m.2.targetConnectionId, processResponse m.2)]
        log := s.log ++ [.answered m.1 m.2] }
    | _, _ => none

/-- The event loop starts on an empty queue, with all workers in `msgrcv`. -/
def start (table : Memory) : State := ⟨[], none, fun _ => .waiting, table, [], 0, []⟩

/-- The queries that a schedule contains. -/
def queries (acts : List Act) : List Query :=
  acts.filterMap fun a =>
    match a with
    | .query q => some q
    | _ => none

end EmrakulV1
