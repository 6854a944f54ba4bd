import Technosphere.Emrakul.CommandBytes
import Technosphere.Emrakul.HashTableBase.Replies
import Technosphere.Emrakul.MasterProcess.ExactlyOnce

/-!
# What the clients of v1.0 are answered

The master, its queue and its four workers answer as one store with a budget
does to which the commands are put in the order of the queries, in every
schedule. A command whose message has the type of the master never reaches the
store.
-/

namespace EmrakulV1

open Bytes SharedMemory Prog OpenAddressing Emrakul Transition HashTableBase

/-! ## Commands and outcomes -/

/-- What a worker asks of the table for a command. -/
def request (command : UserCommand) : Option (Request (List UInt8) (List UInt8)) :=
  match command.operation with
  | .get => some (.get command.keyParam)
  | .set => some (.set command.keyParam command.valueParam)
  | .del => some (.del command.keyParam)
  | .none | .term => none

/-- The response for an outcome. A table without room is reported as a missing key. -/
def phrase : Outcome (List UInt8) → List UInt8
  | .found stored => text "200 " ++ stored
  | .stored => text "200 SET OK"
  | .removed => text "200 DEL OK"
  | .missing | .refused => text "301 Key not found"

/-- One query put to a store. -/
def answer (s : Budgeted) (q : Query) : List UInt8 × Budgeted :=
  match request q.command with
  | none => (invalidCommand, s)
  | some r =>
    if q.draw % workerProcessesCount = 0 then (processResponse q.message, s)
    else (phrase (s.answer geometry.tableSize r).1, (s.answer geometry.tableSize r).2)

/-- All queries put to a store, one after another. -/
def answers : Budgeted → List Query → List (Nat × List UInt8)
  | _, [] => []
  | s, q :: queries => (q.connection, (answer s q).1) :: answers (answer s q).2 queries

/-! ## One query -/

section OneQuery

variable {table : Memory} {q : Query} {s : Budgeted}

/-- The tokens of a line make up the command. -/
def OfTokens (command : UserCommand) : Prop :=
  ∃ tokens, (∀ t ∈ tokens, 0 ∉ t) ∧ command = interpret tokens

theorem ofTokens_readFromBuffer (buff : List UInt8) : OfTokens (readFromBuffer buff).1 := by
  obtain none | ⟨tokens, noNul, same⟩ := command_eq interpret buff
  · exact ⟨[], fun _ h => absurd h List.not_mem_nil, none⟩
  · exact ⟨tokens, noNul, same⟩

theorem OfTokens.key (made : OfTokens q.command) (known : q.command.operation ≠ .none) :
    ∃ key : Key, q.message.key = key.bytes := by
  obtain ⟨tokens, noNul, same⟩ := made
  rw [same] at known
  show ∃ key : Key, q.command.keyParam = key.bytes
  rw [same]
  by_cases set : (interpret tokens).operation = .set
  · exact ⟨_, keyParam_set noNul understands set⟩
  · exact ⟨_, keyParam_plain noNul understands known set⟩

theorem OfTokens.value (made : OfTokens q.command) (set : q.command.operation = .set) :
    ∃ value : HashTableBase.Value, q.message.value = value.bytes := by
  obtain ⟨tokens, noNul, same⟩ := made
  rw [same] at set
  show ∃ value : HashTableBase.Value, q.command.valueParam = value.bytes
  rw [same]
  exact ⟨_, valueParam_set noNul understands set⟩

/-- The value that `get` copies into a message is the one that is sent. -/
theorem value_copied {m : Memory} (sound : Sound geometry m) {c : Nat} (hc : c < geometry.tableSize)
    (data : Memory) :
    (data.writeBytes (keySize + 1) (valueAt m c ++ [0])).cstr (keySize + 1)
      (recordSize - (keySize + 1)) = valueAt m c :=
  Memory.cstr_writeBytes data _ _ _ (Memory.cstr_noNul m _ _) (sound c hc)

/-- What a worker does that receives a command: it answers as the probed table
does, and leaves the bytes that the call of the table leaves. -/
structure Dispatches (table : Memory) (q : Query) (call : Call) (reply : CommandMessage)
    (table' : Memory) : Prop where
  executed : dispatchMessage table q.message = some (reply, table')
  target : reply.targetConnectionId = q.connection
  response : processResponse reply =
    phrase (respond (order geometry) (view table) call.request).1
  left : table' = (run geometry table call).2

theorem dispatch_get (sound : Sound geometry table) {key : Key} (param : q.message.key = key.bytes)
    (get : q.message.operation = .get) :
    ∃ reply table', Dispatches table q (.get key q.message.value) reply table' := by
  have executed : exec 0 _ _ = _ := exec_get sound key q.message.value
  cases found : lookup (view table) (order geometry key.bytes) key.bytes with
  | none =>
      rw [found] at executed
      refine ⟨{ q.message with mtype := masterMsgtype, status := -1 }, table, ?_, rfl, ?_, ?_⟩
      · simp only [dispatchMessage, get, param, executed]
        rfl
      · rw [processResponse, get, Call.request, respond, found]
        rfl
      · rw [run_get, executed]
  | some c =>
      rw [found] at executed
      refine ⟨{ q.message with
        mtype := masterMsgtype
        status := 0
        data := q.message.data.writeBytes (keySize + 1) (valueAt table c ++ [0]) }, table,
          ?_, rfl, ?_, ?_⟩
      · simp only [dispatchMessage, get, param, executed]
        rfl
      · rw [processResponse, get, Call.request, respond, found]
        have inside : c < geometry.tableSize := mem_order.mp (mem_of_lookup found)
        exact congrArg (text "200 " ++ ·) (value_copied sound inside _)
      · rw [run_get, executed]

theorem dispatchMessage_set {msg : CommandMessage} {key value : List UInt8} {r : Int × Memory}
    (set : msg.operation = .set) (keyParam : msg.key = key) (valueParam : msg.value = value)
    (executed : exec 0 (HashTableBase.set geometry key value 0) table = r) :
    dispatchMessage table msg =
      some ({ msg with mtype := masterMsgtype, status := r.1 }, r.2) := by
  rw [← executed, ← keyParam, ← valueParam, dispatchMessage, set]

theorem dispatchMessage_del {msg : CommandMessage} {key : List UInt8} {r : Int × Memory}
    (del : msg.operation = .del) (param : msg.key = key)
    (executed : exec 0 (HashTableBase.del geometry key) table = r) :
    dispatchMessage table msg =
      some ({ msg with mtype := masterMsgtype, status := r.1 }, r.2) := by
  rw [← executed, ← param, dispatchMessage, del]

theorem dispatch_set {key : Key} {value : HashTableBase.Value}
    (keyParam : q.message.key = key.bytes) (valueParam : q.message.value = value.bytes)
    (set : q.message.operation = .set) :
    ∃ reply table', Dispatches table q (.set key value 0) reply table' := by
  have executed : exec 0 (HashTableBase.set geometry _ _ _) table = _ := exec_set key value 0
  cases found : place (view table) (order geometry key.bytes) key.bytes with
  | none =>
      rw [found] at executed
      refine ⟨_, _, dispatchMessage_set set keyParam valueParam executed, rfl, ?_, ?_⟩
      · rw [processResponse, set, Call.request, respond, found]
        rfl
      · rw [run_set, executed]
  | some c =>
      rw [found] at executed
      refine ⟨_, _, dispatchMessage_set set keyParam valueParam executed, rfl, ?_, ?_⟩
      · rw [processResponse, set, Call.request, respond, found]
        rfl
      · rw [run_set, executed]

theorem dispatch_del {key : Key} (param : q.message.key = key.bytes)
    (del : q.message.operation = .del) :
    ∃ reply table', Dispatches table q (.del key) reply table' := by
  have executed : exec 0 (HashTableBase.del geometry _) table = _ := exec_del key
  cases found : lookup (view table) (order geometry key.bytes) key.bytes with
  | none =>
      rw [found] at executed
      refine ⟨_, _, dispatchMessage_del del param executed, rfl, ?_, ?_⟩
      · rw [processResponse, del, Call.request, respond, found]
        rfl
      · rw [run_del, executed]
  | some c =>
      rw [found] at executed
      refine ⟨_, _, dispatchMessage_del del param executed, rfl, ?_, ?_⟩
      · rw [processResponse, del, Call.request, respond, found]
        rfl
      · rw [run_del, executed]

/-- The command that a worker receives is answered from the store. -/
theorem dispatch_answer (h : Stocks geometry table s) (made : OfTokens q.command)
    {r : Request (List UInt8) (List UInt8)} (asked : request q.command = some r) :
    ∃ reply table', dispatchMessage table q.message = some (reply, table') ∧
      reply.targetConnectionId = q.connection ∧
      processResponse reply = phrase (s.answer geometry.tableSize r).1 ∧
      Stocks geometry table' (s.answer geometry.tableSize r).2 := by
  have called : ∀ call : Call, call.request = r →
      (∃ reply table', Dispatches table q call reply table') →
      ∃ reply table', dispatchMessage table q.message = some (reply, table') ∧
        reply.targetConnectionId = q.connection ∧
        processResponse reply = phrase (s.answer geometry.tableSize r).1 ∧
        Stocks geometry table' (s.answer geometry.tableSize r).2 := by
    rintro call rfl ⟨reply, table', executed, target, response, rfl⟩
    exact ⟨reply, _, executed, target, by rw [response, h.outcome], (h.run call).2⟩
  cases operation : q.command.operation with
  | none | term =>
      rw [request, operation] at asked
      cases asked
  | get =>
      obtain ⟨key, param⟩ := made.key (by rw [operation]; decide)
      rw [request, operation] at asked
      cases asked
      exact called (.get key q.message.value) (congrArg Request.get param.symm)
        (dispatch_get h.sound param operation)
  | set =>
      obtain ⟨key, keyParam⟩ := made.key (by rw [operation]; decide)
      obtain ⟨value, valueParam⟩ := made.value operation
      rw [request, operation] at asked
      cases asked
      exact called (.set key value 0) (congrArg₂ Request.set keyParam.symm valueParam.symm)
        (dispatch_set keyParam valueParam operation)
  | del =>
      obtain ⟨key, param⟩ := made.key (by rw [operation]; decide)
      rw [request, operation] at asked
      cases asked
      exact called (.del key) (congrArg Request.del param.symm) (dispatch_del param operation)

theorem request_eq_none {command : UserCommand} :
    request command = none ↔ command.operation = .none := by
  have known := command.notTerm
  rw [request]
  cases operation : command.operation with
  | term => exact absurd operation known
  | get | set | del | none => simp

theorem executeQuery_answer (h : Stocks geometry table s) (made : OfTokens q.command) :
    ∃ table', executeQuery table q = some ((q.connection, (answer s q).1), table') ∧
      Stocks geometry table' (answer s q).2 := by
  rw [executeQuery, answer]
  cases asked : request q.command with
  | none =>
      rw [if_pos (request_eq_none.mp asked)]
      exact ⟨table, rfl, h⟩
  | some r =>
      have known : q.command.operation ≠ .none := by
        rw [Ne, ← request_eq_none, asked]
        exact Option.some_ne_none r
      rw [if_neg known]
      by_cases drawn : q.draw % workerProcessesCount = 0
      · rw [if_pos (mtype_eq_master.mpr drawn)]
        simp only [if_pos drawn]
        exact ⟨table, rfl, h⟩
      · obtain ⟨reply, table', executed, target, response, stocks⟩ :=
          dispatch_answer h made asked
        rw [if_neg (mtype_eq_master.not.mpr drawn), executed]
        simp only [if_neg drawn, Option.map_some, target, response]
        exact ⟨table', rfl, stocks⟩

end OneQuery

/-! ## Any queries -/

/-- The store after the queries. -/
def stored (queries : List Query) : Budgeted :=
  queries.foldl (fun s q => (answer s q).2) .empty

theorem answers_append (s : Budgeted) (queries : List Query) (q : Query) :
    answers s (queries ++ [q]) = answers s queries ++
      [(q.connection, (answer (queries.foldl (fun s q => (answer s q).2) s) q).1)] := by
  induction queries generalizing s with
  | nil => rfl
  | cons first queries ih =>
      rw [List.cons_append, answers, ih, answers]
      rfl

theorem sequential_answers {table : Memory} (zeroed : Zeroed geometry table)
    {queries : List Query} (made : ∀ q ∈ queries, OfTokens q.command) :
    (sequential table queries).1 = answers .empty queries ∧
      Stocks geometry (sequential table queries).2 (stored queries) := by
  induction queries using List.reverseRecOn with
  | nil => exact ⟨rfl, zeroed.stocks⟩
  | append_singleton queries q ih =>
      obtain ⟨sent, stocks⟩ := ih fun q hq => made q (List.mem_append_left _ hq)
      obtain ⟨table', executed, stocks'⟩ := executeQuery_answer stocks (made q (by simp))
      have next : stored (queries ++ [q]) = (answer (stored queries) q).2 := List.foldl_append
      rw [sequential_append executed, answers_append, sent, next]
      exact ⟨rfl, stocks'⟩

variable {table : Memory} {acts : List Act} {s : State}

/-- In every schedule, what was sent so far are the first answers of one store
to the queries in the order in which they came, and at most one is outstanding. -/
theorem sent_of_run (zeroed : Zeroed geometry table) (ran : Run step Always (start table) acts s)
    (made : ∀ q ∈ queries acts, OfTokens q.command) :
    s.sent = (answers .empty (queries acts)).take s.sent.length ∧
      (queries acts).length ≤ s.sent.length + 1 ∧
      (s.awaited = none → s.sent.length = (queries acts).length) := by
  have sent_of {done : List Query} (made : ∀ q ∈ done, OfTokens q.command) :
      (sequential table done).1 = answers .empty done := (sequential_answers zeroed made).1
  have length_eq (s : Budgeted) (queries : List Query) :
      (answers s queries).length = queries.length := by
    induction queries generalizing s with
    | nil => rfl
    | cons q queries ih => rw [answers, List.length_cons, List.length_cons, ih]
  rcases idle_or_busy ran with idle | ⟨done, q, t, left, whole, busy⟩
  · have sent : s.sent = answers .empty (queries acts) := by
      rw [← sent_of made, ← idle.answers]
    rw [sent, List.take_length, length_eq]
    exact ⟨rfl, Nat.le_succ _, fun _ => rfl⟩
  · rw [whole] at made ⊢
    have sent := busy.sent.trans (sent_of fun q hq => made q (List.mem_append_left _ hq))
    rw [busy.awaited, sent, answers_append, List.take_left, length_eq]
    exact ⟨rfl, by simp, fun idle => by cases idle⟩

/-- A `del` that a worker executes on a zeroed table. -/
theorem sent_of_del :
    ∃ acts s, Run step Always (start fun _ => 0) acts s ∧
      s.sent = [(7, text "301 Key not found")] := by
  let q : Query := ⟨delD, 7, 1, 0⟩
  obtain ⟨reply, table', executed⟩ := dispatchMessage_isSome (fun _ => 0) q
  have drawn : q.draw % workerProcessesCount ≠ 0 := by decide
  have relayed : q.command.operation ≠ .none := by decide
  have ran : Run step Always (start fun _ => 0) _ _ := .cons trivial (step_query rfl relayed)
    (.cons trivial (step_receive (mtype_mem_workerIds drawn) rfl rfl rfl) (.cons trivial
    (step_dispatch (Function.update_self _ _ _) executed) (.cons trivial
    (step_reply (Function.update_self _ _ _)) (.single trivial
    (step_answer rfl rfl (reply_mtype executed))))))
  have zeroed : Zeroed geometry fun _ => 0 := fun _ _ => rfl
  have made : ∀ q' ∈ [q], OfTokens q'.command := by
    intro q' hq'
    rw [List.mem_singleton.mp hq']
    exact ⟨parse (text "del d"), parse_noNul _, rfl⟩
  have answered : answers .empty [q] = [(7, text "301 Key not found")] := by decide
  obtain ⟨sent, _, ended⟩ := sent_of_run zeroed ran made
  rw [ended rfl] at sent
  exact ⟨_, _, ran, sent.trans answered⟩

end EmrakulV1
