import Technosphere.Emrakul.ClientConnection
import Technosphere.Emrakul.CommandBytes
import Technosphere.Emrakul.PosixHashTable.Replies

/-!
# What the clients of v2.0 are answered

Whole commands of any connections and whole passes of the collector, in any
order and at any times, are answered as one store with a budget answers them.
-/

namespace EmrakulV2

open Bytes SharedMemory Prog OpenAddressing Emrakul CInt PosixHashTable

/-! ## Commands and outcomes -/

/-- What a worker asks of the table for a command at a time. -/
def request (now : Int) (command : UserCommand) :
    Option (Request (List UInt8) (List UInt8 × Int)) :=
  match command.operation with
  | .get => some (.get command.keyParam)
  | .set => some (.set command.keyParam (command.valueParam, toInt32 (command.ttl + now)))
  | .del => some (.del command.keyParam)
  | .none | .term => none

def invalidCommand : List UInt8 := text "303 Invalid command or internal error"

/-- The response for an outcome. -/
def phrase : Outcome (List UInt8 × Int) → List UInt8
  | .found entry => text "200 " ++ entry.1
  | .stored => text "200 SET OK"
  | .removed => text "200 DEL OK"
  | .missing => text "201 Key not found"
  | .refused => text "302 Table degraded, no memory left"

/-- One command put to a store. -/
def answer (now : Int) (s : Budgeted) (command : UserCommand) : List UInt8 × Budgeted :=
  match request now command with
  | none => (invalidCommand, s)
  | some r => (phrase (s.answer tableSize r).1, (s.answer tableSize r).2)

/-- What one of the processes does with the table. -/
inductive Turn where
  /-- A worker executes a command. -/
  | command (command : UserCommand)
  /-- The cleaner makes a pass. -/
  | collection

/-- What is sent in a turn, if something is. -/
def sent (now : Int) (table : Memory) : Turn → Option (List UInt8)
  | .command command => some (executeQuery now table command).1
  | .collection => none

/-- The table after a call. -/
def after (now : Int) (table : Memory) (call : Call) : Memory := (exec now (code call) table).2

/-- The table after a turn. -/
def left (now : Int) (table : Memory) : Turn → Memory
  | .command command => (executeQuery now table command).2
  | .collection => after now table .collectGarbage

/-- The same for a store. -/
def storeSent (now : Int) (s : Budgeted) : Turn → Option (List UInt8)
  | .command command => some (answer now s command).1
  | .collection => none

def storeLeft (now : Int) (s : Budgeted) : Turn → Budgeted
  | .command command => (answer now s command).2
  | .collection => s.discard (Dead now)

/-- Everything that is sent in the turns at these times. -/
def responses : Memory → List (Int × Turn) → List (Option (List UInt8))
  | _, [] => []
  | table, (now, turn) :: turns => sent now table turn :: responses (left now table turn) turns

def storeResponses : Budgeted → List (Int × Turn) → List (Option (List UInt8))
  | _, [] => []
  | s, (now, turn) :: turns => storeSent now s turn :: storeResponses (storeLeft now s turn) turns

/-! ## One turn -/

section OneTurn

variable {table : Memory} {s : Budgeted} {command : UserCommand} {now : Int}

/-- The tokens of a line make up the command. -/
def OfTokens (command : UserCommand) : Prop :=
  ∃ tokens, (∀ t ∈ tokens, 0 ∉ t) ∧ command = interpret tokens

theorem ofTokens_readFromBuffer (buff : List UInt8) : OfTokens (readFromBuffer buff).1 := by
  obtain none | ⟨tokens, noNul, same⟩ := command_eq interpret buff
  · exact ⟨[], fun _ h => absurd h List.not_mem_nil, none⟩
  · exact ⟨tokens, noNul, same⟩

theorem OfTokens.key (made : OfTokens command) (known : command.operation ≠ .none) :
    ∃ key : Key, command.keyParam = key.bytes := by
  obtain ⟨tokens, noNul, rfl⟩ := made
  by_cases set : (interpret tokens).operation = .set
  · exact ⟨_, keyParam_set noNul understands set⟩
  · exact ⟨_, keyParam_plain noNul understands known set⟩

theorem OfTokens.value (made : OfTokens command) (set : command.operation = .set) :
    ∃ value : PosixHashTable.Value, command.valueParam = value.bytes := by
  obtain ⟨tokens, noNul, rfl⟩ := made
  exact ⟨_, valueParam_set noNul understands set⟩

/-- A command is answered as the probed table answers the request, and leaves
the bytes that the call of the table leaves. -/
structure Executes (now : Int) (table : Memory) (command : UserCommand) (call : Call)
    (r : Request (List UInt8) (List UInt8 × Int)) : Prop where
  asked : call.request now = some r
  response : (executeQuery now table command).1 = phrase (respond order (view table) r).1
  left : (executeQuery now table command).2 = (exec now (code call) table).2

theorem executes_get (sound : Sound table) {key : Key} (param : command.keyParam = key.bytes)
    (get : command.operation = .get) :
    Executes now table command (.get key command.valueParam) (.get key.bytes) := by
  have executed : exec now _ _ = _ := exec_get sound key command.valueParam
  cases found : lookup (view table) (order key.bytes) key.bytes with
  | none =>
      rw [found] at executed
      have result : executeQuery now table command = (text "201 Key not found", table) := by
        simp only [executeQuery, get, param, executed]
        rfl
      refine ⟨rfl, ?_, ?_⟩
      · rw [result, respond, found]
        rfl
      · rw [result, exec_code_get, executed]
  | some c =>
      rw [found] at executed
      have result : executeQuery now table command =
          (text "200 " ++ valueAt table c, table) := by
        simp only [executeQuery, get, param, executed]
        rfl
      refine ⟨rfl, ?_, ?_⟩
      · rw [result, respond, found]
        rfl
      · rw [result, exec_code_get, executed]

theorem executes_set {key : Key} {value : PosixHashTable.Value}
    (keyParam : command.keyParam = key.bytes) (valueParam : command.valueParam = value.bytes)
    (set : command.operation = .set) :
    Executes now table command (.set key value command.ttl)
      (.set key.bytes (value.bytes, toInt32 (command.ttl + now))) := by
  have executed : exec now _ table = _ := exec_set key value command.ttl
  cases found : place (view table) (order key.bytes) key.bytes with
  | none =>
      rw [found] at executed
      have result : executeQuery now table command =
          (text "302 Table degraded, no memory left", table) := by
        simp only [executeQuery, set, keyParam, valueParam, executed]
        rfl
      refine ⟨rfl, ?_, ?_⟩
      · rw [result, respond, found]
        rfl
      · rw [result, exec_code_set, executed]
  | some c =>
      rw [found] at executed
      have result : executeQuery now table command = (text "200 SET OK",
          writeRecord table c key.bytes value.bytes (command.ttl + now)) := by
        simp only [executeQuery, set, keyParam, valueParam, executed]
        rfl
      refine ⟨rfl, ?_, ?_⟩
      · rw [result, respond, found]
        rfl
      · rw [result, exec_code_set, executed]

theorem executes_del {key : Key} (param : command.keyParam = key.bytes)
    (del : command.operation = .del) : Executes now table command (.del key) (.del key.bytes) := by
  have executed : exec now _ table = _ := exec_del key
  cases found : lookup (view table) (order key.bytes) key.bytes with
  | none =>
      rw [found] at executed
      have result : executeQuery now table command = (text "201 Key not found", table) := by
        simp only [executeQuery, del, param, executed]
        rfl
      refine ⟨rfl, ?_, ?_⟩
      · rw [result, respond, found]
        rfl
      · rw [result, exec_code_del, executed]
  | some c =>
      rw [found] at executed
      have result : executeQuery now table command = (text "200 DEL OK", buryCell table c) := by
        simp only [executeQuery, del, param, executed]
        rfl
      refine ⟨rfl, ?_, ?_⟩
      · rw [result, respond, found]
        rfl
      · rw [result, exec_code_del, executed]

theorem executes (sound : Sound table) (made : OfTokens command)
    {r : Request (List UInt8) (List UInt8 × Int)} (asked : request now command = some r) :
    ∃ call, Executes now table command call r := by
  rw [request] at asked
  cases operation : command.operation with
  | none | term =>
      rw [operation] at asked
      cases asked
  | get =>
      obtain ⟨key, param⟩ := made.key (by rw [operation]; decide)
      rw [operation, param] at asked
      cases asked
      exact ⟨_, executes_get sound param operation⟩
  | set =>
      obtain ⟨key, keyParam⟩ := made.key (by rw [operation]; decide)
      obtain ⟨value, valueParam⟩ := made.value operation
      rw [operation, keyParam, valueParam] at asked
      cases asked
      exact ⟨_, executes_set keyParam valueParam operation⟩
  | del =>
      obtain ⟨key, param⟩ := made.key (by rw [operation]; decide)
      rw [operation, param] at asked
      cases asked
      exact ⟨_, executes_del param operation⟩

/-- A command of a client leaves the store that its request leaves. -/
theorem executeQuery_answer (h : Stocks table s) (made : OfTokens command) :
    (executeQuery now table command).1 = (answer now s command).1 ∧
      Stocks (executeQuery now table command).2 (answer now s command).2 := by
  rw [answer]
  cases asked : request now command with
  | none =>
      have known := command.notTerm
      cases operation : command.operation with
      | get | set | del =>
          rw [request, operation] at asked
          cases asked
      | term => exact absurd operation known
      | none =>
          rw [executeQuery, operation]
          exact ⟨rfl, h⟩
  | some r =>
      obtain ⟨call, executes⟩ := executes h.sound made asked
      have stocks := (h.exec now call).2
      rw [storeAnswer, executes.asked, ← executes.left] at stocks
      exact ⟨by rw [executes.response, h.outcome], stocks⟩

theorem turn_store (h : Stocks table s) {turn : Turn}
    (made : ∀ command, turn = .command command → OfTokens command) :
    sent now table turn = storeSent now s turn ∧
      Stocks (left now table turn) (storeLeft now s turn) := by
  cases turn with
  | command command =>
      obtain ⟨response, stocks⟩ : _ = (answer now s command).1 ∧ _ :=
        executeQuery_answer h (made command rfl)
      exact ⟨congrArg some response, stocks⟩
  | collection =>
      refine ⟨rfl, ?_⟩
      rw [left, after]
      exact (h.collectGarbage now).2

end OneTurn

/-! ## Any turns -/

/-- Every command of the turns is made up of tokens. -/
def AllOfTokens (turns : List (Int × Turn)) : Prop :=
  ∀ now command, (now, .command command) ∈ turns → OfTokens command

theorem responses_of_stocks {table : Memory} {s : Budgeted} (h : Stocks table s)
    {turns : List (Int × Turn)} (made : AllOfTokens turns) :
    responses table turns = storeResponses s turns := by
  induction turns generalizing table s with
  | nil => rfl
  | cons first turns ih =>
      obtain ⟨now, turn⟩ := first
      have first : ∀ command, turn = .command command → OfTokens command := by
        rintro command rfl
        exact made now command List.mem_cons_self
      obtain ⟨response, stocks⟩ : sent now table turn = _ ∧ _ := turn_store h first
      rw [responses, storeResponses, response,
        ih stocks fun now command later => made now command (List.mem_cons_of_mem _ later)]

/-- From a zeroed table on, the responses to any commands, with passes of the
collector in between, are those of one store. -/
theorem responses_of_store {table : Memory} (zeroed : Zeroed table) {turns : List (Int × Turn)}
    (made : AllOfTokens turns) : responses table turns = storeResponses .empty turns :=
  responses_of_stocks zeroed.stocks made

/-- A record that is read and then collected. -/
theorem responses_to_expiry :
    responses (fun _ => 0) [(5, .command (readFromBuffer (text "set 10 d 1\n")).1),
      (16, .command (readFromBuffer (text "get d\n")).1), (16, .collection),
      (17, .command (readFromBuffer (text "get d\n")).1)] =
        [some (text "200 SET OK"), some (text "200 1"), none, some (text "201 Key not found")] := by
  have zeroed : Zeroed fun _ => 0 := fun _ _ => rfl
  rw [responses_of_store zeroed]
  · decide +kernel
  · intro now command turn
    simp only [List.mem_cons, Prod.mk.injEq, Turn.command.injEq, List.not_mem_nil, or_false,
      reduceCtorEq, and_false, false_or] at turn
    rcases turn with ⟨_, rfl⟩ | ⟨_, rfl⟩ | ⟨_, rfl⟩ <;> exact ofTokens_readFromBuffer _

end EmrakulV2
