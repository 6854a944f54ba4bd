import Technosphere.Emrakul.MasterProcess

/-!
# Connections and how their input is cut

Bytes of a client arrive in chunks. `conn_readcb` is called once for each of
them, takes at most one line off the buffer and executes one command, also when
it found no line. `one_response_per_line` says for which ways of cutting a
stream the responses are those to its lines.
-/

namespace EmrakulV2

open Bytes SharedMemory Prog Emrakul

/-- `execute_query` in a worker that nobody disturbs: the response and the table. -/
def executeQuery (now : Int) (table : Memory) (query : UserCommand) : List UInt8 × Memory :=
  match query.operation with
  | .get =>
    let r := exec now (PosixHashTable.get query.keyParam query.valueParam) table
    (if r.1.1 = 0 then text "200 " ++ r.1.2 else text "201 Key not found", r.2)
  | .set =>
    let r := exec now (PosixHashTable.set query.keyParam query.valueParam query.ttl) table
    (if r.1 = 0 then text "200 SET OK" else text "302 Table degraded, no memory left", r.2)
  | .del =>
    let r := exec now (PosixHashTable.del query.keyParam) table
    (if r.1 = 0 then text "200 DEL OK" else text "201 Key not found", r.2)
  | .none => (text "303 Invalid command or internal error", table)
  | .term => ([], table)

end EmrakulV2

namespace ClientConnection

open Bytes SharedMemory Emrakul

variable {σ : Type}

/-- What a connection belongs to: how lines are understood and what
`execute_query` does, where `σ` is all that it depends on and changes. -/
structure Owner (σ : Type) where
  interpret : List (List UInt8) → UserCommand
  executeQuery : σ → UserCommand → Option (List UInt8) × σ

/-- One call of `conn_readcb`: the line it has taken off the buffer, if there
was one, the command it has executed and the response it has sent. -/
structure Served where
  line : Option (List UInt8)
  command : UserCommand
  response : Option (List UInt8)

structure Connection (σ : Type) where
  input : List UInt8
  state : σ
  log : List Served

/-- A chunk is appended to the input buffer and `conn_readcb` is called. -/
def connReadcb (owner : Owner σ) (conn : Connection σ) (chunk : List UInt8) : Connection σ :=
  let input := conn.input ++ chunk
  let read := UserCommand.read owner.interpret input
  let r := owner.executeQuery conn.state read.1
  ⟨read.2, r.2, conn.log ++ [⟨(readLine input maxTries).map Prod.fst, read.1, r.1⟩]⟩

/-- All calls of `conn_readcb` for a stream that arrives in these chunks. -/
def received (owner : Owner σ) (state : σ) (chunks : List (List UInt8)) : List Served :=
  (chunks.foldl (connReadcb owner) ⟨[], state, []⟩).log

/-! ## The lines of a stream -/

/-- The complete lines of a stream. -/
def commandLines (stream : List UInt8) : List (List UInt8) :=
  (Lines.lines lineFeed stream).map stripReturn

/-- The command that is executed for a line, or for lack of one. -/
def commandOf (owner : Owner σ) : Option (List UInt8) → UserCommand
  | none => .new
  | some cmdstr => owner.interpret (parse cmdstr)

/-- One execution after another. -/
def serve (owner : Owner σ) : σ → List (Option (List UInt8)) → List Served
  | _, [] => []
  | state, line :: rest =>
    let r := owner.executeQuery state (commandOf owner line)
    ⟨line, commandOf owner line, r.1⟩ :: serve owner r.2 rest

/-- The lines that the calls of `conn_readcb` take off the buffer. -/
def taken : List UInt8 → List (List UInt8) → List (Option (List UInt8))
  | _, [] => []
  | input, chunk :: chunks =>
    match evbufferReadln (input ++ chunk) with
    | none => none :: taken (input ++ chunk) chunks
    | some (line, rest) => some line :: taken rest chunks

/-- Each complete line of the stream is executed and answered once, in order,
and nothing else is. -/
def AnswersLines (owner : Owner σ) (state : σ) (chunks : List (List UInt8)) : Prop :=
  received owner state chunks =
      serve owner state ((commandLines chunks.flatten).map some) ∧
    ∀ call ∈ received owner state chunks, call.response.isSome

/-- When a chunk arrives, the stream has at least as many complete lines as
chunks, and in the end exactly as many. -/
def InStep (chunks : List (List UInt8)) : Prop :=
  (∀ i < chunks.length, i + 1 ≤ (commandLines (chunks.take (i + 1)).flatten).length) ∧
    (commandLines chunks.flatten).length = chunks.length

section Reading

variable {buff line rest : List UInt8}

theorem readLine_maxTries (buff : List UInt8) :
    readLine buff maxTries = evbufferReadln buff := readLine_succ buff 999

theorem commandLines_of_none (h : evbufferReadln buff = none) : commandLines buff = [] := by
  rw [commandLines, Lines.lines_of_cut_none (Option.map_eq_none_iff.mp h)]
  rfl

/-- A line that is taken is the next one, whatever arrives later. -/
theorem commandLines_append (h : evbufferReadln buff = some (line, rest)) (more : List UInt8) :
    commandLines (buff ++ more) = line :: commandLines (rest ++ more) := by
  obtain ⟨⟨raw, after⟩, cut, same⟩ := Option.map_eq_some_iff.mp h
  cases same
  rw [commandLines, Lines.lines_append cut]
  rfl

/-- What the calls do depends on the lines they take. -/
theorem foldl_connReadcb (owner : Owner σ) (chunks : List (List UInt8)) (input : List UInt8)
    (state : σ) (log : List Served) :
    (chunks.foldl (connReadcb owner) ⟨input, state, log⟩).log =
      log ++ serve owner state (taken input chunks) := by
  induction chunks generalizing input state log with
  | nil => exact (List.append_nil log).symm
  | cons chunk chunks ih =>
      rw [List.foldl_cons, connReadcb, ih, List.append_assoc, taken]
      simp only [UserCommand.read, readLine_maxTries]
      cases evbufferReadln (input ++ chunk) with
      | none => rfl
      | some r => rfl

theorem received_eq (owner : Owner σ) (state : σ) (chunks : List (List UInt8)) :
    received owner state chunks = serve owner state (taken [] chunks) :=
  foldl_connReadcb owner chunks [] state []

theorem serve_lines (owner : Owner σ) (state : σ) (ls : List (Option (List UInt8))) :
    (serve owner state ls).map Served.line = ls := by
  induction ls generalizing state with
  | nil => rfl
  | cons l ls ih => rw [serve, List.map_cons, ih]

theorem serve_injective {owner : Owner σ} {state : σ} {ls ls' : List (Option (List UInt8))} :
    serve owner state ls = serve owner state ls' ↔ ls = ls' := by
  constructor
  · intro h
    have lines := congrArg (List.map Served.line) h
    rwa [serve_lines, serve_lines] at lines
  · intro h
    rw [h]

/-- The calls take exactly the lines of the stream if and only if it is cut in
step with them. -/
theorem taken_eq_iff (input : List UInt8) (chunks : List (List UInt8)) :
    taken input chunks = (commandLines (input ++ chunks.flatten)).map some ↔
      (∀ i < chunks.length,
        i + 1 ≤ (commandLines (input ++ (chunks.take (i + 1)).flatten)).length) ∧
      (commandLines (input ++ chunks.flatten)).length = chunks.length := by
  induction chunks generalizing input with
  | nil =>
      simp only [taken, List.flatten_nil, List.append_nil, List.length_nil, List.length_eq_zero_iff,
        Nat.not_lt_zero, IsEmpty.forall_iff, implies_true, true_and]
      exact eq_comm.trans List.map_eq_nil_iff
  | cons chunk chunks ih =>
      rw [taken, List.flatten_cons, ← List.append_assoc]
      cases h : evbufferReadln (input ++ chunk) with
      | none =>
          have unread : commandLines (input ++ chunk) = [] := commandLines_of_none h
          refine iff_of_false ?_ ?_
          · intro same
            have first : none ∈ (commandLines (input ++ chunk ++ chunks.flatten)).map some := by
              rw [← same]
              exact List.mem_cons_self
            obtain ⟨_, _, absent⟩ := List.mem_map.mp first
            cases absent
          · rintro ⟨inStep, _⟩
            have early := inStep 0 (by simp)
            simp [unread] at early
      | some r =>
          obtain ⟨line, rest⟩ := r
          have next (more : List UInt8) := commandLines_append h more
          rw [next, List.map_cons, List.cons_inj_right, ih rest, List.length_cons, List.length_cons,
            Nat.add_right_cancel_iff]
          apply and_congr_left
          intro _
          constructor
          · intro inStep i hi
            rw [List.take_succ_cons, List.flatten_cons, ← List.append_assoc, next]
            cases i with
            | zero => exact Nat.succ_le_succ (Nat.zero_le _)
            | succ i => exact Nat.succ_le_succ (inStep i (by simpa using hi))
          · intro inStep i hi
            have := inStep (i + 1) (by simpa using hi)
            rw [List.take_succ_cons, List.flatten_cons, ← List.append_assoc, next] at this
            simpa using this

end Reading

theorem serve_responds {owner : Owner σ}
    (responds : ∀ state command, (owner.executeQuery state command).1.isSome) (state : σ)
    (ls : List (Option (List UInt8))) : ∀ call ∈ serve owner state ls, call.response.isSome := by
  induction ls generalizing state with
  | nil => exact fun _ h => absurd h List.not_mem_nil
  | cons l ls ih =>
      intro call h
      rcases List.mem_cons.mp h with rfl | h
      · exact responds _ _
      · exact ih _ call h

/-- For an owner that sends one response to each command. -/
theorem answersLines_iff {owner : Owner σ}
    (responds : ∀ state command, (owner.executeQuery state command).1.isSome) (state : σ)
    (chunks : List (List UInt8)) : AnswersLines owner state chunks ↔ InStep chunks := by
  have cut := taken_eq_iff [] chunks
  simp only [List.nil_append] at cut
  rw [AnswersLines, received_eq, serve_injective, cut]
  exact and_iff_left (serve_responds responds state _)

/-- Two ways of cutting one stream that are both in step. -/
theorem received_congr (owner : Owner σ) (state : σ) {chunks chunks' : List (List UInt8)}
    (same : chunks.flatten = chunks'.flatten) (h : InStep chunks) (h' : InStep chunks') :
    received owner state chunks = received owner state chunks' := by
  have cut := (taken_eq_iff [] chunks).mpr h
  have cut' := (taken_eq_iff [] chunks').mpr h'
  rw [received_eq, received_eq, cut, cut', same]

/-! ## The two versions -/

/-- What the responses of v1.0 depend on: the table, and for each relayed
command the number that is drawn and the value of an uninitialised field. -/
structure MasterView where
  table : Memory
  draws : Nat → Nat
  statuses : Nat → Int
  relayed : Nat

/-- A connection with the given id at the master of v1.0. -/
def masterOwner (id : Nat) : Owner MasterView where
  interpret := EmrakulV1.interpret
  executeQuery s command :=
    match EmrakulV1.executeQuery s.table
        ⟨command, id, s.draws s.relayed, s.statuses s.relayed⟩ with
    | some r =>
      (some r.1.2, { s with
        table := r.2
        relayed := if command.operation = .none then s.relayed else s.relayed + 1 })
    | none => (none, s)

/-- What the responses of v2.0 depend on: the table, and for each command the
clock while it is executed. -/
structure WorkerView where
  table : Memory
  clock : Nat → Int
  executed : Nat

/-- A connection at a worker of v2.0. -/
def workerOwner : Owner WorkerView where
  interpret := EmrakulV2.interpret
  executeQuery s command :=
    let r := EmrakulV2.executeQuery (s.clock s.executed) s.table command
    (some r.1, { s with table := r.2, executed := s.executed + 1 })

theorem masterOwner_responds (id : Nat) (s : MasterView) (command : UserCommand) :
    ((masterOwner id).executeQuery s command).1.isSome := by
  obtain ⟨r, executed⟩ := Option.isSome_iff_exists.mp (EmrakulV1.executeQuery_isSome s.table
    ⟨command, id, s.draws s.relayed, s.statuses s.relayed⟩)
  simp only [masterOwner, executed]
  rfl

theorem workerOwner_responds (s : WorkerView) (command : UserCommand) :
    (workerOwner.executeQuery s command).1.isSome := rfl

/-- In both versions the responses are those to the lines of the stream if and
only if it is cut in step with them, and then they do not depend on the cuts. -/
theorem one_response_per_line (id : Nat) :
    (∀ s chunks, AnswersLines (masterOwner id) s chunks ↔ InStep chunks) ∧
    (∀ s chunks, AnswersLines workerOwner s chunks ↔ InStep chunks) ∧
    ∀ chunks chunks', chunks.flatten = chunks'.flatten → InStep chunks → InStep chunks' →
      (∀ s, received (masterOwner id) s chunks = received (masterOwner id) s chunks') ∧
      ∀ s, received workerOwner s chunks = received workerOwner s chunks' := by
  refine ⟨answersLines_iff (masterOwner_responds id), answersLines_iff workerOwner_responds, ?_⟩
  intro chunks chunks' same h h'
  exact ⟨fun s => received_congr _ s same h h', fun s => received_congr _ s same h h'⟩

/-- Two lines that arrive in two chunks, cut in two ways. -/
theorem two_cuts_agree (s : WorkerView) :
    received workerOwner s [text "del d\n", text "del d\n"] =
      received workerOwner s [text "del d\nde", text "l d\n"] := by
  have h : InStep [text "del d\n", text "del d\n"] := by
    unfold InStep
    decide
  have h' : InStep [text "del d\nde", text "l d\n"] := by
    unfold InStep
    decide
  exact ((one_response_per_line 0).2.2 _ _ (by decide) h h').2 s

/-- In both versions the second of two lines that arrive together is not
answered, so responses depend on the cuts. -/
theorem pipelined_line_unanswered :
    (¬ ∀ id s chunks, AnswersLines (masterOwner id) s chunks) ∧
      ¬ ∀ s chunks, AnswersLines workerOwner s chunks := by
  have outOfStep : ¬ InStep [text "del d\ndel d\n"] := by
    unfold InStep
    decide
  constructor
  · intro always
    have answered := always 0 ⟨fun _ => 0, fun _ => 1, fun _ => 0, 0⟩ [text "del d\ndel d\n"]
    exact outOfStep ((answersLines_iff (masterOwner_responds 0) _ _).mp answered)
  · intro always
    have answered := always ⟨fun _ => 0, fun _ => 1, 0⟩ [text "del d\ndel d\n"]
    exact outOfStep ((answersLines_iff workerOwner_responds _ _).mp answered)

end ClientConnection
