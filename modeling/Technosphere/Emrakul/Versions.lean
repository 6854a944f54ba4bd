import Technosphere.Emrakul.MasterProcess.Answers
import Technosphere.Emrakul.WorkerAnswers

/-!
# The two versions agree

A client of v1.0 becomes a client of v2.0 when it says a time to live in each
`set`. As long as nothing is collected, no message is drawn by the master of
v1.0 and no `set` says a longer value than v2.0 keeps, both answer with the outcomes of
one store and differ only in how they phrase them.
-/

namespace Emrakul

open Bytes SharedMemory OpenAddressing Transition CInt

/-- The line of v2.0 for a line of v1.0. -/
def withTtl (ttl : List UInt8) : List (List UInt8) → List (List UInt8)
  | [] => []
  | operation :: params =>
    if operation = text "set" then operation :: ttl :: params else operation :: params

/-- What a client of both versions asks, when v2.0 executes it, and what v1.0
needs to relay it. -/
structure Ask where
  tokens : List (List UInt8)
  ttl : List UInt8
  now : Int
  connection : Nat
  draw : Nat
  status : Int

namespace Ask

def query (a : Ask) : EmrakulV1.Query :=
  ⟨EmrakulV1.interpret a.tokens, a.connection, a.draw, a.status⟩

def turn (a : Ask) : Int × EmrakulV2.Turn :=
  (a.now, .command (EmrakulV2.interpret (withTtl a.ttl a.tokens)))

/-- The tokens are those of a line, a worker of v1.0 executes the command, and
v2.0 does not cut the value of a `set` more than v1.0 does. -/
structure Common (a : Ask) : Prop where
  noNul : ∀ t ∈ a.tokens, 0 ∉ t
  ttlNoNul : 0 ∉ a.ttl
  drawn : a.draw % workerProcessesCount ≠ 0
  short : a.tokens.getD 0 [] = text "set" → (a.tokens.getD 2 []).length ≤ EmrakulV2.layout.limit

end Ask

/-! ## Commands -/

section Commands

variable {ttl : List UInt8} {tokens : List (List UInt8)}

theorem withTtl_noNul (noNul : ∀ t ∈ tokens, 0 ∉ t) (ttlNoNul : 0 ∉ ttl) :
    ∀ t ∈ withTtl ttl tokens, 0 ∉ t := by
  cases tokens with
  | nil => exact noNul
  | cons operation params =>
      rw [withTtl]
      split
      · intro t ht
        rw [List.mem_cons, List.mem_cons] at ht
        rcases ht with rfl | rfl | ht
        · exact noNul _ List.mem_cons_self
        · exact ttlNoNul
        · exact noNul t (List.mem_cons_of_mem _ ht)
      · exact noNul

/-- Only a `set` is said in another way. -/
theorem withTtl_cases (ttl : List UInt8) (tokens : List (List UInt8)) :
    (∃ params, tokens = text "set" :: params ∧
      withTtl ttl tokens = text "set" :: ttl :: params) ∨
    (tokens.getD 0 [] ≠ text "set" ∧ withTtl ttl tokens = tokens) := by
  cases tokens with
  | nil => exact Or.inr ⟨by decide, rfl⟩
  | cons operation params =>
      by_cases set : operation = text "set"
      · exact Or.inl ⟨params, by rw [set], by rw [withTtl, if_pos set, set]⟩
      · exact Or.inr ⟨set, by rw [withTtl, if_neg set]⟩

theorem operation_set (ttl : List UInt8) (params : List (List UInt8)) :
    (EmrakulV1.interpret (text "set" :: params)).operation =
        (if params.length < 2 then .none else .set) ∧
      (EmrakulV2.interpret (text "set" :: ttl :: params)).operation =
        if params.length < 2 then .none else .set := by
  have other : text "set" ≠ text "get" := by decide
  constructor
  · simp only [EmrakulV1.interpret, List.length_cons, List.getD_cons_zero, if_neg other, if_true]
    split
    · rw [if_pos (by omega)]
      rfl
    · by_cases few : params.length < 2
      · rw [if_pos (by omega), if_pos few]
        rfl
      · rw [if_neg (by omega), if_neg few]
  · simp only [EmrakulV2.interpret, List.length_cons, List.getD_cons_zero, if_neg other, if_true]
    rw [if_neg (by omega)]
    by_cases few : params.length < 2
    · rw [if_pos (by omega), if_pos few]
      rfl
    · rw [if_neg (by omega), if_neg few]

/-- Lines that are no `set` mean the same operation in both versions. -/
theorem operation_plain (plain : tokens.getD 0 [] ≠ text "set") :
    (EmrakulV2.interpret tokens).operation = (EmrakulV1.interpret tokens).operation ∧
      (EmrakulV1.interpret tokens).operation ≠ .set := by
  rw [EmrakulV1.interpret, EmrakulV2.interpret]
  simp only [if_neg plain]
  split
  · exact ⟨rfl, by decide⟩
  · split
    · exact ⟨rfl, by simp⟩
    · split <;> exact ⟨rfl, by simp⟩

end Commands

/-! ## Requests -/

section Requests

variable {tokens params : List (List UInt8)} {ttl : List UInt8}

/-- What the two versions ask of their tables, but for the death time. -/
def SameRequest (now : Int) (command command' : UserCommand) : Prop :=
  EmrakulV1.request command = (EmrakulV2.request now command').map (Request.map Prod.fst)

theorem sameRequest_none {now : Int} {command command' : UserCommand}
    (none : command.operation = .none) (none' : command'.operation = .none) :
    SameRequest now command command' := by
  rw [SameRequest, EmrakulV1.request, EmrakulV2.request, none, none']
  rfl

theorem sameRequest_plain (noNul : ∀ t ∈ tokens, 0 ∉ t)
    (plain : tokens.getD 0 [] ≠ text "set") (now : Int) :
    SameRequest now (EmrakulV1.interpret tokens) (EmrakulV2.interpret tokens) := by
  obtain ⟨same, other⟩ := operation_plain plain
  have key (known : (EmrakulV1.interpret tokens).operation ≠ .none) :
      (EmrakulV1.interpret tokens).keyParam = (EmrakulV2.interpret tokens).keyParam := by
    rw [keyParam_plain noNul EmrakulV1.understands known other,
      keyParam_plain noNul EmrakulV2.understands (same ▸ known) (same ▸ other)]
  cases operation : (EmrakulV1.interpret tokens).operation with
  | term => exact absurd operation (EmrakulV1.interpret tokens).notTerm
  | set => exact absurd operation other
  | none => exact sameRequest_none operation (same.trans operation)
  | get | del =>
      rw [SameRequest, EmrakulV1.request, EmrakulV2.request, same, operation]
      simp only [key (by rw [operation]; decide)]
      rfl

theorem sameRequest_set (noNul : ∀ t ∈ text "set" :: params, 0 ∉ t)
    (noNul' : ∀ t ∈ text "set" :: ttl :: params, 0 ∉ t)
    (short : (params.getD 1 []).length ≤ EmrakulV2.layout.limit) (now : Int) :
    SameRequest now (EmrakulV1.interpret (text "set" :: params))
      (EmrakulV2.interpret (text "set" :: ttl :: params)) := by
  obtain ⟨set, set'⟩ := operation_set ttl params
  by_cases few : params.length < 2
  · rw [if_pos few] at set set'
    exact sameRequest_none set set'
  · rw [if_neg few] at set set'
    have short' : (params.getD 1 []).length ≤ EmrakulV1.layout.limit :=
      Nat.le_trans short (by decide)
    have value : (EmrakulV1.interpret (text "set" :: params)).valueParam = params.getD 1 [] :=
      (valueParam_set noNul EmrakulV1.understands set).trans (List.take_of_length_le short')
    have value' : (EmrakulV2.interpret (text "set" :: ttl :: params)).valueParam =
        params.getD 1 [] :=
      (valueParam_set noNul' EmrakulV2.understands set').trans (List.take_of_length_le short)
    have key : (EmrakulV1.interpret (text "set" :: params)).keyParam =
        (EmrakulV2.interpret (text "set" :: ttl :: params)).keyParam :=
      (keyParam_set noNul EmrakulV1.understands set).trans
        (keyParam_set noNul' EmrakulV2.understands set').symm
    rw [SameRequest, EmrakulV1.request, EmrakulV2.request, set, set']
    simp only [key, value, value']
    rfl

end Requests

theorem Ask.Common.sameRequest {a : Ask} (common : a.Common) :
    SameRequest a.now (EmrakulV1.interpret a.tokens)
      (EmrakulV2.interpret (withTtl a.ttl a.tokens)) := by
  have noNul := common.noNul
  have noNul' := withTtl_noNul common.noNul common.ttlNoNul
  have short := common.short
  obtain ⟨params, tokens, timed⟩ | ⟨plain, timed⟩ := withTtl_cases a.ttl a.tokens
  · rw [timed] at noNul' ⊢
    rw [tokens] at noNul short ⊢
    exact sameRequest_set noNul noNul' (short rfl) a.now
  · rw [timed]
    exact sameRequest_plain noNul plain a.now

/-! ## Outcomes -/

/-- The outcomes of a store, where a line that is no command has none. -/
def outcomes : HashTableBase.Budgeted → List Ask → List (Option (Outcome (List UInt8)))
  | _, [] => []
  | s, a :: asks =>
    match EmrakulV1.request a.query.command with
    | none => none :: outcomes s asks
    | some r =>
      some (s.answer PosixHashTable.tableSize r).1 ::
        outcomes (s.answer PosixHashTable.tableSize r).2 asks

/-- The response of v1.0 for the outcome of a line. -/
def phraseV1 (o : Option (Outcome (List UInt8))) : List UInt8 :=
  o.elim EmrakulV1.invalidCommand EmrakulV1.phrase

/-- The response of v2.0, which does not show death times. -/
def phraseV2 (o : Option (Outcome (List UInt8))) : List UInt8 :=
  o.elim EmrakulV2.invalidCommand fun outcome => EmrakulV2.phrase (outcome.map fun v => (v, 0))

theorem answers_outcomes {asks : List Ask} (common : ∀ a ∈ asks, a.Common)
    (s : HashTableBase.Budgeted) :
    (EmrakulV1.answers s (asks.map Ask.query)).map Prod.snd = (outcomes s asks).map phraseV1 := by
  have size : EmrakulV1.geometry.tableSize = PosixHashTable.tableSize := by decide
  induction asks generalizing s with
  | nil => rfl
  | cons a asks ih =>
      have rest := ih fun a ha => common a (List.mem_cons_of_mem _ ha)
      have drawn := (common a List.mem_cons_self).drawn
      rw [List.map_cons, EmrakulV1.answers, List.map_cons, EmrakulV1.answer, outcomes]
      cases asked : EmrakulV1.request a.query.command with
      | none =>
          rw [List.map_cons, ← rest]
          rfl
      | some r =>
          simp only [if_neg (show ¬ a.query.draw % workerProcessesCount = 0 from drawn), size]
          rw [List.map_cons, ← rest]
          rfl

theorem phrase_eq (outcome : Outcome (List UInt8 × Int)) :
    EmrakulV2.phrase outcome = phraseV2 (some (outcome.map Prod.fst)) := by
  cases outcome <;> rfl

theorem storeResponses_outcomes {asks : List Ask} (common : ∀ a ∈ asks, a.Common)
    (s : PosixHashTable.Budgeted) :
    EmrakulV2.storeResponses s (asks.map Ask.turn) =
      (outcomes (s.map Prod.fst) asks).map fun o => some (phraseV2 o) := by
  induction asks generalizing s with
  | nil => rfl
  | cons a asks ih =>
      have rest := ih fun a ha => common a (List.mem_cons_of_mem _ ha)
      have same := (common a List.mem_cons_self).sameRequest
      rw [SameRequest] at same
      rw [List.map_cons, Ask.turn, EmrakulV2.storeResponses, EmrakulV2.storeSent,
        EmrakulV2.storeLeft, EmrakulV2.answer, outcomes, Ask.query, same]
      cases asked : EmrakulV2.request a.now (EmrakulV2.interpret (withTtl a.ttl a.tokens)) with
      | none =>
          rw [Option.map_none, List.map_cons, rest]
          rfl
      | some r =>
          obtain ⟨outcome, left⟩ := BudgetMap.answer_map Prod.fst PosixHashTable.tableSize s r
          simp only [Option.map_some, List.map_cons, outcome, left, rest, phrase_eq]

theorem allOfTokens_turns {asks : List Ask} (common : ∀ a ∈ asks, a.Common) :
    EmrakulV2.AllOfTokens (asks.map Ask.turn) := by
  intro now command turn
  obtain ⟨a, ha, same⟩ := List.mem_map.mp turn
  cases same
  exact ⟨_, withTtl_noNul (common a ha).noNul (common a ha).ttlNoNul, rfl⟩

/-- In every schedule of v1.0, and command after command in v2.0, clients that
ask the same are answered with the same outcomes. -/
theorem versions_agree {table table' : Memory}
    (zeroed : HashTableBase.Zeroed EmrakulV1.geometry table)
    (zeroed' : PosixHashTable.Zeroed table') {asks : List Ask} (common : ∀ a ∈ asks, a.Common)
    {acts : List EmrakulV1.Act} {s : EmrakulV1.State}
    (ran : Run EmrakulV1.step Always (EmrakulV1.start table) acts s)
    (asked : EmrakulV1.queries acts = asks.map Ask.query) (ended : s.awaited = none) :
    s.sent.map Prod.snd = (outcomes .empty asks).map phraseV1 ∧
      EmrakulV2.responses table' (asks.map Ask.turn) =
        (outcomes .empty asks).map fun o => some (phraseV2 o) := by
  constructor
  · have made : ∀ q ∈ EmrakulV1.queries acts, EmrakulV1.OfTokens q.command := by
      rw [asked]
      intro q hq
      obtain ⟨a, ha, rfl⟩ := List.mem_map.mp hq
      exact ⟨a.tokens, (common a ha).noNul, rfl⟩
    have sent : s.sent = (EmrakulV1.sequential table (EmrakulV1.queries acts)).1 :=
      congrArg Prod.fst (EmrakulV1.responses_sequential ran ended)
    rw [sent, (EmrakulV1.sequential_answers zeroed made).1, asked, answers_outcomes common]
  · rw [EmrakulV2.responses_of_stocks zeroed'.stocks (allOfTokens_turns common),
      storeResponses_outcomes common]
    rfl

/-- A `set` in both versions. -/
theorem both_store :
    ∃ acts s, Run EmrakulV1.step Always (EmrakulV1.start fun _ => 0) acts s ∧
      s.sent.map Prod.snd = [text "200 SET OK"] ∧
      EmrakulV2.responses (fun _ => 0) [(5, .command (EmrakulV2.interpret
        [text "set", text "10", text "d", text "1"]))] = [some (text "200 SET OK")] := by
  let a : Ask := ⟨[text "set", text "d", text "1"], text "10", 5, 7, 1, 0⟩
  have zeroed : HashTableBase.Zeroed EmrakulV1.geometry fun _ => 0 := fun _ _ => rfl
  have zeroed' : PosixHashTable.Zeroed fun _ => 0 := fun _ _ => rfl
  have common : ∀ a' ∈ [a], a'.Common := by
    intro a' ha'
    rw [List.mem_singleton.mp ha']
    exact ⟨by decide, by decide, by decide, fun _ => by decide⟩
  obtain ⟨reply, table, executed⟩ := EmrakulV1.dispatchMessage_isSome (fun _ => 0) a.query
  have relayed : a.query.command.operation ≠ .none := by decide
  have worker : a.query.message.mtype ∈ EmrakulV1.workerIds :=
    EmrakulV1.mtype_mem_workerIds (common a List.mem_cons_self).drawn
  have ran : Run EmrakulV1.step Always (EmrakulV1.start fun _ => 0) _ _ :=
    .cons trivial (EmrakulV1.step_query rfl relayed) (.cons trivial
    (EmrakulV1.step_receive worker rfl rfl rfl) (.cons trivial
    (EmrakulV1.step_dispatch (Function.update_self _ _ _) executed) (.cons trivial
    (EmrakulV1.step_reply (Function.update_self _ _ _)) (.single trivial
    (EmrakulV1.step_answer rfl rfl (EmrakulV1.reply_mtype executed))))))
  obtain ⟨sent, responses⟩ := versions_agree zeroed zeroed' common ran rfl rfl
  have stored : outcomes .empty [a] = [some .stored] := by rfl
  rw [stored] at sent responses
  exact ⟨_, _, ran, sent, responses⟩

end Emrakul
