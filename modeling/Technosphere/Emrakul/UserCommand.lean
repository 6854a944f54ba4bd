import Technosphere.Bytes
import Technosphere.CInt
import Technosphere.Emrakul.HashTableBase
import Technosphere.Emrakul.PosixHashTable
import Technosphere.Lines

/-!
# Commands of a client

Both versions read a command from the input buffer of a connection in the same
way: they take one line off the buffer, split it into tokens and store the key
and the value in a buffer of the size of a record. They differ in the tokens
they expect and in how much of a value they keep.
-/

namespace Emrakul

open Bytes SharedMemory

/-- `cmd_operation_t`. -/
inductive Operation where
  | get
  | set
  | del
  | none
  | term
  deriving DecidableEq, Repr

/-! ## Lines -/

def lineFeed : UInt8 := 10
def carriageReturn : UInt8 := 13

/-- A line as `EVBUFFER_EOL_CRLF` ends it: one carriage return in front of the
line feed belongs to the terminator. -/
def stripReturn (line : List UInt8) : List UInt8 :=
  if line.getLast? = some carriageReturn then line.dropLast else line

/-- `evbuffer_readln`: the first complete line, removed from the buffer. -/
def evbufferReadln (buff : List UInt8) : Option (List UInt8 × List UInt8) :=
  (Lines.cut lineFeed buff).map fun r => (stripReturn r.1, r.2)

def maxTries : Nat := 1000

/-- The `while` loop around `evbuffer_readln`, which gives up after `tries` calls. -/
def readLine (buff : List UInt8) : (tries : Nat) → Option (List UInt8 × List UInt8)
  | 0 => none
  | tries + 1 =>
    match evbufferReadln buff with
    | some r => some r
    | none => readLine buff tries

/-- Trying again makes no difference: nothing arrives in between. -/
theorem readLine_succ (buff : List UInt8) (tries : Nat) :
    readLine buff (tries + 1) = evbufferReadln buff := by
  induction tries with
  | zero =>
      rw [readLine]
      cases evbufferReadln buff <;> rfl
  | succ tries ih =>
      rw [readLine, ih]
      cases evbufferReadln buff <;> rfl

/-! ## Tokens -/

/-- `collect_token_from_buffer`, which also clears the buffer `s`. -/
def collectTokenFromBuffer (tokens : List (List UInt8)) (s : List UInt8) : List (List UInt8) :=
  if 0 < s.length then tokens ++ [s] else tokens

/-- The variables of `parse`. -/
structure Parsing where
  tokens : List (List UInt8)
  stdBuffer : List UInt8
  quotedArgBuffer : List UInt8
  quotesOn : Bool
  deriving DecidableEq, Repr

/-- The body of the loop of `parse`. -/
def parseChr (p : Parsing) (chr : UInt8) : Parsing :=
  if p.quotesOn then
    if isQuote chr then
      ⟨collectTokenFromBuffer p.tokens p.quotedArgBuffer, p.stdBuffer, [], false⟩
    else
      { p with quotedArgBuffer := p.quotedArgBuffer ++ [chr] }
  else if isspace chr then
    { p with tokens := collectTokenFromBuffer p.tokens p.stdBuffer, stdBuffer := [] }
  else if isQuote chr then
    ⟨collectTokenFromBuffer p.tokens p.stdBuffer, [], p.quotedArgBuffer, true⟩
  else
    { p with stdBuffer := p.stdBuffer ++ [chr] }

/-- `parse`: the tokens of a line, which ends at its first NUL. -/
def parse (cmdstr : List UInt8) : List (List UInt8) :=
  let p := (cmdstr.takeWhile (· ≠ 0)).foldl parseChr ⟨[], [], [], false⟩
  collectTokenFromBuffer p.tokens p.stdBuffer

example : parse (text "set 20 d 'a b'") = [text "set", text "20", text "d", text "a b"] := by
  decide

/-! ## Commands -/

/-- A command of a client. `params` are the bytes of `params_data`; only v2.0
uses `ttl`. Clients cannot ask for termination. -/
structure UserCommand where
  operation : Operation
  ttl : Int
  params : Memory
  notTerm : operation ≠ .term

namespace UserCommand

/-- The constructor. -/
def new : UserCommand := ⟨.none, 0, fun _ => 0, Operation.noConfusion⟩

/-- `strncpy` of a string with its terminator into `params_data`. -/
def copy (params : Memory) (offset : Nat) (s : List UInt8) : Memory :=
  params.writeBytes offset (s ++ [0])

def valueOffset : Nat := keySize + 1

/-- The string at `get_key_param()`. -/
def keyParam (cmd : UserCommand) : List UInt8 := cmd.params.cstr 0 recordSize

/-- The string at `get_value_param()`. -/
def valueParam (cmd : UserCommand) : List UInt8 :=
  cmd.params.cstr valueOffset (recordSize - valueOffset)

/-- `read_from_buffer`, up to what the tokens of a line mean: the command and
the bytes left in the buffer. -/
def read (interpret : List (List UInt8) → UserCommand) (buff : List UInt8) :
    UserCommand × List UInt8 :=
  match readLine buff maxTries with
  | none => (new, buff)
  | some (cmdstr, rest) => (interpret (parse cmdstr), rest)

end UserCommand

end Emrakul

/-! ## v1.0 -/

namespace EmrakulV1

open Bytes SharedMemory Emrakul UserCommand CInt

/-- The command that the tokens of a line make up. -/
def interpret (tokens : List (List UInt8)) : UserCommand :=
  let operationString := tokens.getD 0 []
  let key := (tokens.getD 1 []).take (keySize - 1)
  if tokens.length < 2 then .new
  else if operationString = text "get" then
    ⟨.get, 0, copy UserCommand.new.params 0 key, Operation.noConfusion⟩
  else if operationString = text "set" then
    if tokens.length < 3 then .new
    else
      let value := (tokens.getD 2 []).take (recordSize - keySize - 2)
      ⟨.set, 0, copy (copy UserCommand.new.params valueOffset value) 0 key, Operation.noConfusion⟩
  else if operationString = text "del" then
    ⟨.del, 0, copy UserCommand.new.params 0 key, Operation.noConfusion⟩
  else
    ⟨.none, 0, copy UserCommand.new.params 0 key, Operation.noConfusion⟩

def readFromBuffer : List UInt8 → UserCommand × List UInt8 := read interpret

end EmrakulV1

/-! ## v2.0 -/

namespace EmrakulV2

open Bytes SharedMemory Emrakul UserCommand CInt

/-- The command that the tokens of a line make up. A `ttl` is at least 10. -/
def interpret (tokens : List (List UInt8)) : UserCommand :=
  let operationString := tokens.getD 0 []
  let key (idx : Nat) := (tokens.getD idx []).take (keySize - 1)
  if tokens.length < 2 then .new
  else if operationString = text "get" then
    ⟨.get, 0, copy UserCommand.new.params 0 (key 1), Operation.noConfusion⟩
  else if operationString = text "set" then
    if tokens.length < 4 then .new
    else
      let ttl := atoi (tokens.getD 1 [])
      let value := (tokens.getD 3 []).take (recordSize - keySize - 6)
      ⟨.set, if ttl < 10 then 10 else ttl,
        copy (copy UserCommand.new.params valueOffset value) 0 (key 2), Operation.noConfusion⟩
  else if operationString = text "del" then
    ⟨.del, 0, copy UserCommand.new.params 0 (key 1), Operation.noConfusion⟩
  else
    ⟨.none, 0, copy UserCommand.new.params 0 [], Operation.noConfusion⟩

def readFromBuffer : List UInt8 → UserCommand × List UInt8 := read interpret

end EmrakulV2
