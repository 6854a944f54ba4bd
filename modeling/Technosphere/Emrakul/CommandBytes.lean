import Technosphere.Emrakul.UserCommand
import Mathlib.Data.List.TakeWhile

/-!
# The bytes of commands

The buffer of a command is as large as a record. Its key and its value are cut
when a line is read, so that with their terminators they fill their fields at
most. `paramsInside` says that nothing is written beside the buffer; `keyParam_eq`
and `valueParam_eq` say which tokens can be read back from it.
-/

namespace Emrakul

open Bytes SharedMemory

/-! ## Buffers as large as a record -/

/-- A row of bytes that is written, and where. -/
abbrev Write := Nat × List UInt8

def Write.Inside (w : Write) : Prop := w.1 + w.2.length ≤ recordSize

def written (m : Memory) (writes : List Write) : Memory :=
  writes.foldl (fun m w => m.writeBytes w.1 w.2) m

/-- The `memset` of the constructor. -/
def clear : Write := (0, List.replicate recordSize 0)

theorem writeBytes_congr {m m' : Memory} {x : Nat} (same : m x = m' x) (a : Nat)
    (bs : List UInt8) : m.writeBytes a bs x = m'.writeBytes a bs x := by
  induction bs generalizing m m' a with
  | nil => exact same
  | cons b bs ih =>
      apply ih
      by_cases here : x = a
      · rw [here, Function.update_self, Function.update_self]
      · rw [Function.update_of_ne here, Function.update_of_ne here, same]

theorem written_congr {m m' : Memory} {x : Nat} (same : m x = m' x) (writes : List Write) :
    written m writes x = written m' writes x := by
  induction writes generalizing m m' with
  | nil => exact same
  | cons w writes ih => exact ih (writeBytes_congr same w.1 w.2)

theorem writeBytes_replicate (m : Memory) (a n x : Nat) (low : a ≤ x) (high : x < a + n) :
    m.writeBytes a (List.replicate n 0) x = 0 := by
  induction n generalizing m a with
  | zero => omega
  | succ n ih =>
      rw [List.replicate_succ, Memory.writeBytes]
      by_cases here : x = a
      · rw [Memory.writeBytes_outside _ _ _ _ (Or.inl (by omega)), here, Function.update_self]
      · exact ih _ _ (by omega) (by omega)

theorem written_memset (m : Memory) (size : Nat) (writes : List Write) {x : Nat} (h : x < size) :
    written m ((0, List.replicate size 0) :: writes) x = written UserCommand.new.params writes x :=
  written_congr (writeBytes_replicate m 0 size x (Nat.zero_le x) (by omega)) writes

/-- After the constructor it does not matter what was in the buffer. -/
theorem written_clear (m : Memory) (writes : List Write) {x : Nat} (h : x < recordSize) :
    written m (clear :: writes) x = written UserCommand.new.params writes x :=
  written_memset m recordSize writes h

/-! ## Tokens -/

theorem collect_noNul {tokens : List (List UInt8)} {s : List UInt8} (h : ∀ t ∈ tokens, 0 ∉ t)
    (hs : 0 ∉ s) : ∀ t ∈ collectTokenFromBuffer tokens s, 0 ∉ t := by
  rw [collectTokenFromBuffer]
  split
  · intro t inside
    rcases List.mem_append.mp inside with inside | inside
    · exact h t inside
    · rw [List.mem_singleton.mp inside]
      exact hs
  · exact h

/-- No token and no buffer contains a NUL. -/
structure Parsing.NoNul (p : Parsing) : Prop where
  tokens : ∀ t ∈ p.tokens, 0 ∉ t
  std : 0 ∉ p.stdBuffer
  quoted : 0 ∉ p.quotedArgBuffer

theorem Parsing.NoNul.parseChr {p : Parsing} (h : p.NoNul) {chr : UInt8} (other : 0 ≠ chr) :
    (parseChr p chr).NoNul := by
  have append : ∀ {s : List UInt8}, 0 ∉ s → 0 ∉ s ++ [chr] := by
    intro s none inside
    rcases List.mem_append.mp inside with inside | inside
    · exact none inside
    · exact other (List.mem_singleton.mp inside)
  rw [Emrakul.parseChr]
  split
  · split
    · exact ⟨collect_noNul h.tokens h.quoted, h.std, List.not_mem_nil⟩
    · exact ⟨h.tokens, h.std, append h.quoted⟩
  · split
    · exact ⟨collect_noNul h.tokens h.std, List.not_mem_nil, h.quoted⟩
    · split
      · exact ⟨collect_noNul h.tokens h.std, List.not_mem_nil, h.quoted⟩
      · exact ⟨h.tokens, append h.std, h.quoted⟩

/-- A line ends at its first NUL. -/
theorem parse_noNul (cmdstr : List UInt8) : ∀ t ∈ parse cmdstr, 0 ∉ t := by
  have fold : ∀ (s : List UInt8) (p : Parsing), (∀ chr ∈ s, 0 ≠ chr) → p.NoNul →
      (s.foldl parseChr p).NoNul := by
    intro s
    induction s with
    | nil => exact fun p _ h => h
    | cons chr s ih =>
        intro p others h
        obtain ⟨other, others⟩ := List.forall_mem_cons.mp others
        exact ih _ others (h.parseChr other)
  have others : ∀ chr ∈ cmdstr.takeWhile (· ≠ 0), 0 ≠ chr := by
    intro chr inside
    have kept := List.mem_takeWhile_imp inside
    exact Ne.symm (of_decide_eq_true kept)
  have all := fold _ ⟨[], [], [], false⟩ others ⟨nofun, List.not_mem_nil, List.not_mem_nil⟩
  exact collect_noNul all.tokens all.std

theorem getD_noNul {tokens : List (List UInt8)} (h : ∀ t ∈ tokens, 0 ∉ t) (i n : Nat) :
    0 ∉ (tokens.getD i []).take n := by
  intro inside
  have whole := List.mem_of_mem_take inside
  rw [List.getD_eq_getElem?_getD] at whole
  cases found : tokens[i]? with
  | none =>
      rw [found] at whole
      exact List.not_mem_nil whole
  | some t =>
      rw [found] at whole
      exact h t (List.mem_of_getElem? found) whole

/-! ## Keys and values of commands -/

section Params

variable (params : Memory) {key value : List UInt8}

theorem cstr_copy_key (noNul : 0 ∉ key) (short : key.length < keySize) :
    (UserCommand.copy params 0 key).cstr 0 recordSize = key :=
  Memory.cstr_writeBytes params 0 recordSize key noNul (Nat.lt_trans short (by decide))

/-- The key does not reach the value. -/
theorem cstr_copy_value (noNul : 0 ∉ value)
    (short : value.length < recordSize - UserCommand.valueOffset) (fits : key.length < keySize) :
    (UserCommand.copy (UserCommand.copy params UserCommand.valueOffset value) 0 key).cstr
      UserCommand.valueOffset (recordSize - UserCommand.valueOffset) = value := by
  have behind : ∀ x, UserCommand.valueOffset ≤ x →
      x < UserCommand.valueOffset + (recordSize - UserCommand.valueOffset) →
      UserCommand.copy (UserCommand.copy params UserCommand.valueOffset value) 0 key x =
        params.writeBytes UserCommand.valueOffset (value ++ [0]) x := by
    intro x low _
    apply Memory.writeBytes_outside
    rw [List.length_append, List.length_singleton]
    simp only [UserCommand.valueOffset] at low
    omega
  rw [Memory.cstr_congr behind]
  exact Memory.cstr_writeBytes params _ _ value noNul short

end Params

/-- The writes to `params_data` while a command is read. -/
def paramWrites (writes : List (List UInt8) → List Write) (buff : List UInt8) : List Write :=
  match readLine buff maxTries with
  | none => [clear]
  | some (cmdstr, _) => clear :: writes (parse cmdstr)

/-- They stay inside the buffer and leave the parameters there. -/
def ParamsInside (interpret : List (List UInt8) → UserCommand)
    (writes : List (List UInt8) → List Write) (buff : List UInt8) : Prop :=
  (∀ w ∈ paramWrites writes buff, w.Inside) ∧ ∀ m, ∀ x < recordSize,
    written m (paramWrites writes buff) x = (UserCommand.read interpret buff).1.params x

theorem paramsInside {interpret : List (List UInt8) → UserCommand}
    {writes : List (List UInt8) → List Write} (inside : ∀ tokens, ∀ w ∈ writes tokens, w.Inside)
    (params : ∀ tokens, (interpret tokens).params = written UserCommand.new.params (writes tokens))
    (buff : List UInt8) : ParamsInside interpret writes buff := by
  have first : clear.Inside := by
    rw [Write.Inside, clear, List.length_replicate]
    decide
  rw [ParamsInside, paramWrites, UserCommand.read]
  cases readLine buff maxTries with
  | none => exact ⟨List.forall_mem_singleton.mpr first, fun m x h => written_clear m [] h⟩
  | some r =>
      refine ⟨List.forall_mem_cons.mpr ⟨first, inside _⟩, fun m x h => ?_⟩
      exact (written_clear m _ h).trans (congrFun (params _).symm x)

/-- A row of bytes that was cut to fit behind an offset. -/
theorem inside_take (offset n : Nat) (s : List UInt8) (room : offset + n + 1 ≤ recordSize) :
    Write.Inside (offset, s.take n ++ [0]) := by
  have := List.length_take_le n s
  rw [Write.Inside, List.length_append, List.length_singleton]
  omega

/-! ## Versions -/

/-- What the two versions differ in: where the key and the value of a `set` are
among the tokens of a line, to which length the value is cut, and where the value
of a record is. -/
structure Layout where
  keyIdx : Nat
  valueIdx : Nat
  limit : Nat
  valueOffset : Nat
  valueSize : Nat
  behindState : keySize < valueOffset
  endsRecord : valueOffset + valueSize = recordSize
  limit_lt : limit < valueSize

/-- The parameters that the tokens of a line leave. -/
def Layout.Understands (l : Layout) (interpret : List (List UInt8) → UserCommand) : Prop :=
  ∀ tokens, (interpret tokens).operation = .none ∨
    ((interpret tokens).operation = .set ∧ (interpret tokens).params =
      UserCommand.copy (UserCommand.copy UserCommand.new.params UserCommand.valueOffset
        ((tokens.getD l.valueIdx []).take l.limit)) 0
        ((tokens.getD l.keyIdx []).take (keySize - 1))) ∨
    (((interpret tokens).operation = .get ∨ (interpret tokens).operation = .del) ∧
      (interpret tokens).params =
        UserCommand.copy UserCommand.new.params 0 ((tokens.getD 1 []).take (keySize - 1)))

section Tokens

variable {tokens : List (List UInt8)} (noNul : ∀ t ∈ tokens, 0 ∉ t)

/-- A token, cut to a key. -/
def keyToken (idx : Nat) : Key :=
  ⟨(tokens.getD idx []).take (keySize - 1), getD_noNul noNul idx _,
    Nat.lt_of_le_of_lt (List.length_take_le _ _) (by decide)⟩

/-- The token of the value, cut to a value. -/
def Layout.valueToken (l : Layout) : CText l.valueSize :=
  ⟨(tokens.getD l.valueIdx []).take l.limit, getD_noNul noNul l.valueIdx _,
    Nat.lt_of_le_of_lt (List.length_take_le _ _) l.limit_lt⟩

variable {l : Layout} {interpret : List (List UInt8) → UserCommand}
  (understands : l.Understands interpret)
include understands

theorem keyParam_set (set : (interpret tokens).operation = .set) :
    (interpret tokens).keyParam = (keyToken noNul l.keyIdx).bytes := by
  rw [UserCommand.keyParam]
  rcases understands tokens with none | ⟨_, params⟩ | ⟨get | del, _⟩
  · cases none.symm.trans set
  · rw [params]
    exact cstr_copy_key _ (keyToken noNul l.keyIdx).noNul (keyToken noNul l.keyIdx).fits
  · cases get.symm.trans set
  · cases del.symm.trans set

theorem valueParam_set (set : (interpret tokens).operation = .set) :
    (interpret tokens).valueParam = (l.valueToken noNul).bytes := by
  rw [UserCommand.valueParam]
  rcases understands tokens with none | ⟨_, params⟩ | ⟨get | del, _⟩
  · cases none.symm.trans set
  · have room : (l.valueToken noNul).bytes.length < recordSize - UserCommand.valueOffset := by
      have fits := (l.valueToken noNul).fits
      have ends := l.endsRecord
      have behind := l.behindState
      simp only [UserCommand.valueOffset]
      omega
    rw [params]
    exact cstr_copy_value _ (l.valueToken noNul).noNul room (keyToken noNul l.keyIdx).fits
  · cases get.symm.trans set
  · cases del.symm.trans set

/-- A `get` or a `del`. -/
theorem keyParam_plain (known : (interpret tokens).operation ≠ .none)
    (other : (interpret tokens).operation ≠ .set) :
    (interpret tokens).keyParam = (keyToken noNul 1).bytes := by
  rw [UserCommand.keyParam]
  rcases understands tokens with none | ⟨set, _⟩ | ⟨_, params⟩
  · exact absurd none known
  · exact absurd set other
  · rw [params]
    exact cstr_copy_key _ (keyToken noNul 1).noNul (keyToken noNul 1).fits

end Tokens

section Commands

variable {l : Layout} {interpret : List (List UInt8) → UserCommand} {buff : List UInt8}

/-- The command is the empty one, or that of some tokens without NUL. -/
theorem command_eq (interpret : List (List UInt8) → UserCommand) (buff : List UInt8) :
    (UserCommand.read interpret buff).1 = .new ∨ ∃ tokens, (∀ t ∈ tokens, 0 ∉ t) ∧
      (UserCommand.read interpret buff).1 = interpret tokens := by
  rw [UserCommand.read]
  cases readLine buff maxTries with
  | none => exact Or.inl rfl
  | some r => exact Or.inr ⟨parse r.1, parse_noNul r.1, rfl⟩

variable (understands : l.Understands interpret)
include understands

/-- The key of a command that is executed. -/
theorem command_key (known : (UserCommand.read interpret buff).1.operation ≠ .none) :
    ∃ key : Key, (UserCommand.read interpret buff).1.keyParam = key.bytes := by
  rcases command_eq interpret buff with none | ⟨tokens, noNul, same⟩
  · rw [none] at known
    exact absurd rfl known
  · rw [same] at known ⊢
    by_cases set : (interpret tokens).operation = .set
    · exact ⟨_, keyParam_set noNul understands set⟩
    · exact ⟨_, keyParam_plain noNul understands known set⟩

/-- The value of a `set`. -/
theorem command_value (set : (UserCommand.read interpret buff).1.operation = .set) :
    ∃ value : CText l.valueSize,
      (UserCommand.read interpret buff).1.valueParam = value.bytes := by
  rcases command_eq interpret buff with none | ⟨tokens, noNul, same⟩
  · rw [none] at set
    cases set
  · rw [same] at set ⊢
    exact ⟨_, valueParam_set noNul understands set⟩

end Commands

end Emrakul

/-! ## v1.0 -/

namespace EmrakulV1

open Bytes SharedMemory Emrakul UserCommand

def layout : Layout := ⟨1, 2, 959, 64, 960, by decide, by decide, by decide⟩

/-- The writes of `read_from_buffer` for the tokens of a line. -/
def writes (tokens : List (List UInt8)) : List Write :=
  let key : Write := (0, (tokens.getD 1 []).take (keySize - 1) ++ [0])
  if tokens.length < 2 then []
  else if tokens.getD 0 [] = text "set" then
    if tokens.length < 3 then []
    else [(valueOffset, (tokens.getD 2 []).take (recordSize - keySize - 2) ++ [0]), key]
  else [key]

theorem writes_inside (tokens : List (List UInt8)) : ∀ w ∈ writes tokens, w.Inside := by
  have key := inside_take 0 (keySize - 1) (tokens.getD 1 []) (by decide)
  have value := inside_take valueOffset (recordSize - keySize - 2) (tokens.getD 2 []) (by decide)
  rw [writes]
  split
  · exact nofun
  · split
    · split
      · exact nofun
      · exact List.forall_mem_cons.mpr ⟨value, List.forall_mem_singleton.mpr key⟩
    · exact List.forall_mem_singleton.mpr key

theorem params_eq (tokens : List (List UInt8)) :
    (interpret tokens).params = written UserCommand.new.params (writes tokens) := by
  have other : text "get" ≠ text "set" := by decide
  rw [interpret, writes]
  split
  · rfl
  · by_cases get : tokens.getD 0 [] = text "get"
    · rw [if_pos get, if_neg (by rw [get]; exact other)]
      rfl
    · rw [if_neg get]
      split
      · split <;> rfl
      · split <;> rfl

theorem understands : layout.Understands interpret := by
  intro tokens
  rw [interpret]
  split
  · exact Or.inl rfl
  · split
    · exact Or.inr (Or.inr ⟨Or.inl rfl, rfl⟩)
    · split
      · split
        · exact Or.inl rfl
        · exact Or.inr (Or.inl ⟨rfl, rfl⟩)
      · split
        · exact Or.inr (Or.inr ⟨Or.inr rfl, rfl⟩)
        · exact Or.inl rfl

end EmrakulV1

/-! ## v2.0 -/

namespace EmrakulV2

open Bytes SharedMemory Emrakul UserCommand

def layout : Layout := ⟨2, 3, 955, 68, 956, by decide, by decide, by decide⟩

/-- The writes of `read_from_buffer` for the tokens of a line. For an unknown
operation the key stays empty. -/
def writes (tokens : List (List UInt8)) : List Write :=
  let operationString := tokens.getD 0 []
  let key (idx : Nat) : Write := (0, (tokens.getD idx []).take (keySize - 1) ++ [0])
  if tokens.length < 2 then []
  else if operationString = text "get" then [key 1]
  else if operationString = text "set" then
    if tokens.length < 4 then []
    else [(valueOffset, (tokens.getD 3 []).take (recordSize - keySize - 6) ++ [0]), key 2]
  else if operationString = text "del" then [key 1]
  else [(0, [0])]

theorem writes_inside (tokens : List (List UInt8)) : ∀ w ∈ writes tokens, w.Inside := by
  have key : ∀ idx, Write.Inside (0, (tokens.getD idx []).take (keySize - 1) ++ [0]) :=
    fun idx => inside_take 0 (keySize - 1) (tokens.getD idx []) (by decide)
  have value := inside_take valueOffset (recordSize - keySize - 6) (tokens.getD 3 []) (by decide)
  have empty : Write.Inside (0, [0]) := by
    show 0 + 1 ≤ recordSize
    decide
  rw [writes]
  split
  · exact nofun
  · split
    · exact List.forall_mem_singleton.mpr (key 1)
    · split
      · split
        · exact nofun
        · exact List.forall_mem_cons.mpr ⟨value, List.forall_mem_singleton.mpr (key 2)⟩
      · split
        · exact List.forall_mem_singleton.mpr (key 1)
        · exact List.forall_mem_singleton.mpr empty

theorem params_eq (tokens : List (List UInt8)) :
    (interpret tokens).params = written UserCommand.new.params (writes tokens) := by
  rw [interpret, writes]
  split
  · rfl
  · split
    · rfl
    · split
      · split <;> rfl
      · split <;> rfl

theorem understands : layout.Understands interpret := by
  intro tokens
  rw [interpret]
  split
  · exact Or.inl rfl
  · split
    · exact Or.inr (Or.inr ⟨Or.inl rfl, rfl⟩)
    · split
      · split
        · exact Or.inl rfl
        · exact Or.inr (Or.inl ⟨rfl, rfl⟩)
      · split
        · exact Or.inr (Or.inr ⟨Or.inr rfl, rfl⟩)
        · exact Or.inl rfl

end EmrakulV2
