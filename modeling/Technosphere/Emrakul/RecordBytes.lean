import Technosphere.Emrakul.ClientConnection
import Technosphere.Emrakul.CommandBytes
import Technosphere.Emrakul.PosixHashTable.Sequential
import Technosphere.SharedMemory.StoreTrace

/-!
# The bytes of records

Fixed offsets divide a record into key, state, death time and value. What commands
hand over fits into these fields, and each operation relies on it having been so
for all commands before. `record_bytes_in_bounds` says for every sequence of
commands in both versions that the bytes of records stay well formed and that a
value comes back as it was cut.
-/

namespace Emrakul

open Bytes SharedMemory Prog OpenAddressing

/-! ## Records -/

/-- The key of every filled record ends in front of the state. -/
def KeysEnd {ν : Type} (cells : Nat) (t : Table (List UInt8) ν) : Prop :=
  ∀ c < cells, (t c).mark = .filled → (t c).key.length < keySize

theorem KeysEnd.update {ν : Type} {cells : Nat} {t : Table (List UInt8) ν}
    (h : KeysEnd cells t) (c : Nat) {s : Slot (List UInt8) ν}
    (ends : s.mark = .filled → s.key.length < keySize) :
    KeysEnd cells (Function.update t c s) := by
  intro cell inside filled
  by_cases here : cell = c
  · subst here
    rw [Function.update_self] at filled ⊢
    exact ends filled
  · rw [Function.update_of_ne here] at filled ⊢
    exact h cell inside filled

theorem exists_nul {m : Memory} {a n : Nat} (h : (m.cstr a n).length < n) :
    ∃ i < n, m (a + i) = 0 := by
  induction n generalizing a with
  | zero => exact absurd h (Nat.not_lt_zero _)
  | succ n ih =>
      by_cases zero : m a = 0
      · exact ⟨0, Nat.succ_pos n, zero⟩
      · rw [Memory.cstr, if_neg zero, List.length_cons] at h
        obtain ⟨i, inside, found⟩ := ih (Nat.lt_of_succ_lt_succ h)
        exact ⟨i + 1, Nat.succ_lt_succ inside, by rwa [Nat.add_comm i, ← Nat.add_assoc]⟩

/-- The stores go to one record, and to its state only at the end. -/
def StoresRecord (c : Nat) (stores : List Store) : Prop :=
  ∃ before, stores = before ++ [(recordSize * c + keySize, clFilled)] ∧
    ∀ w ∈ before, recordSize * c ≤ w.1 ∧ w.1 < recordSize * c + recordSize ∧
      w.1 ≠ recordSize * c + keySize

/-- A `set` that has chosen a cell stores a record there, and otherwise nothing. -/
def StoresChosen (cells : Nat) (chosen : Int) (stores : List Store) : Prop :=
  (chosen = -1 ∧ stores = []) ∨ ∃ c < cells, chosen = c ∧ StoresRecord c stores

/-- A version: its layout, how it reads commands and what its table does for them. -/
structure Version (ι : Type) where
  layout : Layout
  interpret : List (List UInt8) → UserCommand
  cells : Nat
  chooseCell : List UInt8 → Prog ι Point Int
  set : UserCommand → Prog ι Point Int
  get : UserCommand → Prog ι Point (Int × List UInt8)

variable {ι : Type}

/-- The command that is read from a buffer. -/
def Version.command (v : Version ι) (buff : List UInt8) : UserCommand :=
  (UserCommand.read v.interpret buff).1

theorem Version.command_key (v : Version ι) {buff : List UInt8}
    (understands : v.layout.Understands v.interpret)
    (known : (v.command buff).operation ≠ .none) :
    ∃ key : Key, (v.command buff).keyParam = key.bytes := Emrakul.command_key understands known

theorem Version.command_value (v : Version ι) {buff : List UInt8}
    (understands : v.layout.Understands v.interpret)
    (set : (v.command buff).operation = .set) :
    ∃ value : CText v.layout.valueSize, (v.command buff).valueParam = value.bytes :=
  Emrakul.command_value understands set

theorem Version.command_of_line (v : Version ι) {buff line rest : List UInt8}
    (taken : readLine buff maxTries = some (line, rest)) :
    v.command buff = v.interpret (parse line) := by
  rw [Version.command, UserCommand.read, taken]

theorem Version.params_of_set (v : Version ι) {buff line rest : List UInt8}
    (understands : v.layout.Understands v.interpret)
    (taken : readLine buff maxTries = some (line, rest))
    (set : (v.command buff).operation = .set) :
    (v.command buff).keyParam = (keyToken (parse_noNul line) v.layout.keyIdx).bytes ∧
      (v.command buff).valueParam = (v.layout.valueToken (parse_noNul line)).bytes := by
  rw [v.command_of_line taken] at set ⊢
  exact ⟨keyParam_set _ understands set, valueParam_set _ understands set⟩

theorem Version.key_of_get (v : Version ι) {buff line rest : List UInt8}
    (understands : v.layout.Understands v.interpret)
    (taken : readLine buff maxTries = some (line, rest))
    (get : (v.command buff).operation = .get) :
    (v.command buff).keyParam = (keyToken (parse_noNul line) 1).bytes := by
  rw [v.command_of_line taken] at get ⊢
  exact keyParam_plain _ understands (ne_of_eq_of_ne get nofun) (ne_of_eq_of_ne get nofun)

/-- What a table guarantees to the commands that come next. -/
structure Version.InBounds (v : Version ι) (table : Memory) : Prop where
  /-- Key and value of a filled record end inside their fields. -/
  terminated : ∀ c < v.cells, markAt table c = .filled →
    (∃ i < keySize, table (recordSize * c + i) = 0) ∧
      ∃ i < v.layout.valueSize, table (recordSize * c + v.layout.valueOffset + i) = 0
  /-- A `set` stores into the record it has chosen. -/
  stores : ∀ buff now, (v.command buff).operation = .set →
    StoresChosen v.cells (exec now (v.chooseCell (v.command buff).keyParam) table).1
      (storeTrace now (v.set (v.command buff)) table)
  /-- A `get` copies no more than there is room for. -/
  copies : ∀ buff now copied table', (v.command buff).operation = .get →
    exec now (v.get (v.command buff)) table = ((0, copied), table') →
    UserCommand.valueOffset + (copied ++ [0]).length ≤ recordSize
  /-- After a `set` a `get` with the same first 62 bytes of the key returns the value. -/
  returns : ∀ buff buff' line line' rest rest' now now' table',
    readLine buff maxTries = some (line, rest) → readLine buff' maxTries = some (line', rest') →
    (v.command buff).operation = .set → (v.command buff').operation = .get →
    ((parse line).getD v.layout.keyIdx []).take 62 = ((parse line').getD 1 []).take 62 →
    exec now (v.set (v.command buff)) table = (0, table') →
    exec now' (v.get (v.command buff')) table' =
      ((0, ((parse line).getD v.layout.valueIdx []).take v.layout.limit), table')

/-- A `set` leaves all bytes outside the record it has chosen as they are. -/
theorem Version.InBounds.elsewhere {v : Version ι} {table : Memory} (h : v.InBounds table)
    {buff : List UInt8} (set : (v.command buff).operation = .set) (now : Int) {x : Nat}
    (outside : ∀ c < v.cells, (exec now (v.chooseCell (v.command buff).keyParam) table).1 = c →
      x < recordSize * c ∨ recordSize * c + recordSize ≤ x) :
    (exec now (v.set (v.command buff)) table).2 x = table x := by
  rw [exec_eq_foldl]
  apply Memory.foldl_apply_outside
  rcases h.stores buff now set with ⟨_, none⟩ | ⟨c, inside, chosen, before, all, record⟩
  · rw [none]
    exact nofun
  · have apart := outside c inside chosen
    rw [all]
    intro w stored
    rcases List.mem_append.mp stored with stored | stored
    · have := record w stored
      omega
    · have room : keySize < recordSize := by decide
      rw [List.mem_singleton.mp stored]
      show recordSize * c + keySize ≠ x
      omega

/-- What fits into the value of a record fits behind the key of a command. -/
theorem room_of_lt {valueSize : Nat} {copied : List UInt8} (room : copied.length < valueSize)
    (fits : UserCommand.valueOffset + valueSize ≤ recordSize) :
    UserCommand.valueOffset + (copied ++ [0]).length ≤ recordSize := by
  rw [List.length_append, List.length_singleton]
  omega

/-- A copy that stays on one side of the state. -/
theorem storesAt_apart {c a : Nat} {bs : List UInt8} (low : recordSize * c ≤ a)
    (high : a + bs.length ≤ recordSize * c + recordSize)
    (apart : a + bs.length ≤ recordSize * c + keySize ∨ recordSize * c + keySize < a) :
    ∀ w ∈ Memory.storesAt a bs, recordSize * c ≤ w.1 ∧ w.1 < recordSize * c + recordSize ∧
      w.1 ≠ recordSize * c + keySize := by
  intro w inside
  have := Memory.mem_storesAt inside
  omega

theorem silent_cellFilled (key : List UInt8) (cell : Nat) :
    (cellFilled key cell : Prog ι Point Bool).Silent :=
  (Silent.fetch _).bind fun _ => .ite (Silent.strcmpEq _ _) (Silent.pure _)

theorem silent_cellFree (cell : Nat) :
    (cellFree cell : Prog ι Point Bool).Silent :=
  (Silent.fetch _).bind fun _ => Silent.pure _

end Emrakul

/-! ## Tables -/

namespace HashTableBase

open SharedMemory Prog OpenAddressing Emrakul

section Trace

variable {g : Geometry} {m : Memory} {now : Int}

theorem silent_chooseCell (key : List UInt8) : (chooseCell g key).Silent := by
  have filled : (findFilled g key).Silent := .find (fun c => silent_cellFilled key c) _ _
  have free : (findFree g key).Silent := .find silent_cellFree _ _
  exact filled.bind fun _ => .ite free (.pure _)

theorem storesRecord_setCell (key : Key) (value : Value) (ttl : Int) (c : Nat) :
    StoresRecord c (storeTrace now (setCell g key.bytes value.bytes ttl c) m) := by
  have hkey := key.fits
  have hvalue := value.fits
  simp only [valueSize] at hvalue
  have last : ∀ m, storeTrace now (do
      unlock (c / g.blockSize) true
      if 0 < ttl then
        scheduleDeletion key.bytes ttl
      pure 0 : Text Int) m = [] := by
    intro m
    by_cases later : 0 < ttl
    · rw [if_pos later]
      rfl
    · rw [if_neg later]
      rfl
  refine ⟨Memory.storesAt (recordSize * c) (key.bytes ++ [0]) ++
    Memory.storesAt (recordSize * c + valueOffset) (value.bytes ++ [0]), ?_, ?_⟩
  · rw [setCell, lock, storeTrace_acquire, storeTrace_strcpyTo, storeTrace_strcpyTo,
      storeTrace_put, last, List.append_assoc]
  · intro w inside
    rcases List.mem_append.mp inside with inside | inside
    · refine storesAt_apart (Nat.le_refl _) ?_ (Or.inl ?_) w inside
      all_goals
        simp only [List.length_append, List.length_singleton, recordSize, keySize] at hkey ⊢
        omega
    · refine storesAt_apart (Nat.le_add_right _ _) ?_ (Or.inr ?_) w inside
      all_goals
        simp only [List.length_append, List.length_singleton, recordSize, keySize, valueOffset]
        omega

/-- What `set` stores. -/
theorem storesChosen_set (key : Key) (value : Value) (ttl : Int) :
    StoresChosen g.tableSize (exec now (chooseCell g key.bytes) m).1
      (storeTrace now (set g key.bytes value.bytes ttl) m) := by
  rw [set, storeTrace_silent_bind (silent_chooseCell key.bytes), exec_chooseCell]
  cases found : place (view m) (order g key.bytes) key.bytes with
  | none => exact Or.inl ⟨rfl, rfl⟩
  | some c =>
      refine Or.inr ⟨c, mem_order.mp (of_place found).1, rfl, ?_⟩
      rw [Scan.index_some, if_pos (Int.natCast_nonneg c), Int.toNat_natCast]
      exact storesRecord_setCell key value ttl c

/-- What holds of the bytes of every table that is reached. -/
structure Formed (g : Geometry) (m : Memory) : Prop where
  sound : Sound g m
  keysEnd : KeysEnd g.tableSize (view m)

theorem Zeroed.formed (h : Zeroed g m) : Formed g m where
  sound := h.stores.sound
  keysEnd c hc filled := by
    have free : (view m c).mark = .free := h.markAt hc
    cases free.symm.trans filled

theorem Formed.set (h : Formed g m) (key : Key) (value : Value) (ttl : Int) :
    Formed g (exec now (set g key.bytes value.bytes ttl) m).2 := by
  rw [exec_set]
  cases place (view m) (order g key.bytes) key.bytes with
  | none => exact h
  | some c =>
      refine ⟨h.sound.writeRecord key value c, ?_⟩
      show KeysEnd _ (view (writeRecord m c key.bytes value.bytes))
      rw [view_writeRecord]
      exact h.keysEnd.update c fun _ => key.fits

theorem Formed.get (h : Formed g m) (key : Key) (value : List UInt8) :
    Formed g (exec now (get g key.bytes value) m).2 := by
  rw [exec_get h.sound]
  cases lookup (view m) (order g key.bytes) key.bytes with
  | none => exact h
  | some c => exact h

theorem Formed.del (h : Formed g m) (key : Key) :
    Formed g (exec now (del g key.bytes) m).2 := by
  rw [exec_del]
  cases lookup (view m) (order g key.bytes) key.bytes with
  | none => exact h
  | some c =>
      refine ⟨h.sound.buryCell c, ?_⟩
      show KeysEnd _ (view (buryCell m c))
      rw [view_buryCell]
      exact h.keysEnd.update c nofun

theorem Formed.terminated (h : Formed g m) {c : Nat} (hc : c < g.tableSize)
    (filled : markAt m c = .filled) : (∃ i < keySize, m (recordSize * c + i) = 0) ∧
      ∃ i < valueSize, m (recordSize * c + valueOffset + i) = 0 :=
  ⟨exists_nul (h.keysEnd c hc filled), exists_nul (h.sound c hc)⟩

/-- What `get` copies fits with its terminator into the value of a record. -/
theorem exec_get_room (h : Sound g m) (key : Key) {value copied : List UInt8} {m' : Memory}
    (found : exec now (get g key.bytes value) m = ((0, copied), m')) :
    copied.length < valueSize := by
  rw [exec_get h] at found
  cases hl : lookup (view m) (order g key.bytes) key.bytes with
  | none =>
      rw [hl] at found
      cases found
  | some c =>
      rw [hl] at found
      cases found
      exact h c (mem_order.mp (mem_of_lookup hl))

/-- A value that was set is what the next `get` of its key returns. -/
theorem exec_get_after_set (h : Formed g m) (key : Key) (value : Value) (ttl : Int)
    {m' : Memory} (done : exec now (set g key.bytes value.bytes ttl) m = (0, m')) {now' : Int}
    (old : List UInt8) :
    exec now' (get g key.bytes old) m' = ((0, value.bytes), m') := by
  have sound : Sound g m' := by
    have kept : Formed g (exec now (set g key.bytes value.bytes ttl) m).2 := h.set key value ttl
    rw [done] at kept
    exact kept.sound
  rw [exec_set] at done
  cases found : place (view m) (order g key.bytes) key.bytes with
  | none =>
      rw [found] at done
      cases done
  | some c =>
      rw [found] at done
      cases done
      have cells := view_writeRecord m c key value
      rw [exec_get sound, cells, lookup_update_place found ⟨rfl, rfl⟩]
      have here := congrArg (fun t => (t c).val) cells
      simp only [view_val, Function.update_self] at here
      show ((0, valueAt (writeRecord m c key.bytes value.bytes) c), _) = _
      rw [here]

end Trace

end HashTableBase

namespace PosixHashTable

open SharedMemory Prog OpenAddressing Emrakul

section Trace

variable {m : Memory} {now : Int}

theorem silent_chooseCell (key : List UInt8) : (chooseCell key).Silent := by
  have filled : (findFilled key).Silent := .find (fun c => silent_cellFilled key c) _ _
  have free : (findFree key).Silent := .find silent_cellFree _ _
  exact filled.bind fun _ => .ite free (.pure _)

theorem storesRecord_setCell (key : Key) (value : Value) (ttl : Int) (c : Nat) :
    StoresRecord c (storeTrace now (setCell key.bytes value.bytes ttl c) m) := by
  have hkey := key.fits
  have hvalue := value.fits
  simp only [valueSize] at hvalue
  refine ⟨Memory.storesAt (recordSize * c) (key.bytes ++ [0]) ++
    (Memory.storesAt (recordSize * c + deathOffset) (intBytes (ttl + now)) ++
      Memory.storesAt (recordSize * c + valueOffset) (value.bytes ++ [0])), ?_, ?_⟩
  · rw [setCell, lock, storeTrace_acquire, storeTrace_strcpyTo, storeTrace_clock,
      storeTrace_memcpyTo, storeTrace_strcpyTo, storeTrace_put, unlock, storeTrace_release,
      storeTrace_pure, List.append_assoc, List.append_assoc]
  · intro w inside
    rcases List.mem_append.mp inside with inside | inside
    · refine storesAt_apart (Nat.le_refl _) ?_ (Or.inl ?_) w inside
      all_goals
        simp only [List.length_append, List.length_singleton, recordSize, keySize] at hkey ⊢
        omega
    rcases List.mem_append.mp inside with inside | inside
    · refine storesAt_apart (Nat.le_add_right _ _) ?_ (Or.inr ?_) w inside
      all_goals
        simp only [intBytes, List.length_cons, List.length_nil, recordSize, keySize, deathOffset]
        omega
    · refine storesAt_apart (Nat.le_add_right _ _) ?_ (Or.inr ?_) w inside
      all_goals
        simp only [List.length_append, List.length_singleton, recordSize, keySize, valueOffset]
        omega

/-- What `set` stores. -/
theorem storesChosen_set (key : Key) (value : Value) (ttl : Int) :
    StoresChosen tableSize (exec now (chooseCell key.bytes) m).1
      (storeTrace now (set key.bytes value.bytes ttl) m) := by
  rw [set, storeTrace_silent_bind (silent_chooseCell key.bytes), exec_chooseCell]
  cases found : place (view m) (order key.bytes) key.bytes with
  | none => exact Or.inl ⟨rfl, rfl⟩
  | some c =>
      refine Or.inr ⟨c, mem_order.mp (of_place found).1, rfl, ?_⟩
      rw [Scan.index_some, if_pos (Int.natCast_nonneg c), Int.toNat_natCast]
      exact storesRecord_setCell key value ttl c

/-- What holds of the bytes of every table that is reached. -/
structure Formed (m : Memory) : Prop where
  sound : Sound m
  keysEnd : KeysEnd tableSize (view m)

theorem Zeroed.formed (h : Zeroed m) : Formed m where
  sound := h.sound
  keysEnd c hc filled := by
    have free : (view m c).mark = .free := h.markAt hc
    cases free.symm.trans filled

theorem Formed.set (h : Formed m) (key : Key) (value : Value) (ttl : Int) :
    Formed (exec now (set key.bytes value.bytes ttl) m).2 := by
  rw [exec_set]
  cases place (view m) (order key.bytes) key.bytes with
  | none => exact h
  | some c =>
      refine ⟨h.sound.writeRecord c key value _, ?_⟩
      show KeysEnd _ (view (writeRecord m c key.bytes value.bytes (ttl + now)))
      rw [view_writeRecord]
      exact h.keysEnd.update c fun _ => key.fits

theorem Formed.get (h : Formed m) (key : Key) (value : List UInt8) :
    Formed (exec now (get key.bytes value) m).2 := by
  rw [exec_get h.sound]
  cases lookup (view m) (order key.bytes) key.bytes with
  | none => exact h
  | some c => exact h

theorem Formed.del (h : Formed m) (key : Key) : Formed (exec now (del key.bytes) m).2 := by
  rw [exec_del]
  cases lookup (view m) (order key.bytes) key.bytes with
  | none => exact h
  | some c =>
      refine ⟨h.sound.buryCell c, ?_⟩
      show KeysEnd _ (view (buryCell m c))
      rw [view_buryCell]
      exact h.keysEnd.update c nofun

theorem Formed.terminated (h : Formed m) {c : Nat} (hc : c < tableSize)
    (filled : markAt m c = .filled) : (∃ i < keySize, m (recordSize * c + i) = 0) ∧
      ∃ i < valueSize, m (recordSize * c + valueOffset + i) = 0 :=
  ⟨exists_nul (h.keysEnd c hc filled), exists_nul (h.sound.terminated c hc)⟩

/-- What `get` copies fits with its terminator into the value of a record. -/
theorem exec_get_room (h : Sound m) (key : Key) {value copied : List UInt8} {m' : Memory}
    (found : exec now (get key.bytes value) m = ((0, copied), m')) :
    copied.length < valueSize := by
  rw [exec_get h] at found
  cases hl : lookup (view m) (order key.bytes) key.bytes with
  | none =>
      rw [hl] at found
      cases found
  | some c =>
      rw [hl] at found
      cases found
      exact h.terminated c (mem_order.mp (mem_of_lookup hl))

/-- A value that was set is what the next `get` of its key returns. -/
theorem exec_get_after_set (h : Formed m) (key : Key) (value : Value) (ttl : Int)
    {m' : Memory} (done : exec now (set key.bytes value.bytes ttl) m = (0, m')) {now' : Int}
    (old : List UInt8) :
    exec now' (get key.bytes old) m' = ((0, value.bytes), m') := by
  have sound : Sound m' := by
    have kept : Formed (exec now (set key.bytes value.bytes ttl) m).2 := h.set key value ttl
    rw [done] at kept
    exact kept.sound
  rw [exec_set] at done
  cases found : place (view m) (order key.bytes) key.bytes with
  | none =>
      rw [found] at done
      cases done
  | some c =>
      rw [found] at done
      cases done
      rw [exec_get sound, view_writeRecord, lookup_update_place found ⟨rfl, rfl⟩]
      show ((0, valueAt (writeRecord m c key.bytes value.bytes (ttl + now)) c), _) = _
      rw [valueAt_writeRecord]

end Trace

end PosixHashTable

/-! ## v1.0 -/

namespace EmrakulV1

open Bytes SharedMemory Prog OpenAddressing Emrakul UserCommand

/-- A buffer that a command is read from, and what `execute_query` depends on besides. -/
structure Input where
  buff : List UInt8
  connection : Nat
  draw : Nat
  status : Int

def Input.command (input : Input) : UserCommand := (readFromBuffer input.buff).1

def Input.query (input : Input) : Query :=
  ⟨input.command, input.connection, input.draw, input.status⟩

/-- The table after commands that were read and executed one after another. -/
def tableAfter (table : Memory) (inputs : List Input) : Memory :=
  (sequential table (inputs.map Input.query)).2

def version : Version (Nat × Bool) where
  layout := layout
  interpret := interpret
  cells := geometry.tableSize
  chooseCell := HashTableBase.chooseCell geometry
  set cmd := HashTableBase.set geometry cmd.keyParam cmd.valueParam 0
  get cmd := HashTableBase.get geometry cmd.keyParam cmd.valueParam

theorem version_set (cmd : UserCommand) :
    version.set cmd = HashTableBase.set geometry cmd.keyParam cmd.valueParam 0 := rfl

theorem version_get (cmd : UserCommand) :
    version.get cmd = HashTableBase.get geometry cmd.keyParam cmd.valueParam := rfl

theorem dispatch_formed {table table' : Memory} {reply : CommandMessage}
    (h : HashTableBase.Formed geometry table) (buff : List UInt8) {msg : CommandMessage}
    (operation : msg.operation = (UserCommand.read interpret buff).1.operation)
    (data : msg.data = (UserCommand.read interpret buff).1.params)
    (executed : dispatchMessage table msg = some (reply, table')) :
    HashTableBase.Formed geometry table' := by
  have hkey : msg.key = (UserCommand.read interpret buff).1.keyParam := by
    rw [CommandMessage.key, data, keyParam]
  have hvalue : msg.value = (UserCommand.read interpret buff).1.valueParam := by
    rw [CommandMessage.value, data, valueParam, valueOffset]
  have runs : msg.operation ≠ .none → (UserCommand.read interpret buff).1.operation ≠ .none := by
    intro other
    rwa [← operation]
  unfold dispatchMessage at executed
  cases known : msg.operation with
  | set =>
      obtain ⟨key, same⟩ :=
        command_key understands (runs (ne_of_eq_of_ne known Operation.noConfusion))
      obtain ⟨value, same'⟩ := command_value understands (operation.symm.trans known)
      rw [known] at executed
      cases executed
      rw [hkey, same, hvalue, same']
      exact h.set key value 0
  | get =>
      obtain ⟨key, same⟩ :=
        command_key understands (runs (ne_of_eq_of_ne known Operation.noConfusion))
      rw [known] at executed
      cases executed
      rw [hkey, same]
      exact h.get key msg.value
  | del =>
      obtain ⟨key, same⟩ :=
        command_key understands (runs (ne_of_eq_of_ne known Operation.noConfusion))
      rw [known] at executed
      cases executed
      rw [hkey, same]
      exact h.del key
  | term =>
      rw [known] at executed
      cases executed
  | none =>
      rw [known] at executed
      cases executed
      exact h

/-- One command, whether a worker executes it or it comes back to the master as it is. -/
theorem executeQuery_formed {table table' : Memory} {response : Nat × List UInt8}
    (h : HashTableBase.Formed geometry table) (input : Input)
    (executed : executeQuery table input.query = some (response, table')) :
    HashTableBase.Formed geometry table' := by
  unfold executeQuery at executed
  split at executed
  · cases executed
    exact h
  split at executed
  · cases executed
    exact h
  · obtain ⟨⟨reply, after⟩, dispatched, same⟩ := Option.map_eq_some_iff.mp executed
    cases same
    exact dispatch_formed h input.buff rfl rfl dispatched

/-- Every table that is reached. -/
theorem formed_tableAfter {table : Memory} (zeroed : HashTableBase.Zeroed geometry table)
    (inputs : List Input) : HashTableBase.Formed geometry (tableAfter table inputs) := by
  rw [tableAfter, sequential]
  refine List.foldlRecOn (motive := fun s : _ × Memory => HashTableBase.Formed geometry s.2) _ _
    zeroed.formed fun s h query inside => ?_
  obtain ⟨input, _, rfl⟩ := List.mem_map.mp inside
  cases executed : executeQuery s.2 input.query with
  | none => exact h
  | some r => exact executeQuery_formed h input executed

theorem inBounds {table : Memory} (h : HashTableBase.Formed geometry table) :
    version.InBounds table where
  terminated c hc filled := h.terminated hc filled
  stores buff now set := by
    obtain ⟨key, same⟩ := version.command_key understands (ne_of_eq_of_ne set nofun)
    obtain ⟨value, same'⟩ := version.command_value understands set
    rw [version_set, same, same']
    exact HashTableBase.storesChosen_set key value 0
  copies buff now copied table' get found := by
    obtain ⟨key, same⟩ := version.command_key understands (ne_of_eq_of_ne get nofun)
    rw [version_get, same] at found
    have room := HashTableBase.exec_get_room h.sound key found
    exact room_of_lt room (by decide)
  returns buff buff' line line' rest rest' now now' table' taken taken' set get same done := by
    obtain ⟨key, value⟩ := version.params_of_set understands taken set
    have key' := version.key_of_get understands taken' get
    have equal : (keyToken (parse_noNul line') 1).bytes =
        (keyToken (parse_noNul line) layout.keyIdx).bytes := same.symm
    rw [version_set, key, value] at done
    rw [version_get, key', equal]
    exact HashTableBase.exec_get_after_set h _ _ 0 done _

end EmrakulV1

/-! ## v2.0 -/

namespace EmrakulV2

open Bytes SharedMemory Prog OpenAddressing Emrakul UserCommand

/-- A buffer that a command is read from, and the time. -/
structure Input where
  buff : List UInt8
  now : Int

/-- The table after commands that were read and executed one after another. -/
def tableAfter (table : Memory) (inputs : List Input) : Memory :=
  inputs.foldl (fun table input =>
    (executeQuery input.now table (readFromBuffer input.buff).1).2) table

def version : Version Nat where
  layout := layout
  interpret := interpret
  cells := PosixHashTable.tableSize
  chooseCell := PosixHashTable.chooseCell
  set cmd := PosixHashTable.set cmd.keyParam cmd.valueParam cmd.ttl
  get cmd := PosixHashTable.get cmd.keyParam cmd.valueParam

theorem version_set (cmd : UserCommand) :
    version.set cmd = PosixHashTable.set cmd.keyParam cmd.valueParam cmd.ttl := rfl

theorem version_get (cmd : UserCommand) :
    version.get cmd = PosixHashTable.get cmd.keyParam cmd.valueParam := rfl

theorem of_snd {P : Memory → Prop} {r : List UInt8 × Memory} {response : List UInt8}
    {table : Memory} (same : r = (response, table)) (h : P table) : P r.2 := by
  rw [same]
  exact h

/-- What holds of the table that a command leaves. -/
theorem executeQuery_table {P : Memory → Prop} {now : Int} {table : Memory} {query : UserCommand}
    (get : query.operation = .get →
      P (exec now (PosixHashTable.get query.keyParam query.valueParam) table).2)
    (set : query.operation = .set →
      P (exec now (PosixHashTable.set query.keyParam query.valueParam query.ttl) table).2)
    (del : query.operation = .del → P (exec now (PosixHashTable.del query.keyParam) table).2)
    (other : P table) : P (executeQuery now table query).2 := by
  cases known : query.operation with
  | get =>
      have pair : ∃ response, executeQuery now table query =
          (response, (exec now (PosixHashTable.get query.keyParam query.valueParam) table).2) := by
        rw [executeQuery, known]
        exact ⟨_, rfl⟩
      obtain ⟨response, same⟩ := pair
      exact of_snd same (get known)
  | set =>
      have pair : ∃ response, executeQuery now table query = (response,
          (exec now (PosixHashTable.set query.keyParam query.valueParam query.ttl) table).2) := by
        rw [executeQuery, known]
        exact ⟨_, rfl⟩
      obtain ⟨response, same⟩ := pair
      exact of_snd same (set known)
  | del =>
      have pair : ∃ response, executeQuery now table query =
          (response, (exec now (PosixHashTable.del query.keyParam) table).2) := by
        rw [executeQuery, known]
        exact ⟨_, rfl⟩
      obtain ⟨response, same⟩ := pair
      exact of_snd same (del known)
  | none =>
      rw [executeQuery, known]
      exact other
  | term =>
      rw [executeQuery, known]
      exact other

theorem executeQuery_formed {table : Memory} (h : PosixHashTable.Formed table) (now : Int)
    (buff : List UInt8) :
    PosixHashTable.Formed (executeQuery now table (version.command buff)).2 := by
  refine executeQuery_table (fun get => ?_) (fun set => ?_) (fun del => ?_) h
  · obtain ⟨key, same⟩ := version.command_key understands (ne_of_eq_of_ne get nofun)
    rw [same]
    exact h.get key _
  · obtain ⟨key, same⟩ := version.command_key understands (ne_of_eq_of_ne set nofun)
    obtain ⟨value, same'⟩ := version.command_value understands set
    rw [same, same']
    exact h.set key value _
  · obtain ⟨key, same⟩ := version.command_key understands (ne_of_eq_of_ne del nofun)
    rw [same]
    exact h.del key

/-- Every table that is reached. -/
theorem formed_tableAfter {table : Memory} (zeroed : PosixHashTable.Zeroed table)
    (inputs : List Input) : PosixHashTable.Formed (tableAfter table inputs) := by
  have run : ∀ table, PosixHashTable.Formed table →
      PosixHashTable.Formed (tableAfter table inputs) := by
    induction inputs with
    | nil => exact fun table h => h
    | cons input inputs ih =>
        intro table h
        exact ih _ (executeQuery_formed h input.now input.buff)
  exact run table zeroed.formed

theorem inBounds {table : Memory} (h : PosixHashTable.Formed table) :
    version.InBounds table where
  terminated c hc filled := h.terminated hc filled
  stores buff now set := by
    obtain ⟨key, same⟩ := version.command_key understands (ne_of_eq_of_ne set nofun)
    obtain ⟨value, same'⟩ := version.command_value understands set
    rw [version_set, same, same']
    exact PosixHashTable.storesChosen_set key value _
  copies buff now copied table' get found := by
    obtain ⟨key, same⟩ := version.command_key understands (ne_of_eq_of_ne get nofun)
    rw [version_get, same] at found
    have room := PosixHashTable.exec_get_room h.sound key found
    exact room_of_lt room (by decide)
  returns buff buff' line line' rest rest' now now' table' taken taken' set get same done := by
    obtain ⟨key, value⟩ := version.params_of_set understands taken set
    have key' := version.key_of_get understands taken' get
    have equal : (keyToken (parse_noNul line') 1).bytes =
        (keyToken (parse_noNul line) layout.keyIdx).bytes := same.symm
    rw [version_set, key, value] at done
    rw [version_get, key', equal]
    exact PosixHashTable.exec_get_after_set h _ _ _ done _

end EmrakulV2

namespace Emrakul

open Bytes

/-- Every buffer is written inside its bounds, and after any commands on a table
of zeros all that is said of the bytes of records holds. -/
theorem record_bytes_in_bounds :
    (∀ buff, ParamsInside EmrakulV1.interpret EmrakulV1.writes buff ∧
      ParamsInside EmrakulV2.interpret EmrakulV2.writes buff) ∧
    (∀ table inputs, HashTableBase.Zeroed EmrakulV1.geometry table →
      EmrakulV1.version.InBounds (EmrakulV1.tableAfter table inputs)) ∧
    ∀ table inputs, PosixHashTable.Zeroed table →
      EmrakulV2.version.InBounds (EmrakulV2.tableAfter table inputs) := by
  refine ⟨fun buff => ⟨?_, ?_⟩, fun table inputs zeroed => ?_, fun table inputs zeroed => ?_⟩
  · exact paramsInside EmrakulV1.writes_inside EmrakulV1.params_eq buff
  · exact paramsInside EmrakulV2.writes_inside EmrakulV2.params_eq buff
  · exact EmrakulV1.inBounds (EmrakulV1.formed_tableAfter zeroed inputs)
  · exact EmrakulV2.inBounds (EmrakulV2.formed_tableAfter zeroed inputs)

/-- After a `set` in both versions. -/
theorem record_bytes_in_bounds_set :
    EmrakulV1.version.InBounds
        (EmrakulV1.tableAfter (fun _ => 0) [⟨text "set d 'a b'\n", 1, 1, 0⟩]) ∧
      EmrakulV2.version.InBounds
        (EmrakulV2.tableAfter (fun _ => 0) [⟨text "set 20 d 'a b'\n", 5⟩]) :=
  ⟨record_bytes_in_bounds.2.1 _ _ fun _ _ => rfl, record_bytes_in_bounds.2.2 _ _ fun _ _ => rfl⟩

end Emrakul
