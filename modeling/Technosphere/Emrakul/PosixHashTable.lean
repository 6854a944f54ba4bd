import Technosphere.CInt
import Technosphere.Emrakul.Record

/-!
# `PosixHashTable`: the shared table of Emrakul DB v2.0

The text of the table operations with their locks, byte by byte. A record is
the key, the state byte, a 4-byte death time and the value; every critical
section is guarded by the semaphore of one segment of 128 cells.

The second half says what each operation does when it runs alone, first on the
bytes and then on the cells that `view` reads from them.
-/

namespace PosixHashTable

open SharedMemory Prog OpenAddressing Emrakul CInt

def valueSize : Nat := 956

/-- The number of cells. -/
def tableSize : Nat := hashtableSegmentSize * hashtableSegmentsCount

/-- The bytes of the whole table. -/
def tableBytes : Nat := recordSize * tableSize

def deathOffset : Nat := keySize + 1
def valueOffset : Nat := keySize + 1 + 4

/-- A value as `UserCommand` hands it over. -/
abbrev Value := CText valueSize

theorem empty_noNul : (0 : UInt8) ∉ [] := List.not_mem_nil

def emptyValue : Value := ⟨[], empty_noNul, by decide⟩
def value1 : Value := ⟨[49], by decide, by decide⟩
def value2 : Value := ⟨[50], by decide, by decide⟩

abbrev Text (α : Type) := Prog Nat Point α

/-! ## Four-byte integers -/

/-- The little-endian bytes of an `int`. -/
def intBytes (x : Int) : List UInt8 :=
  let n := (x % 2 ^ 32).toNat
  [UInt8.ofNat n, UInt8.ofNat (n / 2 ^ 8), UInt8.ofNat (n / 2 ^ 16), UInt8.ofNat (n / 2 ^ 24)]

/-- The `int` whose little-endian bytes these are. -/
def intOfBytes (bytes : List UInt8) : Int :=
  toInt32 (bytes.foldr (fun b n => b.toNat + 2 ^ 8 * n) 0 : Nat)

theorem intOfBytes_intBytes (x : Int) : intOfBytes (intBytes x) = toInt32 x := by
  have hn : (x % 2 ^ 32).toNat < 2 ^ 32 := by omega
  have sum : (intBytes x).foldr (fun b n => b.toNat + 2 ^ 8 * n) 0 = (x % 2 ^ 32).toNat := by
    simp only [intBytes, List.foldr_cons, List.foldr_nil, UInt8.toNat_ofNat']
    omega
  unfold intOfBytes toInt32
  rw [sum, Int.toNat_of_nonneg (by omega)]
  exact_mod_cast Int.emod_bmod x (2 ^ 32)

/-! ## The operations -/

def lock (block : Nat) (point : Point) : Text Unit := acquire block point

def unlock (block : Nat) : Text Unit := release block

section

variable {α : Type} (block : Nat) (point : Point) (f : Unit → Text α) (m : Memory)

@[simp] theorem exec_lock (now : Int) :
    exec now (lock block point >>= f) m = exec now (f ()) m := by
  rw [lock, exec_acquire]

@[simp] theorem exec_unlock (now : Int) :
    exec now (unlock block >>= f) m = exec now (f ()) m := by
  rw [unlock, exec_release]

end

def findFilled (key : List UInt8) : Text Int :=
  Scan.find id hashtableSegmentSize .findFilled (cellFilled key) tableSize (hash tableSize key)

def findFree (key : List UInt8) : Text Int :=
  Scan.find id hashtableSegmentSize .findFree cellFree tableSize (hash tableSize key)

/-- The critical section of `get` on the cell that was found. -/
def getCell (cell : Nat) : Text (Int × List UInt8) := do
  lock (cell / hashtableSegmentSize) (.get cell)
  let copied ← strcpyFrom (recordSize * cell + valueOffset)
    (tableBytes - (recordSize * cell + valueOffset))
  unlock (cell / hashtableSegmentSize)
  pure (0, copied)

/-- `get`: the returned code and the contents of the buffer `value` after the
call, which is written only when the key is found. -/
def get (key value : List UInt8) : Text (Int × List UInt8) := do
  let cellIdx ← findFilled key
  if 0 ≤ cellIdx then
    getCell cellIdx.toNat
  else
    pure (-1, value)

/-- The critical section of `set` on the cell that was chosen. The death time
is summed in 64 bits and stored as an `int`. -/
def setCell (key value : List UInt8) (ttl : Int) (cell : Nat) : Text Int := do
  lock (cell / hashtableSegmentSize) (.set cell)
  strcpyTo (recordSize * cell) key
  let now ← clock
  memcpyTo (recordSize * cell + deathOffset) (intBytes (ttl + now))
  strcpyTo (recordSize * cell + valueOffset) value
  put (recordSize * cell + keySize) clFilled
  unlock (cell / hashtableSegmentSize)
  pure 0

/-- The cell that `set` is going to write: `find_free` is tried when
`find_filled` returned -1. -/
def chooseCell (key : List UInt8) : Text Int := do
  let cellIdx ← findFilled key
  if cellIdx = -1 then
    findFree key
  else
    pure cellIdx

def set (key value : List UInt8) (ttl : Int) : Text Int := do
  let cellIdx ← chooseCell key
  if 0 ≤ cellIdx then
    setCell key value ttl cellIdx.toNat
  else
    pure (-1)

/-- The critical section of `del` on the cell that was found. -/
def delCell (cell : Nat) : Text Int := do
  lock (cell / hashtableSegmentSize) (.del cell)
  put (recordSize * cell + keySize) clRip
  unlock (cell / hashtableSegmentSize)
  pure 0

def del (key : List UInt8) : Text Int := do
  let cellIdx ← findFilled key
  if 0 ≤ cellIdx then
    delCell cellIdx.toNat
  else
    pure (-1)

def getTtl (idx : Nat) : Text Int := do
  lock (idx / hashtableSegmentSize) (.getTtl idx)
  let ttl ← memcpyFrom (recordSize * idx + deathOffset) 4
  unlock (idx / hashtableSegmentSize)
  pure (intOfBytes ttl)

/-- The visit of `collect_garbage` to cell `cur` at time `currentTime`. -/
def collectAt (cur : Nat) (collected currentTime : Int) : Text Int := do
  let expirationTime ← memcpyFrom (recordSize * cur + deathOffset) 4
  if intOfBytes expirationTime ≠ 0 ∧ toInt32 currentTime > intOfBytes expirationTime then
    let mark ← fetch (recordSize * cur + keySize)
    if mark != clRip then
      put (recordSize * cur + keySize) clRip
      pure (collected + 1)
    else
      pure collected
  else
    pure collected

/-- The body of the loop of `collect_garbage`, without the lock hand-over. -/
def collectCell (cur : Nat) (collected : Int) : Text Int := do
  let currentTime ← clock
  collectAt cur collected currentTime

/-- The loop of `collect_garbage` with the semaphore of `block` held, and the
release that follows it. -/
def collectCells : List Nat → (block : Nat) → (collected : Int) → Text Int
  | [], block, collected => do
    unlock block
    pure collected
  | cur :: rest, block, collected => do
    let newBlock := cur / hashtableSegmentSize
    if newBlock ≠ block then
      unlock block
      lock newBlock (.collectGarbage cur)
    let collected ← collectCell cur collected
    collectCells rest newBlock collected

def collectGarbage : Text Int := do
  lock 0 (.collectGarbage 0)
  collectCells (List.range tableSize) 0 0

/-! ## Calls -/

/-- What a worker or the cleaner asks of the table. -/
inductive Call where
  | get (key : Key) (value : List UInt8)
  | set (key : Key) (value : Value) (ttl : Int)
  | del (key : Key)
  | collectGarbage
  deriving DecidableEq

/-- The returned code and, for `get`, the buffer `value` after the call. -/
structure Reply where
  code : Int
  value : List UInt8
  deriving DecidableEq

def code : Call → Text Reply
  | .get key value => do
    let answer ← get key.bytes value
    pure ⟨answer.1, answer.2⟩
  | .set key value ttl => do
    let err ← set key.bytes value.bytes ttl
    pure ⟨err, []⟩
  | .del key => do
    let err ← del key.bytes
    pure ⟨err, []⟩
  | .collectGarbage => do
    let collected ← collectGarbage
    pure ⟨collected, []⟩

/-! ## Cells -/

def deathAt (m : Memory) (c : Nat) : Int :=
  intOfBytes (m.readBytes (recordSize * c + deathOffset) 4)

def valueAt (m : Memory) (c : Nat) : List UInt8 :=
  m.cstr (recordSize * c + valueOffset) valueSize

/-- The table that the bytes encode: every cell with its value and death time. -/
def view (m : Memory) : Table (List UInt8) (List UInt8 × Int) :=
  fun c => ⟨markAt m c, keyAt m c, valueAt m c, deathAt m c⟩

@[simp] theorem view_mark (m : Memory) (c : Nat) : (view m c).mark = markAt m c := rfl

@[simp] theorem view_key (m : Memory) (c : Nat) : (view m c).key = keyAt m c := rfl

@[simp] theorem view_val (m : Memory) (c : Nat) : (view m c).val = (valueAt m c, deathAt m c) := rfl

theorem view_congr {m m' : Memory} {c : Nat} (h : SameCell m m' c) : view m' c = view m c := by
  have hdeath : deathAt m' c = deathAt m c := by
    refine congrArg intOfBytes (Memory.readBytes_congr fun x hx hx' => h x ?_ ?_) <;>
      simp only [deathOffset, keySize, recordSize] at hx hx' ⊢ <;> omega
  have hvalue : valueAt m' c = valueAt m c := by
    refine Memory.cstr_congr fun x hx hx' => h x ?_ ?_ <;>
      simp only [valueOffset, valueSize, keySize, recordSize] at hx hx' ⊢ <;> omega
  rw [view, view, h.markAt, h.keyAt, hvalue, hdeath]

/-- A cell update that only touches the bytes of cell `c`. -/
theorem view_eq_update {m m' : Memory} {c : Nat} {s : Slot (List UInt8) (List UInt8 × Int)}
    (outside : ∀ x, x < recordSize * c ∨ recordSize * c + recordSize ≤ x → m' x = m x)
    (here : view m' c = s) : view m' = Function.update (view m) c s := by
  funext c'
  by_cases hc : c' = c
  · subst hc
    rw [Function.update_self, here]
  · rw [Function.update_of_ne hc, view_congr (sameCell_of_outside hc outside)]

/-- The bytes that `set` leaves in cell `c`. -/
def writeRecord (m : Memory) (c : Nat) (key value : List UInt8) (death : Int) : Memory :=
  Function.update
    (((m.writeBytes (recordSize * c) (key ++ [0])).writeBytes
        (recordSize * c + deathOffset) (intBytes death)).writeBytes
      (recordSize * c + valueOffset) (value ++ [0]))
    (recordSize * c + keySize) clFilled

section WriteRecord

variable (m : Memory) (c : Nat) (key : Key) (value : Value) (death : Int)

theorem writeRecord_outside (x : Nat)
    (h : x < recordSize * c ∨ recordSize * c + recordSize ≤ x) :
    writeRecord m c key.bytes value.bytes death x = m x := by
  have hkey := key.fits
  have hvalue := value.fits
  simp only [keySize] at hkey
  simp only [valueSize] at hvalue
  have hmark : x ≠ recordSize * c + keySize := by
    simp only [recordSize, keySize] at h ⊢
    omega
  rw [writeRecord, Function.update_of_ne hmark]
  simp only [recordSize] at h
  rw [Memory.writeBytes_outside, Memory.writeBytes_outside, Memory.writeBytes_outside]
  all_goals
    simp only [List.length_append, intBytes, List.length_cons, List.length_nil, recordSize,
      valueOffset, deathOffset, keySize]
    omega

theorem keyAt_writeRecord : keyAt (writeRecord m c key.bytes value.bytes death) c = key.bytes := by
  have first : ∀ x, recordSize * c ≤ x → x < recordSize * c + keySize →
      writeRecord m c key.bytes value.bytes death x =
        m.writeBytes (recordSize * c) (key.bytes ++ [0]) x := by
    intro x hx hx'
    have hmark : x ≠ recordSize * c + keySize := by omega
    rw [writeRecord, Function.update_of_ne hmark, Memory.writeBytes_outside,
      Memory.writeBytes_outside]
    all_goals
      simp only [valueOffset, deathOffset]
      omega
  rw [keyAt, Memory.cstr_congr first]
  exact Memory.cstr_writeBytes m _ _ _ key.noNul key.fits

omit key value in
/-- The death time stays when the value and the state are written behind and before it. -/
theorem deathAt_writeValue (bytes : List UInt8) :
    deathAt (Function.update
      ((m.writeBytes (recordSize * c + deathOffset) (intBytes death)).writeBytes
        (recordSize * c + valueOffset) bytes) (recordSize * c + keySize) clFilled) c =
      toInt32 death := by
  have second : ∀ x, recordSize * c + deathOffset ≤ x → x < recordSize * c + deathOffset + 4 →
      Function.update
        ((m.writeBytes (recordSize * c + deathOffset) (intBytes death)).writeBytes
          (recordSize * c + valueOffset) bytes) (recordSize * c + keySize) clFilled x =
        m.writeBytes (recordSize * c + deathOffset) (intBytes death) x := by
    intro x hx hx'
    simp only [deathOffset] at hx hx'
    have hmark : x ≠ recordSize * c + keySize := by omega
    rw [Function.update_of_ne hmark, Memory.writeBytes_outside]
    simp only [valueOffset]
    omega
  rw [deathAt, Memory.readBytes_congr second, ← intOfBytes_intBytes]
  exact congrArg intOfBytes (Memory.readBytes_writeBytes _ _ (intBytes death))

theorem deathAt_writeRecord :
    deathAt (writeRecord m c key.bytes value.bytes death) c = toInt32 death :=
  deathAt_writeValue _ c death _

theorem valueAt_writeRecord :
    valueAt (writeRecord m c key.bytes value.bytes death) c = value.bytes := by
  have third : ∀ x, recordSize * c + valueOffset ≤ x →
      x < recordSize * c + valueOffset + valueSize →
      writeRecord m c key.bytes value.bytes death x =
        ((m.writeBytes (recordSize * c) (key.bytes ++ [0])).writeBytes
            (recordSize * c + deathOffset) (intBytes death)).writeBytes
          (recordSize * c + valueOffset) (value.bytes ++ [0]) x := by
    intro x hx hx'
    simp only [valueOffset] at hx hx'
    have hmark : x ≠ recordSize * c + keySize := by omega
    rw [writeRecord, Function.update_of_ne hmark]
  rw [valueAt, Memory.cstr_congr third]
  exact Memory.cstr_writeBytes _ _ _ _ value.noNul value.fits

theorem view_writeRecord :
    view (writeRecord m c key.bytes value.bytes death) =
      Function.update (view m) c ⟨.filled, key.bytes, value.bytes, toInt32 death⟩ := by
  apply view_eq_update (writeRecord_outside m c key value death)
  have hmark : markAt (writeRecord m c key.bytes value.bytes death) c = .filled := by
    rw [markAt, writeRecord, Function.update_self, markOf_filled]
  rw [view, hmark, keyAt_writeRecord, valueAt_writeRecord, deathAt_writeRecord]

end WriteRecord

/-- The bytes after cell `c` was marked `CL_RIP`. -/
def buryCell (m : Memory) (c : Nat) : Memory :=
  Function.update m (recordSize * c + keySize) clRip

theorem buryCell_of_ne {m : Memory} {c x : Nat} (h : x ≠ recordSize * c + keySize) :
    buryCell m c x = m x :=
  Function.update_of_ne h _ _

theorem view_buryCell (m : Memory) (c : Nat) :
    view (buryCell m c) = Function.update (view m) c (view m c).bury := by
  apply view_eq_update
  · intro x h
    apply buryCell_of_ne
    simp only [recordSize, keySize] at h ⊢
    omega
  · have hmark : markAt (buryCell m c) c = .rip := by
      rw [markAt, buryCell, Function.update_self, markOf_rip]
    have hkey : keyAt (buryCell m c) c = keyAt m c :=
      Memory.cstr_congr fun x _ hx' => buryCell_of_ne (by omega)
    have hvalue : valueAt (buryCell m c) c = valueAt m c :=
      Memory.cstr_congr fun x hx _ => buryCell_of_ne (by simp only [valueOffset] at hx; omega)
    have hdeath : deathAt (buryCell m c) c = deathAt m c :=
      congrArg intOfBytes <| Memory.readBytes_congr fun x hx _ =>
        buryCell_of_ne (by simp only [deathOffset] at hx; omega)
    rw [view, hmark, hkey, hvalue, hdeath]
    rfl

end PosixHashTable
