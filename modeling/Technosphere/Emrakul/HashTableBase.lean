import Technosphere.Emrakul.Record

/-!
# `HashTableBase`: the table of Emrakul DB v1.0

The table is parameterised by its geometry. Its locks are virtual: a worker
counts shared and exclusive holders of a segment in one semaphore, so an
acquisition names the segment and whether it is exclusive. Records have no
death time, and `schedule_deletion` does nothing.
-/

namespace HashTableBase

open SharedMemory Prog OpenAddressing Emrakul

def valueSize : Nat := 960

def valueOffset : Nat := keySize + 1

/-- The arguments of the constructor, for a table that is not empty. The code
computes cells and byte offsets as `int`s, which are exact while the table has
fewer than `2 ^ 31` bytes; here they are natural numbers. -/
structure Geometry where
  nBlocks : Nat
  blockSize : Nat
  nBlocks_pos : 0 < nBlocks
  blockSize_pos : 0 < blockSize

/-- The number of cells. -/
def Geometry.tableSize (g : Geometry) : Nat := g.nBlocks * g.blockSize

/-- The bytes of the whole table. -/
def Geometry.tableBytes (g : Geometry) : Nat := recordSize * g.tableSize

theorem Geometry.tableSize_pos (g : Geometry) : 0 < g.tableSize :=
  Nat.mul_pos g.nBlocks_pos g.blockSize_pos

/-- A table of one cell. -/
def smallest : Geometry := ⟨1, 1, by decide, by decide⟩

abbrev Value := CText valueSize

/-- A segment and whether it is taken for writing. -/
abbrev Text (α : Type) := Prog (Nat × Bool) Point α

/-! ## The operations -/

def lock (block : Nat) (exclusive : Bool) (point : Point) : Text Unit :=
  acquire (block, exclusive) point

def unlock (block : Nat) (exclusive : Bool) : Text Unit := release (block, exclusive)

section

variable {α : Type} (block : Nat) (exclusive : Bool) (point : Point) (f : Unit → Text α)
variable (m : Memory)

@[simp] theorem exec_lock (now : Int) :
    exec now (lock block exclusive point >>= f) m = exec now (f ()) m := by
  rw [lock, exec_acquire]

@[simp] theorem exec_unlock (now : Int) :
    exec now (unlock block exclusive >>= f) m = exec now (f ()) m := by
  rw [unlock, exec_release]

end

def scheduleDeletion (_key : List UInt8) (_ttl : Int) : Text Unit := pure ()

variable (g : Geometry)

def findFilled (key : List UInt8) : Text Int :=
  Scan.find (fun block => (block, false)) g.blockSize .findFilled (cellFilled key) g.tableSize
    (hash g.tableSize key)

def findFree (key : List UInt8) : Text Int :=
  Scan.find (fun block => (block, false)) g.blockSize .findFree cellFree g.tableSize
    (hash g.tableSize key)

/-- The critical section of `get` on the cell that was found. -/
def getCell (cell : Nat) : Text (Int × List UInt8) := do
  lock (cell / g.blockSize) false (.get cell)
  let copied ← strcpyFrom (recordSize * cell + valueOffset)
    (g.tableBytes - (recordSize * cell + valueOffset))
  unlock (cell / g.blockSize) false
  pure (0, copied)

/-- `get`: the returned code and the contents of the buffer `value` after it. -/
def get (key value : List UInt8) : Text (Int × List UInt8) := do
  let cellIdx ← findFilled g key
  if 0 ≤ cellIdx then
    getCell g cellIdx.toNat
  else
    pure (-1, value)

/-- The critical section of `set` on the cell that was chosen, and what follows it. -/
def setCell (key value : List UInt8) (ttl : Int) (cell : Nat) : Text Int := do
  lock (cell / g.blockSize) true (.set cell)
  strcpyTo (recordSize * cell) key
  strcpyTo (recordSize * cell + valueOffset) value
  put (recordSize * cell + keySize) clFilled
  unlock (cell / g.blockSize) true
  if 0 < ttl then
    scheduleDeletion key ttl
  pure 0

/-- The cell that `set` is going to write. -/
def chooseCell (key : List UInt8) : Text Int := do
  let cellIdx ← findFilled g key
  if cellIdx = -1 then
    findFree g key
  else
    pure cellIdx

def set (key value : List UInt8) (ttl : Int) : Text Int := do
  let cellIdx ← chooseCell g key
  if 0 ≤ cellIdx then
    setCell g key value ttl cellIdx.toNat
  else
    pure (-1)

/-- The critical section of `del` on the cell that was found. -/
def delCell (cell : Nat) : Text Int := do
  lock (cell / g.blockSize) true (.del cell)
  put (recordSize * cell + keySize) clRip
  unlock (cell / g.blockSize) true
  pure 0

def del (key : List UInt8) : Text Int := do
  let cellIdx ← findFilled g key
  if 0 ≤ cellIdx then
    delCell g cellIdx.toNat
  else
    pure (-1)

/-! ## Calls -/

inductive Call where
  | get (key : Key) (value : List UInt8)
  | set (key : Key) (value : Value) (ttl : Int)
  | del (key : Key)
  deriving DecidableEq

/-- The returned code and, for `get`, the buffer `value` after the call. -/
structure Reply where
  code : Int
  value : List UInt8
  deriving DecidableEq

def code : Call → Text Reply
  | .get key value => do
    let answer ← get g key.bytes value
    pure ⟨answer.1, answer.2⟩
  | .set key value ttl => do
    let err ← set g key.bytes value.bytes ttl
    pure ⟨err, []⟩
  | .del key => do
    let err ← del g key.bytes
    pure ⟨err, []⟩

/-! ## Cells -/

def valueAt (m : Memory) (c : Nat) : List UInt8 :=
  m.cstr (recordSize * c + valueOffset) valueSize

/-- The table that the bytes encode. -/
def view (m : Memory) : Table (List UInt8) (List UInt8) :=
  fun c => ⟨markAt m c, keyAt m c, valueAt m c⟩

@[simp] theorem view_mark (m : Memory) (c : Nat) : (view m c).mark = markAt m c := rfl

@[simp] theorem view_key (m : Memory) (c : Nat) : (view m c).key = keyAt m c := rfl

@[simp] theorem view_val (m : Memory) (c : Nat) : (view m c).val = valueAt m c := rfl

theorem view_congr {m m' : Memory} {c : Nat} (h : SameCell m m' c) : view m' c = view m c := by
  have hvalue : valueAt m' c = valueAt m c := by
    refine Memory.cstr_congr fun x hx hx' => h x ?_ ?_ <;>
      simp only [valueOffset, valueSize, keySize, recordSize] at hx hx' ⊢ <;> omega
  rw [view, view, h.markAt, h.keyAt, hvalue]

/-- A cell update that only touches the bytes of cell `c`. -/
theorem view_eq_update {m m' : Memory} {c : Nat} {s : Slot (List UInt8) (List UInt8)}
    (outside : ∀ x, x < recordSize * c ∨ recordSize * c + recordSize ≤ x → m' x = m x)
    (here : view m' c = s) : view m' = Function.update (view m) c s := by
  funext c'
  by_cases hc : c' = c
  · subst hc
    rw [Function.update_self, here]
  · rw [Function.update_of_ne hc, view_congr (sameCell_of_outside hc outside)]

/-- The bytes that `set` leaves in cell `c`. -/
def writeRecord (m : Memory) (c : Nat) (key value : List UInt8) : Memory :=
  Function.update
    ((m.writeBytes (recordSize * c) (key ++ [0])).writeBytes
      (recordSize * c + valueOffset) (value ++ [0]))
    (recordSize * c + keySize) clFilled

theorem writeRecord_outside (m : Memory) (c : Nat) (key : Key) (value : Value) (x : Nat)
    (h : x < recordSize * c ∨ recordSize * c + recordSize ≤ x) :
    writeRecord m c key.bytes value.bytes x = m x := by
  have hkey := key.fits
  have hvalue := value.fits
  simp only [keySize] at hkey
  simp only [valueSize] at hvalue
  have hmark : x ≠ recordSize * c + keySize := by
    simp only [recordSize, keySize] at h ⊢
    omega
  rw [writeRecord, Function.update_of_ne hmark, Memory.writeBytes_outside,
    Memory.writeBytes_outside]
  all_goals
    simp only [List.length_append, List.length_cons, List.length_nil, recordSize, valueOffset,
      keySize] at h ⊢
    omega

theorem view_writeRecord (m : Memory) (c : Nat) (key : Key) (value : Value) :
    view (writeRecord m c key.bytes value.bytes) =
      Function.update (view m) c ⟨.filled, key.bytes, value.bytes⟩ := by
  apply view_eq_update (writeRecord_outside m c key value)
  have mark : markAt (writeRecord m c key.bytes value.bytes) c = .filled := by
    rw [markAt, writeRecord, Function.update_self, markOf_filled]
  have first : ∀ x, recordSize * c ≤ x → x < recordSize * c + keySize →
      writeRecord m c key.bytes value.bytes x =
        m.writeBytes (recordSize * c) (key.bytes ++ [0]) x := by
    intro x hx hx'
    have hmark : x ≠ recordSize * c + keySize := by omega
    rw [writeRecord, Function.update_of_ne hmark, Memory.writeBytes_outside]
    simp only [valueOffset]
    omega
  have second : ∀ x, recordSize * c + valueOffset ≤ x →
      x < recordSize * c + valueOffset + valueSize →
      writeRecord m c key.bytes value.bytes x =
        (m.writeBytes (recordSize * c) (key.bytes ++ [0])).writeBytes
          (recordSize * c + valueOffset) (value.bytes ++ [0]) x := by
    intro x hx hx'
    have hmark : x ≠ recordSize * c + keySize := by
      simp only [valueOffset] at hx
      omega
    rw [writeRecord, Function.update_of_ne hmark]
  rw [view, mark, keyAt, valueAt, Memory.cstr_congr first, Memory.cstr_congr second,
    Memory.cstr_writeBytes _ _ _ _ key.noNul key.fits,
    Memory.cstr_writeBytes _ _ _ _ value.noNul value.fits]

/-- The bytes after cell `c` was marked `CL_RIP`. -/
def buryCell (m : Memory) (c : Nat) : Memory :=
  Function.update m (recordSize * c + keySize) clRip

theorem view_buryCell (m : Memory) (c : Nat) :
    view (buryCell m c) = Function.update (view m) c (view m c).bury := by
  have elsewhere : ∀ x, x ≠ recordSize * c + keySize → buryCell m c x = m x :=
    fun x h => Function.update_of_ne h _ _
  apply view_eq_update
  · intro x h
    apply elsewhere x
    simp only [recordSize, keySize] at h ⊢
    omega
  · have mark : markAt (buryCell m c) c = .rip := by
      rw [markAt, buryCell, Function.update_self, markOf_rip]
    have key : keyAt (buryCell m c) c = keyAt m c :=
      Memory.cstr_congr fun x _ hx' => elsewhere x (by omega)
    have value : valueAt (buryCell m c) c = valueAt m c :=
      Memory.cstr_congr fun x hx _ => elsewhere x (by simp only [valueOffset] at hx; omega)
    rw [view, mark, key, value]
    rfl

end HashTableBase
