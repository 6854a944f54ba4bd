import Technosphere.SharedMemory.CString
import Technosphere.SharedMemory.Scan

/-!
# Records and hashing, common to both versions of Emrakul DB

Both tables consist of cells of `recordSize` bytes. A cell starts with its key;
the byte at offset `keySize` is its state and what follows differs between the
versions. The two copies of the hash function, and of the conditions that the
scanning loops test, are the same text and are modelled once.

`markAt` and `keyAt` read a cell of the raw bytes. The effect of each test is
stated through them, which is all that the scanning loops depend on.
-/

namespace Emrakul

open SharedMemory Prog OpenAddressing

def keySize : Nat := 63
def recordSize : Nat := 1024
def hashtableSegmentsCount : Nat := 8
def hashtableSegmentSize : Nat := 128
def workerProcessesCount : Nat := 4

theorem hashtableSegmentSize_pos : 0 < hashtableSegmentSize := by decide

def clFree : UInt8 := 0
def clFilled : UInt8 := 1
def clRip : UInt8 := 2

/-- A key as `UserCommand` hands it over: it fits in front of the state byte. -/
abbrev Key := CText keySize

/-! ## Murmurhash3 x86-32 -/

def rotl32 (x r : UInt32) : UInt32 := (x <<< r) ||| (x >>> (32 - r))

def fmix32 (h : UInt32) : UInt32 :=
  let h := h ^^^ (h >>> 16)
  let h := h * 0x85ebca6b
  let h := h ^^^ (h >>> 13)
  let h := h * 0xc2b2ae35
  h ^^^ (h >>> 16)

def c1 : UInt32 := 0xcc9e2d51
def c2 : UInt32 := 0x1b873593

/-- The four bytes of a block as the little-endian word that `getblock` reads. -/
def getblock (b₀ b₁ b₂ b₃ : UInt8) : UInt32 :=
  b₀.toUInt32 ||| (b₁.toUInt32 <<< 8) ||| (b₂.toUInt32 <<< 16) ||| (b₃.toUInt32 <<< 24)

/-- The loop over whole blocks, and the bytes left over. -/
def hashBody (h1 : UInt32) : List UInt8 → UInt32 × List UInt8
  | b₀ :: b₁ :: b₂ :: b₃ :: rest =>
    let k1 := rotl32 (getblock b₀ b₁ b₂ b₃ * c1) 15 * c2
    hashBody (rotl32 (h1 ^^^ k1) 13 * 5 + 0xe6546b64) rest
  | tail => (h1, tail)

/-- The `switch` over the bytes left over; its cases fall through. -/
def hashTail (h1 : UInt32) : List UInt8 → UInt32
  | [] => h1
  | tail =>
    let k1 := if 2 < tail.length then (tail.getD 2 0).toUInt32 <<< 16 else 0
    let k1 := if 1 < tail.length then k1 ^^^ ((tail.getD 1 0).toUInt32 <<< 8) else k1
    let k1 := k1 ^^^ (tail.getD 0 0).toUInt32
    h1 ^^^ (rotl32 (k1 * c1) 15 * c2)

/-- The hash of a key before it is reduced to a cell index. -/
def murmur (key : List UInt8) : UInt32 :=
  let body := hashBody 0 key
  fmix32 (hashTail body.1 body.2 ^^^ UInt32.ofNat key.length)

/-- `hash`: the index at which probing for `key` starts. -/
def hash (tableSize : Nat) (key : List UInt8) : Nat :=
  (murmur key).toNat % tableSize

theorem hash_lt {tableSize : Nat} (h : 0 < tableSize) (key : List UInt8) :
    hash tableSize key < tableSize :=
  Nat.mod_lt _ h

/-- `"d"` and `"o"`, two keys with the same hash in a table of 1024 cells. -/
def keyD : Key := ⟨[100], by decide, by decide⟩
def keyO : Key := ⟨[111], by decide, by decide⟩

example : hash 1024 keyD.bytes = 115 ∧ hash 1024 keyO.bytes = 115 := by decide

/-! ## Cells of the raw memory -/

def markOf (b : UInt8) : Mark :=
  if b = clFree then .free else if b = clFilled then .filled else .rip

@[simp] theorem markOf_free : markOf clFree = .free := rfl
@[simp] theorem markOf_filled : markOf clFilled = .filled := rfl
@[simp] theorem markOf_rip : markOf clRip = .rip := rfl

theorem markOf_eq_free {b : UInt8} : markOf b = .free ↔ b = clFree := by
  unfold markOf
  split
  · simp [*]
  · split <;> simp_all

theorem markOf_eq_filled {b : UInt8} : markOf b = .filled ↔ b = clFilled := by
  unfold markOf
  split
  · simp [*, clFree, clFilled]
  · split <;> simp [*]

/-- The state of cell `c`. -/
def markAt (m : Memory) (c : Nat) : Mark := markOf (m (recordSize * c + keySize))

/-- The key of cell `c`. -/
def keyAt (m : Memory) (c : Nat) : List UInt8 := m.cstr (recordSize * c) keySize

/-- The bytes of cell `c` are the same in both memories. -/
def SameCell (m m' : Memory) (c : Nat) : Prop :=
  ∀ x, recordSize * c ≤ x → x < recordSize * c + recordSize → m' x = m x

theorem SameCell.markAt {m m' : Memory} {c : Nat} (h : SameCell m m' c) :
    markAt m' c = markAt m c :=
  congrArg markOf (h _ (Nat.le_add_right _ _) (by simp [keySize, recordSize]))

theorem SameCell.keyAt {m m' : Memory} {c : Nat} (h : SameCell m m' c) :
    keyAt m' c = keyAt m c :=
  Memory.cstr_congr fun x hx hx' => h x hx (by simp only [keySize, recordSize] at hx' ⊢; omega)

/-- Writes that stay inside one cell leave every other cell alone. -/
theorem sameCell_of_outside {m m' : Memory} {c c' : Nat} (hne : c' ≠ c)
    (h : ∀ x, x < recordSize * c ∨ recordSize * c + recordSize ≤ x → m' x = m x) :
    SameCell m m' c' := by
  intro x hx hx'
  apply h x
  simp only [recordSize] at hx hx' ⊢
  omega

/-! ## What the scanning loops test -/

/-- Where a process waits for a semaphore, named after the function and the
cell its next critical section starts with. -/
inductive Point where
  | findFilled (cell : Nat)
  | findFree (cell : Nat)
  | get (cell : Nat)
  | set (cell : Nat)
  | del (cell : Nat)
  | getTtl (cell : Nat)
  | collectGarbage (cell : Nat)
  deriving DecidableEq, Repr

variable {ι : Type}

/-- The condition of `find_filled`. The key is compared only in a filled cell. -/
def cellFilled (key : List UInt8) (cell : Nat) : Prog ι Point Bool := do
  let mark ← fetch (recordSize * cell + keySize)
  if mark == clFilled then
    strcmpEq (recordSize * cell) key
  else
    pure false

/-- The condition of `find_free`. -/
def cellFree (cell : Nat) : Prog ι Point Bool := do
  let mark ← fetch (recordSize * cell + keySize)
  pure (mark == clFree)

theorem cellFilled_plain (key : List UInt8) (cell : Nat) :
    (cellFilled key cell : Prog ι Point Bool).Plain :=
  (Plain.fetch _).bind fun _ => .ite (Plain.strcmpEq _ _) (Plain.pure _)

theorem cellFree_plain (cell : Nat) : (cellFree cell : Prog ι Point Bool).Plain :=
  (Plain.fetch _).bind fun _ => Plain.pure _

/-- Cell `c` is filled and its key is `key`. -/
def filledAt (m : Memory) (key : List UInt8) (c : Nat) : Bool :=
  decide (markAt m c = .filled ∧ keyAt m c = key)

def freeAt (m : Memory) (c : Nat) : Bool := decide (markAt m c = .free)

theorem exec_cellFilled (now : Int) (m : Memory) (key : Key) (cell : Nat) :
    exec now (cellFilled key.bytes cell : Prog ι Point Bool) m =
      (filledAt m key.bytes cell, m) := by
  have hkey : m.strEq (recordSize * cell) key.bytes = decide (keyAt m cell = key.bytes) := by
    rw [Bool.eq_iff_iff, decide_eq_true_iff]
    exact Memory.strEq_iff key.noNul key.fits
  rw [cellFilled, exec_fetch, exec_ite, exec_strcmpEq, hkey, filledAt, markAt]
  by_cases hm : m (recordSize * cell + keySize) = clFilled
  · simp [hm]
  · simp [hm, mt markOf_eq_filled.mp hm]

theorem exec_cellFree (now : Int) (m : Memory) (cell : Nat) :
    exec now (cellFree cell : Prog ι Point Bool) m = (freeAt m cell, m) := by
  have hmark : (m (recordSize * cell + keySize) == clFree) = freeAt m cell := by
    rw [Bool.eq_iff_iff, beq_iff_eq, freeAt, decide_eq_true_iff, markAt, markOf_eq_free]
  rw [cellFree, exec_fetch, exec_pure, hmark]

end Emrakul
