import Technosphere.Emrakul.HashTableBase
import Technosphere.Transition

/-!
# The table of v1.0 is a bounded map

What one call does when it runs alone, for every geometry, and from it what
any history of calls leaves. The table refuses a `set` only when the key is
absent and no cell is free.
-/

namespace HashTableBase

open SharedMemory Prog OpenAddressing Emrakul Transition

variable (g : Geometry)

/-- The order in which cells are probed for `key`. -/
def order (key : List UInt8) : List Nat := probeOrder g.tableSize (hash g.tableSize key)

variable {g}

theorem mem_order {key : List UInt8} {c : Nat} : c ∈ order g key ↔ c < g.tableSize :=
  mem_probeOrder (Nat.le_of_lt (hash_lt g.tableSize_pos key))

/-! ## One call -/

section OneCall

variable {m : Memory} {now : Int}

theorem exec_findFilled (key : Key) :
    exec now (findFilled g key.bytes) m =
      (Scan.index (lookup (view m) (order g key.bytes) key.bytes), m) :=
  Scan.exec_find (fun c => exec_cellFilled now m key c) (hash_lt g.tableSize_pos _)

theorem exec_findFree (key : List UInt8) :
    exec now (findFree g key) m = (Scan.index (vacancy (view m) (order g key)), m) :=
  Scan.exec_find (fun c => exec_cellFree now m c) (hash_lt g.tableSize_pos _)

/-- Every value ends inside its field. -/
def Sound (g : Geometry) (m : Memory) : Prop :=
  ∀ c < g.tableSize, (valueAt m c).length < valueSize

theorem Sound.writeRecord (h : Sound g m) (key : Key) (value : Value) (c : Nat) :
    Sound g (writeRecord m c key.bytes value.bytes) := by
  intro c' hc'
  have cell := congrArg (fun t => (t c').val) (view_writeRecord m c key value)
  simp only [view_val] at cell
  rw [cell]
  by_cases e : c' = c
  · rw [e, Function.update_self]
    exact value.fits
  · rw [Function.update_of_ne e]
    exact h c' hc'

theorem Sound.buryCell (h : Sound g m) (c : Nat) : Sound g (buryCell m c) := by
  intro c' hc'
  have cell := congrArg (fun t => (t c').val) (view_buryCell m c)
  simp only [view_val] at cell
  rw [cell]
  by_cases e : c' = c
  · subst e
    rw [Function.update_self]
    exact h c' hc'
  · rw [Function.update_of_ne e]
    exact h c' hc'

theorem exec_getCell (h : Sound g m) {c : Nat} (hc : c < g.tableSize) :
    exec now (getCell g c) m = ((0, valueAt m c), m) := by
  have value : m.cstr (recordSize * c + valueOffset)
      (g.tableBytes - (recordSize * c + valueOffset)) = valueAt m c := by
    apply Memory.cstr_eq_of_lt (h c hc)
    simp only [Geometry.tableBytes, recordSize, valueOffset, valueSize, keySize]
    omega
  rw [getCell, exec_lock, exec_bind_of now (exec_strcpyFrom now m _ _), exec_unlock, exec_pure,
    value]

theorem exec_setCell (key : Key) (value : Value) (ttl : Int) (c : Nat) :
    exec now (setCell g key.bytes value.bytes ttl c) m =
      (0, writeRecord m c key.bytes value.bytes) := by
  rw [setCell, exec_lock, exec_bind_of now (exec_strcpyTo now m _ _),
    exec_bind_of now (exec_strcpyTo now _ _ _), exec_put, exec_unlock]
  split
  · rw [scheduleDeletion, pure_bind, exec_pure, writeRecord]
  · rw [exec_pure, writeRecord]

theorem exec_delCell (c : Nat) : exec now (delCell g c) m = (0, buryCell m c) := by
  rw [delCell, exec_lock, exec_put, exec_unlock, exec_pure, buryCell]

theorem exec_get (h : Sound g m) (key : Key) (value : List UInt8) :
    exec now (get g key.bytes value) m =
      match lookup (view m) (order g key.bytes) key.bytes with
      | some c => ((0, valueAt m c), m)
      | none => ((-1, value), m) := by
  rw [get, exec_bind_of now (exec_findFilled key)]
  cases hl : lookup (view m) (order g key.bytes) key.bytes with
  | none => rw [Scan.index_none, if_neg (by decide), exec_pure]
  | some c =>
      have hc : c < g.tableSize := mem_order.mp (mem_of_lookup hl)
      rw [Scan.index_some, if_pos (Int.natCast_nonneg c), Int.toNat_natCast, exec_getCell h hc]

theorem exec_chooseCell (key : Key) :
    exec now (chooseCell g key.bytes) m =
      (Scan.index (place (view m) (order g key.bytes) key.bytes), m) := by
  rw [chooseCell, exec_bind_of now (exec_findFilled key), place]
  cases lookup (view m) (order g key.bytes) key.bytes with
  | none => rw [Scan.index_none, if_pos rfl, exec_findFree, Option.none_or]
  | some c => rw [Scan.index_some, if_neg (by omega), exec_pure, Option.some_or, Scan.index_some]

theorem exec_set (key : Key) (value : Value) (ttl : Int) :
    exec now (set g key.bytes value.bytes ttl) m =
      match place (view m) (order g key.bytes) key.bytes with
      | some c => (0, writeRecord m c key.bytes value.bytes)
      | none => (-1, m) := by
  rw [set, exec_bind_of now (exec_chooseCell key)]
  cases place (view m) (order g key.bytes) key.bytes with
  | none => rw [Scan.index_none, if_neg (by decide), exec_pure]
  | some c =>
      rw [Scan.index_some, if_pos (Int.natCast_nonneg c), Int.toNat_natCast, exec_setCell]

theorem exec_del (key : Key) :
    exec now (del g key.bytes) m =
      match lookup (view m) (order g key.bytes) key.bytes with
      | some c => (0, buryCell m c)
      | none => (-1, m) := by
  rw [del, exec_bind_of now (exec_findFilled key)]
  cases lookup (view m) (order g key.bytes) key.bytes with
  | none => rw [Scan.index_none, if_neg (by decide), exec_pure]
  | some c =>
      rw [Scan.index_some, if_pos (Int.natCast_nonneg c), Int.toNat_natCast, exec_delCell]

end OneCall

/-! ## The stored map -/

abbrev Entries := List UInt8 → Option (List UInt8)

/-- The bytes `m` store the map `M`. -/
structure Stores (g : Geometry) (m : Memory) (M : Entries) : Prop where
  sound : Sound g m
  represents : Represents (view m) g.tableSize M

/-- All bytes of the table are zero. -/
def Zeroed (g : Geometry) (m : Memory) : Prop := ∀ x < g.tableBytes, m x = 0

/-- Some cell of the table is free. -/
def Vacant (g : Geometry) (m : Memory) : Prop := ∃ c < g.tableSize, markAt m c = .free

/-- What a call does to the map. -/
def Meets (M : Entries) : Call → Reply → Entries → Prop
  | .get key value, r, M' =>
    r = (match M key.bytes with | some stored => ⟨0, stored⟩ | none => ⟨-1, value⟩) ∧ M' = M
  | .set key value _, r, M' =>
    r = ⟨0, []⟩ ∧ M' = Function.update M key.bytes (some value.bytes) ∨ r = ⟨-1, []⟩ ∧ M' = M
  | .del key, r, M' =>
    r = ⟨if (M key.bytes).isSome then 0 else -1, []⟩ ∧ M' = Function.update M key.bytes none

theorem Zeroed.markAt {m : Memory} (h : Zeroed g m) {c : Nat} (hc : c < g.tableSize) :
    markAt m c = .free := by
  have hx : recordSize * c + keySize < g.tableBytes := by
    simp only [Geometry.tableBytes, recordSize, keySize]
    omega
  rw [Emrakul.markAt, h _ hx]
  rfl

theorem Zeroed.stores {m : Memory} (h : Zeroed g m) : Stores g m fun _ => none where
  sound c hc := by
    have hx : recordSize * c + valueOffset < g.tableBytes := by
      simp only [Geometry.tableBytes, recordSize, valueOffset, keySize]
      omega
    rw [valueAt, show valueSize = 959 + 1 from rfl, Memory.cstr, if_pos (h _ hx)]
    decide
  represents := .of_no_record fun c hc hfilled => by
    rw [view_mark, h.markAt hc] at hfilled
    cases hfilled

namespace Stores

variable {m : Memory} {M : Entries} {now : Int}

theorem writeRecord (h : Stores g m M) (key : Key) (value : Value) {c : Nat}
    (hc : c < g.tableSize)
    (fit : (view m c).Holds key.bytes ∨ ((view m c).mark ≠ .filled ∧ M key.bytes = none)) :
    Stores g (writeRecord m c key.bytes value.bytes)
      (Function.update M key.bytes (some value.bytes)) where
  sound := h.sound.writeRecord key value c
  represents := by
    rw [view_writeRecord]
    exact h.represents.write hc fit

theorem buryCell (h : Stores g m M) {key : List UInt8} {c : Nat} (hc : c < g.tableSize)
    (hk : (view m c).Holds key) : Stores g (buryCell m c) (Function.update M key none) where
  sound := h.sound.buryCell c
  represents := by
    rw [view_buryCell]
    exact h.represents.bury hc hk

end Stores

end HashTableBase
