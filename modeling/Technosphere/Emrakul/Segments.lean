import Mathlib.Data.Set.Basic
import Technosphere.Emrakul.Record
import Technosphere.SharedMemory.Ownership.Probes

/-!
# Tables of records under segment semaphores

Both versions guard the cells of a table by one semaphore for each segment. The
protocol of such a table says what may happen to a cell while its segment is
free: its value stays and it does not become filled, or a whole value of the
set `W` is written. So whoever once saw a filled cell finds a whole value there
at any later time.
-/

namespace Emrakul

open SharedMemory Prog OpenAddressing

/-- A table of `count * seg` records whose values lie behind the state byte. -/
structure Segmented (ι : Type) extends Semaphores ι where
  seg : Nat
  valueOffset : Nat
  valueSize : Nat
  seg_pos : 0 < seg
  weight_pos : ∀ i, 0 < weight i
  weight_le : ∀ i, weight i ≤ permits
  behind : keySize < valueOffset
  fills : valueOffset + valueSize = recordSize

namespace Segmented

variable {ι : Type} (T : Segmented ι)

def cells : Nat := T.count * T.seg

/-- The value in cell `c`. -/
def valueAt (m : Memory) (c : Nat) : List UInt8 :=
  m.cstr (recordSize * c + T.valueOffset) T.valueSize

/-- Every filled cell has a value that ends inside its record. -/
def RecordsEnd (m : Memory) : Prop :=
  ∀ c < T.cells, markAt m c = .filled → (T.valueAt m c).length < T.valueSize

/-- The semaphore of the byte at an address. -/
def guard (a : Nat) : Nat := a / recordSize / T.seg

/-- What may happen to a cell while nobody holds its segment exclusively. -/
def Kept (W : Set (List UInt8)) (m m' : Memory) (c : Nat) : Prop :=
  (T.valueAt m' c = T.valueAt m c ∧ (markAt m' c = .filled → markAt m c = .filled)) ∨
    T.valueAt m' c ∈ W

variable {T} {W : Set (List UInt8)} {m m' : Memory}

theorem valueAt_congr {c : Nat} (same : ∀ x, recordSize * c + keySize < x →
    x < recordSize * c + recordSize → m' x = m x) : T.valueAt m' c = T.valueAt m c := by
  have behind := T.behind
  have fills := T.fills
  exact Memory.cstr_congr fun x low high => same x (by omega) (by omega)

theorem Kept.of_same {c : Nat} (h : SameCell m m' c) : T.Kept W m m' c :=
  Or.inl ⟨valueAt_congr fun x low high => h x (by omega) high, fun filled => h.markAt ▸ filled⟩

theorem Kept.trans {m'' : Memory} {c : Nat} (h : T.Kept W m m' c) (h' : T.Kept W m' m'' c) :
    T.Kept W m m'' c := by
  rcases h' with ⟨value', filled'⟩ | new
  · rcases h with ⟨value, filled⟩ | new
    · exact Or.inl ⟨value'.trans value, fun later => filled (filled' later)⟩
    · exact Or.inr (value' ▸ new)
  · exact Or.inr new

theorem guard_of_cell {c a : Nat} (h : recordSize * c ≤ a) (h' : a < recordSize * c + recordSize) :
    T.guard a = c / T.seg := by
  have cell : a / recordSize = c := by
    simp only [recordSize] at h h' ⊢
    omega
  rw [guard, cell]

theorem lt_of_cell {c a : Nat} (hc : c < T.cells) (h : a < recordSize * c + recordSize) :
    a < recordSize * T.cells := by
  have next : recordSize * (c + 1) ≤ recordSize * T.cells := Nat.mul_le_mul_left _ hc
  rw [Nat.mul_add, Nat.mul_one] at next
  exact Nat.lt_of_lt_of_le h next

theorem segment_lt {c : Nat} (hc : c < T.cells) : c / T.seg < T.count :=
  (Nat.div_lt_iff_lt_mul T.seg_pos).mpr hc

variable (T)

/-- The protocol of the table. -/
def protocol (W : Set (List UInt8)) (strict : Prop) : Protocol ι where
  toSemaphores := T.toSemaphores
  guard := T.guard
  size := recordSize * T.cells
  strict := strict
  Rely k m m' := ∀ c < T.cells, c / T.seg = k → T.Kept W m m' c
  rely_refl _ _ _ _ _ := .of_same fun _ _ _ => rfl
  rely_trans h h' c hc hk := (h c hc hk).trans (h' c hc hk)
  rely_congr := by
    intro k m m₁ m₂ agree h c hc hk
    refine (h c hc hk).trans (.of_same fun a low high => ?_)
    exact (agree a (lt_of_cell hc high) ((guard_of_cell low high).trans hk)).symm
  weight_pos := T.weight_pos
  weight_le := T.weight_le

variable {T} {strict : Prop} {i : ι}

/-- A hold of a segment guards all bytes of its cells. -/
theorem guards_cell {c : Nat} (hc : c < T.cells) (hi : T.index i = c / T.seg) {a : Nat}
    (h : recordSize * c ≤ a) (h' : a < recordSize * c + recordSize) :
    (T.protocol W strict).guards i a :=
  ⟨lt_of_cell hc h', (guard_of_cell h h').trans hi.symm⟩

/-- A change of one cell is a change of its segment. -/
theorem rely_of_cell {c k : Nat} (outside : ∀ x, x < recordSize * c ∨
    recordSize * c + recordSize ≤ x → m' x = m x) (kept : T.Kept W m m' c) :
    (T.protocol W strict).Rely k m m' := by
  intro c' _ _
  by_cases e : c' = c
  · exact e ▸ kept
  · exact .of_same (sameCell_of_outside e outside)

theorem rely_bury (c k : Nat) :
    (T.protocol W strict).Rely k m (Function.update m (recordSize * c + keySize) clRip) := by
  have elsewhere : ∀ x, x ≠ recordSize * c + keySize →
      Function.update m (recordSize * c + keySize) clRip x = m x :=
    fun x ne => Function.update_of_ne ne _ _
  apply rely_of_cell (c := c)
  · intro x out
    apply elsewhere x
    simp only [recordSize, keySize] at out ⊢
    omega
  · refine Or.inl ⟨valueAt_congr fun x low _ => elsewhere x (by omega), fun filled => ?_⟩
    rw [markAt, Function.update_self] at filled
    cases filled

/-! ## What a filled cell holds later -/

variable (T) in
/-- The whole values: those that are written, and those of the filled cells at
the start. -/
def whole (W : Set (List UInt8)) (m₀ : Memory) : Set (List UInt8) :=
  {v | v ∈ W ∨ ∃ c < T.cells, markAt m₀ c = .filled ∧ v = T.valueAt m₀ c}

/-- Once a cell was seen filled, it holds a whole value ever after. -/
theorem whole_of_filled {m₀ : Memory} {c : Nat} (hc : c < T.cells)
    (before : (T.protocol W strict).Rely (c / T.seg) m₀ m) (filled : markAt m c = .filled)
    (after : (T.protocol W strict).Rely (c / T.seg) m m') : T.valueAt m' c ∈ T.whole W m₀ := by
  have value : T.valueAt m c ∈ T.whole W m₀ := by
    rcases before c hc rfl with ⟨same, was⟩ | new
    · exact Or.inr ⟨c, hc, was filled, same⟩
    · exact Or.inl new
  rcases after c hc rfl with ⟨same, _⟩ | new
  · exact same ▸ value
  · exact Or.inl new

/-! ## The tests of the probes -/

variable {sem : Nat → ι}

theorem confined_cellFilled {c : Nat} (key : Key) {R W' : Nat → Prop}
    (cell : ∀ a, recordSize * c ≤ a → a < recordSize * c + recordSize → R a) :
    Protocol.Confined R W' (cellFilled key.bytes c : Prog ι Point Bool) m := by
  have fits := key.fits
  simp only [keySize] at fits
  apply Protocol.Confined.fetch (cell _ (by omega) (by simp only [recordSize, keySize]; omega))
  split
  · apply Protocol.confined_strcmpEq
    intro x low high
    exact cell x low (by simp only [recordSize] at high ⊢; omega)
  · trivial

theorem tests_cellFilled (index : ∀ k < T.count, T.index (sem k) = k) (key : Key) :
    (T.protocol W strict).Tests sem T.seg T.cells (cellFilled key.bytes)
      fun m c => filledAt m key.bytes c where
  index := index
  inside _ hc := segment_lt hc
  confined _ hc _ :=
    confined_cellFilled key fun _ low high => guards_cell hc (index _ (segment_lt hc)) low high
  alone c m := exec_cellFilled 0 m key c

theorem tests_cellFree (index : ∀ k < T.count, T.index (sem k) = k) :
    (T.protocol W strict).Tests sem T.seg T.cells cellFree freeAt where
  index := index
  inside _ hc := segment_lt hc
  confined _ hc _ := by
    refine ⟨guards_cell hc (index _ (segment_lt hc)) (Nat.le_add_right _ _) ?_, trivial⟩
    simp only [recordSize, keySize]
    omega
  alone c m := exec_cellFree 0 m c

/-! ## Rules -/

section Rules

variable {S : Ghost ι → Nat → Prop} {g : Ghost ι} {m₀ : Memory}

theorem wp_findFilled (index : ∀ k < T.count, T.index (sem k) = k) (key : Key) {h : Nat}
    (hh : h < T.cells) (free : g.held = none) :
    (T.protocol W strict).wp S
      (Scan.find sem T.seg Point.findFilled (cellFilled key.bytes) T.cells h) g fun idx g' =>
        (T.protocol W strict).Later g g' ∧ g'.held = none ∧ (idx = -1 ∨ ∃ c < T.cells, idx = c ∧
          filledAt (g'.seen (c / T.seg)) key.bytes c = true) :=
  Protocol.wp_find (tests_cellFilled index key) hh free

theorem wp_findFree (index : ∀ k < T.count, T.index (sem k) = k) {h : Nat} (hh : h < T.cells)
    (free : g.held = none) :
    (T.protocol W strict).wp S (Scan.find sem T.seg Point.findFree cellFree T.cells h) g
      fun idx g' => g'.held = none ∧ (idx = -1 ∨ ∃ c < T.cells, idx = c) := by
  apply Protocol.wp_mono (Protocol.wp_find (tests_cellFree index) hh free)
  rintro idx g' ⟨_, free', rfl | ⟨c, hc, rfl, _⟩⟩
  · exact ⟨free', Or.inl rfl⟩
  · exact ⟨free', Or.inr ⟨c, hc, rfl⟩⟩

/-- An address in cell `c`. -/
def InCell (c a : Nat) : Prop := recordSize * c ≤ a ∧ a < recordSize * c + recordSize

/-- Text that stays in a cell whose segment is held exclusively. -/
theorem wp_inCell {π α : Type} {c : Nat} (hc : c < T.cells) {p : Prog ι π α}
    {Q : α → Ghost ι → Prop} (confined : Protocol.Confined (InCell c) (InCell c) p m)
    (held : g.held = some (i, m)) (here : T.index i = c / T.seg) (all : T.weight i = T.permits)
    (allowed : ∀ g a, S g a) (post : Q (exec 0 p m).1 (g.write i (exec 0 p m).2)) :
    (T.protocol W strict).wp S p g Q := by
  have guarded : ∀ a, InCell c a → (T.protocol W strict).guards i a := by
    rintro a ⟨low, high⟩
    exact guards_cell hc here low high
  exact Protocol.wp_confined confined held guarded
    (fun a inside => ⟨guarded a inside, all, fun _ => allowed _ _⟩) post

/-- Copying the value of a cell that was once seen filled gives a whole value. -/
theorem wp_copyValue {π : Type} (short : ∀ v ∈ W, v.length < T.valueSize)
    (ends : strict → T.RecordsEnd m₀) {c : Nat} (hc : c < T.cells)
    {Q : List UInt8 → Ghost ι → Prop} (held : g.held = some (i, m)) (here : T.index i = c / T.seg)
    (before : (T.protocol W strict).Rely (c / T.seg) m₀ m') (filled : markAt m' c = .filled)
    (after : (T.protocol W strict).Rely (c / T.seg) m' m)
    (post : ∀ v, (strict → v ∈ T.whole W m₀) → Q v g) :
    (T.protocol W strict).wp S (strcpyFrom (recordSize * c + T.valueOffset)
      (recordSize * T.cells - (recordSize * c + T.valueOffset)) : Prog ι π _) g Q := by
  by_cases guarded : strict
  · have whole : T.valueAt m c ∈ T.whole W m₀ := whole_of_filled hc before filled after
    have fits : (T.valueAt m c).length < T.valueSize := by
      rcases whole with new | ⟨c', hc', was, same⟩
      · exact short _ new
      · rw [same]
        exact ends guarded c' hc' was
    have fills := T.fills
    have room : T.valueSize ≤ recordSize * T.cells - (recordSize * c + T.valueOffset) := by
      have next : recordSize * (c + 1) ≤ recordSize * T.cells := Nat.mul_le_mul_left _ hc
      rw [Nat.mul_add, Nat.mul_one] at next
      omega
    refine Protocol.wp_confined (W := fun _ => False)
      (Protocol.confined_strcpyFrom fits room fun x low high => ?_) held
      (fun a inside => inside) (fun a never => never.elim) ?_
    · exact guards_cell hc here (by omega) (by omega)
    · rw [exec_strcpyFrom, Memory.cstr_eq_of_lt fits room, Ghost.write, ← held]
      exact post _ fun _ => whole
  · exact Protocol.wp_strcpyFrom_any guarded held fun v =>
      post v fun holds => absurd holds guarded

end Rules

end Segmented

end Emrakul
