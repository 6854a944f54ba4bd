import Technosphere.Emrakul.PosixHashTable

/-!
# The table of v2.0, one call after another

`exec_get`, `exec_set`, `exec_del` and `exec_collectGarbage` say what one call
returns and leaves when nothing runs beside it, in terms of the cells. `Sound`
is the part of the invariant that concerns bytes: strings end inside their
field, and only a record that was written has a death time.

Over them stands a map with expiry. `Stores` connects it to the bytes and
`exec_meets` shows that every call does what the map says.
-/

namespace PosixHashTable

open SharedMemory Prog OpenAddressing Emrakul CInt

/-- The order in which cells are probed for `key`. -/
def order (key : List UInt8) : List Nat := probeOrder tableSize (hash tableSize key)

theorem tableSize_pos : 0 < tableSize := by decide

theorem mem_order {key : List UInt8} {c : Nat} : c ∈ order key ↔ c < tableSize :=
  mem_probeOrder (Nat.le_of_lt (hash_lt tableSize_pos key))

theorem exec_findFilled (now : Int) (m : Memory) (key : Key) :
    exec now (findFilled key.bytes) m =
      (Scan.index (lookup (view m) (order key.bytes) key.bytes), m) :=
  Scan.exec_find (fun c => exec_cellFilled now m key c) (hash_lt tableSize_pos _)

theorem exec_findFree (now : Int) (m : Memory) (key : List UInt8) :
    exec now (findFree key) m = (Scan.index (vacancy (view m) (order key)), m) :=
  Scan.exec_find (fun c => exec_cellFree now m c) (hash_lt tableSize_pos _)

/-- Every value ends inside its field. -/
def Terminated (m : Memory) : Prop := ∀ c < tableSize, (valueAt m c).length < valueSize

/-- The bytes of the table are well formed. -/
structure Sound (m : Memory) : Prop where
  terminated : Terminated m
  states : ∀ c < tableSize, m (recordSize * c + keySize) ≤ clRip
  freeDeath : ∀ c < tableSize, markAt m c = .free → deathAt m c = 0

/-- All bytes of the table are zero. -/
def Zeroed (m : Memory) : Prop := ∀ x < tableBytes, m x = 0

theorem Zeroed.markAt {m : Memory} (h : Zeroed m) {c : Nat} (hc : c < tableSize) :
    markAt m c = .free := by
  have hx : recordSize * c + keySize < tableBytes := by
    simp only [tableSize, tableBytes, hashtableSegmentSize, hashtableSegmentsCount, recordSize,
      keySize] at hc ⊢
    omega
  rw [Emrakul.markAt, h _ hx]
  rfl

theorem Zeroed.sound {m : Memory} (h : Zeroed m) : Sound m where
  terminated c hc := by
    have hx : recordSize * c + valueOffset < tableBytes := by
      simp only [tableSize, tableBytes, hashtableSegmentSize, hashtableSegmentsCount, recordSize,
        valueOffset, keySize] at hc ⊢
      omega
    rw [valueAt, show valueSize = 955 + 1 from rfl, Memory.cstr, if_pos (h _ hx)]
    decide
  states c hc := by
    have hx : recordSize * c + keySize < tableBytes := by
      simp only [tableSize, tableBytes, hashtableSegmentSize, hashtableSegmentsCount, recordSize,
        keySize] at hc ⊢
      omega
    rw [h _ hx]
    decide
  freeDeath c hc _ := by
    have zero : m.readBytes (recordSize * c + deathOffset) 4 =
        Memory.readBytes (fun _ => 0) (recordSize * c + deathOffset) 4 := by
      refine Memory.readBytes_congr fun x _ hx' => h x ?_
      simp only [tableSize, tableBytes, hashtableSegmentSize, hashtableSegmentsCount, recordSize,
        deathOffset, keySize] at hc hx' ⊢
      omega
    rw [deathAt, zero]
    simp only [Memory.readBytes]
    decide +kernel

theorem Sound.writeRecord {m : Memory} (h : Sound m) (c : Nat) (key : Key) (value : Value)
    (death : Int) : Sound (writeRecord m c key.bytes value.bytes death) := by
  have cells := view_writeRecord m c key value death
  constructor
  · intro c' hc'
    by_cases e : c' = c
    · rw [e, valueAt_writeRecord]
      exact value.fits
    · have same := congrFun cells c'
      rw [Function.update_of_ne e] at same
      have hv := congrArg (fun s => s.val.1) same
      simp only [view_val] at hv
      rw [hv]
      exact h.terminated c' hc'
  · intro c' hc'
    by_cases e : c' = c
    · rw [e, PosixHashTable.writeRecord, Function.update_self]
      decide
    · rw [writeRecord_outside m c key value death]
      · exact h.states c' hc'
      · simp only [recordSize, keySize]
        omega
  · intro c' hc' hfree
    by_cases e : c' = c
    · subst e
      have hm := congrArg Slot.mark (congrFun cells c')
      rw [Function.update_self, view_mark, hfree] at hm
      cases hm
    · have same := congrFun cells c'
      rw [Function.update_of_ne e] at same
      have hm := congrArg Slot.mark same
      have hd := congrArg (fun s => s.val.2) same
      simp only [view_mark, view_val] at hm hd
      rw [hd]
      exact h.freeDeath c' hc' (hm ▸ hfree)

theorem Sound.buryCell {m : Memory} (h : Sound m) (c : Nat) : Sound (buryCell m c) := by
  have cells := view_buryCell m c
  have vals : ∀ c', (view (PosixHashTable.buryCell m c) c').val = (view m c').val := by
    intro c'
    rw [cells]
    by_cases e : c' = c
    · rw [e, Function.update_self]
      rfl
    · rw [Function.update_of_ne e]
  constructor
  · intro c' hc'
    have hv := congrArg Prod.fst (vals c')
    simp only [view_val] at hv
    rw [hv]
    exact h.terminated c' hc'
  · intro c' hc'
    by_cases e : recordSize * c' + keySize = recordSize * c + keySize
    · rw [PosixHashTable.buryCell, e, Function.update_self]
      decide
    · rw [buryCell_of_ne e]
      exact h.states c' hc'
  · intro c' hc' hfree
    have hd := congrArg Prod.snd (vals c')
    simp only [view_val] at hd
    rw [hd]
    apply h.freeDeath c' hc'
    have hm := congrArg Slot.mark (congrFun cells c')
    rw [view_mark, hfree] at hm
    by_cases e : c' = c
    · rw [e, Function.update_self] at hm
      cases hm
    · rw [Function.update_of_ne e] at hm
      exact hm.symm

/-! ## One call -/

variable {m : Memory} {now : Int}

/-- Reading to the end of the table stops inside the value field. -/
theorem cstr_value (h : Terminated m) {c : Nat} (hc : c < tableSize) :
    m.cstr (recordSize * c + valueOffset) (tableBytes - (recordSize * c + valueOffset)) =
      valueAt m c := by
  apply Memory.cstr_eq_of_lt (h c hc)
  simp only [tableSize, tableBytes, hashtableSegmentSize, hashtableSegmentsCount, recordSize,
    valueOffset, valueSize, keySize] at hc ⊢
  omega

theorem exec_getCell (h : Sound m) {c : Nat} (hc : c < tableSize) :
    exec now (getCell c) m = ((0, valueAt m c), m) := by
  rw [getCell, exec_lock, exec_bind_of now (exec_strcpyFrom now m _ _), exec_unlock, exec_pure,
    cstr_value h.terminated hc]

theorem exec_setCell (key : Key) (value : Value) (ttl : Int) (c : Nat) :
    exec now (setCell key.bytes value.bytes ttl c) m =
      (0, writeRecord m c key.bytes value.bytes (ttl + now)) := by
  rw [setCell, exec_lock, exec_bind_of now (exec_strcpyTo now m _ _), exec_clock,
    exec_bind_of now (exec_memcpyTo now _ _ _), exec_bind_of now (exec_strcpyTo now _ _ _),
    exec_put, exec_unlock, exec_pure, writeRecord]

theorem exec_delCell (c : Nat) : exec now (delCell c) m = (0, buryCell m c) := by
  rw [delCell, exec_lock, exec_put, exec_unlock, exec_pure, buryCell]

theorem exec_get (h : Sound m) (key : Key) (value : List UInt8) :
    exec now (get key.bytes value) m =
      match lookup (view m) (order key.bytes) key.bytes with
      | some c => ((0, valueAt m c), m)
      | none => ((-1, value), m) := by
  rw [get, exec_bind_of now (exec_findFilled now m key)]
  cases hl : lookup (view m) (order key.bytes) key.bytes with
  | none => rw [Scan.index_none, if_neg (by decide), exec_pure]
  | some c =>
      have hc : c < tableSize := mem_order.mp (mem_of_lookup hl)
      rw [Scan.index_some, if_pos (Int.natCast_nonneg c), Int.toNat_natCast, exec_getCell h hc]

theorem Zeroed.lookup (h : Zeroed m) (key : List UInt8) : lookup (view m) (order key) key = none :=
  lookup_of_free (hash_lt tableSize_pos key) fun _ hc => h.markAt hc

/-- A zeroed table takes a record at the hash of its key. -/
theorem Zeroed.place (h : Zeroed m) (key : List UInt8) :
    place (view m) (order key) key = some (hash tableSize key) :=
  place_of_free (hash_lt tableSize_pos key) fun _ hc => h.markAt hc

theorem exec_chooseCell (key : Key) :
    exec now (chooseCell key.bytes) m =
      (Scan.index (place (view m) (order key.bytes) key.bytes), m) := by
  rw [chooseCell, exec_bind_of now (exec_findFilled now m key), place]
  cases lookup (view m) (order key.bytes) key.bytes with
  | none => rw [Scan.index_none, if_pos rfl, exec_findFree, Option.none_or]
  | some c => rw [Scan.index_some, if_neg (by omega), exec_pure, Option.some_or, Scan.index_some]

theorem exec_set (key : Key) (value : Value) (ttl : Int) :
    exec now (set key.bytes value.bytes ttl) m =
      match place (view m) (order key.bytes) key.bytes with
      | some c => (0, writeRecord m c key.bytes value.bytes (ttl + now))
      | none => (-1, m) := by
  rw [set, exec_bind_of now (exec_chooseCell key)]
  cases place (view m) (order key.bytes) key.bytes with
  | none => rw [Scan.index_none, if_neg (by decide), exec_pure]
  | some c =>
      rw [Scan.index_some, if_pos (Int.natCast_nonneg c), Int.toNat_natCast, exec_setCell]

theorem exec_del (key : Key) :
    exec now (del key.bytes) m =
      match lookup (view m) (order key.bytes) key.bytes with
      | some c => (0, buryCell m c)
      | none => (-1, m) := by
  rw [del, exec_bind_of now (exec_findFilled now m key)]
  cases lookup (view m) (order key.bytes) key.bytes with
  | none => rw [Scan.index_none, if_neg (by decide), exec_pure]
  | some c =>
      rw [Scan.index_some, if_pos (Int.natCast_nonneg c), Int.toNat_natCast, exec_delCell]

/-- The expiry test of `collect_garbage` at clock `now`. -/
def expired (now : Int) (m : Memory) (c : Nat) : Prop :=
  deathAt m c ≠ 0 ∧ deathAt m c < toInt32 now

/-- `collect_garbage` marks cell `c` when it comes to it. -/
def collects (now : Int) (m : Memory) (c : Nat) : Prop :=
  expired now m c ∧ m (recordSize * c + keySize) ≠ clRip

instance (now : Int) (m : Memory) (c : Nat) : Decidable (expired now m c) :=
  inferInstanceAs (Decidable (_ ∧ _))

instance (now : Int) (m : Memory) (c : Nat) : Decidable (collects now m c) :=
  inferInstanceAs (Decidable (_ ∧ _))

theorem collectAt_plain (cur : Nat) (collected currentTime : Int) :
    (collectAt cur collected currentTime).Plain := by
  unfold collectAt
  apply (Plain.memcpyFrom _ _).bind
  intro death
  split
  · apply (Plain.fetch _).bind
    intro mark
    split
    · exact (Plain.put _ _).bind fun _ => Plain.pure _
    · exact Plain.pure _
  · exact Plain.pure _

theorem exec_collectCell (cur : Nat) (collected : Int) :
    exec now (collectCell cur collected) m =
      if collects now m cur then (collected + 1, buryCell m cur) else (collected, m) := by
  have test : (intOfBytes (m.readBytes (recordSize * cur + deathOffset) 4) ≠ 0 ∧
      toInt32 now > intOfBytes (m.readBytes (recordSize * cur + deathOffset) 4)) =
      expired now m cur := rfl
  rw [collectCell, exec_clock, collectAt, exec_bind_of now (exec_memcpyFrom now m _ _), exec_ite]
  by_cases he : expired now m cur
  · rw [if_pos (test ▸ he), exec_fetch, exec_ite, exec_put, exec_pure, exec_pure]
    by_cases hm : m (recordSize * cur + keySize) = clRip
    · rw [if_neg (by simp [hm]), if_neg (fun h : collects now m cur => h.2 hm)]
    · rw [if_pos (by simp [hm]), if_pos (show collects now m cur from ⟨he, hm⟩), buryCell]
  · rw [if_neg (test ▸ he), exec_pure, if_neg (fun h : collects now m cur => he h.1)]

/-- The effect of the loop of `collect_garbage` on the cells it goes over. -/
def sweep (now : Int) : List Nat → Memory → Int × Memory
  | [], m => (0, m)
  | cur :: rest, m =>
    if collects now m cur then
      ((sweep now rest (buryCell m cur)).1 + 1, (sweep now rest (buryCell m cur)).2)
    else
      sweep now rest m

theorem not_collects_buryCell (now : Int) (m : Memory) (c : Nat) :
    ¬ collects now (buryCell m c) c := by
  intro h
  exact h.2 (by rw [buryCell, Function.update_self])

theorem collects_buryCell {c cur : Nat} (hne : c ≠ cur) :
    collects now (buryCell m cur) c ↔ collects now m c := by
  have cell := congrFun (view_buryCell m cur) c
  rw [Function.update_of_ne hne] at cell
  have hdeath := congrArg (fun s => s.val.2) cell
  simp only [view_val] at hdeath
  rw [collects, collects, expired, expired, hdeath, buryCell_of_ne]
  simp only [recordSize]
  omega

/-- The cells after the loop: exactly those that it collects are marked. -/
theorem view_sweep (cells : List Nat) (c : Nat) :
    view (sweep now cells m).2 c =
      if c ∈ cells ∧ collects now m c then (view m c).bury else view m c := by
  induction cells generalizing m with
  | nil => rw [if_neg (by simp), sweep]
  | cons cur rest ih =>
      rw [sweep]
      by_cases hcur : collects now m cur
      · rw [if_pos hcur, ih, view_buryCell]
        by_cases e : c = cur
        · subst e
          have gone : ¬ (c ∈ rest ∧ collects now (buryCell m c) c) :=
            fun h => not_collects_buryCell now m c h.2
          have hit : c ∈ c :: rest ∧ collects now m c := ⟨by simp, hcur⟩
          rw [if_neg gone, Function.update_self, if_pos hit]
        · rw [Function.update_of_ne e]
          simp only [List.mem_cons, e, false_or, collects_buryCell e]
      · rw [if_neg hcur, ih]
        by_cases e : c = cur
        · subst e
          have stays : ∀ l : List Nat, ¬ (c ∈ l ∧ collects now m c) := fun l h => hcur h.2
          rw [if_neg (stays _), if_neg (stays _)]
        · simp only [List.mem_cons, e, false_or]

/-- The returned number counts the cells that are collected. -/
theorem sweep_count {cells : List Nat} (nodup : cells.Nodup) :
    (sweep now cells m).1 = (cells.countP fun c => decide (collects now m c) : Nat) := by
  induction cells generalizing m with
  | nil => rfl
  | cons cur rest ih =>
      obtain ⟨hnot, hrest⟩ := List.nodup_cons.mp nodup
      rw [sweep, List.countP_cons]
      by_cases hcur : collects now m cur
      · have same : rest.countP (fun c => decide (collects now (buryCell m cur) c)) =
            rest.countP (fun c => decide (collects now m c)) := by
          apply List.countP_congr
          intro c hc
          have hne : c ≠ cur := by
            rintro rfl
            exact hnot hc
          rw [decide_eq_true_iff, decide_eq_true_iff]
          exact collects_buryCell hne
        rw [if_pos hcur, ih hrest, same, decide_eq_true hcur, if_pos rfl]
        push_cast
        rfl
      · rw [if_neg hcur, ih hrest, decide_eq_false hcur, if_neg (by decide), Nat.add_zero]

theorem Sound.sweep (h : Sound m) (cells : List Nat) : Sound (sweep now cells m).2 := by
  induction cells generalizing m with
  | nil => exact h
  | cons cur rest ih =>
      rw [PosixHashTable.sweep]
      split
      · exact ih (h.buryCell cur)
      · exact ih h

theorem exec_collectCells (cells : List Nat) (block : Nat) (collected : Int) :
    exec now (collectCells cells block collected) m =
      (collected + (sweep now cells m).1, (sweep now cells m).2) := by
  induction cells generalizing m block collected with
  | nil => rw [collectCells, exec_unlock, exec_pure, sweep, Int.add_zero]
  | cons cur rest ih =>
      have visit : exec now (do
          let collected ← collectCell cur collected
          collectCells rest (cur / hashtableSegmentSize) collected) m =
          (collected + (sweep now (cur :: rest) m).1, (sweep now (cur :: rest) m).2) := by
        have here : exec now (collectCell cur collected) m = _ := exec_collectCell cur collected
        rw [sweep]
        by_cases hc : collects now m cur
        · rw [if_pos hc] at here
          rw [exec_bind_of now here, if_pos hc, ih, Int.add_assoc, Int.add_comm 1]
        · rw [if_neg hc] at here
          rw [exec_bind_of now here, if_neg hc, ih]
      rw [collectCells]
      split
      · rw [exec_unlock, exec_lock]
        exact visit
      · exact visit

theorem exec_collectGarbage :
    exec now collectGarbage m = sweep now (List.range tableSize) m := by
  have pass : ∀ cells, exec now (lock 0 (.collectGarbage 0) >>= fun _ => collectCells cells 0 0) m =
      sweep now cells m := by
    intro cells
    rw [exec_lock, exec_collectCells, Int.zero_add]
  rw [← pass, collectGarbage]

theorem exec_code_get (key : Key) (value : List UInt8) :
    exec now (code (.get key value)) m =
      (⟨(exec now (get key.bytes value) m).1.1, (exec now (get key.bytes value) m).1.2⟩,
        (exec now (get key.bytes value) m).2) := by
  rw [code, exec_bind, exec_pure]

theorem exec_code_set (key : Key) (value : Value) (ttl : Int) :
    exec now (code (.set key value ttl)) m =
      (⟨(exec now (set key.bytes value.bytes ttl) m).1, []⟩,
        (exec now (set key.bytes value.bytes ttl) m).2) := by
  rw [code, exec_bind, exec_pure]

theorem exec_code_del (key : Key) :
    exec now (code (.del key)) m =
      (⟨(exec now (del key.bytes) m).1, []⟩, (exec now (del key.bytes) m).2) := by
  rw [code, exec_bind, exec_pure]

theorem exec_code_collectGarbage :
    exec now (code .collectGarbage) m =
      (⟨(exec now collectGarbage m).1, []⟩, (exec now collectGarbage m).2) := by
  rw [code, exec_bind, exec_pure]

/-- What holds after a pass over any list of all cells holds after `collect_garbage`.
The list stays abstract, so that no proof evaluates the pass. -/
theorem collectGarbage_sweeps {P : Reply → Memory → Prop}
    (h : ∀ cells : List Nat, (∀ c, c ∈ cells ↔ c < tableSize) → cells.Nodup →
      P ⟨(sweep now cells m).1, []⟩ (sweep now cells m).2) :
    P (exec now (code .collectGarbage) m).1 (exec now (code .collectGarbage) m).2 := by
  have conclude : ∀ pass : Int × Memory, exec now collectGarbage m = pass →
      P ⟨pass.1, []⟩ pass.2 →
      P (exec now (code .collectGarbage) m).1 (exec now (code .collectGarbage) m).2 := by
    intro pass hpass swept
    rw [exec_code_collectGarbage, hpass]
    exact swept
  exact conclude _ exec_collectGarbage (h _ (fun _ => List.mem_range) List.nodup_range)

theorem exec_code_sound (h : Sound m) (call : Call) : Sound (exec now (code call) m).2 := by
  cases call with
  | get key value =>
      rw [exec_code_get, exec_get h]
      cases lookup (view m) (order key.bytes) key.bytes <;> exact h
  | set key value ttl =>
      rw [exec_code_set, exec_set]
      cases place (view m) (order key.bytes) key.bytes with
      | none => exact h
      | some c => exact h.writeRecord c key value _
  | del key =>
      rw [exec_code_del, exec_del]
      cases lookup (view m) (order key.bytes) key.bytes with
      | none => exact h
      | some c => exact h.buryCell c
  | collectGarbage => exact collectGarbage_sweeps (P := fun _ m' => Sound m') fun _ _ _ => h.sweep _

end PosixHashTable
