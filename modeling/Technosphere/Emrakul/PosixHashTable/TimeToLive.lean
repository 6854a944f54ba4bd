import Technosphere.SharedMemory.Interference
import Technosphere.Emrakul.PosixHashTable.Sequential
import Technosphere.Emrakul.UserCommand

/-!
# How long a record lives

`set` sums the clock and the time to live in 64 bits and stores the sum as an
`int`; `collect_garbage` compares a clock reading, narrowed the same way, with
the stored number and takes 0 for a record without end. The record is buried
when it is due exactly if the sum fits into an `int`.

The collector runs among other processes that leave the cell of the record
alone. Its clock may advance while it runs.
-/

namespace PosixHashTable

open SharedMemory Prog Emrakul OpenAddressing CInt

/-- The other processes do whatever they do elsewhere than in cell `c`. -/
abbrev Elsewhere (c : Nat) (m m' : Memory) : Prop := SameCell m m' c

theorem stable_sameCell (m₀ : Memory) (c : Nat) :
    Stable (Elsewhere c) fun m => SameCell m₀ m c :=
  fun _ _ here other x low high => (other x low high).trans (here x low high)

/-- A run of `collect_garbage` with these clock readings can end in `after`,
when it finds in cell `c` what `stored` has there. -/
def Collects (reads : Int → Prop) (stored : Memory) (c : Nat) (after : Memory) : Prop :=
  ∃ before count, SameCell stored before c ∧
    Amid (Elsewhere c) reads collectGarbage before count after

/-- A record that `set` stores at clock `now` is left as it is by every
`collect_garbage` up to its death time, and is buried by every later one. -/
def LivesItsTtl (now ttl : Int) : Prop :=
  ∀ (m : Memory) (key : Key) (value : Value) (c : Nat) (after : Memory),
    (exec now (chooseCell key.bytes) m).1 = c →
    (Collects (fun t => 0 < t ∧ t ≤ now + ttl)
        (exec now (set key.bytes value.bytes ttl) m).2 c after →
      view after c = view (exec now (set key.bytes value.bytes ttl) m).2 c) ∧
    (Collects (fun t => now + ttl < t ∧ t < 2 ^ 31)
        (exec now (set key.bytes value.bytes ttl) m).2 c after →
      markAt after c = .rip)

/-! ## The visits of the collector -/

section Visits

variable {reads : Int → Prop} {m₀ : Memory} {c : Nat}

/-- A store elsewhere. -/
theorem sameCell_update {m : Memory} (h : SameCell m₀ m c) {a : Nat} {byte : UInt8}
    (outside : a < recordSize * c ∨ recordSize * c + recordSize ≤ a) :
    SameCell m₀ (Function.update m a byte) c := by
  intro x low high
  rw [Function.update_of_ne (by omega)]
  exact h x low high

/-- A visit to another cell. -/
theorem collectCell_other {cur : Nat} (ne : cur ≠ c) (collected : Int) :
    Contract (Elsewhere c) reads (fun m => SameCell m₀ m c) (collectCell cur collected)
      fun _ m => SameCell m₀ m c := by
  have stable := stable_sameCell m₀ c
  have marks : ∀ m, SameCell m₀ m c →
      SameCell m₀ (Function.update m (recordSize * cur + keySize) clRip) c := by
    intro m hm
    refine sameCell_update hm ?_
    simp only [recordSize, keySize]
    omega
  refine .clock fun t _ => ?_
  refine (Contract.memcpyFrom stable _ 4).bind fun death => ?_
  refine .ite (fun _ => ?_) fun _ => .pure fun _ hm => hm
  refine (Contract.fetch stable _).bind fun mark => ?_
  refine .ite (fun _ => ?_) fun _ => .pure fun _ hm => hm
  exact (Contract.put stable _ _ marks).bind fun _ => .pure fun _ hm => hm

theorem sameCell_buryCell {m : Memory} (h : SameCell m₀ m c) :
    SameCell (buryCell m₀ c) (buryCell m c) c := by
  intro x low high
  by_cases e : x = recordSize * c + keySize
  · rw [e, buryCell, buryCell, Function.update_self, Function.update_self]
  · rw [buryCell_of_ne e, buryCell_of_ne e]
    exact h x low high

/-- The visit to cell `c` does what the clock and the cell say. -/
theorem collectCell_self (collected : Int) :
    Contract (Elsewhere c) reads (fun m => SameCell m₀ m c) (collectCell c collected)
      fun _ m => ∃ t, reads t ∧ SameCell (if collects t m₀ c then buryCell m₀ c else m₀) m c := by
  have stable := stable_sameCell m₀ c
  have death : ∀ m, SameCell m₀ m c →
      m.readBytes (recordSize * c + deathOffset) 4 =
        m₀.readBytes (recordSize * c + deathOffset) 4 := by
    intro m hm
    refine Memory.readBytes_congr fun x low high => hm x ?_ ?_ <;>
      simp only [deathOffset, keySize, recordSize] at low high ⊢ <;> omega
  have mark : ∀ m, SameCell m₀ m c →
      m (recordSize * c + keySize) = m₀ (recordSize * c + keySize) := by
    intro m hm
    refine hm _ ?_ ?_ <;> simp only [keySize, recordSize] <;> omega
  refine .clock fun t read => .memcpyFrom_known stable death (.ite (fun past => ?_) fun still => ?_)
  · refine .fetch_known stable mark (.ite (fun stays => ?_) fun gone => ?_)
    · refine (Contract.put stable _ _ (R := fun m => SameCell (buryCell m₀ c) m c)
        fun m hm => sameCell_buryCell hm).bind fun _ => .pure fun m hm => ⟨t, read, ?_⟩
      rw [if_pos (show collects t m₀ c from ⟨past, by simpa using stays⟩)]
      exact hm
    · refine .pure fun m hm => ⟨t, read, ?_⟩
      rw [if_neg fun h : collects t m₀ c => h.2 (by simpa using gone)]
      exact hm
  · refine .pure fun m hm => ⟨t, read, ?_⟩
    rw [if_neg fun h : collects t m₀ c => still h.1]
    exact hm

/-! ## The whole pass -/

/-- Handing the semaphore on from segment to segment changes nothing. -/
theorem collectCells_cons {P : Memory → Prop} {Q : Int → Memory → Prop} {cur : Nat}
    {rest : List Nat} {block : Nat} {collected : Int}
    (h : Contract (Elsewhere c) reads P (collectCell cur collected >>= fun collected =>
      collectCells rest (cur / hashtableSegmentSize) collected) Q) :
    Contract (Elsewhere c) reads P (collectCells (cur :: rest) block collected) Q := by
  rw [collectCells]
  refine .ite (fun _ => ?_) fun _ => h
  exact (Contract.release _).bind fun _ => (Contract.acquire _ _).bind fun _ => h

/-- A record that no reading finds expired stays as it is. -/
theorem collectCells_spares (spares : ∀ t, reads t → ¬ collects t m₀ c) (cells : List Nat)
    (block : Nat) (collected : Int) :
    Contract (Elsewhere c) reads (fun m => SameCell m₀ m c) (collectCells cells block collected)
      fun _ m => SameCell m₀ m c := by
  induction cells generalizing block collected with
  | nil => exact (Contract.release _).bind fun _ => .pure fun _ hm => hm
  | cons cur rest ih =>
      refine collectCells_cons (Contract.bind ?_ fun count => ih _ count)
      by_cases e : cur = c
      · subst e
        refine (collectCell_self collected).consequence (fun _ hm => hm) ?_
        rintro _ m ⟨t, read, hm⟩
        rwa [if_neg (spares t read)] at hm
      · exact collectCell_other e collected

/-- A record that every reading finds expired is marked when the pass comes to it. -/
theorem collectCells_buries (due : ∀ t, reads t → collects t m₀ c) {cells : List Nat}
    (visited : c ∈ cells) (block : Nat) (collected : Int) :
    Contract (Elsewhere c) reads (fun m => SameCell m₀ m c) (collectCells cells block collected)
      fun _ m => SameCell (buryCell m₀ c) m c := by
  induction cells generalizing block collected with
  | nil => cases visited
  | cons cur rest ih =>
      apply collectCells_cons
      by_cases e : cur = c
      · subst e
        have buried : ∀ t, reads t → ¬ collects t (buryCell m₀ cur) cur :=
          fun t _ => not_collects_buryCell t m₀ cur
        refine Contract.bind ?_ fun count => collectCells_spares buried rest _ count
        refine (collectCell_self collected).consequence (fun _ hm => hm) ?_
        rintro _ m ⟨t, read, hm⟩
        rwa [if_pos (due t read)] at hm
      · have later : c ∈ rest := (List.mem_cons.mp visited).resolve_left (Ne.symm e)
        exact (collectCell_other e collected).bind fun count => ih later _ count

theorem Collects.spared (spares : ∀ t, reads t → ¬ collects t m₀ c) {after : Memory}
    (h : Collects reads m₀ c after) : SameCell m₀ after c := by
  obtain ⟨before, count, here, ran⟩ := h
  have pass : ∀ cells, Contract (Elsewhere c) reads (fun m => SameCell m₀ m c)
      (lock 0 (.collectGarbage 0) >>= fun _ => collectCells cells 0 0) _ :=
    fun cells => (Contract.acquire _ _).bind fun _ => collectCells_spares spares cells 0 0
  rw [collectGarbage] at ran
  exact pass (List.range tableSize) before here count after ran

theorem Collects.buried (due : ∀ t, reads t → collects t m₀ c) (hc : c < tableSize)
    {after : Memory} (h : Collects reads m₀ c after) : SameCell (buryCell m₀ c) after c := by
  obtain ⟨before, count, here, ran⟩ := h
  have pass : ∀ cells, c ∈ cells → Contract (Elsewhere c) reads (fun m => SameCell m₀ m c)
      (lock 0 (.collectGarbage 0) >>= fun _ => collectCells cells 0 0) _ :=
    fun cells visited => (Contract.acquire _ _).bind fun _ => collectCells_buries due visited 0 0
  rw [collectGarbage] at ran
  exact pass (List.range tableSize) (List.mem_range.mpr hc) before here count after ran

/-- The collector can run alone, all its readings being the same. -/
theorem exists_buried {now : Int} (read : reads now) (due : collects now m₀ c)
    (hc : c < tableSize) :
    ∃ after, Collects reads m₀ c after ∧ SameCell (buryCell m₀ c) after c := by
  have idle : ∀ m, Elsewhere c m m := fun _ _ _ _ => rfl
  have alone : ∀ (reads' : Int → Prop) (p : Text Int), reads now → reads' now →
      ∃ count after, Amid (Elsewhere c) reads p m₀ count after ∧
        Amid (Elsewhere c) reads' p m₀ count after :=
    fun _ p read read' => ⟨_, _, amid_exec idle read p m₀, amid_exec idle read' p m₀⟩
  obtain ⟨count, after, ran, ran'⟩ := alone (· = now) collectGarbage read rfl
  have collected : Collects (· = now) m₀ c after := ⟨m₀, count, idle m₀, ran'⟩
  exact ⟨after, ⟨m₀, count, idle m₀, ran⟩, collected.buried (fun _ same => same ▸ due) hc⟩

end Visits

/-! ## The stored death time -/

/-- The times to live that a command can have. -/
theorem ttl_of_set (tokens : List (List UInt8))
    (asked : (EmrakulV2.interpret tokens).operation = .set) :
    10 ≤ (EmrakulV2.interpret tokens).ttl ∧ (EmrakulV2.interpret tokens).ttl < 2 ^ 31 := by
  have bounds : ∀ s, atoi s < 2 ^ 31 := fun _ => (toInt32_bounds _).2
  revert asked
  unfold EmrakulV2.interpret
  dsimp only
  split_ifs <;> intro asked
  · cases asked
  · cases asked
  · cases asked
  · exact ⟨Int.le_refl 10, show (10 : Int) < 2 ^ 31 by decide⟩
  · exact ⟨Int.not_lt.mp ‹_›, bounds _⟩
  · cases asked
  · cases asked

/-- The cell that `set` chose holds the record. -/
theorem exec_set_chosen {now ttl : Int} {m : Memory} {key : Key} {value : Value} {c : Nat}
    (chosen : (exec now (chooseCell key.bytes) m).1 = c) :
    c < tableSize ∧ (exec now (set key.bytes value.bytes ttl) m).2 =
      writeRecord m c key.bytes value.bytes (ttl + now) := by
  rw [exec_chooseCell] at chosen
  rw [exec_set]
  cases placed : place (view m) (order key.bytes) key.bytes with
  | none =>
      rw [placed, Scan.index_none] at chosen
      omega
  | some c' =>
      rw [placed, Scan.index_some] at chosen
      obtain rfl : c' = c := Int.ofNat.inj chosen
      exact ⟨mem_order.mp (of_place placed).1, rfl⟩

/-- When the collector finds the record expired. -/
theorem collects_writeRecord {t death : Int} (m : Memory) (c : Nat) (key : Key) (value : Value) :
    collects t (writeRecord m c key.bytes value.bytes death) c ↔
      toInt32 death ≠ 0 ∧ toInt32 death < toInt32 t := by
  have filled : writeRecord m c key.bytes value.bytes death (recordSize * c + keySize) ≠ clRip := by
    rw [writeRecord, Function.update_self]
    decide
  rw [collects, expired, deathAt_writeRecord]
  exact and_iff_left filled

theorem markAt_of_buried {m after : Memory} {c : Nat} (h : SameCell (buryCell m c) after c) :
    markAt after c = .rip := by
  rw [h.markAt, ← view_mark, view_buryCell, Function.update_self]
  rfl

/-- The record that a `set` with too large a death time leaves in a zeroed table
is buried at once. -/
theorem not_lives_of_wraps {now ttl : Int} (positive : 0 < now) (later : 0 ≤ ttl)
    (large : 2 ^ 31 ≤ now + ttl) (small : now < 2 ^ 31) (wide : now + ttl < 2 ^ 32) :
    ¬ LivesItsTtl now ttl := by
  intro lives
  have zeroed : Zeroed fun _ => 0 := fun _ _ => rfl
  have chosen : (exec now (chooseCell keyD.bytes) fun _ => 0).1 = hash tableSize keyD.bytes := by
    rw [exec_chooseCell, zeroed.place, Scan.index_some]
  have stored : hash tableSize keyD.bytes < tableSize ∧
      (exec now (set keyD.bytes emptyValue.bytes ttl) fun _ => 0).2 = _ := exec_set_chosen chosen
  have due : collects now (writeRecord (fun _ => 0) (hash tableSize keyD.bytes) keyD.bytes
      emptyValue.bytes (ttl + now)) (hash tableSize keyD.bytes) := by
    have wrapped : toInt32 (ttl + now) < 0 := toInt32_wraps (by omega) (by omega)
    rw [collects_writeRecord, toInt32_of_lt (by omega) small]
    omega
  have read : 0 < now ∧ now ≤ now + ttl := by omega
  obtain ⟨after, kept, buried⟩ : ∃ after, Collects (fun t => 0 < t ∧ t ≤ now + ttl) _ _ after ∧ _ :=
    exists_buried read due stored.1
  have spared := (lives (fun _ => 0) keyD emptyValue _ after chosen).1 (stored.2 ▸ kept)
  have gone := markAt_of_buried buried
  rw [← view_mark, spared, stored.2, view_writeRecord, Function.update_self] at gone
  cases gone

/-- For a time to live that a command can have, and a clock value of 31 bits,
records live exactly as long as they should if and only if the death time fits
into an `int`. -/
theorem livesItsTtl_iff {now ttl : Int} (positive : 0 < now) (small : now < 2 ^ 31)
    (least : 10 ≤ ttl) (narrow : ttl < 2 ^ 31) : LivesItsTtl now ttl ↔ now + ttl < 2 ^ 31 := by
  constructor
  · intro lives
    by_contra large
    exact not_lives_of_wraps positive (by omega) (by omega) small (by omega) lives
  · intro fits m key value c after chosen
    have stored : c < tableSize ∧
        (exec now (set key.bytes value.bytes ttl) m).2 = _ := exec_set_chosen chosen
    rw [stored.2]
    constructor
    · intro collected
      refine view_congr (collected.spared ?_)
      rintro t ⟨low, high⟩ past
      rw [collects_writeRecord, toInt32_of_lt (by omega) (by omega),
        toInt32_of_lt (by omega) (by omega)] at past
      omega
    · intro collected
      refine markAt_of_buried (collected.buried ?_ stored.1)
      rintro t ⟨low, high⟩
      rw [collects_writeRecord, toInt32_of_lt (by omega) (by omega),
        toInt32_of_lt (by omega) (by omega)]
      omega

/-- Ten seconds from clock 5. -/
theorem livesItsTtl_iff_ten : LivesItsTtl 5 10 ↔ (5 : Int) + 10 < 2 ^ 31 :=
  livesItsTtl_iff (by decide) (by decide) (by decide) (by decide)

/-- A record with the largest time to live is collected at once. -/
theorem not_always_livesItsTtl :
    ¬ ∀ now ttl : Int, 0 < now → now < 2 ^ 31 → 10 ≤ ttl → ttl < 2 ^ 31 → LivesItsTtl now ttl := by
  intro always
  exact not_lives_of_wraps (by decide) (by decide) (by decide) (by decide) (by decide)
    (always 1 (2 ^ 31 - 1) (by decide) (by decide) (by decide) (by decide))

end PosixHashTable
