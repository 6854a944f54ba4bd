import Technosphere.Emrakul.MasterProcess
import Technosphere.Emrakul.Segments
import Technosphere.SharedMemory.Ownership.Soundness

/-!
# `SysVHashTable`: readers and writers in v1.0

The workers share one table, and the locks of `HashTableBase` are operations on
one counting semaphore for each segment. A reader takes one of its permits and
a writer takes all of them, each in one atomic `semop`.

Any number of processes run the operations of the table and take turns after
every single access. Every reachable configuration keeps the discipline.
-/

namespace SysVHashTable

open SharedMemory Prog OpenAddressing Emrakul Transition HashTableBase

/-- The number of permits that `lock` takes and `unlock` gives back. -/
def permitCount (exclusive : Bool) : Nat := if exclusive then workerProcessesCount else 1

theorem permitCount_pos (exclusive : Bool) : 0 < permitCount exclusive := by
  cases exclusive <;> decide

theorem permitCount_le (exclusive : Bool) : permitCount exclusive ≤ workerProcessesCount := by
  cases exclusive <;> decide

/-- The semaphores, as `init_ipc` sets them up. The segment is passed on as a
`uint16_t`. -/
def segments : Segmented (Nat × Bool) where
  count := hashtableSegmentsCount
  permits := workerProcessesCount
  index sem := sem.1 % 2 ^ 16
  weight sem := permitCount sem.2
  seg := hashtableSegmentSize
  valueOffset := valueOffset
  valueSize := valueSize
  seg_pos := hashtableSegmentSize_pos
  weight_pos sem := permitCount_pos sem.2
  weight_le sem := permitCount_le sem.2
  behind := by decide
  fills := rfl

/-- The geometry of the table that the workers construct. -/
abbrev geometry : Geometry := EmrakulV1.geometry

theorem cells_segments : segments.cells = geometry.tableSize := rfl

abbrev State := Machine Call (Nat × Bool) Point Reply

/-- All processes are idle, and every semaphore has its initial value. -/
def initial (mem : Memory) (clock : Nat) : State := .initial segments.toSemaphores mem clock

def step : State → Machine.Act Call → Option State :=
  Machine.step segments.toSemaphores (code geometry)

/-- The values that the calls of `set` among `acts` write. -/
def setValues (acts : List (Machine.Act Call)) : Set (List UInt8) :=
  {v | ∃ p key value ttl, .start p (.set key value ttl) ∈ acts ∧ v = value.bytes}

/-! ## Single operations -/

variable {W : Set (List UInt8)} {S : Ghost (Nat × Bool) → Nat → Prop} {g : Ghost (Nat × Bool)}
variable {c : Nat}

theorem index_eq {k : Nat} (named : k < hashtableSegmentsCount) (exclusive : Bool) :
    segments.index (k, exclusive) = k := by
  show k % 2 ^ 16 = k
  simp only [hashtableSegmentsCount] at named
  omega

theorem segment_lt (hc : c < geometry.tableSize) :
    c / geometry.blockSize < hashtableSegmentsCount :=
  Segmented.segment_lt (T := segments) hc

/-- The semaphore that guards a cell. -/
theorem index_cell (hc : c < geometry.tableSize) (exclusive : Bool) :
    segments.index (c / geometry.blockSize, exclusive) = c / geometry.blockSize :=
  index_eq (segment_lt hc) exclusive

theorem wp_findFilled (key : Key) (free : g.held = none) :
    (segments.protocol W True).wp S (findFilled geometry key.bytes) g fun idx g' =>
      (segments.protocol W True).Later g g' ∧ g'.held = none ∧
      (idx = -1 ∨ ∃ c < geometry.tableSize, idx = c ∧
        filledAt (g'.seen (c / geometry.blockSize)) key.bytes c = true) :=
  Segmented.wp_findFilled (fun _ named => index_eq named false) key
    (hash_lt geometry.tableSize_pos _) free

theorem wp_findFree (key : Key) (free : g.held = none) :
    (segments.protocol W True).wp S (findFree geometry key.bytes) g fun idx g' =>
      g'.held = none ∧ (idx = -1 ∨ ∃ c < geometry.tableSize, idx = c) :=
  Segmented.wp_findFree (fun _ named => index_eq named false) (hash_lt geometry.tableSize_pos _)
    free

theorem wp_chooseCell (key : Key) (free : g.held = none) :
    (segments.protocol W True).wp S (chooseCell geometry key.bytes) g fun idx g' =>
      g'.held = none ∧ (idx = -1 ∨ ∃ c < geometry.tableSize, idx = c) := by
  apply Protocol.wp_bind
  apply Protocol.wp_mono (wp_findFilled key free)
  rintro idx g₁ ⟨later, free₁, rfl | ⟨c, hc, rfl, _⟩⟩
  · rw [if_pos rfl]
    exact wp_findFree key free₁
  · rw [if_neg (by omega)]
    exact ⟨free₁, Or.inr ⟨c, hc, rfl⟩⟩

/-- Taking the segment of a cell that exists, in either mode. -/
theorem wp_lock {α : Type} (hc : c < geometry.tableSize) {exclusive : Bool} {point : Point}
    {f : Unit → Text α} {Q : α → Ghost (Nat × Bool) → Prop} (free : g.held = none)
    (rest : ∀ m, (segments.protocol W True).Rely (c / geometry.blockSize)
      (g.seen (c / geometry.blockSize)) m →
      (segments.protocol W True).wp S (f ())
        (g.acquire (c / geometry.blockSize, exclusive) (c / geometry.blockSize) m) Q) :
    (segments.protocol W True).wp S
      (lock (c / geometry.blockSize) exclusive point >>= f) g Q := by
  have here : (segments.protocol W True).index (c / geometry.blockSize, exclusive) =
      c / geometry.blockSize := index_cell hc exclusive
  have named : (segments.protocol W True).index (c / geometry.blockSize, exclusive) <
      (segments.protocol W True).count := by
    rw [here]
    exact segment_lt hc
  apply Protocol.wp_acquire free named
  intro m rely
  rw [here] at rely ⊢
  exact rest m rely

/-- Releasing it, in the mode in which it was taken. -/
theorem wp_unlock {α : Type} (hc : c < geometry.tableSize) {exclusive : Bool}
    {f : Unit → Text α} {Q : α → Ghost (Nat × Bool) → Prop} {m₀ m : Memory}
    (held : g.held = some ((c / geometry.blockSize, exclusive), m))
    (entry : g.seen (c / geometry.blockSize) = m₀)
    (rely : (segments.protocol W True).Rely (c / geometry.blockSize) m₀ m)
    (rest : ∀ g', g'.held = none → (segments.protocol W True).wp S (f ()) g' Q) :
    (segments.protocol W True).wp S (unlock (c / geometry.blockSize) exclusive >>= f) g Q := by
  have here : (segments.protocol W True).index (c / geometry.blockSize, exclusive) =
      c / geometry.blockSize := index_cell hc exclusive
  refine Protocol.wp_release held (congrArg g.seen here) ?_ (rest _ rfl)
  rw [here, entry]
  exact rely

/-- Text that stays in a cell whose segment is held exclusively. -/
theorem wp_inCell {α : Type} (hc : c < geometry.tableSize) {m : Memory} {p : Text α}
    {Q : α → Ghost (Nat × Bool) → Prop}
    (confined : Protocol.Confined (Segmented.InCell c) (Segmented.InCell c) p m)
    (held : g.held = some ((c / geometry.blockSize, true), m)) (allowed : ∀ g a, S g a)
    (post : Q (exec 0 p m).1 (g.write (c / geometry.blockSize, true) (exec 0 p m).2)) :
    (segments.protocol W True).wp S p g Q :=
  Segmented.wp_inCell hc confined held (index_cell hc true) rfl allowed post

/-- Copying the value of a cell that was seen filled. -/
theorem wp_getCell {m₀ : Memory} (short : ∀ v ∈ W, v.length < valueSize)
    (ends : segments.RecordsEnd m₀) (hc : c < geometry.tableSize) (free : g.held = none)
    (before : (segments.protocol W True).Rely (c / geometry.blockSize) m₀
      (g.seen (c / geometry.blockSize)))
    (filled : markAt (g.seen (c / geometry.blockSize)) c = .filled) :
    (segments.protocol W True).wp S (getCell geometry c) g fun r g' =>
      g'.held = none ∧ (r.1 = 0 → r.2 ∈ segments.whole W m₀) := by
  apply wp_lock hc free
  intro m rely
  apply Protocol.wp_bind
  apply Segmented.wp_copyValue short (fun _ => ends) hc rfl (index_cell hc false) before filled rely
  intro v whole
  apply wp_unlock hc rfl (Function.update_self _ _ _) (Protocol.rely_refl _ _ _)
  intro g' free'
  exact ⟨free', fun _ => whole trivial⟩

theorem wp_get {m₀ : Memory} (short : ∀ v ∈ W, v.length < valueSize)
    (ends : segments.RecordsEnd m₀) (key : Key) (value : List UInt8) (now : Nat) :
    (segments.protocol W True).wp S (get geometry key.bytes value) (.fresh m₀ now) fun r g' =>
      g'.held = none ∧ (r.1 = 0 → r.2 ∈ segments.whole W m₀) := by
  apply Protocol.wp_bind
  apply Protocol.wp_mono (wp_findFilled key rfl)
  rintro idx g₁ ⟨later, free, rfl | ⟨c, hc, rfl, found⟩⟩
  · rw [if_neg (by decide)]
    exact ⟨free, fun failed => absurd (show (-1 : Int) = 0 from failed) (by decide)⟩
  · rw [if_pos (Int.natCast_nonneg c), Int.toNat_natCast]
    rw [filledAt, decide_eq_true_iff] at found
    exact wp_getCell short ends hc free (later.rely _) found.1

theorem rely_writeRecord {m : Memory} {k : Nat} (key : Key) (value : Value)
    (written : value.bytes ∈ W) :
    (segments.protocol W True).Rely k m (writeRecord m c key.bytes value.bytes) := by
  have here := congrArg Slot.val (congrFun (view_writeRecord m c key value) c)
  rw [Function.update_self, view_val] at here
  apply Segmented.rely_of_cell (writeRecord_outside m c key value)
  refine Or.inr ?_
  show valueAt _ c ∈ W
  rw [here]
  exact written

theorem wp_setCell (allowed : ∀ g a, S g a) (key : Key) (value : Value)
    (written : value.bytes ∈ W) (ttl : Int) (hc : c < geometry.tableSize) (free : g.held = none) :
    (segments.protocol W True).wp S (setCell geometry key.bytes value.bytes ttl c) g fun _ g' =>
      g'.held = none := by
  have keyFits := key.fits
  have valueFits := value.fits
  simp only [keySize] at keyFits
  simp only [valueSize] at valueFits
  apply wp_lock hc free
  intro m _
  apply Protocol.wp_bind
  apply wp_inCell hc _ rfl allowed
  · apply Protocol.wp_bind
    apply wp_inCell hc _ rfl allowed
    · apply Protocol.wp_bind
      apply wp_inCell hc _ rfl allowed
      · refine wp_unlock hc rfl (Function.update_self _ _ _) ?_ ?_
        · simp only [exec_strcpyTo]
          exact rely_writeRecord key value written
        · intro g' free'
          split
          · exact free'
          · exact free'
      · refine ⟨?_, trivial⟩
        simp only [Segmented.InCell, recordSize, keySize]
        omega
    · apply Protocol.confined_strcpyTo
      intro x low high
      simp only [valueOffset, keySize] at low high
      simp only [Segmented.InCell, recordSize] at low high ⊢
      omega
  · apply Protocol.confined_strcpyTo
    intro x low high
    simp only [Segmented.InCell, recordSize] at low high ⊢
    omega

theorem wp_set (allowed : ∀ g a, S g a) (key : Key) (value : Value) (written : value.bytes ∈ W)
    (ttl : Int) (free : g.held = none) :
    (segments.protocol W True).wp S (set geometry key.bytes value.bytes ttl) g fun _ g' =>
      g'.held = none := by
  apply Protocol.wp_bind
  apply Protocol.wp_mono (wp_chooseCell key free)
  rintro idx g₁ ⟨free₁, rfl | ⟨c, hc, rfl⟩⟩
  · rw [if_neg (by decide)]
    exact free₁
  · rw [if_pos (Int.natCast_nonneg c), Int.toNat_natCast]
    exact wp_setCell allowed key value written ttl hc free₁

theorem wp_delCell (allowed : ∀ g a, S g a) (hc : c < geometry.tableSize) (free : g.held = none) :
    (segments.protocol W True).wp S (delCell geometry c) g fun _ g' => g'.held = none := by
  apply wp_lock hc free
  intro m _
  apply Protocol.wp_bind
  apply wp_inCell hc _ rfl allowed
  · exact wp_unlock hc rfl (Function.update_self _ _ _) (Segmented.rely_bury c _)
      fun _ free' => free'
  · refine ⟨?_, trivial⟩
    simp only [Segmented.InCell, recordSize, keySize]
    omega

theorem wp_del (allowed : ∀ g a, S g a) (key : Key) (free : g.held = none) :
    (segments.protocol W True).wp S (del geometry key.bytes) g fun _ g' => g'.held = none := by
  apply Protocol.wp_bind
  apply Protocol.wp_mono (wp_findFilled key free)
  rintro idx g₁ ⟨_, free₁, rfl | ⟨c, hc, rfl, _⟩⟩
  · rw [if_neg (by decide)]
    exact free₁
  · rw [if_pos (Int.natCast_nonneg c), Int.toNat_natCast]
    exact wp_delCell allowed hc free₁

/-! ## Whole runs -/

/-- How a call returns: without a semaphore, and a `get` that found its key
with one of the values in `whole`. -/
def Returns (whole : Set (List UInt8)) : Call → Reply → Ghost (Nat × Bool) → Prop
  | .get _ _, r, g => g.held = none ∧ (r.code = 0 → r.value ∈ whole)
  | _, _, g => g.held = none

/-- No call returns with a semaphore. -/
theorem Returns.free {whole : Set (List UInt8)} (call : Call) (r : Reply) (γ : Ghost (Nat × Bool))
    (returns : Returns whole call r γ) : γ.held = none := by
  cases call with
  | get key value => exact returns.1
  | _ => exact returns

/-- Every call is correct for the protocol. -/
theorem wp_code {m₀ : Memory} (short : ∀ v ∈ W, v.length < valueSize)
    (ends : segments.RecordsEnd m₀) (allowed : ∀ g a, S g a) (call : Call)
    (written : ∀ key value ttl, call = .set key value ttl → value.bytes ∈ W) (now : Nat) :
    (segments.protocol W True).wp S (code geometry call) (.fresh m₀ now)
      (Returns (segments.whole W m₀) call) := by
  cases call with
  | get key value =>
      apply Protocol.wp_bind
      exact Protocol.wp_mono (wp_get short ends key value now) fun _ _ ends => ends
  | set key value ttl =>
      apply Protocol.wp_bind
      exact Protocol.wp_mono (wp_set allowed key value (written key value ttl rfl) ttl rfl)
        fun _ _ free => free
  | del key =>
      apply Protocol.wp_bind
      exact Protocol.wp_mono (wp_del allowed key rfl) fun _ _ free => free

/-- On a table whose records end inside their cells, every reachable
configuration keeps the discipline, and a `get` that found its key answers with
a value that was written as a whole. -/
theorem disciplined_of_ends {mem : Memory} (ends : segments.RecordsEnd mem) {clock : Nat}
    {acts : List (Machine.Act Call)} {s : State}
    (ran : Run step Always (initial mem clock) acts s) :
    Machine.Disciplined segments.toSemaphores segments.guard geometry.tableBytes (code geometry) s ∧
      ∀ p key value r, s.procs p = some (.get key value, .ret r) → r.code = 0 →
        r.value ∈ segments.whole (setValues acts) mem := by
  have correct : ∀ (_ : State) p call now, .start p call ∈ acts →
      (segments.protocol (setValues acts) True).wp (fun _ _ => True) (code geometry call)
        (.fresh mem now) (Returns (segments.whole (setValues acts) mem) call) := by
    intro _ p call now started
    refine wp_code ?_ ends (fun _ _ => trivial) call ?_ now
    · rintro v ⟨_, _, value, _, _, rfl⟩
      exact value.fits
    · rintro key value ttl rfl
      exact ⟨p, key, value, ttl, started, rfl⟩
  obtain ⟨whole, g, supported⟩ := Protocol.supported_of_run (S := fun _ _ _ => True) correct
    Returns.free ran.mem_acts
  constructor
  · exact supported.disciplined trivial Returns.free
  · intro p key value r reached found
    exact ((supported.knows p).text reached).2 found

/-- What `init_ipc` leaves to the workers: a zeroed table and free semaphores. -/
def initIpc (clock : Nat) : State := initial (fun _ => 0) clock

/-- Whatever the workers do after `init_ipc`, every reachable configuration
keeps the discipline of readers and writers. -/
theorem readers_and_writers {clock : Nat} {acts : List (Machine.Act Call)} {s : State}
    (ran : Run step Always (initIpc clock) acts s) :
    Machine.Disciplined segments.toSemaphores segments.guard geometry.tableBytes (code geometry)
      s := by
  have empty : segments.RecordsEnd fun _ => 0 := by
    intro c _ filled
    cases filled
  exact (disciplined_of_ends empty ran).1

/-- A `del` and a `get` of the same key are both in the first segment that they
probe, and both have read a byte. Two of the four permits are left. -/
theorem readers_and_writers_del : ∃ s,
    Run step Always (initIpc 0)
      [.start 0 (.del keyD), .start 1 (.get keyD []), .run 0, .run 1, .run 0, .run 1] s ∧
    s.holds = [(1, (0, false)), (0, (0, false))] ∧ s.value 0 = 2 ∧
    Machine.Disciplined segments.toSemaphores segments.guard geometry.tableBytes (code geometry)
      s := by
  have ran : Run step Always (initIpc 0)
      [.start 0 (.del keyD), .start 1 (.get keyD []), .run 0, .run 1, .run 0, .run 1] _ :=
    .of_foldlM rfl
  exact ⟨_, ran, rfl, rfl, readers_and_writers ran⟩

end SysVHashTable
