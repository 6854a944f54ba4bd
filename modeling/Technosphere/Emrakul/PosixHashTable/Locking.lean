import Technosphere.Emrakul.PosixHashTable.Sequential
import Technosphere.Emrakul.Segments
import Technosphere.SharedMemory.Ownership.Soundness

/-!
# The locks of v2.0, instruction by instruction

Any number of processes run the operations of the table, the cleaner's
`collect_garbage` included, and take turns after every single access. Each
operation is correct for the protocol of the segments, so every reachable
configuration keeps the locking discipline, and a `get` answers with a whole
value.
-/

namespace PosixHashTable

open SharedMemory Prog OpenAddressing Emrakul Transition CInt

/-- The semaphores, one for each segment, initialised to 1. -/
def segments : Segmented Nat where
  count := hashtableSegmentsCount
  permits := 1
  index := id
  weight _ := 1
  seg := hashtableSegmentSize
  valueOffset := valueOffset
  valueSize := valueSize
  seg_pos := hashtableSegmentSize_pos
  weight_pos _ := Nat.one_pos
  weight_le _ := Nat.le_refl 1
  behind := by decide
  fills := rfl

theorem cells_segments : segments.cells = tableSize := Nat.mul_comm _ _

/-- What a process asks of the table: a call, or `get_ttl` of a cell. -/
inductive Op where
  | call (c : Call)
  | getTtl (idx : Nat) (inside : idx < tableSize)

def textOf : Op → Text Reply
  | .call c => code c
  | .getTtl idx _ => do
    let ttl ← getTtl idx
    pure ⟨ttl, []⟩

/-- The values that the calls of `set` among `acts` write. -/
def setValues (acts : List (Machine.Act Op)) : Set (List UInt8) :=
  {v | ∃ p key value ttl, .start p (.call (.set key value ttl)) ∈ acts ∧ v = value.bytes}

/-- Processes that start idle with all semaphores free. -/
abbrev State := Machine Op Nat Point Reply

def initial (mem : Memory) (clock : Nat) : State := .initial segments.toSemaphores mem clock

def step : State → Machine.Act Op → Option State := Machine.step segments.toSemaphores textOf

/-! ## Single operations -/

/-- Only marks of expired cells are stored by `collect_garbage`. -/
def MayStore : Op → Ghost Nat → Nat → Prop
  | .call .collectGarbage, g, a =>
    ∃ c i m, c < tableSize ∧ g.held = some (i, m) ∧ i = c / hashtableSegmentSize ∧
      a = recordSize * c + keySize ∧ deathAt m c < toInt32 g.now
  | _, _, _ => True

/-- How an operation returns: without a semaphore, and a `get` that found its
key with one of the values in `whole`. -/
def Returns (strict : Prop) (whole : Set (List UInt8)) : Op → Reply → Ghost Nat → Prop
  | .call (.get _ _), r, g => g.held = none ∧ (strict → r.code = 0 → r.value ∈ whole)
  | _, _, g => g.held = none

variable {W : Set (List UInt8)} {strict : Prop} {S : Ghost Nat → Nat → Prop} {g : Ghost Nat}

theorem segment_lt {c : Nat} (hc : c < tableSize) :
    c / hashtableSegmentSize < hashtableSegmentsCount :=
  Segmented.segment_lt (T := segments) (cells_segments ▸ hc)

theorem wp_findFilled (key : Key) (free : g.held = none) :
    (segments.protocol W strict).wp S (findFilled key.bytes) g fun idx g' =>
      (segments.protocol W strict).Later g g' ∧ g'.held = none ∧
      (idx = -1 ∨ ∃ c < tableSize, idx = c ∧
        filledAt (g'.seen (c / hashtableSegmentSize)) key.bytes c = true) := by
  have start := hash_lt tableSize_pos key.bytes
  rw [findFilled]
  rw [← cells_segments] at start ⊢
  exact Segmented.wp_findFilled (fun _ _ => rfl) key start free

theorem wp_findFree (key : Key) (free : g.held = none) :
    (segments.protocol W strict).wp S (findFree key.bytes) g fun idx g' =>
      g'.held = none ∧ (idx = -1 ∨ ∃ c < tableSize, idx = c) := by
  have start := hash_lt tableSize_pos key.bytes
  rw [findFree]
  rw [← cells_segments] at start ⊢
  exact Segmented.wp_findFree (fun _ _ => rfl) start free

/-- Text that stays in a cell whose segment is held. -/
theorem wp_inCell {α : Type} {c : Nat} (hc : c < tableSize) {m : Memory} {p : Text α}
    {Q : α → Ghost Nat → Prop}
    (confined : Protocol.Confined (Segmented.InCell c) (Segmented.InCell c) p m)
    (held : g.held = some (c / hashtableSegmentSize, m)) (allowed : ∀ g a, S g a)
    (post : Q (exec 0 p m).1 (g.write (c / hashtableSegmentSize) (exec 0 p m).2)) :
    (segments.protocol W strict).wp S p g Q :=
  Segmented.wp_inCell (cells_segments ▸ hc) confined held rfl rfl allowed post

theorem wp_chooseCell (key : Key) (free : g.held = none) :
    (segments.protocol W strict).wp S (chooseCell key.bytes) g fun idx g' =>
      g'.held = none ∧ (idx = -1 ∨ ∃ c < tableSize, idx = c) := by
  apply Protocol.wp_bind
  apply Protocol.wp_mono (wp_findFilled key free)
  rintro idx g₁ ⟨later, free₁, rfl | ⟨c, hc, rfl, _⟩⟩
  · rw [if_pos rfl]
    apply Protocol.wp_mono (wp_findFree key free₁)
    intro idx g₂ place
    exact place
  · rw [if_neg (by omega)]
    exact ⟨free₁, Or.inr ⟨c, hc, rfl⟩⟩

section Get

variable {m₀ : Memory}

/-- Copying the value of a cell that was seen filled. -/
theorem wp_getCell (short : ∀ v ∈ W, v.length < valueSize) (ends : strict → segments.RecordsEnd m₀)
    {c : Nat} (hc : c < tableSize) (free : g.held = none)
    (before : (segments.protocol W strict).Rely (c / hashtableSegmentSize) m₀
      (g.seen (c / hashtableSegmentSize)))
    (filled : markAt (g.seen (c / hashtableSegmentSize)) c = .filled) :
    (segments.protocol W strict).wp S (getCell c) g fun r g' =>
      g'.held = none ∧ (strict → r.1 = 0 → r.2 ∈ segments.whole W m₀) := by
  apply Protocol.wp_acquire free (segment_lt hc)
  intro m rely
  apply Protocol.wp_bind
  rw [tableBytes, ← cells_segments]
  apply Segmented.wp_copyValue short ends (cells_segments ▸ hc) rfl rfl before filled rely
  intro v whole
  exact Protocol.wp_release rfl (Function.update_self _ _ _) (Protocol.rely_refl _ _ _)
    ⟨rfl, fun holds _ => whole holds⟩

theorem wp_get (short : ∀ v ∈ W, v.length < valueSize) (ends : strict → segments.RecordsEnd m₀)
    (key : Key)
    (value : List UInt8) (now : Nat) :
    (segments.protocol W strict).wp S (get key.bytes value) (.fresh m₀ now) fun r g' =>
      g'.held = none ∧ (strict → r.1 = 0 → r.2 ∈ segments.whole W m₀) := by
  apply Protocol.wp_bind
  apply Protocol.wp_mono (wp_findFilled key rfl)
  rintro idx g₁ ⟨later, free, rfl | ⟨c, hc, rfl, found⟩⟩
  · rw [if_neg (by decide)]
    exact ⟨free, fun _ failed => absurd (show (-1 : Int) = 0 from failed) (by decide)⟩
  · rw [if_pos (Int.natCast_nonneg c), Int.toNat_natCast]
    rw [filledAt, decide_eq_true_iff] at found
    exact wp_getCell short ends hc free (later.rely _) found.1

end Get

/-! ## The operations that write -/

/-- What is left under a segment after a record was written in it. -/
theorem rely_writeRecord {m : Memory} {c k : Nat} (key : Key) (value : Value) (death : Int)
    (written : value.bytes ∈ W) :
    (segments.protocol W strict).Rely k m (writeRecord m c key.bytes value.bytes death) := by
  apply Segmented.rely_of_cell (writeRecord_outside m c key value death)
  refine Or.inr ?_
  show valueAt _ c ∈ W
  rw [valueAt_writeRecord]
  exact written

theorem confined_intBytes {c : Nat} (x : Int) (m : Memory) :
    Protocol.Confined (Segmented.InCell c) (Segmented.InCell c)
      (memcpyTo (recordSize * c + deathOffset) (intBytes x) : Text Unit) m := by
  apply Protocol.confined_memcpyTo
  intro a low high
  simp only [intBytes, List.length_cons, List.length_nil, deathOffset, keySize] at low high
  simp only [Segmented.InCell, recordSize] at low high ⊢
  omega

theorem wp_setCell (allowed : ∀ g a, S g a) (key : Key) (value : Value)
    (written : value.bytes ∈ W) (ttl : Int) {c : Nat} (hc : c < tableSize) (free : g.held = none) :
    (segments.protocol W strict).wp S (setCell key.bytes value.bytes ttl c) g fun _ g' =>
      g'.held = none := by
  have keyFits := key.fits
  have valueFits := value.fits
  simp only [keySize] at keyFits
  simp only [valueSize] at valueFits
  apply Protocol.wp_acquire free (segment_lt hc)
  intro m _
  apply Protocol.wp_bind
  apply wp_inCell hc _ rfl allowed
  · apply Protocol.wp_clock
    intro now _
    apply Protocol.wp_bind
    apply wp_inCell hc (confined_intBytes _ _) rfl allowed
    apply Protocol.wp_bind
    apply wp_inCell hc _ rfl allowed
    · apply Protocol.wp_bind
      apply wp_inCell hc _ rfl allowed
      · refine Protocol.wp_release rfl (Function.update_self _ _ _) ?_ rfl
        simp only [exec_memcpyTo, exec_strcpyTo]
        exact rely_writeRecord key value _ written
      · refine ⟨?_, trivial⟩
        simp only [Segmented.InCell, recordSize, keySize]
        omega
    · apply Protocol.confined_strcpyTo
      intro x low high
      simp only [valueOffset, keySize] at low high
      simp only [Segmented.InCell, recordSize] at low high ⊢
      omega
  · apply Protocol.confined_strcpyTo
    intro x low high
    simp only [Segmented.InCell, recordSize] at low high ⊢
    omega

theorem wp_set (allowed : ∀ g a, S g a) (key : Key) (value : Value) (written : value.bytes ∈ W)
    (ttl : Int) (free : g.held = none) :
    (segments.protocol W strict).wp S (set key.bytes value.bytes ttl) g fun _ g' =>
      g'.held = none := by
  apply Protocol.wp_bind
  apply Protocol.wp_mono (wp_chooseCell key free)
  rintro idx g₁ ⟨free₁, rfl | ⟨c, hc, rfl⟩⟩
  · rw [if_neg (by decide)]
    exact free₁
  · rw [if_pos (Int.natCast_nonneg c), Int.toNat_natCast]
    exact wp_setCell allowed key value written ttl hc free₁

theorem wp_delCell (allowed : ∀ g a, S g a) {c : Nat} (hc : c < tableSize) (free : g.held = none) :
    (segments.protocol W strict).wp S (delCell c) g fun _ g' => g'.held = none := by
  apply Protocol.wp_acquire free (segment_lt hc)
  intro m _
  apply Protocol.wp_bind
  apply wp_inCell hc _ rfl allowed
  · exact Protocol.wp_release rfl (Function.update_self _ _ _) (Segmented.rely_bury c _) rfl
  · refine ⟨?_, trivial⟩
    simp only [Segmented.InCell, recordSize, keySize]
    omega

theorem wp_del (allowed : ∀ g a, S g a) (key : Key) (free : g.held = none) :
    (segments.protocol W strict).wp S (del key.bytes) g fun _ g' => g'.held = none := by
  apply Protocol.wp_bind
  apply Protocol.wp_mono (wp_findFilled key free)
  rintro idx g₁ ⟨_, free₁, rfl | ⟨c, hc, rfl, _⟩⟩
  · rw [if_neg (by decide)]
    exact free₁
  · rw [if_pos (Int.natCast_nonneg c), Int.toNat_natCast]
    exact wp_delCell allowed hc free₁

theorem wp_getTtl {idx : Nat} (inside : idx < tableSize) (free : g.held = none) :
    (segments.protocol W strict).wp S (getTtl idx) g fun _ g' => g'.held = none := by
  apply Protocol.wp_acquire free (segment_lt inside)
  intro m _
  apply Protocol.wp_bind
  refine Protocol.wp_confined (W := fun _ => False) (Protocol.confined_memcpyFrom
    fun x low high => ?_) rfl (fun a there => there) (fun a never => never.elim) ?_
  · refine Segmented.guards_cell (cells_segments ▸ inside) rfl (by omega) ?_
    simp only [deathOffset, keySize, recordSize] at high ⊢
    omega
  · rw [exec_memcpyFrom]
    exact Protocol.wp_release rfl (Function.update_self _ _ _) (Protocol.rely_refl _ _ _) rfl

/-! ## The collector -/

/-- The visit to a cell whose segment is held. -/
theorem wp_collectCell {cur : Nat} (hc : cur < tableSize) {m : Memory}
    (held : g.held = some (cur / hashtableSegmentSize, m)) (collected : Int) :
    (segments.protocol W strict).wp (MayStore (.call .collectGarbage)) (collectCell cur collected) g
      fun _ g' => ∃ m', g'.held = some (cur / hashtableSegmentSize, m') ∧ g'.seen = g.seen ∧
        (segments.protocol W strict).Rely (cur / hashtableSegmentSize) m m' := by
  have guarded : ∀ a, recordSize * cur ≤ a → a < recordSize * cur + recordSize →
      (segments.protocol W strict).guards (cur / hashtableSegmentSize) a :=
    fun a low high => Segmented.guards_cell (cells_segments ▸ hc) rfl low high
  have mark := guarded (recordSize * cur + keySize) (by omega)
    (by simp only [recordSize, keySize]; omega)
  have same : (g.read 0).held = g.held := rfl
  apply Protocol.wp_clock
  intro now _
  apply Protocol.wp_bind
  refine Protocol.wp_confined (W := fun _ => False) (Protocol.confined_memcpyFrom
    fun x low high => guarded x ?_ ?_) held (fun a there => there) (fun a never => never.elim) ?_
  · omega
  · simp only [deathOffset, keySize, recordSize] at high ⊢
    omega
  rw [exec_memcpyFrom]
  split
  · rename_i old
    apply Protocol.wp_fetch rfl mark
    split
    · refine Protocol.wp_put rfl mark rfl ⟨cur, _, m, hc, rfl, rfl, rfl, old.2⟩ ?_
      exact ⟨_, rfl, rfl, Segmented.rely_bury cur _⟩
    · exact ⟨m, rfl, rfl, Protocol.rely_refl _ _ _⟩
  · exact ⟨m, rfl, rfl, Protocol.rely_refl _ _ _⟩

/-- The loop of the collector, with the bytes `m` under the segment that is held. -/
theorem wp_collectCells {walk : List Nat} (inside : ∀ c ∈ walk, c < tableSize) {block : Nat}
    (named : block < hashtableSegmentsCount) {m : Memory} (held : g.held = some (block, m))
    (rely : (segments.protocol W strict).Rely block (g.seen block) m) (collected : Int) :
    (segments.protocol W strict).wp (MayStore (.call .collectGarbage))
      (collectCells walk block collected) g fun _ g' => g'.held = none := by
  induction walk generalizing block m collected g with
  | nil => exact Protocol.wp_release held rfl rely rfl
  | cons cur rest ih =>
      have hcur : cur < tableSize := inside cur (by simp)
      have visit : ∀ {g₁ : Ghost Nat} {m₁ : Memory},
          g₁.held = some (cur / hashtableSegmentSize, m₁) →
          (segments.protocol W strict).Rely (cur / hashtableSegmentSize)
            (g₁.seen (cur / hashtableSegmentSize)) m₁ →
          (segments.protocol W strict).wp (MayStore (.call .collectGarbage)) (do
            let collected ← collectCell cur collected
            collectCells rest (cur / hashtableSegmentSize) collected) g₁
            fun _ g' => g'.held = none := by
        intro g₁ m₁ held₁ rely₁
        apply Protocol.wp_bind
        apply Protocol.wp_mono (wp_collectCell hcur held₁ collected)
        rintro collected' g₂ ⟨m₂, held₂, seen₂, rely₂⟩
        apply ih (fun c hc => inside c (by simp [hc])) (segment_lt hcur) held₂
        rw [seen₂]
        exact Protocol.rely_trans _ rely₁ rely₂
      by_cases border : cur / hashtableSegmentSize ≠ block
      · rw [collectCells, if_pos border]
        apply Protocol.wp_release held rfl rely
        apply Protocol.wp_acquire rfl (segment_lt hcur)
        intro m₁ _
        exact visit rfl (Protocol.rely_acquire _ m₁)
      · obtain rfl : cur / hashtableSegmentSize = block := by simpa using border
        rw [collectCells, if_neg (by simp)]
        exact visit held rely

theorem wp_collectGarbage (free : g.held = none) :
    (segments.protocol W strict).wp (MayStore (.call .collectGarbage)) collectGarbage g
      fun _ g' => g'.held = none := by
  have first : 0 < hashtableSegmentsCount := by decide
  -- for any list of cells, so that the list of all of them is not evaluated
  have pass : ∀ walk : List Nat, (∀ c ∈ walk, c < tableSize) →
      (segments.protocol W strict).wp (MayStore (.call .collectGarbage))
        (lock 0 (.collectGarbage 0) >>= fun _ => collectCells walk 0 0) g
        fun _ g' => g'.held = none := by
    intro walk inside
    apply Protocol.wp_acquire free first
    intro m _
    exact wp_collectCells inside first rfl (Protocol.rely_acquire _ m) 0
  rw [collectGarbage]
  exact pass _ fun c hc => List.mem_range.mp hc

/-! ## All operations -/

/-- Every operation is correct for the protocol, from any knowledge of the
table that began as `m₀`. -/
theorem wp_textOf {m₀ : Memory} (short : ∀ v ∈ W, v.length < valueSize)
    (ends : strict → segments.RecordsEnd m₀) (op : Op)
    (written : ∀ key value ttl, op = .call (.set key value ttl) → value.bytes ∈ W) (now : Nat) :
    (segments.protocol W strict).wp (MayStore op) (textOf op) (.fresh m₀ now)
      (Returns strict (segments.whole W m₀) op) := by
  cases op with
  | getTtl idx inside =>
      apply Protocol.wp_bind
      exact Protocol.wp_mono (wp_getTtl inside rfl) fun _ _ free => free
  | call c =>
      cases c with
      | get key value =>
          apply Protocol.wp_bind
          exact Protocol.wp_mono (wp_get short ends key value now) fun _ _ ends => ends
      | set key value ttl =>
          apply Protocol.wp_bind
          exact Protocol.wp_mono (wp_set (fun _ _ => trivial) key value (written key value ttl rfl)
            ttl rfl) fun _ _ free => free
      | del key =>
          apply Protocol.wp_bind
          exact Protocol.wp_mono (wp_del (fun _ _ => trivial) key rfl) fun _ _ free => free
      | collectGarbage =>
          apply Protocol.wp_bind
          exact Protocol.wp_mono (wp_collectGarbage rfl) fun _ _ free => free

/-! ## Whole runs -/

/-- No operation returns with a semaphore. -/
theorem Returns.free {whole : Set (List UInt8)} (op : Op) (r : Reply) (γ : Ghost Nat)
    (returns : Returns strict whole op r γ) : γ.held = none := by
  cases op with
  | getTtl idx inside => exact returns
  | call c =>
      cases c with
      | get key value => exact returns.1
      | _ => exact returns

/-- Every process knows what is right along every run. -/
theorem supported_of_run {mem : Memory} (ends : strict → segments.RecordsEnd mem) {clock : Nat}
    {acts : List (Machine.Act Op)} {s : State} (ran : Run step Always (initial mem clock) acts s) :
    ∃ whole g, (segments.protocol (setValues acts) strict).Supported MayStore
      (Returns strict (segments.whole (setValues acts) mem)) mem s whole g := by
  have correct : ∀ (_ : State) p op now, .start p op ∈ acts →
      (segments.protocol (setValues acts) strict).wp (MayStore op) (textOf op) (.fresh mem now)
        (Returns strict (segments.whole (setValues acts) mem) op) := by
    intro _ p op now started
    refine wp_textOf ?_ ends op ?_ now
    · rintro v ⟨_, _, value, _, _, rfl⟩
      exact value.fits
    · rintro key value ttl rfl
      exact ⟨p, key, value, ttl, started, rfl⟩
  exact Protocol.supported_of_run correct Returns.free ran.mem_acts

/-- Where every record ends inside its cell, every reachable configuration
keeps the locking discipline, and a `get` that found its key answers with a
value that was written as a whole. -/
theorem lock_discipline {mem : Memory} (ends : segments.RecordsEnd mem) {clock : Nat}
    {acts : List (Machine.Act Op)} {s : State} (ran : Run step Always (initial mem clock) acts s) :
    Machine.Disciplined segments.toSemaphores segments.guard tableBytes textOf s ∧
      ∀ p key value r, s.procs p = some (.call (.get key value), .ret r) → r.code = 0 →
        r.value ∈ segments.whole (setValues acts) mem := by
  have strictly : True → segments.RecordsEnd mem := fun _ => ends
  obtain ⟨whole, g, supported⟩ := supported_of_run strictly ran
  constructor
  · rw [tableBytes, ← cells_segments]
    exact supported.disciplined trivial Returns.free
  · intro p key value r reached found
    exact ((supported.knows p).text reached).2 trivial found

/-- A zeroed table has no records at all. -/
theorem recordsEnd_zero : segments.RecordsEnd fun _ => 0 := by
  intro c _ filled
  cases filled

/-- Cell 0 has the empty key with the value `1`, and the others are free. -/
def firstRecord : Memory := fun a =>
  if a = keySize then clFilled else if a = valueOffset then 49 else 0

theorem recordsEnd_firstRecord : segments.RecordsEnd firstRecord := by
  intro c _ filled
  have first : c = 0 := by
    by_contra other
    have free : firstRecord (recordSize * c + keySize) = 0 := by
      unfold firstRecord recordSize keySize valueOffset keySize
      rw [if_neg (by omega), if_neg (by omega)]
    rw [markAt, free] at filled
    cases filled
  subst first
  show (firstRecord.cstr valueOffset valueSize).length < valueSize
  decide

/-- A `get` of the empty key, which is in cell 0. -/
def getFirst : Op := .call (.get ⟨[], by decide, by decide⟩ [])

/-- Process 0 starts that `get`, and process 1 a `get_ttl` of the same record. -/
def bothStart : List (Machine.Act Op) := [.start 0 getFirst, .start 1 (.getTtl 0 tableSize_pos)]

/-- Process 1 cannot enter the segment while process 0 copies the value in it.
The `get` answers with that value, and then process 1 is in the segment. -/
theorem lock_discipline_getTtl : ∃ s t,
    Run step Always (initial firstRecord 0) (bothStart ++ List.replicate 6 (.run 0)) s ∧
    s.holds = [(0, 0)] ∧ (step s (.run 1)).isNone ∧
    Machine.Disciplined segments.toSemaphores segments.guard tableBytes textOf s ∧
    Run step Always (initial firstRecord 0) (bothStart ++ List.replicate 8 (.run 0) ++ [.run 1]) t ∧
    t.holds = [(1, 0)] ∧ t.procs 0 = some (getFirst, .ret ⟨0, [49]⟩) ∧
    Machine.Disciplined segments.toSemaphores segments.guard tableBytes textOf t ∧
    [49] ∈ segments.whole (setValues (bothStart ++ List.replicate 8 (.run 0) ++ [.run 1]))
      firstRecord := by
  have before : Run step Always (initial firstRecord 0)
      (bothStart ++ List.replicate 6 (.run 0)) _ :=
    .of_foldlM rfl
  have after : Run step Always (initial firstRecord 0)
      (bothStart ++ List.replicate 8 (.run 0) ++ [.run 1]) _ :=
    .of_foldlM rfl
  obtain ⟨disciplined, whole⟩ := lock_discipline recordsEnd_firstRecord after
  exact ⟨_, _, before, rfl, rfl, (lock_discipline recordsEnd_firstRecord before).1, after, rfl, rfl,
    disciplined, whole 0 _ _ _ rfl rfl⟩

/-! ## A record without an end -/

/-- Every cell is filled, and only the first byte is a NUL. -/
def unended : Memory := fun a => if a = 0 then 0 else 1

/-- Process 0 executes `q` alone, with or without the semaphore of segment 0. -/
structure Paused (q : Text Reply) (held : List (Nat × Nat)) (s : State) : Prop where
  mem : s.mem = unended
  procs : s.procs 0 = some (getFirst, q)
  holds : s.holds = held
  value : s.value = if held = [] then fun _ => 1 else Function.update (fun _ => 1) 0 0

namespace Paused

variable {held : List (Nat × Nat)} {s : State}

theorem fetch {a : Nat} {f : UInt8 → Text Reply} (h : Paused (fetch a >>= f) held s) :
    ∃ t, step s (.run 0) = some t ∧ Paused (f (unended a)) held t := by
  refine ⟨s.goOn 0 getFirst (f (s.mem a)), ?_, h.mem, ?_, h.holds, h.value⟩
  · simp only [step, Machine.step, h.procs]
    rfl
  · show Function.update s.procs 0 (some (getFirst, f (s.mem a))) 0 = _
    rw [Function.update_self, h.mem]

theorem lock {pt : Point} {f : Unit → Text Reply}
    (h : Paused (PosixHashTable.lock 0 pt >>= f) [] s) :
    ∃ t, step s (.run 0) = some t ∧ Paused (f ()) [(0, 0)] t := by
  have free : s.value = fun _ => 1 := h.value
  refine ⟨⟨s.mem, Function.update s.value 0 0, s.clock,
    Function.update s.procs 0 (some (getFirst, f ())), [(0, 0)]⟩,
    ?_, h.mem, by simp, rfl, ?_⟩
  · simp only [step, Machine.step, h.procs]
    show (if 1 ≤ s.value 0 then some _ else none) = _
    rw [free, h.holds]
    rfl
  · rw [free]
    rfl

theorem unlock {f : Unit → Text Reply} (h : Paused (PosixHashTable.unlock 0 >>= f) [(0, 0)] s) :
    ∃ t, step s (.run 0) = some t ∧ Paused (f ()) [] t := by
  have taken : s.value = Function.update (fun _ => 1) 0 0 := h.value
  refine ⟨⟨s.mem, Function.update s.value 0 (s.value 0 + 1), s.clock,
    Function.update s.procs 0 (some (getFirst, f ())), s.holds.erase (0, 0)⟩,
    ?_, h.mem, by simp, ?_, ?_⟩
  · simp only [step, Machine.step, h.procs]
    rfl
  · show s.holds.erase (0, 0) = []
    rw [h.holds]
    rfl
  · show Function.update s.value 0 (s.value 0 + 1) = _
    rw [taken, Function.update_self, Function.update_idem]
    exact Function.update_eq_self 0 fun _ => 1

/-- The copy goes on through `n` bytes that are not NUL. -/
theorem copy {a n room : Nat} {k : List UInt8 → Text Reply} (positive : 0 < a)
    (h : Paused (strcpyFrom a (n + room) >>= k) held s) :
    ∃ acts t k', Run step Always s acts t ∧ Paused (strcpyFrom (a + n) room >>= k') held t := by
  induction n generalizing a k s with
  | zero =>
      rw [Nat.zero_add] at h
      exact ⟨[], s, k, .nil, h⟩
  | succ n ih =>
      have first : strcpyFrom a (n + 1 + room) = (do
          let b ← Prog.fetch a
          if b = 0 then pure [] else do
            let bs ← strcpyFrom (a + 1) (n + room)
            pure (b :: bs) : Text (List UInt8)) := by
        rw [Nat.add_right_comm]
        rfl
      rw [first, bind_assoc] at h
      obtain ⟨t, taken, there⟩ := h.fetch
      have more : unended a ≠ 0 := by
        rw [unended, if_neg (by omega)]
        decide
      rw [if_neg more, bind_assoc] at there
      obtain ⟨acts, u, k', ran, later⟩ := ih (Nat.succ_pos a) there
      rw [Nat.add_right_comm a 1 n] at later
      exact ⟨_, u, k', .cons trivial taken ran, later⟩

end Paused

/-- What the `get` does with the cell that it found. -/
def answer (cell : Int) : Text Reply :=
  (if 0 ≤ cell then getCell cell.toNat else pure (-1, [])) >>= fun found => pure ⟨found.1, found.2⟩

/-- The text of that `get`, up to the end of its first critical section. -/
theorem textOf_getFirst : ∃ rest : Text Int, textOf getFirst =
    lock 0 (.findFilled 0) >>= fun _ => cellFilled [] 0 >>= fun hit =>
      (if hit then (unlock 0 >>= fun _ => pure 0) else rest) >>= answer := by
  have start : hash tableSize [] = 0 := by decide +kernel
  have first : probeOrder tableSize 0 = 0 :: (List.range' 1 (tableSize - 0 - 1) ++ List.range 0) :=
    probeOrder_cons tableSize_pos
  refine ⟨Scan.probe id hashtableSegmentSize .findFilled (cellFilled [])
    (List.range' 1 (tableSize - 0 - 1) ++ List.range 0) 0, ?_⟩
  rw [getFirst, textOf, code, get, findFilled, start, Scan.find_eq_resume tableSize_pos, first,
    Scan.resume, Scan.probe_visit]
  simp only [bind_assoc]
  rfl

/-- That `get` comes to read a byte of segment 1 while it holds segment 0. -/
theorem getFirst_leaves : ∃ acts s text, Run step Always (initial unended 0) acts s ∧
    s.procs 0 = some (getFirst, text) ∧
    text.loads = some (recordSize * hashtableSegmentSize) ∧ s.holds = [(0, 0)] := by
  obtain ⟨rest, text⟩ := textOf_getFirst
  have h₀ : Paused (textOf getFirst) []
      ((initial unended 0).goOn 0 getFirst (textOf getFirst)) :=
    ⟨rfl, by simp [Machine.goOn], rfl, rfl⟩
  have taken₀ : step (initial unended 0) (.start 0 getFirst) = some _ := rfl
  rw [text] at h₀ taken₀
  obtain ⟨s₁, taken₁, h₁⟩ := h₀.lock
  rw [cellFilled, bind_assoc] at h₁
  obtain ⟨s₂, taken₂, h₂⟩ := h₁.fetch
  have filled : (unended (recordSize * 0 + keySize) == clFilled) = true := by decide
  rw [if_pos filled, strcmpEq, bind_assoc] at h₂
  obtain ⟨s₃, taken₃, h₃⟩ := h₂.fetch
  have ends : (unended (recordSize * 0) == 0) = true := by decide
  rw [pure_bind, if_pos ends, bind_assoc] at h₃
  obtain ⟨s₄, taken₄, h₄⟩ := h₃.unlock
  rw [pure_bind, answer, if_pos (by decide), getCell, bind_assoc] at h₄
  obtain ⟨s₅, taken₅, h₅⟩ := h₄.lock
  have split : tableBytes - (recordSize * 0 + valueOffset) =
      (recordSize * hashtableSegmentSize - valueOffset) +
        (tableBytes - recordSize * hashtableSegmentSize - 1 + 1) := by decide
  rw [bind_assoc] at h₅
  obtain ⟨acts, s₆, k, ran, h₆⟩ := Paused.copy (by decide) (split ▸ h₅)
  refine ⟨_, s₆, _, .cons trivial taken₀ (.cons trivial taken₁ (.cons trivial taken₂
    (.cons trivial taken₃ (.cons trivial taken₄ (.cons trivial taken₅ ran))))), h₆.procs, ?_,
    h₆.holds⟩
  rfl

/-- With such a record the locking discipline is broken. -/
theorem discipline_needs_ends : ¬ ∀ mem clock acts s, Run step Always (initial mem clock) acts s →
    Machine.Disciplined segments.toSemaphores segments.guard tableBytes textOf s := by
  intro always
  obtain ⟨acts, s, text, ran, running, loads, holds⟩ := getFirst_leaves
  obtain ⟨_, i, held, guarded⟩ := (always _ _ _ _ ran).loaded 0 _ _ _ running loads
  rw [holds] at held
  cases List.mem_singleton.mp held
  exact absurd guarded (by decide)

end PosixHashTable
