import Technosphere.Emrakul.PosixHashTable.Atomicity
import Technosphere.SharedMemory.Termination

/-!
# Every call on the table of v2.0 ends

Nothing that the workers and the cleaner do can block a call for ever: from
every state that is reached, all calls that have been started end after a
bounded number of instructions, in every schedule that starts no others.
-/

namespace PosixHashTable

open SharedMemory Prog OpenAddressing Emrakul Transition

/-- More instructions than any call executes. -/
def callSteps : Nat := 3 * tableBytes

/-- More instructions than a probe executes. -/
def probeSteps : Nat := tableSize * (keySize + 4) + 2

theorem ends_findFilled (key : Key) : (findFilled key.bytes).Ends probeSteps := by
  have fits := key.fits
  apply Ends.find _ (hash_lt tableSize_pos _)
  intro cell
  refine ((Ends.fetch _).bind fun _ => .ite (Ends.strcmpEq _ _) (.pure _ _)).mono ?_
  omega

theorem ends_findFree (key : List UInt8) : (findFree key).Ends probeSteps :=
  (Ends.find (fun _ => (Ends.fetch _).bind fun _ => .pure _ 0) (hash_lt tableSize_pos _)).mono
    (by decide)

theorem ends_getCell (cell : Nat) : (getCell cell).Ends (tableBytes + 2) := by
  have copy : (strcpyFrom (recordSize * cell + valueOffset)
      (tableBytes - (recordSize * cell + valueOffset)) : Text _).Ends tableBytes :=
    (Ends.strcpyFrom _ _).mono (Nat.sub_le _ _)
  exact (Ends.acquire _ _).after fun _ => copy.bind fun _ => (Ends.release _).bind fun _ =>
    .pure _ 0

theorem ends_get (key : Key) (value : List UInt8) :
    (get key.bytes value).Ends (probeSteps + (tableBytes + 2)) :=
  (ends_findFilled key).bind fun _ => .ite (ends_getCell _) (.pure _ _)

theorem ends_setCell (key : Key) (value : Value) (ttl : Int) (cell : Nat) :
    (setCell key.bytes value.bytes ttl cell).Ends recordSize.succ.succ.succ := by
  have keyFits := key.fits
  have valueFits := value.fits
  have whole : (setCell key.bytes value.bytes ttl cell).Ends
      (1 + (key.bytes.length + 1 + (1 + (4 + (value.bytes.length + 1 + (1 + (1 + 0))))))) :=
    (Ends.acquire _ _).bind fun _ => (Ends.strcpyTo _ _).bind fun _ => Ends.clock.bind fun _ =>
      (Ends.memcpyTo _ _).bind fun _ => (Ends.strcpyTo _ _).bind fun _ =>
      (Ends.put _ _).bind fun _ => (Ends.release _).bind fun _ => .pure _ 0
  apply whole.mono
  simp only [keySize, valueSize, recordSize] at keyFits valueFits ⊢
  omega

theorem ends_set (key : Key) (value : Value) (ttl : Int) :
    (set key.bytes value.bytes ttl).Ends (probeSteps + probeSteps + recordSize.succ.succ.succ) := by
  have choose : (chooseCell key.bytes).Ends (probeSteps + probeSteps) :=
    (ends_findFilled key).bind fun _ => .ite (ends_findFree _) (.pure _ _)
  exact choose.bind fun _ => .ite (ends_setCell key value ttl _) (.pure _ _)

theorem ends_del (key : Key) : (del key.bytes).Ends (probeSteps + 3) :=
  (ends_findFilled key).bind fun _ => .ite ((Ends.acquire _ _).after fun _ =>
    (Ends.put _ _).after fun _ => (Ends.release _).after fun _ => .pure _ 0) (.pure _ _)

theorem ends_collectCell (cur : Nat) (collected : Int) : (collectCell cur collected).Ends 7 :=
  Ends.clock.after fun _ => (Ends.memcpyFrom _ 4).bind fun _ => .ite
    ((Ends.fetch _).after fun _ => .ite ((Ends.put _ _).bind fun _ => .pure _ 0) (.pure _ _))
    (.pure _ 2)

theorem ends_collectCells (cells : List Nat) (block : Nat) (collected : Int) :
    (collectCells cells block collected).Ends (cells.length * 9 + 1) := by
  induction cells generalizing block collected with
  | nil => exact (Ends.release _).bind fun _ => .pure _ 0
  | cons cur rest ih =>
      have visit : (do
          let collected ← collectCell cur collected
          collectCells rest (cur / hashtableSegmentSize) collected).Ends
            (7 + (rest.length * 9 + 1)) :=
        (ends_collectCell cur collected).bind fun _ => ih _ _
      have whole : (collectCells (cur :: rest) block collected).Ends
          (7 + (rest.length * 9 + 1) + 1 + 1) := by
        rw [collectCells]
        split
        · exact (Ends.release _).after fun _ => (Ends.acquire _ _).after fun _ => visit
        · exact visit.mono (by omega)
      apply whole.mono
      rw [List.length_cons]
      omega

theorem ends_collectGarbage : collectGarbage.Ends (tableSize * 9 + 2) := by
  have pass : ∀ cells : List Nat, cells.length = tableSize →
      (lock 0 (.collectGarbage 0) >>= fun _ => collectCells cells 0 0).Ends
        (tableSize * 9 + 2) := by
    intro cells all
    rw [← all]
    exact (Ends.acquire _ _).after fun _ => ends_collectCells cells 0 0
  rw [collectGarbage]
  exact pass _ List.length_range

theorem ends_code (call : Call) : (code call).Ends callSteps := by
  cases call with
  | get key value =>
      exact ((ends_get key value).bind fun _ => .pure _ 0).mono (by decide)
  | set key value ttl =>
      exact ((ends_set key value ttl).bind fun _ => .pure _ 0).mono (by decide)
  | del key => exact ((ends_del key).bind fun _ => .pure _ 0).mono (by decide)
  | collectGarbage => exact (ends_collectGarbage.bind fun _ => .pure _ 0).mono (by decide)

/-! ## Whole runs -/

/-- From every state that is reached, a schedule that starts no other calls is
never longer than the calls of the processes that are inside one, and it can be
continued until all calls are over and all semaphores are free. -/
theorem calls_end {mem : Memory} (ends : segments.RecordsEnd mem) {clock : Nat}
    {before acts : List (Machine.Act Call)} {s t : Workers}
    (reached : Run Workers.step Always (.initial mem clock) before s) {clients : Finset Nat}
    (inside : ∀ p, s.procs p ≠ none → p ∈ clients)
    (ran : Run Workers.step Machine.Onward s acts t) :
    acts.length ≤ clients.card * (callSteps + 1) ∧
      ∃ rest u, Run Workers.step Machine.Onward t rest u ∧ (∀ p, u.procs p = none) ∧
        u.holds = [] := by
  have bounded : Machine.Bounded clients callSteps s :=
    ⟨Machine.allEnd_of_run ends_code reached, inside⟩
  have disciplined {more : List (Machine.Act Call)} {u : Workers}
      (onward : Run Workers.step Machine.Onward s more u) :
      Machine.Disciplined segments.toSemaphores segments.guard tableBytes code u :=
    disciplined_of_run ends (reached.trans (onward.mono fun _ _ _ => trivial))
  refine ⟨bounded.length_le ran, ?_⟩
  obtain ⟨rest, u, ran', idle⟩ := (bounded.of_run ran).completes fun more busy =>
    (disciplined (ran.trans more)).progress busy
  exact ⟨rest, u, ran', idle, (disciplined (ran.trans ran')).nothing_held idle⟩

/-- A `set` that has just been started. -/
theorem calls_end_set : ∃ s rest u,
    Run Workers.step Always (.initial (fun _ => 0) 0) [.start 0 (.set keyD value1 10)] s ∧
      Run Workers.step Machine.Onward s rest u ∧ (∀ p, u.procs p = none) ∧ u.holds = [] := by
  have start : Workers.step (.initial (fun _ => 0) 0) (.start 0 (.set keyD value1 10)) = some _ :=
    rfl
  have started : Run Workers.step Always (.initial (fun _ => 0) 0)
      [.start 0 (.set keyD value1 10)] _ := .single trivial start
  have inside : ∀ p, _ → p ∈ insert 0 (∅ : Finset Nat) :=
    Machine.inside_of_start (fun p busy => absurd rfl busy) start
  obtain ⟨_, rest, u, ran, idle, free⟩ := calls_end recordsEnd_zero started inside .nil
  exact ⟨_, rest, u, started, ran, idle, free⟩

end PosixHashTable
