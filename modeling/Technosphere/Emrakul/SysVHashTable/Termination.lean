import Technosphere.Emrakul.SysVHashTable
import Technosphere.SharedMemory.Termination

/-!
# Every call on the table of v1.0 ends

A writer waits until all four permits of a segment are back, and readers come
and go meanwhile. Still no schedule can keep a call from its end for ever
without starting new ones.
-/

namespace SysVHashTable

open SharedMemory Prog OpenAddressing Emrakul Transition HashTableBase

/-- More instructions than any call executes. -/
def callSteps : Nat := 3 * geometry.tableBytes

/-- More instructions than a probe executes. -/
def probeSteps : Nat := geometry.tableSize * (keySize + 4) + 2

theorem ends_findFilled (key : Key) : (findFilled geometry key.bytes).Ends probeSteps := by
  have fits := key.fits
  apply Ends.find _ (hash_lt geometry.tableSize_pos _)
  intro cell
  refine ((Ends.fetch _).bind fun _ => .ite (Ends.strcmpEq _ _) (.pure _ _)).mono ?_
  omega

theorem ends_findFree (key : List UInt8) : (findFree geometry key).Ends probeSteps :=
  (Ends.find (fun _ => (Ends.fetch _).bind fun _ => .pure _ 0)
    (hash_lt geometry.tableSize_pos _)).mono (by decide)

theorem ends_getCell (cell : Nat) : (getCell geometry cell).Ends (geometry.tableBytes + 2) := by
  have copy : (strcpyFrom (recordSize * cell + valueOffset)
      (geometry.tableBytes - (recordSize * cell + valueOffset)) : Text _).Ends
        geometry.tableBytes :=
    (Ends.strcpyFrom _ _).mono (Nat.sub_le _ _)
  exact (Ends.acquire _ _).after fun _ => copy.bind fun _ => (Ends.release _).bind fun _ =>
    .pure _ 0

theorem ends_get (key : Key) (value : List UInt8) :
    (get geometry key.bytes value).Ends (probeSteps + (geometry.tableBytes + 2)) :=
  (ends_findFilled key).bind fun _ => .ite (ends_getCell _) (.pure _ _)

theorem ends_setCell (key : Key) (value : Value) (ttl : Int) (cell : Nat) :
    (setCell geometry key.bytes value.bytes ttl cell).Ends recordSize.succ.succ.succ := by
  have keyFits := key.fits
  have valueFits := value.fits
  have whole : (setCell geometry key.bytes value.bytes ttl cell).Ends
      (1 + (key.bytes.length + 1 + (value.bytes.length + 1 + (1 + (1 + 0))))) :=
    (Ends.acquire _ _).bind fun _ => (Ends.strcpyTo _ _).bind fun _ =>
      (Ends.strcpyTo _ _).bind fun _ => (Ends.put _ _).bind fun _ => (Ends.release _).bind fun _ =>
      .ite (.pure _ _) (.pure _ _)
  apply whole.mono
  simp only [keySize, valueSize, recordSize] at keyFits valueFits ⊢
  omega

theorem ends_set (key : Key) (value : Value) (ttl : Int) :
    (set geometry key.bytes value.bytes ttl).Ends
      (probeSteps + probeSteps + recordSize.succ.succ.succ) := by
  have choose : (chooseCell geometry key.bytes).Ends (probeSteps + probeSteps) :=
    (ends_findFilled key).bind fun _ => .ite (ends_findFree _) (.pure _ _)
  exact choose.bind fun _ => .ite (ends_setCell key value ttl _) (.pure _ _)

theorem ends_del (key : Key) : (del geometry key.bytes).Ends (probeSteps + 3) :=
  (ends_findFilled key).bind fun _ => .ite ((Ends.acquire _ _).after fun _ =>
    (Ends.put _ _).after fun _ => (Ends.release _).after fun _ => .pure _ 0) (.pure _ _)

theorem ends_code (call : Call) : (code geometry call).Ends callSteps := by
  cases call with
  | get key value => exact ((ends_get key value).bind fun _ => .pure _ 0).mono (by decide)
  | set key value ttl => exact ((ends_set key value ttl).bind fun _ => .pure _ 0).mono (by decide)
  | del key => exact ((ends_del key).bind fun _ => .pure _ 0).mono (by decide)

/-- From every state that is reached, a schedule that starts no other calls is
never longer than the calls of the processes that are inside one, and it can be
continued until all calls are over and all permits are free. -/
theorem shared_calls_end {mem : Memory} (ends : segments.RecordsEnd mem) {clock : Nat}
    {before acts : List (Machine.Act Call)} {s t : State}
    (reached : Run step Always (initial mem clock) before s) {clients : Finset Nat}
    (inside : ∀ p, s.procs p ≠ none → p ∈ clients) (ran : Run step Machine.Onward s acts t) :
    acts.length ≤ clients.card * (callSteps + 1) ∧
      ∃ rest u, Run step Machine.Onward t rest u ∧ (∀ p, u.procs p = none) ∧ u.holds = [] := by
  have bounded : Machine.Bounded clients callSteps s :=
    ⟨Machine.allEnd_of_run ends_code reached, inside⟩
  have disciplined {more : List (Machine.Act Call)} {u : State}
      (onward : Run step Machine.Onward s more u) :
      Machine.Disciplined segments.toSemaphores segments.guard geometry.tableBytes (code geometry)
        u :=
    (disciplined_of_ends ends (reached.trans (onward.mono fun _ _ _ => trivial))).1
  refine ⟨bounded.length_le ran, ?_⟩
  obtain ⟨rest, u, ran', idle⟩ := (bounded.of_run ran).completes fun more busy =>
    (disciplined (ran.trans more)).progress busy
  exact ⟨rest, u, ran', idle, (disciplined (ran.trans ran')).nothing_held idle⟩

/-- A reader and a writer of one key that have just been started. -/
theorem shared_calls_end_two : ∃ s rest u,
    Run step Always (initial (fun _ => 0) 0) [.start 0 (.get keyD []), .start 1 (.del keyD)] s ∧
      Run step Machine.Onward s rest u ∧ (∀ p, u.procs p = none) ∧ u.holds = [] := by
  have empty : segments.RecordsEnd fun _ => 0 := by
    intro c _ filled
    cases filled
  let s := Machine.goOn (initial (fun _ => 0) 0) 0 (.get keyD []) (code geometry (.get keyD []))
  have first : step (initial (fun _ => 0) 0) (.start 0 (.get keyD [])) = some s := rfl
  have second : step s (.start 1 (.del keyD)) =
      some (s.goOn 1 (.del keyD) (code geometry (.del keyD))) := rfl
  have started : Run step Always (initial (fun _ => 0) 0)
      [.start 0 (.get keyD []), .start 1 (.del keyD)] _ :=
    .cons trivial first (.single trivial second)
  have inside : ∀ p, _ → p ∈ insert 1 (insert 0 (∅ : Finset Nat)) :=
    Machine.inside_of_start (Machine.inside_of_start (fun p busy => absurd rfl busy) first) second
  obtain ⟨_, rest, u, ran, idle, free⟩ := shared_calls_end empty started inside .nil
  exact ⟨_, rest, u, started, ran, idle, free⟩

end SysVHashTable
