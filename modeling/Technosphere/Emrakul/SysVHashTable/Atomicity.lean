import Technosphere.Emrakul.SysVHashTable
import Technosphere.SharedMemory.Atomicity

/-!
# Every run of the workers of v1.0 is one of whole critical sections

Readers share a segment in v1.0, so several critical sections of one segment
can be under way at the same time. Whatever the workers do, they could have
taken whole sections in turn: readers change nothing, and a writer is alone.
-/

namespace SysVHashTable

open SharedMemory Prog OpenAddressing Emrakul Transition HashTableBase

/-! ## No call reads the clock -/

section Timeless

variable {α : Type}

theorem timeless_lock (block : Nat) (exclusive : Bool) (point : Point) {f : Unit → Text α}
    (h : (f ()).Timeless) : (lock block exclusive point >>= f).Timeless := h

theorem timeless_unlock (block : Nat) (exclusive : Bool) {f : Unit → Text α}
    (h : (f ()).Timeless) : (unlock block exclusive >>= f).Timeless := h

theorem timeless_resume {sem : Nat → Nat × Bool} {seg : Nat} {pt : Nat → Point}
    {test : Nat → Text Bool} (plain : ∀ c, (test c).Plain) (cells : List Nat) :
    (Scan.resume sem seg pt test cells).Timeless ∧
      ∀ block, (Scan.probe sem seg pt test cells block).Timeless := by
  induction cells with
  | nil => exact ⟨trivial, fun _ => trivial⟩
  | cons cur rest ih =>
      have visit : (Scan.probe sem seg pt test (cur :: rest) (cur / seg)).Timeless := by
        rw [Scan.probe_visit]
        refine (plain cur).timeless.bind fun hit => ?_
        cases hit
        · exact ih.2 _
        · exact trivial
      refine ⟨visit, fun block => ?_⟩
      by_cases hb : cur / seg ≠ block
      · rw [Scan.probe_border _ hb]
        exact visit
      · obtain rfl : cur / seg = block := by simpa using hb
        exact visit

theorem timeless_findFilled (key : List UInt8) : (findFilled geometry key).Timeless := by
  rw [findFilled, Scan.find_eq_resume (hash_lt geometry.tableSize_pos key)]
  exact (timeless_resume (cellFilled_plain key) _).1

theorem timeless_findFree (key : List UInt8) : (findFree geometry key).Timeless := by
  rw [findFree, Scan.find_eq_resume (hash_lt geometry.tableSize_pos key)]
  exact (timeless_resume cellFree_plain _).1

theorem timeless_getCell (cell : Nat) : (getCell geometry cell).Timeless := by
  apply timeless_lock
  refine (Plain.strcpyFrom _ _).timeless.bind fun copied => ?_
  exact timeless_unlock _ _ trivial

theorem timeless_setCell (key value : List UInt8) (ttl : Int) (cell : Nat) :
    (setCell geometry key value ttl cell).Timeless := by
  apply timeless_lock
  refine (Plain.strcpyTo _ _).timeless.bind fun _ => ?_
  refine (Plain.strcpyTo _ _).timeless.bind fun _ => ?_
  refine (Plain.put _ _).timeless.bind fun _ => ?_
  apply timeless_unlock
  split <;> exact trivial

theorem timeless_delCell (cell : Nat) : (delCell geometry cell).Timeless := by
  apply timeless_lock
  refine (Plain.put _ _).timeless.bind fun _ => ?_
  exact timeless_unlock _ _ trivial

theorem timeless_code (call : Call) : (code geometry call).Timeless := by
  cases call with
  | get key value =>
      refine Timeless.bind ?_ fun answer => trivial
      refine (timeless_findFilled key.bytes).bind fun cellIdx => ?_
      split
      · exact timeless_getCell _
      · exact trivial
  | set key value ttl =>
      refine Timeless.bind ?_ fun answer => trivial
      refine Timeless.bind ?_ fun cellIdx => ?_
      · refine (timeless_findFilled key.bytes).bind fun cellIdx => ?_
        split
        · exact timeless_findFree key.bytes
        · exact trivial
      · split
        · exact timeless_setCell _ _ _ _
        · exact trivial
  | del key =>
      refine Timeless.bind ?_ fun answer => trivial
      refine (timeless_findFilled key.bytes).bind fun cellIdx => ?_
      split
      · exact timeless_delCell _
      · exact trivial

end Timeless

/-! ## Whole runs -/

/-- Whatever the calls do instruction by instruction they could have done by
whole critical sections, with the same calls starting and ending in the same
order, the same replies, and the same bytes wherever nobody writes. -/
theorem shared_sections_are_atomic {mem : Memory} (ends : segments.RecordsEnd mem) {clock : Nat}
    {acts : List (Machine.Act Call)} {s : State}
    (ran : Run step Always (initial mem clock) acts s) :
    ∃ acts' u, Run (SharedMemory.step (code geometry)) Always (Config.idle mem) acts' u ∧
      acts'.filterMap Action.boundary = acts.filterMap Machine.Act.boundary ∧
      (∀ p c r, s.procs p = some (c, .ret r) → u.procs p = some (c, .ret r)) ∧
      ∀ a, (∀ p k, (k, true) ∈ Machine.heldBy s.holds p →
        segments.index (k, true) ≠ segments.guard a) → u.mem a = s.mem a := by
  obtain ⟨acts', u, ran', same, coarse⟩ := (Machine.coarse_initial mem clock).of_run
    (fun more => (disciplined_of_ends ends more).1)
    (fun more _ _ _ => Prog.readsClock_of_run timeless_code more) ran
  refine ⟨acts', u, ran', same, ?_, ?_⟩
  · intro p c r
    exact coarse.returned (disciplined_of_ends ends ran).1
  · intro a free
    apply coarse.settled
    rintro p ⟨k, exclusive⟩ held index
    cases exclusive with
    | true => exact absurd index (free p k held)
    | false =>
        show permitCount false ≠ workerProcessesCount
        decide

/-- Two readers are in one segment at the same time. -/
theorem shared_sections_of_two_readers : ∃ s acts' u, Run step Always (initIpc 0)
    [.start 0 (.get keyD []), .start 1 (.get keyD []), .run 0, .run 1] s ∧
      Machine.heldBy s.holds 0 = Machine.heldBy s.holds 1 ∧ Machine.heldBy s.holds 0 ≠ [] ∧
      Run (SharedMemory.step (code geometry)) Always (Config.idle fun _ => 0) acts' u ∧
      acts'.filterMap Action.boundary = [.start 0 (.get keyD []), .start 1 (.get keyD [])] := by
  have ran : Run step Always (initIpc 0)
      [.start 0 (.get keyD []), .start 1 (.get keyD []), .run 0, .run 1] _ :=
    .of_foldlM rfl
  have empty : segments.RecordsEnd fun _ => 0 := by
    intro c _ filled
    cases filled
  obtain ⟨acts', u, ran', same, _⟩ := shared_sections_are_atomic empty ran
  exact ⟨_, acts', u, ran, rfl, by decide, ran', same⟩

end SysVHashTable
