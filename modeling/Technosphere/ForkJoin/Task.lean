import Mathlib.Logic.Function.Basic
import Mathlib.Logic.Relation

/-!
# Tasks over a shared memory

The job of a task reads and writes single cells, calls procedures, and may start
two tasks and wait until both are done. `Step` lets any task that can go on make
the next access, so its runs are all interleavings. `Exec` is the serial execution, the
first of two tasks before the second, with the number of its steps.
-/

namespace ForkJoin

/-- Jobs that call procedures `π` and access cells `ι` with values `ν`. -/
inductive Job (π ι ν : Type) where
  | done
  /-- Nothing is said about what happens here. -/
  | undefined
  | read (i : ι) (rest : ν → Job π ι ν)
  | write (i : ι) (v : ν) (rest : Job π ι ν)
  | call (f : π) (rest : Job π ι ν)
  /-- Two tasks are started, and `rest` waits for both. -/
  | both (first second rest : Job π ι ν)

namespace Job

variable {π ι ν : Type}

def seq : Job π ι ν → Job π ι ν → Job π ι ν
  | done, next => next
  | undefined, _ => undefined
  | read i rest, next => read i fun v => (rest v).seq next
  | write i v rest, next => write i v (rest.seq next)
  | call f rest, next => call f (rest.seq next)
  | both first second rest, next => both first second (rest.seq next)

theorem seq_assoc (t u v : Job π ι ν) : (t.seq u).seq v = t.seq (u.seq v) := by
  induction t with
  | done => rfl
  | undefined => rfl
  | read i rest ih => exact congrArg (read i) (funext ih)
  | write i w rest ih => exact congrArg (write i w) ih
  | call f rest ih => exact congrArg (call f) ih
  | both first second rest _ _ ih => exact congrArg (both first second) ih

@[simp] theorem seq_done (t : Job π ι ν) : t.seq done = t := by
  induction t with
  | done => rfl
  | undefined => rfl
  | read i rest ih => exact congrArg (read i) (funext ih)
  | write i w rest ih => exact congrArg (write i w) ih
  | call f rest ih => exact congrArg (call f) ih
  | both first second rest _ _ ih => exact congrArg (both first second) ih

/-- The cells that one of the next steps reads or writes. -/
inductive Accesses : Job π ι ν → ι → Prop where
  | read {i rest} : Accesses (read i rest) i
  | write {i v rest} : Accesses (write i v rest) i
  | first {first second rest i} : Accesses first i → Accesses (both first second rest) i
  | second {first second rest i} : Accesses second i → Accesses (both first second rest) i

end Job

open Job

variable {π ι ν : Type} [DecidableEq ι]

/-- One access, call or join of any task that is not waiting. -/
inductive Step (body : π → Job π ι ν) : Job π ι ν × (ι → ν) → Job π ι ν × (ι → ν) → Prop where
  | read {i rest m} : Step body (read i rest, m) (rest (m i), m)
  | write {i v rest m} : Step body (write i v rest, m) (rest, Function.update m i v)
  | call {f rest m} : Step body (call f rest, m) ((body f).seq rest, m)
  | first {first first' second rest m m'} : Step body (first, m) (first', m') →
      Step body (both first second rest, m) (both first' second rest, m')
  | second {first second second' rest m m'} : Step body (second, m) (second', m') →
      Step body (both first second rest, m) (both first second' rest, m')
  | join {rest m} : Step body (both done done rest, m) (rest, m)

/-- Everything that some interleaving reaches. -/
abbrev Reaches (body : π → Job π ι ν) := Relation.ReflTransGen (Step body)

/-- Every schedule comes to an end, and it is the end of the task with this memory. -/
def Ends (body : π → Job π ι ν) (t : Job π ι ν) (m m' : ι → ν) : Prop :=
  Acc (fun next state => Step body state next) (t, m) ∧
    ∀ state, Reaches body (t, m) state → (∀ next, ¬ Step body state next) → state = (done, m')

/-- The serial execution from a memory to a memory in a number of steps. -/
inductive Exec (body : π → Job π ι ν) : Job π ι ν → (ι → ν) → Nat → (ι → ν) → Prop where
  | done {m} : Exec body done m 0 m
  | read {i rest m n m'} : Exec body (rest (m i)) m n m' → Exec body (read i rest) m (n + 1) m'
  | write {i v rest m n m'} : Exec body rest (Function.update m i v) n m' →
      Exec body (write i v rest) m (n + 1) m'
  | call {f rest m n m'} : Exec body ((body f).seq rest) m n m' →
      Exec body (call f rest) m (n + 1) m'
  | both {first second rest m₀ a m₁ b m₂ c m₃} : Exec body first m₀ a m₁ →
      Exec body second m₁ b m₂ → Exec body rest m₂ c m₃ →
      Exec body (both first second rest) m₀ (a + b + c + 1) m₃

variable {body : π → Job π ι ν} {t next : Job π ι ν} {m m₁ m' : ι → ν} {n : Nat}

theorem Exec.seq {a b : Nat} (h : Exec body t m a m₁) (h' : Exec body next m₁ b m') :
    Exec body (t.seq next) m (a + b) m' := by
  induction h with
  | done => simpa [Job.seq] using h'
  | read _ ih =>
      rw [Nat.add_right_comm]
      exact .read (ih h')
  | write _ ih =>
      rw [Nat.add_right_comm]
      exact .write (ih h')
  | call _ ih =>
      rw [Nat.add_right_comm]
      have rest := ih h'
      rw [seq_assoc] at rest
      exact .call rest
  | both first second _ _ _ ih =>
      rw [Nat.add_right_comm, Nat.add_assoc _ _ b]
      exact .both first second (ih h')

/-! ## Serial execution without the number of steps -/

/-- The serial execution comes to an end, with this memory. -/
def Executes (body : π → Job π ι ν) (t : Job π ι ν) (m m' : ι → ν) : Prop :=
  ∃ n, Exec body t m n m'

namespace Executes

variable {f : π} {i : ι} {v : ν} {rest : Job π ι ν}

theorem done (m : ι → ν) : Executes body done m m :=
  ⟨0, .done⟩

theorem read {rest : ν → Job π ι ν} (h : Executes body (rest (m i)) m m') :
    Executes body (read i rest) m m' :=
  let ⟨_, run⟩ := h
  ⟨_, .read run⟩

theorem write (h : Executes body rest (Function.update m i v) m') :
    Executes body (write i v rest) m m' :=
  let ⟨_, run⟩ := h
  ⟨_, .write run⟩

theorem call (h : Executes body (body f) m m₁) (h' : Executes body rest m₁ m') :
    Executes body (call f rest) m m' :=
  let ⟨_, run⟩ := h
  let ⟨_, run'⟩ := h'
  ⟨_, .call (run.seq run')⟩

theorem both {first second : Job π ι ν} {m₂ : ι → ν} (h : Executes body first m m₁)
    (h' : Executes body second m₁ m₂) (h'' : Executes body rest m₂ m') :
    Executes body (both first second rest) m m' :=
  let ⟨_, run⟩ := h
  let ⟨_, run'⟩ := h'
  let ⟨_, run''⟩ := h''
  ⟨_, .both run run' run''⟩

end Executes

end ForkJoin
