import Technosphere.ForkJoin.Footprint

/-!
# The work of a job

Where the tasks of every fork have disjoint footprints, every schedule makes the
steps of the serial execution, in another order: none is longer, and all that
come to an end are equally long. So bounds on the work of a job only have to be
found for its serial execution.
-/

namespace ForkJoin

open Job Set

variable {π ι ν : Type} [DecidableEq ι] {body : π → Job π ι ν}

/-- So many steps of some schedule lead from one state to the other. -/
inductive Schedule (body : π → Job π ι ν) (s : Job π ι ν × (ι → ν)) :
    Nat → Job π ι ν × (ι → ν) → Prop where
  | nil : Schedule body s 0 s
  | snoc {k t u} : Schedule body s k t → Step body t u → Schedule body s (k + 1) u

section Schedules

variable {region : π → Set ι} {S : Set ι} {t : Job π ι ν} {m m' : ι → ν} {n k : Nat}
  {state : Job π ι ν × (ι → ν)}

/-- What a schedule has left to do is what the serial execution has, less its steps. -/
theorem Exec.left (respects : Respects region body) (h : Confined region S t)
    (run : Exec body t m n m') (schedule : Schedule body (t, m) k state) :
    Confined region S state.1 ∧ ∃ left, n = k + left ∧ Exec body state.1 state.2 left m' := by
  induction schedule with
  | nil => exact ⟨h, n, (Nat.zero_add n).symm, run⟩
  | @snoc k t u _ step ih =>
      obtain ⟨inside, left, total, rest⟩ := ih
      obtain ⟨left', less, rest'⟩ := rest.step respects step inside
      exact ⟨(step.frame respects inside).1, left', by omega, rest'⟩

theorem Exec.schedule_le (respects : Respects region body) (h : Confined region S t)
    (run : Exec body t m n m') (schedule : Schedule body (t, m) k state) : k ≤ n := by
  obtain ⟨_, left, total, _⟩ := run.left respects h schedule
  exact total ▸ Nat.le_add_right k left

theorem Exec.schedule_eq (respects : Respects region body) (h : Confined region S t)
    (run : Exec body t m n m') (schedule : Schedule body (t, m) k state)
    (stuck : ∀ next, ¬ Step body state next) : k = n := by
  obtain ⟨_, left, total, rest⟩ := run.left respects h schedule
  obtain ⟨done, _⟩ := rest.progress stuck
  rw [done] at rest
  cases rest
  exact total.symm

end Schedules

/-! ## The work of the parts -/

section Parts

variable {t next rest first second : Job π ι ν} {m m' : ι → ν} {n : Nat}

/-- The work of a sequence is that of its parts. -/
theorem Exec.of_seq (run : Exec body (t.seq next) m n m') :
    ∃ a b m₁, n = a + b ∧ Exec body t m a m₁ ∧ Exec body next m₁ b m' := by
  induction n using Nat.strongRecOn generalizing t m with
  | ind n ih =>
      cases t with
      | done => exact ⟨0, n, m, (Nat.zero_add n).symm, .done, run⟩
      | undefined => cases run
      | read i rest =>
          cases run with
          | @read _ _ _ k _ run =>
              obtain ⟨a, b, m₁, total, own, other⟩ := ih k (Nat.lt_succ_self k) run
              exact ⟨a + 1, b, m₁, by omega, .read own, other⟩
      | write i v rest =>
          cases run with
          | @write _ _ _ _ k _ run =>
              obtain ⟨a, b, m₁, total, own, other⟩ := ih k (Nat.lt_succ_self k) run
              exact ⟨a + 1, b, m₁, by omega, .write own, other⟩
      | call f rest =>
          cases run with
          | @call _ _ _ k _ run =>
              rw [← Job.seq_assoc] at run
              obtain ⟨a, b, m₁, total, own, other⟩ := ih k (Nat.lt_succ_self k) run
              exact ⟨a + 1, b, m₁, by omega, .call own, other⟩
      | both first second rest =>
          cases run with
          | @both _ _ _ _ a _ b _ c _ run run' run'' =>
              obtain ⟨a', b', m₁, total, own, other⟩ := ih c (by omega) run''
              exact ⟨a + b + a' + 1, b', m₁, by omega, .both run run' own, other⟩

theorem Exec.of_call {f : π} (run : Exec body (.call f rest) m n m') :
    ∃ a b m₁, n = a + b + 1 ∧ Exec body (body f) m a m₁ ∧ Exec body rest m₁ b m' := by
  cases run with
  | call run =>
      obtain ⟨a, b, m₁, total, own, other⟩ := run.of_seq
      exact ⟨a, b, m₁, congrArg (· + 1) total, own, other⟩

/-- Nothing happens after the call. -/
theorem Exec.of_last_call {f : π} (run : Exec body (.call f .done) m n m') :
    ∃ a, n = a + 1 ∧ Exec body (body f) m a m' := by
  obtain ⟨a, b, m₁, total, own, other⟩ := run.of_call
  cases other
  exact ⟨a, total, own⟩

end Parts

end ForkJoin
