import Technosphere.ForkJoin.Footprint

/-!
# Jobs without races

Two tasks collide when both may go on with an access to one cell. Where the tasks of
every fork have disjoint footprints, no schedule lets two tasks collide, and where
the serial execution comes to an end, no schedule leads to undefined behaviour.
-/

namespace ForkJoin

namespace Job

variable {π ι ν : Type}

/-- Two tasks that can go on, and the next access of both is to one cell. -/
inductive Collides : Job π ι ν → Prop where
  | here {first second rest i} : Accesses first i → Accesses second i →
      Collides (both first second rest)
  | first {first second rest} : Collides first → Collides (both first second rest)
  | second {first second rest} : Collides second → Collides (both first second rest)

/-- A task that can go on has nothing defined to do. -/
inductive Faulty : Job π ι ν → Prop where
  | here : Faulty undefined
  | first {first second rest} : Faulty first → Faulty (both first second rest)
  | second {first second rest} : Faulty second → Faulty (both first second rest)

end Job

open Job Set

variable {π ι ν : Type} {body : π → Job π ι ν} {region : π → Set ι} {S : Set ι}

theorem Confined.not_collides {t : Job π ι ν} (h : Confined region S t) : ¬ t.Collides := by
  intro collides
  induction collides generalizing S with
  | here left right =>
      cases h with
      | both _ _ apart first second _ =>
          exact disjoint_left.mp apart (first.mem_of_accesses left) (second.mem_of_accesses right)
  | first _ ih =>
      cases h with
      | both _ _ _ first _ _ => exact ih first
  | second _ ih =>
      cases h with
      | both _ _ _ _ second _ => exact ih second

variable [DecidableEq ι]

theorem Exec.not_faulty {t : Job π ι ν} {m m' : ι → ν} {n : Nat} (run : Exec body t m n m') :
    ¬ t.Faulty := by
  intro faulty
  induction faulty generalizing m n m' with
  | here => cases run
  | first _ ih =>
      cases run with
      | both first _ _ => exact ih first
  | second _ ih =>
      cases run with
      | both _ second _ => exact ih second

/-- What holds in every state of every schedule. -/
theorem Executes.safe (respects : Respects region body) {t : Job π ι ν} {m m' : ι → ν}
    (h : Confined region S t) (run : Executes body t m m') {state : Job π ι ν × (ι → ν)}
    (reached : Reaches body (t, m) state) :
    ¬ state.1.Collides ∧ ¬ state.1.Faulty ∧ ∀ i, state.1.Accesses i → i ∈ S := by
  obtain ⟨n, run⟩ := run
  obtain ⟨n', left⟩ := Exec.reaches respects reached h run
  have confined := (Reaches.frame respects reached h).1
  exact ⟨confined.not_collides, left.not_faulty, fun i => confined.mem_of_accesses⟩

end ForkJoin
