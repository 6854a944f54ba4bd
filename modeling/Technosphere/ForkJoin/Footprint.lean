import Mathlib.Data.Set.Function
import Mathlib.Data.Set.Lattice
import Mathlib.Order.CompletePartialOrder
import Technosphere.ForkJoin.Task

/-!
# Jobs with disjoint footprints

A job that only accesses cells of `S` leaves the others alone and does not depend
on them. When the two tasks of every fork have disjoint footprints, a step of any
task leads to a job whose serial execution has one step less and the same end, so
every schedule ends where the serial execution does.
-/

namespace ForkJoin

open Job Set

variable {π ι ν : Type} {body : π → Job π ι ν} {region : π → Set ι}

/-- All accesses are in `S`, procedures keep to their own region, and two tasks
of a fork share no cell. -/
inductive Confined (region : π → Set ι) : Set ι → Job π ι ν → Prop where
  | done {S} : Confined region S done
  | undefined {S} : Confined region S undefined
  | read {S i rest} : i ∈ S → (∀ v, Confined region S (rest v)) →
      Confined region S (read i rest)
  | write {S i v rest} : i ∈ S → Confined region S rest → Confined region S (write i v rest)
  | call {S f rest} : region f ⊆ S → Confined region S rest → Confined region S (call f rest)
  | both {S A B first second rest} : A ⊆ S → B ⊆ S → Disjoint A B →
      Confined region A first → Confined region B second → Confined region S rest →
      Confined region S (both first second rest)

namespace Confined

variable {S T : Set ι} {t next : Job π ι ν}

theorem mono (h : Confined region S t) (sub : S ⊆ T) : Confined region T t := by
  induction h with
  | done => exact .done
  | undefined => exact .undefined
  | read mem _ ih => exact .read (sub mem) fun v => ih v sub
  | write mem _ ih => exact .write (sub mem) (ih sub)
  | call within _ ih => exact .call (within.trans sub) (ih sub)
  | both inA inB apart first second _ _ _ ih =>
      exact .both (inA.trans sub) (inB.trans sub) apart first second (ih sub)

theorem seq (h : Confined region S t) (h' : Confined region S next) :
    Confined region S (t.seq next) := by
  induction h with
  | done => exact h'
  | undefined => exact .undefined
  | read mem _ ih => exact .read mem fun v => ih v h'
  | write mem _ ih => exact .write mem (ih h')
  | call within _ ih => exact .call within (ih h')
  | both inA inB apart first second _ _ _ ih => exact .both inA inB apart first second (ih h')

theorem mem_of_accesses {i : ι} (h : Confined region S t) (access : t.Accesses i) : i ∈ S := by
  induction access generalizing S with
  | read =>
      cases h with
      | read mem _ => exact mem
  | write =>
      cases h with
      | write mem _ => exact mem
  | first _ ih =>
      cases h with
      | both inA _ _ first _ _ => exact inA (ih first)
  | second _ ih =>
      cases h with
      | both _ inB _ _ second _ => exact inB (ih second)

end Confined

/-! ## Frames -/

/-- Every procedure keeps to its region. -/
def Respects (region : π → Set ι) (body : π → Job π ι ν) : Prop :=
  ∀ f, Confined region (region f) (body f)

variable {S : Set ι} {t : Job π ι ν} {m m' : ι → ν} {n : Nat}

theorem Confined.called (respects : Respects region body) {f : π} {rest : Job π ι ν}
    (within : region f ⊆ S) (h : Confined region S rest) :
    Confined region S ((body f).seq rest) :=
  ((respects f).mono within).seq h

variable [DecidableEq ι]

theorem eqOn_update {i : ι} (mem : i ∈ S) (v : ν) : EqOn m (Function.update m i v) Sᶜ := by
  intro j outside
  rw [Function.update_of_ne]
  rintro rfl
  exact outside mem

/-- A step stays in the footprint and changes nothing else. -/
theorem Step.frame (respects : Respects region body) {state state' : Job π ι ν × (ι → ν)}
    (step : Step body state state') (h : Confined region S state.1) :
    Confined region S state'.1 ∧ EqOn state.2 state'.2 Sᶜ := by
  induction step generalizing S with
  | read =>
      cases h with
      | read mem rest => exact ⟨rest _, eqOn_refl _ _⟩
  | write =>
      cases h with
      | write mem rest => exact ⟨rest, eqOn_update mem _⟩
  | call =>
      cases h with
      | call within rest => exact ⟨rest.called respects within, eqOn_refl _ _⟩
  | first _ ih =>
      cases h with
      | both inA inB apart first second rest =>
          obtain ⟨first, same⟩ := ih first
          exact ⟨.both inA inB apart first second rest, same.mono (compl_subset_compl.mpr inA)⟩
  | second _ ih =>
      cases h with
      | both inA inB apart first second rest =>
          obtain ⟨second, same⟩ := ih second
          exact ⟨.both inA inB apart first second rest, same.mono (compl_subset_compl.mpr inB)⟩
  | join =>
      cases h with
      | both _ _ _ _ _ rest => exact ⟨rest, eqOn_refl _ _⟩

/-- No schedule leaves the footprint or changes anything outside. -/
theorem Reaches.frame (respects : Respects region body) {state state' : Job π ι ν × (ι → ν)}
    (reached : Reaches body state state') (h : Confined region S state.1) :
    Confined region S state'.1 ∧ EqOn state.2 state'.2 Sᶜ := by
  induction reached with
  | refl => exact ⟨h, eqOn_refl _ _⟩
  | tail _ step ih =>
      obtain ⟨confined, same⟩ := ih
      obtain ⟨confined', same'⟩ := step.frame respects confined
      exact ⟨confined', same.trans same'⟩

theorem Exec.frame (respects : Respects region body) (run : Exec body t m n m')
    (h : Confined region S t) : EqOn m m' Sᶜ := by
  induction run generalizing S with
  | done => exact eqOn_refl _ _
  | read _ ih =>
      cases h with
      | read _ rest => exact ih (rest _)
  | write _ ih =>
      cases h with
      | write mem rest => exact (eqOn_update mem _).trans (ih rest)
  | call _ ih =>
      cases h with
      | call within rest => exact ih (rest.called respects within)
  | both _ _ _ ih ih' ih'' =>
      cases h with
      | both inA inB _ first second rest =>
          exact ((ih (first.mono inA)).trans (ih' (second.mono inB))).trans (ih'' rest)

/-- The execution in another memory that is the same on the footprint. -/
theorem Exec.congr (respects : Respects region body) (run : Exec body t m n m')
    (h : Confined region S t) {w : ι → ν} (same : EqOn m w S) :
    ∃ w', Exec body t w n w' ∧ EqOn m' w' S := by
  induction run generalizing S w with
  | done => exact ⟨w, .done, same⟩
  | read _ ih =>
      cases h with
      | read mem rest =>
          obtain ⟨w', run, same'⟩ := ih (rest _) same
          rw [same mem] at run
          exact ⟨w', .read run, same'⟩
  | @write i v _ m _ _ _ ih =>
      cases h with
      | write mem rest =>
          have updated : EqOn (Function.update m i v) (Function.update w i v) S := by
            intro j inS
            rcases eq_or_ne j i with rfl | other
            · rw [Function.update_self, Function.update_self]
            · rw [Function.update_of_ne other, Function.update_of_ne other, same inS]
          obtain ⟨w', run, same'⟩ := ih rest updated
          exact ⟨w', .write run, same'⟩
  | call _ ih =>
      cases h with
      | call within rest =>
          obtain ⟨w', run, same'⟩ := ih (rest.called respects within) same
          exact ⟨w', .call run, same'⟩
  | both _ _ _ ih ih' ih'' =>
      cases h with
      | both inA inB _ first second rest =>
          obtain ⟨w₁, run, same₁⟩ := ih (first.mono inA) same
          obtain ⟨w₂, run', same₂⟩ := ih' (second.mono inB) same₁
          obtain ⟨w', run'', same'⟩ := ih'' rest same₂
          exact ⟨w', .both run run' run'', same'⟩

/-! ## Every schedule -/

/-- Whichever task makes the next step, the serial execution of what remains has
one step less and the same end. -/
theorem Exec.step (respects : Respects region body) {state state' : Job π ι ν × (ι → ν)}
    (step : Step body state state') (h : Confined region S state.1)
    (run : Exec body state.1 state.2 n m') :
    ∃ n', n = n' + 1 ∧ Exec body state'.1 state'.2 n' m' := by
  induction step generalizing S n m' with
  | read =>
      cases run with
      | read run => exact ⟨_, rfl, run⟩
  | write =>
      cases run with
      | write run => exact ⟨_, rfl, run⟩
  | call =>
      cases run with
      | call run => exact ⟨_, rfl, run⟩
  | first _ ih =>
      cases run with
      | both run run' run'' =>
        cases h with
        | both _ _ _ first _ _ =>
          obtain ⟨a, count, stepped⟩ := ih first run
          exact ⟨_, by omega, .both stepped run' run''⟩
  | @second first second second' rest m m₁ step ih =>
      cases run with
      | @both _ _ _ _ a mA b mB c _ run run' run'' =>
        cases h with
        | @both _ A B _ _ _ _ _ apart first second _ =>
          -- The second task steps before the first one has run, so its execution
          -- is moved back to `m`, and the rest of it behind that of the first.
          have untouched : EqOn mA m B :=
            ((run.frame respects first).mono apart.subset_compl_left).symm
          obtain ⟨w, early, sameB⟩ := run'.congr respects second untouched
          obtain ⟨b', count, stepped⟩ := ih second early
          obtain ⟨second', frame⟩ := step.frame respects second
          obtain ⟨wA, late, sameA⟩ :=
            run.congr respects first (frame.mono apart.subset_compl_right)
          obtain ⟨wB, moved, sameB'⟩ := stepped.congr respects second'
            ((late.frame respects first).mono apart.subset_compl_left)
          have same : wB = mB := by
            funext i
            by_cases inB : i ∈ B
            · exact (sameB' inB).symm.trans (sameB inB).symm
            · have keptA : wA i = mA i := by
                by_cases inA : i ∈ A
                · exact (sameA inA).symm
                · exact ((frame inB).trans (late.frame respects first inA)).symm.trans
                    (run.frame respects first inA)
              exact (moved.frame respects second' inB).symm.trans
                (keptA.trans (run'.frame respects second inB))
          rw [same] at moved
          exact ⟨_, by omega, .both late moved run''⟩
  | join =>
      cases run with
      | both run run' run'' =>
          cases run
          cases run'
          exact ⟨_, by omega, run''⟩

theorem Exec.reaches (respects : Respects region body) {state state' : Job π ι ν × (ι → ν)}
    (reached : Reaches body state state') (h : Confined region S state.1)
    (run : Exec body state.1 state.2 n m') : ∃ n', Exec body state'.1 state'.2 n' m' := by
  induction reached with
  | refl => exact ⟨n, run⟩
  | tail earlier step ih =>
      obtain ⟨_, run⟩ := ih
      obtain ⟨n', _, run⟩ := run.step respects step (Reaches.frame respects earlier h).1
      exact ⟨n', run⟩

/-- Only a finished job cannot go on, when its execution comes to an end. -/
theorem Exec.progress (run : Exec body t m n m') (stuck : ∀ next, ¬ Step body (t, m) next) :
    t = Job.done ∧ m = m' := by
  induction run with
  | done => exact ⟨rfl, rfl⟩
  | read => exact absurd .read (stuck _)
  | write => exact absurd .write (stuck _)
  | call => exact absurd .call (stuck _)
  | both _ _ _ ih ih' =>
      obtain ⟨rfl, rfl⟩ := ih fun _ step => stuck _ (.first step)
      obtain ⟨rfl, rfl⟩ := ih' fun _ step => stuck _ (.second step)
      exact absurd .join (stuck _)

theorem Exec.acc (respects : Respects region body) (h : Confined region S t)
    (run : Exec body t m n m') : Acc (fun next state => Step body state next) (t, m) := by
  induction n generalizing t m with
  | zero =>
      refine ⟨_, fun next step => ?_⟩
      obtain ⟨n', count, _⟩ := run.step respects step h
      exact absurd count (Nat.succ_ne_zero n').symm
  | succ n ih =>
      refine ⟨_, fun next step => ?_⟩
      obtain ⟨n', count, run⟩ := run.step respects step h
      obtain rfl := Nat.succ.inj count
      exact ih (step.frame respects h).1 run

/-- All interleavings of a job end where its serial execution does. -/
theorem Executes.ends (respects : Respects region body) (h : Confined region S t)
    (run : Executes body t m m') : Ends body t m m' := by
  obtain ⟨n, run⟩ := run
  refine ⟨run.acc respects h, fun state reached stuck => ?_⟩
  obtain ⟨_, rest⟩ := Exec.reaches respects reached h run
  obtain ⟨finished, same⟩ := rest.progress stuck
  exact Prod.ext finished same

end ForkJoin
