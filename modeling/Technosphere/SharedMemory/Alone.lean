import Technosphere.SharedMemory.Interleaving
import Technosphere.SharedMemory.Scan

/-!
# Runs in which one process advances

`Config.put` replaces the memory and one process. The lemmas say that a paused
process can take its critical section, that a paused probe can be run to its
end, and where it then is. They build runs; facts about all runs come from
`Outline.invariant`.
-/

namespace SharedMemory

open Prog OpenAddressing Transition

variable {C ι π ρ : Type} {code : C → Prog ι π ρ}

/-- The configuration with memory `m` in which `p` executes `q` for the call `c`. -/
def Config.put (s : Config C ι π ρ) (p : Nat) (m : Memory) (c : C) (q : Prog ι π ρ) :
    Config C ι π ρ :=
  ⟨m, Function.update s.procs p (some (c, q))⟩

namespace Config

variable (s : Config C ι π ρ) (p : Nat) (m : Memory) (c : C) (q : Prog ι π ρ)

@[simp] theorem put_mem : (s.put p m c q).mem = m := rfl

@[simp] theorem put_procs_self : (s.put p m c q).procs p = some (c, q) :=
  Function.update_self _ _ _

theorem put_procs_of_ne {p' : Nat} (h : p' ≠ p) : (s.put p m c q).procs p' = s.procs p' :=
  Function.update_of_ne h _ _

@[simp] theorem put_call_self : (s.put p m c q).call p = some c := by
  rw [call, put_procs_self]
  rfl

theorem put_call_of_ne {p' : Nat} (h : p' ≠ p) : (s.put p m c q).call p' = s.call p' := by
  rw [call, put_procs_of_ne s p m c q h, call]

@[simp] theorem put_result_self : (s.put p m c q).result p = q.result := by
  rw [result, put_procs_self]
  rfl

@[simp] theorem put_put (m' : Memory) (c' : C) (q' : Prog ι π ρ) :
    (s.put p m c q).put p m' c' q' = s.put p m' c' q' := by
  rw [put, put, put, Function.update_idem]

theorem put_eq {m' : Memory} (hp : s.procs p = some (c, q)) :
    s.put p m' c q = ⟨m', s.procs⟩ := by
  rw [put, ← hp, Function.update_eq_self]

end Config

section Steps

variable {s : Config C ι π ρ} {p : Nat} {m m' : Memory} {c : C} {q q' : Prog ι π ρ}
variable {clk : Nat → Int}

theorem step_start (idle : s.procs p = none) :
    step code s (.start p c) = some (s.put p s.mem c (code c)) := by
  simp only [step, idle, Config.put]

theorem step_region (hp : s.procs p = some (c, q)) (entered : enter clk q s.mem = some (m', q')) :
    step code s (.region p clk) = some (s.put p m' c q') := by
  simp only [step, hp, entered, Option.map_some, Config.put]

theorem step_finish {r : ρ} (hp : s.procs p = some (c, q)) (reached : q.result = some r) :
    step code s (.finish p) = some ⟨s.mem, Function.update s.procs p none⟩ := by
  simp only [step, hp, reached, Option.map_some]

/-- The same, from a configuration in which the process was just put. -/
theorem step_put_region (entered : enter clk q m = some (m', q')) :
    step code (s.put p m c q) (.region p clk) = some (s.put p m' c q') := by
  rw [step_region (s.put_procs_self p m c q) entered, Config.put_put]

end Steps

namespace Scan

variable {sem : Nat → ι} {seg : Nat} {pt : Nat → π} {test : Nat → Prog ι π Bool}
variable {m : Memory} {match? : Nat → Bool}

/-- The first match from where a section stopped. -/
def Stop.first (match? : Nat → Bool) : Stop → Option Nat
  | .found c => some c
  | .absent => none
  | .border rest => rest.find? match?

/-- The cells before the stop are no match. -/
theorem find?_of_seen {cells : List Nat} {st : Stop} (seen : Seen match? cells st) :
    cells.find? match? = st.first match? := by
  cases st with
  | found c =>
      obtain ⟨front, back, rfl, misses, hit⟩ := seen
      rw [List.find?_append, List.find?_eq_none.mpr (by simpa using misses), Option.none_or,
        List.find?_cons_of_pos hit]
      rfl
  | absent =>
      rw [Stop.first, List.find?_eq_none]
      intro c hc
      rw [seen c hc]
      decide
  | border rest =>
      obtain ⟨front, rfl, _, misses⟩ := seen
      rw [List.find?_append, List.find?_eq_none.mpr (by simpa using misses), Option.none_or]
      rfl

/-- A paused probe can be run to its end. -/
theorem run_resume {ok : Config C ι π ρ → Action C → Prop} {s : Config C ι π ρ} {p : Nat} {c : C}
    {clk : Nat → Int} (plain : ∀ cell, (test cell).Plain)
    (alone : ∀ cell, exec 0 (test cell) m = (match? cell, m))
    (met : ∀ q, ok (s.put p m c q) (.region p clk)) (k : Int → Prog ι π ρ) (cells : List Nat) :
    ∃ n, Run (step code) ok (s.put p m c (resume sem seg pt test cells >>= k))
      (List.replicate n (.region p clk)) (s.put p m c (k (index (cells.find? match?)))) := by
  -- on the cells not visited yet: every section visits one at least
  induction h : cells.length using Nat.strong_induction_on generalizing cells with
  | _ length ih =>
      cases cells with
      | nil => exact ⟨0, .nil⟩
      | cons cur rest =>
          have entered : enter clk (resume sem seg pt test (cur :: rest) >>= k) m = _ :=
            enter_resume plain alone clk k cur rest
          rw [find?_of_seen (seen_stop seg match? (cur :: rest) (cur / seg))]
          cases hs : stop seg match? (cur :: rest) (cur / seg) with
          | found cell =>
              rw [hs] at entered
              exact ⟨1, .single (met _) (step_put_region entered)⟩
          | absent =>
              rw [hs] at entered
              exact ⟨1, .single (met _) (step_put_region entered)⟩
          | border cells' =>
              have shorter := border_length hs
              rw [hs] at entered
              obtain ⟨n, ran⟩ := ih cells'.length (by rw [← h, List.length_cons]; omega) cells' rfl
              exact ⟨n + 1, .cons (met _) (step_put_region entered) ran⟩

end Scan

end SharedMemory
