import Technosphere.SharedMemory.Program
import Technosphere.OpenAddressing.Table

/-!
# Probing cells under segment locks

The cells of a table are grouped into segments of `seg` cells, each guarded by
a semaphore. A probe walks over the cells and holds the semaphore of the
segment it is in; at a segment border it releases the old one before it takes
the new one. This is the only place where other processes run in between.

`exec_find` says what a probe finds when nothing else runs. `enter_resume` says
what one critical section of a probe does: it stops at the first match of the
segment, at the end of the walk, or at the next border. The places where a
probe can be paused are therefore the suffixes of the probe order.
-/

namespace SharedMemory.Scan

open Prog OpenAddressing

variable {ι π α : Type}

/-- How a loop over cells ends: at a cell that matches, with its semaphore
released, or after the last cell, holding the semaphore of `block`. -/
inductive Outcome where
  | found (cell : Nat)
  | ended (block : Nat)
  deriving DecidableEq, Repr

section Text

variable (sem : Nat → ι) (seg : Nat) (pt : Nat → π) (test : Nat → Prog ι π Bool)

/-- A `for` loop over cells that starts with the semaphore of `block` held. -/
def forCells : List Nat → Nat → Prog ι π Outcome
  | [], block => pure (.ended block)
  | cur :: rest, block => do
    let new := cur / seg
    if new ≠ block then
      release (sem block)
      acquire (sem new) (pt cur)
    let hit ← test cur
    if hit then
      release (sem new)
      pure (.found cur)
    else
      forCells rest new

/-- The end of a probe: the index of the match, or -1 with the semaphore of
the last cell released. -/
def close : Outcome → Prog ι π Int
  | .found cell => pure (cell : Int)
  | .ended block => do
    release (sem block)
    pure (-1)

/-- Probe the cells from `h` to the last, then those before `h`. The result is
the index of the first match, or -1. -/
def find (cells h : Nat) : Prog ι π Int := do
  let block := h / seg
  acquire (sem block) (pt h)
  match ← forCells sem seg pt test (List.range' h (cells - h)) block with
  | .found cell => pure (cell : Int)
  | .ended block => forCells sem seg pt test (List.range h) block >>= close sem

/-- The rest of a probe that holds the semaphore of `block`. -/
def probe (cells : List Nat) (block : Nat) : Prog ι π Int :=
  forCells sem seg pt test cells block >>= close sem

/-- A probe paused in front of the first of the cells still to be visited. -/
def resume : List Nat → Prog ι π Int
  | [] => pure (-1)
  | cur :: rest => do
    acquire (sem (cur / seg)) (pt cur)
    probe sem seg pt test (cur :: rest) (cur / seg)

variable {sem seg pt test}

theorem forCells_border {cur block : Nat} (rest : List Nat) (hb : cur / seg ≠ block) :
    forCells sem seg pt test (cur :: rest) block = (do
      release (sem block)
      acquire (sem (cur / seg)) (pt cur)
      forCells sem seg pt test (cur :: rest) (cur / seg)) := by
  rw [forCells, if_pos hb, forCells, if_neg (by simp)]

theorem forCells_visit (cur : Nat) (rest : List Nat) :
    forCells sem seg pt test (cur :: rest) (cur / seg) = (do
      let hit ← test cur
      if hit then
        release (sem (cur / seg))
        pure (.found cur)
      else
        forCells sem seg pt test rest (cur / seg)) := by
  rw [forCells, if_neg (by simp)]

theorem forCells_append (front back : List Nat) (block : Nat) :
    forCells sem seg pt test (front ++ back) block = (do
      match ← forCells sem seg pt test front block with
      | .found cell => pure (.found cell)
      | .ended block => forCells sem seg pt test back block) := by
  induction front generalizing block with
  | nil => rfl
  | cons cur rest ih =>
      have visit : forCells sem seg pt test (cur :: (rest ++ back)) (cur / seg) = (do
          match ← forCells sem seg pt test (cur :: rest) (cur / seg) with
          | .found cell => pure (.found cell)
          | .ended block => forCells sem seg pt test back block) := by
        rw [forCells_visit, forCells_visit, bind_assoc]
        apply bind_congr
        intro hit
        cases hit
        · exact ih _
        · rfl
      by_cases hb : cur / seg ≠ block
      · rw [List.cons_append, forCells_border _ hb, forCells_border _ hb, visit]
        rfl
      · obtain rfl : cur / seg = block := by simpa using hb
        exact visit

theorem probe_border {cur block : Nat} (rest : List Nat) (hb : cur / seg ≠ block) :
    probe sem seg pt test (cur :: rest) block = (do
      release (sem block)
      resume sem seg pt test (cur :: rest)) := by
  rw [probe, forCells_border _ hb]
  rfl

theorem probe_visit (cur : Nat) (rest : List Nat) :
    probe sem seg pt test (cur :: rest) (cur / seg) = (do
      let hit ← test cur
      if hit then
        release (sem (cur / seg))
        pure (cur : Int)
      else
        probe sem seg pt test rest (cur / seg)) := by
  rw [probe, forCells_visit, bind_assoc]
  apply bind_congr
  intro hit
  cases hit <;> rfl

/-- The two loops of a probe are one walk over the probe order. -/
theorem find_eq_resume {cells h : Nat} (hh : h < cells) :
    find sem seg pt test cells h = resume sem seg pt test (probeOrder cells h) := by
  have joined : probe sem seg pt test (probeOrder cells h) (h / seg) = (do
      match ← forCells sem seg pt test (List.range' h (cells - h)) (h / seg) with
      | .found cell => pure (cell : Int)
      | .ended block => forCells sem seg pt test (List.range h) block >>= close sem) := by
    rw [probe, probeOrder, forCells_append, bind_assoc]
    apply bind_congr
    intro o
    cases o <;> rfl
  rw [find, probeOrder_cons hh, resume, ← probeOrder_cons hh, joined]

end Text

/-! ## Alone -/

/-- The end of a loop over cells whose matches are given by `p`. -/
def outcome (seg : Nat) (p : Nat → Bool) : List Nat → Nat → Outcome
  | [], block => .ended block
  | cur :: rest, _ => if p cur then .found cur else outcome seg p rest (cur / seg)

theorem outcome_eq (seg : Nat) (p : Nat → Bool) (cells : List Nat) (block : Nat) :
    (∃ c, cells.find? p = some c ∧ outcome seg p cells block = .found c) ∨
    (cells.find? p = none ∧ ∃ b, outcome seg p cells block = .ended b) := by
  induction cells generalizing block with
  | nil => exact Or.inr ⟨rfl, block, rfl⟩
  | cons cur rest ih =>
      cases hp : p cur with
      | true => exact Or.inl ⟨cur, by simp [hp], by simp [outcome, hp]⟩
      | false => simpa [outcome, hp] using ih (cur / seg)

section Alone

variable {sem : Nat → ι} {seg : Nat} {pt : Nat → π} {test : Nat → Prog ι π Bool}
variable {now : Int} {m : Memory} {p : Nat → Bool}

theorem exec_forCells (alone : ∀ c, exec now (test c) m = (p c, m)) (cells : List Nat)
    (block : Nat) :
    exec now (forCells sem seg pt test cells block) m = (outcome seg p cells block, m) := by
  induction cells generalizing block with
  | nil => rfl
  | cons cur rest ih =>
      have visit : exec now (forCells sem seg pt test (cur :: rest) (cur / seg)) m =
          (outcome seg p (cur :: rest) block, m) := by
        rw [forCells_visit, exec_bind_of now (alone cur), outcome]
        cases p cur
        · exact ih _
        · rfl
      by_cases hb : cur / seg ≠ block
      · rw [forCells_border _ hb]
        exact visit
      · obtain rfl : cur / seg = block := by simpa using hb
        exact visit

/-- The index that a probe returns: the first match in probe order, or -1. -/
def index (o : Option Nat) : Int :=
  match o with
  | some c => c
  | none => -1

@[simp] theorem index_some (c : Nat) : index (some c) = c := rfl

@[simp] theorem index_none : index none = -1 := rfl

theorem exec_probe (alone : ∀ c, exec now (test c) m = (p c, m)) (cells : List Nat)
    (block : Nat) :
    exec now (probe sem seg pt test cells block) m = (index (cells.find? p), m) := by
  rw [probe, exec_bind_of now (exec_forCells alone cells block)]
  rcases outcome_eq seg p cells block with ⟨c, hf, ho⟩ | ⟨hf, b, ho⟩
  · rw [hf, ho]
    rfl
  · rw [hf, ho]
    rfl

/-- Alone, a probe returns the first match in probe order and changes nothing. -/
theorem exec_find (alone : ∀ c, exec now (test c) m = (p c, m)) {cells h : Nat}
    (hh : h < cells) :
    exec now (find sem seg pt test cells h) m =
      (index ((probeOrder cells h).find? p), m) := by
  rw [find_eq_resume hh]
  cases horder : probeOrder cells h with
  | nil => rfl
  | cons cur rest => exact exec_probe alone (cur :: rest) (cur / seg)

end Alone

/-! ## Among other processes -/

/-- Where one critical section of a probe stops. -/
inductive Stop where
  | found (cell : Nat)
  | absent
  | border (rest : List Nat)

/-- One critical section of a probe over cells whose matches are given by `p`. -/
def stop (seg : Nat) (p : Nat → Bool) : List Nat → Nat → Stop
  | [], _ => .absent
  | cur :: rest, block =>
    if cur / seg ≠ block then .border (cur :: rest)
    else if p cur then .found cur
    else stop seg p rest block

/-- What a probe has seen when it stops. -/
def Seen (p : Nat → Bool) (cells : List Nat) : Stop → Prop
  | .found c => ∃ front back, cells = front ++ c :: back ∧ (∀ x ∈ front, p x = false) ∧ p c = true
  | .absent => ∀ x ∈ cells, p x = false
  | .border rest => ∃ front, cells = front ++ rest ∧ rest ≠ [] ∧ ∀ x ∈ front, p x = false

theorem seen_stop (seg : Nat) (p : Nat → Bool) (cells : List Nat) (block : Nat) :
    Seen p cells (stop seg p cells block) := by
  induction cells with
  | nil =>
      intro x hx
      cases hx
  | cons cur rest ih =>
      rw [stop]
      split
      · exact ⟨[], rfl, by simp, by simp⟩
      · split
        · rename_i hp
          exact ⟨[], rest, rfl, by simp, hp⟩
        · rename_i hp
          have hcur : p cur = false := by simpa using hp
          cases hs : stop seg p rest block with
          | found c =>
              rw [hs] at ih
              obtain ⟨front, back, rfl, hfront, hc⟩ := ih
              exact ⟨cur :: front, back, rfl, by simpa [hcur] using hfront, hc⟩
          | absent =>
              rw [hs] at ih
              simpa [Seen, hcur] using ih
          | border r =>
              rw [hs] at ih
              obtain ⟨front, rfl, hr, hfront⟩ := ih
              exact ⟨cur :: front, rfl, hr, by simpa [hcur] using hfront⟩

/-- A critical section of a probe visits at least one cell. -/
theorem border_length {seg : Nat} {p : Nat → Bool} {cur : Nat} {cells rest : List Nat}
    (h : stop seg p (cur :: cells) (cur / seg) = .border rest) :
    rest.length ≤ cells.length := by
  have shorter : ∀ (l : List Nat) (block : Nat), stop seg p l block = .border rest →
      rest.length ≤ l.length := by
    intro l block hl
    have seen := seen_stop seg p l block
    rw [hl] at seen
    obtain ⟨front, rfl, _, _⟩ := seen
    simp
  rw [stop, if_neg (by simp)] at h
  split at h
  · cases h
  · exact shorter cells _ h

section Paused

variable {sem : Nat → ι} {seg : Nat} {pt : Nat → π} {test : Nat → Prog ι π Bool}
variable {m : Memory} {p : Nat → Bool}

/-- The text that follows a critical section of a probe. -/
def after (sem : Nat → ι) (seg : Nat) (pt : Nat → π) (test : Nat → Prog ι π Bool)
    (k : Int → Prog ι π α) : Stop → Prog ι π α
  | .found c => k c
  | .absent => k (-1)
  | .border rest => resume sem seg pt test rest >>= k

theorem region_probe (plain : ∀ c, (test c).Plain)
    (alone : ∀ c, exec 0 (test c) m = (p c, m)) (clk : Nat → Int) (k : Int → Prog ι π α)
    (cells : List Nat) (block : Nat) :
    region clk (probe sem seg pt test cells block >>= k) m =
      (m, after sem seg pt test k (stop seg p cells block)) := by
  induction cells generalizing block with
  | nil => rfl
  | cons cur rest ih =>
      rw [stop]
      by_cases hb : cur / seg ≠ block
      · -- the section ends with the release, before the next acquisition
        rw [if_pos hb, probe_border _ hb, bind_assoc, region_release]
        rfl
      · rw [if_neg hb]
        obtain rfl : cur / seg = block := by simpa using hb
        rw [probe_visit, bind_assoc, region_plain clk m (plain cur) _ 0, alone cur]
        cases p cur
        · exact ih (cur / seg)
        · rfl

/-- One critical section of a paused probe. The memory is only read. -/
theorem enter_resume (plain : ∀ c, (test c).Plain)
    (alone : ∀ c, exec 0 (test c) m = (p c, m)) (clk : Nat → Int) (k : Int → Prog ι π α)
    (cur : Nat) (rest : List Nat) :
    enter clk (resume sem seg pt test (cur :: rest) >>= k) m =
      some (m, after sem seg pt test k (stop seg p (cur :: rest) (cur / seg))) := by
  rw [resume, bind_assoc, enter_acquire, region_probe plain alone]

end Paused

end SharedMemory.Scan
