import Mathlib.Algebra.BigOperators.Group.List.Basic
import Mathlib.Algebra.GroupWithZero.Nat
import Technosphere.SharedMemory.Program
import Technosphere.Transition

/-!
# Interleaving processes by single instructions

A `Machine` runs any number of processes over one memory and an array of
counting semaphores. A step is one instruction of one process: a load or a
store of one byte, a reading of the clock, a release, or an acquisition, which
blocks while the semaphore has fewer permits than it takes. The clock never
goes back.

`holds` is a record for the reader: which process took what and has not
released it. No instruction depends on it. `Disciplined` is the locking
discipline of one configuration, stated over that record.
-/

namespace SharedMemory

variable {C ι π ρ α : Type}

/-- Counting semaphores with the same initial value. An acquisition names one
of them and takes a number of its permits. -/
structure Semaphores (ι : Type) where
  count : Nat
  permits : Nat
  index : ι → Nat
  weight : ι → Nat

namespace Prog

/-- The address that the next instruction loads. -/
def loads : Prog ι π α → Option Nat
  | load addr _ => some addr
  | _ => none

/-- The address that the next instruction stores to. -/
def stores : Prog ι π α → Option Nat
  | store addr _ _ => some addr
  | _ => none

/-- What the next instruction takes. -/
def acquires : Prog ι π α → Option ι
  | lock sem _ _ => some sem
  | _ => none

/-- What the next instruction gives back. -/
def releases : Prog ι π α → Option ι
  | unlock sem _ => some sem
  | _ => none

end Prog

structure Machine (C ι π ρ : Type) where
  mem : Memory
  value : Nat → Nat
  clock : Nat
  procs : Nat → Option (C × Prog ι π ρ)
  holds : List (Nat × ι)

namespace Machine

inductive Act (C : Type) where
  | start (p : Nat) (call : C)
  | run (p : Nat)
  | finish (p : Nat)
  | tick (now : Nat)

/-- All processes idle, all permits free. -/
def initial (S : Semaphores ι) (mem : Memory) (clock : Nat) : Machine C ι π ρ :=
  ⟨mem, fun _ => S.permits, clock, fun _ => none, []⟩

/-- Process `p` goes on with the text `q` of its call. -/
def goOn (s : Machine C ι π ρ) (p : Nat) (c : C) (q : Prog ι π ρ) : Machine C ι π ρ :=
  { s with procs := Function.update s.procs p (some (c, q)) }

@[simp] theorem goOn_procs_self (s : Machine C ι π ρ) (p : Nat) (c : C) (q : Prog ι π ρ) :
    (s.goOn p c q).procs p = some (c, q) :=
  Function.update_self _ _ _

/-- The next instruction of process `p`, if it does not block. -/
def advance [DecidableEq ι] (S : Semaphores ι) (s : Machine C ι π ρ) (p : Nat) (c : C) :
    Prog ι π ρ → Option (Machine C ι π ρ)
  | .ret _ => none
  | .lock i _ next =>
    if S.weight i ≤ s.value (S.index i) then
      some { s.goOn p c next with
        value := Function.update s.value (S.index i) (s.value (S.index i) - S.weight i)
        holds := (p, i) :: s.holds }
    else none
  | .unlock i next =>
    some { s.goOn p c next with
      value := Function.update s.value (S.index i) (s.value (S.index i) + S.weight i)
      holds := s.holds.erase (p, i) }
  | .load addr next => some (s.goOn p c (next (s.mem addr)))
  | .store addr byte next =>
    some { s.goOn p c next with mem := Function.update s.mem addr byte }
  | .time next => some (s.goOn p c (next s.clock))

/-- The effect of one step, if it is possible. -/
def step [DecidableEq ι] (S : Semaphores ι) (code : C → Prog ι π ρ) (s : Machine C ι π ρ) :
    Act C → Option (Machine C ι π ρ)
  | .start p c =>
    match s.procs p with
    | none => some (s.goOn p c (code c))
    | some _ => none
  | .run p =>
    match s.procs p with
    | none => none
    | some (c, q) => advance S s p c q
  | .finish p =>
    match s.procs p with
    | some (_, .ret _) => some { s with procs := Function.update s.procs p none }
    | _ => none
  | .tick now => if s.clock ≤ now then some { s with clock := now } else none

/-- The step is one of process `p`. -/
def Act.of (p : Nat) : Act C → Prop
  | .start q _ => q = p
  | .run q => q = p
  | .finish q => q = p
  | .tick _ => False

section Steps

variable [DecidableEq ι] {S : Semaphores ι} {code : C → Prog ι π ρ} {s t : Machine C ι π ρ}
variable {a : Act C}

/-- The memory changes only when a process executes a store. -/
theorem mem_of_step (taken : step S code s a = some t) :
    t.mem = s.mem ∨ ∃ p c addr byte next, a = .run p ∧
      s.procs p = some (c, .store addr byte next) ∧ t.mem = Function.update s.mem addr byte := by
  cases a with
  | start p c =>
      cases running : s.procs p <;> simp only [step, running, reduceCtorEq] at taken
      cases taken
      exact Or.inl rfl
  | run p =>
      cases running : s.procs p with
      | none => simp [step, running] at taken
      | some x =>
          obtain ⟨c, q⟩ := x
          simp only [step, running] at taken
          cases q with
          | lock i pt next =>
              obtain ⟨_, moved⟩ := Option.ite_none_right_eq_some.mp taken
              cases moved
              exact Or.inl rfl
          | store addr byte next =>
              cases taken
              exact Or.inr ⟨p, c, addr, byte, next, rfl, running, rfl⟩
          | _ =>
              cases taken
              try exact Or.inl rfl
  | finish p =>
      cases running : s.procs p with
      | none => simp [step, running] at taken
      | some x =>
          obtain ⟨c, q⟩ := x
          cases q <;> simp only [step, running, reduceCtorEq] at taken
          cases taken
          exact Or.inl rfl
  | tick now =>
      obtain ⟨_, moved⟩ := Option.ite_none_right_eq_some.mp taken
      cases moved
      exact Or.inl rfl

/-- A step of another process leaves what a process executes. -/
theorem procs_of_step {p : Nat} (other : ¬ a.of p) (taken : step S code s a = some t) :
    t.procs p = s.procs p := by
  cases a with
  | start q c =>
      cases running : s.procs q <;> simp only [step, running, reduceCtorEq] at taken
      cases taken
      exact Function.update_of_ne (Ne.symm other) _ _
  | run q =>
      cases running : s.procs q with
      | none => simp [step, running] at taken
      | some x =>
          obtain ⟨c, text⟩ := x
          simp only [step, running] at taken
          cases text with
          | lock i pt next =>
              obtain ⟨_, moved⟩ := Option.ite_none_right_eq_some.mp taken
              cases moved
              exact Function.update_of_ne (Ne.symm other) _ _
          | _ =>
              cases taken
              try exact Function.update_of_ne (Ne.symm other) _ _
  | finish q =>
      cases running : s.procs q with
      | none => simp [step, running] at taken
      | some x =>
          obtain ⟨c, text⟩ := x
          cases text <;> simp only [step, running, reduceCtorEq] at taken
          cases taken
          exact Function.update_of_ne (Ne.symm other) _ _
  | tick now =>
      obtain ⟨_, moved⟩ := Option.ite_none_right_eq_some.mp taken
      cases moved
      rfl

end Steps

/-! ## What is held -/

/-- The acquisitions of process `p` that are not released. -/
def heldBy (holds : List (Nat × ι)) (p : Nat) : List ι :=
  (holds.filter fun h => h.1 = p).map Prod.snd

/-- The permits of semaphore `k` that are held. -/
def taken (S : Semaphores ι) (holds : List (Nat × ι)) (k : Nat) : Nat :=
  ((holds.filter fun h => S.index h.2 = k).map fun h => S.weight h.2).sum

section Holds

variable {S : Semaphores ι} {holds : List (Nat × ι)} {p q k : Nat} {i j : ι}

theorem mem_heldBy : i ∈ heldBy holds p ↔ (p, i) ∈ holds := by
  simp only [heldBy, List.mem_map, List.mem_filter, decide_eq_true_eq]
  constructor
  · rintro ⟨⟨q, j⟩, ⟨held, rfl⟩, rfl⟩
    exact held
  · intro held
    exact ⟨(p, i), ⟨held, rfl⟩, rfl⟩

theorem heldBy_cons_self : heldBy ((p, i) :: holds) p = i :: heldBy holds p := by
  simp [heldBy]

theorem heldBy_cons_of_ne (h : q ≠ p) : heldBy ((p, i) :: holds) q = heldBy holds q := by
  simp [heldBy, Ne.symm h]

theorem heldBy_erase_self [DecidableEq ι] :
    heldBy (holds.erase (p, i)) p = (heldBy holds p).erase i := by
  induction holds with
  | nil => rfl
  | cons h holds ih =>
      obtain ⟨q, j⟩ := h
      rw [List.erase_cons]
      by_cases hq : q = p
      · subst hq
        by_cases hj : j = i
        · subst hj
          simp [heldBy_cons_self]
        · simp [heldBy_cons_self, ih, hj]
      · have other : p ≠ q := Ne.symm hq
        simp [heldBy_cons_of_ne other, ih, hq]

theorem heldBy_erase_of_ne [DecidableEq ι] (h : q ≠ p) :
    heldBy (holds.erase (p, i)) q = heldBy holds q := by
  induction holds with
  | nil => rfl
  | cons g holds ih =>
      obtain ⟨r, j⟩ := g
      rw [List.erase_cons]
      by_cases same : (r, j) = (p, i)
      · cases same
        simp [heldBy_cons_of_ne h]
      · rw [if_neg (by simpa using same)]
        by_cases hr : q = r
        · subst hr
          rw [heldBy_cons_self, heldBy_cons_self, ih]
        · rw [heldBy_cons_of_ne hr, heldBy_cons_of_ne hr, ih]

theorem taken_cons : taken S ((p, i) :: holds) k =
    (if S.index i = k then S.weight i else 0) + taken S holds k := by
  by_cases h : S.index i = k
  · simp [taken, h]
  · simp [taken, h]

theorem taken_perm {holds' : List (Nat × ι)} (h : holds.Perm holds') (k : Nat) :
    taken S holds k = taken S holds' k :=
  ((h.filter _).map _).sum_eq

theorem taken_erase [DecidableEq ι] (h : (p, i) ∈ holds) (k : Nat) :
    taken S holds k =
      (if S.index i = k then S.weight i else 0) + taken S (holds.erase (p, i)) k := by
  rw [taken_perm (List.perm_cons_erase h) k, taken_cons]

theorem weight_le_taken [DecidableEq ι] (h : (p, i) ∈ holds) :
    S.weight i ≤ taken S holds (S.index i) := by
  rw [taken_erase h, if_pos rfl]
  exact Nat.le_add_right _ _

/-- Two different holds of one semaphore use its permits together. -/
theorem weights_le_taken [DecidableEq ι] (h : (p, i) ∈ holds) (h' : (q, j) ∈ holds)
    (ne : (p, i) ≠ (q, j)) (same : S.index j = S.index i) :
    S.weight i + S.weight j ≤ taken S holds (S.index i) := by
  rw [taken_erase h, if_pos rfl, ← same]
  exact Nat.add_le_add_left (weight_le_taken ((List.mem_erase_of_ne ne.symm).mpr h')) _

end Holds

/-! ## The locking discipline -/

/-- The locking discipline, where `guard` is the semaphore of each byte of a
table of `size` bytes. Taking all permits is an exclusive hold. -/
structure Disciplined [DecidableEq ι] (S : Semaphores ι) (guard : Nat → Nat) (size : Nat)
    (code : C → Prog ι π ρ) (s : Machine C ι π ρ) : Prop where
  /-- Free and held permits add up to the initial value. -/
  balance : ∀ k < S.count, s.value k + taken S s.holds k = S.permits
  /-- A process holds one semaphore at most. -/
  single : ∀ p, (heldBy s.holds p).length ≤ 1
  /-- Whoever holds all permits of a semaphore is alone with it. -/
  exclusive : ∀ p i q j, i ∈ heldBy s.holds p → j ∈ heldBy s.holds q →
    S.index i = S.index j → S.weight i = S.permits → p = q
  /-- Acquisitions and releases name existing semaphores. -/
  named : ∀ p c text i, s.procs p = some (c, text) →
    (text.acquires = some i ∨ text.releases = some i) → S.index i < S.count
  /-- Only what is held is released, in the mode in which it was taken. -/
  released : ∀ p c text i, s.procs p = some (c, text) → text.releases = some i →
    i ∈ heldBy s.holds p
  /-- A byte is loaded while its semaphore is held. -/
  loaded : ∀ p c text a, s.procs p = some (c, text) → text.loads = some a →
    a < size ∧ ∃ i ∈ heldBy s.holds p, S.index i = guard a
  /-- A byte is stored to while its semaphore is held exclusively. -/
  stored : ∀ p c text a, s.procs p = some (c, text) → text.stores = some a →
    a < size ∧ ∃ i ∈ heldBy s.holds p, S.index i = guard a ∧ S.weight i = S.permits
  /-- Nothing is held where a call returns or is over. -/
  returned : ∀ p, (∀ c text, s.procs p = some (c, text) → text.result.isSome) →
    heldBy s.holds p = []
  /-- While some call is not over, some process can go on. -/
  progress : (∃ p, s.procs p ≠ none) →
    ∃ q t, step S code s (.run q) = some t ∨ step S code s (.finish q) = some t

end Machine

end SharedMemory
