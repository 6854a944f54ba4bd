import Mathlib.Data.List.Basic
import Mathlib.Logic.Relation

/-!
# Programs on streams

A program decides from what it has read and written whether it reads, writes or
exits next. Alone with its whole input it never waits. `Composes` is the
composition of programs whose streams between two of them have a limited length.
-/

namespace Streams

variable {α : Type}

inductive Request (α : Type) where
  | read
  | write (a : α)
  | exit

/-- What a program has read, whether it has found the end of its input, and
what it has written. -/
structure Progress (α : Type) where
  seen : List α
  ended : Bool
  written : List α

abbrev Program (α : Type) := Progress α → Request α

namespace Progress

def start : Progress α := ⟨[], false, []⟩

def saw (p : Progress α) (a : α) : Progress α := { p with seen := p.seen ++ [a] }

def atEnd (p : Progress α) : Progress α := { p with ended := true }

def wrote (p : Progress α) (a : α) : Progress α := { p with written := p.written ++ [a] }

@[simp] theorem saw_seen (p : Progress α) (a : α) : (p.saw a).seen = p.seen ++ [a] := rfl

@[simp] theorem saw_written (p : Progress α) (a : α) : (p.saw a).written = p.written := rfl

@[simp] theorem atEnd_seen (p : Progress α) : p.atEnd.seen = p.seen := rfl

@[simp] theorem atEnd_written (p : Progress α) : p.atEnd.written = p.written := rfl

@[simp] theorem wrote_seen (p : Progress α) (a : α) : (p.wrote a).seen = p.seen := rfl

@[simp] theorem wrote_written (p : Progress α) (a : α) :
    (p.wrote a).written = p.written ++ [a] := rfl

end Progress

namespace Program

variable {c : Program α} {input output : List α} {p q : Progress α}

/-- One step of the program, alone with all of its input. -/
def alone (c : Program α) (input : List α) (p : Progress α) : Option (Progress α) :=
  match c p with
  | .read =>
    match input[p.seen.length]? with
    | some a => some (p.saw a)
    | none => some p.atEnd
  | .write a => some (p.wrote a)
  | .exit => none

/-- From `p` on the program exits, with this output altogether. -/
def Leads (c : Program α) (input : List α) (p : Progress α) (output : List α) : Prop :=
  ∃ q, Relation.ReflTransGen (fun p q => c.alone input p = some q) p q ∧ c q = .exit ∧
    q.written = output

def Yields (c : Program α) (input output : List α) : Prop :=
  c.Leads input .start output

theorem alone_next {a : α} {left : List α} (reads : c p = .read)
    (split : input = p.seen ++ a :: left) : c.alone input p = some (p.saw a) := by
  simp [alone, reads, split]

theorem alone_atEnd (reads : c p = .read) (split : input = p.seen) :
    c.alone input p = some p.atEnd := by
  simp [alone, reads, split]

theorem alone_write {a : α} (writes : c p = .write a) : c.alone input p = some (p.wrote a) := by
  simp [alone, writes]

theorem alone_exit (exits : c p = .exit) : c.alone input p = none := by
  simp [alone, exits]

theorem leads_of_exit (exits : c p = .exit) : c.Leads input p output ↔ output = p.written := by
  constructor
  · rintro ⟨q, reached, _, rfl⟩
    rcases reached.cases_head with rfl | ⟨_, taken, _⟩
    · rfl
    · rw [alone_exit exits] at taken
      cases taken
  · rintro rfl
    exact ⟨p, .refl, exits, rfl⟩

/-- A step changes nothing about where the program leads. -/
theorem leads_of_step (taken : c.alone input p = some q) :
    c.Leads input p output ↔ c.Leads input q output := by
  constructor
  · rintro ⟨last, reached, exits, rfl⟩
    rcases reached.cases_head with rfl | ⟨q', taken', rest⟩
    · rw [alone_exit exits] at taken
      cases taken
    · cases taken.symm.trans taken'
      exact ⟨last, rest, exits, rfl⟩
  · rintro ⟨last, reached, exits, rfl⟩
    exact ⟨last, reached.head taken, exits, rfl⟩

/-- Induction on the steps that are left. -/
theorem Leads.induct {motive : Progress α → Prop} (h : c.Leads input p output)
    (exit : ∀ p, c p = .exit → p.written = output → motive p)
    (step : ∀ p q, c.alone input p = some q → c.Leads input q output → motive q → motive p) :
    motive p := by
  obtain ⟨last, reached, exits, same⟩ := h
  induction reached using Relation.ReflTransGen.head_induction_on with
  | refl => exact exit last exits same
  | head taken rest ih => exact step _ _ taken ⟨last, rest, exits, same⟩ ih

theorem written_length_le (taken : c.alone input p = some q) :
    p.written.length ≤ q.written.length := by
  rw [alone] at taken
  split at taken
  · split at taken <;> cases taken <;> exact Nat.le_refl _
  · cases taken
    simp
  · cases taken

/-- What has been written stays written. -/
theorem Leads.written_le (h : c.Leads input p output) : p.written.length ≤ output.length := by
  refine Leads.induct (motive := fun p => p.written.length ≤ output.length) h ?_ ?_
  · rintro p _ rfl
    exact Nat.le_refl _
  · intro p q taken _ ih
    exact Nat.le_trans (written_length_le taken) ih

end Program

/-- The programs one after another, each with the output of the one before as
its input. Every output but the last has at most `capacity` elements. -/
def Composes (capacity : Nat) : List (Program α) → List α → List α → Prop
  | [], input, output => output = input
  | c :: rest, input, output => ∃ between, c.Yields input between ∧
      (rest ≠ [] → between.length ≤ capacity) ∧ Composes capacity rest between output

end Streams
