import Mathlib.Data.List.Basic
import Mathlib.Data.List.DropRight

/-!
# Terminated lines of a stream

`cut` takes the first complete line off a stream and `lines` are all complete
lines. What arrives later never changes a line that is already complete.
-/

namespace Lines

variable {α : Type} [DecidableEq α] (eol : α)

/-- The first complete line without its terminator, and what follows it. -/
def cut : List α → Option (List α × List α)
  | [] => none
  | b :: bs =>
    if b = eol then some ([], bs) else (cut bs).map fun r => (b :: r.1, r.2)

/-- All complete lines, in order. -/
def lines : List α → List (List α)
  | [] => []
  | b :: bs =>
    if b = eol then [] :: lines bs
    else
      match lines bs with
      | [] => []
      | l :: ls => (b :: l) :: ls

example : lines 0 [1, 2, 0, 0, 3] = [[1, 2], []] := by decide

/-- What stands behind the last terminator. -/
def pending (s : List α) : List α := s.rtakeWhile (· ≠ eol)

/-- Induction on the lines of a text, with what is not terminated last. -/
theorem line_induction {motive : List α → Prop} (last : ∀ s, eol ∉ s → motive s)
    (line : ∀ line rest, eol ∉ line → motive rest → motive (line ++ eol :: rest)) (s : List α) :
    motive s := by
  induction size : s.length using Nat.strong_induction_on generalizing s with
  | _ n ih =>
    subst size
    by_cases found : eol ∈ s
    · obtain ⟨first, rest, rfl, h⟩ := List.eq_append_cons_of_mem found
      refine line first rest h (ih _ ?_ rest rfl)
      rw [List.length_append, List.length_cons]
      omega
    · exact last s found

variable {eol}

theorem cut_of_notMem {s : List α} (h : eol ∉ s) : cut eol s = none := by
  induction s with
  | nil => rfl
  | cons b bs ih =>
      obtain ⟨other, rest⟩ := List.ne_and_not_mem_of_not_mem_cons h
      rw [cut, if_neg (Ne.symm other), ih rest]
      rfl

theorem cut_line {line : List α} (h : eol ∉ line) (rest : List α) :
    cut eol (line ++ eol :: rest) = some (line, rest) := by
  induction line with
  | nil => rw [List.nil_append, cut, if_pos rfl]
  | cons b line ih =>
      obtain ⟨other, tail⟩ := List.ne_and_not_mem_of_not_mem_cons h
      rw [List.cons_append, cut, if_neg (Ne.symm other), ih tail]
      rfl

/-- What is cut off is the text in front of the first terminator. -/
theorem of_cut {s line rest : List α} (h : cut eol s = some (line, rest)) :
    eol ∉ line ∧ s = line ++ eol :: rest := by
  by_cases found : eol ∈ s
  · obtain ⟨first, more, rfl, before⟩ := List.eq_append_cons_of_mem found
    rw [cut_line before] at h
    cases h
    exact ⟨before, rfl⟩
  · rw [cut_of_notMem found] at h
    cases h

theorem lines_of_notMem {s : List α} (h : eol ∉ s) : lines eol s = [] := by
  induction s with
  | nil => rfl
  | cons b bs ih =>
      obtain ⟨other, rest⟩ := List.ne_and_not_mem_of_not_mem_cons h
      rw [lines, if_neg (Ne.symm other), ih rest]

theorem lines_line {line : List α} (h : eol ∉ line) (rest : List α) :
    lines eol (line ++ eol :: rest) = line :: lines eol rest := by
  induction line with
  | nil => rw [List.nil_append, lines, if_pos rfl]
  | cons b line ih =>
      obtain ⟨other, tail⟩ := List.ne_and_not_mem_of_not_mem_cons h
      rw [List.cons_append, lines, if_neg (Ne.symm other), ih tail]

theorem lines_of_cut_none {s : List α} (h : cut eol s = none) : lines eol s = [] := by
  refine lines_of_notMem fun found => ?_
  obtain ⟨first, more, rfl, before⟩ := List.eq_append_cons_of_mem found
  rw [cut_line before] at h
  cases h

theorem lines_of_cut {s line rest : List α} (h : cut eol s = some (line, rest)) :
    lines eol s = line :: lines eol rest := by
  obtain ⟨before, rfl⟩ := of_cut h
  exact lines_line before rest

/-- A complete line stays as it is when more arrives. -/
theorem cut_append {s line rest : List α} (h : cut eol s = some (line, rest)) (more : List α) :
    cut eol (s ++ more) = some (line, rest ++ more) := by
  obtain ⟨before, rfl⟩ := of_cut h
  rw [List.append_assoc, List.cons_append, cut_line before]

theorem lines_append {s line rest : List α} (h : cut eol s = some (line, rest)) (more : List α) :
    lines eol (s ++ more) = line :: lines eol (rest ++ more) :=
  lines_of_cut (cut_append h more)

/-- There are as many lines as terminators. -/
theorem length_lines (s : List α) : (lines eol s).length = s.count eol := by
  induction s with
  | nil => rfl
  | cons b bs ih =>
      rw [lines]
      split
      · rename_i hb
        rw [hb, List.length_cons, ih, List.count_cons_self]
      · rename_i hb
        rw [List.count_cons_of_ne hb, ← ih]
        split
        · rename_i none
          rw [none]
        · rename_i some
          rw [some, List.length_cons, List.length_cons]

theorem pending_of_notMem {s : List α} (h : eol ∉ s) : pending eol s = s := by
  rw [pending, List.rtakeWhile_eq_self_iff]
  intro b hb
  exact decide_eq_true fun same => h (same ▸ hb)

/-- Only what follows a terminator can still be pending. -/
theorem pending_append_eol (s rest : List α) :
    pending eol (s ++ eol :: rest) = pending eol rest := by
  induction rest using List.reverseRecOn with
  | nil => simp [pending]
  | append_singleton rest b ih =>
      rw [← List.cons_append, ← List.append_assoc, pending, pending, List.rtakeWhile_concat,
        List.rtakeWhile_concat]
      split
      · exact congrArg (· ++ [b]) ih
      · rfl

end Lines
