import Technosphere.Lines

/-!
# Input streams and `getline`

A stream over a text with the two state bits that `std::getline` sets. Reading
the last piece sets `eofbit`. A call on a stream that is not good any more fails
and leaves its target as it was.
-/

/-- `failbit` is never set without `eofbit`. -/
structure IStream where
  rest : List UInt8
  eofbit : Bool
  failbit : Bool
  failed : failbit → eofbit

namespace IStream

open Lines

variable {s : IStream} {delim : UInt8} {piece rest : List UInt8}

/-- A stream at the start of a text. -/
def ofText (rest : List UInt8) : IStream := ⟨rest, false, false, id⟩

@[simp] theorem eofbit_ofText (rest : List UInt8) : (ofText rest).eofbit = false := rfl

theorem good_ofText (rest : List UInt8) :
    ¬ ((ofText rest).eofbit || (ofText rest).failbit) :=
  Bool.false_ne_true

theorem eofbit_of_bad (bad : s.eofbit || s.failbit) : s.eofbit :=
  (Bool.or_eq_true_iff.mp bad).elim id s.failed

/-- A stream that is not at its end is good. -/
theorem eq_ofText (more : s.eofbit = false) : s = ofText s.rest := by
  obtain ⟨rest, eofbit, failbit, failed⟩ := s
  cases more
  cases failbit
  · rfl
  · exact absurd (failed rfl) (by decide)

/-- `std::getline` into `str`, which is cleared before anything is extracted. -/
def getline (delim : UInt8) (s : IStream) (str : List UInt8) : IStream × List UInt8 :=
  if bad : s.eofbit || s.failbit then
    (⟨s.rest, s.eofbit, true, fun _ => eofbit_of_bad bad⟩, str)
  else
    match cut delim s.rest with
    | some (piece, rest) => (ofText rest, piece)
    | none => (⟨[], true, s.rest.isEmpty, fun _ => rfl⟩, s.rest)

/-- A failed call changes neither the text nor the target. -/
theorem getline_of_eof (delim : UInt8) (str : List UInt8) (ended : s.eofbit) :
    (getline delim s str).1.eofbit ∧ (getline delim s str).2 = str := by
  rw [getline, dif_pos (by rw [ended, Bool.true_or])]
  exact ⟨ended, rfl⟩

/-- The last piece of a text. -/
theorem getline_last (str : List UInt8) (h : delim ∉ rest) :
    (getline delim (ofText rest) str).1.eofbit ∧ (getline delim (ofText rest) str).2 = rest := by
  rw [getline, dif_neg (good_ofText _)]
  simp [ofText, cut_of_notMem h]

/-- A piece that ends with the delimiter. -/
theorem getline_piece (str : List UInt8) (h : delim ∉ piece) :
    getline delim (ofText (piece ++ delim :: rest)) str = (ofText rest, piece) := by
  rw [getline, dif_neg (good_ofText _)]
  simp only [ofText, cut_line h]

/-! ## Loops up to the end of a stream -/

/-- What is left to read, with the end of the text. -/
def left (s : IStream) : Nat := if s.eofbit then 0 else s.rest.length + 1

@[simp] theorem left_ofText (rest : List UInt8) : (ofText rest).left = rest.length + 1 := rfl

theorem left_getline_lt (delim : UInt8) (str : List UInt8) (more : s.eofbit = false) :
    (getline delim s str).1.left < s.left := by
  rw [eq_ofText more]
  by_cases found : delim ∈ s.rest
  · obtain ⟨piece, rest, split, before⟩ := List.eq_append_cons_of_mem found
    rw [split, getline_piece str before]
    rw [left_ofText, left_ofText, List.length_append, List.length_cons]
    omega
  · rw [left, if_pos (getline_last str found).1, left_ofText]
    exact Nat.succ_pos _

theorem left_getline_le (delim : UInt8) (s : IStream) (str : List UInt8) :
    (getline delim s str).1.left ≤ s.left := by
  by_cases more : s.eofbit = false
  · exact (left_getline_lt delim str more).le
  · rw [left, if_pos (getline_of_eof delim str (by simpa using more)).1]
    exact Nat.zero_le _

end IStream
