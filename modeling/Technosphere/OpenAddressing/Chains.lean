import Technosphere.OpenAddressing.Table

/-!
# Chains of used cells

Where cells are never free again once they were used, every record can be
reached from the start of its probe order over used cells only. A probe may
then stop at the first free cell: `Chained.lookup_eq` says that it finds what a
probe of all cells finds. `Chained` survives the removal of records and the
insertion of a record into a cell that a probe reaches.
-/

namespace OpenAddressing

variable {κ ν : Type} {t t' : Table κ ν} {order : List Nat} {k : κ} {c n : Nat}

/-- Cell by cell, nothing changed or the record was buried. -/
def Decays (t t' : Table κ ν) : Prop := ∀ c, t' c = t c ∨ t' c = (t c).bury

/-- A probe in this order meets `c` before any free cell other than `c`. -/
def Reaches (t : Table κ ν) (order : List Nat) (c : Nat) : Prop :=
  ∃ front back, order = front ++ c :: back ∧ ∀ x ∈ front, (t x).mark ≠ .free

/-- The cells that a probe meets before the first free one. -/
def chain (t : Table κ ν) (order : List Nat) : List Nat :=
  order.takeWhile fun c => decide ((t c).mark ≠ .free)

theorem Reaches.mono (h : Reaches t order c)
    (used : ∀ x, (t x).mark ≠ .free → (t' x).mark ≠ .free) : Reaches t' order c := by
  obtain ⟨front, back, split, crowded⟩ := h
  exact ⟨front, back, split, fun x hx => used x (crowded x hx)⟩

theorem Reaches.mem_chain (h : Reaches t order c) (used : (t c).mark ≠ .free) :
    c ∈ chain t order := by
  obtain ⟨front, back, rfl, crowded⟩ := h
  rw [chain, List.takeWhile_append_of_pos (by simpa using crowded),
    List.takeWhile_cons_of_pos (by simpa using used)]
  simp

section Lookup

variable [DecidableEq κ]

/-- If a probe reaches all records of the key, it may stop at a free cell. -/
theorem lookup_chain (reached : ∀ c ∈ order, (t c).Holds k → Reaches t order c) :
    lookup t (chain t order) k = lookup t order k := by
  have split : order = chain t order ++ order.dropWhile fun c => decide ((t c).mark ≠ .free) :=
    List.takeWhile_append_dropWhile.symm
  cases found : lookup t (chain t order) k with
  | some c =>
      have first : List.find? (fun c => decide ((t c).Holds k)) (chain t order) = some c := found
      rw [lookup, split, List.find?_append, first, Option.some_or]
  | none =>
      rw [lookup_eq_none] at found
      refine (lookup_eq_none.mpr fun c hc holds => ?_).symm
      refine found c ((reached c hc holds).mem_chain ?_) holds
      rw [holds.1]
      decide

end Lookup

/-- Every record among the first `n` cells is reached from the start of its
probe order. -/
def Chained (t : Table κ ν) (order : κ → List Nat) (n : Nat) : Prop :=
  ∀ c < n, (t c).mark = .filled → Reaches t (order (t c).key) c

namespace Chained

variable {order : κ → List Nat}

theorem of_no_record (h : ∀ c < n, (t c).mark ≠ .filled) : Chained t order n :=
  fun c hc filled => absurd filled (h c hc)

theorem lookup_eq [DecidableEq κ] (h : Chained t order n) (inside : ∀ c ∈ order k, c < n) :
    lookup t (chain t (order k)) k = lookup t (order k) k := by
  apply lookup_chain
  intro c hc holds
  have reached := h c (inside c hc) holds.1
  rwa [holds.2] at reached

theorem decays (h : Chained t order n) (fades : Decays t t') : Chained t' order n := by
  have used : ∀ x, (t x).mark ≠ .free → (t' x).mark ≠ .free := by
    intro x hx
    rcases fades x with same | buried
    · rwa [same]
    · rw [buried, Slot.bury_mark]
      decide
  intro c hc filled
  rcases fades c with same | buried
  · rw [same] at filled ⊢
    exact (h c hc filled).mono used
  · rw [buried] at filled
    cases filled

/-- A record is put into a cell that a probe for its key reaches. -/
theorem write {s : Slot κ ν} (h : Chained t order n) (reached : Reaches t (order s.key) c)
    (filled : s.mark ≠ .free) : Chained (Function.update t c s) order n := by
  have used : ∀ x, (t x).mark ≠ .free → (Function.update t c s x).mark ≠ .free := by
    intro x hx
    by_cases e : x = c
    · rwa [e, Function.update_self]
    · rwa [Function.update_of_ne e]
  intro c' hc' filled'
  by_cases e : c' = c
  · rw [e, Function.update_self]
    exact reached.mono used
  · rw [Function.update_of_ne e] at filled' ⊢
    exact (h c' hc' filled').mono used

end Chained

end OpenAddressing
