import Technosphere.OpenAddressing.Table

/-!
# A map with a budget of cells

What a table does that never uses a cell twice, without its cells: a map, and
the number of cells that were spent on it. A key that is present costs nothing
to set again, another one costs a cell, and a removal gives none back.

`Backs` connects a table to such a store, and `Backs.respond` says that a table
that is probed in any order that covers it answers every request as the store
does.
-/

namespace OpenAddressing

variable {κ ν : Type} {t t' : Table κ ν} {n : Nat}

inductive Request (κ ν : Type) where
  | get (k : κ)
  | set (k : κ) (v : ν)
  | del (k : κ)

inductive Outcome (ν : Type) where
  | found (v : ν)
  | missing
  | stored
  | refused
  | removed

def Request.map {μ : Type} (f : ν → μ) : Request κ ν → Request κ μ
  | .get k => .get k
  | .set k v => .set k (f v)
  | .del k => .del k

def Outcome.map {μ : Type} (f : ν → μ) : Outcome ν → Outcome μ
  | .found v => .found (f v)
  | .missing => .missing
  | .stored => .stored
  | .refused => .refused
  | .removed => .removed

structure BudgetMap (κ ν : Type) where
  entries : κ → Option ν
  spent : Nat

namespace BudgetMap

def empty : BudgetMap κ ν := ⟨fun _ => none, 0⟩

variable [DecidableEq κ]

/-- Set a key, if it is present or a cell is left for it. -/
def insert (capacity : Nat) (s : BudgetMap κ ν) (k : κ) (v : ν) : Option (BudgetMap κ ν) :=
  if (s.entries k).isSome then
    some { s with entries := Function.update s.entries k (some v) }
  else if s.spent < capacity then
    some ⟨Function.update s.entries k (some v), s.spent + 1⟩
  else none

def remove (s : BudgetMap κ ν) (k : κ) : BudgetMap κ ν :=
  { s with entries := Function.update s.entries k none }

def answer (capacity : Nat) (s : BudgetMap κ ν) : Request κ ν → Outcome ν × BudgetMap κ ν
  | .get k =>
    match s.entries k with
    | some v => (.found v, s)
    | none => (.missing, s)
  | .set k v =>
    match s.insert capacity k v with
    | some s' => (.stored, s')
    | none => (.refused, s)
  | .del k => if (s.entries k).isSome then (.removed, s.remove k) else (.missing, s)

omit [DecidableEq κ] in
/-- Remove all entries with a value in `dead`. -/
def discard (s : BudgetMap κ ν) (dead : ν → Prop) [DecidablePred dead] : BudgetMap κ ν :=
  { s with entries := fun k => (s.entries k).filter fun v => !decide (dead v) }

/-- A new key costs a cell. -/
theorem insert_absent {capacity : Nat} {s : BudgetMap κ ν} {k : κ} {v : ν}
    (absent : s.entries k = none) (room : s.spent < capacity) :
    s.insert capacity k v = some ⟨Function.update s.entries k (some v), s.spent + 1⟩ := by
  rw [insert, absent, if_neg (by simp), if_pos room]

omit [DecidableEq κ] in
def map {μ : Type} (f : ν → μ) (s : BudgetMap κ ν) : BudgetMap κ μ :=
  ⟨fun k => (s.entries k).map f, s.spent⟩

/-- A store does not look at the values. -/
theorem answer_map {μ : Type} (f : ν → μ) (capacity : Nat) (s : BudgetMap κ ν)
    (r : Request κ ν) :
    ((s.map f).answer capacity (r.map f)).1 = (s.answer capacity r).1.map f ∧
      ((s.map f).answer capacity (r.map f)).2 = (s.answer capacity r).2.map f := by
  cases r with
  | get k =>
      rw [Request.map, answer, answer]
      cases found : s.entries k <;> simp [map, found, Outcome.map]
  | set k v =>
      have updated : Function.update (fun k => (s.entries k).map f) k (some (f v)) =
          fun k' => (Function.update s.entries k (some v) k').map f := by
        funext k'
        by_cases e : k' = k
        · subst e
          simp
        · simp [e]
      rw [Request.map, answer, answer, insert, insert]
      cases found : s.entries k
      · by_cases room : s.spent < capacity <;> simp [map, found, room, updated, Outcome.map]
      · simp [map, found, updated, Outcome.map]
  | del k =>
      have updated : Function.update (fun k => (s.entries k).map f) k none =
          fun k' => (Function.update s.entries k none k').map f := by
        funext k'
        by_cases e : k' = k
        · subst e
          simp
        · simp [e]
      rw [Request.map, answer, answer]
      cases found : s.entries k <;> simp [map, found, remove, updated, Outcome.map]

end BudgetMap

/-- What a table answers that is probed for `k` in `order k`. -/
def respond [DecidableEq κ] (order : κ → List Nat) (t : Table κ ν) :
    Request κ ν → Outcome ν × Table κ ν
  | .get k =>
    match lookup t (order k) k with
    | some c => (.found (t c).val, t)
    | none => (.missing, t)
  | .set k v =>
    match place t (order k) k with
    | some c => (.stored, Function.update t c ⟨.filled, k, v⟩)
    | none => (.refused, t)
  | .del k =>
    match lookup t (order k) k with
    | some c => (.removed, Function.update t c (t c).bury)
    | none => (.missing, t)

/-! ## Used cells -/

def usedCells (t : Table κ ν) (n : Nat) : Nat :=
  (List.range n).countP fun c => decide ((t c).mark ≠ .free)

theorem usedCells_congr (h : ∀ c < n, (t' c).mark = .free ↔ (t c).mark = .free) :
    usedCells t' n = usedCells t n := by
  apply List.countP_congr
  intro c hc
  rw [decide_eq_true_iff, decide_eq_true_iff]
  exact not_congr (h c (List.mem_range.mp hc))

theorem usedCells_eq_zero (h : ∀ c < n, (t c).mark = .free) : usedCells t n = 0 := by
  rw [usedCells, List.countP_eq_zero]
  intro c hc
  simpa using h c (List.mem_range.mp hc)

theorem usedCells_lt_iff : usedCells t n < n ↔ ∃ c < n, (t c).mark = .free := by
  have all : usedCells t n = (List.range n).length ↔ ∀ c ∈ List.range n, _ :=
    List.countP_eq_length
  have most : usedCells t n ≤ (List.range n).length := List.countP_le_length
  simp only [List.mem_range, decide_eq_true_iff, List.length_range] at all most
  rw [Nat.lt_iff_le_and_ne, and_iff_right most, Ne, all]
  simp

theorem usedCells_update {c : Nat} (hc : c < n) (free : (t c).mark = .free) {s : Slot κ ν}
    (used : s.mark ≠ .free) : usedCells (Function.update t c s) n = usedCells t n + 1 := by
  have perm : (List.range n).Perm (c :: (List.range n).erase c) :=
    List.perm_cons_erase (List.mem_range.mpr hc)
  have rest : ((List.range n).erase c).countP
        (fun x => decide ((Function.update t c s x).mark ≠ .free)) =
      ((List.range n).erase c).countP fun x => decide ((t x).mark ≠ .free) := by
    apply List.countP_congr
    intro x hx
    have ne : x ≠ c := (List.nodup_range.mem_erase_iff.mp hx).1
    rw [Function.update_of_ne ne]
  rw [usedCells, usedCells, perm.countP_eq, perm.countP_eq, List.countP_cons, List.countP_cons,
    rest, Function.update_self, if_pos (by simpa using used), if_neg (by simpa using free)]

/-! ## The store of a table -/

/-- The first `n` cells store the map, and the used ones are those that were spent. -/
structure Backs (t : Table κ ν) (n : Nat) (s : BudgetMap κ ν) : Prop where
  represents : Represents t n s.entries
  used : usedCells t n = s.spent

namespace Backs

variable {s : BudgetMap κ ν} {k : κ} {v : ν} {c : Nat} {order : List Nat}

theorem empty (h : ∀ c < n, (t c).mark = .free) : Backs t n (.empty : BudgetMap κ ν) where
  represents := .of_no_record fun c hc => by
    rw [h c hc]
    decide
  used := usedCells_eq_zero h

variable [DecidableEq κ]

/-- A record that finds a cell is in the store. -/
theorem insert (h : Backs t n s) (cover : ∀ c, c ∈ order ↔ c < n)
    (found : place t order k = some c) :
    ∃ s', s.insert n k v = some s' ∧ Backs (Function.update t c ⟨.filled, k, v⟩) n s' := by
  obtain ⟨hc, fit⟩ := h.represents.of_place cover found
  have written := h.represents.write (v := v) hc fit
  rcases (OpenAddressing.of_place found).2 with holds | ⟨free, absent⟩
  · have present : (s.entries k).isSome := by
      rw [h.represents.get_of_holds hc holds]
      rfl
    refine ⟨_, if_pos present, written, ?_⟩
    rw [← h.used]
    apply usedCells_congr
    intro x _
    by_cases e : x = c
    · rw [e, Function.update_self, holds.1]
    · rw [Function.update_of_ne e]
  · have absent := (h.represents.lookup_eq_none_iff cover).mp absent
    have room : s.spent < n := by
      rw [← h.used, usedCells_lt_iff]
      exact ⟨c, hc, free⟩
    refine ⟨_, BudgetMap.insert_absent absent room, written, ?_⟩
    show usedCells _ n = s.spent + 1
    rw [usedCells_update hc free (by simp), h.used]

/-- A record that finds no cell is refused. -/
theorem refuse (h : Backs t n s) (cover : ∀ c, c ∈ order ↔ c < n)
    (found : place t order k = none) :
    s.insert n k v = none := by
  have none := Option.isSome_eq_false_iff.mpr (Option.isNone_iff_eq_none.mpr found)
  have room : (place t order k).isSome ↔ _ := h.represents.place_isSome cover
  rw [none, ← usedCells_lt_iff, h.used] at room
  have full : ¬ ((s.entries k).isSome ∨ s.spent < n) := fun place => by cases room.mpr place
  rw [not_or] at full
  rw [BudgetMap.insert, if_neg full.1, if_neg full.2]

theorem remove (h : Backs t n s) (hc : c < n) (holds : (t c).Holds k) :
    Backs (Function.update t c (t c).bury) n (s.remove k) where
  represents := h.represents.bury hc holds
  used := by
    refine Eq.trans (usedCells_congr fun x _ => ?_) h.used
    by_cases e : x = c
    · rw [e, Function.update_self, Slot.bury_mark, holds.1]
      decide
    · rw [Function.update_of_ne e]

/-- One request, for every way of probing. -/
theorem respond (h : Backs t n s) {order : κ → List Nat}
    (cover : ∀ k c, c ∈ order k ↔ c < n)
    (r : Request κ ν) :
    (OpenAddressing.respond order t r).1 = (s.answer n r).1 ∧
      Backs (OpenAddressing.respond order t r).2 n (s.answer n r).2 := by
  cases r with
  | get k =>
      rw [OpenAddressing.respond, BudgetMap.answer]
      cases found : lookup t (order k) k with
      | none =>
          rw [(h.represents.lookup_eq_none_iff (cover k)).mp found]
          exact ⟨rfl, h⟩
      | some c =>
          obtain ⟨_, _, stored⟩ := h.represents.get_of_lookup (cover k) found
          rw [stored]
          exact ⟨rfl, h⟩
  | set k v =>
      rw [OpenAddressing.respond, BudgetMap.answer]
      cases found : place t (order k) k with
      | none =>
          rw [h.refuse (cover k) found]
          exact ⟨rfl, h⟩
      | some c =>
          obtain ⟨s', inserted, backs⟩ := h.insert (v := v) (cover k) found
          rw [inserted]
          exact ⟨rfl, backs⟩
  | del k =>
      rw [OpenAddressing.respond, BudgetMap.answer]
      cases found : lookup t (order k) k with
      | none =>
          rw [(h.represents.lookup_eq_none_iff (cover k)).mp found]
          exact ⟨rfl, h⟩
      | some c =>
          obtain ⟨hc, holds, stored⟩ := h.represents.get_of_lookup (cover k) found
          rw [stored]
          exact ⟨rfl, h.remove hc holds⟩

omit [DecidableEq κ] in
/-- Burying the records of dead values, in whatever cells they are. -/
theorem discard (h : Backs t n s) (gone : Nat → Prop) [DecidablePred gone] (dead : ν → Prop)
    [DecidablePred dead] (agree : ∀ c < n, ∀ k, (t c).Holds k → (gone c ↔ dead (t c).val))
    (filled : ∀ c < n, gone c → (t c).mark = .filled) :
    Backs (fun c => if gone c then (t c).bury else t c) n (s.discard dead) where
  represents := h.represents.bury_where gone (fun _ v => dead v) agree
  used := by
    refine Eq.trans (usedCells_congr fun c hc => ?_) h.used
    by_cases out : gone c
    · rw [if_pos out, Slot.bury_mark, filled c hc out]
      decide
    · rw [if_neg out]

end Backs

end OpenAddressing
