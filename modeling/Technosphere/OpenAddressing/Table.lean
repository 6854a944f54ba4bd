import Mathlib.Data.Set.Card

/-!
# Open addressing with tombstones

A table is a row of cells. A cell is free, holds a record, or is a tombstone: a
record that was removed and whose cell is never used again. Looking a key up
means probing the cells in some order and stopping at the first one that holds
the key; tombstones do not match and do not stop the probe.

`Represents t n M` says that the first `n` cells of `t` store the finite map
`M`. It carries the invariant of the representation, that a key is held by one
cell at most. The theorems below say what the cell updates of an insertion, a
removal and a sweep do to the map that is represented.
-/

namespace OpenAddressing

inductive Mark where
  | free
  | filled
  | rip
  deriving DecidableEq, Repr

structure Slot (κ ν : Type) where
  mark : Mark
  key : κ
  val : ν

/-- A table is observed by cell index; only finitely many cells are used. -/
abbrev Table (κ ν : Type) := Nat → Slot κ ν

variable {κ ν : Type}

/-- The cell holds a live record of key `k`. -/
def Slot.Holds (s : Slot κ ν) (k : κ) : Prop := s.mark = .filled ∧ s.key = k

instance [DecidableEq κ] (s : Slot κ ν) (k : κ) : Decidable (s.Holds k) :=
  inferInstanceAs (Decidable (s.mark = .filled ∧ s.key = k))

/-- Turn a record into a tombstone. -/
def Slot.bury (s : Slot κ ν) : Slot κ ν := { s with mark := .rip }

@[simp] theorem Slot.bury_mark (s : Slot κ ν) : s.bury.mark = .rip := rfl

@[simp] theorem Slot.not_holds_bury (s : Slot κ ν) (k : κ) : ¬ s.bury.Holds k :=
  fun h => Mark.noConfusion h.1

theorem Slot.Holds.key_unique {s : Slot κ ν} {k k' : κ} (h : s.Holds k) (h' : s.Holds k') :
    k = k' := h.2.symm.trans h'.2

/-! ## Probing -/

/-- All cells of a table of size `n`, from `h` on and then from the start. -/
def probeOrder (n h : Nat) : List Nat := List.range' h (n - h) ++ List.range h

theorem mem_probeOrder {n h c : Nat} (hh : h ≤ n) : c ∈ probeOrder n h ↔ c < n := by
  simp only [probeOrder, List.mem_append, List.mem_range', List.mem_range]
  constructor
  · rintro (⟨i, hi, rfl⟩ | hc) <;> omega
  · intro hc
    by_cases hlt : c < h
    · exact Or.inr hlt
    · exact Or.inl ⟨c - h, by omega, by omega⟩

theorem nodup_probeOrder (n h : Nat) : (probeOrder n h).Nodup := by
  rw [probeOrder, List.nodup_append]
  refine ⟨List.nodup_range', List.nodup_range, ?_⟩
  intro a ha b hb hab
  rw [List.mem_range'] at ha
  rw [List.mem_range] at hb
  obtain ⟨i, _, rfl⟩ := ha
  omega

theorem probeOrder_length {n h : Nat} (hh : h ≤ n) : (probeOrder n h).length = n := by
  simp only [probeOrder, List.length_append, List.length_range', List.length_range]
  omega

/-- Probing starts at `h`. -/
theorem probeOrder_cons {n h : Nat} (hh : h < n) :
    probeOrder n h = h :: (List.range' (h + 1) (n - h - 1) ++ List.range h) := by
  obtain ⟨k, hk⟩ : ∃ k, n - h = k + 1 := ⟨n - h - 1, by omega⟩
  rw [probeOrder, hk, List.range'_succ, List.cons_append, Nat.add_sub_cancel]

/-- The first cell in probe order that holds `k`. -/
def lookup [DecidableEq κ] (t : Table κ ν) (order : List Nat) (k : κ) : Option Nat :=
  order.find? fun c => decide ((t c).Holds k)

/-- The first free cell in probe order. -/
def vacancy (t : Table κ ν) (order : List Nat) : Option Nat :=
  order.find? fun c => decide ((t c).mark = .free)

section Lookup

variable [DecidableEq κ] {t t' : Table κ ν} {order : List Nat} {k : κ} {c : Nat}

theorem holds_of_lookup (h : lookup t order k = some c) : (t c).Holds k := by
  simpa using List.find?_some h

theorem mem_of_lookup (h : lookup t order k = some c) : c ∈ order :=
  List.mem_of_find?_eq_some h

theorem lookup_eq_none : lookup t order k = none ↔ ∀ c ∈ order, ¬ (t c).Holds k := by
  simp [lookup, List.find?_eq_none]

/-- Cells that do not hold the key can be skipped. -/
theorem lookup_append_left {front : List Nat} (h : ∀ c ∈ front, ¬ (t c).Holds k) :
    lookup t (front ++ order) k = lookup t order k := by
  have hnone : List.find? (fun c => decide ((t c).Holds k)) front = none := by
    simpa [List.find?_eq_none] using h
  rw [lookup, List.find?_append, hnone]
  rfl

end Lookup

theorem mark_of_vacancy {t : Table κ ν} {order : List Nat} {c : Nat}
    (h : vacancy t order = some c) : (t c).mark = .free := by
  simpa using List.find?_some h

theorem mem_of_vacancy {t : Table κ ν} {order : List Nat} {c : Nat}
    (h : vacancy t order = some c) : c ∈ order :=
  List.mem_of_find?_eq_some h

theorem vacancy_eq_none {t : Table κ ν} {order : List Nat} :
    vacancy t order = none ↔ ∀ c ∈ order, (t c).mark ≠ .free := by
  simp [vacancy, List.find?_eq_none]

/-- The cell for a record of `k`: the one that holds `k`, else a free one. -/
def place [DecidableEq κ] (t : Table κ ν) (order : List Nat) (k : κ) : Option Nat :=
  (lookup t order k).or (vacancy t order)

section Place

variable [DecidableEq κ] {t : Table κ ν} {order : List Nat} {k : κ} {c : Nat}

/-- The cell chosen for a record holds the key, or is free and no cell holds it. -/
theorem of_place (found : place t order k = some c) :
    c ∈ order ∧ ((t c).Holds k ∨ ((t c).mark = .free ∧ lookup t order k = none)) := by
  rw [place] at found
  cases hl : lookup t order k with
  | some c' =>
      rw [hl, Option.some_or] at found
      cases found
      exact ⟨mem_of_lookup hl, Or.inl (holds_of_lookup hl)⟩
  | none =>
      rw [hl, Option.none_or] at found
      exact ⟨mem_of_vacancy found, Or.inr ⟨mark_of_vacancy found, rfl⟩⟩

/-- A record is found in the cell that was chosen for it. -/
theorem lookup_update_place (found : place t order k = some c) {s : Slot κ ν} (holds : s.Holds k) :
    lookup (Function.update t c s) order k = some c := by
  have self : (Function.update t c s c).Holds k := by rwa [Function.update_self]
  have other : ∀ {d}, d ≠ c → ((Function.update t c s d).Holds k ↔ (t d).Holds k) := by
    intro d ne
    rw [Function.update_of_ne ne]
  obtain ⟨inside, _⟩ := of_place found
  rw [place] at found
  cases hl : lookup t order k with
  | some c' =>
      rw [hl, Option.some_or] at found
      cases found
      obtain ⟨_, before, after, split, none⟩ := List.find?_eq_some_iff_append.mp hl
      rw [lookup, List.find?_eq_some_iff_append]
      refine ⟨decide_eq_true self, before, after, split, fun d earlier => ?_⟩
      have absent := none d earlier
      simp only [Bool.not_eq_true', decide_eq_false_iff_not] at absent ⊢
      have ne : d ≠ c := by
        rintro rfl
        exact absent (holds_of_lookup hl)
      exact mt (other ne).mp absent
  | none =>
      have absent := lookup_eq_none.mp hl
      cases hl' : lookup (Function.update t c s) order k with
      | none => exact absurd self (lookup_eq_none.mp hl' c inside)
      | some d =>
          by_cases same : d = c
          · rw [same]
          · exact absurd ((other same).mp (holds_of_lookup hl')) (absent d (mem_of_lookup hl'))

/-- A record finds a cell unless its key is absent and no cell is free. -/
theorem place_isSome :
    (place t order k).isSome ↔ ∃ c ∈ order, (t c).Holds k ∨ (t c).mark = .free := by
  have none : place t order k = none ↔ ∀ c ∈ order, ¬ ((t c).Holds k ∨ (t c).mark = .free) := by
    rw [place, Option.or_eq_none_iff, lookup_eq_none, vacancy_eq_none]
    constructor
    · rintro ⟨absent, full⟩ c hc (holds | free)
      · exact absent c hc holds
      · exact full c hc free
    · intro neither
      exact ⟨fun c hc h => neither c hc (Or.inl h), fun c hc h => neither c hc (Or.inr h)⟩
  rw [Option.isSome_iff_ne_none, Ne, none]
  simp only [not_forall, not_not, exists_prop]

theorem lookup_of_free {n h : Nat} (hh : h < n) (free : ∀ c < n, (t c).mark = .free) :
    lookup t (probeOrder n h) k = none := by
  rw [lookup_eq_none]
  intro c hc holds
  have hfilled := holds.1
  rw [free c ((mem_probeOrder (Nat.le_of_lt hh)).mp hc)] at hfilled
  cases hfilled

/-- In a table without records and tombstones the first cell is taken. -/
theorem place_of_free {n h : Nat} (hh : h < n) (free : ∀ c < n, (t c).mark = .free) :
    place t (probeOrder n h) k = some h := by
  rw [place, lookup_of_free hh free, Option.none_or, vacancy, probeOrder_cons hh]
  exact List.find?_cons_of_pos (decide_eq_true (free h hh))

end Place

/-! ## Marks only advance -/

/-- A cell is first free, then holds records of one key, then is a tombstone. -/
def Mark.age : Mark → Nat
  | .free => 0
  | .filled => 1
  | .rip => 2

/-- No cell has gone back to an earlier mark. -/
def Ages (t t' : Table κ ν) (n : Nat) : Prop := ∀ c < n, (t c).mark.age ≤ (t' c).mark.age

namespace Ages

variable {t t' t'' : Table κ ν} {n : Nat}

theorem refl (t : Table κ ν) (n : Nat) : Ages t t n := fun _ _ => Nat.le_refl _

theorem trans (h : Ages t t' n) (h' : Ages t' t'' n) : Ages t t'' n :=
  fun c hc => Nat.le_trans (h c hc) (h' c hc)

theorem update {c : Nat} {s : Slot κ ν} (h : (t c).mark.age ≤ s.mark.age) :
    Ages t (Function.update t c s) n := by
  intro c' _
  by_cases e : c' = c
  · rw [e, Function.update_self]
    exact h
  · rw [Function.update_of_ne e]

theorem bury (t : Table κ ν) (n c : Nat) : Ages t (Function.update t c (t c).bury) n := by
  apply update
  rw [Slot.bury_mark]
  cases (t c).mark <;> decide

/-- The cell chosen for a record was free or held a record. -/
theorem place [DecidableEq κ] {order : List Nat} {k : κ} {c : Nat} {s : Slot κ ν}
    (found : place t order k = some c) (filled : s.mark = .filled) :
    Ages t (Function.update t c s) n := by
  apply update
  rw [filled]
  rcases (of_place found).2 with holds | ⟨free, _⟩
  · rw [holds.1]
  · rw [free]
    decide

theorem rip (h : Ages t t' n) {c : Nat} (hc : c < n) (dead : (t c).mark = .rip) :
    (t' c).mark = .rip := by
  have aged := h c hc
  rw [dead] at aged
  cases hm : (t' c).mark with
  | rip => rfl
  | free | filled =>
      rw [hm] at aged
      exact absurd aged (by decide)

end Ages

/-! ## The map that a table stores -/

/-- No two of the first `n` cells hold the same key. -/
def Unique (t : Table κ ν) (n : Nat) : Prop :=
  ∀ c < n, ∀ c' < n, ∀ k, (t c).Holds k → (t c').Holds k → c = c'

/-- The first `n` cells store the map `M`. -/
structure Represents (t : Table κ ν) (n : Nat) (M : κ → Option ν) : Prop where
  unique : Unique t n
  contents : ∀ k v, M k = some v ↔ ∃ c < n, (t c).Holds k ∧ (t c).val = v

namespace Represents

variable {t t' : Table κ ν} {n : Nat} {M : κ → Option ν} {k : κ} {v : ν} {c : Nat}

theorem of_no_record (h : ∀ c < n, (t c).mark ≠ .filled) : Represents t n fun _ => none where
  unique c hc _ _ _ hk := absurd hk.1 (h c hc)
  contents k v := by
    constructor
    · intro hn
      cases hn
    · rintro ⟨c, hc, hk, _⟩
      exact absurd hk.1 (h c hc)

theorem get_of_holds (h : Represents t n M) (hc : c < n) (hk : (t c).Holds k) :
    M k = some (t c).val :=
  (h.contents k _).mpr ⟨c, hc, hk, rfl⟩

theorem eq_none_iff (h : Represents t n M) : M k = none ↔ ∀ c < n, ¬ (t c).Holds k := by
  constructor
  · intro hn c hc hk
    rw [h.get_of_holds hc hk] at hn
    cases hn
  · intro hno
    cases hM : M k with
    | none => rfl
    | some v =>
        obtain ⟨c, hc, hk, _⟩ := (h.contents k v).mp hM
        exact absurd hk (hno c hc)

section Probing

variable [DecidableEq κ] {order : List Nat}

/-- A probe that covers the table finds the record of a key that has one. -/
theorem get_of_lookup (h : Represents t n M) (cover : ∀ c, c ∈ order ↔ c < n)
    (found : lookup t order k = some c) : c < n ∧ (t c).Holds k ∧ M k = some (t c).val := by
  have hc : c < n := (cover c).mp (mem_of_lookup found)
  exact ⟨hc, holds_of_lookup found, h.get_of_holds hc (holds_of_lookup found)⟩

theorem lookup_eq_none_iff (h : Represents t n M) (cover : ∀ c, c ∈ order ↔ c < n) :
    lookup t order k = none ↔ M k = none := by
  rw [lookup_eq_none, h.eq_none_iff]
  exact forall_congr' fun c => imp_congr_left (cover c)

/-- The cell chosen for a record is fit to take it. -/
theorem of_place (h : Represents t n M) (cover : ∀ c, c ∈ order ↔ c < n)
    (found : place t order k = some c) :
    c < n ∧ ((t c).Holds k ∨ ((t c).mark ≠ .filled ∧ M k = none)) := by
  obtain ⟨hc, fit⟩ := OpenAddressing.of_place found
  refine ⟨(cover c).mp hc, fit.imp_right ?_⟩
  rintro ⟨free, absent⟩
  rw [free]
  exact ⟨by decide, (h.lookup_eq_none_iff cover).mp absent⟩

/-- A record finds a cell unless its key is absent and no cell is free. -/
theorem place_isSome (h : Represents t n M) (cover : ∀ c, c ∈ order ↔ c < n) :
    (place t order k).isSome ↔ (M k).isSome ∨ ∃ c < n, (t c).mark = .free := by
  rw [OpenAddressing.place_isSome, Option.isSome_iff_ne_none, Ne, h.eq_none_iff]
  simp only [cover, not_forall, not_not, exists_prop, and_or_left, exists_or]

end Probing

/-- Which keys the cells hold after a record for `k` was written into cell `c`. -/
theorem holds_update {k' : κ} {c' : Nat} :
    (Function.update t c ⟨.filled, k, v⟩ c').Holds k' ↔
      if c' = c then k = k' else (t c').Holds k' := by
  by_cases e : c' = c
  · rw [if_pos e, e, Function.update_self, Slot.Holds]
    exact and_iff_right rfl
  · rw [if_neg e, Function.update_of_ne e]

/-- No cell but the one that is written holds the key. -/
theorem not_holds_elsewhere (h : Represents t n M) (hc : c < n)
    (place : (t c).Holds k ∨ ((t c).mark ≠ .filled ∧ M k = none)) {c' : Nat} (hc' : c' < n)
    (hne : c' ≠ c) : ¬ (t c').Holds k := by
  intro hk'
  rcases place with hk | ⟨_, hM⟩
  · exact hne (h.unique c' hc' c hc k hk' hk)
  · exact h.eq_none_iff.mp hM c' hc' hk'

/-- The cell that is written did not hold another key. -/
theorem ne_of_holds {k' : κ} (place : (t c).Holds k ∨ (t c).mark ≠ .filled) (hne : k' ≠ k)
    {c' : Nat} (hk' : (t c').Holds k') : c' ≠ c := by
  rintro rfl
  rcases place with hk | hmark
  · exact hne (hk'.key_unique hk)
  · exact hmark hk'.1

/-- Writing a record for `k` into the cell that holds `k`, or into any cell
without a record when no cell does, stores the updated map. -/
theorem write [DecidableEq κ] (h : Represents t n M) (hc : c < n)
    (place : (t c).Holds k ∨ ((t c).mark ≠ .filled ∧ M k = none)) :
    Represents (Function.update t c ⟨.filled, k, v⟩) n (Function.update M k (some v)) := by
  have elsewhere : ∀ c' < n, c' ≠ c → ¬ (t c').Holds k :=
    fun c' => h.not_holds_elsewhere hc place
  have fit : (t c).Holds k ∨ (t c).mark ≠ .filled := place.imp_right And.left
  constructor
  · intro c₁ h₁ c₂ h₂ k' hk₁ hk₂
    rw [holds_update] at hk₁ hk₂
    split at hk₁ <;> split at hk₂
    case isTrue.isTrue e₁ e₂ => exact e₁.trans e₂.symm
    case isTrue.isFalse e₁ e₂ => exact absurd (hk₁ ▸ hk₂) (elsewhere c₂ h₂ e₂)
    case isFalse.isTrue e₁ e₂ => exact absurd (hk₂ ▸ hk₁) (elsewhere c₁ h₁ e₁)
    case isFalse.isFalse => exact h.unique c₁ h₁ c₂ h₂ k' hk₁ hk₂
  · intro k' v'
    by_cases hkk : k' = k
    · subst hkk
      rw [Function.update_self]
      constructor
      · intro hv
        cases hv
        exact ⟨c, hc, holds_update.mpr (by simp), by rw [Function.update_self]⟩
      · rintro ⟨c', hc', hk', hv'⟩
        by_cases e : c' = c
        · rw [e, Function.update_self] at hv'
          exact congrArg some hv'
        · rw [holds_update, if_neg e] at hk'
          exact absurd hk' (elsewhere c' hc' e)
    · rw [Function.update_of_ne hkk, h.contents]
      constructor
      · rintro ⟨c', hc', hk', hv'⟩
        have e := ne_of_holds fit hkk hk'
        exact ⟨c', hc', by rwa [Function.update_of_ne e], by rwa [Function.update_of_ne e]⟩
      · rintro ⟨c', hc', hk', hv'⟩
        have e : c' ≠ c := by
          rintro rfl
          rw [holds_update, if_pos rfl] at hk'
          exact hkk hk'.symm
        rw [Function.update_of_ne e] at hk' hv'
        exact ⟨c', hc', hk', hv'⟩

/-- Burying any set of cells keeps exactly the records of the others. -/
theorem bury_where (h : Represents t n M) (gone : Nat → Prop) [DecidablePred gone]
    (dead : κ → ν → Prop) [∀ k v, Decidable (dead k v)]
    (agree : ∀ c < n, ∀ k, (t c).Holds k → (gone c ↔ dead k (t c).val)) :
    Represents (fun c => if gone c then (t c).bury else t c) n
      (fun k => (M k).filter fun v => !decide (dead k v)) := by
  have keeps : ∀ c < n, ∀ k, (if gone c then (t c).bury else t c).Holds k ↔
      (t c).Holds k ∧ ¬ dead k (t c).val := by
    intro c hc k
    by_cases hg : gone c
    · rw [if_pos hg]
      exact ⟨fun hk => absurd hk ((t c).not_holds_bury k),
        fun hk => absurd ((agree c hc k hk.1).mp hg) hk.2⟩
    · rw [if_neg hg]
      exact ⟨fun hk => ⟨hk, fun hd => hg ((agree c hc k hk).mpr hd)⟩, And.left⟩
  constructor
  · intro c hc c' hc' k hk hk'
    exact h.unique c hc c' hc' k ((keeps c hc k).mp hk).1 ((keeps c' hc' k).mp hk').1
  · intro k v
    simp only [Option.filter_eq_some_iff, h.contents, Bool.not_eq_true', decide_eq_false_iff_not]
    constructor
    · rintro ⟨⟨c, hc, hk, rfl⟩, alive⟩
      refine ⟨c, hc, (keeps c hc k).mpr ⟨hk, alive⟩, ?_⟩
      rw [if_neg (fun hg => alive ((agree c hc k hk).mp hg))]
    · rintro ⟨c, hc, hk, hv⟩
      obtain ⟨hk, alive⟩ := (keeps c hc k).mp hk
      rw [if_neg (fun hg => alive ((agree c hc k hk).mp hg))] at hv
      subst hv
      exact ⟨⟨c, hc, hk, rfl⟩, alive⟩

/-- Burying the record of `k` stores the map without `k`. -/
theorem bury [DecidableEq κ] (h : Represents t n M) (hc : c < n) (hk : (t c).Holds k) :
    Represents (Function.update t c (t c).bury) n (Function.update M k none) := by
  have whole := h.bury_where (fun c' => c' = c) (fun k' _ => k' = k) (by
    intro c' hc' k' hk'
    constructor
    · rintro rfl
      exact hk'.key_unique hk
    · rintro rfl
      exact h.unique c' hc' c hc k' hk' hk)
  have table : (fun c' => if c' = c then (t c').bury else t c') =
      Function.update t c (t c).bury := by
    funext c'
    by_cases e : c' = c
    · subst e
      simp
    · simp [e]
  have map : (fun k' => (M k').filter fun _ => !decide (k' = k)) = Function.update M k none := by
    funext k'
    by_cases e : k' = k
    · subst e
      simp
    · cases hM : M k' <;> simp [e, hM]
  rwa [table, map] at whole

/-- Distinct buried cells hold distinct keys, so counting cells counts keys. -/
theorem card_dead (h : Represents t n M) (gone : Nat → Prop) [DecidablePred gone]
    (dead : κ → ν → Prop) (agree : ∀ c < n, ∀ k, (t c).Holds k → (gone c ↔ dead k (t c).val))
    (live : ∀ c < n, gone c → (t c).mark = .filled) :
    ((Finset.range n).filter gone).card = {k | ∃ v, M k = some v ∧ dead k v}.ncard := by
  classical
  have image : {k | ∃ v, M k = some v ∧ dead k v} =
      (((Finset.range n).filter gone).image fun c => (t c).key : Finset κ) := by
    ext k
    simp only [Set.mem_ofPred_eq, Finset.coe_image, Finset.coe_filter, Finset.mem_range,
      Set.mem_image, h.contents]
    constructor
    · rintro ⟨v, ⟨c, hc, hk, rfl⟩, hd⟩
      exact ⟨c, ⟨hc, (agree c hc k hk).mpr hd⟩, hk.2⟩
    · rintro ⟨c, ⟨hc, hg⟩, rfl⟩
      have hk : (t c).Holds (t c).key := ⟨live c hc hg, rfl⟩
      exact ⟨_, ⟨c, hc, hk, rfl⟩, (agree c hc _ hk).mp hg⟩
  rw [image, Set.ncard_coe_finset, Finset.card_image_of_injOn]
  intro c hc c' hc' hkey
  simp only [Finset.coe_filter, Finset.mem_range, Set.mem_ofPred_eq] at hc hc'
  exact h.unique c hc.1 c' hc'.1 _ ⟨live c hc.1 hc.2, rfl⟩ ⟨live c' hc'.1 hc'.2, hkey.symm⟩

end Represents

end OpenAddressing
