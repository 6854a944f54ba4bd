import Mathlib.Data.List.Induction

/-!
# Ordered maps

`std::map` with `int` keys, as the list of its entries in the order of their
keys. A map that is filled entry by entry keeps the last value of every key.
-/

structure OrderedMap (ν : Type) where
  entries : List (Int × ν)
  increasing : entries.Pairwise fun e e' => e.1 < e'.1

namespace OrderedMap

variable {α ν : Type}

def empty : OrderedMap ν := ⟨[], .nil⟩

def keys (m : OrderedMap ν) : List Int := m.entries.map Prod.fst

def get? (m : OrderedMap ν) (key : Int) : Option ν := m.entries.lookup key

/-- A new entry takes its place among the others; an old one is replaced. -/
def insertEntry (key : Int) (value : ν) : List (Int × ν) → List (Int × ν)
  | [] => [(key, value)]
  | (key', value') :: entries =>
    if key < key' then (key, value) :: (key', value') :: entries
    else if key = key' then (key, value) :: entries
    else (key', value') :: insertEntry key value entries

theorem mem_insertEntry {key : Int} {value : ν} {entries : List (Int × ν)} {e : Int × ν}
    (h : e ∈ insertEntry key value entries) : e = (key, value) ∨ e ∈ entries := by
  induction entries with
  | nil => exact .inl (List.mem_singleton.mp h)
  | cons first entries ih =>
      rw [insertEntry] at h
      split at h
      · exact List.mem_cons.mp h
      split at h
      · exact (List.mem_cons.mp h).imp_right (List.mem_cons_of_mem _)
      · rcases List.mem_cons.mp h with rfl | later
        · exact .inr List.mem_cons_self
        · exact (ih later).imp_right (List.mem_cons_of_mem _)

theorem increasing_insertEntry {entries : List (Int × ν)}
    (h : entries.Pairwise fun e e' => e.1 < e'.1) (key : Int) (value : ν) :
    (insertEntry key value entries).Pairwise fun e e' => e.1 < e'.1 := by
  induction entries with
  | nil => exact List.pairwise_singleton _ _
  | cons first entries ih =>
      obtain ⟨below, rest⟩ := List.pairwise_cons.mp h
      rw [insertEntry]
      split
      · rename_i less
        refine List.pairwise_cons.mpr ⟨fun e mem => ?_, h⟩
        rcases List.mem_cons.mp mem with rfl | later
        · exact less
        · exact Int.lt_trans less (below e later)
      split
      · rename_i same
        exact List.pairwise_cons.mpr ⟨fun e mem => same ▸ below e mem, rest⟩
      · rename_i notLess other
        refine List.pairwise_cons.mpr ⟨fun e mem => ?_, ih rest⟩
        rcases mem_insertEntry mem with rfl | later
        · exact Int.lt_iff_le_and_ne.mpr ⟨Int.not_lt.mp notLess, Ne.symm other⟩
        · exact below e later

/-- The assignment of `operator[]`. -/
def insert (m : OrderedMap ν) (key : Int) (value : ν) : OrderedMap ν :=
  ⟨insertEntry key value m.entries, increasing_insertEntry m.increasing key value⟩

@[simp] theorem get?_empty (key : Int) : (empty : OrderedMap ν).get? key = none := rfl

theorem lookup_cons_eq_ite (key : Int) (e : Int × ν) (entries : List (Int × ν)) :
    (e :: entries).lookup key = if key = e.1 then some e.2 else entries.lookup key := by
  by_cases same : key = e.1
  · rw [if_pos same, List.lookup_cons, beq_iff_eq.mpr same]
  · rw [if_neg same, List.lookup_cons, beq_eq_false_iff_ne.mpr same]

theorem lookup_insertEntry (key key' : Int) (value : ν) (entries : List (Int × ν)) :
    (insertEntry key value entries).lookup key' =
      if key' = key then some value else entries.lookup key' := by
  induction entries with
  | nil => rw [insertEntry, lookup_cons_eq_ite]
  | cons first entries ih =>
      rw [insertEntry]
      split
      · rw [lookup_cons_eq_ite]
      split
      · rename_i same
        rw [lookup_cons_eq_ite, lookup_cons_eq_ite]
        by_cases this : key' = key
        · rw [if_pos this, if_pos this]
        · rw [if_neg this, if_neg this, if_neg fun same' => this (same'.trans same.symm)]
      · rename_i other
        rw [lookup_cons_eq_ite, lookup_cons_eq_ite, ih]
        by_cases this : key' = first.1
        · rw [if_pos this, if_neg fun same' => other (same'.symm.trans this), if_pos this]
        · rw [if_neg this, if_neg this]

theorem get?_insert (m : OrderedMap ν) (key key' : Int) (value : ν) :
    (m.insert key value).get? key' = if key' = key then some value else m.get? key' :=
  lookup_insertEntry key key' value m.entries

/-! ## Entries and values -/

theorem mem_iff_lookup {entries : List (Int × ν)}
    (h : entries.Pairwise fun e e' => e.1 < e'.1) {key : Int} {value : ν} :
    (key, value) ∈ entries ↔ entries.lookup key = some value := by
  induction entries with
  | nil => simp
  | cons first entries ih =>
      obtain ⟨below, rest⟩ := List.pairwise_cons.mp h
      rw [List.mem_cons, lookup_cons_eq_ite, ih rest]
      by_cases this : key = first.1
      · have absent : entries.lookup key ≠ some value := fun found => by
          have less := below _ ((ih rest).mpr found)
          omega
        rw [if_pos this, or_iff_left absent, Option.some_inj, Prod.ext_iff, eq_comm (a := value)]
        exact ⟨fun same => same.2, fun same => ⟨this, same⟩⟩
      · rw [if_neg this, or_iff_right fun same => this (congrArg Prod.fst same)]

theorem mem_entries {m : OrderedMap ν} {key : Int} {value : ν} :
    (key, value) ∈ m.entries ↔ m.get? key = some value :=
  mem_iff_lookup m.increasing

theorem mem_keys {m : OrderedMap ν} {key : Int} :
    key ∈ m.keys ↔ ∃ value, m.get? key = some value := by
  simp only [keys, List.mem_map, Prod.exists, ← mem_entries]
  simp

theorem nodup_entries (m : OrderedMap ν) : m.entries.Nodup :=
  m.increasing.imp fun less same => by
    rw [same] at less
    exact Int.lt_irrefl _ less

/-! ## Filling a map -/

def fill (key : α → Int) (value : α → ν) (m : OrderedMap ν) (l : List α) : OrderedMap ν :=
  l.foldl (fun m a => m.insert (key a) (value a)) m

theorem fill_append (key : α → Int) (value : α → ν) (m : OrderedMap ν) (l l' : List α) :
    fill key value m (l ++ l') = fill key value (fill key value m l) l' :=
  List.foldl_append

/-- The last entry for a key counts. -/
theorem get?_fill_iff {key : α → Int} {value : α → ν} {l : List α} {k : Int} {v : ν} :
    (fill key value empty l).get? k = some v ↔
      ∃ before a after, l = before ++ a :: after ∧ key a = k ∧ value a = v ∧
        ∀ b ∈ after, key b ≠ k := by
  induction l using List.reverseRecOn with
  | nil => simp [fill]
  | append_singleton l a ih =>
      rw [fill, List.foldl_append, List.foldl_cons, List.foldl_nil, get?_insert, ← fill]
      constructor
      · intro found
        split at found
        · rename_i same
          exact ⟨l, a, [], rfl, same.symm, Option.some.inj found, List.forall_mem_nil _⟩
        · rename_i other
          obtain ⟨before, b, after, rfl, atKey, stored, last⟩ := ih.mp found
          refine ⟨before, b, after ++ [a], by simp, atKey, stored, fun c mem => ?_⟩
          rcases List.mem_append.mp mem with mem | mem
          · exact last c mem
          · rw [List.mem_singleton.mp mem]
            exact Ne.symm other
      · rintro ⟨before, b, after, split, atKey, stored, last⟩
        rcases List.eq_nil_or_concat after with rfl | ⟨after, c, rfl⟩
        · obtain ⟨_, same⟩ := List.append_inj' split rfl
          cases same
          rw [if_pos atKey.symm, stored]
        · rw [List.concat_eq_append, ← List.cons_append, ← List.append_assoc] at split
          obtain ⟨rfl, same⟩ := List.append_inj' split rfl
          cases same
          rw [if_neg fun same => last _ (by simp) same.symm]
          exact ih.mpr ⟨before, b, after, rfl, atKey, stored, fun d mem => last d (by simp [mem])⟩

/-- With distinct keys every entry stays. -/
theorem mem_fill_iff {key : α → Int} {value : α → ν} {l : List α} (distinct : (l.map key).Nodup)
    {k : Int} {v : ν} : (k, v) ∈ (fill key value empty l).entries ↔
      ∃ a ∈ l, key a = k ∧ value a = v := by
  rw [mem_entries, get?_fill_iff]
  constructor
  · rintro ⟨before, a, after, rfl, atKey, stored, _⟩
    exact ⟨a, by simp, atKey, stored⟩
  · rintro ⟨a, mem, atKey, stored⟩
    obtain ⟨before, after, rfl⟩ := List.append_of_mem mem
    refine ⟨before, a, after, rfl, atKey, stored, fun b later same => ?_⟩
    rw [List.map_append, List.map_cons] at distinct
    have fresh := (List.nodup_cons.mp (List.nodup_append.mp distinct).2.1).1
    exact fresh (atKey.trans same.symm ▸ List.mem_map_of_mem later)

end OrderedMap
