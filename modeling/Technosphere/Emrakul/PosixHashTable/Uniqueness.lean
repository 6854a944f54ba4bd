import Technosphere.Emrakul.PosixHashTable.Concurrent

/-!
# One cell for each key

`set` decides in `find_filled` that its key is absent and publishes a cell for
it in a later critical section. Two calls of `set` with one key can both decide
so and publish two cells. `Unraced` asks that, when a new cell is published,
every other `set` of the same key is still going to come past that cell, or has
decided on the very same cell, or is over.
-/

namespace PosixHashTable

open SharedMemory Prog OpenAddressing Emrakul Transition

/-- Process `q`, in a `set` of `key`, will still notice what is in cell `c`. -/
def WillSee (s : System) (q : Nat) (key : List UInt8) (c : Nat) : Prop :=
  match s.point q with
  | some (.findFilled cur) => c ∈ (order key).dropWhile (· ≠ cur)
  | some (.set c') => c' = c
  | some _ => False
  | none => True

/-- When a `set` gives its key a new cell, every other `set` of that key will
see this cell. -/
def Unraced (s : System) : Action Call → Prop
  | .region p _ => ∀ key value ttl c, s.call p = some (.set key value ttl) →
      s.point p = some (.set c) → ¬ (view s.mem c).Holds key.bytes →
      ∀ q key' value' ttl', q ≠ p → s.call q = some (.set key' value' ttl') →
        key'.bytes = key.bytes → WillSee s q key.bytes c
  | _ => True

/-- What a `set` of `key` may rely on at each place: the cells it has passed,
then all cells, then all but the one it is going to write do not hold its key. -/
def Relies (m : Memory) (key : List UInt8) : Site → Prop
  | .filled cur rest => ∀ front, order key = front ++ cur :: rest →
      ∀ x ∈ front, ¬ (view m x).Holds key
  | .free _ _ => ∀ x < tableSize, ¬ (view m x).Holds key
  | .body c => ∀ x < tableSize, x ≠ c → ¬ (view m x).Holds key
  | _ => True

/-- The assertion about a paused call. -/
def PausedSet (_ : List (Action Call)) (m : Memory) (_ : Nat) (call : Call) (σ : Site) : Prop :=
  Fits call σ ∧ ∀ key value ttl, call = .set key value ttl → Relies m key.bytes σ

theorem Relies.mono {m m' : Memory} {key : List UInt8} {σ : Site} (h : Relies m key σ)
    (fewer : ∀ x, (view m' x).Holds key → (view m x).Holds key) : Relies m' key σ := by
  cases σ with
  | filled cur rest => exact fun front order_eq x hx holds => h front order_eq x hx (fewer x holds)
  | free cur rest => exact fun x hx holds => h x hx (fewer x holds)
  | body c => exact fun x hx hne holds => h x hx hne (fewer x holds)
  | sweep | done => exact trivial

theorem Relies.entry (m : Memory) (key : Key) (value : Value) (ttl : Int) :
    Relies m key.bytes (entry (.set key value ttl)) := by
  simp only [PosixHashTable.entry, Call.key, Relies]
  intro front order_eq x hx
  -- nothing lies before the first cell
  have nil : front = [] := by
    have lengths := congrArg List.length order_eq
    rw [order_cons, List.length_append] at lengths
    exact List.length_eq_zero_iff.mp (by omega)
  rw [nil] at hx
  cases hx

theorem unique_fades {m m' : Memory} {n : Nat} (h : Unique (view m) n) (fades : Fades m m') :
    Unique (view m') n :=
  fun c hc c' hc' k hk hk' => h c hc c' hc' k (fades.holds hk) (fades.holds hk')

/-- The cells from the one that a probe waits for are those still to come. -/
theorem dropWhile_order {key : List UInt8} {front rest : List Nat} {cur : Nat}
    (h : order key = front ++ cur :: rest) :
    (order key).dropWhile (· ≠ cur) = cur :: rest := by
  have nodup := nodup_order key
  rw [h, List.nodup_append] at nodup
  rw [h, List.dropWhile_append_of_pos, List.dropWhile_cons_of_neg (by simp)]
  intro x hx
  simpa using nodup.2.2 x hx cur (by simp)

section Steps

variable {m m' : Memory} {key : Key} {value : Value} {ttl : Int} {σ σ' : Site}

/-- The `set` that takes a step knows what it relies on next. -/
theorem Relies.next (unique : Unique (view m) tableSize) (fits : Fits (.set key value ttl) σ)
    (h : Relies m key.bytes σ) (next : Next (.set key value ttl) σ m m' σ') :
    Relies m' key.bytes σ' := by
  cases next with
  | full | written => exact trivial
  | @passed _ _ _ cur rest front cur' rest' hk split _ misses =>
      cases hk
      obtain ⟨before, order_eq⟩ := fits.order_eq rfl
      intro front' order_eq' x hx
      have same : front' = before ++ front := by
        rw [order_eq, split, ← List.append_assoc] at order_eq'
        exact (List.append_cancel_right order_eq').symm
      rw [same] at hx
      rcases List.mem_append.mp hx with hx | hx
      · exact h before order_eq x hx
      · exact misses x hx
  | @found _ _ _ cur rest front c back hk split misses holds =>
      cases hk
      obtain ⟨_, order_eq⟩ := fits.order_eq rfl
      have inside : c < tableSize := mem_of_order_eq order_eq (by rw [split]; simp)
      intro x hx hne hold
      exact hne (unique x hx c inside _ hold holds)
  | @missed _ _ _ cur rest hk misses =>
      cases hk
      obtain ⟨before, order_eq⟩ := fits.order_eq rfl
      intro x hx
      have hmem : x ∈ before ++ cur :: rest := by
        rw [← order_eq]
        exact mem_order.mpr hx
      rcases List.mem_append.mp hmem with hmem | hmem
      · exact h before order_eq x hmem
      · exact misses x hmem
  | crowded => exact h
  | vacant => exact fun x hx _ => h x hx

/-- Writing the only cell of a key keeps keys in one cell. -/
theorem unique_writeRecord {c : Nat} {death : Int} (unique : Unique (view m) tableSize)
    (only : ∀ x < tableSize, x ≠ c → ¬ (view m x).Holds key.bytes) :
    Unique (view (writeRecord m c key.bytes value.bytes death)) tableSize := by
  intro x hx y hy k holdsX holdsY
  rw [holds_writeRecord] at holdsX holdsY
  by_cases ex : x = c <;> by_cases ey : y = c
  · exact ex.trans ey.symm
  · rw [if_pos ex] at holdsX
    rw [if_neg ey, ← holdsX] at holdsY
    exact absurd holdsY (only y hy ey)
  · rw [if_pos ey] at holdsY
    rw [if_neg ex, ← holdsY] at holdsX
    exact absurd holdsX (only x hx ex)
  · rw [if_neg ex] at holdsX
    rw [if_neg ey] at holdsY
    exact unique x hx y hy k holdsX holdsY

/-- The place of a `set` is not affected by its key appearing in cell `c`. -/
def Indifferent (c : Nat) : Site → Prop
  | .filled cur rest => c ∈ cur :: rest
  | .free _ _ => False
  | .body c' => c' = c
  | _ => True

/-- A record written elsewhere leaves another `set` what it relies on, if that
`set` is for another key, or the cell had the key already, or it will see it. -/
theorem Relies.other {c : Nat} {death : Int} {key' : List UInt8} (h : Relies m key' σ)
    (harmless : key.bytes = key' → ¬ (view m c).Holds key' → Indifferent c σ) :
    Relies (writeRecord m c key.bytes value.bytes death) key' σ := by
  by_cases fresh : key.bytes = key' ∧ ¬ (view m c).Holds key'
  · have indifferent := harmless fresh.1 fresh.2
    have elsewhere : ∀ {x}, x ≠ c →
        (view (writeRecord m c key.bytes value.bytes death) x).Holds key' →
        (view m x).Holds key' := by
      intro x hne holds
      rwa [holds_writeRecord, if_neg hne] at holds
    cases σ with
    | filled cur rest =>
        intro front order_eq x hx holds
        refine h front order_eq x hx (elsewhere ?_ holds)
        rintro rfl
        have nodup := nodup_order key'
        rw [order_eq, List.nodup_append] at nodup
        exact nodup.2.2 x hx x indifferent rfl
    | free cur rest => exact indifferent.elim
    | body c' =>
        cases indifferent
        exact fun x hx hne holds => h x hx hne (elsewhere hne holds)
    | sweep | done => exact trivial
  · apply h.mono
    intro x holds
    rw [holds_writeRecord] at holds
    by_cases e : x = c
    · rw [if_pos e] at holds
      rw [e]
      exact not_not.mp fun hno => fresh ⟨holds, hno⟩
    · rwa [if_neg e] at holds

end Steps

/-! ## Runs -/

theorem indifferent_of_willSee {L : Located Call Site} {q : Nat} {key : List UInt8} {c : Nat}
    {key' : Key} {value' : Value} {ttl' : Int} {σ : Site}
    (hq : L.sites q = some (.set key' value' ttl', σ)) (fits : Fits (.set key' value' ttl') σ)
    (same : key'.bytes = key) (sees : WillSee (places.config L) q key c) :
    Indifferent c σ := by
  have point : (places.config L).point q = pointAt (.set key' value' ttl') σ :=
    (places.config_point hq).trans fits.point
  rw [WillSee, point] at sees
  cases fits with
  | filled hk order_eq =>
      cases hk
      simp only [pointAt] at sees
      rw [← same, dropWhile_order order_eq] at sees
      exact sees
  | free => exact sees
  | body => exact sees
  | done => exact trivial

theorem holds_of_unraced {m₀ : Memory} {acts : List (Action Call)} {s : System}
    (zeroed : Zeroed m₀) (ran : Run (step code) Unraced (Config.idle m₀) acts s) :
    ∃ L, s = places.config L ∧
      Outline.Holds (fun _ m => Unique (view m) tableSize) PausedSet acts L := by
  refine places.holds_of_run (L := ⟨m₀, fun _ => none⟩) id id ?_ ?_ ?_ ran
  · intro acts L p call holds _ _
    refine ⟨fits_entry call, ?_⟩
    rintro key value ttl rfl
    exact Relies.entry _ key value ttl
  · intro acts L p clk call σ m' σ' holds unraced hp next
    obtain ⟨fits, relies⟩ := holds.paused p call σ hp
    rcases next.fades_or_writes with fades | ⟨key, value, ttl, c, now, rfl, rfl, rfl, rfl⟩
    · refine ⟨unique_fades holds.shared fades, ⟨fits.next next, ?_⟩, ?_⟩
      · rintro key value ttl rfl
        exact (relies key value ttl rfl).next holds.shared fits next
      · intro q call₁ σ₁ _ hq
        obtain ⟨fits₁, relies₁⟩ := holds.paused q call₁ σ₁ hq
        exact ⟨fits₁, fun key value ttl hcall =>
          (relies₁ key value ttl hcall).mono fun x => fades.holds⟩
    · refine ⟨unique_writeRecord holds.shared (relies key value ttl rfl), ⟨.done, ?_⟩, ?_⟩
      · exact fun _ _ _ _ => trivial
      · intro q call₁ σ₁ hne hq
        obtain ⟨fits₁, relies₁⟩ := holds.paused q call₁ σ₁ hq
        refine ⟨fits₁, ?_⟩
        rintro key' value' ttl' rfl
        apply (relies₁ key' value' ttl' rfl).other
        intro same fresh
        apply indifferent_of_willSee hq fits₁ rfl
        rw [← same] at fresh ⊢
        exact unraced key value ttl c (places.config_call hp) (places.config_point hp) fresh q
          key' value' ttl' hne (places.config_call hq) same.symm
  · refine ⟨fun c hc _ _ _ holds _ => ?_, by simp⟩
    have hfilled := holds.1
    rw [view_mark, zeroed.markAt hc] at hfilled
    cases hfilled

/-- In every unraced run, collector included, two filled cells have different keys. -/
theorem one_cell_per_key {m₀ : Memory} {acts : List (Action Call)} {s : System}
    (zeroed : Zeroed m₀) (ran : Run (step code) Unraced (Config.idle m₀) acts s) :
    ∀ c < tableSize, ∀ c' < tableSize, c ≠ c' → markAt s.mem c = .filled →
      markAt s.mem c' = .filled → keyAt s.mem c ≠ keyAt s.mem c' := by
  obtain ⟨L, rfl, holds⟩ := holds_of_unraced zeroed ran
  intro c hc c' hc' hne filled filled' same
  exact hne (holds.shared c hc c' hc' _ ⟨filled, rfl⟩ ⟨filled', same.symm⟩)

/-! ## An unraced and a raced run -/

/-- One `set` alone is unraced. -/
theorem set_alone (k : Key) (v : Value) {m₀ : Memory} (zeroed : Zeroed m₀) :
    ∃ acts s, Run (step code) Unraced (Config.idle m₀) acts s ∧
      markAt s.mem (hash tableSize k.bytes) = .filled := by
  let m₁ := writeRecord m₀ (hash tableSize k.bytes) k.bytes v.bytes (10 + 1)
  have alone : ∀ q, Unraced ((Config.idle m₀).put 0 m₀ (.set k v 10) q) (.region 0 fun _ => 1) := by
    rintro q key value ttl c _ _ _ q' key' value' ttl' hne hcall
    rw [Config.put_call_of_ne _ _ _ _ _ hne] at hcall
    cases hcall
  obtain ⟨n, acknowledged⟩ : ∃ n, Run (step code) Unraced
      ((Config.idle m₀).put 0 m₀ (.set k v 10) _) (List.replicate n (.region 0 fun _ => 1))
      ((Config.idle m₀).put 0 m₁ (.set k v 10) (pure ⟨0, []⟩)) :=
    run_set alone (zeroed.place _)
  have started : Run (step code) Unraced (Config.idle m₀) [.start 0 (.set k v 10)]
      ((Config.idle m₀).put 0 m₀ (.set k v 10) (code (.set k v 10))) :=
    .single trivial (step_start rfl)
  refine ⟨_, _, started.trans acknowledged, ?_⟩
  have cell := congrFun (view_writeRecord m₀ (hash tableSize k.bytes) k v (10 + 1))
    (hash tableSize k.bytes)
  rw [Function.update_self] at cell
  exact congrArg Slot.mark cell

/-- The uniqueness theorem at this run. -/
theorem set_alone_unique :
    ∃ acts s, Run (step code) Unraced (Config.idle fun _ => 0) acts s ∧
      markAt s.mem home = .filled ∧ ∀ c < tableSize, home ≠ c → markAt s.mem c = .filled →
        keyAt s.mem home ≠ keyAt s.mem c := by
  obtain ⟨acts, s, ran, filled⟩ := set_alone keyD value1 zeroed_zero
  rw [hash_keyD] at filled
  exact ⟨acts, s, ran, filled, fun c hc hne =>
    one_cell_per_key zeroed_zero ran home (by decide) c hc hne filled⟩

/-- Two calls of `set` with one key: the first has found the key absent, the
second publishes it, the first looks for another free cell and publishes it again. -/
theorem published_twice (k : Key) (v v' : Value) {m₀ : Memory} (zeroed : Zeroed m₀) :
    ∃ acts s, Run (step code) Always (Config.idle m₀) acts s ∧
      ∃ c < tableSize, ∃ c' < tableSize, c ≠ c' ∧ (view s.mem c).Holds k.bytes ∧
        (view s.mem c').Holds k.bytes := by
  let c := hash tableSize k.bytes
  let m₁ := writeRecord m₀ c k.bytes v'.bytes (10 + 1)
  have hc : c < tableSize := hash_lt tableSize_pos _
  have holds : (view m₁ c).Holds k.bytes := by
    rw [holds_writeRecord, if_pos rfl]
  -- another cell is still free
  obtain ⟨x, hx, hxc⟩ : ∃ x < tableSize, x ≠ c := by
    by_cases h : c = 0
    · exact ⟨1, by decide, by omega⟩
    · exact ⟨0, by decide, by omega⟩
  have free : markAt m₁ x = .free := by
    have cell : view m₁ x = view m₀ x := by
      rw [view_writeRecord, Function.update_of_ne hxc]
    rw [← view_mark, cell, view_mark, zeroed.markAt hx]
  obtain ⟨c', second⟩ : ∃ c', vacancy (view m₁) (order k.bytes) = some c' := by
    cases hv : vacancy (view m₁) (order k.bytes) with
    | some c' => exact ⟨c', rfl⟩
    | none => exact absurd free (vacancy_eq_none.mp hv x (mem_order.mpr hx))
  have hc' : c' < tableSize := mem_order.mp (mem_of_vacancy second)
  have hne : c' ≠ c := by
    rintro rfl
    have hfilled := holds.1
    rw [mark_of_vacancy second] at hfilled
    cases hfilled
  let s₀ : System := Config.idle m₀
  let s₁ := s₀.put 0 m₀ (.set k v 10) (textAt (.set k v 10) (missing (.set k v 10)))
  let s₂ := s₁.put 1 m₁ (.set k v' 10) (pure ⟨0, []⟩)
  let m₂ := writeRecord m₁ c' k.bytes v.bytes (10 + 1)
  obtain ⟨n₀, missed⟩ : ∃ n, Run (step code) Always (s₀.put 0 m₀ (.set k v 10) _)
      (List.replicate n (.region 0 fun _ => 1)) s₁ :=
    run_to_missing rfl (fun _ => trivial) (zeroed.lookup _)
  obtain ⟨n₁, acknowledged⟩ : ∃ n, Run (step code) Always (s₁.put 1 m₀ (.set k v' 10) _)
      (List.replicate n (.region 1 fun _ => 1)) s₂ :=
    run_set (fun _ => trivial) (zeroed.place _)
  have resumed : s₂.put 0 m₁ (.set k v 10) (textAt (.set k v 10) (missing (.set k v 10))) = s₂ :=
    Config.put_eq _ _ _ _ rfl
  obtain ⟨n₂, chosen⟩ : ∃ n, Run (step code) Always (s₂.put 0 m₁ (.set k v 10) _)
      (List.replicate n (.region 0 fun _ => 1))
      (s₂.put 0 m₁ (.set k v 10) (actOn (.set k v 10) c')) :=
    run_to_vacancy (fun _ => trivial) second
  rw [resumed] at chosen
  have first : Run (step code) Always s₀ [.start 0 (.set k v 10)]
      (s₀.put 0 m₀ (.set k v 10) (code (.set k v 10))) := .single trivial (step_start rfl)
  have other : Run (step code) Always s₁ [.start 1 (.set k v' 10)]
      (s₁.put 1 m₀ (.set k v' 10) (code (.set k v' 10))) := .single trivial (step_start rfl)
  have written : Run (step code) Always (s₂.put 0 m₁ (.set k v 10) (actOn (.set k v 10) c'))
      [.region 0 fun _ => 1] (s₂.put 0 m₂ (.set k v 10) (pure ⟨0, []⟩)) :=
    .single trivial (step_put_region (enter_setCell _ _ _ _ _ _ _))
  have published := (acknowledged.trans chosen).trans written
  refine ⟨_, _, ((first.trans missed).trans other).trans published,
    c, hc, c', hc', hne.symm, ?_, ?_⟩
  · exact holds_writeRecord.mpr (by rwa [if_neg hne.symm])
  · exact holds_writeRecord.mpr (by rw [if_pos rfl])

/-- Two calls of `set` with `"d"` can leave the key in two cells. -/
theorem key_in_two_cells :
    ¬ ∀ m₀ acts s, Zeroed m₀ → Run (step code) Always (Config.idle m₀) acts s →
      ∀ c < tableSize, ∀ c' < tableSize, c ≠ c' → markAt s.mem c = .filled →
        markAt s.mem c' = .filled → keyAt s.mem c ≠ keyAt s.mem c' := by
  intro always
  obtain ⟨acts, s, ran, c, hc, c', hc', hne, holds, holds'⟩ :=
    published_twice keyD value1 value2 zeroed_zero
  exact always _ acts s zeroed_zero ran c hc c' hc' hne holds.1 holds'.1
    (holds.2.trans holds'.2.symm)

end PosixHashTable
