import Mathlib.Data.List.TakeWhile
import Technosphere.Emrakul.PosixHashTable.Concurrent

/-!
# When an acknowledged update stays

Two calls of `set` can choose the same free cell, because it is chosen in one
critical section and written in another. `Keeps` asks that a `set` finds the
cell it writes still free, or with its own key. The key of a used cell then
never changes, so what other keys do is invisible to a key, and a `get` finds
the value that was acknowledged last.

The last section bounds the critical sections of one call, so that the `get`
is known to answer.
-/

namespace PosixHashTable

open SharedMemory Prog OpenAddressing Emrakul Transition

/-- Nobody has taken the cell that a `set` is about to write for another key. -/
def Keeps (s : System) : Action Call → Prop
  | .region p _ => ∀ key value ttl c, s.call p = some (.set key value ttl) →
      s.point p = some (.set c) → markAt s.mem c = .free ∨ keyAt s.mem c = key.bytes
  | _ => True

/-- Calls that may change what is stored under `key`. -/
def Call.Touches (key : List UInt8) : Call → Prop
  | .get _ _ => False
  | .set k _ _ => k.bytes = key
  | .del k => k.bytes = key
  | .collectGarbage => True

/-- The process `except` stays in its call, and no other process takes a step
of a call that may change what is stored under `key`. -/
def Quiet (key : List UInt8) (except : Option Nat) (s : System) : Action Call → Prop
  | .start p _ => some p ≠ except
  | .region p _ => some p = except ∨ ∀ call, s.call p = some call → ¬ call.Touches key
  | .finish p => some p ≠ except

/-- Quiet for `key`, and the condition `ok` is met. -/
def Peaceful (ok : System → Action Call → Prop) (key : List UInt8) (except : Option Nat)
    (s : System) (a : Action Call) : Prop :=
  Quiet key except s a ∧ ok s a

/-- Process `a` had its `set` acknowledged and process `b` has just started a
`get` of the same key. All steps met `ok`, and since the `set` began nobody
else took a step of a call that may change what is stored under the key. -/
def Asked (ok : System → Action Call → Prop) (m₀ : Memory) (a b : Nat) (key : Key) (value : Value)
    (ttl : Int) (buffer : List UInt8) (s : System) : Prop :=
  ∃ acts₀ s₀ s₁ acts₁ s₂ s₃ acts₂ s₄, Run (step code) ok (Config.idle m₀) acts₀ s₀ ∧
    step code s₀ (.start a (.set key value ttl)) = some s₁ ∧
    Run (step code) (Peaceful ok key.bytes (some a)) s₁ acts₁ s₂ ∧
    s₂.result a = some ⟨0, []⟩ ∧ step code s₂ (.finish a) = some s₃ ∧
    Run (step code) (Peaceful ok key.bytes none) s₃ acts₂ s₄ ∧
    step code s₄ (.start b (.get key buffer)) = some s

/-! ## Used cells keep their key -/

/-- A `get` or `del` that has found a cell still finds its key there. -/
def Kept (m : Memory) (call : Call) (σ : Site) : Prop :=
  Fits call σ ∧ ∀ key c, call.Uses key → σ = .body c →
    markAt m c ≠ .free ∧ keyAt m c = key.bytes

/-- The condition `Keeps` for a process that is paused at `σ`. -/
def KeepsAt (m : Memory) (call : Call) (σ : Site) : Prop :=
  ∀ key value ttl c, call = .set key value ttl → σ = .body c →
    markAt m c = .free ∨ keyAt m c = key.bytes

theorem keepsAt_of_keeps {L : Located Call Site} {p : Nat} {clk : Nat → Int} {call : Call}
    {σ : Site} (hp : L.sites p = some (call, σ))
    (keeps : Keeps (places.config L) (.region p clk)) : KeepsAt L.mem call σ := by
  rintro key value ttl c rfl rfl
  exact keeps key value ttl c (places.config_call hp) (places.config_point hp)

section Steps

variable {m m' : Memory} {call call₁ : Call} {σ σ' σ₁ : Site}

theorem markAt_fades (fades : Fades m m') {c : Nat} (used : markAt m c ≠ .free) :
    markAt m' c ≠ .free := by
  rw [← view_mark] at used ⊢
  rcases fades c with same | buried
  · rwa [same]
  · rw [buried, Slot.bury_mark]
    exact Mark.noConfusion

theorem Kept.next (h : Kept m call σ) (next : Next call σ m m' σ') : Kept m' call σ' := by
  refine ⟨h.1.next next, fun key c uses hσ => ?_⟩
  cases next with
  | found hk split misses holds =>
      cases hσ
      cases Option.some.inj (hk.symm.trans uses.key)
      refine ⟨?_, holds.2⟩
      rw [← view_mark, holds.1]
      exact Mark.noConfusion
  | vacant => rcases uses with ⟨_, hcall⟩ | hcall <;> cases hcall
  | missed => cases call <;> cases hσ
  | passed | crowded | full | copied | written | buried | swept | finished => cases hσ

theorem Kept.other (h : Kept m call₁ σ₁) (next : Next call σ m m' σ') (keeps : KeepsAt m call σ) :
    Kept m' call₁ σ₁ := by
  refine ⟨h.1, fun key c uses hσ => ?_⟩
  obtain ⟨used, same⟩ := h.2 key c uses hσ
  rcases next.fades_or_writes with fades | ⟨key', value, ttl, c', now, rfl, rfl, rfl, rfl⟩
  · rw [fades.keyAt]
    exact ⟨markAt_fades fades used, same⟩
  · by_cases e : c = c'
    · subst e
      have cell := congrFun (view_writeRecord m c key' value (ttl + now)) c
      rw [Function.update_self] at cell
      rw [← view_mark, ← view_key, cell]
      refine ⟨Mark.noConfusion, ?_⟩
      rcases keeps key' value ttl c rfl rfl with free | own
      · exact absurd free used
      · exact own.symm.trans same
    · rw [keyAt_writeRecord_of_ne e, ← view_mark, view_writeRecord, Function.update_of_ne e]
      exact ⟨used, same⟩

/-- Nothing changed for `key`: the same cells hold it, with the same values. -/
def SameFor (key : List UInt8) (m m' : Memory) : Prop :=
  ∀ x, ((view m' x).Holds key ↔ (view m x).Holds key) ∧
    ((view m x).Holds key → valueAt m' x = valueAt m x)

theorem SameFor.refl (key : List UInt8) (m : Memory) : SameFor key m m :=
  fun _ => ⟨Iff.rfl, fun _ => rfl⟩

/-- A step of a call that does not touch `key` changes nothing for it. -/
theorem sameFor_of_next {key : List UInt8} (kept : Kept m call σ) (next : Next call σ m m' σ')
    (keeps : KeepsAt m call σ) (untouched : ¬ call.Touches key) : SameFor key m m' := by
  cases next with
  | passed | found | missed | crowded | vacant | full | copied => exact .refl _ _
  | @written key' value ttl _ c now =>
      have differ : key'.bytes ≠ key := untouched
      have before : ¬ (view m c).Holds key := by
        intro holds
        rcases keeps key' value ttl c rfl rfl with free | own
        · rw [← view_mark, holds.1] at free
          cases free
        · exact differ (own.symm.trans holds.2)
      intro x
      rw [holds_writeRecord]
      by_cases e : x = c
      · rw [if_pos e, e]
        exact ⟨iff_of_false differ before, fun holds => absurd holds before⟩
      · rw [if_neg e]
        exact ⟨Iff.rfl, fun _ => valueAt_writeRecord_of_ne e⟩
  | @buried key' _ c =>
      have differ : key'.bytes ≠ key := untouched
      have before : ¬ (view m c).Holds key := by
        intro holds
        exact differ ((kept.2 key' c (Or.inr rfl) rfl).2.symm.trans holds.2)
      intro x
      refine ⟨?_, fun _ => (fades_buryCell m c).valueAt x⟩
      rw [view_buryCell]
      by_cases e : x = c
      · rw [e, Function.update_self]
        exact iff_of_false (Slot.not_holds_bury _ _) before
      · rw [Function.update_of_ne e]
  | swept | finished => exact absurd trivial untouched

end Steps

/-! ## The record of one key -/

/-- No cell that a probe for `key` visits before `c` holds the key. -/
def Clear (m : Memory) (key : List UInt8) (c : Nat) : Prop :=
  ∀ x ∈ (order key).takeWhile (· ≠ c), ¬ (view m x).Holds key

/-- The first cell that holds `key` has this value. -/
def Stored (m : Memory) (key value : List UInt8) : Prop :=
  ∃ c < tableSize, Clear m key c ∧ (view m c).Holds key ∧ valueAt m c = value

section Record

variable {m m' : Memory} {key : List UInt8} {c c' : Nat}

theorem takeWhile_order {front rest : List Nat} (h : order key = front ++ c :: rest) :
    (order key).takeWhile (· ≠ c) = front := by
  have nodup := nodup_order key
  rw [h, List.nodup_append] at nodup
  rw [h, List.takeWhile_append_of_pos, List.takeWhile_cons_of_neg (by simp), List.append_nil]
  intro x hx
  simpa using nodup.2.2 x hx c (by simp)

theorem clear_home (m : Memory) (key : List UInt8) : Clear m key (hash tableSize key) := by
  intro x hx
  rw [takeWhile_order (show order key = [] ++ _ from order_cons key)] at hx
  cases hx

theorem clear_of_split {front rest : List Nat} (h : order key = front ++ c :: rest)
    (misses : ∀ x ∈ front, ¬ (view m x).Holds key) : Clear m key c := by
  rw [Clear, takeWhile_order h]
  exact misses

/-- A probe that has come to `cur` and passes more cells. -/
theorem Clear.pass {cur : Nat} {before front rest back : List Nat}
    (h : Clear m key cur) (split : order key = before ++ cur :: rest)
    (further : cur :: rest = front ++ c :: back)
    (misses : ∀ x ∈ front, ¬ (view m x).Holds key) : Clear m key c := by
  rw [Clear, takeWhile_order split] at h
  rw [further, ← List.append_assoc] at split
  apply clear_of_split split
  intro x hx
  rcases List.mem_append.mp hx with hx | hx
  · exact h x hx
  · exact misses x hx

/-- A probe that has come to `cur` and misses every cell from there on. -/
theorem Clear.absent {cur : Nat} {before rest : List Nat} (h : Clear m key cur)
    (split : order key = before ++ cur :: rest)
    (misses : ∀ x ∈ cur :: rest, ¬ (view m x).Holds key) :
    ∀ x < tableSize, ¬ (view m x).Holds key := by
  rw [Clear, takeWhile_order split] at h
  intro x hx
  have visited : x ∈ before ++ cur :: rest := by
    rw [← split]
    exact mem_order.mpr hx
  rcases List.mem_append.mp visited with hx | hx
  · exact h x hx
  · exact misses x hx

theorem clear_of_absent (h : ∀ x < tableSize, ¬ (view m x).Holds key) : Clear m key c :=
  fun x hx => h x (mem_order.mp ((List.takeWhile_subset _) hx))

theorem Clear.lookup (h : Clear m key c) (hc : c < tableSize) (holds : (view m c).Holds key) :
    lookup (view m) (order key) key = some c := by
  obtain ⟨front, back, split⟩ := List.append_of_mem (mem_order.mpr hc : c ∈ order key)
  rw [Clear, takeWhile_order split] at h
  rw [split, lookup_append_left h]
  exact List.find?_cons_of_pos (decide_eq_true holds)

/-- Only one cell is the first that holds the key. -/
theorem Stored.value_of_first {value : List UInt8} (h : Stored m key value)
    (first : Clear m key c) (hc : c < tableSize) (holds : (view m c).Holds key) :
    valueAt m c = value := by
  obtain ⟨c', hc', first', holds', hvalue⟩ := h
  have same := (first.lookup hc holds).symm.trans (first'.lookup hc' holds')
  rw [Option.some.inj same, hvalue]

theorem Clear.same (h : Clear m key c) (same : SameFor key m m') : Clear m' key c :=
  fun x hx holds => h x hx ((same x).1.mp holds)

theorem Stored.same {value : List UInt8} (h : Stored m key value) (same : SameFor key m m') :
    Stored m' key value := by
  obtain ⟨c, hc, first, holds, hvalue⟩ := h
  exact ⟨c, hc, first.same same, (same c).1.mpr holds, ((same c).2 holds).trans hvalue⟩

end Record

/-! ## What the `set` and the `get` know -/

/-- What the `set` whose update is followed knows at each place. -/
def Sets (m : Memory) (key value : List UInt8) : Site → Prop
  | .filled cur _ => Clear m key cur
  | .free _ _ => ∀ x < tableSize, ¬ (view m x).Holds key
  | .body c => Clear m key c
  | .sweep _ _ _ => True
  | .done reply => reply = ⟨0, []⟩ → Stored m key value

/-- What the `get` knows at each place. -/
def Gets (m : Memory) (key value : List UInt8) : Site → Prop
  | .filled cur _ => Clear m key cur
  | .body c => c < tableSize ∧ Clear m key c ∧ (view m c).Holds key
  | .done reply => reply = ⟨0, value⟩
  | _ => True

section Follow

variable {m m' : Memory} {key : Key} {value : Value} {ttl : Int} {buffer : List UInt8}
variable {σ σ' : Site}

theorem Sets.same (h : Sets m key.bytes value.bytes σ) (same : SameFor key.bytes m m') :
    Sets m' key.bytes value.bytes σ := by
  cases σ with
  | filled | body => exact Clear.same h same
  | free => exact fun x hx holds => h x hx ((same x).1.mp holds)
  | sweep => exact trivial
  | done => exact fun acknowledged => (h acknowledged).same same

theorem Gets.same (h : Gets m key.bytes value.bytes σ) (same : SameFor key.bytes m m') :
    Gets m' key.bytes value.bytes σ := by
  cases σ with
  | filled => exact Clear.same h same
  | body c => exact ⟨h.1, h.2.1.same same, (same c).1.mpr h.2.2⟩
  | done => exact h
  | free | sweep => exact trivial

theorem Sets.next (fits : Fits (.set key value ttl) σ) (h : Sets m key.bytes value.bytes σ)
    (next : Next (.set key value ttl) σ m m' σ') : Sets m' key.bytes value.bytes σ' := by
  cases next with
  | passed hk split _ misses =>
      cases hk
      obtain ⟨_, order_eq⟩ := fits.order_eq rfl
      exact Clear.pass h order_eq split misses
  | found hk split misses _ =>
      cases hk
      obtain ⟨_, order_eq⟩ := fits.order_eq rfl
      exact Clear.pass h order_eq split misses
  | missed hk misses =>
      cases hk
      obtain ⟨_, order_eq⟩ := fits.order_eq rfl
      exact Clear.absent h order_eq misses
  | crowded => exact h
  | vacant => exact clear_of_absent h
  | full =>
      intro acknowledged
      cases acknowledged
  | @written _ _ _ _ c now =>
      intro _
      cases fits with
      | body hk inside =>
          refine ⟨c, inside, fun x hx holds => ?_, ?_, valueAt_writeRecord m c key value _⟩
          · rw [holds_writeRecord] at holds
            by_cases e : x = c
            · rw [e] at hx
              simpa using List.mem_takeWhile_imp hx
            · rw [if_neg e] at holds
              exact h x hx holds
          · rw [holds_writeRecord, if_pos rfl]

theorem Next.get_mem (next : Next (.get key buffer) σ m m' σ') : m' = m := by
  cases next with
  | passed | found | missed | copied => rfl

/-- The `get` finds the record and copies its value. -/
theorem Gets.next (terminated : Terminated m) (stored : Stored m key.bytes value.bytes)
    (fits : Fits (.get key buffer) σ) (h : Gets m key.bytes value.bytes σ)
    (next : Next (.get key buffer) σ m m' σ') : Gets m' key.bytes value.bytes σ' := by
  cases next with
  | passed hk split _ misses =>
      cases hk
      obtain ⟨_, order_eq⟩ := fits.order_eq rfl
      exact Clear.pass h order_eq split misses
  | found hk split misses holds =>
      cases hk
      obtain ⟨_, order_eq⟩ := fits.order_eq rfl
      exact ⟨mem_of_order_eq order_eq (by rw [split]; simp),
        Clear.pass h order_eq split misses, holds⟩
  | missed hk misses =>
      cases hk
      obtain ⟨_, order_eq⟩ := fits.order_eq rfl
      obtain ⟨c, hc, _, holds, _⟩ := stored
      exact absurd holds (Clear.absent h order_eq misses c hc)
  | @copied _ _ _ c =>
      obtain ⟨inside, first, holds⟩ := h
      have copy : PosixHashTable.stored m c = value.bytes :=
        (cstr_value terminated inside).trans (stored.value_of_first first inside holds)
      rw [Gets, copy]

end Follow

/-! ## Runs -/

theorem kept_entry (m : Memory) (call : Call) : Kept m call (entry call) := by
  refine ⟨fits_entry call, fun key c uses hσ => ?_⟩
  simp only [entry, uses.key] at hσ
  cases hσ

theorem holds_of_keeps {m₀ : Memory} {acts : List (Action Call)} {s : System} (zeroed : Zeroed m₀)
    (ran : Run (step code) Keeps (Config.idle m₀) acts s) :
    ∃ L, s = places.config L ∧
      Outline.Holds (fun _ m => Terminated m) (fun _ m _ call σ => Kept m call σ) acts L := by
  refine places.holds_of_run (L := ⟨m₀, fun _ => none⟩) id id ?_ ?_ ?_ ran
  · exact fun _ _ _ => kept_entry _ _
  · intro acts L p clk call σ m' σ' holds keeps hp next
    have self := holds.paused p call σ hp
    refine ⟨Terminated.next holds.shared next, self.next next, fun q call₁ σ₁ _ hq => ?_⟩
    exact (holds.paused q call₁ σ₁ hq).other next (keepsAt_of_keeps hp keeps)
  · exact ⟨zeroed.sound.terminated, by simp⟩

/-- The calls keep their cells, and the process `except` knows `R` in its call `own`. -/
def Follows (except : Option Nat) (own : Call) (R : Memory → Site → Prop)
    (_ : List (Action Call)) (m : Memory) (p : Nat) (call : Call) (σ : Site) : Prop :=
  Kept m call σ ∧ (some p = except → call = own ∧ R m σ)

/-- In a run that is quiet for a key, what is known about the key stays known
and the process in `except` gets on with its call. -/
theorem holds_of_peaceful {key : List UInt8} {except : Option Nat} (own : Call)
    {G : Memory → Prop} {R : Memory → Site → Prop}
    (sharedSame : ∀ {m m'}, SameFor key m m' → G m → G m')
    (ownSame : ∀ {m m' σ}, SameFor key m m' → R m σ → R m' σ)
    (ownNext : ∀ {m m' σ σ'}, Terminated m → G m → Fits own σ → R m σ →
      Next own σ m m' σ' → G m' ∧ R m' σ')
    {L : Located Call Site} {acts : List (Action Call)} {s : System}
    (init : Outline.Holds (fun _ m => Terminated m ∧ G m) (Follows except own R) [] L)
    (ran : Run (step code) (Peaceful Keeps key except) (places.config L) acts s) :
    ∃ L', s = places.config L' ∧
      Outline.Holds (fun _ m => Terminated m ∧ G m) (Follows except own R) acts L' := by
  refine places.holds_of_run id id ?_ ?_ init ran
  · intro acts L p call _ met _
    exact ⟨kept_entry _ _, fun e => absurd e met.1⟩
  · intro acts L p clk call σ m' σ' holds met hp next
    obtain ⟨kept, follows⟩ := holds.paused p call σ hp
    have keeps := keepsAt_of_keeps hp met.2
    have terminated := Terminated.next holds.shared.1 next
    by_cases e : some p = except
    · obtain ⟨rfl, known⟩ := follows e
      obtain ⟨shared, self⟩ := ownNext holds.shared.1 holds.shared.2 kept.1 known next
      refine ⟨⟨terminated, shared⟩, ⟨kept.next next, fun _ => ⟨rfl, self⟩⟩, ?_⟩
      intro q call₁ σ₁ hne hq
      refine ⟨(holds.paused q call₁ σ₁ hq).1.other next keeps, fun e' => ?_⟩
      exact absurd (Option.some.inj (e'.trans e.symm)) hne
    · have untouched := met.1.resolve_left e call (places.config_call hp)
      have same := sameFor_of_next kept next keeps untouched
      refine ⟨⟨terminated, sharedSame same holds.shared.2⟩, ⟨kept.next next, fun e' => ?_⟩, ?_⟩
      · exact absurd e' e
      · intro q call₁ σ₁ _ hq
        obtain ⟨kept₁, follows₁⟩ := holds.paused q call₁ σ₁ hq
        exact ⟨kept₁.other next keeps, fun e' => (follows₁ e').imp_right (ownSame same)⟩

/-- Where a `get` is asked, its key is stored with the acknowledged value. -/
theorem holds_of_asked {m₀ : Memory} {a b : Nat} {key : Key} {value : Value} {ttl : Int}
    {buffer : List UInt8} {s : System} (zeroed : Zeroed m₀)
    (asked : Asked Keeps m₀ a b key value ttl buffer s) :
    ∃ L, s = places.config L ∧ L.sites b = some (.get key buffer, entry (.get key buffer)) ∧
      Outline.Holds (fun _ m => Terminated m ∧ Stored m key.bytes value.bytes)
        (Follows (some b) (.get key buffer) fun m σ => Gets m key.bytes value.bytes σ) [] L := by
  obtain ⟨acts₀, s₀, s₁, acts₁, s₂, s₃, acts₂, s₄, before, began, during, reached, returned,
    meanwhile, started⟩ := asked
  obtain ⟨L₀, rfl, holds₀⟩ := holds_of_keeps zeroed before
  obtain ⟨idle₀, rfl⟩ := places.of_start began
  -- the `set` up to its acknowledgement
  obtain ⟨L₂, rfl, holds₂⟩ := holds_of_peaceful (.set key value ttl) (G := fun _ => True)
    (R := fun m σ => Sets m key.bytes value.bytes σ) (fun _ => id)
    (fun same known => known.same same)
    (fun _ _ fits known next => ⟨trivial, known.next fits next⟩)
    (Outline.Holds.update ⟨holds₀.shared, trivial⟩
      (by
        rintro call σ ⟨⟩
        exact ⟨kept_entry _ _, fun _ => ⟨rfl, clear_home _ _⟩⟩)
      fun q call σ hne hq => ⟨holds₀.paused q call σ hq, fun e => absurd (Option.some.inj e) hne⟩)
    during
  have stored : Stored L₂.mem key.bytes value.bytes := by
    obtain ⟨call, σ, hp, hr⟩ := places.sites_of_result reached
    obtain ⟨kept, follows⟩ := holds₂.paused a call σ hp
    obtain ⟨rfl, known⟩ := follows rfl
    cases kept.1.result.mp hr
    exact known rfl
  -- between the two calls
  obtain rfl := places.of_finish returned
  obtain ⟨L₄, rfl, holds₄⟩ := holds_of_peaceful (.get key buffer)
    (G := fun m => Stored m key.bytes value.bytes) (R := fun _ _ => False)
    (fun same stored => stored.same same) (fun _ => id) (fun _ _ _ known _ => known.elim)
    (Outline.Holds.update (p := a) (x := none) ⟨holds₂.shared.1, stored⟩
      (by
        intro call σ none
        cases none)
      fun q call σ hne hq => ⟨(holds₂.paused q call σ hq).1, by simp⟩)
    meanwhile
  obtain ⟨idle₄, rfl⟩ := places.of_start started
  refine ⟨_, rfl, Function.update_self _ _ _, Outline.Holds.update holds₄.shared ?_ ?_⟩
  · rintro call σ ⟨⟩
    exact ⟨kept_entry _ _, fun _ => ⟨rfl, clear_home _ _⟩⟩
  · intro q call σ hne hq
    exact ⟨(holds₄.paused q call σ hq).1, fun e => absurd (Option.some.inj e) hne⟩

/-! ## Calls end -/

/-- A bound on the critical sections that a call has still to run. -/
def rank : Site → Nat
  | .filled _ rest => rest.length + tableSize + 2
  | .free _ rest => rest.length + 2
  | .body _ => 1
  | .sweep _ rest _ => rest.length + 1
  | .done _ => 0

theorem orderTail_length (key : List UInt8) : (orderTail key).length + 1 = tableSize := by
  have lengths := congrArg List.length (order_cons key)
  rw [order, probeOrder_length (Nat.le_of_lt (hash_lt tableSize_pos key)),
    List.length_cons] at lengths
  exact lengths.symm

theorem rank_entry (key : Key) (call : Call) (hk : call.key = some key) :
    rank (entry call) = 2 * tableSize + 1 := by
  have length := orderTail_length key.bytes
  simp only [entry, hk, rank]
  omega

theorem rank_next {call : Call} {σ σ' : Site} {m m' : Memory} (next : Next call σ m m' σ') :
    rank σ' < rank σ := by
  have shorter : ∀ {cur rest front : List Nat} {x y : Nat}, x :: cur = front ++ y :: rest →
      front ≠ [] → rest.length < cur.length := by
    intro cur rest front x y split nonempty
    have lengths := congrArg List.length split
    have := List.length_pos_iff.mpr nonempty
    simp only [List.length_cons, List.length_append] at lengths
    omega
  cases next with
  | passed hk split nonempty _ =>
      have := shorter split nonempty
      simp only [rank]
      omega
  | crowded split nonempty _ =>
      have := shorter split nonempty
      simp only [rank]
      omega
  | swept split nonempty _ =>
      have := shorter split nonempty
      simp only [rank]
      omega
  | missed hk _ =>
      cases call with
      | set key value ttl =>
          have := orderTail_length key.bytes
          simp only [missing, rank]
          omega
      | get | del | collectGarbage =>
          simp only [missing, rank]
          omega
  | found | vacant | full | copied | written | buried | finished =>
      simp only [rank]
      omega

/-- A `get` asked after an acknowledged `set` answers with the value of that
`set`, and it answers after `2 * tableSize + 1` critical sections at most. -/
theorem acknowledged_update_stays {m₀ : Memory} {a b : Nat} {key : Key} {value : Value} {ttl : Int}
    {buffer : List UInt8} {s s' : System} {acts : List (Action Call)} (zeroed : Zeroed m₀)
    (asked : Asked Keeps m₀ a b key value ttl buffer s)
    (ran : Run (step code) (Peaceful Keeps key.bytes (some b)) s acts s') :
    (∀ reply, s'.result b = some reply → reply = ⟨0, value.bytes⟩) ∧
      (2 * tableSize + 1 ≤ sections b acts → s'.result b = some ⟨0, value.bytes⟩) := by
  obtain ⟨L, rfl, hb, holds⟩ := holds_of_asked zeroed asked
  have answer : ∀ reply, s'.result b = some reply → reply = ⟨0, value.bytes⟩ := by
    obtain ⟨L', rfl, holds'⟩ := holds_of_peaceful _ (fun same stored => stored.same same)
      (fun same known => known.same same)
      (fun terminated stored fits known next =>
        ⟨next.get_mem.symm ▸ stored, known.next terminated stored fits next⟩) holds ran
    intro reply hr
    obtain ⟨call, σ, hp, hr⟩ := places.sites_of_result hr
    obtain ⟨kept, follows⟩ := holds'.paused b call σ hp
    obtain ⟨rfl, known⟩ := follows rfl
    cases kept.1.result.mp hr
    exact known
  refine ⟨answer, fun enough => ?_⟩
  obtain ⟨L', σ', rfl, hb', bound⟩ := places.rank_of_run rank rank_next
    (fun s met => met.1 rfl) hb ran
  rw [rank_entry key (.get key buffer) rfl] at bound
  have reached : ∃ reply, σ' = .done reply := by
    cases σ' with
    | done reply => exact ⟨reply, rfl⟩
    | filled | free | body | sweep =>
        simp only [rank] at bound
        omega
  obtain ⟨reply, rfl⟩ := reached
  have hr : (places.config L').result b = some reply := places.config_result hb'
  rw [hr, answer reply hr]

/-! ## A run that keeps the update and one that loses it -/

/-- A `set` that is acknowledged, and then a `get` that finds a cell. -/
theorem asked_after_set (k : Key) (v : Value) :
    ∃ s acts s', Asked Keeps (fun _ => 0) 0 1 k v 10 [] s ∧
      Run (step code) (Peaceful Keeps k.bytes (some 1)) s acts s' ∧ (s'.result 1).isSome := by
  let c := hash tableSize k.bytes
  let m₁ := writeRecord (fun _ => 0) c k.bytes v.bytes (10 + 1)
  let s₀ : System := Config.idle fun _ => 0
  let s₁ := s₀.put 0 m₁ (.set k v 10) (pure ⟨0, []⟩)
  let s₂ : System := ⟨m₁, Function.update s₁.procs 0 none⟩
  have onlySet : ∀ q, Peaceful Keeps k.bytes (some 0) (s₀.put 0 (fun _ => 0) (.set k v 10) q)
      (.region 0 fun _ => 1) :=
    fun q => ⟨Or.inl rfl, fun key value ttl c _ _ => Or.inl markOf_free⟩
  have onlyGet : ∀ q, Peaceful Keeps k.bytes (some 1) (s₂.put 1 m₁ (.get k []) q)
      (.region 1 fun _ => 1) := by
    refine fun q => ⟨Or.inl rfl, fun key value ttl c hcall => ?_⟩
    rw [Config.put_call_self] at hcall
    cases hcall
  obtain ⟨n₀, acknowledged⟩ : ∃ n, Run (step code) (Peaceful Keeps k.bytes (some 0))
      (s₀.put 0 (fun _ => 0) (.set k v 10) _) (List.replicate n (.region 0 fun _ => 1)) s₁ :=
    run_set onlySet (zeroed_zero.place _)
  obtain ⟨n₁, found⟩ : ∃ n, Run (step code) (Peaceful Keeps k.bytes (some 1))
      (s₂.put 1 m₁ (.get k []) _) (List.replicate n (.region 1 fun _ => 1))
      (s₂.put 1 m₁ (.get k []) (actOn (.get k []) c)) :=
    run_to_record rfl onlyGet (lookup_home _ k v _)
  have read : Run (step code) (Peaceful Keeps k.bytes (some 1))
      (s₂.put 1 m₁ (.get k []) (actOn (.get k []) c)) [.region 1 fun _ => 1]
      (s₂.put 1 m₁ (.get k []) (pure ⟨0, stored m₁ c⟩)) :=
    .single (onlyGet _) (step_put_region (enter_getCell _ _ _ _))
  refine ⟨_, _, _, ⟨[], s₀, _, _, s₁, s₂, [], s₂, .nil, step_start rfl, acknowledged, rfl,
    step_finish rfl rfl, .nil, step_start rfl⟩, found.trans read, ?_⟩
  rw [Config.put_result_self]
  rfl

/-- The theorem about acknowledged updates at this run. -/
theorem acknowledged_update_read :
    ∃ s acts s', Asked Keeps (fun _ => 0) 0 1 keyD value1 10 [] s ∧
      Run (step code) (Peaceful Keeps keyD.bytes (some 1)) s acts s' ∧
      s'.result 1 = some ⟨0, [49]⟩ := by
  obtain ⟨s, acts, s', asked, ran, answered⟩ := asked_after_set keyD value1
  obtain ⟨reply, hr⟩ := Option.isSome_iff_exists.mp answered
  refine ⟨s, acts, s', asked, ran, ?_⟩
  rw [hr, (acknowledged_update_stays zeroed_zero asked ran).1 reply hr]
  rfl

/-- Two keys with one hash: a `set` of `k'` has chosen the cell where the `set`
of `k` is then acknowledged, and writes its record over it. -/
theorem update_overwritten (k k' : Key) (v v' : Value) (differ : k'.bytes ≠ k.bytes)
    (collide : hash tableSize k'.bytes = hash tableSize k.bytes) {m₀ : Memory}
    (zeroed : Zeroed m₀) :
    ∃ s acts s', Asked Always m₀ 1 2 k v 10 [] s ∧
      Run (step code) (Peaceful Always k.bytes (some 2)) s acts s' ∧
      s'.result 2 = some ⟨-1, []⟩ := by
  let c := hash tableSize k.bytes
  let m₁ := writeRecord m₀ c k.bytes v.bytes (10 + 1)
  let m₂ := writeRecord m₁ c k'.bytes v'.bytes (10 + 1)
  let s₀ : System := Config.idle m₀
  let s₁ := s₀.put 0 m₀ (.set k' v' 10) (actOn (.set k' v' 10) c)
  let s₂ := s₁.put 1 m₁ (.set k v 10) (pure ⟨0, []⟩)
  let s₃ : System := ⟨m₁, Function.update s₂.procs 1 none⟩
  let s₄ := s₃.put 0 m₂ (.set k' v' 10) (pure ⟨0, []⟩)
  have absent : lookup (view m₂) (order k.bytes) k.bytes = none := by
    rw [lookup_eq_none]
    intro x hx holds
    rw [holds_writeRecord] at holds
    by_cases e : x = c
    · rw [if_pos e] at holds
      exact differ holds
    · rw [if_neg e, holds_writeRecord, if_neg e] at holds
      have filled := holds.1
      rw [view_mark, zeroed.markAt (mem_order.mp hx)] at filled
      cases filled
  obtain ⟨n₀, chosen⟩ : ∃ n, Run (step code) Always (s₀.put 0 m₀ (.set k' v' 10) _)
      (List.replicate n (.region 0 fun _ => 1)) s₁ :=
    run_to_place (fun _ => trivial) ((zeroed.place _).trans (congrArg some collide))
  obtain ⟨n₁, acknowledged⟩ : ∃ n, Run (step code) (Peaceful Always k.bytes (some 1))
      (s₁.put 1 m₀ (.set k v 10) _) (List.replicate n (.region 1 fun _ => 1)) s₂ :=
    run_set (fun _ => ⟨Or.inl rfl, trivial⟩) (zeroed.place _)
  have written : Run (step code) (Peaceful Always k.bytes none) s₃ [.region 0 fun _ => 1] s₄ := by
    refine .single ⟨Or.inr fun call hcall => ?_, trivial⟩
      (step_region rfl (enter_setCell _ _ _ _ _ _ _))
    cases Option.some.inj hcall
    exact differ
  obtain ⟨n₂, missed⟩ : ∃ n, Run (step code) (Peaceful Always k.bytes (some 2))
      (s₄.put 2 m₂ (.get k []) _) (List.replicate n (.region 2 fun _ => 1))
      (s₄.put 2 m₂ (.get k []) (textAt (.get k []) (missing (.get k [])))) :=
    run_to_missing rfl (fun _ => ⟨Or.inl rfl, trivial⟩) absent
  have started : Run (step code) Always s₀ [.start 0 (.set k' v' 10)]
      (s₀.put 0 m₀ (.set k' v' 10) (code (.set k' v' 10))) := .single trivial (step_start rfl)
  refine ⟨_, _, _, ⟨_, s₁, _, _, s₂, s₃, _, s₄, started.trans chosen, step_start rfl,
    acknowledged, rfl, step_finish rfl rfl, written, step_start rfl⟩, missed, ?_⟩
  rw [Config.put_result_self]
  rfl

/-- An acknowledged update of `"d"` can be lost to an update of `"o"`. -/
theorem acknowledged_update_lost :
    ¬ ∀ m₀ a b key value ttl buffer s acts s', Zeroed m₀ →
      Asked Always m₀ a b key value ttl buffer s →
      Run (step code) (Peaceful Always key.bytes (some b)) s acts s' →
      (∀ reply, s'.result b = some reply → reply = ⟨0, value.bytes⟩) ∧
        (2 * tableSize + 1 ≤ sections b acts → s'.result b = some ⟨0, value.bytes⟩) := by
  intro always
  obtain ⟨s, acts, s', asked, ran, hr⟩ := update_overwritten keyD keyO value1 value2 (by decide)
    (hash_keyO.trans hash_keyD.symm) zeroed_zero
  have same := (always _ _ _ _ _ _ _ _ _ _ zeroed_zero asked ran).1 _ hr
  exact absurd (congrArg Reply.code same) (by decide)

end PosixHashTable
