import Technosphere.Emrakul.PosixHashTable.Atomicity
import Technosphere.Emrakul.PosixHashTable.Isolation

/-!
# Where the values of v2.0 come from

A `get` may answer with the value of another key, but no schedule makes it
answer with a value that nobody has set: values are never torn, and neither are
records. In a segment that no process is in, the key and the value of every
record are those of one call of `set`.
-/

namespace PosixHashTable

open SharedMemory Prog OpenAddressing Emrakul Transition

/-! ## By critical sections -/

/-- A call that was started; a `get` has a value in front of it, or has answered
with one, that was set under some key. -/
structure Sourced (acts : List (Action Call)) (m : Memory) (p : Nat) (call : Call) (σ : Site) :
    Prop where
  started : Action.start p call ∈ acts
  fits : Fits call σ
  ahead : ∀ key buffer c, call = .get key buffer → σ = .body c →
    ∃ k, Passed acts k (valueAt m c)
  answered : ∀ key buffer value, call = .get key buffer → σ = .done ⟨0, value⟩ →
    ∃ k, Passed acts k value

theorem Sourced.append {acts : List (Action Call)} {a : Action Call} {m : Memory} {p : Nat}
    {call : Call} {σ : Site} (h : Sourced acts m p call σ) :
    Sourced (acts ++ [a]) m p call σ where
  started := List.mem_append_left _ h.started
  fits := h.fits
  ahead key buffer c hcall hσ := (h.ahead key buffer c hcall hσ).imp fun _ passed => passed.append _
  answered key buffer value hcall hσ :=
    (h.answered key buffer value hcall hσ).imp fun _ passed => passed.append _

section Steps

variable {acts : List (Action Call)} {m m' : Memory} {p : Nat} {call : Call} {σ σ' : Site}

/-- Only a `set` that was started writes a record. -/
theorem SharedAssertion.step (shared : SharedAssertion acts m)
    (started : Action.start p call ∈ acts) (next : Next call σ m m' σ') :
    SharedAssertion acts m' := by
  rcases next.fades_or_writes with fades | ⟨key, value, ttl, c, now, rfl, rfl, rfl, rfl⟩
  · exact shared.fades fades
  · refine ⟨shared.1.writeRecord, fun c' inside filled => ?_⟩
    by_cases same : c' = c
    · rw [same, keyAt_writeRecord, valueAt_writeRecord]
      exact ⟨p, key, value, ttl, started, rfl, rfl⟩
    · have holds := holds_writeRecord.mp ⟨filled, rfl⟩
      rw [if_neg same] at holds
      rw [keyAt_writeRecord_of_ne same, valueAt_writeRecord_of_ne same]
      exact shared.2 c' inside holds.1

theorem Sourced.next (shared : SharedAssertion acts m) (h : Sourced acts m p call σ)
    (next : Next call σ m m' σ') : Sourced acts m' p call σ' := by
  refine ⟨h.started, h.fits.next next, ?_, ?_⟩
  · rintro key buffer c rfl rfl
    cases next with
    | found hk split _ holds =>
        obtain ⟨_, order_eq⟩ := h.fits.order_eq hk
        have inside : c < tableSize := mem_of_order_eq order_eq (by rw [split]; simp)
        exact ⟨_, shared.2 c inside holds.1⟩
  · rintro key buffer value rfl rfl
    cases next with
    | copied =>
        cases h.fits with
        | body _ inside =>
            have copy : PosixHashTable.stored m _ = valueAt m _ := cstr_value shared.1 inside
            rw [copy]
            exact h.ahead key buffer _ rfl rfl

/-- What is overwritten in front of a `get` is overwritten by a value that is set. -/
theorem Sourced.other {q : Nat} {call₁ : Call} {σ₁ : Site} (started : Action.start p call ∈ acts)
    (h : Sourced acts m q call₁ σ₁) (next : Next call σ m m' σ') :
    Sourced acts m' q call₁ σ₁ := by
  refine ⟨h.started, h.fits, fun key buffer c hcall hσ => ?_, h.answered⟩
  rcases next.fades_or_writes with fades | ⟨k, value, ttl, c', now, rfl, rfl, rfl, rfl⟩
  · rw [fades.valueAt]
    exact h.ahead key buffer c hcall hσ
  · by_cases same : c = c'
    · rw [same, valueAt_writeRecord]
      exact ⟨_, p, k, value, ttl, started, rfl, rfl⟩
    · rw [valueAt_writeRecord_of_ne same]
      exact h.ahead key buffer c hcall hσ

end Steps

/-- By critical sections, in any order. -/
theorem sourced_of_run {m₀ : Memory} (zeroed : Zeroed m₀) {acts : List (Action Call)} {u : System}
    (ran : Run (SharedMemory.step code) Always (Config.idle m₀) acts u) :
    ∃ L, u = places.config L ∧ Outline.Holds SharedAssertion Sourced acts L := by
  refine places.holds_of_run (L := ⟨m₀, fun _ => none⟩) ?_ Sourced.append ?_ ?_ ?_ ran
  · intro acts a m shared
    exact ⟨shared.1, fun c inside filled => (shared.2 c inside filled).append _⟩
  · intro acts L p call holds _ _
    refine ⟨by simp, fits_entry call, ?_, ?_⟩
    · rintro key buffer c rfl hσ
      cases hσ
    · rintro key buffer value rfl hσ
      cases hσ
  · intro acts L p clk call σ m' σ' holds _ hp next
    have self := holds.paused p call σ hp
    exact ⟨holds.shared.step self.started next, self.next holds.shared next,
      fun q call₁ σ₁ _ hq => (holds.paused q call₁ σ₁ hq).other self.started next⟩
  · refine ⟨⟨zeroed.sound.terminated, fun c inside filled => ?_⟩, by simp⟩
    rw [zeroed.markAt inside] at filled
    cases filled

/-! ## By instructions -/

/-- Some call of `set` that was started passed `value` under `key`. -/
def WasSet (acts : List (Machine.Act Call)) (key value : List UInt8) : Prop :=
  ∃ p k v ttl, Machine.Act.start p (.set k v ttl) ∈ acts ∧ k.bytes = key ∧ v.bytes = value

theorem Passed.wasSet {acts : List (Machine.Act Call)} {acts' : List (Action Call)}
    {key value : List UInt8} (h : Passed acts' key value)
    (same : acts'.filterMap Action.boundary = acts.filterMap Machine.Act.boundary) :
    WasSet acts key value := by
  obtain ⟨p, k, v, ttl, started, hk, hv⟩ := h
  have coarse : Action.start p (.set k v ttl) ∈ acts'.filterMap Action.boundary :=
    List.mem_filterMap.mpr ⟨_, started, rfl⟩
  rw [same] at coarse
  obtain ⟨a, inside, boundary⟩ := List.mem_filterMap.mp coarse
  cases a with
  | start q c =>
      cases boundary
      exact ⟨p, k, v, ttl, inside, hk, hv⟩
  | run | finish | tick => cases boundary

/-- Whatever the schedule of the workers and the cleaner, instruction by
instruction, a `get` that succeeds answers with a whole value that was set, and
in a segment that nobody is in, every record is one that was set. -/
theorem values_were_set {mem : Memory} (zeroed : Zeroed mem) {clock : Nat}
    {acts : List (Machine.Act Call)} {s : Workers}
    (ran : Run Workers.step Always (.initial mem clock) acts s) :
    (∀ p key buffer value, s.procs p = some (.get key buffer, .ret ⟨0, value⟩) →
      ∃ k, WasSet acts k value) ∧
    ∀ c < tableSize, (∀ p, c / hashtableSegmentSize ∉ Machine.heldBy s.holds p) →
      markAt s.mem c = .filled → WasSet acts (keyAt s.mem c) (valueAt s.mem c) := by
  have ends : segments.RecordsEnd mem := by
    intro c inside filled
    rw [zeroed.markAt inside] at filled
    cases filled
  obtain ⟨acts', u, ran', same, views⟩ := coarse_of_run ends ran
  obtain ⟨L, rfl, holds⟩ := sourced_of_run zeroed ran'
  constructor
  · intro p key buffer value returned
    have there := views.returned (disciplined_of_run ends ran) returned
    obtain ⟨σ, hp, text⟩ := places.sites_of_procs there
    have self := holds.paused p _ σ hp
    have result : (textAt (.get key buffer) σ).result = some ⟨0, value⟩ :=
      congrArg Prog.result text.symm
    obtain ⟨k, passed⟩ := self.answered key buffer value rfl (self.fits.result.mp result)
    exact ⟨k, passed.wasSet same⟩
  · intro c inside free filled
    have cell : SameCell s.mem L.mem c := by
      intro a low high
      have guarded : segments.guard a = c / hashtableSegmentSize :=
        segments.guard_of_cell low high
      refine views.settled a fun p i held index => absurd held ?_
      obtain rfl : i = c / hashtableSegmentSize := index.trans guarded
      exact free p
    rw [← cell.markAt] at filled
    have passed := holds.shared.2 c inside filled
    have value : valueAt L.mem c = valueAt s.mem c :=
      congrArg (fun slot => slot.val.1) (view_congr cell)
    rw [cell.keyAt, value] at passed
    exact passed.wasSet same

/-! ## A `get` of another key's value -/

section Starts

variable {mem : Memory} {clock : Nat} {before : List (Machine.Act Call)} {s : Workers} {p : Nat}

/-- An idle process starts a call and executes the part of it that chooses the
cell, while nobody holds anything. -/
theorem starts_until (ends : segments.RecordsEnd mem)
    (reached : Run Workers.step Always (.initial mem clock) before s) (none : s.holds = [])
    (idle : s.procs p = .none) {call : Call} {q : Text Int} {f : Int → Text Reply}
    (text : code call = q >>= f) {c : Nat} (chooses : exec s.clock q s.mem = ((c : Int), s.mem))
    (acts : f c = actOn call c) (locks : (actOn call c).acquires.isSome) :
    ∃ acts t, Run Workers.step Always s (.start p call :: acts) t ∧
      Protocol.Advanced p call (actOn call c) s.mem s t ∧ t.holds = [] := by
  have started : Workers.step s (.start p call) = some (s.goOn p call (code call)) := by
    simp only [Workers.step, Machine.step, idle]
  have begun := reached.snoc trivial started
  have running : (s.goOn p call (code call)).procs p = some (call, q >>= f) := by
    rw [Machine.goOn_procs_self, text]
  obtain ⟨n, t, ran, advanced, free⟩ := runs_until ends begun none running (by
    intro g correct
    change wholeProtocol.wp _ (f (exec s.clock q s.mem).1) g _ at correct
    rw [chooses, acts] at correct
    cases text : actOn call c with
    | lock i pt next =>
        rw [text] at correct
        exact correct.1
    | _ =>
        rw [text] at locks
        cases locks)
  have procs := advanced.procs
  have bytes := advanced.mem
  change t.procs p = some (call, f (exec s.clock q s.mem).1) at procs
  change t.mem = (exec s.clock q s.mem).2 at bytes
  rw [chooses] at procs bytes
  refine ⟨_, t, .cons trivial started ran, ⟨acts ▸ procs, bytes, advanced.clock, ?_⟩, free⟩
  intro r other
  exact (advanced.others r other).trans (Function.update_of_ne other _ _)

theorem set_starts (ends : segments.RecordsEnd mem)
    (reached : Run Workers.step Always (.initial mem clock) before s) (none : s.holds = [])
    (idle : s.procs p = .none) (key : Key) (value : Value) (ttl : Int) {c : Nat}
    (free : place (view s.mem) (order key.bytes) key.bytes = some c) :
    ∃ acts t, Run Workers.step Always s (.start p (.set key value ttl) :: acts) t ∧
      Protocol.Advanced p (.set key value ttl) (actOn (.set key value ttl) c) s.mem s t ∧
      t.holds = [] := by
  have text : code (.set key value ttl) = chooseCell key.bytes >>= afterFree key value ttl := by
    rw [code, PosixHashTable.set, bind_assoc]
    exact bind_congr fun cellIdx => set_rest key value ttl cellIdx
  refine starts_until ends reached none idle text ?_ (if_pos (Int.natCast_nonneg c)) rfl
  rw [exec_chooseCell, free, Scan.index_some]

theorem get_starts (ends : segments.RecordsEnd mem)
    (reached : Run Workers.step Always (.initial mem clock) before s) (none : s.holds = [])
    (idle : s.procs p = .none) (key : Key) (buffer : List UInt8) {c : Nat}
    (found : lookup (view s.mem) (order key.bytes) key.bytes = some c) :
    ∃ acts t, Run Workers.step Always s (.start p (.get key buffer) :: acts) t ∧
      Protocol.Advanced p (.get key buffer) (actOn (.get key buffer) c) s.mem s t ∧
      t.holds = [] := by
  have text : code (.get key buffer) = findFilled key.bytes >>= afterFilled (.get key buffer) := by
    rw [code, PosixHashTable.get, bind_assoc]
    refine bind_congr fun cellIdx => ?_
    rw [afterFilled]
    split <;> rfl
  have acts : afterFilled (.get key buffer) c = actOn (.get key buffer) c := afterFilled_found rfl c
  refine starts_until ends reached none idle text ?_ acts rfl
  rw [exec_findFilled, found, Scan.index_some]

/-- From its cell on a call is one critical section. -/
theorem act_returns (ends : segments.RecordsEnd mem)
    (reached : Run Workers.step Always (.initial mem clock) before s) (none : s.holds = [])
    {call : Call} {c : Nat} (there : s.procs p = some (call, actOn call c)) :
    ∃ acts t, Run Workers.step Always s acts t ∧
      Protocol.Advanced p call (.ret (exec s.clock (actOn call c) s.mem).1)
        (exec s.clock (actOn call c) s.mem).2 s t ∧ t.holds = [] := by
  have running : s.procs p = some (call, actOn call c >>= pure) := by
    rw [bind_pure]
    exact there
  obtain ⟨n, t, ran, advanced, free⟩ := runs_until ends reached none running
    fun g ended => Returns.free (.call call) _ g ended
  exact ⟨_, t, ran, advanced, free⟩

variable {now : Int} {m : Memory} {c : Nat}

theorem exec_actOn_set (key : Key) (value : Value) (ttl : Int) :
    exec now (actOn (.set key value ttl) c) m =
      (⟨0, []⟩, writeRecord m c key.bytes value.bytes (ttl + now)) := by
  rw [actOn, exec_bind_of now (exec_setCell key value ttl c), exec_pure]

theorem exec_actOn_get (sound : Sound m) (inside : c < tableSize) (key : Key)
    (buffer : List UInt8) :
    exec now (actOn (.get key buffer) c) m = (⟨0, valueAt m c⟩, m) := by
  rw [actOn, exec_bind_of now (exec_getCell sound inside), exec_pure]

end Starts

/-- The first process has chosen the cell for `"o"` in which the second one has
set `"d"`, and the third one has found it. -/
theorem both_at_home : ∃ acts s, Run Workers.step Always (.initial (fun _ => 0) 0) acts s ∧
    s.holds = [] ∧ Sound s.mem ∧
    s.procs 0 = some (.set keyO value2 10, actOn (.set keyO value2 10) home) ∧
    s.procs 2 = some (.get keyD [], actOn (.get keyD []) home) := by
  have ends : segments.RecordsEnd fun _ => 0 := recordsEnd_zero
  let start : Workers := .initial (fun _ => 0) 0
  have free (key : Key) (same : hash tableSize key.bytes = home) :
      place (view start.mem) (order key.bytes) key.bytes = some home :=
    (zeroed_zero.place _).trans (congrArg some same)
  obtain ⟨_, s₁, ran₁, chosen, none₁⟩ :=
    set_starts (s := start) (p := 0) ends .nil rfl rfl keyO value2 10 (free keyO hash_keyO)
  obtain ⟨_, s₂, ran₂, placed, none₂⟩ := set_starts (p := 1) ends ran₁ none₁
    (chosen.others 1 (by decide)) keyD value1 10 (chosen.mem.symm ▸ free keyD hash_keyD)
  have reached₂ := ran₁.trans ran₂
  obtain ⟨_, s₃, ran₃, written, none₃⟩ := act_returns ends reached₂ none₂ placed.procs
  have reached₃ := reached₂.trans ran₃
  have bytes : s₃.mem =
      writeRecord (fun _ => 0) home keyD.bytes value1.bytes (10 + s₂.clock) := by
    rw [written.mem, exec_actOn_set, placed.mem, chosen.mem]
    rfl
  have idle : s₃.procs 2 = none := by
    rw [written.others 2 (by decide), placed.others 2 (by decide), chosen.others 2 (by decide)]
    rfl
  have stored : lookup (view s₃.mem) (order keyD.bytes) keyD.bytes = some home := by
    rw [bytes, ← hash_keyD]
    exact lookup_home _ keyD value1 _
  obtain ⟨_, s₄, ran₄, found, none₄⟩ := get_starts ends reached₃ none₃ idle keyD [] stored
  refine ⟨_, s₄, reached₃.trans ran₄, none₄, ?_, ?_, found.procs⟩
  · rw [found.mem, bytes]
    exact zeroed_zero.sound.writeRecord home keyD value1 _
  · rw [found.others 0 (by decide), written.others 0 (by decide), placed.others 0 (by decide),
      chosen.procs]

/-- Then the first one writes, and the third one answers the `get` of `"d"` with
the value of `"o"`. -/
theorem values_were_set_replaced : ∃ acts s,
    Run Workers.step Always (.initial (fun _ => 0) 0) acts s ∧
      s.procs 2 = some (.get keyD [], .ret ⟨0, value2.bytes⟩) ∧
      (∃ k, WasSet acts k value2.bytes) ∧
      markAt s.mem home = .filled ∧ WasSet acts (keyAt s.mem home) (valueAt s.mem home) := by
  obtain ⟨_, s, reached, none, sound, writer, reader⟩ := both_at_home
  obtain ⟨_, t, ran, replaced, none'⟩ := act_returns recordsEnd_zero reached none writer
  have bytes : t.mem = writeRecord s.mem home keyO.bytes value2.bytes (10 + s.clock) := by
    rw [replaced.mem, exec_actOn_set]
  have reader' := (replaced.others 2 (by decide)).trans reader
  obtain ⟨_, u, ran', answered, none''⟩ :=
    act_returns recordsEnd_zero (reached.trans ran) none' reader'
  have sound' : Sound t.mem := bytes ▸ sound.writeRecord home keyO value2 _
  have answer : exec t.clock (actOn (.get keyD []) home) t.mem = (⟨0, valueAt t.mem home⟩, t.mem) :=
    exec_actOn_get sound' (by decide) keyD []
  have returned : u.procs 2 = some (.get keyD [], .ret ⟨0, value2.bytes⟩) := by
    rw [answered.procs, answer, bytes, valueAt_writeRecord]
  have filled : markAt u.mem home = .filled := by
    rw [answered.mem, answer, bytes, ← view_mark, view_writeRecord, Function.update_self]
  have whole := values_were_set zeroed_zero ((reached.trans ran).trans ran')
  refine ⟨_, u, (reached.trans ran).trans ran', returned, whole.1 2 _ _ _ returned, filled,
    whole.2 home (by decide) ?_ filled⟩
  intro p held
  rw [none''] at held
  cases held

end PosixHashTable
