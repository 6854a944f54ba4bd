import Technosphere.Emrakul.PosixHashTable.Concurrent

/-!
# Whose record a call acts on

`get` and `del` find a cell in one critical section and use it in a later one
without comparing the key again. In between a `set` of another key that chose
the same free cell earlier may write it. `Undisturbed` excludes this step, and
then every `get` answers with a value that was set under its key and every
`del` marks a record of its key.
-/

namespace PosixHashTable

open SharedMemory Prog OpenAddressing Emrakul Transition

/-- Some call of `set` in the run passed `value` under `key`. -/
def Passed (acts : List (Action Call)) (key value : List UInt8) : Prop :=
  ∃ p k v ttl, Action.start p (.set k v ttl) ∈ acts ∧ k.bytes = key ∧ v.bytes = value

/-- A record is not written onto a cell that a `get` or `del` of another key
has found and not used yet. -/
def Undisturbed (s : System) : Action Call → Prop
  | .region p _ => ∀ key value ttl c, s.call p = some (.set key value ttl) →
      s.point p = some (.set c) →
      ∀ q call key', s.call q = some call → call.Uses key' →
        s.point q = some (.get c) ∨ s.point q = some (.del c) → key'.bytes = key.bytes
  | _ => True

theorem Passed.append {acts : List (Action Call)} {key value : List UInt8}
    (h : Passed acts key value) (more : List (Action Call)) : Passed (acts ++ more) key value := by
  obtain ⟨p, k, v, ttl, started, hk, hv⟩ := h
  exact ⟨p, k, v, ttl, List.mem_append_left _ started, hk, hv⟩

/-- The bytes end values inside their field, and every live value was set under
the key it is stored with. -/
def SharedAssertion (acts : List (Action Call)) (m : Memory) : Prop :=
  Terminated m ∧ ∀ c < tableSize, markAt m c = .filled → Passed acts (keyAt m c) (valueAt m c)

/-- A call that was started, with the record that it is about to use or has used. -/
structure PausedAssertion (acts : List (Action Call)) (m : Memory) (p : Nat) (call : Call)
    (σ : Site) : Prop where
  started : Action.start p call ∈ acts
  fits : Fits call σ
  held : ∀ key c, call.Uses key → σ = .body c →
    keyAt m c = key.bytes ∧ Passed acts key.bytes (valueAt m c)
  answered : ∀ key buffer value, call = .get key buffer → σ = .done ⟨0, value⟩ →
    Passed acts key.bytes value

theorem PausedAssertion.append {acts : List (Action Call)} {a : Action Call} {m : Memory} {p : Nat}
    {call : Call} {σ : Site} (h : PausedAssertion acts m p call σ) :
    PausedAssertion (acts ++ [a]) m p call σ where
  started := List.mem_append_left _ h.started
  fits := h.fits
  held key c uses hσ := (h.held key c uses hσ).imp_right fun passed => passed.append _
  answered key buffer value hcall hσ := (h.answered key buffer value hcall hσ).append _

/-- A record that fades keeps its key and its value. -/
theorem PausedAssertion.fades {acts : List (Action Call)} {m m' : Memory} {p : Nat} {call : Call}
    {σ : Site} (h : PausedAssertion acts m p call σ) (fades : Fades m m') :
    PausedAssertion acts m' p call σ where
  started := h.started
  fits := h.fits
  held key c uses hσ := by
    rw [fades.keyAt, fades.valueAt]
    exact h.held key c uses hσ
  answered := h.answered

theorem SharedAssertion.fades {acts : List (Action Call)} {m m' : Memory}
    (h : SharedAssertion acts m) (fades : Fades m m') : SharedAssertion acts m' := by
  refine ⟨fades.terminated h.1, fun c hc hfilled => ?_⟩
  have holds : (view m c).Holds (keyAt m' c) := fades.holds ⟨hfilled, rfl⟩
  rw [fades.keyAt, fades.valueAt]
  exact h.2 c hc holds.1

/-! ## Steps -/

section Steps

variable {acts : List (Action Call)} {m m' : Memory} {p : Nat} {call : Call} {σ σ' : Site}

/-- The process that takes a step has its assertion again. -/
theorem PausedAssertion.next (shared : SharedAssertion acts m)
    (h : PausedAssertion acts m p call σ) (next : Next call σ m m' σ') :
    PausedAssertion acts m' p call σ' := by
  refine ⟨h.started, h.fits.next next, ?_, ?_⟩
  · intro key c uses hσ
    cases next with
    | found hk split misses holds =>
        cases hσ
        cases Option.some.inj (hk.symm.trans uses.key)
        obtain ⟨_, order_eq⟩ := h.fits.order_eq hk
        have inside : c < tableSize := mem_of_order_eq order_eq (by rw [split]; simp)
        refine ⟨holds.2, ?_⟩
        rw [← holds.2]
        exact shared.2 c inside holds.1
    | vacant =>
        rcases uses with ⟨_, hcall⟩ | hcall <;> cases hcall
    | missed =>
        cases call <;> cases hσ
    | passed | crowded | full | copied | written | buried | swept | finished => cases hσ
  · intro key buffer value hcall hσ
    subst hcall
    cases next with
    | copied =>
        cases hσ
        cases h.fits with
        | body _ inside =>
            have copy : PosixHashTable.stored m _ = valueAt m _ := cstr_value shared.1 inside
            rw [copy]
            exact (h.held key _ (Or.inl ⟨buffer, rfl⟩) rfl).2
    | missed => cases hσ
    | passed | found => cases hσ

theorem SharedAssertion.next (shared : SharedAssertion acts m)
    (h : PausedAssertion acts m p call σ) (next : Next call σ m m' σ') :
    SharedAssertion acts m' := by
  rcases next.fades_or_writes with fades | ⟨key, value, ttl, c, now, rfl, rfl, rfl, rfl⟩
  · exact shared.fades fades
  · refine ⟨shared.1.writeRecord, fun c' hc' hfilled => ?_⟩
    by_cases e : c' = c
    · rw [e, keyAt_writeRecord, valueAt_writeRecord]
      exact ⟨p, key, value, ttl, h.started, rfl, rfl⟩
    · have holds := holds_writeRecord.mp ⟨hfilled, rfl⟩
      rw [if_neg e] at holds
      rw [keyAt_writeRecord_of_ne e, valueAt_writeRecord_of_ne e]
      exact shared.2 c' hc' holds.1

/-- The step of another process leaves a paused one its assertion, unless it
writes the record of another key onto the cell that is about to be used. -/
theorem PausedAssertion.other {q : Nat} {call₁ : Call} {σ₁ : Site}
    (h : PausedAssertion acts m p call σ) (h₁ : PausedAssertion acts m q call₁ σ₁)
    (next : Next call σ m m' σ')
    (undisturbed : ∀ key value ttl c, call = .set key value ttl → σ = .body c →
      ∀ key', call₁.Uses key' → σ₁ = .body c → key'.bytes = key.bytes) :
    PausedAssertion acts m' q call₁ σ₁ := by
  rcases next.fades_or_writes with fades | ⟨key, value, ttl, c, now, rfl, rfl, rfl, rfl⟩
  · exact h₁.fades fades
  · refine ⟨h₁.started, h₁.fits, ?_, h₁.answered⟩
    intro key' c' uses hσ
    by_cases e : c' = c
    · subst e
      have same := undisturbed key value ttl c' rfl rfl key' uses hσ
      rw [keyAt_writeRecord, valueAt_writeRecord]
      exact ⟨same.symm, p, key, value, ttl, h.started, same.symm, rfl⟩
    · rw [keyAt_writeRecord_of_ne e, valueAt_writeRecord_of_ne e]
      exact h₁.held key' c' uses hσ

end Steps

/-! ## Runs -/

theorem holds_of_undisturbed {m₀ : Memory} {acts : List (Action Call)} {s : System}
    (zeroed : Zeroed m₀) (ran : Run (step code) Undisturbed (Config.idle m₀) acts s) :
    ∃ L, s = places.config L ∧ Outline.Holds SharedAssertion PausedAssertion acts L := by
  refine places.holds_of_run (L := ⟨m₀, fun _ => none⟩) ?_ PausedAssertion.append ?_ ?_ ?_ ran
  · intro acts a m shared
    exact ⟨shared.1, fun c hc hfilled => (shared.2 c hc hfilled).append _⟩
  · intro acts L p call holds _ _
    refine ⟨by simp, fits_entry call, ?_, ?_⟩
    · intro key c uses hσ
      simp only [places, entry, uses.key] at hσ
      cases hσ
    · rintro key buffer value rfl hσ
      cases hσ
  · intro acts L p clk call σ m' σ' holds undisturbed hp next
    have self := holds.paused p call σ hp
    refine ⟨holds.shared.next self next, self.next holds.shared next, ?_⟩
    intro q call₁ σ₁ _ hq
    apply self.other (holds.paused q call₁ σ₁ hq) next
    rintro key value ttl c rfl rfl key' uses rfl
    refine undisturbed key value ttl c (places.config_call hp) ?_ q call₁ key'
      (places.config_call hq) uses ?_
    · exact places.config_point hp
    · rw [places.config_point hq]
      rcases uses with ⟨_, rfl⟩ | rfl
      · exact Or.inl rfl
      · exact Or.inr rfl
  · refine ⟨⟨zeroed.sound.terminated, fun c hc hfilled => ?_⟩, by simp⟩
    rw [zeroed.markAt hc] at hfilled
    cases hfilled

/-- In every undisturbed run a `get` that succeeds answers with a value that
was passed under its key, and a `del` that is about to mark a cell finds its
own key there. -/
theorem keys_are_isolated {m₀ : Memory} {acts : List (Action Call)} {s : System}
    (zeroed : Zeroed m₀) (ran : Run (step code) Undisturbed (Config.idle m₀) acts s) :
    (∀ p key buffer value, s.call p = some (.get key buffer) →
      s.result p = some ⟨0, value⟩ → Passed acts key.bytes value) ∧
    (∀ p key c, s.call p = some (.del key) → s.point p = some (.del c) →
      keyAt s.mem c = key.bytes) := by
  obtain ⟨L, rfl, holds⟩ := holds_of_undisturbed zeroed ran
  constructor
  · intro p key buffer value hcall hresult
    obtain ⟨σ, hp⟩ := places.sites_of_call hcall
    have self := holds.paused p _ σ hp
    rw [places.config_result hp] at hresult
    exact self.answered key buffer value rfl (self.fits.result.mp hresult)
  · intro p key c hcall hpoint
    obtain ⟨σ, hp⟩ := places.sites_of_call hcall
    have self := holds.paused p _ σ hp
    have hσ : pointAt (.del key) σ = some (.del c) := by
      rw [← self.fits.point]
      exact (places.config_point hp).symm.trans hpoint
    cases σ with
    | body c' =>
        cases hσ
        exact (self.held key c (Or.inr rfl) rfl).1
    | filled | free | sweep | done => cases hσ

/-! ## An undisturbed and a disturbed run -/

/-- A `set` by one process and then a `get` by another. -/
theorem set_then_get (k : Key) (v : Value) {m₀ : Memory} (zeroed : Zeroed m₀) :
    ∃ acts s, Run (step code) Undisturbed (Config.idle m₀) acts s ∧ s.call 1 = some (.get k []) ∧
      s.result 1 = some ⟨0, v.bytes⟩ := by
  let c := hash tableSize k.bytes
  let m₁ := writeRecord m₀ c k.bytes v.bytes (10 + 1)
  let s₁ : System := (Config.idle m₀).put 0 m₁ (.set k v 10) (pure ⟨0, []⟩)
  let s₂ := s₁.put 1 m₁ (.get k []) (actOn (.get k []) c)
  have onlySet : ∀ q, Undisturbed ((Config.idle m₀).put 0 m₀ (.set k v 10) q)
      (.region 0 fun _ => 1) := by
    rintro q key value ttl c _ _ q' call key' hcall uses _
    by_cases e : q' = 0
    · subst e
      rw [Config.put_call_self] at hcall
      cases hcall
      cases uses.key
      rcases uses with ⟨_, h⟩ | h <;> cases h
    · rw [Config.put_call_of_ne _ _ _ _ _ e] at hcall
      cases hcall
  have onlyGet : ∀ q, Undisturbed (s₁.put 1 m₁ (.get k []) q) (.region 1 fun _ => 1) := by
    rintro q key value ttl c hcall
    rw [Config.put_call_self] at hcall
    cases hcall
  obtain ⟨n₀, acknowledged⟩ : ∃ n, Run (step code) Undisturbed
      ((Config.idle m₀).put 0 m₀ (.set k v 10) _) (List.replicate n (.region 0 fun _ => 1)) s₁ :=
    run_set onlySet (zeroed.place _)
  obtain ⟨n₁, found⟩ : ∃ n, Run (step code) Undisturbed (s₁.put 1 m₁ (.get k []) _)
      (List.replicate n (.region 1 fun _ => 1)) s₂ :=
    run_to_record rfl onlyGet (lookup_home m₀ k v _)
  have first : Run (step code) Undisturbed (Config.idle m₀) [.start 0 (.set k v 10)]
      ((Config.idle m₀).put 0 m₀ (.set k v 10) (code (.set k v 10))) :=
    .single trivial (step_start rfl)
  have second : Run (step code) Undisturbed s₁ [.start 1 (.get k [])]
      (s₁.put 1 m₁ (.get k []) (code (.get k []))) := .single trivial (step_start rfl)
  have read : Run (step code) Undisturbed s₂ [.region 1 fun _ => 1]
      (s₁.put 1 m₁ (.get k []) (pure ⟨0, stored m₁ c⟩)) :=
    .single (onlyGet _) (step_put_region (enter_getCell _ _ _ _))
  have copy : stored m₁ c = v.bytes :=
    (cstr_value zeroed.sound.terminated.writeRecord (hash_lt tableSize_pos _)).trans
      (valueAt_writeRecord m₀ c k v _)
  refine ⟨_, _, (((first.trans acknowledged).trans second).trans found).trans read, ?_, ?_⟩
  · exact Config.put_call_self _ _ _ _ _
  · rw [Config.put_result_self, copy]
    rfl

/-- The isolation theorem at this run. -/
theorem get_isolated :
    ∃ acts s, Run (step code) Undisturbed (Config.idle fun _ => 0) acts s ∧
      s.result 1 = some ⟨0, [49]⟩ ∧ Passed acts keyD.bytes [49] := by
  obtain ⟨acts, s, ran, hcall, hresult⟩ := set_then_get keyD value1 zeroed_zero
  exact ⟨acts, s, ran, hresult,
    (keys_are_isolated zeroed_zero ran).1 1 keyD [] [49] hcall hresult⟩

/-- Two keys with one hash, three processes: the first has chosen a cell for
`k'`, the second sets `k` there and the third finds it, the first writes. The
third then answers a `get` of `k` with the value of `k'`. -/
theorem replaced_before_use (k k' : Key) (v v' : Value) (differ : k'.bytes ≠ k.bytes)
    (collide : hash tableSize k'.bytes = hash tableSize k.bytes) {m₀ : Memory}
    (zeroed : Zeroed m₀) :
    ∃ acts s, Run (step code) Always (Config.idle m₀) acts s ∧ s.call 2 = some (.get k []) ∧
      s.result 2 = some ⟨0, v'.bytes⟩ ∧ ∀ w, Passed acts k.bytes w → w = v.bytes := by
  let s₀ : System := Config.idle m₀
  let c := hash tableSize k.bytes
  let m₁ := writeRecord m₀ c k.bytes v.bytes (10 + 1)
  let m₂ := writeRecord m₁ c k'.bytes v'.bytes (10 + 1)
  let s₁ := s₀.put 0 m₀ (.set k' v' 10) (actOn (.set k' v' 10) c)
  let s₂ := s₁.put 1 m₁ (.set k v 10) (pure ⟨0, []⟩)
  let s₃ := s₂.put 2 m₁ (.get k []) (actOn (.get k []) c)
  obtain ⟨n₀, chosen⟩ : ∃ n, Run (step code) Always (s₀.put 0 m₀ (.set k' v' 10) _)
      (List.replicate n (.region 0 fun _ => 1)) s₁ :=
    run_to_place (fun _ => trivial) ((zeroed.place _).trans (congrArg some collide))
  obtain ⟨n₁, acknowledged⟩ : ∃ n, Run (step code) Always (s₁.put 1 m₀ (.set k v 10) _)
      (List.replicate n (.region 1 fun _ => 1)) s₂ :=
    run_set (fun _ => trivial) (zeroed.place _)
  obtain ⟨n₂, found⟩ : ∃ n, Run (step code) Always (s₂.put 2 m₁ (.get k []) _)
      (List.replicate n (.region 2 fun _ => 1)) s₃ :=
    run_to_record rfl (fun _ => trivial) (lookup_home m₀ k v _)
  have first : Run (step code) Always s₀ [.start 0 (.set k' v' 10)]
      (s₀.put 0 m₀ (.set k' v' 10) (code (.set k' v' 10))) := .single trivial (step_start rfl)
  have second : Run (step code) Always s₁ [.start 1 (.set k v 10)]
      (s₁.put 1 m₀ (.set k v 10) (code (.set k v 10))) := .single trivial (step_start rfl)
  have third : Run (step code) Always s₂ [.start 2 (.get k [])]
      (s₂.put 2 m₁ (.get k []) (code (.get k []))) := .single trivial (step_start rfl)
  have written : Run (step code) Always s₃ [.region 0 fun _ => 1]
      (s₃.put 0 m₂ (.set k' v' 10) (pure ⟨0, []⟩)) :=
    .single trivial (step_region rfl (enter_setCell _ _ _ _ _ _ _))
  have read : Run (step code) Always (s₃.put 0 m₂ (.set k' v' 10) (pure ⟨0, []⟩))
      [.region 2 fun _ => 1]
      ((s₃.put 0 m₂ (.set k' v' 10) (pure ⟨0, []⟩)).put 2 m₂ (.get k [])
        (pure ⟨0, stored m₂ c⟩)) :=
    .single trivial (step_region rfl (enter_getCell _ _ _ _))
  have all := (((((first.trans chosen).trans second).trans acknowledged).trans third).trans
    found).trans (written.trans read)
  have copy : stored m₂ c = v'.bytes := by
    have terminated : Terminated m₂ := zeroed.sound.terminated.writeRecord.writeRecord
    exact (cstr_value terminated (hash_lt tableSize_pos _)).trans (valueAt_writeRecord m₁ c k' v' _)
  refine ⟨_, _, all, rfl, congrArg (fun w => some (Reply.mk 0 w)) copy, ?_⟩
  rintro w ⟨p, k₁, v₁, ttl, started, hk, hv⟩
  simp only [List.mem_append, List.mem_replicate, List.mem_singleton, reduceCtorEq, and_false,
    or_false, Action.start.injEq, Call.set.injEq] at started
  rcases started with ⟨_, rfl, _⟩ | ⟨_, _, rfl, _⟩
  · exact absurd hk differ
  · exact hv.symm

/-- A `get` of `"d"` can answer with a value that was set for `"o"`. -/
theorem keys_not_isolated :
    ¬ ∀ m₀ acts s, Zeroed m₀ → Run (step code) Always (Config.idle m₀) acts s →
      (∀ p key buffer value, s.call p = some (.get key buffer) →
        s.result p = some ⟨0, value⟩ → Passed acts key.bytes value) ∧
      (∀ p key c, s.call p = some (.del key) → s.point p = some (.del c) →
        keyAt s.mem c = key.bytes) := by
  intro always
  obtain ⟨acts, s, ran, hcall, hresult, passed⟩ := replaced_before_use keyD keyO value1
    value2 (by decide) (hash_keyO.trans hash_keyD.symm) zeroed_zero
  have same := passed _ ((always _ acts s zeroed_zero ran).1 2 keyD [] _ hcall hresult)
  exact absurd same (by decide)

end PosixHashTable
