import Technosphere.Emrakul.PosixHashTable.ProbeChains

/-!
# What a call says about its key

A call looks at the segments one after another while other processes change
them, so its verdict need not be right for any single instant. It is right
whenever there is nothing to get wrong: a key that stays in its cell until the
call has its result is found, and a key that is in no cell all the while is not.

A key can also be lost for good. Once no cell is free, a key without a record
is refused by every later call, whatever else happens.
-/

namespace PosixHashTable

open SharedMemory Prog OpenAddressing Emrakul Transition

/-! ## A key that stays -/

/-- Until process `p` has its result, cell `c` holds the key. -/
def Stays (p : Nat) (key : Key) (c : Nat) (s : System) (a : Action Call) : Prop :=
  a ≠ .finish p ∧ ((s.result p).isSome ∨ (view s.mem c).Holds key.bytes)

/-- Until process `p` has its result, no cell holds the key. -/
def StaysAway (p : Nat) (key : Key) (s : System) (a : Action Call) : Prop :=
  a ≠ .finish p ∧ ((s.result p).isSome ∨ ∀ c < tableSize, ¬ (view s.mem c).Holds key.bytes)

/-- The place of a call that has not passed `c` yet, or has found its key. -/
inductive Finds (c : Nat) : Site → Prop where
  | filled {cur rest} : c ∈ cur :: rest → Finds c (.filled cur rest)
  | body {c'} : Finds c (.body c')
  | done {value} : Finds c (.done ⟨0, value⟩)

/-- The place of a `get` or `del` that has not found its key. -/
inductive Misses : Site → Prop where
  | filled {cur rest} : Misses (.filled cur rest)
  | done {value} : Misses (.done ⟨-1, value⟩)

section Steps

variable {m m' : Memory} {call : Call} {key : Key} {σ σ' : Site} {c : Nat}

theorem Finds.next (h : Finds c σ) (hk : call.key = some key) (holds : (view m c).Holds key.bytes)
    (next : Next call σ m m' σ') : Finds c σ' := by
  cases h with
  | filled ahead =>
      cases next with
      | passed hk' split _ misses =>
          cases hk.symm.trans hk'
          rw [split, List.mem_append] at ahead
          rcases ahead with seen | ahead
          · exact absurd holds (misses c seen)
          · exact .filled ahead
      | found => exact .body
      | missed hk' misses =>
          cases hk.symm.trans hk'
          exact absurd holds (misses c ahead)
  | body =>
      cases next with
      | copied | written | buried => exact .done
  | done => cases next

theorem Misses.next (h : Misses σ) (uses : call.Uses key) (fits : Fits call σ)
    (away : ∀ c < tableSize, ¬ (view m c).Holds key.bytes) (next : Next call σ m m' σ') :
    Misses σ' := by
  cases h with
  | filled =>
      cases next with
      | passed => exact .filled
      | found hk split _ holds =>
          cases uses.key.symm.trans hk
          obtain ⟨_, order_eq⟩ := fits.order_eq hk
          exact absurd holds (away _ (mem_of_order_eq order_eq (by rw [split]; simp)))
      | missed => rcases uses with ⟨buffer, rfl⟩ | rfl <;> exact .done
  | done => cases next

end Steps

section Runs

variable {p : Nat} {call : Call}

/-- What holds of the places of one call holds at its result. The condition of
the run is in force until then. -/
theorem reply_of_run {ok : System → Action Call → Prop} {R : Memory → Prop} (I : Site → Prop)
    {L : Located Call Site} (first : I (entry call))
    (keep : ∀ {m m' σ σ'}, I σ → R m → Fits call σ → Next call σ m m' σ' → I σ')
    (stays : ∀ {s a}, ok s a → a ≠ .finish p)
    (meets : ∀ {s a}, ok s a → s.result p = none → R s.mem)
    {acts : List (Action Call)} {v : System} (ran : Run (SharedMemory.step code) ok
      (places.config ⟨L.mem, Function.update L.sites p (some (call, entry call))⟩) acts v)
    {r : Reply} (result : v.result p = some r) : I (.done r) := by
  suffices kept : ∃ L, v = places.config L ∧
      ∃ σ, L.sites p = some (call, σ) ∧ Fits call σ ∧ I σ by
    obtain ⟨L', rfl, σ, hp, fits, holds⟩ := kept
    rw [places.config_result hp] at result
    obtain rfl := fits.result.mp result
    exact holds
  refine places.invariant (fun _ L => ∃ σ, L.sites p = some (call, σ) ∧ Fits call σ ∧ I σ) ?_ ?_ ?_
    ⟨entry call, Function.update_self _ _ _, fits_entry call, first⟩ ran
  · rintro acts K q d ⟨σ, hp, fits, holds⟩ _ free
    have e : p ≠ q := by
      rintro rfl
      rw [hp] at free
      cases free
    exact ⟨σ, (Function.update_of_ne e _ _).trans hp, fits, holds⟩
  · rintro acts K q clk d σ₁ m' σ' ⟨σ, hp, fits, holds⟩ met hq next
    by_cases e : p = q
    · subst e
      cases hp.symm.trans hq
      refine ⟨σ', Function.update_self _ _ _, fits.next next, keep holds (meets met ?_) fits next⟩
      rw [places.config_result hp, Option.eq_none_iff_forall_ne_some]
      intro r there
      obtain rfl := fits.result.mp there
      cases next
    · exact ⟨σ, (Function.update_of_ne e _ _).trans hp, fits, holds⟩
  · rintro acts K q d σ₁ r₁ ⟨σ, hp, fits, holds⟩ met _ _
    have e : p ≠ q := by
      rintro rfl
      exact stays met rfl
    exact ⟨σ, (Function.update_of_ne e _ _).trans hp, fits, holds⟩

/-- A configuration that is reached is one of paused calls. -/
theorem located_of_run {m₀ : Memory} {acts : List (Action Call)} {u : System}
    (ran : Run (SharedMemory.step code) Always (Config.idle m₀) acts u) :
    ∃ L, u = places.config L ∧ ∀ p c σ, L.sites p = some (c, σ) → Fits c σ := by
  obtain ⟨L, rfl, holds⟩ := places.holds_of_run (L := ⟨m₀, fun _ => none⟩) (G := fun _ _ => True)
    (Q := fun _ _ _ call σ => Fits call σ) (fun _ => trivial) (fun fits => fits)
    (fun _ _ _ => fits_entry _)
    (fun holds _ hp next => ⟨trivial, (holds.paused _ _ _ hp).next next,
      fun q c₁ σ₁ _ hq => holds.paused q c₁ σ₁ hq⟩) ⟨trivial, by simp⟩ ran
  exact ⟨L, rfl, holds.paused⟩

/-- A call finds its key if the key stays in one cell until the call has its
result, and a `get` or `del` does not if the key is in no cell all that time.
Other processes may do anything else meanwhile. -/
theorem verdict_of_steady {m₀ : Memory} {before acts : List (Action Call)} {u u₁ v : System}
    (reached : Run (SharedMemory.step code) Always (Config.idle m₀) before u) {key : Key}
    (hk : call.key = some key) (started : SharedMemory.step code u (.start p call) = some u₁)
    {r : Reply} (result : v.result p = some r) :
    (∀ c < tableSize, Run (SharedMemory.step code) (Stays p key c) u₁ acts v → r.code = 0) ∧
      (call.Uses key → Run (SharedMemory.step code) (StaysAway p key) u₁ acts v →
        r.code = -1) := by
  obtain ⟨L, rfl, _⟩ := located_of_run reached
  obtain ⟨_, rfl⟩ := places.of_start started
  have first : entry call = .filled (hash tableSize key.bytes) (orderTail key.bytes) := by
    simp only [entry, hk]
  constructor
  · intro c hc ran
    have found : Finds c (.done r) := by
      refine reply_of_run (R := fun m => (view m c).Holds key.bytes) (Finds c) ?_
        (fun finds holds _ next => finds.next hk holds next) (fun met => met.1)
        (fun {s a} met none => ?_) ran result
      · rw [first]
        apply Finds.filled
        rw [← order_cons]
        exact mem_order.mpr hc
      · rcases met.2 with done | holds
        · rw [none] at done
          cases done
        · exact holds
    cases found
    rfl
  · intro uses ran
    have missed : Misses (.done r) := by
      refine reply_of_run (R := fun m => ∀ c < tableSize, ¬ (view m c).Holds key.bytes) Misses ?_
        (fun misses away fits next => misses.next uses fits away next) (fun met => met.1)
        (fun {s a} met none => ?_) ran result
      · rw [first]
        exact .filled
      · rcases met.2 with done | away
        · rw [none] at done
          cases done
        · exact away
    cases missed
    rfl

/-- A `get` of a key that stays in its cell, and one of a key that is not there. -/
theorem verdict_of_get : ∃ m : Memory, ∃ acts acts' v v' r r',
    Run (SharedMemory.step code) (Stays 0 keyD home)
      ((Config.idle m).put 0 m (.get keyD []) (code (.get keyD []))) acts v ∧
    v.result 0 = some r ∧ r.code = 0 ∧
    Run (SharedMemory.step code) (StaysAway 0 keyD)
      ((Config.idle fun _ => 0).put 0 (fun _ => 0) (.get keyD []) (code (.get keyD []))) acts' v' ∧
    v'.result 0 = some r' ∧ r'.code = -1 := by
  let m := writeRecord (fun _ => 0) home keyD.bytes value1.bytes 10
  have holds : (view m home).Holds keyD.bytes := by
    rw [holds_writeRecord, if_pos rfl]
  have found : lookup (view m) (order keyD.bytes) keyD.bytes = some home := by
    rw [← hash_keyD]
    exact lookup_home _ keyD value1 10
  have steady : ∀ q, Stays 0 keyD home ((Config.idle m).put 0 m (.get keyD []) q)
      (.region 0 fun _ => 0) := fun q => ⟨by simp, Or.inr holds⟩
  obtain ⟨n, searched⟩ := run_to_record rfl steady found
  have read : enter (fun _ => 0) (actOn (.get keyD []) home) m =
      some (m, pure ⟨0, stored m home⟩) := enter_getCell _ _ _ _
  have ran := searched.snoc (steady (actOn (.get keyD []) home)) (step_put_region read)
  have nowhere : ∀ c < tableSize, ¬ (view (fun _ => 0) c).Holds keyD.bytes := by
    intro c hc filled
    have free := zeroed_zero.markAt hc
    rw [← view_mark, filled.1] at free
    cases free
  have away : ∀ q, StaysAway 0 keyD ((Config.idle fun _ => 0).put 0 (fun _ => 0) (.get keyD []) q)
      (.region 0 fun _ => 0) := fun q => ⟨by simp, Or.inr nowhere⟩
  obtain ⟨n', ran'⟩ : ∃ n, Run (SharedMemory.step code) (StaysAway 0 keyD) (_ : System)
      (List.replicate n (.region 0 fun _ => 0)) (_ : System) :=
    run_to_missing rfl away (lookup_eq_none.mpr fun c hc => nowhere c (mem_order.mp hc))
  have result := Config.put_result_self (Config.idle m : System) 0 m (.get keyD [])
    (pure ⟨0, stored m home⟩)
  have result' := Config.put_result_self (Config.idle fun _ => 0 : System) 0 (fun _ => 0)
    (.get keyD []) (textAt (.get keyD []) (missing (.get keyD [])))
  refine ⟨m, _, _, _, _, _, _, ran, result, ?_, ran', result', ?_⟩
  · exact (verdict_of_steady .nil rfl (step_start rfl) result).1 home (by decide) ran
  · exact (verdict_of_steady .nil rfl (step_start rfl) result').2 (Or.inl ⟨[], rfl⟩) ran'

end Runs

/-! ## A key that is lost -/

/-- No cell is free and none holds the key. -/
def Exhausted (m : Memory) (key : Key) : Prop :=
  ∀ c < tableSize, markAt m c ≠ .free ∧ ¬ (view m c).Holds key.bytes

/-- The place of a call that is going to be refused. -/
inductive Refused : Site → Prop where
  | filled {cur rest} : Refused (.filled cur rest)
  | free {cur rest} : Refused (.free cur rest)
  | done {value} : Refused (.done ⟨-1, value⟩)

section Exhaustion

variable {m m' : Memory} {call : Call} {key : Key} {σ σ' : Site}

theorem Refused.missing (hk : call.key = some key) : Refused (missing call) := by
  cases call with
  | set => exact .free
  | get | del => exact .done
  | collectGarbage => cases hk

theorem Refused.next (h : Refused σ) (full : Exhausted m key) (hk : call.key = some key)
    (fits : Fits call σ) (next : Next call σ m m' σ') : Refused σ' := by
  cases h with
  | filled =>
      cases next with
      | passed => exact .filled
      | found hk' split _ holds =>
          cases hk.symm.trans hk'
          obtain ⟨_, order_eq⟩ := fits.order_eq hk
          exact absurd holds (full _ (mem_of_order_eq order_eq (by rw [split]; simp))).2
      | missed => exact .missing hk
  | free =>
      cases next with
      | crowded => exact .free
      | vacant split _ vacant =>
          cases fits with
          | free order_eq =>
              exact absurd vacant (full _ (mem_of_order_eq order_eq (by rw [split]; simp))).1
      | full => exact .done
  | done => cases next

/-- Only a `set` of the key itself could end the exhaustion. -/
theorem Exhausted.next (h : Exhausted m key) (next : Next call σ m m' σ')
    (refused : call.key = some key → Refused σ) : Exhausted m' key := by
  intro c hc
  refine ⟨next.used (h c hc).1, ?_⟩
  rcases next.fades_or_writes with fades | ⟨k, value, ttl, c', now, rfl, rfl, _, rfl⟩
  · exact fun holds => (h c hc).2 (fades.holds holds)
  · rw [holds_writeRecord]
    split
    · intro same
      have own : (Call.set k value ttl).key = some key := by
        rw [Call.key, Option.some_inj]
        cases k
        cases key
        simpa using same
      cases refused own
    · exact (h c hc).2

/-- What holds from the moment on when the key is lost. -/
theorem exhausted_of_run {L : Located Call Site} (full : Exhausted L.mem key)
    (fits : ∀ p c σ, L.sites p = some (c, σ) → Fits c σ)
    (unused : ∀ p c σ, L.sites p = some (c, σ) → c.key ≠ some key)
    {acts : List (Action Call)} {v : System}
    (ran : Run (SharedMemory.step code) Always (places.config L) acts v) :
    ∃ L', v = places.config L' ∧ Outline.Holds (fun _ m => Exhausted m key)
      (fun _ _ _ call σ => Fits call σ ∧ (call.key = some key → Refused σ)) acts L' := by
  refine places.holds_of_run (fun h => h) (fun h => h) ?_ ?_ ⟨full, ?_⟩ ran
  · intro acts L p call _ _ _
    refine ⟨fits_entry call, fun hk => ?_⟩
    simp only [places, entry, hk]
    exact .filled
  · intro acts L p clk call σ m' σ' holds _ hp next
    obtain ⟨fits, refused⟩ := holds.paused p call σ hp
    exact ⟨holds.shared.next next refused,
      ⟨fits.next next, fun hk => (refused hk).next holds.shared hk fits next⟩,
      fun q c₁ σ₁ _ hq => holds.paused q c₁ σ₁ hq⟩
  · intro p c σ hp
    exact ⟨fits p c σ hp, fun hk => absurd hk (unused p c σ hp)⟩

/-- When all semaphores are free, no cell is free, no cell holds the key and no
call uses it, then the key is lost: whatever the workers and the cleaner do
from then on, instruction by instruction, every call that uses it is refused. -/
theorem refused_forever {mem : Memory} (ends : segments.RecordsEnd mem) {clock : Nat}
    {before acts : List (Machine.Act Call)} {s t : Workers}
    (reached : Run Workers.step Always (.initial mem clock) before s)
    (left : s.holds = []) (full : Exhausted s.mem key)
    (unused : ∀ p c q, s.procs p = some (c, q) → c.key ≠ some key)
    (ran : Run Workers.step Always s acts t) {p : Nat} {r : Reply} (hk : call.key = some key)
    (returned : t.procs p = some (call, .ret r)) : r.code = -1 := by
  obtain ⟨acts₀, u, ran₀, _, views⟩ := coarse_of_run ends reached
  obtain ⟨L, rfl, fits⟩ := located_of_run ran₀
  obtain ⟨acts₁, v, ran₁, _, views'⟩ := Views.of_run ends reached views ran
  have idle : ∀ p, Machine.heldBy s.holds p = [] := fun p => by
    rw [left]
    rfl
  have same : L.mem = s.mem := views.mem_eq left
  obtain ⟨L', rfl, holds⟩ := exhausted_of_run (same ▸ full) fits
    (fun p c σ hp => unused p c _ ((views.outside p (idle p)).symm.trans (places.config_procs hp)))
    ran₁
  have there := views'.returned (disciplined_of_run ends (reached.trans ran)) returned
  obtain ⟨σ, hp, text⟩ := places.sites_of_procs there
  obtain ⟨fits', refused⟩ := holds.paused p call σ hp
  have result : (textAt call σ).result = some r := congrArg Prog.result text.symm
  cases fits'.result.mp result
  cases refused hk
  rfl

end Exhaustion

/-- Every cell is a tombstone. -/
def buried : Memory := fun a => if a % recordSize = keySize then clRip else 0

theorem markAt_buried (c : Nat) : markAt buried c = .rip := by
  have here : (recordSize * c + keySize) % recordSize = keySize := by
    rw [Nat.mul_add_mod]
    rfl
  rw [markAt, buried, if_pos here, markOf_rip]

/-- A `del` that runs on a table of tombstones is refused. -/
theorem refused_forever_del : ∃ acts t r, Run Workers.step Always (.initial buried 0) acts t ∧
    t.procs 0 = some (.del keyD, .ret r) ∧ r.code = -1 := by
  have ends : segments.RecordsEnd buried := by
    intro c _ filled
    rw [markAt_buried] at filled
    cases filled
  have full : Exhausted buried keyD := by
    intro c _
    refine ⟨by rw [markAt_buried]; decide, fun holds => ?_⟩
    have mark := holds.1
    rw [view_mark, markAt_buried] at mark
    cases mark
  obtain ⟨acts, t, ran, returned, _⟩ := runs_alone ends 0 (.del keyD)
  have nobody : ∀ p, (Workers.initial buried 0).procs p = none := fun _ => rfl
  exact ⟨acts, t, _, ran, returned,
    refused_forever ends .nil rfl full (by simp [nobody]) ran rfl returned⟩

end PosixHashTable
