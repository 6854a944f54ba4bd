import Technosphere.Emrakul.PosixHashTable.Sequential
import Technosphere.Transition

/-!
# The table of v2.0 is a map with expiry

A table stores, under each key, a value with its death time. `Meets` says what
a call does to such a map, without any cells. `exec_meets` connects the two for
one call, and by induction for every history of calls on a zeroed table.

What the map holds after a history is then read off the history itself:
`LastSet` names the call of `set` that a `get` still sees.

`collect_garbage` keeps the clock in an `int`. `ClockFits` says when it still
removes what has expired, and `refines_map_with_expiry` that nothing else keeps
a call from doing what a map with expiry does.
-/

namespace PosixHashTable

open SharedMemory Prog OpenAddressing Emrakul Transition CInt

/-- Each key with its value and death time. -/
abbrev Entries := List UInt8 → Option (List UInt8 × Int)

/-- The bytes `m` store the map `M`, and every entry has a death time. -/
structure Stores (m : Memory) (M : Entries) : Prop where
  sound : Sound m
  represents : Represents (view m) tableSize M
  timed : ∀ k v, M k = some v → v.2 ≠ 0

theorem Zeroed.stores {m : Memory} (h : Zeroed m) : Stores m fun _ => none where
  sound := h.sound
  represents := .of_no_record fun c hc hfilled => by
    rw [view_mark, h.markAt hc] at hfilled
    cases hfilled
  timed k v hv := by cases hv

/-- What a call at clock `now` does to the map. -/
def Meets (now : Int) (M : Entries) : Call → Reply → Entries → Prop
  | .get key value, r, M' =>
    r = (match M key.bytes with | some entry => ⟨0, entry.1⟩ | none => ⟨-1, value⟩) ∧ M' = M
  | .set key value ttl, r, M' =>
    r = ⟨0, []⟩ ∧ M' = Function.update M key.bytes (some (value.bytes, ttl + now)) ∨
      r = ⟨-1, []⟩ ∧ M' = M
  | .del key, r, M' =>
    r = ⟨if (M key.bytes).isSome then 0 else -1, []⟩ ∧ M' = Function.update M key.bytes none
  | .collectGarbage, r, M' =>
    r = ⟨({k | ∃ entry, M k = some entry ∧ entry.2 < now}.ncard : Nat), []⟩ ∧
      M' = fun k => (M k).filter fun entry => !decide (entry.2 < now)

/-- The clock is positive, and a new death time is inside an `int`. -/
def InTime (now : Int) : Call → Prop
  | .set _ _ ttl => 0 < now ∧ 10 ≤ ttl ∧ now + ttl < 2 ^ 31
  | _ => 0 < now

instance (now : Int) (call : Call) : Decidable (InTime now call) := by
  cases call <;> unfold InTime <;> infer_instance

/-- `collect_garbage` is called before the clock leaves an `int`, or at a time at
which what is left of the clock is still behind all death times. -/
def ClockFits (m : Memory) (now : Int) : Call → Prop
  | .collectGarbage =>
    now < 2 ^ 31 ∨ ∀ c < tableSize, markAt m c = .filled → deathAt m c < toInt32 now
  | _ => True

/-! ## One call -/

section OneCall

variable {m : Memory} {M : Entries} {now : Int}

theorem get_meets (now : Int) (h : Stores m M) (key : Key) (value : List UInt8) :
    Meets now M (.get key value) (exec now (code (.get key value)) m).1 M ∧
      (exec now (code (.get key value)) m).2 = m := by
  rw [exec_code_get, exec_get h.sound, Meets]
  cases found : lookup (view m) (order key.bytes) key.bytes with
  | none =>
      rw [(h.represents.lookup_eq_none_iff fun _ => mem_order).mp found]
      exact ⟨⟨rfl, rfl⟩, rfl⟩
  | some c =>
      obtain ⟨_, _, hM⟩ := h.represents.get_of_lookup (fun _ => mem_order) found
      rw [hM]
      exact ⟨⟨rfl, rfl⟩, rfl⟩

theorem Stores.writeRecord (h : Stores m M) (key : Key) (value : Value) {c : Nat} {death : Int}
    (hc : c < tableSize)
    (fit : (view m c).Holds key.bytes ∨ ((view m c).mark ≠ .filled ∧ M key.bytes = none))
    (positive : 0 < death) (fits : death < 2 ^ 31) :
    Stores (writeRecord m c key.bytes value.bytes death)
      (Function.update M key.bytes (some (value.bytes, death))) where
  sound := h.sound.writeRecord c key value death
  represents := by
    rw [view_writeRecord, toInt32_of_lt (by omega) fits]
    exact h.represents.write hc fit
  timed k v hv := by
    by_cases e : k = key.bytes
    · rw [e, Function.update_self] at hv
      cases hv
      exact Int.ne_of_gt positive
    · rw [Function.update_of_ne e] at hv
      exact h.timed k v hv

theorem set_meets (h : Stores m M) (key : Key) (value : Value) {ttl : Int}
    (intime : InTime now (.set key value ttl)) :
    ∃ M', Meets now M (.set key value ttl) (exec now (code (.set key value ttl)) m).1 M' ∧
      Stores (exec now (code (.set key value ttl)) m).2 M' := by
  obtain ⟨positive, least, fits⟩ := intime
  rw [exec_code_set, exec_set]
  cases found : place (view m) (order key.bytes) key.bytes with
  | none => exact ⟨M, Or.inr ⟨rfl, rfl⟩, h⟩
  | some c =>
      obtain ⟨hc, fit⟩ := h.represents.of_place (fun _ => mem_order) found
      exact ⟨_, Or.inl ⟨rfl, rfl⟩,
        h.writeRecord key value hc fit (by omega) (by omega)⟩

theorem Stores.buryCell (h : Stores m M) {key : List UInt8} {c : Nat} (hc : c < tableSize)
    (hk : (view m c).Holds key) : Stores (buryCell m c) (Function.update M key none) where
  sound := h.sound.buryCell c
  represents := by
    rw [view_buryCell]
    exact h.represents.bury hc hk
  timed k v hv := by
    by_cases e : k = key
    · rw [e, Function.update_self] at hv
      cases hv
    · rw [Function.update_of_ne e] at hv
      exact h.timed k v hv

theorem del_meets (h : Stores m M) (key : Key) :
    ∃ M', Meets now M (.del key) (exec now (code (.del key)) m).1 M' ∧
      Stores (exec now (code (.del key)) m).2 M' := by
  rw [exec_code_del, exec_del]
  refine ⟨Function.update M key.bytes none, ?_⟩
  cases found : lookup (view m) (order key.bytes) key.bytes with
  | none =>
      have hM := (h.represents.lookup_eq_none_iff fun _ => mem_order).mp found
      have same : Function.update M key.bytes none = M := by rw [← hM, Function.update_eq_self]
      rw [same]
      exact ⟨⟨by rw [hM]; rfl, same.symm⟩, h⟩
  | some c =>
      obtain ⟨hc, hk, hM⟩ := h.represents.get_of_lookup (fun _ => mem_order) found
      exact ⟨⟨by rw [hM]; rfl, rfl⟩, h.buryCell hc hk⟩

/-- What the clock says of a record is what is left of the clock says. -/
theorem expired_iff (positive : 0 < now) (fits : ClockFits m now .collectGarbage) {c : Nat}
    (hc : c < tableSize) (filled : markAt m c = .filled) :
    deathAt m c < toInt32 now ↔ deathAt m c < now := by
  obtain small | behind := fits
  · rw [toInt32_of_lt (by omega) small]
  · have gone := behind c hc filled
    exact iff_of_true gone (Int.lt_of_lt_of_le gone (toInt32_le (Int.le_of_lt positive)))

theorem collects_iff (h : Stores m M) (positive : 0 < now)
    (fits : ClockFits m now .collectGarbage) {c : Nat} (hc : c < tableSize) {k : List UInt8}
    (hk : (view m c).Holds k) : collects now m c ↔ deathAt m c < now := by
  have hdeath := h.timed k _ (h.represents.get_of_holds hc hk)
  simp only [view_val] at hdeath
  have hmark : m (recordSize * c + keySize) ≠ clRip := by
    intro hrip
    have hfilled := hk.1
    rw [view_mark, markAt, hrip] at hfilled
    cases hfilled
  rw [collects, expired, expired_iff positive fits hc hk.1]
  exact ⟨fun hx => hx.1.2, fun hx => ⟨⟨hdeath, hx⟩, hmark⟩⟩

/-- Only records are collected: a free cell has no death time. -/
theorem filled_of_collects (h : Sound m) {c : Nat} (hc : c < tableSize)
    (collected : collects now m c) : markAt m c = .filled := by
  obtain ⟨⟨hdeath, _⟩, hrip⟩ := collected
  cases hm : markAt m c with
  | filled => rfl
  | free => exact absurd (h.freeDeath c hc hm) hdeath
  | rip =>
      have hstate := h.states c hc
      have hfree : m (recordSize * c + keySize) ≠ clFree := by
        intro e
        rw [markAt, e] at hm
        cases hm
      have hfilled : m (recordSize * c + keySize) ≠ clFilled := by
        intro e
        rw [markAt, e] at hm
        cases hm
      simp only [clRip, clFree, clFilled] at hstate hrip hfree hfilled
      rw [← UInt8.toNat_inj.ne] at hrip hfree hfilled
      rw [UInt8.le_iff_toNat_le] at hstate
      simp at hrip hfree hfilled hstate
      omega

/-- The loop of `collect_garbage` over all cells removes the expired entries. -/
theorem sweep_meets (h : Stores m M) (positive : 0 < now)
    (fits : ClockFits m now .collectGarbage) {cells : List Nat}
    (cover : ∀ c, c ∈ cells ↔ c < tableSize) (nodup : cells.Nodup) :
    (sweep now cells m).1 = ({k | ∃ entry, M k = some entry ∧ entry.2 < now}.ncard : Nat) ∧
      Stores (sweep now cells m).2 fun k => (M k).filter fun entry => !decide (entry.2 < now) := by
  have agree : ∀ c < tableSize, ∀ k, (view m c).Holds k →
      ((c ∈ cells ∧ collects now m c) ↔ (view m c).val.2 < now) := by
    intro c hc k hk
    rw [collects_iff h positive fits hc hk, cover, view_val, and_iff_right hc]
  constructor
  · have counted := h.represents.card_dead (fun c => c ∈ cells ∧ collects now m c)
      (fun _ entry => entry.2 < now) agree fun c hc hgone => filled_of_collects h.sound hc hgone.2
    have visited : (Finset.range tableSize).filter (fun c => c ∈ cells ∧ collects now m c) =
        (cells.filter fun c => decide (collects now m c)).toFinset := by
      ext c
      simp only [Finset.mem_filter, Finset.mem_range, List.mem_toFinset, List.mem_filter,
        decide_eq_true_iff, cover]
      exact ⟨And.right, fun hx => ⟨hx.1, hx⟩⟩
    rw [← counted, visited, List.toFinset_card_of_nodup (nodup.filter _), sweep_count nodup,
      List.countP_eq_length_filter]
  · refine ⟨h.sound.sweep _, ?_, ?_⟩
    · have swept : view (sweep now cells m).2 = fun c =>
          if c ∈ cells ∧ collects now m c then (view m c).bury else view m c :=
        funext (view_sweep _)
      rw [swept]
      exact h.represents.bury_where _ _ agree
    · intro k v hv
      exact h.timed k v (Option.filter_eq_some_iff.mp hv).1

theorem collectGarbage_meets (h : Stores m M) (positive : 0 < now)
    (fits : ClockFits m now .collectGarbage) :
    ∃ M', Meets now M .collectGarbage (exec now (code .collectGarbage) m).1 M' ∧
      Stores (exec now (code .collectGarbage) m).2 M' := by
  refine collectGarbage_sweeps (P := fun reply m' => ∃ M', Meets now M .collectGarbage reply M' ∧
    Stores m' M') fun cells cover nodup => ?_
  obtain ⟨count, stores⟩ := sweep_meets h positive fits cover nodup
  exact ⟨_, ⟨by rw [count], rfl⟩, stores⟩

theorem deathAt_lt (m : Memory) (c : Nat) : deathAt m c < 2 ^ 31 := by
  rw [deathAt, intOfBytes]
  exact (toInt32_bounds _).2

/-- When the clock has left an `int`, every record has expired, and one that is
not collected stays in the map. -/
theorem clockFits_of_collected (h : Stores m M)
    (collected : ∃ M', Meets now M .collectGarbage (exec now (code .collectGarbage) m).1 M' ∧
      Stores (exec now (code .collectGarbage) m).2 M') : ClockFits m now .collectGarbage := by
  by_cases small : now < 2 ^ 31
  · exact Or.inl small
  right
  intro c hc filled
  obtain ⟨M', ⟨_, gone⟩, stores⟩ := collected
  have holds : (view m c).Holds (view m c).key := ⟨filled, rfl⟩
  have entry := h.represents.get_of_holds hc holds
  have dead : (view m c).val.2 < now := Int.lt_of_lt_of_le (deathAt_lt m c) (Int.not_lt.mp small)
  have none : M' (view m c).key = none := by
    rw [gone]
    show (M (view m c).key).filter _ = none
    rw [entry, Option.filter_some, decide_eq_true dead]
    rfl
  refine collectGarbage_sweeps (P := fun _ m' => Stores m' M' → deathAt m c < toInt32 now)
    (fun cells cover _ swept => ?_) stores
  by_contra late
  have kept : view (sweep now cells m).2 c = view m c := by
    rw [view_sweep, if_neg fun hx => late hx.2.1.2]
  have still := swept.represents.get_of_holds (k := (view m c).key) hc (by rw [kept]; exact holds)
  rw [none] at still
  cases still

/-- An entry that what is left of the clock does not reach. -/
theorem not_clockFits (h : Stores m M) (large : 2 ^ 31 ≤ now) {k value : List UInt8} {death : Int}
    (entry : M k = some (value, death)) (late : toInt32 now ≤ death) :
    ¬ ClockFits m now .collectGarbage := by
  obtain ⟨c, hc, holds, val⟩ := (h.represents.contents _ _).mp entry
  have there : deathAt m c = death := congrArg Prod.snd val
  rintro (small | behind)
  · exact absurd small (Int.not_lt.mpr large)
  · have early := behind c hc holds.1
    omega

/-- Every call does to the stored map what a map with expiry does. -/
theorem exec_meets (h : Stores m M) {call : Call} (intime : InTime now call)
    (fits : ClockFits m now call) :
    ∃ M', Meets now M call (exec now (code call) m).1 M' ∧
      Stores (exec now (code call) m).2 M' := by
  cases call with
  | get key value =>
      obtain ⟨meets, same⟩ := get_meets now h key value
      exact ⟨M, meets, by rwa [same]⟩
  | set key value ttl => exact set_meets h key value intime
  | del key => exact del_meets h key
  | collectGarbage => exact collectGarbage_meets h intime fits

/-- A call does what a map with expiry does exactly if the clock fits. -/
theorem exec_meets_iff (h : Stores m M) {call : Call} (intime : InTime now call) :
    (∃ M', Meets now M call (exec now (code call) m).1 M' ∧
      Stores (exec now (code call) m).2 M') ↔ ClockFits m now call := by
  refine ⟨fun meets => ?_, exec_meets h intime⟩
  cases call with
  | get | set | del => trivial
  | collectGarbage => exact clockFits_of_collected h meets

end OneCall

/-! ## Histories -/

/-- A call that was answered: its clock reading and its reply. -/
structure Event where
  call : Call
  now : Int
  reply : Reply
  deriving DecidableEq

/-- Execute the call of an event, if the table gives the reply of the event. -/
def serve (m : Memory) (e : Event) : Option Memory :=
  let result := exec e.now (code e.call) m
  if result.1 = e.reply then some result.2 else none

/-- Every call of the history was made in time, and the clock fitted. -/
def Timely (m : Memory) (e : Event) : Prop := InTime e.now e.call ∧ ClockFits m e.now e.call

namespace Event

/-- The event is a `set` of `key` that was acknowledged. -/
def Writes (e : Event) (key value : List UInt8) (death : Int) : Prop :=
  ∃ (k : Key) (v : Value) (ttl : Int), e.call = .set k v ttl ∧ e.reply.code = 0 ∧
    k.bytes = key ∧ v.bytes = value ∧ death = e.now + ttl

/-- After the event an entry of `key` with this death time is no longer there:
the key was set again, deleted, or collected. -/
def Supersedes (e : Event) (key : List UInt8) (death : Int) : Prop :=
  (∃ value death', e.Writes key value death') ∨ (∃ k : Key, e.call = .del k ∧ k.bytes = key) ∨
    (e.call = .collectGarbage ∧ death < e.now)

end Event

/-- The history contains a `set` of `key` that is still in force. -/
def LastSet (history : List Event) (key value : List UInt8) (death : Int) : Prop :=
  InForce (fun e => e.Writes key value death) (fun e => e.Supersedes key death) history

/-- One more event: the map after it holds what is in force after it. -/
theorem lastSet_of_meets {history : List Event} {e : Event} {M M' : Entries}
    (before : ∀ key value death, M key = some (value, death) ↔ LastSet history key value death)
    (meets : Meets e.now M e.call e.reply M') (key value : List UInt8) (death : Int) :
    M' key = some (value, death) ↔ LastSet (history ++ [e]) key value death := by
  obtain ⟨call, now, reply⟩ := e
  rw [LastSet, inForce_snoc, ← LastSet, ← before]
  cases call with
  | get k buffer =>
      obtain ⟨_, rfl⟩ := meets
      simp [Event.Supersedes, Event.Writes]
  | set k v ttl =>
      rcases meets with ⟨rfl, rfl⟩ | ⟨rfl, rfl⟩
      · by_cases hk : key = k.bytes
        · subst hk
          rw [Function.update_self]
          have again : Event.Supersedes ⟨.set k v ttl, now, ⟨0, []⟩⟩ k.bytes death :=
            Or.inl ⟨v.bytes, now + ttl, k, v, ttl, rfl, rfl, rfl, rfl, rfl⟩
          rw [or_iff_left (fun h => h.2 again)]
          constructor
          · intro h
            cases h
            exact ⟨k, v, ttl, rfl, rfl, rfl, rfl, Int.add_comm _ _⟩
          · rintro ⟨k', v', ttl', hcall, _, _, rfl, rfl⟩
            cases hcall
            rw [Int.add_comm]
        · rw [Function.update_of_ne hk]
          have other : ∀ value' death',
              ¬ Event.Writes ⟨.set k v ttl, now, ⟨0, []⟩⟩ key value' death' := by
            rintro value' death' ⟨k', v', ttl', hcall, _, rfl, _⟩
            cases hcall
            exact hk rfl
          simp [other, Event.Supersedes]
      · have refused : ∀ value' death',
            ¬ Event.Writes ⟨.set k v ttl, now, ⟨-1, []⟩⟩ key value' death' := by
          rintro value' death' ⟨_, _, _, _, hcode, _⟩
          cases hcode
        simp [refused, Event.Supersedes]
  | del k =>
      obtain ⟨_, rfl⟩ := meets
      by_cases hk : key = k.bytes
      · subst hk
        simp [Event.Supersedes, Event.Writes]
      · have hk' : k.bytes ≠ key := fun h => hk h.symm
        simp [hk, hk', Event.Supersedes, Event.Writes]
  | collectGarbage =>
      obtain ⟨_, rfl⟩ := meets
      simp [Event.Supersedes, Event.Writes, Option.filter_eq_some_iff]

theorem stores_of_run {m₀ m : Memory} {history : List Event} (zeroed : Zeroed m₀)
    (ran : Run serve Timely m₀ history m) :
    ∃ M, Stores m M ∧
      ∀ key value death, M key = some (value, death) ↔ LastSet history key value death := by
  refine Run.invariant (fun history m => ∃ M, Stores m M ∧
    ∀ key value death, M key = some (value, death) ↔ LastSet history key value death) ?_ ?_ ran
  · refine ⟨_, zeroed.stores, fun key value death => ?_⟩
    exact iff_of_false (by simp) (not_inForce_nil _ _)
  · intro history m e m' ⟨M, stores, current⟩ timely served
    obtain ⟨M', meets, stores'⟩ := exec_meets stores timely.1 timely.2
    rw [serve] at served
    split at served
    · rename_i hreply
      cases served
      exact ⟨M', stores', lastSet_of_meets current (hreply ▸ meets)⟩
    · cases served

/-! ## Refinement -/

section Refinement

variable {m : Memory} {M : Entries} {now : Int}

/-- A call that answers -1 leaves every byte as it was. -/
theorem exec_refused (h : Stores m M) (call : Call) :
    (exec now (code call) m).1.code = -1 → (exec now (code call) m).2 = m := by
  cases call with
  | get key value =>
      intro _
      rw [exec_code_get, exec_get h.sound]
      cases lookup (view m) (order key.bytes) key.bytes <;> rfl
  | set key value ttl =>
      rw [exec_code_set, exec_set]
      cases place (view m) (order key.bytes) key.bytes with
      | none =>
          intro _
          rfl
      | some c =>
          intro refused
          cases refused
  | del key =>
      rw [exec_code_del, exec_del]
      cases lookup (view m) (order key.bytes) key.bytes with
      | none =>
          intro _
          rfl
      | some c =>
          intro refused
          cases refused
  | collectGarbage =>
      refine collectGarbage_sweeps (P := fun reply m' => reply.code = -1 → m' = m)
        fun cells _ nodup refused => ?_
      rw [sweep_count nodup] at refused
      simp only at refused
      omega

/-- `collect_garbage` leaves free cells free. -/
theorem markAt_collectGarbage (h : Sound m) {c : Nat} (hc : c < tableSize)
    (free : markAt m c = .free) :
    markAt (exec now (code .collectGarbage) m).2 c = .free := by
  refine collectGarbage_sweeps (P := fun _ m' => markAt m' c = .free) fun cells _ _ => ?_
  have skipped : ¬ (c ∈ cells ∧ collects now m c) := by
    intro hx
    rw [filled_of_collects h hc hx.2] at free
    cases free
  rw [← view_mark, view_sweep, if_neg skipped, view_mark, free]

/-- After any history of calls on a zeroed table at clocks that fitted, the table
stores the map that the history describes, and the next call does what a map
with expiry does exactly if the clock fits again. -/
theorem refines_map_with_expiry {m₀ : Memory} {history : List Event} (zeroed : Zeroed m₀)
    (ran : Run serve Timely m₀ history m) :
    ∃ M, Stores m M ∧
      (∀ key value death, M key = some (value, death) ↔ LastSet history key value death) ∧
      ∀ call now, InTime now call →
        ((∃ M', Meets now M call (exec now (code call) m).1 M' ∧
          Stores (exec now (code call) m).2 M') ↔ ClockFits m now call) ∧
        ((exec now (code call) m).1.code = -1 → (exec now (code call) m).2 = m) ∧
        (call = .collectGarbage → ∀ c < tableSize, markAt m c = .free →
          markAt (exec now (code call) m).2 c = .free) := by
  obtain ⟨M, stores, current⟩ := stores_of_run zeroed ran
  refine ⟨M, stores, current, fun call now intime => ⟨exec_meets_iff stores intime,
    exec_refused stores call, ?_⟩⟩
  rintro rfl c hc free
  exact markAt_collectGarbage stores.sound hc free

/-- The history of one `set`, from memory that is all zero. -/
def oneSet (now ttl : Int) : List Event := [⟨.set keyD value1 ttl, now, ⟨0, []⟩⟩]

theorem exec_oneSet (now ttl : Int) : exec now (code (.set keyD value1 ttl)) (fun _ => 0) =
    (⟨0, []⟩, writeRecord (fun _ => 0) (hash tableSize keyD.bytes) keyD.bytes [49]
      (ttl + now)) := by
  have zeroed : Zeroed fun _ => 0 := fun _ _ => rfl
  rw [exec_code_set, exec_set, zeroed.place]
  rfl

theorem run_oneSet {now ttl : Int} {P : Memory → Event → Prop}
    (allowed : P (fun _ => 0) ⟨.set keyD value1 ttl, now, ⟨0, []⟩⟩) :
    Run serve P (fun _ => 0) (oneSet now ttl)
      (exec now (code (.set keyD value1 ttl)) (fun _ => 0)).2 := by
  refine .single allowed ?_
  rw [serve, exec_oneSet]
  rfl

theorem lastSet_oneSet (now ttl : Int) : LastSet (oneSet now ttl) keyD.bytes [49] (now + ttl) :=
  ⟨[], _, [], rfl, ⟨keyD, value1, ttl, rfl, rfl, rfl, rfl, rfl⟩, by simp⟩

/-- A `set` and a later `get` of the same key, from memory that is all zero. -/
theorem get_after_timed_set :
    (exec 2 (code (.get keyD [])) (exec 1 (code (.set keyD value1 10)) fun _ => 0).2).1 =
      ⟨0, [49]⟩ := by
  have zeroed : Zeroed fun _ => 0 := fun _ _ => rfl
  have ran : Run serve Timely (fun _ => 0) (oneSet 1 10) _ :=
    run_oneSet ⟨⟨by decide, by decide, by decide⟩, trivial⟩
  obtain ⟨M, _, current, next⟩ := refines_map_with_expiry zeroed ran
  have entry : M keyD.bytes = some ([49], 11) := (current _ _ _).mpr (lastSet_oneSet 1 10)
  obtain ⟨meets, _⟩ := next (.get keyD []) 2 (by decide)
  obtain ⟨M', ⟨reply, _⟩, _⟩ := meets.mpr trivial
  rw [entry] at reply
  exact reply

/-- A record that was set at clock 2³¹ - 11 for ten seconds has expired at clock
2³¹, and `collect_garbage` leaves it there. -/
theorem not_always_collected : ¬ ∀ (m₀ m : Memory) (history : List Event), Zeroed m₀ →
    Run serve (fun _ e => InTime e.now e.call) m₀ history m →
    (history.map Event.now).Pairwise (· ≤ ·) →
    ∃ M, Stores m M ∧
      (∀ key value death, M key = some (value, death) ↔ LastSet history key value death) ∧
      ∀ call now, InTime now call → (∀ e ∈ history, e.now ≤ now) →
        ∃ M', Meets now M call (exec now (code call) m).1 M' ∧
          Stores (exec now (code call) m).2 M' := by
  intro always
  have zeroed : Zeroed fun _ => 0 := fun _ _ => rfl
  have ran : Run serve (fun _ e => InTime e.now e.call) (fun _ => 0) (oneSet (2 ^ 31 - 11) 10) _ :=
    run_oneSet ⟨by decide, by decide, by decide⟩
  obtain ⟨M, stores, current, next⟩ := always _ _ _ zeroed ran (List.pairwise_singleton _ _)
  have fits := clockFits_of_collected stores
    (next .collectGarbage (2 ^ 31) (by decide) fun e inside => by
      rw [List.mem_singleton.mp inside]
      decide)
  have entry : M keyD.bytes = some ([49], 2 ^ 31 - 1) :=
    (current _ _ _).mpr (lastSet_oneSet (2 ^ 31 - 11) 10)
  have wrapped : toInt32 (2 ^ 31) < 0 := toInt32_wraps (by decide) (by decide)
  exact not_clockFits stores (by decide) entry (by omega) fits

end Refinement

end PosixHashTable
