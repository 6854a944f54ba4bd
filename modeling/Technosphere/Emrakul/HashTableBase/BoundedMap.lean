import Technosphere.Emrakul.HashTableBase.Sequential

/-!
# Histories of calls on the table of v1.0

Each call meets the abstract map, `exec_meets`. Over a history this gives the
map in terms of the calls that were made, and the exact condition under which
the next `set` is refused.
-/

namespace HashTableBase

open SharedMemory Prog OpenAddressing Emrakul Transition

variable {g : Geometry}

/-- One call on the table. The clock is never read. -/
def run (g : Geometry) (m : Memory) (call : Call) : Reply × Memory := exec 0 (code g call) m

section OneCall

variable {m : Memory} {M : Entries}

theorem run_get (key : Key) (value : List UInt8) :
    run g m (.get key value) =
      (⟨(exec 0 (get g key.bytes value) m).1.1, (exec 0 (get g key.bytes value) m).1.2⟩,
        (exec 0 (get g key.bytes value) m).2) := by
  rw [run, code, exec_bind, exec_pure]

theorem run_set (key : Key) (value : Value) (ttl : Int) :
    run g m (.set key value ttl) =
      (⟨(exec 0 (set g key.bytes value.bytes ttl) m).1, []⟩,
        (exec 0 (set g key.bytes value.bytes ttl) m).2) := by
  rw [run, code, exec_bind, exec_pure]

theorem run_del (key : Key) :
    run g m (.del key) =
      (⟨(exec 0 (del g key.bytes) m).1, []⟩, (exec 0 (del g key.bytes) m).2) := by
  rw [run, code, exec_bind, exec_pure]

/-- Every call does to the stored map what a bounded map does. -/
theorem run_meets (h : Stores g m M) (call : Call) :
    ∃ M', Meets M call (run g m call).1 M' ∧ Stores g (run g m call).2 M' := by
  cases call with
  | get key value =>
      rw [run_get, exec_get h.sound]
      refine ⟨M, ?_⟩
      cases found : lookup (view m) (order g key.bytes) key.bytes with
      | none =>
          have absent := (h.represents.lookup_eq_none_iff fun _ => mem_order).mp found
          exact ⟨⟨by rw [absent], rfl⟩, h⟩
      | some c =>
          obtain ⟨_, _, stored⟩ := h.represents.get_of_lookup (fun _ => mem_order) found
          exact ⟨⟨by rw [stored]; rfl, rfl⟩, h⟩
  | set key value ttl =>
      rw [run_set, exec_set]
      cases found : place (view m) (order g key.bytes) key.bytes with
      | none => exact ⟨M, Or.inr ⟨rfl, rfl⟩, h⟩
      | some c =>
          obtain ⟨hc, fit⟩ := h.represents.of_place (fun _ => mem_order) found
          exact ⟨_, Or.inl ⟨rfl, rfl⟩, h.writeRecord key value hc fit⟩
  | del key =>
      rw [run_del, exec_del]
      refine ⟨Function.update M key.bytes none, ?_⟩
      cases found : lookup (view m) (order g key.bytes) key.bytes with
      | none =>
          have absent := (h.represents.lookup_eq_none_iff fun _ => mem_order).mp found
          have same : Function.update M key.bytes none = M := by
            rw [← absent, Function.update_eq_self]
          rw [same]
          exact ⟨⟨by rw [absent]; rfl, same.symm⟩, h⟩
      | some c =>
          obtain ⟨hc, holds, stored⟩ := h.represents.get_of_lookup (fun _ => mem_order) found
          exact ⟨⟨by rw [stored]; rfl, rfl⟩, h.buryCell hc holds⟩

/-- `set` is refused exactly when the key is absent and no cell is free. -/
theorem run_set_code (h : Stores g m M) (key : Key) (value : Value) (ttl : Int) :
    (run g m (.set key value ttl)).1.code = 0 ↔ (M key.bytes).isSome ∨ Vacant g m := by
  have room : (place (view m) (order g key.bytes) key.bytes).isSome ↔ _ :=
    h.represents.place_isSome fun _ => mem_order
  rw [run_set, exec_set, Vacant]
  simp only [view_mark] at room
  rw [← room]
  cases place (view m) (order g key.bytes) key.bytes <;> simp

/-- A call that answers -1 leaves every byte as it was. -/
theorem run_refused (h : Sound g m) (call : Call) :
    (run g m call).1.code = -1 → (run g m call).2 = m := by
  cases call with
  | get key value =>
      intro _
      rw [run_get, exec_get h]
      cases lookup (view m) (order g key.bytes) key.bytes <;> rfl
  | set key value ttl =>
      rw [run_set, exec_set]
      cases place (view m) (order g key.bytes) key.bytes with
      | none =>
          intro _
          rfl
      | some c =>
          intro refused
          cases refused
  | del key =>
      rw [run_del, exec_del]
      cases lookup (view m) (order g key.bytes) key.bytes with
      | none =>
          intro _
          rfl
      | some c =>
          intro refused
          cases refused

end OneCall

/-! ## Histories -/

/-- A call with the reply it was given. -/
structure Event where
  call : Call
  reply : Reply
  deriving DecidableEq

/-- Execute the call of an event, if the table gives the reply of the event. -/
def serve (g : Geometry) (m : Memory) (e : Event) : Option Memory :=
  if (run g m e.call).1 = e.reply then some (run g m e.call).2 else none

namespace Event

/-- The event is a `set` of `key` that was acknowledged. -/
def Writes (e : Event) (key value : List UInt8) : Prop :=
  ∃ (k : Key) (v : Value) (ttl : Int), e.call = .set k v ttl ∧ e.reply.code = 0 ∧
    k.bytes = key ∧ v.bytes = value

/-- The event sets `key` again, or deletes it. -/
def Supersedes (e : Event) (key : List UInt8) : Prop :=
  (∃ value, e.Writes key value) ∨ ∃ k : Key, e.call = .del k ∧ k.bytes = key

end Event

/-- The history contains a `set` of `key` that is still in force. -/
def LastSet (history : List Event) (key value : List UInt8) : Prop :=
  InForce (fun e => e.Writes key value) (fun e => e.Supersedes key) history

/-- One more event: the map after it holds what is in force after it. -/
theorem lastSet_of_meets {history : List Event} {e : Event} {M M' : Entries}
    (before : ∀ key value, M key = some value ↔ LastSet history key value)
    (meets : Meets M e.call e.reply M') (key value : List UInt8) :
    M' key = some value ↔ LastSet (history ++ [e]) key value := by
  obtain ⟨call, reply⟩ := e
  rw [LastSet, inForce_snoc, ← LastSet, ← before]
  cases call with
  | get k buffer =>
      obtain ⟨_, rfl⟩ := meets
      simp [Event.Supersedes, Event.Writes]
  | set k v ttl =>
      rcases meets with ⟨rfl, rfl⟩ | ⟨rfl, rfl⟩
      · by_cases hk : key = k.bytes
        · subst hk
          have again : Event.Supersedes ⟨.set k v ttl, ⟨0, []⟩⟩ k.bytes :=
            Or.inl ⟨v.bytes, k, v, ttl, rfl, rfl, rfl, rfl⟩
          rw [Function.update_self, or_iff_left (fun h => h.2 again)]
          constructor
          · intro h
            cases h
            exact ⟨k, v, ttl, rfl, rfl, rfl, rfl⟩
          · rintro ⟨k', v', ttl', hcall, _, _, rfl⟩
            cases hcall
            rfl
        · have other : ∀ value', ¬ Event.Writes ⟨.set k v ttl, ⟨0, []⟩⟩ key value' := by
            rintro value' ⟨k', v', ttl', hcall, _, rfl, _⟩
            cases hcall
            exact hk rfl
          rw [Function.update_of_ne hk]
          simp [other, Event.Supersedes]
      · have refused : ∀ value', ¬ Event.Writes ⟨.set k v ttl, ⟨-1, []⟩⟩ key value' := by
          rintro value' ⟨_, _, _, _, hcode, _⟩
          cases hcode
        simp [refused, Event.Supersedes]
  | del k =>
      obtain ⟨_, rfl⟩ := meets
      by_cases hk : key = k.bytes
      · subst hk
        simp [Event.Supersedes, Event.Writes]
      · have hk' : k.bytes ≠ key := fun h => hk h.symm
        simp [hk, hk', Event.Supersedes, Event.Writes]

theorem stores_of_run {m₀ m : Memory} {history : List Event} (zeroed : Zeroed g m₀)
    (ran : Run (serve g) Always m₀ history m) :
    ∃ M, Stores g m M ∧ ∀ key value, M key = some value ↔ LastSet history key value := by
  refine Run.invariant (fun history m => ∃ M, Stores g m M ∧
    ∀ key value, M key = some value ↔ LastSet history key value) ?_ ?_ ran
  · exact ⟨_, zeroed.stores, fun key value => iff_of_false (by simp) (not_inForce_nil _ _)⟩
  · intro history m e m' ⟨M, stores, current⟩ _ served
    obtain ⟨M', meets, stores'⟩ := run_meets stores e.call
    rw [serve] at served
    split at served
    · rename_i hreply
      cases served
      exact ⟨M', stores', lastSet_of_meets current (hreply ▸ meets)⟩
    · cases served

/-- After any history of calls on a zeroed table of any geometry, the table
stores the map that the history describes, and the next call does what a
bounded map does. -/
theorem refines_bounded_map {m₀ m : Memory} {history : List Event} (zeroed : Zeroed g m₀)
    (ran : Run (serve g) Always m₀ history m) :
    ∃ M, Stores g m M ∧
      (∀ key value, M key = some value ↔ LastSet history key value) ∧
      (∀ call, (∃ M', Meets M call (run g m call).1 M' ∧ Stores g (run g m call).2 M') ∧
        ((run g m call).1.code = -1 → (run g m call).2 = m)) ∧
      ∀ key value ttl, (run g m (.set key value ttl)).1.code = 0 ↔
        (M key.bytes).isSome ∨ Vacant g m := by
  obtain ⟨M, stores, current⟩ := stores_of_run zeroed ran
  exact ⟨M, stores, current,
    fun call => ⟨run_meets stores call, run_refused stores.sound call⟩,
    fun key value ttl => run_set_code stores key value ttl⟩

/-- A `set` and a `get` on a table of one cell. -/
theorem get_after_plain_set :
    (run smallest (run smallest (fun _ => 0) (.set keyD ⟨[49], by decide, by decide⟩ 0)).2
      (.get keyD [])).1 = ⟨0, [49]⟩ := by
  have zeroed : Zeroed smallest fun _ => 0 := fun _ _ => rfl
  have ran : Run (serve smallest) Always (fun _ => 0)
      [⟨.set keyD ⟨[49], by decide, by decide⟩ 0, ⟨0, []⟩⟩]
      (run smallest (fun _ => 0) (.set keyD ⟨[49], by decide, by decide⟩ 0)).2 := by
    refine .single trivial ?_
    rw [serve, if_pos (by decide +kernel)]
  obtain ⟨M, _, current, next, _⟩ := refines_bounded_map zeroed ran
  have entry : M keyD.bytes = some [49] :=
    (current _ _).mpr
      ⟨[], _, [], rfl, ⟨keyD, ⟨[49], by decide, by decide⟩, 0, rfl, rfl, rfl, rfl⟩, by simp⟩
  obtain ⟨⟨M', ⟨reply, _⟩, _⟩, _⟩ := next (.get keyD [])
  rw [entry] at reply
  exact reply

end HashTableBase
