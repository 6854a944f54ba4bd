import Technosphere.Emrakul.PosixHashTable.Places
import Technosphere.SharedMemory.Alone

/-!
# Concurrent calls on the table of v2.0

What holds of every place and every critical section, whatever the other
processes do: where a paused call waits, which cells it has in view, and that a
critical section either only marks records as dead or writes one record.

The second half runs one call as far as the cell it decides on, which is how
particular interleavings are exhibited.
-/

namespace PosixHashTable

open SharedMemory Prog OpenAddressing Emrakul Transition

/-! ## Places -/

/-- The cells that a paused call has in view lie ahead in the probe order of
its key, inside the table. -/
inductive Fits : Call → Site → Prop where
  | filled {call key front cur rest} : call.key = some key →
      order key.bytes = front ++ cur :: rest → Fits call (.filled cur rest)
  | free {key value ttl front cur rest} : order key.bytes = front ++ cur :: rest →
      Fits (.set key value ttl) (.free cur rest)
  | body {call key c} : call.key = some key → c < tableSize → Fits call (.body c)
  | sweep {cur rest n} : (∀ c ∈ cur :: rest, c < tableSize) →
      Fits .collectGarbage (.sweep cur rest n)
  | done {call reply} : Fits call (.done reply)

/-- Where a call paused at a place waits. -/
def pointAt (call : Call) : Site → Option Point
  | .filled cur _ => some (.findFilled cur)
  | .free cur _ => some (.findFree cur)
  | .body c =>
    match call with
    | .get _ _ => some (.get c)
    | .set _ _ _ => some (.set c)
    | .del _ => some (.del c)
    | .collectGarbage => none
  | .sweep cur _ _ => some (.collectGarbage cur)
  | .done _ => none

theorem Fits.point {call : Call} {σ : Site} (h : Fits call σ) :
    (textAt call σ).point = pointAt call σ := by
  cases h with
  | filled hk _ =>
      simp only [textAt, hk]
      rfl
  | body hk _ =>
      cases call with
      | get | set | del => rfl
      | collectGarbage => cases hk
  | free | sweep | done => rfl

theorem Fits.result {call : Call} {σ : Site} {reply : Reply} (h : Fits call σ) :
    (textAt call σ).result = some reply ↔ σ = .done reply := by
  have waits : (textAt call σ).point ≠ none → (textAt call σ).result = none := by
    cases textAt call σ <;> simp [Prog.point, Prog.waiting, Prog.result]
  cases h with
  | done =>
      rw [Site.done.injEq]
      exact Option.some_inj
  | filled hk order_eq =>
      rw [waits (by rw [(Fits.filled hk order_eq).point]; simp [pointAt])]
      simp
  | free order_eq =>
      rw [waits (by rw [(Fits.free order_eq).point]; simp [pointAt])]
      simp
  | body hk inside =>
      rw [waits (by rw [(Fits.body hk inside).point]; cases call <;> simp_all [pointAt, Call.key])]
      simp
  | sweep inside =>
      rw [waits (by rw [(Fits.sweep inside).point]; simp [pointAt])]
      simp

theorem fits_entry (call : Call) : Fits call (entry call) := by
  cases hk : call.key with
  | some key =>
      simp only [entry, hk]
      exact .filled hk (show order key.bytes = [] ++ _ from order_cons key.bytes)
  | none =>
      cases call with
      | collectGarbage =>
          apply Fits.sweep
          intro c hc
          simp only [List.mem_cons, List.mem_range'_1] at hc
          have := tableSize_pos
          omega
      | get | set | del => cases hk

theorem fits_missing (call : Call) : Fits call (missing call) := by
  cases call with
  | set key value ttl => exact .free (show order key.bytes = [] ++ _ from order_cons key.bytes)
  | get | del | collectGarbage => exact .done

theorem mem_of_order_eq {key : List UInt8} {front cells : List Nat}
    (h : order key = front ++ cells) {c : Nat} (hc : c ∈ cells) : c < tableSize :=
  mem_order.mp (by rw [h]; exact List.mem_append_right _ hc)

/-- The cells that a search waits for come after those it has passed. -/
theorem Fits.order_eq {call : Call} {key : Key} {cur : Nat} {rest : List Nat}
    (h : Fits call (.filled cur rest)) (hk : call.key = some key) :
    ∃ front, order key.bytes = front ++ cur :: rest := by
  cases h with
  | filled hk' order_eq =>
      cases hk.symm.trans hk'
      exact ⟨_, order_eq⟩

theorem Fits.next {call : Call} {σ σ' : Site} {m m' : Memory} (h : Fits call σ)
    (next : Next call σ m m' σ') : Fits call σ' := by
  cases next with
  | passed hk split _ _ =>
      cases h with
      | filled hk' order_eq =>
          rw [split, ← List.append_assoc] at order_eq
          exact .filled hk' order_eq
  | found hk split _ _ =>
      cases h with
      | filled hk' order_eq => exact .body hk (mem_of_order_eq order_eq (by rw [split]; simp))
  | missed => exact fits_missing _
  | crowded split _ _ =>
      cases h with
      | free order_eq =>
          rw [split, ← List.append_assoc] at order_eq
          exact .free order_eq
  | vacant split _ _ =>
      cases h with
      | free order_eq => exact .body rfl (mem_of_order_eq order_eq (by rw [split]; simp))
  | swept split _ _ =>
      cases h with
      | sweep inside =>
          exact .sweep fun c hc => inside c (by rw [split]; simp [List.mem_cons.mp hc])
  | full | copied | written | buried | finished => exact .done

/-- A `get` or `del` of `key`. -/
def Call.Uses (call : Call) (key : Key) : Prop :=
  (∃ buffer, call = .get key buffer) ∨ call = .del key

theorem Call.Uses.key {call : Call} {key : Key} (h : call.Uses key) : call.key = some key := by
  rcases h with ⟨_, rfl⟩ | rfl <;> rfl

/-! ## Memory -/

/-- Cell by cell, nothing changed or the record was marked dead. -/
def Fades (m m' : Memory) : Prop := ∀ c, view m' c = view m c ∨ view m' c = (view m c).bury

namespace Fades

variable {m m' : Memory}

theorem refl (m : Memory) : Fades m m := fun _ => Or.inl rfl

theorem holds (h : Fades m m') {c : Nat} {key : List UInt8} (hk : (view m' c).Holds key) :
    (view m c).Holds key := by
  rcases h c with same | buried
  · rwa [same] at hk
  · rw [buried] at hk
    exact absurd hk ((view m c).not_holds_bury key)

theorem keyAt (h : Fades m m') (c : Nat) : keyAt m' c = keyAt m c := by
  rw [← view_key, ← view_key]
  rcases h c with same | buried
  · rw [same]
  · rw [buried]
    rfl

theorem valueAt (h : Fades m m') (c : Nat) : valueAt m' c = valueAt m c := by
  have val : (view m' c).val = (view m c).val := by
    rcases h c with same | buried
    · rw [same]
    · rw [buried]
      rfl
  exact congrArg Prod.fst val

theorem terminated (h : Fades m m') (sound : Terminated m) : Terminated m' := by
  intro c hc
  rw [h.valueAt]
  exact sound c hc

end Fades

theorem Swept.fades {cells : List Nat} {m m' : Memory} (h : Swept cells m m') : Fades m m' :=
  fun c => (h c).imp_right fun x => x.2.2

theorem fades_buryCell (m : Memory) (c : Nat) : Fades m (buryCell m c) := by
  intro c'
  rw [view_buryCell]
  by_cases e : c' = c
  · rw [e, Function.update_self]
    exact Or.inr rfl
  · rw [Function.update_of_ne e]
    exact Or.inl rfl

section WriteRecord

variable {m : Memory} {c c' : Nat} {key : Key} {value : Value} {death : Int}

theorem holds_writeRecord {k : List UInt8} :
    (view (writeRecord m c key.bytes value.bytes death) c').Holds k ↔
      if c' = c then key.bytes = k else (view m c').Holds k := by
  rw [view_writeRecord]
  exact Represents.holds_update

theorem keyAt_writeRecord_of_ne (h : c' ≠ c) :
    keyAt (writeRecord m c key.bytes value.bytes death) c' = keyAt m c' := by
  rw [← view_key, view_writeRecord, Function.update_of_ne h, view_key]

theorem valueAt_writeRecord_of_ne (h : c' ≠ c) :
    valueAt (writeRecord m c key.bytes value.bytes death) c' = valueAt m c' := by
  have cell : view (writeRecord m c key.bytes value.bytes death) c' = view m c' := by
    rw [view_writeRecord, Function.update_of_ne h]
  exact congrArg (fun s => s.val.1) cell

theorem Terminated.writeRecord (h : Terminated m) :
    Terminated (writeRecord m c key.bytes value.bytes death) := by
  intro c' hc'
  by_cases e : c' = c
  · rw [e, valueAt_writeRecord]
    exact value.fits
  · rw [valueAt_writeRecord_of_ne e]
    exact h c' hc'

end WriteRecord

/-- A critical section that is not the write of a record lets records fade at most. -/
theorem Next.fades_or_writes {call : Call} {σ σ' : Site} {m m' : Memory}
    (next : Next call σ m m' σ') :
    Fades m m' ∨ ∃ key value ttl c now, call = .set key value ttl ∧ σ = .body c ∧
      σ' = .done ⟨0, []⟩ ∧ m' = writeRecord m c key.bytes value.bytes (ttl + now) := by
  cases next with
  | passed | found | missed | crowded | vacant | full | copied => exact Or.inl (.refl _)
  | written now => exact Or.inr ⟨_, _, _, _, now, rfl, rfl, rfl, rfl⟩
  | buried => exact Or.inl (fades_buryCell _ _)
  | swept _ _ swept => exact Or.inl swept.fades
  | finished swept => exact Or.inl swept.fades

theorem Terminated.next {call : Call} {σ σ' : Site} {m m' : Memory} (h : Terminated m)
    (next : Next call σ m m' σ') : Terminated m' := by
  rcases next.fades_or_writes with fades | ⟨key, value, ttl, c, now, _, _, _, rfl⟩
  · exact fades.terminated h
  · exact h.writeRecord

/-! ## One call up to its cell -/

section Alone

variable {ok : System → Action Call → Prop} {s : System} {p : Nat} {m : Memory}
variable {clk : Nat → Int}

theorem run_findFilled {call : Call} {key : Key} (hk : call.key = some key)
    (met : ∀ q, ok (s.put p m call q) (.region p clk)) :
    ∃ n, Run (step code) ok (s.put p m call (code call)) (List.replicate n (.region p clk))
      (s.put p m call (afterFilled call
        (Scan.index (lookup (view m) (order key.bytes) key.bytes)))) := by
  have text : code call = Scan.resume id hashtableSegmentSize .findFilled (cellFilled key.bytes)
      (order key.bytes) >>= afterFilled call := by
    rw [← textAt_entry, order_cons]
    simp only [entry, hk, textAt]
  rw [text]
  exact Scan.run_resume (fun c => cellFilled_plain key.bytes c)
    (fun c => exec_cellFilled 0 m key c) met _ _

/-- A `get` or `del` whose key is in the table gets to the cell of its record. -/
theorem run_to_record {call : Call} {key : Key} (hk : call.key = some key)
    (met : ∀ q, ok (s.put p m call q) (.region p clk)) {c : Nat}
    (found : lookup (view m) (order key.bytes) key.bytes = some c) :
    ∃ n, Run (step code) ok (s.put p m call (code call)) (List.replicate n (.region p clk))
      (s.put p m call (actOn call c)) := by
  have ran := run_findFilled hk met
  rwa [found, Scan.index_some, afterFilled_found hk] at ran

/-- A call whose key is not in the table has not found it. -/
theorem run_to_missing {call : Call} {key : Key} (hk : call.key = some key)
    (met : ∀ q, ok (s.put p m call q) (.region p clk))
    (absent : lookup (view m) (order key.bytes) key.bytes = none) :
    ∃ n, Run (step code) ok (s.put p m call (code call)) (List.replicate n (.region p clk))
      (s.put p m call (textAt call (missing call))) := by
  have ran := run_findFilled hk met
  rwa [absent, Scan.index_none, afterFilled_missing hk] at ran

/-- A `set` that has not found its key gets to the first free cell. -/
theorem run_to_vacancy {key : Key} {value : Value} {ttl : Int}
    (met : ∀ q, ok (s.put p m (.set key value ttl) q) (.region p clk)) {c : Nat}
    (vacant : vacancy (view m) (order key.bytes) = some c) :
    ∃ n, Run (step code) ok
      (s.put p m (.set key value ttl) (textAt (.set key value ttl) (missing (.set key value ttl))))
      (List.replicate n (.region p clk))
      (s.put p m (.set key value ttl) (actOn (.set key value ttl) c)) := by
  have text : textAt (.set key value ttl) (missing (.set key value ttl)) =
      Scan.resume id hashtableSegmentSize .findFree cellFree (order key.bytes) >>=
        afterFree key value ttl := by
    rw [missing, textAt, order_cons]
  have ran : ∃ n, Run (step code) ok (s.put p m (.set key value ttl)
      (Scan.resume id hashtableSegmentSize .findFree cellFree (order key.bytes) >>= _)) _ _ :=
    Scan.run_resume (fun c => cellFree_plain c) (fun c => exec_cellFree 0 m c) met
      (afterFree key value ttl) (order key.bytes)
  have first : (order key.bytes).find? (freeAt m) = some c := vacant
  rw [text]
  rwa [first, Scan.index_some, afterFree, if_pos (Int.natCast_nonneg c), Int.toNat_natCast] at ran

/-- A `set` gets to the cell it is going to write. -/
theorem run_to_place {key : Key} {value : Value} {ttl : Int}
    (met : ∀ q, ok (s.put p m (.set key value ttl) q) (.region p clk)) {c : Nat}
    (found : place (view m) (order key.bytes) key.bytes = some c) :
    ∃ n, Run (step code) ok (s.put p m (.set key value ttl) (code (.set key value ttl)))
      (List.replicate n (.region p clk))
      (s.put p m (.set key value ttl) (actOn (.set key value ttl) c)) := by
  cases hl : lookup (view m) (order key.bytes) key.bytes with
  | some c' =>
      rw [place, hl, Option.some_or] at found
      cases found
      exact run_to_record rfl met hl
  | none =>
      rw [place, hl, Option.none_or] at found
      obtain ⟨n, first⟩ := run_to_missing rfl met hl
      obtain ⟨n', second⟩ := run_to_vacancy met found
      refine ⟨n + n', ?_⟩
      rw [List.replicate_add]
      exact first.trans second

/-- A `set` that is alone on a table without its key is acknowledged. -/
theorem run_set {key : Key} {value : Value} {ttl : Int}
    (met : ∀ q, ok (s.put p m (.set key value ttl) q) (.region p clk)) {c : Nat}
    (found : place (view m) (order key.bytes) key.bytes = some c) :
    ∃ n, Run (step code) ok (s.put p m (.set key value ttl) (code (.set key value ttl)))
      (List.replicate n (.region p clk))
      (s.put p (writeRecord m c key.bytes value.bytes (ttl + clk 0)) (.set key value ttl)
        (pure ⟨0, []⟩)) := by
  obtain ⟨n, ran⟩ := run_to_place met found
  refine ⟨n + 1, ?_⟩
  rw [List.replicate_succ']
  exact .snoc ran (met _) (step_put_region (by rw [actOn, enter_setCell]))

/-- A record at the hash of its key is found at once. -/
theorem lookup_home (m : Memory) (key : Key) (value : Value) (death : Int) :
    lookup (view (writeRecord m (hash tableSize key.bytes) key.bytes value.bytes death))
      (order key.bytes) key.bytes = some (hash tableSize key.bytes) := by
  rw [lookup, order_cons]
  refine List.find?_cons_of_pos (decide_eq_true ?_)
  rw [holds_writeRecord, if_pos rfl]

end Alone

/-! ## Two keys with one hash -/

/-- The cell where both `keyD` and `keyO` are looked for first. -/
def home : Nat := 115

theorem hash_keyD : hash tableSize keyD.bytes = home := by decide +kernel

theorem hash_keyO : hash tableSize keyO.bytes = home := by decide +kernel

theorem zeroed_zero : Zeroed fun _ => 0 := fun _ _ => rfl

end PosixHashTable
