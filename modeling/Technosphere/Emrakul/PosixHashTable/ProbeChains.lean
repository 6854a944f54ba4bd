import Technosphere.Emrakul.PosixHashTable.Atomicity
import Technosphere.OpenAddressing.Chains

/-!
# Searches of v2.0 could stop at a free cell

`find_filled` visits all cells of the table when its key is missing. Whatever
the workers and the cleaner do, every record lies on the chain of used cells
that starts at the hash of its key, so a search that stopped at the first free
cell would find the same. A `set` that lost its race for a cell does not break
the chains: it writes a cell that its own search had reached.
-/

namespace PosixHashTable

open SharedMemory Prog OpenAddressing Emrakul Transition

/-- What the search of a `set` has seen before the place where it is paused. -/
inductive Searched (m : Memory) : Call → Site → Prop where
  | free {key value ttl front cur rest} : order key.bytes = front ++ cur :: rest →
      (∀ x ∈ front, markAt m x ≠ .free) → Searched m (.set key value ttl) (.free cur rest)
  | body {key value ttl c} : Reaches (view m) (order key.bytes) c →
      Searched m (.set key value ttl) (.body c)
  | other {call σ} : (∀ key value ttl cur rest, call = .set key value ttl → σ ≠ .free cur rest) →
      (∀ key value ttl c, call = .set key value ttl → σ ≠ .body c) → Searched m call σ

/-- All records of the table lie on their chains. -/
abbrev OnChains (m : Memory) : Prop := Chained (view m) order tableSize

section Steps

variable {m m' : Memory} {call : Call} {σ σ' : Site}

/-- No critical section frees a cell. -/
theorem Next.used (next : Next call σ m m' σ') {c : Nat} (used : markAt m c ≠ .free) :
    markAt m' c ≠ .free := by
  rcases next.fades_or_writes with fades | ⟨key, value, ttl, c', now, _, _, _, rfl⟩
  · rw [← view_mark]
    rcases fades c with same | buried
    · rwa [same]
    · rw [buried, Slot.bury_mark]
      decide
  · rw [← view_mark, view_writeRecord]
    by_cases e : c = c'
    · rw [e, Function.update_self]
      simp
    · rwa [Function.update_of_ne e]

theorem Searched.mono (h : Searched m call σ)
    (used : ∀ c, markAt m c ≠ .free → markAt m' c ≠ .free) : Searched m' call σ := by
  cases h with
  | free split crowded => exact .free split fun x hx => used x (crowded x hx)
  | body reached => exact .body (reached.mono used)
  | other notFree notBody => exact .other notFree notBody

theorem searched_done (reply : Reply) : Searched m call (.done reply) :=
  .other (fun _ _ _ _ _ _ => by simp) fun _ _ _ _ _ => by simp

theorem searched_filled (cur : Nat) (rest : List Nat) : Searched m call (.filled cur rest) :=
  .other (fun _ _ _ _ _ _ => by simp) fun _ _ _ _ _ => by simp

theorem searched_missing (call : Call) : Searched m call (missing call) := by
  cases call with
  | set key value ttl =>
      exact .free (show order key.bytes = [] ++ _ from order_cons key.bytes) (by simp)
  | get | del | collectGarbage => exact searched_done _

/-- Where a search goes on, it has passed used cells only. -/
theorem Searched.next (chains : OnChains m) (fits : Fits call σ) (h : Searched m call σ)
    (next : Next call σ m m' σ') : Searched m' call σ' := by
  cases next with
  | passed => exact searched_filled _ _
  | @found _ key _ _ _ front c back hk split _ holds =>
      cases call with
      | set key' value ttl =>
          cases hk
          obtain ⟨_, order_eq⟩ := fits.order_eq rfl
          have inside : c < tableSize := mem_of_order_eq order_eq (by rw [split]; simp)
          have reached := chains c inside holds.1
          rw [holds.2] at reached
          exact .body reached
      | get | del | collectGarbage =>
          exact .other (fun _ _ _ _ _ e => by cases e) fun _ _ _ _ e => by cases e
  | missed => exact searched_missing _
  | crowded split _ crowded =>
      cases h with
      | free order_eq crowded₀ =>
          rw [split, ← List.append_assoc] at order_eq
          refine .free order_eq fun x hx => ?_
          rcases List.mem_append.mp hx with hx | hx
          · exact crowded₀ x hx
          · exact crowded x hx
      | other notFree _ => exact absurd rfl (notFree _ _ _ _ _ rfl)
  | vacant split crowded _ =>
      cases h with
      | free order_eq crowded₀ =>
          rw [split, ← List.append_assoc] at order_eq
          refine .body ⟨_, _, order_eq, fun x hx => ?_⟩
          rcases List.mem_append.mp hx with hx | hx
          · exact crowded₀ x hx
          · exact crowded x hx
      | other notFree _ => exact absurd rfl (notFree _ _ _ _ _ rfl)
  | swept => exact .other (fun _ _ _ _ _ e => by cases e) fun _ _ _ _ e => by cases e
  | full | copied | written | buried | finished => exact searched_done _

theorem OnChains.next (h : OnChains m) (searched : Searched m call σ)
    (next : Next call σ m m' σ') : OnChains m' := by
  rcases next.fades_or_writes with fades | ⟨key, value, ttl, c, now, rfl, rfl, _, rfl⟩
  · exact Chained.decays h fades
  · cases searched with
    | body reached =>
        rw [OnChains, view_writeRecord]
        exact Chained.write h reached (by simp)
    | other _ notBody => exact absurd rfl (notBody _ _ _ _ rfl)

end Steps

/-- The chains are kept along every run, whatever the schedule. -/
theorem onChains_of_run {m₀ : Memory} (zeroed : Zeroed m₀) {acts : List (Action Call)} {u : System}
    (ran : Run (SharedMemory.step code) Always (Config.idle m₀) acts u) : OnChains u.mem := by
  suffices kept : ∃ L, u = places.config L ∧ Outline.Holds (fun _ m => OnChains m)
      (fun _ m _ call σ => Fits call σ ∧ Searched m call σ) acts L by
    obtain ⟨L, rfl, holds⟩ := kept
    exact holds.shared
  refine places.holds_of_run (L := ⟨m₀, fun _ => none⟩) (fun chains => chains)
    (fun paused => paused) ?_ ?_ ⟨?_, by simp⟩ ran
  · intro acts L p call _ _ _
    refine ⟨fits_entry call, ?_⟩
    cases call with
    | collectGarbage =>
        exact .other (fun _ _ _ _ _ e => by cases e) fun _ _ _ _ e => by cases e
    | get | set | del => exact searched_filled _ _
  · intro acts L p clk call σ m' σ' holds _ hp next
    obtain ⟨fits, searched⟩ := holds.paused p call σ hp
    refine ⟨OnChains.next holds.shared searched next,
      ⟨fits.next next, searched.next holds.shared fits next⟩, fun q call₁ σ₁ _ hq => ?_⟩
    obtain ⟨fits₁, searched₁⟩ := holds.paused q call₁ σ₁ hq
    exact ⟨fits₁, searched₁.mono fun c => next.used⟩
  · refine .of_no_record fun c hc filled => ?_
    rw [view_mark, zeroed.markAt hc] at filled
    cases filled

/-- Whenever the workers and the cleaner have left all semaphores, a search for
any key that stopped at the first free cell would find what a search of the
whole table finds. -/
theorem search_may_stop_at_free {clock : Nat} {acts : List (Machine.Act Call)} {s : Workers}
    (ran : Run Workers.step Always (.initial (fun _ => 0) clock) acts s) (left : s.holds = [])
    (key : List UInt8) :
    lookup (view s.mem) (chain (view s.mem) (order key)) key =
      lookup (view s.mem) (order key) key := by
  obtain ⟨acts', u, ran', _, coarse⟩ := coarse_of_run recordsEnd_zero ran
  rw [← coarse.mem_eq left]
  exact (onChains_of_run zeroed_zero ran').lookup_eq fun c hc => mem_order.mp hc

/-- After one `set` that ran instruction by instruction. -/
theorem search_may_stop_after_set : ∃ acts s,
    Run Workers.step Always (.initial (fun _ => 0) 0) acts s ∧
      lookup (view s.mem) (order keyD.bytes) keyD.bytes = some home ∧
      lookup (view s.mem) (chain (view s.mem) (order keyD.bytes)) keyD.bytes = some home := by
  obtain ⟨acts, s, ran, _, mem, left⟩ := runs_alone recordsEnd_zero 0 (.set keyD value1 10)
  have found : lookup (view s.mem) (order keyD.bytes) keyD.bytes = some home := by
    rw [mem, exec_code_set, exec_set, zeroed_zero.place, ← hash_keyD]
    exact lookup_home _ _ _ _
  exact ⟨acts, s, ran, found, (search_may_stop_at_free ran left keyD.bytes).trans found⟩

end PosixHashTable
