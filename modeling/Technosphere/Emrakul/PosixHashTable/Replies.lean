import Technosphere.Emrakul.PosixHashTable.Expiry
import Technosphere.OpenAddressing.Budget

/-!
# The replies of the table of v2.0

One call after another, the table answers as a store with a budget does, whose
values carry a death time. This holds at any times and for any times to live,
also where the death time of a record leaves an `int`: it is the time that the
four bytes can hold.
-/

namespace PosixHashTable

open SharedMemory Prog OpenAddressing Emrakul CInt

variable {m : Memory} {now : Int}

abbrev Budgeted := BudgetMap (List UInt8) (List UInt8 × Int)

/-! ## Calls on a store -/

/-- The test of the collector. -/
def Dead (now : Int) (entry : List UInt8 × Int) : Prop :=
  entry.2 ≠ 0 ∧ entry.2 < toInt32 now

instance (now : Int) : DecidablePred (Dead now) := fun _ => inferInstanceAs (Decidable (_ ∧ _))

/-- What a worker asks of the store at a time. The cleaner asks for something else. -/
def Call.request (now : Int) : Call → Option (Request (List UInt8) (List UInt8 × Int))
  | .get key _ => some (.get key.bytes)
  | .set key value ttl => some (.set key.bytes (value.bytes, toInt32 (ttl + now)))
  | .del key => some (.del key.bytes)
  | .collectGarbage => none

/-- The reply to a call with this outcome. -/
def Call.reply : Call → Outcome (List UInt8 × Int) → Reply
  | .get _ _, .found entry => ⟨0, entry.1⟩
  | .get _ value, _ => ⟨-1, value⟩
  | _, .stored => ⟨0, []⟩
  | _, .removed => ⟨0, []⟩
  | _, _ => ⟨-1, []⟩

/-- What a call does to a store. A pass of the collector is answered with the
number of entries that it removes. -/
noncomputable def storeAnswer (now : Int) (s : Budgeted) (call : Call) : Reply × Budgeted :=
  match call.request now with
  | some r => (call.reply (s.answer tableSize r).1, (s.answer tableSize r).2)
  | none =>
    (⟨({k | ∃ entry, s.entries k = some entry ∧ Dead now entry}.ncard : Nat), []⟩,
      s.discard (Dead now))

/-- All replies of a store to calls at these times. -/
noncomputable def storeReplies : Budgeted → List (Int × Call) → List Reply
  | _, [] => []
  | s, (now, call) :: calls =>
    (storeAnswer now s call).1 :: storeReplies (storeAnswer now s call).2 calls

/-- All replies of a table to calls at these times. -/
def replies : Memory → List (Int × Call) → List Reply
  | _, [] => []
  | m, (now, call) :: calls =>
    (exec now (code call) m).1 :: replies (exec now (code call) m).2 calls

/-! ## One call -/

theorem exec_respond (sound : Sound m) {call : Call} {r : Request (List UInt8) (List UInt8 × Int)}
    (asked : call.request now = some r) :
    (exec now (code call) m).1 = call.reply (respond order (view m) r).1 ∧
      view (exec now (code call) m).2 = (respond order (view m) r).2 := by
  cases call with
  | get key value =>
      cases asked
      rw [exec_code_get, exec_get sound, respond]
      cases lookup (view m) (order key.bytes) key.bytes <;> exact ⟨rfl, rfl⟩
  | set key value ttl =>
      cases asked
      rw [exec_code_set, exec_set, respond]
      cases place (view m) (order key.bytes) key.bytes with
      | none => exact ⟨rfl, rfl⟩
      | some c => exact ⟨rfl, view_writeRecord m c key value _⟩
  | del key =>
      cases asked
      rw [exec_code_del, exec_del, respond]
      cases lookup (view m) (order key.bytes) key.bytes with
      | none => exact ⟨rfl, rfl⟩
      | some c => exact ⟨rfl, view_buryCell m c⟩
  | collectGarbage => cases asked

theorem collects_iff_dead {c : Nat} {k : List UInt8} (hk : (view m c).Holds k) :
    collects now m c ↔ Dead now (view m c).val := by
  have live : m (recordSize * c + keySize) ≠ clRip := by
    intro rip
    have filled := hk.1
    rw [view_mark, markAt, rip] at filled
    cases filled
  exact and_iff_left live

/-- The bytes `m` of a table keep the store `s`. -/
structure Stocks (m : Memory) (s : Budgeted) : Prop where
  sound : Sound m
  backs : Backs (view m) tableSize s

theorem Zeroed.stocks (zeroed : Zeroed m) : Stocks m .empty where
  sound := zeroed.sound
  backs := .empty fun _ hc => zeroed.markAt hc

namespace Stocks

variable {s : Budgeted}

theorem outcome (h : Stocks m s) (r : Request (List UInt8) (List UInt8 × Int)) :
    (respond order (view m) r).1 = (s.answer tableSize r).1 :=
  (h.backs.respond (fun _ _ => mem_order) r).1

/-- A pass over all cells removes the dead entries and counts them. -/
theorem sweep (h : Stocks m s) {cells : List Nat} (cover : ∀ c, c ∈ cells ↔ c < tableSize)
    (nodup : cells.Nodup) :
    (sweep now cells m).1 =
        ({k | ∃ entry, s.entries k = some entry ∧ Dead now entry}.ncard : Nat) ∧
      Stocks (sweep now cells m).2 (s.discard (Dead now)) := by
  have agree : ∀ c < tableSize, ∀ k, (view m c).Holds k →
      ((c ∈ cells ∧ collects now m c) ↔ Dead now (view m c).val) := by
    intro c hc k hk
    rw [collects_iff_dead hk, cover, and_iff_right hc]
  have filled : ∀ c < tableSize, c ∈ cells ∧ collects now m c → (view m c).mark = .filled :=
    fun c hc gone => filled_of_collects h.sound hc gone.2
  constructor
  · have counted := h.backs.represents.card_dead _ (fun _ => Dead now) agree filled
    have visited : (Finset.range tableSize).filter (fun c => c ∈ cells ∧ collects now m c) =
        (cells.filter fun c => decide (collects now m c)).toFinset := by
      ext c
      simp only [Finset.mem_filter, Finset.mem_range, List.mem_toFinset, List.mem_filter,
        decide_eq_true_iff, cover]
      exact ⟨And.right, fun collected => ⟨collected.1, collected⟩⟩
    rw [← counted, visited, List.toFinset_card_of_nodup (nodup.filter _), sweep_count nodup,
      List.countP_eq_length_filter]
  · have swept : view (PosixHashTable.sweep now cells m).2 = fun c =>
        if c ∈ cells ∧ collects now m c then (view m c).bury else view m c :=
      funext (view_sweep _)
    refine ⟨h.sound.sweep _, ?_⟩
    rw [swept]
    exact h.backs.discard _ (Dead now) agree filled

theorem collectGarbage (h : Stocks m s) (now : Int) :
    (Prog.exec now (code .collectGarbage) m).1 =
        ⟨({k | ∃ entry, s.entries k = some entry ∧ Dead now entry}.ncard : Nat), []⟩ ∧
      Stocks (Prog.exec now (code .collectGarbage) m).2 (s.discard (Dead now)) := by
  apply collectGarbage_sweeps (P := fun reply m' =>
    reply = ⟨({k | ∃ entry, s.entries k = some entry ∧ Dead now entry}.ncard : Nat), []⟩ ∧
      Stocks m' (s.discard (Dead now)))
  intro cells cover nodup
  obtain ⟨counted, stocks⟩ := h.sweep cover nodup
  exact ⟨congrArg (Reply.mk · []) counted, stocks⟩

theorem exec (h : Stocks m s) (now : Int) (call : Call) :
    (exec now (code call) m).1 = (storeAnswer now s call).1 ∧
      Stocks (Prog.exec now (code call) m).2 (storeAnswer now s call).2 := by
  cases asked : call.request now with
  | some r =>
      obtain ⟨reply, cells⟩ := exec_respond h.sound asked
      obtain ⟨outcome, backs⟩ := h.backs.respond (fun _ _ => mem_order) r
      rw [← cells] at backs
      rw [storeAnswer, asked]
      exact ⟨by rw [reply, outcome], exec_code_sound h.sound call, backs⟩
  | none =>
      cases call with
      | collectGarbage =>
          rw [storeAnswer, asked]
          exact h.collectGarbage now
      | get key value | set key value ttl | del key => cases asked

end Stocks

/-! ## Any calls -/

theorem Stocks.replies {s : Budgeted} (h : Stocks m s) (calls : List (Int × Call)) :
    replies m calls = storeReplies s calls := by
  induction calls generalizing m s with
  | nil => rfl
  | cons timed calls ih =>
      obtain ⟨reply, stocks⟩ := h.exec timed.1 timed.2
      rw [PosixHashTable.replies, storeReplies, reply, ih stocks]

/-- From a zeroed table on, the replies to any calls at any times are those of
a store with a budget. -/
theorem replies_of_store (zeroed : Zeroed m) (calls : List (Int × Call)) :
    replies m calls = storeReplies .empty calls :=
  zeroed.stocks.replies calls

/-- The death time of the record is `2 ^ 31`, which four bytes hold as a time
that is long past, and the next pass of the collector takes it. -/
theorem replies_at_overflow :
    replies (fun _ => 0) [(5, .set keyD ⟨[49], by decide, by decide⟩ (2 ^ 31 - 5)),
      (6, .get keyD []), (6, .collectGarbage), (6, .get keyD [])] =
        [⟨0, []⟩, ⟨0, [49]⟩, ⟨1, []⟩, ⟨-1, []⟩] := by
  have zeroed : Zeroed fun _ => 0 := fun _ _ => rfl
  rw [replies_of_store zeroed]
  have dead : Dead 6 ([49], toInt32 (2 ^ 31 - 5 + 5)) := by decide +kernel
  simp only [storeReplies, storeAnswer, Call.request]
  generalize toInt32 (2 ^ 31 - 5 + 5) = death at dead
  have gone : (some ([(49 : UInt8)], death)).filter (fun v => !decide (Dead 6 v)) = none := by
    simp only [Option.filter, dead, decide_true, Bool.not_true]
    rfl
  simp [Call.reply, BudgetMap.answer, BudgetMap.insert, BudgetMap.empty, BudgetMap.discard,
    tableSize_pos, gone]
  refine ⟨keyD.bytes, ?_⟩
  ext k
  by_cases e : k = keyD.bytes
  · simp [e, dead]
  · simp [e]

end PosixHashTable
