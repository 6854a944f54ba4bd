import Technosphere.Emrakul.HashTableBase.BoundedMap
import Technosphere.OpenAddressing.Budget

/-!
# The replies of the table of v1.0

A table answers every call as a store with a budget does, and its budget is the
number of its cells. What a caller sees of the geometry, the hash and the order
of the cells is therefore this one number.
-/

namespace HashTableBase

open SharedMemory Prog OpenAddressing Emrakul

variable {g : Geometry} {m : Memory}

abbrev Budgeted := BudgetMap (List UInt8) (List UInt8)

/-! ## Calls on a store -/

def Call.request : Call → Request (List UInt8) (List UInt8)
  | .get key _ => .get key.bytes
  | .set key value _ => .set key.bytes value.bytes
  | .del key => .del key.bytes

/-- The reply to a call with this outcome. -/
def Call.reply : Call → Outcome (List UInt8) → Reply
  | .get _ _, .found stored => ⟨0, stored⟩
  | .get _ value, _ => ⟨-1, value⟩
  | _, .stored => ⟨0, []⟩
  | _, .removed => ⟨0, []⟩
  | _, _ => ⟨-1, []⟩

/-- All replies of a store with that many cells. -/
def storeReplies (capacity : Nat) : Budgeted → List Call → List Reply
  | _, [] => []
  | s, call :: calls =>
    call.reply (s.answer capacity call.request).1 ::
      storeReplies capacity (s.answer capacity call.request).2 calls

/-- All replies of a table. -/
def replies (g : Geometry) : Memory → List Call → List Reply
  | _, [] => []
  | m, call :: calls => (run g m call).1 :: replies g (run g m call).2 calls

/-! ## One call -/

theorem run_respond (sound : Sound g m) (call : Call) :
    (run g m call).1 = call.reply (respond (order g) (view m) call.request).1 ∧
      view (run g m call).2 = (respond (order g) (view m) call.request).2 := by
  cases call with
  | get key value =>
      rw [run_get, exec_get sound, Call.request, respond]
      cases lookup (view m) (order g key.bytes) key.bytes <;> exact ⟨rfl, rfl⟩
  | set key value ttl =>
      rw [run_set, exec_set, Call.request, respond]
      cases place (view m) (order g key.bytes) key.bytes with
      | none => exact ⟨rfl, rfl⟩
      | some c => exact ⟨rfl, view_writeRecord m c key value⟩
  | del key =>
      rw [run_del, exec_del, Call.request, respond]
      cases lookup (view m) (order g key.bytes) key.bytes with
      | none => exact ⟨rfl, rfl⟩
      | some c => exact ⟨rfl, view_buryCell m c⟩

theorem Sound.run (sound : Sound g m) (call : Call) : Sound g (run g m call).2 := by
  cases call with
  | get key value =>
      rw [run_get, exec_get sound]
      cases lookup (view m) (order g key.bytes) key.bytes <;> exact sound
  | set key value ttl =>
      rw [run_set, exec_set]
      cases place (view m) (order g key.bytes) key.bytes with
      | none => exact sound
      | some c => exact sound.writeRecord key value c
  | del key =>
      rw [run_del, exec_del]
      cases lookup (view m) (order g key.bytes) key.bytes with
      | none => exact sound
      | some c => exact sound.buryCell c

/-- The bytes `m` of a table keep the store `s`. -/
structure Stocks (g : Geometry) (m : Memory) (s : Budgeted) : Prop where
  sound : Sound g m
  backs : Backs (view m) g.tableSize s

theorem Zeroed.stocks (zeroed : Zeroed g m) : Stocks g m .empty where
  sound := zeroed.stores.sound
  backs := .empty fun _ hc => zeroed.markAt hc

theorem Stocks.outcome {s : Budgeted} (h : Stocks g m s) (r : Request (List UInt8) (List UInt8)) :
    (respond (order g) (view m) r).1 = (s.answer g.tableSize r).1 :=
  (h.backs.respond (fun _ _ => mem_order) r).1

theorem Stocks.run {s : Budgeted} (h : Stocks g m s) (call : Call) :
    (run g m call).1 = call.reply (s.answer g.tableSize call.request).1 ∧
      Stocks g (run g m call).2 (s.answer g.tableSize call.request).2 := by
  obtain ⟨reply, cells⟩ := run_respond h.sound call
  obtain ⟨outcome, backs⟩ := h.backs.respond (fun _ _ => mem_order) call.request
  rw [← cells] at backs
  exact ⟨by rw [reply, outcome], h.sound.run call, backs⟩

/-! ## Any calls -/

theorem Stocks.replies {s : Budgeted} (h : Stocks g m s) (calls : List Call) :
    replies g m calls = storeReplies g.tableSize s calls := by
  induction calls generalizing m s with
  | nil => rfl
  | cons call calls ih =>
      obtain ⟨reply, stocks⟩ := h.run call
      rw [HashTableBase.replies, storeReplies, reply, ih stocks]

end HashTableBase
