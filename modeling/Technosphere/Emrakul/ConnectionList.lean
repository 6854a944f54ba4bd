import Mathlib.Data.List.Basic
import Mathlib.Data.List.Nodup

/-!
# The connections of a process

The master of v1.0 and the workers of v2.0 keep their connections in a vector.
Closing a connection takes it out of the vector, also while `signal_cb` runs over
the same vector to close all of them: every element that is taken out moves the
ones behind it forward, and the loop skips the next one.

`closes_all_iff` says for which vectors the loop does what it is for.
-/

namespace ConnectionList

/-- A connection and the descriptor of its bufferevent. -/
structure ClientConnection where
  id : Nat
  bevIn : Nat
  deriving DecidableEq, Repr

/-- `remove_connection`: the loop up to the first connection with the same id. -/
def removeConnection (conn : ClientConnection) : List ClientConnection → List ClientConnection
  | [] => []
  | current :: rest =>
    if current.id = conn.id then rest else current :: removeConnection conn rest

/-- The vector and the calls of `close` so far. -/
structure Closing where
  connList : List ClientConnection
  closed : List ClientConnection
  deriving DecidableEq, Repr

/-- `close`, which ends in `remove_connection`. -/
def Closing.close (s : Closing) (conn : ClientConnection) : Closing :=
  ⟨removeConnection conn s.connList, s.closed ++ [conn]⟩

/-- How a loop over the vector ends. -/
inductive Outcome where
  | returned (s : Closing)
  /-- A position at or behind the end of the vector is read. -/
  | outOfRange (s : Closing) (position : Nat)
  deriving DecidableEq, Repr

/-- The loop from a position on. The end of the range was read before the loop,
so `remaining` does not depend on what `close` does to the vector. -/
def closeFrom (position : Nat) : (remaining : Nat) → Closing → Outcome
  | 0, s => .returned s
  | remaining + 1, s =>
    match s.connList[position]? with
    | none => .outOfRange s position
    | some conn => closeFrom (position + 1) remaining (s.close conn)

/-- The loop of `signal_cb`. -/
def signalCb (connList : List ClientConnection) : Outcome :=
  closeFrom 0 connList.length ⟨connList, []⟩

/-- All connections are closed, each once, and the vector is empty in the end. -/
def ClosesAll (connList : List ClientConnection) : Prop :=
  ∃ s, signalCb connList = .returned s ∧ s.connList = [] ∧
    ∀ conn ∈ connList, s.closed.count conn = 1

/-! ## Which elements are visited -/

/-- Every second element, starting with the first one. -/
def visited : List ClientConnection → List ClientConnection
  | [] => []
  | [conn] => [conn]
  | conn :: _ :: rest => conn :: visited rest

/-- The elements between them. -/
def skipped : List ClientConnection → List ClientConnection
  | [] => []
  | [_] => []
  | _ :: next :: rest => next :: skipped rest

theorem length_visited (connList : List ClientConnection) :
    (visited connList).length = (skipped connList).length ∨
      (visited connList).length = (skipped connList).length + 1 := by
  fun_induction visited connList with
  | case1 => exact Or.inl rfl
  | case2 conn => exact Or.inr rfl
  | case3 conn next rest ih =>
      simp only [skipped, List.length_cons]
      omega

theorem length_visited_add (connList : List ClientConnection) :
    (visited connList).length + (skipped connList).length = connList.length := by
  fun_induction visited connList with
  | case1 => rfl
  | case2 conn => rfl
  | case3 conn next rest ih =>
      simp only [skipped, List.length_cons]
      omega

/-- Removing a connection that stands behind others with different ids. -/
theorem removeConnection_append {before : List ClientConnection} {conn : ClientConnection}
    (fresh : conn.id ∉ before.map ClientConnection.id) (after : List ClientConnection) :
    removeConnection conn (before ++ conn :: after) = before ++ after := by
  induction before with
  | nil => exact if_pos rfl
  | cons current before ih =>
      rw [List.map_cons, List.mem_cons, not_or] at fresh
      obtain ⟨other, fresh⟩ := fresh
      rw [List.cons_append, removeConnection, if_neg (Ne.symm other), ih fresh, List.cons_append]

/-- With different ids there is only one connection to remove. -/
theorem removeConnection_eq_filter {connList : List ClientConnection}
    (distinct : (connList.map ClientConnection.id).Nodup) (conn : ClientConnection) :
    removeConnection conn connList = connList.filter fun c => c.id ≠ conn.id := by
  induction connList with
  | nil => rfl
  | cons current rest ih =>
      rw [List.map_cons, List.nodup_cons] at distinct
      obtain ⟨fresh, distinct⟩ := distinct
      by_cases same : current.id = conn.id
      · have others : ∀ c ∈ rest, decide (c.id ≠ conn.id) = true := by
          intro c inside
          rw [decide_eq_true_eq, ← same]
          exact fun equal => fresh (List.mem_map.mpr ⟨c, inside, equal⟩)
        rw [removeConnection, if_pos same, List.filter_cons_of_neg (by simpa using same),
          List.filter_eq_self.mpr others]
      · rw [removeConnection, if_neg same, List.filter_cons_of_pos (by simpa using same),
          ih distinct]

/-- The vector when the loop has come to a position: skipped elements in front
of it, and elements that have not been reached. -/
theorem closeFrom_append (before rest closed : List ClientConnection) (more : Nat)
    (distinct : ((before ++ rest).map ClientConnection.id).Nodup) :
    closeFrom before.length ((visited rest).length + more) ⟨before ++ rest, closed⟩ =
      closeFrom (before.length + (visited rest).length) more
        ⟨before ++ skipped rest, closed ++ visited rest⟩ := by
  have close : ∀ {before : List ClientConnection} {conn : ClientConnection}
      {after closed : List ClientConnection} {remaining : Nat},
      ((before ++ conn :: after).map ClientConnection.id).Nodup →
      closeFrom before.length (remaining + 1) ⟨before ++ conn :: after, closed⟩ =
        closeFrom (before.length + 1) remaining ⟨before ++ after, closed ++ [conn]⟩ := by
    intro before conn after closed remaining distinct
    have fresh : conn.id ∉ before.map ClientConnection.id := by
      rw [List.map_append, List.map_cons] at distinct
      intro inside
      exact (List.nodup_append.mp distinct).2.2 _ inside _ List.mem_cons_self rfl
    have here : (before ++ conn :: after)[before.length]? = some conn := by simp
    simp only [closeFrom, here, Closing.close, removeConnection_append fresh]
  fun_induction visited rest generalizing before closed with
  | case1 =>
      rw [skipped, List.length_nil, Nat.zero_add, List.append_nil, List.append_nil]
      rfl
  | case2 conn =>
      rw [List.length_singleton, Nat.add_comm, close distinct]
      rfl
  | case3 conn next rest ih =>
      have split : before ++ next :: rest = (before ++ [next]) ++ rest := by
        rw [List.append_assoc, List.singleton_append]
      have fewer : (((before ++ [next]) ++ rest).map ClientConnection.id).Nodup := by
        rw [← split]
        exact (((List.sublist_cons_self conn (next :: rest)).append_left before).map _).nodup
          distinct
      have step := ih (before ++ [next]) (closed ++ [conn]) fewer
      rw [List.length_append, List.length_singleton, ← split] at step
      rw [List.length_cons, Nat.add_right_comm, close distinct, step, skipped]
      simp only [List.append_assoc, List.singleton_append, Nat.add_right_comm, ← Nat.add_assoc]

/-- The loop visits every second element, and then stands at the end of what is
left of the vector. -/
theorem signalCb_eq {connList : List ClientConnection}
    (distinct : (connList.map ClientConnection.id).Nodup) :
    signalCb connList = closeFrom (visited connList).length (skipped connList).length
      ⟨skipped connList, visited connList⟩ := by
  have run := closeFrom_append [] connList [] (skipped connList).length distinct
  rw [length_visited_add, List.length_nil, Nat.zero_add] at run
  exact run

/-- With two elements or more the loop reads behind the end of the vector. -/
theorem signalCb_outOfRange {connList : List ClientConnection}
    (distinct : (connList.map ClientConnection.id).Nodup) (several : 2 ≤ connList.length) :
    signalCb connList =
      .outOfRange ⟨skipped connList, visited connList⟩ (visited connList).length := by
  have lengths := length_visited connList
  have total := length_visited_add connList
  obtain ⟨remaining, more⟩ : ∃ remaining, (skipped connList).length = remaining + 1 :=
    ⟨(skipped connList).length - 1, by omega⟩
  have behind : (skipped connList)[(visited connList).length]? = none :=
    List.getElem?_eq_none (by omega)
  rw [signalCb_eq distinct, more, closeFrom]
  simp only [behind]

/-- Only vectors of at most one connection are closed as they should be. -/
theorem closes_all_iff (connList : List ClientConnection)
    (distinct : (connList.map ClientConnection.id).Nodup) :
    ClosesAll connList ↔ connList.length ≤ 1 := by
  constructor
  · rintro ⟨s, returned, _⟩
    by_contra several
    rw [signalCb_outOfRange distinct (by omega)] at returned
    cases returned
  · intro few
    match connList with
    | [] => exact ⟨⟨[], []⟩, rfl, rfl, List.forall_mem_nil _⟩
    | [conn] =>
        have removed : removeConnection conn [conn] = [] := if_pos rfl
        refine ⟨⟨[], [conn]⟩, ?_, rfl, List.forall_mem_singleton.mpr ?_⟩
        · show Outcome.returned ⟨removeConnection conn [conn], [conn]⟩ = _
          rw [removed]
        · exact List.count_singleton_self
    | _ :: _ :: _ => simp at few

/-- One connection. -/
theorem closes_all_iff_singleton : ClosesAll [⟨7, 5⟩] ↔ [(⟨7, 5⟩ : ClientConnection)].length ≤ 1 :=
  closes_all_iff [⟨7, 5⟩] (List.nodup_singleton 7)

/-- Of two connections the second one is left open, and the loop reads behind the end. -/
theorem not_always_closes_all : ¬ ∀ connList : List ClientConnection,
    (connList.map ClientConnection.id).Nodup → ClosesAll connList := by
  intro always
  obtain ⟨s, returned, _⟩ := always [⟨0, 5⟩, ⟨1, 6⟩] (by decide)
  have read : signalCb [⟨0, 5⟩, ⟨1, 6⟩] = .outOfRange ⟨[⟨1, 6⟩], [⟨0, 5⟩]⟩ 1 := by decide
  rw [read] at returned
  cases returned

end ConnectionList
