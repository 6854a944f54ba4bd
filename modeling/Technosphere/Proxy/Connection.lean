import Technosphere.Bytes
import Technosphere.Transition

/-!
# A connection of the proxy

A connection has two bufferevents, one on the socket of the client and one on
that of the server. What is read on either side is moved to the output of the
other one. After an end of file a side is not read any more, and after the
second one both bufferevents are freed, with what their outputs still hold.

`delivers_iff` says exactly when nothing is lost.
-/

namespace Proxy

open Bytes Transition

/-- The two bufferevents of a connection. -/
inductive Side where
  | bevIn
  | bevOut
  deriving DecidableEq, Repr

def Side.counterpart : Side → Side
  | .bevIn => .bevOut
  | .bevOut => .bevIn

@[simp] theorem Side.counterpart_counterpart (bev : Side) : bev.counterpart.counterpart = bev := by
  cases bev <;> rfl

@[simp] theorem Side.counterpart_ne (bev : Side) : bev.counterpart ≠ bev := by
  cases bev <;> decide

@[simp] theorem Side.ne_counterpart (bev : Side) : bev ≠ bev.counterpart :=
  bev.counterpart_ne.symm

/-- There is no third side. -/
theorem Side.eq_or (bev side : Side) : side = bev ∨ side = bev.counterpart := by
  cases bev <;> cases side <;> simp [counterpart]

/-- A bufferevent and its socket: the two buffers, whether `EV_READ` is
enabled, and all bytes that were read from the socket and written to it. -/
structure Bufferevent where
  input : List UInt8
  output : List UInt8
  reading : Bool
  received : List UInt8
  written : List UInt8
  deriving DecidableEq, Repr

/-- `freed` is set when the bufferevents have been freed. -/
structure Connection where
  connectionCounter : Int
  bufferevents : Side → Bufferevent
  freed : Bool

namespace Connection

/-- `establish`, when all of its calls succeed. -/
def established : Connection := ⟨2, fun _ => ⟨[], [], true, [], []⟩, false⟩

def modify (c : Connection) (bev : Side) (f : Bufferevent → Bufferevent) : Connection :=
  { c with bufferevents := Function.update c.bufferevents bev (f (c.bufferevents bev)) }

@[simp] theorem modify_connectionCounter (c : Connection) (bev : Side)
    (f : Bufferevent → Bufferevent) : (c.modify bev f).connectionCounter = c.connectionCounter :=
  rfl

@[simp] theorem modify_freed (c : Connection) (bev : Side) (f : Bufferevent → Bufferevent) :
    (c.modify bev f).freed = c.freed :=
  rfl

@[simp] theorem modify_self (c : Connection) (bev : Side) (f : Bufferevent → Bufferevent) :
    (c.modify bev f).bufferevents bev = f (c.bufferevents bev) :=
  Function.update_self _ _ _

theorem modify_of_ne {bev side : Side} (other : side ≠ bev) (c : Connection)
    (f : Bufferevent → Bufferevent) : (c.modify bev f).bufferevents side = c.bufferevents side :=
  Function.update_of_ne other _ _

@[simp] theorem modify_counterpart (c : Connection) (bev : Side) (f : Bufferevent → Bufferevent) :
    (c.modify bev f).bufferevents bev.counterpart = c.bufferevents bev.counterpart :=
  modify_of_ne bev.counterpart_ne c f

@[simp] theorem modify_counterpart_self (c : Connection) (bev : Side)
    (f : Bufferevent → Bufferevent) :
    (c.modify bev.counterpart f).bufferevents bev = c.bufferevents bev :=
  modify_of_ne bev.ne_counterpart c f

/-- `conn_readcb`: the input becomes the end of the other side's output. -/
def connReadcb (c : Connection) (bev : Side) : Connection :=
  let input := (c.bufferevents bev).input
  let moved := c.modify bev.counterpart fun b => { b with output := b.output ++ input }
  moved.modify bev fun b => { b with input := [] }

/-- `bufferevent_free` on both sides, which discards what their buffers hold. -/
def closeConnection (c : Connection) : Connection where
  connectionCounter := c.connectionCounter
  bufferevents side := { c.bufferevents side with input := [], output := [], reading := false }
  freed := true

/-- `conn_eventcb` for an end of file, and else for an error. -/
def connEventcb (c : Connection) (bev : Side) (eof error : Bool) : Connection :=
  if eof then
    let c := { c with connectionCounter := c.connectionCounter - 1 }
    let c := (c.connReadcb bev).modify bev fun b => { b with reading := false }
    if c.connectionCounter = 0 then c.closeConnection else c
  else if error then c.closeConnection
  else c

end Connection

inductive Act where
  /-- A chunk of bytes is read from the socket of a side. -/
  | receive (bev : Side) (chunk : List UInt8)
  /-- `conn_readcb` is called for a side. -/
  | readable (bev : Side)
  /-- The first `n` bytes of the output of a side are written to its socket. -/
  | write (bev : Side) (n : Nat)
  /-- `conn_eventcb` is called for the end of file of a side. -/
  | eof (bev : Side)

/-- What happens to a connection without errors. A side is not read after its
end of file, and nothing happens after the bufferevents are freed. -/
def step (c : Connection) (a : Act) : Option Connection :=
  if c.freed then none
  else match a with
    | .receive bev chunk =>
      if (c.bufferevents bev).reading then
        some (c.modify bev fun b =>
          { b with input := b.input ++ chunk, received := b.received ++ chunk })
      else none
    | .readable bev =>
      if (c.bufferevents bev).reading then some (c.connReadcb bev) else none
    | .write bev n =>
      if n ≤ (c.bufferevents bev).output.length then
        some (c.modify bev fun b =>
          { b with output := b.output.drop n, written := b.written ++ b.output.take n })
      else none
    | .eof bev =>
      if (c.bufferevents bev).reading then some (c.connEventcb bev true false) else none

/-! ## What the buffers hold -/

/-- Both sides' sockets were sent all that the other side's has received. -/
def Delivered (c : Connection) : Prop :=
  ∀ side : Side, (c.bufferevents side).written = (c.bufferevents side.counterpart).received

/-- Nothing is left in the buffers. -/
def Drained (c : Connection) : Prop :=
  ∀ side : Side, (c.bufferevents side).input = [] ∧ (c.bufferevents side).output = []

/-- The bytes on their way from the socket of a side to that of the other. -/
structure Forwarded (c : Connection) (side : Side) : Prop where
  conserved : (c.bufferevents side.counterpart).written ++
    ((c.bufferevents side.counterpart).output ++ (c.bufferevents side).input) =
      (c.bufferevents side).received
  emptied : (c.bufferevents side).reading = false → (c.bufferevents side).input = []

/-- A side counts until its end of file. -/
def Bufferevent.count (b : Bufferevent) : Int := if b.reading then 1 else 0

structure Running (c : Connection) : Prop where
  forwarded : ∀ side, Forwarded c side
  counted : c.connectionCounter =
    (c.bufferevents .bevIn).count + (c.bufferevents .bevOut).count

theorem running_established : Running Connection.established where
  forwarded _ := ⟨rfl, nofun⟩
  counted := by decide

section Steps

variable {c c' : Connection} {bev : Side}

/-- A fact about both sides, from the side of an event and the other one. -/
theorem both_sides {P : Side → Prop} (bev : Side) (own : P bev) (other : P bev.counterpart)
    (side : Side) : P side := by
  rcases bev.eq_or side with rfl | rfl
  · exact own
  · exact other

/-- Events that end neither side keep the counter right. -/
theorem Running.counted_of (h : Running c) (counter : c'.connectionCounter = c.connectionCounter)
    (same : ∀ side, (c'.bufferevents side).reading = (c.bufferevents side).reading) :
    c'.connectionCounter = (c'.bufferevents .bevIn).count + (c'.bufferevents .bevOut).count := by
  rw [counter, h.counted]
  simp only [Bufferevent.count, same]

theorem Running.receive (h : Running c) (chunk : List UInt8)
    (reading : (c.bufferevents bev).reading = true) :
    Running (c.modify bev fun b =>
      { b with input := b.input ++ chunk, received := b.received ++ chunk }) where
  forwarded := by
    refine both_sides bev ?_ ?_
    · refine ⟨?_, ?_⟩
      · simp [← (h.forwarded bev).conserved]
      · simp [reading]
    · refine ⟨?_, ?_⟩
      · simpa using (h.forwarded bev.counterpart).conserved
      · simpa using (h.forwarded bev.counterpart).emptied
  counted := by
    refine h.counted_of rfl (both_sides bev ?_ ?_)
    · simp
    · simp

theorem Running.readable (h : Running c) (bev : Side) : Running (c.connReadcb bev) where
  forwarded := by
    refine both_sides bev ?_ ?_
    · refine ⟨?_, ?_⟩
      · simp [Connection.connReadcb, ← (h.forwarded bev).conserved]
      · simp [Connection.connReadcb]
    · refine ⟨?_, ?_⟩
      · simpa [Connection.connReadcb] using (h.forwarded bev.counterpart).conserved
      · simpa [Connection.connReadcb] using (h.forwarded bev.counterpart).emptied
  counted := by
    refine h.counted_of rfl (both_sides bev ?_ ?_)
    · simp [Connection.connReadcb]
    · simp [Connection.connReadcb]

theorem Running.write (h : Running c) (bev : Side) (n : Nat) :
    Running (c.modify bev fun b =>
      { b with output := b.output.drop n, written := b.written ++ b.output.take n }) where
  forwarded := by
    refine both_sides bev ?_ ?_
    · refine ⟨?_, ?_⟩
      · simpa using (h.forwarded bev).conserved
      · simpa using (h.forwarded bev).emptied
    · refine ⟨?_, ?_⟩
      · have conserved := (h.forwarded bev.counterpart).conserved
        rw [Side.counterpart_counterpart] at conserved
        simp [← conserved, List.append_assoc, ← List.append_assoc (List.take n _)]
      · simpa using (h.forwarded bev.counterpart).emptied
  counted := by
    refine h.counted_of rfl (both_sides bev ?_ ?_)
    · simp
    · simp

/-- The connection after an end of file, before the counter is tested. -/
def Connection.afterEof (c : Connection) (bev : Side) : Connection :=
  ({ c with connectionCounter := c.connectionCounter - 1 }.connReadcb bev).modify bev fun b =>
    { b with reading := false }

theorem connEventcb_eof (c : Connection) (bev : Side) :
    c.connEventcb bev true false =
      if c.connectionCounter - 1 = 0 then (c.afterEof bev).closeConnection else c.afterEof bev :=
  rfl

theorem Running.afterEof (h : Running c) (reading : (c.bufferevents bev).reading = true) :
    Running (c.afterEof bev) where
  forwarded := by
    refine both_sides bev ?_ ?_
    · refine ⟨?_, ?_⟩
      · simp [Connection.afterEof, Connection.connReadcb, ← (h.forwarded bev).conserved]
      · simp [Connection.afterEof, Connection.connReadcb]
    · refine ⟨?_, ?_⟩
      · simpa [Connection.afterEof, Connection.connReadcb] using
          (h.forwarded bev.counterpart).conserved
      · simpa [Connection.afterEof, Connection.connReadcb] using
          (h.forwarded bev.counterpart).emptied
  counted := by
    have counted := h.counted
    cases bev with
    | bevIn =>
        simp [Connection.afterEof, Connection.connReadcb, Connection.modify, Side.counterpart,
          Bufferevent.count, reading] at counted ⊢
        omega
    | bevOut =>
        simp [Connection.afterEof, Connection.connReadcb, Connection.modify, Side.counterpart,
          Bufferevent.count, reading] at counted ⊢
        omega

/-- The counter is 1 exactly when the other side has ended. -/
theorem Running.counter_eq (h : Running c) (reading : (c.bufferevents bev).reading = true) :
    c.connectionCounter = 1 ↔ (c.bufferevents bev.counterpart).reading = false := by
  have counted := h.counted
  cases bev with
  | bevIn =>
      show _ ↔ (c.bufferevents .bevOut).reading = false
      cases other : (c.bufferevents .bevOut).reading <;>
        simp [Bufferevent.count, reading, other] at counted <;> simp [counted]
  | bevOut =>
      show _ ↔ (c.bufferevents .bevIn).reading = false
      cases other : (c.bufferevents .bevIn).reading <;>
        simp [Bufferevent.count, reading, other] at counted <;> simp [counted]

/-- While the bufferevents are not freed, the buffers account for all bytes. -/
theorem Running.step {a : Act} (h : Running c) (taken : step c a = some c')
    (open' : c'.freed = false) : Running c' := by
  unfold Proxy.step at taken
  split at taken
  · cases taken
  · cases a with
    | receive bev chunk =>
        obtain ⟨reading, same⟩ := Option.ite_none_right_eq_some.mp taken
        rw [← Option.some.inj same]
        exact h.receive chunk reading
    | readable bev =>
        obtain ⟨_, same⟩ := Option.ite_none_right_eq_some.mp taken
        rw [← Option.some.inj same]
        exact h.readable bev
    | write bev n =>
        obtain ⟨_, same⟩ := Option.ite_none_right_eq_some.mp taken
        rw [← Option.some.inj same]
        exact h.write bev n
    | eof bev =>
        obtain ⟨reading, same⟩ := Option.ite_none_right_eq_some.mp taken
        rw [connEventcb_eof] at same
        split at same
        · rw [← Option.some.inj same] at open'
          cases open'
        · rw [← Option.some.inj same]
          exact h.afterEof reading

theorem of_eof (taken : step c (.eof bev) = some c') :
    (c.bufferevents bev).reading = true ∧ c.connEventcb bev true false = c' := by
  unfold step at taken
  split at taken
  · cases taken
  · obtain ⟨reading, same⟩ := Option.ite_none_right_eq_some.mp taken
    exact ⟨reading, Option.some.inj same⟩

/-- Nothing happens to a connection that is freed. -/
theorem not_freed {a : Act} (taken : step c a = some c') : c.freed = false := by
  by_contra freed
  rw [Bool.not_eq_false] at freed
  simp [step, freed] at taken

/-- The bufferevents are freed by the second end of file only. -/
theorem freed_by {a : Act} (taken : step c a = some c') (freed : c'.freed = true) :
    ∃ bev, a = .eof bev ∧ (c.bufferevents bev).reading = true ∧ c.connectionCounter = 1 ∧
      c' = (c.afterEof bev).closeConnection := by
  unfold Proxy.step at taken
  split at taken
  · cases taken
  · rename_i running
    cases a with
    | eof bev =>
        obtain ⟨reading, same⟩ := Option.ite_none_right_eq_some.mp taken
        rw [connEventcb_eof] at same
        split at same
        · rename_i zero
          exact ⟨bev, rfl, reading, by omega, (Option.some.inj same).symm⟩
        · rw [← Option.some.inj same] at freed
          exact absurd freed running
    | receive | readable | write =>
        obtain ⟨_, same⟩ := Option.ite_none_right_eq_some.mp taken
        rw [← Option.some.inj same] at freed
        exact absurd freed running

/-- At the second end of file everything has been delivered exactly when
nothing is left in the buffers. -/
theorem Running.delivered_iff (h : Running c) (reading : (c.bufferevents bev).reading = true)
    (last : c.connectionCounter = 1) :
    Delivered (c.afterEof bev).closeConnection ↔ Drained c := by
  have gone := (h.forwarded bev.counterpart).emptied ((h.counter_eq reading).mp last)
  have own := (h.forwarded bev).conserved
  have other := (h.forwarded bev.counterpart).conserved
  rw [Side.counterpart_counterpart, gone, List.append_nil] at other
  have delivered : Delivered (c.afterEof bev).closeConnection ↔
      (c.bufferevents bev).written = (c.bufferevents bev.counterpart).received ∧
      (c.bufferevents bev.counterpart).written = (c.bufferevents bev).received := by
    constructor
    · intro all
      have first := all bev
      have second := all bev.counterpart
      simp [Connection.closeConnection, Connection.afterEof, Connection.connReadcb] at first second
      exact ⟨first, second⟩
    · rintro ⟨first, second⟩
      refine both_sides bev ?_ ?_
      · simpa [Connection.closeConnection, Connection.afterEof, Connection.connReadcb] using first
      · simpa [Connection.closeConnection, Connection.afterEof, Connection.connReadcb] using second
  have drained : Drained c ↔ (c.bufferevents bev).output = [] ∧
      (c.bufferevents bev.counterpart).output ++ (c.bufferevents bev).input = [] := by
    rw [List.append_eq_nil_iff]
    constructor
    · exact fun all => ⟨(all bev).2, (all bev.counterpart).2, (all bev).1⟩
    · exact fun ⟨mine, others, input⟩ => both_sides bev ⟨input, mine⟩ ⟨gone, others⟩
  rw [delivered, drained, ← own, ← other, List.self_eq_append_right, List.self_eq_append_right]

end Steps

/-! ## Whole schedules -/

/-- A connection that is closed by this step has delivered all bytes. -/
def DeliversAll (_ : Connection) (_ : Act) (c' : Connection) : Prop :=
  c'.freed = true → Delivered c'

/-- The second end of file comes when nothing is left in the buffers. -/
def EndsDrained (c : Connection) (a : Act) (_ : Connection) : Prop :=
  ∀ bev, a = .eof bev → c.connectionCounter = 1 → Drained c

/-- In every schedule of a connection, the bytes written to either side at its
end are those received from the other exactly when the second end of file comes
with empty buffers. -/
theorem delivers_iff (acts : List Act) :
    Throughout step DeliversAll acts .established ↔
      Throughout step EndsDrained acts .established := by
  apply throughout_congr (fun c => c.freed = false → Running c) _ _ acts
    fun _ => running_established
  · intro c a c' h taken open'
    exact (h (not_freed taken)).step taken open'
  · intro c a c' h taken
    have running : Running c := h (not_freed taken)
    constructor
    · rintro delivers bev rfl last
      obtain ⟨reading, closes⟩ := of_eof taken
      rw [connEventcb_eof, if_pos (by omega)] at closes
      rw [← closes] at delivers
      exact (running.delivered_iff reading last).mp (delivers rfl)
    · intro drained freed
      obtain ⟨bev, rfl, reading, last, rfl⟩ := freed_by taken freed
      exact (running.delivered_iff reading last).mpr (drained bev rfl last)

/-- A byte from the client, then both ends of file, with nothing written between. -/
def hastyEnd : List Act :=
  [.receive .bevIn [65], .readable .bevIn, .eof .bevIn, .eof .bevOut]

/-- Not everything is always delivered. -/
theorem not_always_delivered : ¬ ∀ acts, Throughout step DeliversAll acts .established := by
  intro always
  obtain ⟨_, rest⟩ := always hastyEnd _ rfl
  obtain ⟨_, rest⟩ := rest _ rfl
  obtain ⟨_, rest⟩ := rest _ rfl
  obtain ⟨delivers, _⟩ := rest _ rfl
  have lost : ([] : List UInt8) = [65] := delivers rfl .bevOut
  cases lost

/-- What was written to a side is a first part of what the other received, at
any time and in order. -/
theorem written_prefix {acts : List Act} {c : Connection}
    (h : Run step Always .established acts c) (side : Side) :
    (c.bufferevents side).written <+: (c.bufferevents side.counterpart).received := by
  have ordered : ∀ {c : Connection}, Running c → ∀ side,
      (c.bufferevents side).written <+: (c.bufferevents side.counterpart).received := by
    intro c running side
    have conserved := (running.forwarded side.counterpart).conserved
    rw [Side.counterpart_counterpart] at conserved
    exact ⟨_, conserved⟩
  have kept : (c.freed = false → Running c) ∧
      ∀ side, (c.bufferevents side).written <+: (c.bufferevents side.counterpart).received := by
    apply h.invariant (fun _ c => (c.freed = false → Running c) ∧
      ∀ side, (c.bufferevents side).written <+: (c.bufferevents side.counterpart).received)
    · exact ⟨fun _ => running_established, ordered running_established⟩
    · rintro _ c a c' ⟨running, _⟩ - taken
      have before := running (not_freed taken)
      refine ⟨before.step taken, ?_⟩
      cases freed : c'.freed with
      | false => exact ordered (before.step taken freed)
      | true =>
          obtain ⟨bev, rfl, reading, _, rfl⟩ := freed_by taken freed
          intro side
          exact ordered (before.afterEof reading) side
  exact kept.2 side

end Proxy
