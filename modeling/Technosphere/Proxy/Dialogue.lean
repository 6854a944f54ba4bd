import Mathlib.Data.List.Count
import Technosphere.Proxy.Connection
import Technosphere.Proxy.NiServer

/-!
# A client, the proxy and a backend

A client that waits for an answer before it sends its next line is served right,
however the sockets and the proxy cut the streams: the backend's line reader
never meets text behind a newline then. `dialogue_completes` says what such a
client is answered in every interleaving of the three processes.
-/

namespace NiServer

namespace Dialogue

open Bytes Proxy Transition

/-! ## The backend -/

/-- Text without a newline. -/
abbrev Line := { line : List UInt8 // newline ∉ line }

/-- A `Server` and the `client_address` of a connection, as they are printed. -/
structure Backend where
  port : Line
  mainMessage : Line
  clientAddress : Line

/-- What `__process_connection` does with a message. -/
inductive Answer where
  | send (reply : List UInt8)
  | bye
  | stop
  deriving DecidableEq

namespace Backend

def greeting (b : Backend) : List UInt8 := text "Greetings, " ++ b.clientAddress.val ++ text "!\n"

def answer (b : Backend) (msg : List UInt8) : Answer :=
  if (text "Bye").isPrefixOf msg then .bye
  else if (text "STOP").isPrefixOf msg then .stop
  else if (text "Who are you?").isPrefixOf msg then
    .send (text "I'am " ++ b.port.val ++ text " from servers who say \"" ++ b.mainMessage.val ++
      text "!\"\n")
  else .send (b.mainMessage.val ++ text "!\n")

end Backend

/-- A call of `__process_connection`, with the `message` of `__recv_messages` and
all bytes that were received and sent. -/
structure Session where
  message : List UInt8
  received : List UInt8
  sent : List UInt8
  closed : Bool
  stopFlag : Bool

namespace Session

def start (b : Backend) : Session := ⟨[], [], b.greeting, false, false⟩

/-- One `recv`, and what is done with the message that it completes. -/
def recv (b : Backend) (s : Session) (data : Chunk) : Session :=
  let s := { s with received := s.received ++ data.val }
  if newline ∈ data.val then
    let idx := data.val.idxOf newline
    let message := s.message ++ data.val.take idx
    match b.answer message with
    | .send reply =>
      { s with
        message := if (idx : Int) ≠ message.length - 1 then data.val.drop (idx + 1) else []
        sent := s.sent ++ reply }
    | .bye => { s with message := message, closed := true }
    | .stop => { s with message := message, closed := true, stopFlag := true }
  else { s with message := s.message ++ data.val }

variable {b : Backend} {s : Session} {data : Chunk}

theorem recv_of_notMem (h : newline ∉ data.val) : s.recv b data =
    { s with received := s.received ++ data.val, message := s.message ++ data.val } := by
  rw [recv, if_neg h]

/-- With nothing behind the newline the comparison does not matter. -/
theorem recv_of_line {line : List UInt8} (h : newline ∉ line)
    (split : data.val = line ++ [newline]) : s.recv b data =
      match b.answer (s.message ++ line) with
      | .send reply =>
        { s with received := s.received ++ data.val, message := [], sent := s.sent ++ reply }
      | .bye =>
        { s with received := s.received ++ data.val, message := s.message ++ line, closed := true }
      | .stop =>
        { s with
          received := s.received ++ data.val
          message := s.message ++ line
          closed := true
          stopFlag := true } := by
  have found : newline ∈ data.val := by simp [split]
  have idx : data.val.idxOf newline = line.length := by
    rw [split, List.idxOf_append_of_notMem h, List.idxOf_cons_self, Nat.add_zero]
  have before : data.val.take line.length = line := by rw [split, List.take_left]
  have behind : data.val.drop (line.length + 1) = [] := by
    rw [split, List.drop_eq_nil_of_le (by simp)]
  rw [recv, if_pos found]
  simp only [idx, before, behind, ite_self]

end Session

/-- The answers to the messages in front of the first `Bye` or `STOP`. -/
def answers (b : Backend) : List (List UInt8) → List UInt8
  | [] => []
  | msg :: msgs =>
    match b.answer msg with
    | .send reply => reply ++ answers b msgs
    | .bye | .stop => []

/-- Whether one of the messages ends the connection, and if so the server. -/
def ending (b : Backend) : List (List UInt8) → Option Bool
  | [] => none
  | msg :: msgs =>
    match b.answer msg with
    | .send _ => ending b msgs
    | .bye => some false
    | .stop => some true

/-- The session for all chunks; a closed connection is not read any more. -/
def serve (b : Backend) (s : Session) (chunks : List Chunk) : Session :=
  chunks.foldl (fun s data => if s.closed then s else s.recv b data) s

theorem serve_of_closed {b : Backend} {s : Session} (closed : s.closed = true)
    (chunks : List Chunk) : serve b s chunks = s := by
  induction chunks with
  | nil => rfl
  | cons data chunks ih => rw [serve, List.foldl_cons, if_pos closed, ← serve, ih]

/-- A session answers the messages that its reader yields. -/
theorem serve_eq (b : Backend) (chunks : List Chunk) {s : Session} (reading : s.closed = false) :
    (serve b s chunks).sent = s.sent ++ answers b (recvMessages chunks s.message) ∧
      (serve b s chunks).closed = (ending b (recvMessages chunks s.message)).isSome := by
  induction chunks generalizing s with
  | nil => exact ⟨(List.append_nil _).symm, reading⟩
  | cons data chunks ih =>
      have first : serve b s (data :: chunks) = serve b (s.recv b data) chunks := by
        rw [serve, List.foldl_cons, if_neg (by simp [reading]), ← serve]
      rw [first, recvMessages]
      by_cases found : newline ∈ data.val
      · rw [if_pos found]
        cases replied : b.answer (s.message ++ data.val.take (data.val.idxOf newline)) with
        | send reply =>
            have sent : (s.recv b data).sent = s.sent ++ reply := by
              simp [Session.recv, found, replied]
            have message : (s.recv b data).message = if (data.val.idxOf newline : Int) ≠
                (s.message ++ data.val.take (data.val.idxOf newline)).length - 1 then
                  data.val.drop (data.val.idxOf newline + 1) else [] := by
              simp [Session.recv, found, replied]
            have open' : (s.recv b data).closed = false := by
              simp [Session.recv, found, replied, reading]
            obtain ⟨sent', closed'⟩ := ih open'
            rw [sent', closed', sent, message]
            simp [answers, ending, replied]
        | bye =>
            have closed : (s.recv b data).closed = true := by
              simp [Session.recv, found, replied]
            rw [serve_of_closed closed, closed]
            simp [Session.recv, answers, ending, found, replied]
        | stop =>
            have closed : (s.recv b data).closed = true := by
              simp [Session.recv, found, replied]
            rw [serve_of_closed closed, closed]
            simp [Session.recv, answers, ending, found, replied]
      · rw [if_neg found]
        have sent : (s.recv b data).sent = s.sent := by simp [Session.recv, found]
        have message : (s.recv b data).message = s.message ++ data.val := by
          simp [Session.recv, found]
        obtain ⟨sent', closed'⟩ := ih (s := s.recv b data) (by simp [Session.recv, found, reading])
        rw [sent', closed', sent, message]
        exact ⟨rfl, rfl⟩

/-! ## The three processes -/

/-- The lines of the client that it has sent, all bytes that it has sent and
read, the connection of the proxy and the session of the backend. -/
structure System where
  asked : Nat
  sent : List UInt8
  got : List UInt8
  connection : Connection
  session : Session

inductive Act where
  /-- The client sends its next line. -/
  | ask
  /-- The client reads some bytes. -/
  | read (chunk : List UInt8)
  /-- Something happens to the connection of the proxy. -/
  | proxy (a : Proxy.Act)
  /-- `recv` of the backend. -/
  | recv (data : Chunk)

namespace System

def start (b : Backend) : System := ⟨0, [], [], .established, .start b⟩

/-- What the socket of a side gets from its peer, up to now. -/
def incoming (s : System) : Side → List UInt8
  | .bevIn => s.sent
  | .bevOut => s.session.sent

/-- What the peers let happen: a socket delivers what was sent to it in order,
and the end of file behind all of it. Only the backend closes. -/
def Allows (s : System) : Proxy.Act → Prop
  | .receive bev chunk => (s.connection.bufferevents bev).received ++ chunk <+: s.incoming bev
  | .eof bev => bev = .bevOut ∧ s.session.closed = true ∧
      (s.connection.bufferevents bev).received = s.incoming bev
  | .readable _ | .write _ _ => True

instance (s : System) : (a : Proxy.Act) → Decidable (s.Allows a)
  | .receive _ _ => inferInstanceAs (Decidable (_ <+: _))
  | .eof _ => inferInstanceAs (Decidable (_ ∧ _ ∧ _))
  | .readable _ => inferInstanceAs (Decidable True)
  | .write _ _ => inferInstanceAs (Decidable True)

/-- The client sends a line when it has read the greeting and an answer to each
line before. -/
def step (b : Backend) (script : List Line) (s : System) : Act → Option System
  | .ask =>
    match script[s.asked]? with
    | some line =>
      if s.asked + 1 ≤ s.got.count newline then
        some { s with asked := s.asked + 1, sent := s.sent ++ (line.val ++ [newline]) }
      else none
    | none => none
  | .read chunk =>
    if s.got ++ chunk <+: (s.connection.bufferevents .bevIn).written then
      some { s with got := s.got ++ chunk }
    else none
  | .proxy a =>
    if s.Allows a then (Proxy.step s.connection a).map fun c => { s with connection := c } else none
  | .recv data =>
    if s.session.closed = false ∧
        s.session.received ++ data.val <+: (s.connection.bufferevents .bevOut).written then
      some { s with session := s.session.recv b data }
    else none

end System

/-- What the client reads in all. -/
def transcript (b : Backend) (script : List Line) : List UInt8 :=
  b.greeting ++ answers b (script.map Subtype.val)

/-- The lines of the client as it sends them. -/
def asText (script : List Line) : List UInt8 := script.flatMap fun line => line.val ++ [newline]

/-! ## Messages and answers -/

section Answers

variable {b : Backend} {msgs more : List (List UInt8)} {line : Line} {answered rest : List Line}

theorem newline_notMem_text : newline ∉ text "Greetings, " ∧ newline ∉ text "I'am " ∧
    newline ∉ text " from servers who say \"" ∧ (text "!\n").count newline = 1 ∧
      (text "!\"\n").count newline = 1 := by
  decide

theorem count_greeting (b : Backend) : b.greeting.count newline = 1 := by
  obtain ⟨greetings, _, _, last, _⟩ := newline_notMem_text
  rw [Backend.greeting, List.count_append, List.count_append, List.count_eq_zero.mpr greetings,
    List.count_eq_zero.mpr b.clientAddress.2, last]

/-- Every reply is one line. -/
theorem count_reply {msg reply : List UInt8} (h : b.answer msg = .send reply) :
    reply.count newline = 1 := by
  obtain ⟨_, iAm, from', last, last'⟩ := newline_notMem_text
  rw [Backend.answer] at h
  split_ifs at h
  · cases h
    simp only [List.count_append, List.count_eq_zero.mpr iAm, List.count_eq_zero.mpr from',
      List.count_eq_zero.mpr b.port.2, List.count_eq_zero.mpr b.mainMessage.2, last']
  · cases h
    rw [List.count_append, List.count_eq_zero.mpr b.mainMessage.2, last]

theorem answers_append (open' : ending b msgs = none) (more : List (List UInt8)) :
    answers b (msgs ++ more) = answers b msgs ++ answers b more := by
  induction msgs with
  | nil => rfl
  | cons msg msgs ih =>
      cases replied : b.answer msg with
      | send reply =>
          rw [ending, replied] at open'
          simp [answers, replied, ih open']
      | bye | stop => simp [ending, replied] at open'

theorem ending_append (open' : ending b msgs = none) (more : List (List UInt8)) :
    ending b (msgs ++ more) = ending b more := by
  induction msgs with
  | nil => rfl
  | cons msg msgs ih =>
      cases replied : b.answer msg with
      | send reply =>
          rw [ending, replied] at open'
          simp [ending, replied, ih open']
      | bye | stop => simp [ending, replied] at open'

theorem count_answers (open' : ending b msgs = none) :
    (answers b msgs).count newline = msgs.length := by
  induction msgs with
  | nil => rfl
  | cons msg msgs ih =>
      cases replied : b.answer msg with
      | send reply =>
          rw [ending, replied] at open'
          simp only [answers, replied]
          rw [List.count_append, count_reply replied, ih open', List.length_cons, Nat.add_comm]
      | bye | stop => simp [ending, replied] at open'

theorem count_transcript (open' : ending b (answered.map Subtype.val) = none) :
    (transcript b answered).count newline = answered.length + 1 := by
  rw [transcript, List.count_append, count_greeting, count_answers open', List.length_map,
    Nat.add_comm]

/-- What was answered comes first. -/
theorem transcript_append (open' : ending b (answered.map Subtype.val) = none)
    (rest : List Line) : transcript b (answered ++ rest) =
      transcript b answered ++ answers b (rest.map Subtype.val) := by
  rw [transcript, transcript, List.map_append, answers_append open', List.append_assoc]

@[simp] theorem asText_append (answered rest : List Line) :
    asText (answered ++ rest) = asText answered ++ asText rest :=
  List.flatMap_append

@[simp] theorem asText_singleton (line : Line) : asText [line] = line.val ++ [newline] := by
  simp [asText]

/-- A first part of a line that has its newline is the whole line. -/
theorem eq_line_of_prefix {s : List UInt8} (h : s <+: line.val ++ [newline]) (found : newline ∈ s) :
    s = line.val ++ [newline] := by
  obtain shorter | whole := List.prefix_concat_iff.mp h |>.symm
  · exact absurd (shorter.subset found) line.2
  · exact whole

end Answers

/-! ## The connection in between -/

section Between

variable {c c' : Connection} {a : Proxy.Act} {bev side : Side}

/-- What one side has sent so far was received by the other. -/
theorem written_prefix_received (running : Running c) (side : Side) :
    (c.bufferevents side).written <+: (c.bufferevents side.counterpart).received := by
  have conserved := (running.forwarded side.counterpart).conserved
  rw [Side.counterpart_counterpart] at conserved
  exact ⟨_, conserved⟩

/-- What a step makes of a connection that it does not free. -/
inductive Change (c : Connection) : Proxy.Act → Connection → Prop where
  | receive {bev : Side} (chunk : List UInt8) (reading : (c.bufferevents bev).reading = true) :
      Change c (.receive bev chunk) (c.modify bev fun b =>
        { b with input := b.input ++ chunk, received := b.received ++ chunk })
  | readable (bev : Side) : Change c (.readable bev) (c.connReadcb bev)
  | write (bev : Side) {n : Nat} (enough : n ≤ (c.bufferevents bev).output.length) :
      Change c (.write bev n) (c.modify bev fun b =>
        { b with output := b.output.drop n, written := b.written ++ b.output.take n })
  | eof (bev : Side) : Change c (.eof bev) (c.afterEof bev)

theorem change_of_step (taken : Proxy.step c a = some c') (stays : c'.freed = false) :
    Change c a c' := by
  unfold Proxy.step at taken
  rw [if_neg (by simp [not_freed taken])] at taken
  cases a with
  | receive bev chunk =>
      obtain ⟨reading, same⟩ := Option.ite_none_right_eq_some.mp taken
      rw [← Option.some.inj same]
      exact .receive chunk reading
  | readable bev =>
      obtain ⟨_, same⟩ := Option.ite_none_right_eq_some.mp taken
      rw [← Option.some.inj same]
      exact .readable bev
  | write bev n =>
      obtain ⟨enough, same⟩ := Option.ite_none_right_eq_some.mp taken
      rw [← Option.some.inj same]
      exact .write bev enough
  | eof bev =>
      obtain ⟨_, same⟩ := Option.ite_none_right_eq_some.mp taken
      rw [connEventcb_eof] at same
      split at same
      · rw [← Option.some.inj same] at stays
        cases stays
      · rw [← Option.some.inj same]
        exact .eof bev

/-- Bytes are added to what was received and written, and only that. -/
theorem Change.grows (h : Change c a c') (side : Side) :
    (c.bufferevents side).written <+: (c'.bufferevents side).written ∧
      ((c'.bufferevents side).received = (c.bufferevents side).received ∨
        ∃ chunk, a = .receive side chunk ∧
          (c'.bufferevents side).received = (c.bufferevents side).received ++ chunk) := by
  cases h with
  | @receive bev chunk =>
      obtain rfl | rfl := bev.eq_or side
      · exact ⟨by simp, .inr ⟨chunk, rfl, by simp⟩⟩
      · exact ⟨by simp, .inl (by simp)⟩
  | readable bev =>
      obtain rfl | rfl := bev.eq_or side <;> simp [Connection.connReadcb]
  | write bev =>
      obtain rfl | rfl := bev.eq_or side <;> simp
  | eof bev =>
      obtain rfl | rfl := bev.eq_or side <;> simp [Connection.afterEof, Connection.connReadcb]

/-- A side ends by its own end of file only, and is not read any more. -/
theorem Change.ended (h : Change c a c') (ended : (c'.bufferevents side).reading = false) :
    (c'.bufferevents side).received = (c.bufferevents side).received ∧
      (a = .eof side ∨ (c.bufferevents side).reading = false) := by
  cases h with
  | @receive bev chunk reading =>
      obtain rfl | rfl := bev.eq_or side
      · simp [reading] at ended
      · exact ⟨by simp, .inr (by simpa using ended)⟩
  | readable bev =>
      obtain rfl | rfl := bev.eq_or side <;> simpa [Connection.connReadcb] using ended
  | write bev =>
      obtain rfl | rfl := bev.eq_or side <;> simpa using ended
  | eof bev =>
      obtain rfl | rfl := bev.eq_or side
      · simp [Connection.afterEof, Connection.connReadcb]
      · refine ⟨by simp [Connection.afterEof, Connection.connReadcb], .inr ?_⟩
        simpa [Connection.afterEof, Connection.connReadcb] using ended

/-- While the side of the client is read, the bufferevents are freed by its own
end of file only. -/
theorem stays_open (running : Running c) (reading : (c.bufferevents .bevIn).reading = true)
    (taken : Proxy.step c a = some c') (others : a ≠ .eof .bevIn) : c'.freed = false := by
  by_contra freed
  obtain ⟨bev, rfl, last, one, _⟩ := freed_by taken (by simpa using freed)
  cases bev with
  | bevIn => exact others rfl
  | bevOut =>
      have ended := (running.counter_eq last).mp one
      rw [Side.counterpart, reading] at ended
      cases ended

end Between

/-! ## What holds in every state -/

/-- The lines that the backend has answered, and where it is behind them, when
the client has sent some lines. -/
inductive Stage (b : Backend) (script : List Line) (asked : Nat) (s : Session) : Prop where
  /-- It has read a part of the next line, if that was sent. -/
  | reading (answered rest : List Line) : script = answered ++ rest →
      ending b (answered.map Subtype.val) = none → s.closed = false → s.stopFlag = false →
      s.sent = transcript b answered → s.received = asText answered ++ s.message →
      newline ∉ s.message → asked = answered.length ∨ asked = answered.length + 1 →
      Stage b script asked s
  /-- The line behind them was the last one. -/
  | closed (answered rest : List Line) (line : Line) : script = answered ++ line :: rest →
      ending b (answered.map Subtype.val) = none → s.closed = true →
      ending b [line.val] = some s.stopFlag → s.sent = transcript b answered →
      asked = answered.length + 1 → Stage b script asked s

structure Sound (b : Backend) (script : List Line) (s : System) : Prop where
  running : Running s.connection
  here : s.connection.freed = false
  open' : (s.connection.bufferevents .bevIn).reading = true
  asked : s.asked ≤ script.length
  sent : s.sent = asText (script.take s.asked)
  got : s.got <+: (s.connection.bufferevents .bevIn).written
  arrived : ∀ bev, (s.connection.bufferevents bev).received <+: s.incoming bev
  received : s.session.received <+: (s.connection.bufferevents .bevOut).written
  ended : (s.connection.bufferevents .bevOut).reading = false → s.session.closed = true ∧
    (s.connection.bufferevents .bevOut).received = s.session.sent
  stage : Stage b script s.asked s.session

section Invariant

variable {b : Backend} {script : List Line} {s t : System} {a : Act}

theorem Sound.start (b : Backend) (script : List Line) : Sound b script (.start b) where
  running := running_established
  here := rfl
  open' := rfl
  asked := Nat.zero_le _
  sent := rfl
  got := List.prefix_refl _
  arrived _ := List.nil_prefix
  received := List.prefix_refl _
  ended := nofun
  stage := .reading [] script rfl rfl rfl rfl (List.append_nil _).symm rfl List.not_mem_nil
    (.inl rfl)

/-- The client has read a part of what the backend has sent. -/
theorem Sound.got_prefix (h : Sound b script s) : s.got <+: s.session.sent :=
  (h.got.trans (written_prefix_received h.running .bevIn)).trans (h.arrived .bevOut)

/-- The backend has read a part of what the client has sent. -/
theorem Sound.received_prefix (h : Sound b script s) {data : List UInt8}
    (next : s.session.received ++ data <+: (s.connection.bufferevents .bevOut).written) :
    s.session.received ++ data <+: asText (script.take s.asked) := by
  rw [← h.sent]
  exact (next.trans (written_prefix_received h.running .bevOut)).trans (h.arrived .bevIn)

theorem Sound.ask (h : Sound b script s) {line : Line} (next : script[s.asked]? = some line)
    (heard : s.asked + 1 ≤ s.got.count newline) :
    Sound b script { s with asked := s.asked + 1, sent := s.sent ++ (line.val ++ [newline]) } := by
  obtain ⟨inside, _⟩ := List.getElem?_eq_some_iff.mp next
  have counted : s.got.count newline ≤ s.session.sent.count newline :=
    h.got_prefix.sublist.count_le _
  have text : s.sent ++ (line.val ++ [newline]) = asText (script.take (s.asked + 1)) := by
    rw [List.take_add_one, next, Option.toList_some, asText_append, asText_singleton, h.sent]
  refine { h with
    asked := inside
    sent := text
    arrived := fun bev => ?_
    stage := ?_ }
  · cases bev with
    | bevIn => exact (h.arrived .bevIn).trans (List.prefix_append _ _)
    | bevOut => exact h.arrived .bevOut
  · cases h.stage with
    | reading answered rest split all open' going sent received pending asked =>
        rw [sent, count_transcript all] at counted
        have last : s.asked + 1 = answered.length + 1 := by omega
        exact .reading answered rest split all open' going sent received pending (.inr last)
    | closed answered rest line split all closed flag sent asked =>
        rw [sent, count_transcript all] at counted
        omega

/-- What the reader meets is more of the line that was sent last. -/
theorem Stage.more {session : Session} {asked : Nat} (h : Stage b script asked session)
    (reading : session.closed = false) (inside : asked ≤ script.length) {data : Chunk}
    (next : session.received ++ data.val <+: asText (script.take asked)) :
    ∃ answered line rest, script = answered ++ line :: rest ∧
      ending b (answered.map Subtype.val) = none ∧ session.stopFlag = false ∧
      session.sent = transcript b answered ∧ session.received = asText answered ++ session.message ∧
      newline ∉ session.message ∧ asked = answered.length + 1 ∧
      session.message ++ data.val <+: line.val ++ [newline] := by
  cases h with
  | closed _ _ _ _ _ closed =>
      rw [reading] at closed
      cases closed
  | reading answered rest split all _ going sent received pending asked =>
      subst split
      rw [received, List.append_assoc] at next
      obtain rfl | rfl := asked
      · rw [List.take_left] at next
        have short := next.length_le
        have some' := data.2.1
        rw [List.length_append, List.length_append] at short
        omega
      · cases rest with
        | nil =>
            rw [List.append_nil] at inside
            omega
        | cons line rest =>
            have last : (answered ++ line :: rest).take (answered.length + 1) =
                answered ++ [line] := by
              rw [List.take_length_add_append, List.take_one, List.head?_cons, Option.toList_some]
            rw [last, asText_append, asText_singleton, List.prefix_append_right_inj] at next
            exact ⟨answered, line, rest, rfl, all, going, sent, received, pending, rfl, next⟩

/-- The session and its stage after a `recv`. -/
theorem Stage.recv {session : Session} {asked : Nat} (h : Stage b script asked session)
    (reading : session.closed = false) (inside : asked ≤ script.length) {data : Chunk}
    (next : session.received ++ data.val <+: asText (script.take asked)) :
    Stage b script asked (session.recv b data) := by
  obtain ⟨answered, line, rest, split, all, going, sent, received, pending, last, more⟩ :=
    h.more reading inside next
  by_cases found : newline ∈ data.val
  · have whole : session.message ++ data.val = line.val ++ [newline] :=
      eq_line_of_prefix more (List.mem_append_right _ found)
    obtain ⟨piece, behind, cut, before⟩ := List.eq_append_cons_of_mem found
    have unique : session.message ++ piece = line.val ∧ behind = [] := by
      rw [cut, ← List.append_assoc] at whole
      obtain ⟨same, _, nothing⟩ :=
        (List.append_cons_inj_of_notMem line.2 List.not_mem_nil).mp whole.symm
      exact ⟨same.symm, nothing.symm⟩
    obtain ⟨same, rfl⟩ := unique
    have received' : session.received ++ data.val = asText (answered ++ [line]) := by
      rw [received, List.append_assoc, whole, asText_append, asText_singleton]
    rw [Session.recv_of_line before cut, same]
    cases replied : b.answer line.val with
    | send reply =>
        have all' : ending b ((answered ++ [line]).map Subtype.val) = none := by
          rw [List.map_append, ending_append all]
          simp [ending, replied]
        refine .reading (answered ++ [line]) rest (by simp [split]) all' reading going ?_ ?_
          List.not_mem_nil (.inl (by simp [last]))
        · rw [transcript_append all]
          simp [sent, answers, replied]
        · simp [received']
    | bye | stop =>
        exact .closed answered rest line split all rfl (by simp [ending, replied, going]) sent last
  · rw [Session.recv_of_notMem found]
    refine .reading answered (line :: rest) split all reading going sent ?_ ?_ (.inr last)
    · rw [received, List.append_assoc]
    · rw [List.mem_append]
      exact not_or.mpr ⟨pending, found⟩

/-- The backend sends more only. -/
theorem Session.sent_prefix_recv (b : Backend) (s : Session) (data : Chunk) :
    s.sent <+: (s.recv b data).sent := by
  rw [Session.recv]
  split_ifs
  · cases replied : b.answer (s.message ++ data.val.take (data.val.idxOf newline)) with
    | send reply => simp [replied]
    | bye | stop => simp [replied]
  · exact List.prefix_refl _

theorem Session.received_recv (b : Backend) (s : Session) (data : Chunk) :
    (s.recv b data).received = s.received ++ data.val := by
  rw [Session.recv]
  split_ifs
  · cases replied : b.answer (s.message ++ data.val.take (data.val.idxOf newline)) <;>
      simp [replied]
  · rfl

theorem Sound.recv (h : Sound b script s) {data : Chunk} (open' : s.session.closed = false)
    (next : s.session.received ++ data.val <+: (s.connection.bufferevents .bevOut).written) :
    Sound b script { s with session := s.session.recv b data } :=
  { h with
    arrived := fun bev => by
      cases bev with
      | bevIn => exact h.arrived .bevIn
      | bevOut => exact (h.arrived .bevOut).trans (Session.sent_prefix_recv b s.session data)
    received := by
      rw [Session.received_recv]
      exact next
    ended := fun last => by
      have closed := (h.ended last).1
      rw [open'] at closed
      cases closed
    stage := h.stage.recv open' h.asked (h.received_prefix next) }

theorem Sound.proxy (h : Sound b script s) {a : Proxy.Act} {c : Connection} (allowed : s.Allows a)
    (moved : Proxy.step s.connection a = some c) : Sound b script { s with connection := c } := by
  have others : a ≠ .eof .bevIn := by
    rintro rfl
    cases allowed.1
  have here := stays_open h.running h.open' moved others
  have change := change_of_step moved here
  refine { h with
    running := h.running.step moved here
    here := here
    open' := ?_
    got := h.got.trans (change.grows .bevIn).1
    arrived := fun bev => ?_
    received := h.received.trans (change.grows .bevOut).1
    ended := fun last => ?_ }
  · by_contra last
    obtain ⟨_, eof | before⟩ := change.ended ((Bool.not_eq_true _).mp last)
    · exact others eof
    · rw [h.open'] at before
      cases before
  · change (c.bufferevents bev).received <+: s.incoming bev
    obtain same | ⟨chunk, rfl, longer⟩ := (change.grows bev).2
    · rw [same]
      exact h.arrived bev
    · rw [longer]
      exact allowed
  · obtain ⟨same, rfl | before⟩ := change.ended last
    · exact ⟨allowed.2.1, same.trans allowed.2.2⟩
    · exact ⟨(h.ended before).1, same.trans (h.ended before).2⟩

theorem Sound.step (h : Sound b script s) (taken : s.step b script a = some t) :
    Sound b script t := by
  cases a with
  | ask =>
      simp only [System.step] at taken
      split at taken
      · rename_i line next
        obtain ⟨heard, same⟩ := Option.ite_none_right_eq_some.mp taken
        cases same
        exact h.ask next heard
      · cases taken
  | read chunk =>
      obtain ⟨more, same⟩ := Option.ite_none_right_eq_some.mp taken
      cases same
      exact { h with
        got := more
        arrived := fun bev => by cases bev <;> exact h.arrived _
        stage := h.stage }
  | proxy a =>
      obtain ⟨allowed, taken⟩ := Option.ite_none_right_eq_some.mp taken
      obtain ⟨c, moved, rfl⟩ := Option.map_eq_some_iff.mp taken
      exact h.proxy allowed moved
  | recv data =>
      obtain ⟨⟨open', next⟩, same⟩ := Option.ite_none_right_eq_some.mp taken
      cases same
      exact h.recv open' next

end Invariant

/-! ## What the client reads -/

section Outcome

variable {b : Backend} {script : List Line} {s t : System} {a : Act}

theorem Stage.sent_prefix {session : Session} {asked : Nat} (h : Stage b script asked session) :
    session.sent <+: transcript b script := by
  cases h with
  | reading answered rest split all _ _ sent =>
      rw [split, transcript_append all, sent]
      exact List.prefix_append _ _
  | closed answered rest line split all _ _ sent =>
      rw [split, transcript_append all, sent]
      exact List.prefix_append _ _

theorem ending_cons {msg : List UInt8} {msgs : List (List UInt8)} {flag : Bool}
    (last : ending b [msg] = some flag) : ending b (msg :: msgs) = some flag := by
  cases replied : b.answer msg with
  | send reply => simp [ending, replied] at last
  | bye | stop => simpa [ending, replied] using last

theorem answers_cons {msg : List UInt8} {msgs : List (List UInt8)} {flag : Bool}
    (last : ending b [msg] = some flag) : answers b (msg :: msgs) = [] := by
  cases replied : b.answer msg with
  | send reply => simp [ending, replied] at last
  | bye | stop => simp [answers, replied]

/-- A closed session has sent everything. -/
theorem Stage.of_closed {session : Session} {asked : Nat} (h : Stage b script asked session)
    (closed : session.closed = true) : session.sent = transcript b script ∧
      ending b (script.map Subtype.val) = some session.stopFlag := by
  cases h with
  | reading _ _ _ _ reading =>
      rw [closed] at reading
      cases reading
  | closed answered rest line split all _ last sent =>
      rw [split, transcript_append all, List.map_append, ending_append all, List.map_cons,
        answers_cons last, List.append_nil]
      exact ⟨sent, ending_cons last⟩

/-- A session that has nothing more to answer is through with the script. -/
theorem Stage.of_heard {session : Session} {asked : Nat} (h : Stage b script asked session)
    (reading : session.closed = false) (inside : asked ≤ script.length)
    (heard : session.received = asText (script.take asked))
    (quiet : asked + 1 ≤ session.sent.count newline → asked = script.length) :
    session.sent = transcript b script ∧ ending b (script.map Subtype.val) = none := by
  cases h with
  | closed _ _ _ _ _ closed =>
      rw [reading] at closed
      cases closed
  | reading answered rest split all _ _ sent received pending last =>
      obtain rfl | rfl := last
      · have ended := quiet (by rw [sent, count_transcript all])
        have none_left : rest = [] := by
          rw [split, List.length_append] at ended
          exact List.eq_nil_of_length_eq_zero (by omega)
        rw [none_left, List.append_nil] at split
        rw [split]
        exact ⟨sent, all⟩
      · cases rest with
        | nil =>
            rw [split, List.append_nil] at inside
            omega
        | cons line rest =>
            have last : script.take (answered.length + 1) = answered ++ [line] := by
              rw [split, List.take_length_add_append, List.take_one, List.head?_cons,
                Option.toList_some]
            rw [heard, last, asText_append, asText_singleton, List.append_cancel_left_eq]
              at received
            rw [← received] at pending
            simp at pending

/-! ## Progress -/

/-- Steps of the proxy that move something. -/
def Shifts (c : Connection) : Proxy.Act → Prop
  | .receive _ chunk => chunk ≠ []
  | .readable bev => (c.bufferevents bev).input ≠ []
  | .write _ n => 0 < n
  | .eof _ => False

/-- Steps that move something. -/
def Moves (s : System) : Act → Prop
  | .ask | .recv _ => True
  | .read chunk => chunk ≠ []
  | .proxy a => Shifts s.connection a

/-- What is left of the way of the bytes that come in on a side, when there are
`total` of them. -/
def toForward (c : Connection) (side : Side) (total : Nat) : Nat :=
  2 * (total - (c.bufferevents side).received.length) + (c.bufferevents side).input.length +
    (total - (c.bufferevents side.counterpart).written.length)

/-- How many bytes come in on a side in all. -/
def total (b : Backend) (script : List Line) : Side → Nat
  | .bevIn => (asText script).length
  | .bevOut => (transcript b script).length

def toDo (b : Backend) (script : List Line) (s : System) : Nat :=
  (script.length - s.asked) + ((transcript b script).length - s.got.length) +
    ((asText script).length - s.session.received.length) +
      (toForward s.connection .bevIn (total b script .bevIn) +
        toForward s.connection .bevOut (total b script .bevOut))

theorem prefix_asText_take (script : List Line) (n : Nat) :
    asText (script.take n) <+: asText script := by
  conv_rhs => rw [← List.take_append_drop n script, asText_append]
  exact List.prefix_append _ _

theorem Sound.incoming_le (h : Sound b script s) (side : Side) :
    (s.incoming side).length ≤ total b script side := by
  cases side with
  | bevIn =>
      refine List.IsPrefix.length_le ?_
      change s.sent <+: asText script
      rw [h.sent]
      exact prefix_asText_take script s.asked
  | bevOut => exact h.stage.sent_prefix.length_le

theorem Sound.received_le (h : Sound b script s) (side : Side) :
    (s.connection.bufferevents side).received.length ≤ total b script side :=
  (h.arrived side).length_le.trans (h.incoming_le side)

theorem Sound.written_le (h : Sound b script s) (side : Side) :
    (s.connection.bufferevents side.counterpart).written.length ≤ total b script side := by
  have written := written_prefix_received h.running side.counterpart
  rw [Side.counterpart_counterpart] at written
  exact written.length_le.trans (h.received_le side)

/-- Every step of the proxy that moves something shortens the way on one side. -/
theorem toForward_change {c c' : Connection} {a : Proxy.Act} (change : Change c a c')
    (shifts : Shifts c a) (totals : Side → Nat)
    (received : ∀ side, (c'.bufferevents side).received.length ≤ totals side)
    (written : ∀ side, (c'.bufferevents side.counterpart).written.length ≤ totals side) :
    ∃ bev, toForward c' bev (totals bev) < toForward c bev (totals bev) ∧
      toForward c' bev.counterpart (totals bev.counterpart) ≤
        toForward c bev.counterpart (totals bev.counterpart) := by
  cases change with
  | @receive bev chunk =>
      have some' : 0 < chunk.length := List.length_pos_iff.mpr shifts
      have inside := received bev
      refine ⟨bev, ?_, ?_⟩
      · simp [toForward] at inside ⊢
        omega
      · simp [toForward]
  | readable bev =>
      have some' : 0 < (c.bufferevents bev).input.length := List.length_pos_iff.mpr shifts
      refine ⟨bev, ?_, ?_⟩
      · simp [toForward, Connection.connReadcb]
        omega
      · simp [toForward, Connection.connReadcb]
  | @write bev n enough =>
      have some' : 0 < n := shifts
      have inside := written bev.counterpart
      refine ⟨bev.counterpart, ?_, ?_⟩
      · simp [toForward] at inside ⊢
        omega
      · simp [toForward]
  | eof bev => exact shifts.elim

/-- There is less to do after every step that moves something. -/
theorem Sound.toDo_step (h : Sound b script s) (moves : Moves s a)
    (taken : s.step b script a = some t) : toDo b script t < toDo b script s := by
  have after := h.step taken
  cases a with
  | ask =>
      simp only [System.step] at taken
      split at taken
      · obtain ⟨_, same⟩ := Option.ite_none_right_eq_some.mp taken
        cases same
        have inside := after.asked
        simp only [toDo] at inside ⊢
        omega
      · cases taken
  | read chunk =>
      obtain ⟨_, same⟩ := Option.ite_none_right_eq_some.mp taken
      cases same
      have some' : 0 < chunk.length := List.length_pos_iff.mpr moves
      have inside := (after.got_prefix.trans after.stage.sent_prefix).length_le
      simp only [toDo, List.length_append] at inside ⊢
      omega
  | proxy a =>
      obtain ⟨_, taken⟩ := Option.ite_none_right_eq_some.mp taken
      obtain ⟨c, moved, rfl⟩ := Option.map_eq_some_iff.mp taken
      obtain ⟨bev, less, other⟩ :=
        toForward_change (change_of_step moved after.here) moves (total b script)
          after.received_le after.written_le
      simp only [toDo]
      cases bev with
      | bevIn | bevOut =>
          simp only [Side.counterpart] at other
          omega
  | recv data =>
      obtain ⟨⟨reading, next⟩, same⟩ := Option.ite_none_right_eq_some.mp taken
      cases same
      have some' := data.2.1
      have inside := ((h.received_prefix next).trans (prefix_asText_take script s.asked)).length_le
      simp only [toDo, Session.received_recv, List.length_append] at inside ⊢
      omega

/-- Bytes that have not come through the proxy yet can be moved. -/
theorem Sound.forwards (h : Sound b script s) (side : Side)
    (behind : (s.connection.bufferevents side.counterpart).written ≠ s.incoming side) :
    ∃ a t, Moves s a ∧ s.step b script a = some t := by
  have conserved := (h.running.forwarded side).conserved
  have enabled : ∀ {a}, s.Allows a → (Proxy.step s.connection a).isSome → Shifts s.connection a →
      ∃ a t, Moves s a ∧ s.step b script a = some t := by
    intro a allowed possible shifts
    obtain ⟨c, moved⟩ := Option.isSome_iff_exists.mp possible
    exact ⟨.proxy a, { s with connection := c }, shifts, by simp [System.step, allowed, moved]⟩
  have reading : (s.connection.bufferevents side).reading = true ∨
      (s.connection.bufferevents side).received = s.incoming side := by
    cases side with
    | bevIn => exact .inl h.open'
    | bevOut =>
        cases ended : (s.connection.bufferevents .bevOut).reading with
        | true => exact .inl rfl
        | false => exact .inr (h.ended ended).2
  by_cases waiting : (s.connection.bufferevents side.counterpart).output = []
  · by_cases input : (s.connection.bufferevents side).input = []
    · rw [waiting, input, List.append_nil, List.append_nil] at conserved
      obtain ⟨rest, whole⟩ := h.arrived side
      have more : rest ≠ [] := by
        rintro rfl
        rw [List.append_nil] at whole
        exact behind (conserved.trans whole)
      have still := reading.resolve_right fun all => behind (conserved.trans all)
      exact enabled (a := .receive side rest) ⟨[], by rw [List.append_nil, whole]⟩
        (by simp [Proxy.step, h.here, still]) more
    · have still : (s.connection.bufferevents side).reading = true := by
        by_contra ended
        exact input ((h.running.forwarded side).emptied (by simpa using ended))
      exact enabled (a := .readable side) trivial (by simp [Proxy.step, h.here, still]) input
  · exact enabled (a := .write side.counterpart
        (s.connection.bufferevents side.counterpart).output.length) trivial
      (by simp [Proxy.step, h.here]) (List.length_pos_iff.mpr waiting)

/-- The client has read everything, and the backend has closed the connection if
it was told to. -/
def Finished (b : Backend) (script : List Line) (s : System) : Prop :=
  s.got = transcript b script ∧ s.session.closed = (ending b (script.map Subtype.val)).isSome

/-- Until the end something can be moved. -/
theorem Sound.go (h : Sound b script s) (unfinished : ¬ Finished b script s) :
    ∃ a t, Moves s a ∧ s.step b script a = some t := by
  by_contra quiet
  have stuck : ∀ {a}, Moves s a → s.step b script a = none := by
    intro a moves
    by_contra possible
    obtain ⟨t, taken⟩ := Option.ne_none_iff_exists'.mp possible
    exact quiet ⟨a, t, moves, taken⟩
  have fromBackend : (s.connection.bufferevents .bevIn).written = s.session.sent := by
    by_contra behind
    exact quiet (h.forwards .bevOut behind)
  have fromClient : (s.connection.bufferevents .bevOut).written = s.sent := by
    by_contra behind
    exact quiet (h.forwards .bevIn behind)
  have got : s.got = s.session.sent := by
    obtain ⟨rest, whole⟩ := h.got
    by_cases more : rest = []
    · rw [← fromBackend, ← whole, more, List.append_nil]
    · exact absurd (stuck (a := .read rest) more) (by simp [System.step, whole])
  refine unfinished ?_
  cases closed : s.session.closed with
  | true =>
      obtain ⟨sent, last⟩ := h.stage.of_closed closed
      exact ⟨got.trans sent, by rw [closed, last, Option.isSome_some]⟩
  | false =>
      have heard : s.session.received = asText (script.take s.asked) := by
        obtain ⟨rest, whole⟩ := h.received
        by_cases more : rest = []
        · rw [← h.sent, ← fromClient, ← whole, more, List.append_nil]
        · have some' := List.length_pos_iff.mpr more
          have short : 0 < (rest.take chunkSize).length ∧
              (rest.take chunkSize).length ≤ chunkSize := by
            rw [List.length_take, chunkSize]
            omega
          have next : s.session.received ++ rest.take chunkSize <+:
              (s.connection.bufferevents .bevOut).written := by
            rw [← whole, List.prefix_append_right_inj]
            exact List.take_prefix _ _
          exact absurd (stuck (a := .recv ⟨rest.take chunkSize, short⟩) trivial)
            (by simp [System.step, closed, next])
      have asked : s.asked + 1 ≤ s.session.sent.count newline → s.asked = script.length := by
        intro enough
        by_contra more
        have inside : s.asked < script.length := Nat.lt_of_le_of_ne h.asked more
        rw [← got] at enough
        exact absurd (stuck (a := .ask) trivial)
          (by simp [System.step, List.getElem?_eq_getElem inside, enough])
      obtain ⟨sent, last⟩ := h.stage.of_heard closed h.asked heard asked
      exact ⟨got.trans sent, by rw [closed, last, Option.isSome_none]⟩

/-- In every interleaving the client has read a first part of the answers to its
lines, and whatever has happened so far the rest of them can still be read. The
backend stops reading only when a line told it to. -/
theorem dialogue_completes {acts : List Act}
    (ran : Run (System.step b script) Always (.start b) acts s) :
    s.got <+: transcript b script ∧
      (s.session.closed = true → ending b (script.map Subtype.val) = some s.session.stopFlag) ∧
      ∃ more t, Run (System.step b script) Always s more t ∧ Finished b script t := by
  have sound : Sound b script s :=
    ran.invariant (fun _ s => Sound b script s) (.start b script) fun h _ taken => h.step taken
  have completed : ∃ more t, Run (System.step b script) Moves s more t ∧ Finished b script t :=
    Run.completes (Sound b script) (Finished b script) (toDo b script) sound
      (fun h moves taken => ⟨h.step taken, h.toDo_step moves taken⟩) Sound.go
  obtain ⟨more, t, rest, finished⟩ := completed
  exact ⟨sound.got_prefix.trans sound.stage.sent_prefix,
    fun closed => (sound.stage.of_closed closed).2,
    more, t, rest.mono fun _ _ _ => trivial, finished⟩

/-- A server of the `Ni` kind. -/
def ni : Backend where
  port := ⟨text "9000", by decide⟩
  mainMessage := ⟨text "Ni", by decide⟩
  clientAddress := ⟨text "('127.0.0.1', 51000)", by decide⟩

def bye : Line := ⟨text "Bye", by decide⟩

/-- The client reads the greeting and says `Bye`. -/
def takesLeave : List Act :=
  [.proxy (.receive .bevOut ni.greeting), .proxy (.readable .bevOut),
    .proxy (.write .bevIn ni.greeting.length), .read ni.greeting, .ask]

theorem dialogue_completes_bye : ∃ s,
    takesLeave.foldlM (System.step ni [bye]) (.start ni) = some s ∧ s.asked = 1 ∧
      ∃ more t, Run (System.step ni [bye]) Always s more t ∧ t.got = ni.greeting ∧
        t.session.closed = true := by
  have asked :
      (takesLeave.foldlM (System.step ni [bye]) (.start ni)).map System.asked = some 1 := by
    decide
  obtain ⟨s, ran, one⟩ := Option.map_eq_some_iff.mp asked
  obtain ⟨_, _, more, t, rest, got, closed⟩ := dialogue_completes (.of_foldlM ran)
  have nothing : transcript ni [bye] = ni.greeting := by decide
  have ends : (ending ni ([bye].map Subtype.val)).isSome = true := by decide
  exact ⟨s, ran, one, more, t, rest, got.trans nothing, closed.trans ends⟩

end Outcome

end Dialogue

end NiServer
