import Technosphere.Emrakul.MasterProcess

/-!
# Which commands a worker executes

At most one command is under way at any time, and `Flight` lists the four
places it can be at: in the queue, in a worker before and after
`dispatch_message`, and in the queue as a reply. A command whose message has
the master's own type never leaves the first of them.
-/

namespace EmrakulV1

open Bytes SharedMemory Prog Emrakul Transition

/-- The events of one command. -/
def about (t : Nat) (log : List Event) : List Event := log.filter fun e => e.ticket == t

/-- The command was received once, by one of the workers, was dispatched once
by it, and was answered with the message that this dispatch wrote. -/
def ExecutedOnce (log : List Event) (t : Nat) : Prop :=
  ∃ q w table reply table', w ∈ workerIds ∧
    dispatchMessage table q.message = some (reply, table') ∧
    about t log = [.relayed t q, .received t w q.message,
      .dispatched t w table q.message reply, .answered t reply]

section Log

variable {log : List Event} {t : Nat} {e : Event}

theorem about_append_self (h : e.ticket = t) : about t (log ++ [e]) = about t log ++ [e] := by
  simp [about, h]

/-- One more event of the command. -/
theorem about_next {events : List Event} (h : about t log = events) (he : e.ticket = t) :
    about t (log ++ [e]) = events ++ [e] := by
  rw [about_append_self he, h]

theorem about_append_of_ne (h : e.ticket ≠ t) : about t (log ++ [e]) = about t log := by
  simp [about, h]

end Log

/-- What the log says about a command that is over. -/
def Settled (log : List Event) (t : Nat) (q : Query) : Prop :=
  if q.draw % workerProcessesCount = 0 then
    about t log = [.relayed t q, .answered t q.message]
  else
    ∃ w table reply table', w ∈ workerIds ∧
      dispatchMessage table q.message = some (reply, table') ∧
      about t log = [.relayed t q, .received t w q.message,
        .dispatched t w table q.message reply, .answered t reply]

/-- Nothing is known about later commands, and all earlier ones but the awaited
one are over. -/
structure Recorded (tickets : Nat) (awaited : Option Nat) (log : List Event) : Prop where
  fresh : ∀ t, tickets ≤ t → about t log = []
  settled : ∀ t < tickets, awaited ≠ some t → ∃ q, Settled log t q

theorem Settled.append {log : List Event} {t : Nat} {q : Query} {e : Event} (h : Settled log t q)
    (other : e.ticket ≠ t) : Settled (log ++ [e]) t q := by
  rw [Settled, about_append_of_ne other]
  exact h

namespace Recorded

variable {tickets t : Nat} {log : List Event} {e : Event}

theorem relay (h : Recorded tickets none log) (he : e.ticket = tickets) :
    Recorded (tickets + 1) (some tickets) (log ++ [e]) where
  fresh t ht := by
    rw [about_append_of_ne (by omega), h.fresh t (by omega)]
  settled t ht hne := by
    have other : tickets ≠ t := fun same => hne (congrArg some same)
    obtain ⟨q, settled⟩ := h.settled t (by omega) (by simp)
    exact ⟨q, settled.append (by omega)⟩

theorem progress (h : Recorded tickets (some t) log) (ht : t < tickets) (he : e.ticket = t) :
    Recorded tickets (some t) (log ++ [e]) where
  fresh t' ht' := by
    rw [about_append_of_ne (by omega), h.fresh t' ht']
  settled t' ht' hne := by
    obtain ⟨q, settled⟩ := h.settled t' ht' hne
    exact ⟨q, settled.append fun same => hne (congrArg some (he.symm.trans same))⟩

theorem settle {q : Query} (h : Recorded tickets (some t) log) (ht : t < tickets)
    (he : e.ticket = t) (ended : Settled (log ++ [e]) t q) :
    Recorded tickets none (log ++ [e]) where
  fresh := (h.progress ht he).fresh
  settled t' ht' _ := by
    by_cases same : t' = t
    · exact ⟨q, same ▸ ended⟩
    · exact (h.progress ht he).settled t' ht' fun e => same (Option.some.inj e).symm

end Recorded

/-! ## Where a command is -/

/-- The places of the command with ticket `t`, numbered by the steps that are
left at most. `table` is the table before it is executed. -/
inductive Flight (table : Memory) (q : Query) (t : Nat) (s : State) : Nat → Prop where
  | requested : s.queue = [(t, q.message)] → (∀ w, s.workers w = .waiting) → s.table = table →
      about t s.log = [.relayed t q] → Flight table q t s 4
  | received {w} : w ∈ workerIds → q.draw % workerProcessesCount ≠ 0 → s.queue = [] →
      s.workers w = .received t q.message → (∀ w', w' ≠ w → s.workers w' = .waiting) →
      s.table = table → about t s.log = [.relayed t q, .received t w q.message] →
      Flight table q t s 3
  | dispatched {w reply} : w ∈ workerIds → q.draw % workerProcessesCount ≠ 0 → s.queue = [] →
      s.workers w = .answering t reply → (∀ w', w' ≠ w → s.workers w' = .waiting) →
      dispatchMessage table q.message = some (reply, s.table) →
      about t s.log = [.relayed t q, .received t w q.message,
        .dispatched t w table q.message reply] →
      Flight table q t s 2
  | replied {w reply} : w ∈ workerIds → q.draw % workerProcessesCount ≠ 0 →
      s.queue = [(t, reply)] → (∀ w', s.workers w' = .waiting) →
      dispatchMessage table q.message = some (reply, s.table) →
      about t s.log = [.relayed t q, .received t w q.message,
        .dispatched t w table q.message reply] →
      Flight table q t s 1

/-- The master is in its event loop and has answered all `queries`. -/
structure Idle (table : Memory) (queries : List Query) (s : State) : Prop where
  awaited : s.awaited = none
  queue : s.queue = []
  workers : ∀ w, s.workers w = .waiting
  answers : (s.sent, s.table) = sequential table queries
  recorded : Recorded s.tickets none s.log

/-- The master has answered all `queries` and waits for the answer to `q`. -/
structure Busy (table : Memory) (queries : List Query) (q : Query) (t left : Nat) (s : State) :
    Prop where
  awaited : s.awaited = some t
  issued : t < s.tickets
  relayed : q.command.operation ≠ .none
  sent : s.sent = (sequential table queries).1
  flight : Flight (sequential table queries).2 q t s left
  recorded : Recorded s.tickets (some t) s.log

theorem reply_mtype {table table' : Memory} {msg reply : CommandMessage}
    (h : dispatchMessage table msg = some (reply, table')) : reply.mtype = masterMsgtype := by
  unfold dispatchMessage at h
  split at h <;> cases h <;> rfl

theorem sequential_append {table : Memory} {queries : List Query} {q : Query}
    {r : Nat × List UInt8} {table' : Memory}
    (h : executeQuery (sequential table queries).2 q = some (r, table')) :
    sequential table (queries ++ [q]) = ((sequential table queries).1 ++ [r], table') := by
  rw [sequential] at h ⊢
  rw [List.foldl_append, List.foldl_cons, List.foldl_nil, h]
  rfl

theorem mtype_eq_master {q : Query} :
    q.message.mtype = masterMsgtype ↔ q.draw % workerProcessesCount = 0 := by
  simp only [Query.message, masterMsgtype]
  omega

/-- A number that is not divisible draws one of the workers. -/
theorem mtype_mem_workerIds {q : Query} (drawn : q.draw % workerProcessesCount ≠ 0) :
    q.message.mtype ∈ workerIds := by
  have : q.draw % workerProcessesCount < workerProcessesCount := Nat.mod_lt _ (by decide)
  rw [mem_workerIds]
  show 2 ≤ 1 + q.draw % workerProcessesCount ∧ 1 + q.draw % workerProcessesCount < _
  omega

/-! ## Steps -/

section Possible

variable {s : State} {t w : Nat} {m : Nat × CommandMessage}

theorem step_query {q : Query} (free : s.awaited = none) (relayed : q.command.operation ≠ .none) :
    step s (.query q) = some { s with queue := s.queue ++ [(s.tickets, q.message)],
                                      awaited := some s.tickets, tickets := s.tickets + 1,
                                      log := s.log ++ [.relayed s.tickets q] } := by
  simp only [step, free, Option.isSome_none, Bool.false_eq_true, if_false, if_neg relayed]

theorem step_receive (inside : w ∈ workerIds) (free : s.workers w = .waiting)
    (hq : s.queue = [m]) (same : m.2.mtype = w) :
    step s (.receive w) = some { s with queue := [],
                                        workers := Function.update s.workers w (.received m.1 m.2),
                                        log := s.log ++ [.received m.1 w m.2] } := by
  simp only [step, inside, decide_true, free, hq, msgrcv_singleton, same, if_true]

theorem step_dispatch {msg reply : CommandMessage} {table : Memory}
    (here : s.workers w = .received t msg)
    (executed : dispatchMessage s.table msg = some (reply, table)) :
    step s (.dispatch w) = some { s with
      workers := Function.update s.workers w (.answering t reply)
      table := table
      log := s.log ++ [.dispatched t w s.table msg reply] } := by
  simp only [step, here, executed]

theorem step_reply {reply : CommandMessage} (here : s.workers w = .answering t reply) :
    step s (.reply w) = some { s with queue := s.queue ++ [(t, reply)],
                                      workers := Function.update s.workers w .waiting } := by
  simp only [step, here]

theorem step_answer (awaited : s.awaited = some t) (hq : s.queue = [m])
    (own : m.2.mtype = masterMsgtype) :
    step s .answer = some { s with queue := [], awaited := none,
                                   sent := s.sent ++
                                    [(m.2.targetConnectionId, processResponse m.2)],
                                   log := s.log ++ [.answered m.1 m.2] } := by
  simp only [step, awaited, hq, msgrcv_singleton, own, if_true]

end Possible

section Steps

variable {table : Memory} {done : List Query} {q : Query} {s s' : State} {a : Act} {t left : Nat}

theorem Idle.step (h : Idle table done s) (taken : step s a = some s') :
    ∃ q, a = .query q ∧ ((s'.tickets = s.tickets ∧ Idle table (done ++ [q]) s') ∨
      (s'.tickets = s.tickets + 1 ∧ Busy table done q s.tickets 4 s')) := by
  cases a with
  | query q =>
      refine ⟨q, rfl, ?_⟩
      simp only [EmrakulV1.step, h.awaited, Option.isSome_none, Bool.false_eq_true, if_false]
        at taken
      have now := Prod.ext_iff.mp h.answers
      split at taken
      · rename_i invalid
        cases taken
        have answer : executeQuery (sequential table done).2 q =
            some ((q.connection, invalidCommand), (sequential table done).2) := if_pos invalid
        refine Or.inl ⟨rfl, rfl, h.queue, h.workers, ?_, h.recorded⟩
        rw [sequential_append answer, ← now.1, ← now.2]
      · rename_i relayed
        cases taken
        refine Or.inr ⟨rfl, rfl, Nat.lt_succ_self _, relayed, now.1, ?_, h.recorded.relay rfl⟩
        refine .requested ?_ h.workers now.2 ?_
        · exact congrArg (· ++ [(s.tickets, q.message)]) h.queue
        · exact about_next (h.recorded.fresh _ (Nat.le_refl _)) rfl
  | receive w =>
      simp only [EmrakulV1.step, h.queue, msgrcv_nil] at taken
      split at taken <;> simp_all
  | dispatch w =>
      simp only [EmrakulV1.step, h.workers w] at taken
      cases taken
  | reply w =>
      simp only [EmrakulV1.step, h.workers w] at taken
      cases taken
  | answer =>
      simp only [EmrakulV1.step, h.awaited] at taken
      cases taken

/-- What a worker takes from a queue with one message. -/
theorem of_receive {w : Nat} {m : Nat × CommandMessage} (hq : s.queue = [m])
    (taken : step s (.receive w) = some s') :
    w ∈ workerIds ∧ m.2.mtype = w ∧
      s' = { s with queue := [], workers := Function.update s.workers w (.received m.1 m.2),
                    log := s.log ++ [.received m.1 w m.2] } := by
  simp only [step, hq, msgrcv_singleton] at taken
  split at taken
  · rename_i inside _ found
    split at found
    · rename_i same
      cases found
      cases taken
      exact ⟨of_decide_eq_true inside, same, rfl⟩
    · cases found
  · cases taken

/-- What the master takes from a queue with one message. -/
theorem of_answer {m : Nat × CommandMessage} (hq : s.queue = [m])
    (taken : step s .answer = some s') :
    m.2.mtype = masterMsgtype ∧
      s' = { s with queue := [], awaited := none,
                    sent := s.sent ++ [(m.2.targetConnectionId, processResponse m.2)],
                    log := s.log ++ [.answered m.1 m.2] } := by
  simp only [step, hq, msgrcv_singleton] at taken
  split at taken
  · rename_i found
    split at found
    · rename_i same
      cases found
      cases taken
      exact ⟨same, rfl⟩
    · cases found
  · cases taken

theorem not_received_of_nil {w : Nat} (hq : s.queue = []) : step s (.receive w) = none := by
  simp only [step, hq, msgrcv_nil]
  split
  · simp_all
  · rfl

theorem not_answered_of_nil (hq : s.queue = []) : step s .answer = none := by
  simp only [step, hq, msgrcv_nil]
  cases s.awaited <;> rfl

/-- A worker dispatches the message that it has received. -/
theorem of_dispatch {w : Nat} (taken : step s (.dispatch w) = some s') :
    ∃ t msg, s.workers w = .received t msg ∧ ∀ reply table,
      dispatchMessage s.table msg = some (reply, table) →
        s' = { s with workers := Function.update s.workers w (.answering t reply), table := table,
                      log := s.log ++ [.dispatched t w s.table msg reply] } := by
  cases here : s.workers w with
  | received t msg =>
      refine ⟨t, msg, rfl, fun reply table executed => ?_⟩
      rw [step_dispatch here executed] at taken
      exact (Option.some.inj taken).symm
  | waiting | answering | stopped =>
      simp only [step, here] at taken
      cases taken

/-- A worker sends the reply that it has written. -/
theorem of_reply {w : Nat} (taken : step s (.reply w) = some s') :
    ∃ t reply, s.workers w = .answering t reply ∧
      s' = { s with queue := s.queue ++ [(t, reply)],
                    workers := Function.update s.workers w .waiting } := by
  cases here : s.workers w with
  | answering t reply =>
      rw [step_reply here] at taken
      exact ⟨t, reply, rfl, (Option.some.inj taken).symm⟩
  | waiting | received | stopped =>
      simp only [step, here] at taken
      cases taken

/-- Only one worker is not waiting. -/
theorem eq_of_not_waiting {w w₀ : Nat} (waiting : ∀ w, w ≠ w₀ → s.workers w = .waiting)
    {state : Worker} (here : s.workers w = state) (busy : state ≠ .waiting) : w = w₀ := by
  by_contra e
  exact busy (here.symm.trans (waiting w e))

/-- While a command is under way, only its own message is received. -/
theorem Busy.receive {w : Nat} (h : Busy table done q t left s)
    (taken : EmrakulV1.step s (.receive w) = some s') :
    s'.tickets = s.tickets ∧ ∃ left' < left, Busy table done q t left' s' := by
  cases h.flight with
  | requested hq waiting htable events =>
      obtain ⟨inside, same, rfl⟩ := of_receive hq taken
      refine ⟨rfl, 3, by decide, h.awaited, h.issued, h.relayed, h.sent, ?_,
        h.recorded.progress h.issued rfl⟩
      refine .received inside ?_ rfl (Function.update_self _ _ _) ?_ htable
        (about_next events rfl)
      · intro none
        rw [mtype_eq_master.mpr none] at same
        rw [mem_workerIds, ← same] at inside
        exact absurd inside.1 (by decide)
      · intro w' hne
        exact (Function.update_of_ne hne _ _).trans (waiting w')
  | received _ _ hq => exact absurd taken (by simp [not_received_of_nil hq])
  | dispatched _ _ hq => exact absurd taken (by simp [not_received_of_nil hq])
  | replied _ _ hq _ executed =>
      obtain ⟨inside, same, _⟩ := of_receive hq taken
      rw [reply_mtype executed] at same
      rw [mem_workerIds, ← same] at inside
      exact absurd inside.1 (by decide)

theorem Busy.dispatch {w : Nat} (h : Busy table done q t left s)
    (taken : EmrakulV1.step s (.dispatch w) = some s') :
    s'.tickets = s.tickets ∧ ∃ left' < left, Busy table done q t left' s' := by
  obtain ⟨t', msg, holds, dispatched⟩ := of_dispatch taken
  cases h.flight with
  | requested _ waiting => cases holds.symm.trans (waiting w)
  | received inside drawn hq here waiting htable events =>
      obtain rfl := eq_of_not_waiting waiting holds Worker.noConfusion
      cases holds.symm.trans here
      obtain ⟨reply, table', executed⟩ := dispatchMessage_isSome s.table q
      obtain rfl := dispatched reply table' executed
      refine ⟨rfl, 2, by decide, h.awaited, h.issued, h.relayed, h.sent, ?_,
        h.recorded.progress h.issued rfl⟩
      rw [htable] at executed
      refine .dispatched inside drawn hq (Function.update_self _ _ _) ?_ executed ?_
      · intro w' hne
        exact (Function.update_of_ne hne _ _).trans (waiting w' hne)
      · rw [← htable]
        exact about_next events rfl
  | dispatched _ _ _ here waiting =>
      obtain rfl := eq_of_not_waiting waiting holds Worker.noConfusion
      cases holds.symm.trans here
  | replied _ _ _ waiting => cases holds.symm.trans (waiting w)

theorem Busy.reply {w : Nat} (h : Busy table done q t left s)
    (taken : EmrakulV1.step s (.reply w) = some s') :
    s'.tickets = s.tickets ∧ ∃ left' < left, Busy table done q t left' s' := by
  obtain ⟨t', reply, holds, rfl⟩ := of_reply taken
  cases h.flight with
  | requested _ waiting => cases holds.symm.trans (waiting w)
  | received _ _ _ here waiting =>
      obtain rfl := eq_of_not_waiting waiting holds Worker.noConfusion
      cases holds.symm.trans here
  | dispatched inside drawn hq here waiting executed events =>
      obtain rfl := eq_of_not_waiting waiting holds Worker.noConfusion
      cases holds.symm.trans here
      refine ⟨rfl, 1, by decide, h.awaited, h.issued, h.relayed, h.sent, ?_, h.recorded⟩
      refine .replied inside drawn (congrArg (· ++ [(t, reply)]) hq) ?_ executed events
      intro w'
      by_cases e : w' = w
      · rw [e]
        exact Function.update_self _ _ _
      · exact (Function.update_of_ne e _ _).trans (waiting w' e)
  | replied _ _ _ waiting => cases holds.symm.trans (waiting w)

/-- The answer is the one that a whole call of `execute_query` gives. -/
theorem Busy.answer (h : Busy table done q t left s)
    (taken : EmrakulV1.step s .answer = some s') :
    s'.tickets = s.tickets ∧ Idle table (done ++ [q]) s' := by
  cases h.flight with
  | requested hq waiting htable events =>
      obtain ⟨own, rfl⟩ := of_answer hq taken
      have answer : executeQuery (sequential table done).2 q =
          some ((q.connection, processResponse q.message), (sequential table done).2) := by
        rw [executeQuery, if_neg h.relayed, if_pos own]
      refine ⟨rfl, rfl, rfl, waiting, ?_, ?_⟩
      · rw [sequential_append answer]
        exact Prod.ext (congrArg (· ++ _) h.sent) htable
      · apply h.recorded.settle (q := q) h.issued rfl
        rw [Settled, if_pos (mtype_eq_master.mp own)]
        exact about_next events rfl
  | received _ _ hq => exact absurd taken (by simp [not_answered_of_nil hq])
  | dispatched _ _ hq => exact absurd taken (by simp [not_answered_of_nil hq])
  | @replied w reply inside drawn hq waiting executed events =>
      obtain ⟨_, rfl⟩ := of_answer hq taken
      have answer : executeQuery (sequential table done).2 q =
          some ((reply.targetConnectionId, processResponse reply), s.table) := by
        rw [executeQuery, if_neg h.relayed, if_neg (mt mtype_eq_master.mp drawn), executed]
        rfl
      refine ⟨rfl, rfl, rfl, waiting, ?_, ?_⟩
      · rw [sequential_append answer]
        exact Prod.ext (congrArg (· ++ _) h.sent) rfl
      · apply h.recorded.settle (q := q) h.issued rfl
        rw [Settled, if_neg drawn]
        exact ⟨w, _, reply, _, inside, executed, about_next events rfl⟩

theorem Busy.step (h : Busy table done q t left s) (taken : step s a = some s') :
    queries [a] = [] ∧ s'.tickets = s.tickets ∧ (Idle table (done ++ [q]) s' ∨
      ∃ left' < left, Busy table done q t left' s') := by
  cases a with
  | query q' =>
      simp only [EmrakulV1.step, h.awaited, Option.isSome_some, if_true] at taken
      cases taken
  | receive w => exact ⟨rfl, (h.receive taken).imp_right Or.inr⟩
  | dispatch w => exact ⟨rfl, (h.dispatch taken).imp_right Or.inr⟩
  | reply w => exact ⟨rfl, (h.reply taken).imp_right Or.inr⟩
  | answer => exact ⟨rfl, (h.answer taken).imp_right Or.inl⟩

/-- Whoever holds the command can take a step. -/
theorem Busy.enabled (h : Busy table done q t left s) : ∃ a s', EmrakulV1.step s a = some s' := by
  cases h.flight with
  | requested hq waiting =>
      by_cases drawn : q.draw % workerProcessesCount = 0
      · exact ⟨_, _, step_answer h.awaited hq (mtype_eq_master.mpr drawn)⟩
      · exact ⟨_, _, step_receive (mtype_mem_workerIds drawn) (waiting _) hq rfl⟩
  | received _ _ _ here =>
      obtain ⟨reply, table', executed⟩ := dispatchMessage_isSome s.table q
      exact ⟨_, _, step_dispatch here executed⟩
  | dispatched _ _ _ here => exact ⟨_, _, step_reply here⟩
  | replied _ _ hq _ executed => exact ⟨_, _, step_answer h.awaited hq (reply_mtype executed)⟩

theorem Busy.left_bounds (h : Busy table done q t left s) : 1 ≤ left ∧ left ≤ 4 := by
  cases h.flight <;> decide

end Steps

/-! ## Runs -/

section Runs

variable {table : Memory} {acts acts' : List Act} {s s' : State}

theorem idle_start (table : Memory) : Idle table [] (start table) where
  awaited := rfl
  queue := rfl
  workers _ := rfl
  answers := rfl
  recorded := ⟨fun _ _ => rfl, fun t ht => absurd ht (Nat.not_lt_zero t)⟩

theorem queries_append (acts acts' : List Act) :
    queries (acts ++ acts') = queries acts ++ queries acts' :=
  List.filterMap_append

/-- In every run the master is idle or waits for one command. -/
theorem idle_or_busy (ran : Run step Always (start table) acts s) :
    Idle table (queries acts) s ∨
      ∃ done q t left, queries acts = done ++ [q] ∧ Busy table done q t left s := by
  refine ran.invariant (fun acts s => Idle table (queries acts) s ∨
    ∃ done q t left, queries acts = done ++ [q] ∧ Busy table done q t left s)
    (Or.inl (idle_start table)) ?_
  rintro acts u a u' (idle | ⟨done, q, t, left, asked, busy⟩) _ taken
  · obtain ⟨q, rfl, ⟨_, idle'⟩ | ⟨_, busy⟩⟩ := idle.step taken
    · rw [queries_append]
      exact Or.inl idle'
    · exact Or.inr ⟨_, q, _, _, queries_append _ _, busy⟩
  · obtain ⟨none, _, idle | ⟨left', _, busy'⟩⟩ := busy.step taken
    · rw [queries_append, none, List.append_nil, asked]
      exact Or.inl idle
    · refine Or.inr ⟨done, q, t, left', ?_, busy'⟩
      rw [queries_append, none, List.append_nil, asked]

theorem recorded_of_run (ran : Run step Always (start table) acts s) :
    Recorded s.tickets s.awaited s.log := by
  rcases idle_or_busy ran with idle | ⟨_, _, _, _, _, busy⟩
  · rw [idle.awaited]
    exact idle.recorded
  · rw [busy.awaited]
    exact busy.recorded

/-- What clients are sent, and the table, are those of the queries executed one
after another, whatever the order of the steps was. -/
theorem responses_sequential (ran : Run step Always (start table) acts s)
    (ended : s.awaited = none) : (s.sent, s.table) = sequential table (queries acts) := by
  rcases idle_or_busy ran with idle | ⟨_, _, _, _, _, busy⟩
  · exact idle.answers
  · rw [busy.awaited] at ended
    cases ended

theorem Recorded.executedOnce_iff {tickets t : Nat} {awaited : Option Nat} {log : List Event}
    {q : Query} (h : Recorded tickets awaited log) (relayed : .relayed t q ∈ log)
    (ended : awaited ≠ some t) : ExecutedOnce log t ↔ q.draw % workerProcessesCount ≠ 0 := by
  have mem : .relayed t q ∈ about t log := List.mem_filter.mpr ⟨relayed, by simp [Event.ticket]⟩
  have issued : t < tickets := by
    by_contra late
    rw [h.fresh t (by omega)] at mem
    cases mem
  obtain ⟨q', settled⟩ := h.settled t issued ended
  by_cases drawn : q'.draw % workerProcessesCount = 0
  · rw [Settled, if_pos drawn] at settled
    have same : q = q' := by simpa [settled] using mem
    refine iff_of_false ?_ (by simp [same, drawn])
    rintro ⟨_, _, _, _, _, _, _, events⟩
    have lengths := congrArg List.length (events.symm.trans settled)
    simp at lengths
  · rw [Settled, if_neg drawn] at settled
    have same : q = q' := by
      obtain ⟨_, _, _, _, _, _, events⟩ := settled
      simpa [events] using mem
    exact iff_of_true ⟨q', settled⟩ (by rwa [same])

/-- The wait for an answer ends after as many steps as are left. -/
theorem Busy.wait_bounded {done : List Query} {q : Query} {t left : Nat}
    (h : Busy table done q t left s) (ran : Run EmrakulV1.step Always s acts s')
    (enough : left ≤ acts.length) : s'.awaited ≠ some t := by
  have traced : (∃ left', left' + acts.length ≤ left ∧ Busy table done q t left' s') ∨
      (t < s'.tickets ∧ ((∃ d, Idle table d s') ∨
        ∃ d q' t' left', t' ≠ t ∧ Busy table d q' t' left' s')) := by
    refine ran.invariant (fun acts u =>
      (∃ left', left' + acts.length ≤ left ∧ Busy table done q t left' u) ∨
      (t < u.tickets ∧ ((∃ d, Idle table d u) ∨
        ∃ d q' t' left', t' ≠ t ∧ Busy table d q' t' left' u)))
      (Or.inl ⟨left, Nat.le_refl _, h⟩) ?_
    rintro acts u a u' (⟨left', bound, busy⟩ | ⟨issued, ⟨d, idle⟩ | ⟨d, q', t', left', hne, busy⟩⟩)
      _ taken
    · obtain ⟨_, tickets, idle | ⟨left'', less, busy'⟩⟩ := busy.step taken
      · exact Or.inr ⟨by rw [tickets]; exact busy.issued, Or.inl ⟨_, idle⟩⟩
      · refine Or.inl ⟨left'', ?_, busy'⟩
        rw [List.length_append, List.length_singleton]
        omega
    · obtain ⟨q', _, ⟨tickets, idle'⟩ | ⟨tickets, busy⟩⟩ := idle.step taken
      · exact Or.inr ⟨by omega, Or.inl ⟨_, idle'⟩⟩
      · exact Or.inr ⟨by omega, Or.inr ⟨_, q', _, _, by omega, busy⟩⟩
    · obtain ⟨_, tickets, idle | ⟨left'', _, busy'⟩⟩ := busy.step taken
      · exact Or.inr ⟨by omega, Or.inl ⟨_, idle⟩⟩
      · exact Or.inr ⟨by omega, Or.inr ⟨_, _, _, _, hne, busy'⟩⟩
  rcases traced with ⟨left', bound, busy⟩ | ⟨_, ⟨_, idle⟩ | ⟨_, _, t', _, hne, busy⟩⟩
  · have := busy.left_bounds.1
    omega
  · rw [idle.awaited]
    simp
  · rw [busy.awaited]
    exact fun same => hne (Option.some.inj same)

/-- A relayed command that was answered was executed exactly once by a worker
if and only if the drawn number is not divisible by the number of workers. A
command that is awaited is answered within four steps, and a step is possible. -/
theorem executed_once_iff (ran : Run step Always (start table) acts s) :
    (∀ t q, .relayed t q ∈ s.log → s.awaited ≠ some t →
      (ExecutedOnce s.log t ↔ q.draw % workerProcessesCount ≠ 0)) ∧
    (∀ t, s.awaited = some t → (∃ a s', step s a = some s') ∧
      ∀ acts' s', Run step Always s acts' s' → 4 ≤ acts'.length → s'.awaited ≠ some t) := by
  refine ⟨fun t q relayed ended => (recorded_of_run ran).executedOnce_iff relayed ended, ?_⟩
  intro t awaited
  rcases idle_or_busy ran with idle | ⟨done, q, t', left, _, busy⟩
  · rw [idle.awaited] at awaited
    cases awaited
  · cases busy.awaited.symm.trans awaited
    refine ⟨busy.enabled, fun acts' s' more enough => busy.wait_bounded more ?_⟩
    exact Nat.le_trans busy.left_bounds.2 enough

end Runs

/-! ## A command that a worker executes and one that none does -/

/-- A command whose number draws a worker, and its way through the processes. -/
theorem run_executed (table : Memory) (q : Query) (relayed : q.command.operation ≠ .none)
    (drawn : q.draw % workerProcessesCount ≠ 0) :
    ∃ acts s, Run step Always (start table) acts s ∧ .relayed 0 q ∈ s.log ∧ s.awaited = none := by
  obtain ⟨reply, table', executed⟩ := dispatchMessage_isSome table q
  refine ⟨_, _, .cons trivial (step_query rfl relayed) (.cons trivial
    (step_receive (mtype_mem_workerIds drawn) rfl rfl rfl) (.cons trivial
    (step_dispatch (Function.update_self _ _ _) executed) (.cons trivial
    (step_reply (Function.update_self _ _ _)) (.single trivial
    (step_answer rfl rfl (reply_mtype executed)))))), ?_, rfl⟩
  simp [start]

def delD : UserCommand := interpret (parse (text "del d"))

/-- The theorem about execution at a run with one command. -/
theorem del_executed_once :
    ∃ acts s, Run step Always (start fun _ => 0) acts s ∧ ExecutedOnce s.log 0 := by
  obtain ⟨acts, s, ran, relayed, ended⟩ :=
    run_executed (fun _ => 0) ⟨delD, 0, 1, 0⟩ (by decide) (by decide)
  refine ⟨acts, s, ran, ((executed_once_iff ran).1 0 _ relayed ?_).mpr (by decide)⟩
  rw [ended]
  simp

/-- A command whose number draws the master itself. -/
theorem run_unexecuted (table : Memory) (q : Query) (relayed : q.command.operation ≠ .none)
    (drawn : q.draw % workerProcessesCount = 0) :
    ∃ acts s, Run step Always (start table) acts s ∧ .relayed 0 q ∈ s.log ∧ s.awaited = none := by
  refine ⟨_, _, .cons trivial (step_query rfl relayed) (.single trivial
    (step_answer rfl rfl (mtype_eq_master.mpr drawn))), ?_, rfl⟩
  simp [start]

/-- No worker executes a command for which `rand()` returns 0. -/
theorem del_not_executed :
    ¬ ∀ table acts s, Run step Always (start table) acts s →
      ∀ t q, .relayed t q ∈ s.log → s.awaited ≠ some t → ExecutedOnce s.log t := by
  intro always
  obtain ⟨acts, s, ran, relayed, ended⟩ :=
    run_unexecuted (fun _ => 0) ⟨delD, 0, 0, 0⟩ (by decide) (by decide)
  have ended' : s.awaited ≠ some 0 := by
    rw [ended]
    simp
  have executed := always _ acts s ran 0 _ relayed ended'
  exact absurd rfl (((recorded_of_run ran).executedOnce_iff relayed ended').mp executed)

end EmrakulV1
