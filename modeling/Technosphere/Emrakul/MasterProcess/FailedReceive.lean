import Technosphere.Emrakul.MasterProcess.ExactlyOnce

/-!
# When the master fails to receive

`execute_query` returns -1 when its `msgrcv` fails, while the worker still
executes the command and sends its answer. The answers carry nothing that ties
them to a call, so the one that is left in the queue is received by a later
call. `hands_own_iff` says exactly when every call is handed its own answer.

An abandoned command may be executed beside the next one. What the operations
of the table return, and which value `get` copies, is therefore left open here.
-/

namespace EmrakulV1

namespace FailedReceive

open Bytes SharedMemory Emrakul Transition

/-! ## Master and workers -/

/-- A query whose message goes to one of the workers. -/
structure WorkerQuery extends Query where
  live : draw % workerProcessesCount ≠ 0

/-- The message after `dispatch_message`, whose operation returned `status`.
`data` is what `get` leaves in it when it finds the key; nothing is sent back
for a termination. -/
def afterDispatch (msg : CommandMessage) (status : Int) (data : Memory) : Option CommandMessage :=
  match msg.operation with
  | .set | .del => some { msg with mtype := masterMsgtype, status := status }
  | .get =>
    let data := if status = 0 then data else msg.data
    some { msg with mtype := masterMsgtype, status := status, data := data }
  | .term => none
  | .none => some { msg with mtype := masterMsgtype, status := -1 }

/-- On a table that nobody else uses, `dispatch_message` is a case of this. -/
theorem dispatchMessage_eq (table : Memory) (msg : CommandMessage) :
    ∃ status data, (dispatchMessage table msg).map Prod.fst = afterDispatch msg status data := by
  unfold dispatchMessage afterDispatch
  cases msg.operation with
  | set =>
      generalize Prog.exec 0 (HashTableBase.set geometry msg.key msg.value 0) table = r
      exact ⟨r.1, msg.data, rfl⟩
  | get =>
      generalize Prog.exec 0 (HashTableBase.get geometry msg.key msg.value) table = r
      exact ⟨r.1.1, msg.data.writeBytes (keySize + 1) (r.1.2 ++ [0]), rfl⟩
  | del =>
      generalize Prog.exec 0 (HashTableBase.del geometry msg.key) table = r
      exact ⟨r.1, msg.data, rfl⟩
  | term | none => exact ⟨0, msg.data, rfl⟩

theorem afterDispatch_mtype {msg reply : CommandMessage} {status : Int} {data : Memory}
    (h : afterDispatch msg status data = some reply) : reply.mtype = masterMsgtype := by
  unfold afterDispatch at h
  split at h <;> cases h <;> rfl

/-- What happened to the command with the given ticket. -/
inductive Event where
  | relayed (ticket : Nat) (q : Query)
  | dispatched (ticket w : Nat) (msg reply : CommandMessage)
  /-- Its answer was put into the queue. -/
  | arrived (ticket : Nat)
  /-- The call that relayed it returned -1. -/
  | failed (ticket : Nat)

/-- As in `EmrakulV1.State`, but for the table. -/
structure State where
  queue : List (Nat × CommandMessage)
  awaited : Option Nat
  workers : Nat → Worker
  sent : List (Nat × List UInt8)
  tickets : Nat
  log : List Event

inductive Act where
  /-- The master, in its event loop, calls `execute_query`. -/
  | query (q : WorkerQuery)
  /-- A worker receives a message of its type. -/
  | receive (w : Nat)
  /-- A worker calls `dispatch_message`, up to the `msgsnd` in it. -/
  | dispatch (w : Nat) (status : Int) (data : Memory)
  /-- A worker sends its reply. -/
  | reply (w : Nat)
  /-- The `msgrcv` of the master fails. -/
  | fail
  /-- The master receives a message of its type and sends the response. -/
  | answer

def step (s : State) : Act → Option State
  | .query q =>
    if s.awaited.isSome then none
    else if q.command.operation = .none then
      some { s with sent := s.sent ++ [(q.connection, invalidCommand)] }
    else
      some { s with
        queue := s.queue ++ [(s.tickets, q.message)]
        awaited := some s.tickets
        tickets := s.tickets + 1
        log := s.log ++ [.relayed s.tickets q.toQuery] }
  | .receive w =>
    match decide (w ∈ workerIds), s.workers w, msgrcv w s.queue with
    | true, .waiting, some (m, queue) =>
      some { s with
        queue := queue
        workers := Function.update s.workers w (.received m.1 m.2) }
    | _, _, _ => none
  | .dispatch w status data =>
    match s.workers w with
    | .received t msg =>
      match afterDispatch msg status data with
      | some reply =>
        some { s with
          workers := Function.update s.workers w (.answering t reply)
          log := s.log ++ [.dispatched t w msg reply] }
      | none => some { s with workers := Function.update s.workers w .stopped }
    | _ => none
  | .reply w =>
    match s.workers w with
    | .answering t reply =>
      some { s with
        queue := s.queue ++ [(t, reply)]
        workers := Function.update s.workers w .waiting
        log := s.log ++ [.arrived t] }
    | _ => none
  | .fail =>
    match s.awaited with
    | some t => some { s with awaited := none, log := s.log ++ [.failed t] }
    | none => none
  | .answer =>
    match s.awaited, msgrcv masterMsgtype s.queue with
    | some _, some (m, queue) =>
      some { s with
        queue := queue
        awaited := none
        sent := s.sent ++ [(m.2.targetConnectionId, processResponse m.2)] }
    | _, _ => none

/-- The event loop starts on an empty queue, with all workers in `msgrcv`. -/
def start : State := ⟨[], none, fun _ => .waiting, [], 0, []⟩

/-! ## Own answers and others -/

/-- A worker wrote the message when it executed the command with ticket `t`. -/
def AnswerTo (log : List Event) (t : Nat) (reply : CommandMessage) : Prop :=
  ∃ (q : Query) (w : Nat), .relayed t q ∈ log ∧ .dispatched t w q.message reply ∈ log

/-- A message that the step hands to `process_response_from_worker` answers the
command that the same call has relayed. -/
def HandsOwn (s : State) (a : Act) (_ : State) : Prop :=
  ∀ k m rest, a = .answer → s.awaited = some k →
    msgrcv masterMsgtype s.queue = some (m, rest) → m.1 = k ∧ AnswerTo s.log k m.2

/-- The commands whose answers have arrived, in the order in which they did. -/
def arrivals (log : List Event) : List Nat :=
  log.filterMap fun
    | .arrived t => some t
    | _ => none

/-- The answer to a command whose call has failed has arrived, and the answer to
the awaited command not before it. -/
def Overtaken (s : State) : Prop :=
  ∃ before t after, arrivals s.log = before ++ t :: after ∧ .failed t ∈ s.log ∧
    ∀ k, s.awaited = some k → k ∉ before

/-- The step does not receive behind an abandoned answer. -/
def InTurn (s : State) (a : Act) (_ : State) : Prop := a = .answer → ¬ Overtaken s

/-! ## Every ticket is in one place -/

/-- A ticket is in the queue, or a worker holds it. -/
def UnderWay (queue : List Nat) (holds : Nat → Option Nat) (t : Nat) : Prop :=
  t ∈ queue ∨ ∃ w, holds w = some t

/-- Who holds a ticket after a worker changed what it holds. -/
theorem held_update {holds : Nat → Option Nat} {w w' t : Nat} {x : Option Nat}
    (h : Function.update holds w x w' = some t) :
    (w' = w ∧ x = some t) ∨ (w' ≠ w ∧ holds w' = some t) := by
  by_cases same : w' = w
  · rw [same, Function.update_self] at h
    exact Or.inl ⟨same, h⟩
  · rw [Function.update_of_ne same] at h
    exact Or.inr ⟨same, h⟩

theorem UnderWay.of_update {queue : List Nat} {holds : Nat → Option Nat} {w t : Nat}
    {x : Option Nat} (h : UnderWay queue (Function.update holds w x) t) :
    x = some t ∨ UnderWay queue holds t := by
  rcases h with inside | ⟨w', held⟩
  · exact Or.inr (Or.inl inside)
  · rcases held_update held with ⟨_, own⟩ | ⟨_, held⟩
    · exact Or.inl own
    · exact Or.inr (Or.inr ⟨w', held⟩)

structure Unique (queue : List Nat) (holds : Nat → Option Nat) : Prop where
  nodup : queue.Nodup
  apart : ∀ w t, holds w = some t → t ∉ queue
  alone : ∀ w w' t, holds w = some t → holds w' = some t → w = w'

namespace Unique

variable {queue before after : List Nat} {holds : Nat → Option Nat} {t w : Nat}

theorem add (h : Unique queue holds) (fresh : ¬ UnderWay queue holds t) :
    Unique (queue ++ [t]) holds where
  nodup := by
    rw [← List.concat_eq_append, List.nodup_concat]
    exact ⟨fun inside => fresh (Or.inl inside), h.nodup⟩
  apart := by
    intro w t' holding inside
    rcases List.mem_append.mp inside with inside | same
    · exact h.apart w t' holding inside
    · rw [List.mem_singleton.mp same] at holding
      exact fresh (Or.inr ⟨w, holding⟩)
  alone := h.alone

theorem drop (h : Unique (before ++ t :: after) holds) :
    Unique (before ++ after) holds ∧ ¬ UnderWay (before ++ after) holds t := by
  have distinct := List.nodup_cons.mp (List.nodup_middle.mp h.nodup)
  refine ⟨⟨distinct.2, ?_, h.alone⟩, ?_⟩
  · intro w t' holding inside
    apply h.apart w t' holding
    rcases List.mem_append.mp inside with front | back
    · exact List.mem_append_left _ front
    · exact List.mem_append_right _ (List.mem_cons_of_mem _ back)
  · rintro (inside | ⟨w, holding⟩)
    · exact distinct.1 inside
    · exact h.apart w t holding (by simp)

theorem release (h : Unique queue holds) (w : Nat) :
    Unique queue (Function.update holds w none) := by
  have held : ∀ w' t', Function.update holds w none w' = some t' → holds w' = some t' := by
    intro w' t' holding
    obtain ⟨_, none⟩ | ⟨_, holding⟩ := held_update holding
    · cases none
    · exact holding
  refine ⟨h.nodup, fun w' t' holding => h.apart w' t' (held w' t' holding), ?_⟩
  intro w₁ w₂ t' first second
  exact h.alone w₁ w₂ t' (held w₁ t' first) (held w₂ t' second)

/-- A worker takes a ticket that is nowhere else. -/
theorem hold (h : Unique queue holds) (fresh : ¬ UnderWay queue holds t) (w : Nat) :
    Unique queue (Function.update holds w (some t)) := by
  refine ⟨h.nodup, ?_, ?_⟩
  · intro w' t' holding inside
    rcases held_update holding with ⟨_, own⟩ | ⟨_, holding⟩
    · cases own
      exact fresh (Or.inl inside)
    · exact h.apart w' t' holding inside
  · intro w₁ w₂ t' first second
    rcases held_update first with ⟨here, own⟩ | ⟨_, holding⟩
    · cases own
      rcases held_update second with ⟨there, _⟩ | ⟨_, holding⟩
      · rw [here, there]
      · exact absurd (Or.inr ⟨w₂, holding⟩) fresh
    · rcases held_update second with ⟨_, own⟩ | ⟨_, holding'⟩
      · cases own
        exact absurd (Or.inr ⟨w₁, holding⟩) fresh
      · exact h.alone w₁ w₂ t' holding holding'

/-- A worker that holds a ticket puts it into the queue. -/
theorem put (h : Unique queue holds) (holding : holds w = some t) :
    Unique (queue ++ [t]) (Function.update holds w none) := by
  apply (h.release w).add
  rintro (inside | ⟨w', held⟩)
  · exact h.apart w t holding inside
  · obtain ⟨_, none⟩ | ⟨other, held⟩ := held_update held
    · cases none
    · exact other (h.alone w' w t held holding)

end Unique

/-! ## What is under way -/

/-- The ticket that a worker holds. -/
def ticket : Worker → Option Nat
  | .received t _ => some t
  | .answering t _ => some t
  | .waiting => none
  | .stopped => none

/-- The message is the command that was relayed with its ticket. -/
def Request (log : List Event) (m : Nat × CommandMessage) : Prop :=
  ∃ q : WorkerQuery, .relayed m.1 q.toQuery ∈ log ∧ m.2 = q.message

/-- The message is an answer to the command that was relayed with its ticket. -/
def Response (log : List Event) (m : Nat × CommandMessage) : Prop :=
  m.2.mtype = masterMsgtype ∧ AnswerTo log m.1 m.2

/-- What a worker holds. -/
def Carries (log : List Event) : Worker → Prop
  | .received t msg => Request log (t, msg)
  | .answering t reply => Response log (t, reply)
  | .waiting => True
  | .stopped => True

abbrev State.onWay (s : State) (t : Nat) : Prop :=
  UnderWay (s.queue.map Prod.fst) (fun w => ticket (s.workers w)) t

/-- The answers in the queue, by their tickets. -/
def answers (queue : List (Nat × CommandMessage)) : List Nat :=
  (queue.filter fun m => m.2.mtype == masterMsgtype).map Prod.fst

/-- The ticket is that of the awaited command, or its call has failed. -/
def State.Open (s : State) (t : Nat) : Prop := s.awaited = some t ∨ .failed t ∈ s.log

/-- The answers in the queue are those that have arrived and that are still
open, in the order in which they arrived. -/
def InOrder (queue : List (Nat × CommandMessage)) (log : List Event) (still : Nat → Prop) :
    Prop :=
  ∃ kept : Nat → Bool, (∀ t, kept t = true ↔ still t) ∧ answers queue = (arrivals log).filter kept

structure Tracked (s : State) : Prop where
  unique : Unique (s.queue.map Prod.fst) fun w => ticket (s.workers w)
  queued : ∀ m ∈ s.queue, Request s.log m ∨ Response s.log m
  held : ∀ w, Carries s.log (s.workers w)
  accounted : ∀ t, s.onWay t → s.Open t
  pending : ∀ t, s.awaited = some t → t < s.tickets ∧ .failed t ∉ s.log
  issued : ∀ t, .failed t ∈ s.log → t < s.tickets
  sent : ∀ t ∈ arrivals s.log, t < s.tickets
  arrived : InOrder s.queue s.log s.Open

section Log

variable {log : List Event} {m : Nat × CommandMessage} {t : Nat}

theorem AnswerTo.append {reply : CommandMessage} (h : AnswerTo log t reply) (e : Event) :
    AnswerTo (log ++ [e]) t reply := by
  obtain ⟨q, w, relayed, dispatched⟩ := h
  exact ⟨q, w, List.mem_append_left _ relayed, List.mem_append_left _ dispatched⟩

theorem arrivals_append (log : List Event) (e : Event) :
    arrivals (log ++ [e]) = arrivals log ++ arrivals [e] := List.filterMap_append

theorem Request.append (h : Request log m) (e : Event) : Request (log ++ [e]) m := by
  obtain ⟨q, relayed, same⟩ := h
  exact ⟨q, List.mem_append_left _ relayed, same⟩

theorem Response.append (h : Response log m) (e : Event) : Response (log ++ [e]) m :=
  ⟨h.1, h.2.append e⟩

theorem Carries.append {worker : Worker} (h : Carries log worker) (e : Event) :
    Carries (log ++ [e]) worker := by
  cases worker with
  | received t msg => exact Request.append h e
  | answering t reply => exact Response.append h e
  | waiting | stopped => trivial

/-- The message of a live query is not for the master. -/
theorem Request.mtype (h : Request log m) : m.2.mtype ≠ masterMsgtype := by
  obtain ⟨q, _, same⟩ := h
  rw [same]
  exact mt mtype_eq_master.mp q.live

end Log

theorem answers_append (queue queue' : List (Nat × CommandMessage)) :
    answers (queue ++ queue') = answers queue ++ answers queue' := by
  rw [answers, List.filter_append, List.map_append, answers, answers]

/-- A message for a worker is no answer. -/
theorem answers_cons_of_ne {m : Nat × CommandMessage} (other : m.2.mtype ≠ masterMsgtype)
    (queue : List (Nat × CommandMessage)) : answers (m :: queue) = answers queue := by
  rw [answers, List.filter_cons_of_neg (by simpa using other), answers]

theorem answers_cons {m : Nat × CommandMessage} (own : m.2.mtype = masterMsgtype)
    (queue : List (Nat × CommandMessage)) : answers (m :: queue) = m.1 :: answers queue := by
  rw [answers, List.filter_cons_of_pos (by simpa using own), List.map_cons, answers]

theorem answers_eq_nil {queue : List (Nat × CommandMessage)}
    (others : ∀ x ∈ queue, x.2.mtype ≠ masterMsgtype) : answers queue = [] := by
  rw [answers, List.filter_eq_nil_iff.mpr (by simpa using others), List.map_nil]

/-- The first answer is handed over. -/
theorem InOrder.hand {queue queue' : List (Nat × CommandMessage)} {log : List Event}
    {still still' : Nat → Prop} {k : Nat} {later : List Nat} (h : InOrder queue log still)
    (first : answers queue = k :: later) (once : k ∉ later) (rest : answers queue' = later)
    (others : ∀ t, still' t ↔ still t ∧ t ≠ k) : InOrder queue' log still' := by
  obtain ⟨kept, spec, arrived⟩ := h
  refine ⟨fun t => t != k && kept t, fun t => ?_, ?_⟩
  · rw [Bool.and_eq_true, bne_iff_ne, spec, others, and_comm]
  · calc answers queue' = later.filter fun t => t != k := by
          rw [rest, List.filter_eq_self.mpr]
          intro t inside
          simpa using ne_of_mem_of_not_mem inside once
      _ = ((arrivals log).filter kept).filter fun t => t != k := by
          rw [← arrived, first, List.filter_cons_of_neg (by simp)]
      _ = (arrivals log).filter fun t => t != k && kept t := List.filter_filter

/-- `msgrcv` takes the first message of its type. -/
theorem of_msgrcv {t : Nat} {queue rest : List (Nat × CommandMessage)} {m : Nat × CommandMessage}
    (h : msgrcv t queue = some (m, rest)) :
    ∃ before after, queue = before ++ m :: after ∧ rest = before ++ after ∧ m.2.mtype = t ∧
      ∀ x ∈ before, x.2.mtype ≠ t := by
  simp only [msgrcv, Option.map_eq_some_iff, Prod.mk.injEq] at h
  obtain ⟨_, found, rfl, erased⟩ := h
  obtain ⟨own, before, after, split, others⟩ := List.find?_eq_some_iff_append.mp found
  refine ⟨before, after, split, ?_, by simpa using own, fun x hx => by simpa using others x hx⟩
  rw [← erased, split, List.eraseP_append_right _ (by simpa using others), List.eraseP_cons,
    own, cond_true]

/-- A worker changes what it holds. -/
theorem ticket_update (workers : Nat → Worker) (w : Nat) (worker : Worker) :
    (fun w' => ticket (Function.update workers w worker w')) =
      Function.update (fun w' => ticket (workers w')) w (ticket worker) :=
  funext fun w' => by
    by_cases same : w' = w
    · rw [same, Function.update_self, Function.update_self]
    · rw [Function.update_of_ne same, Function.update_of_ne same]

theorem Carries.update {log : List Event} {workers : Nat → Worker} (worker : Worker)
    (others : ∀ w, Carries log (workers w)) (own : Carries log worker) (w w' : Nat) :
    Carries log (Function.update workers w worker w') := by
  by_cases same : w' = w
  · rw [same, Function.update_self]
    exact own
  · rw [Function.update_of_ne same]
    exact others w'

/-! ## Steps -/

section Steps

variable {s s' : State}

theorem Tracked.start : Tracked start where
  unique := by
    refine ⟨List.nodup_nil, ?_, ?_⟩
    · intro w t holding
      cases holding
    · intro w w' t holding
      cases holding
  queued := fun m inside => absurd inside List.not_mem_nil
  held := fun _ => trivial
  accounted := by
    rintro t (inside | ⟨w, holding⟩)
    · exact absurd inside List.not_mem_nil
    · cases holding
  pending := fun _ awaited => nomatch awaited
  issued := fun _ failed => absurd failed List.not_mem_nil
  sent := fun _ arrived => absurd arrived List.not_mem_nil
  arrived := ⟨fun _ => false, fun t => by simp [State.Open, FailedReceive.start], rfl⟩

theorem Tracked.lt_of_open (h : Tracked s) {t : Nat} (still : s.Open t) : t < s.tickets :=
  still.elim (fun awaited => (h.pending t awaited).1) (h.issued t)

theorem Tracked.query (h : Tracked s) (free : s.awaited = none) (q : WorkerQuery) :
    Tracked { s with
      queue := s.queue ++ [(s.tickets, q.message)]
      awaited := some s.tickets
      tickets := s.tickets + 1
      log := s.log ++ [.relayed s.tickets q.toQuery] } := by
  have failed : ∀ t, .failed t ∈ s.log ++ [.relayed s.tickets q.toQuery] → .failed t ∈ s.log := by
    intro t inside
    simpa using inside
  have unused : .failed s.tickets ∉ s.log := fun before =>
    absurd (h.issued _ before) (Nat.lt_irrefl _)
  have fresh : ¬ s.onWay s.tickets := by
    intro onWay
    rcases h.accounted _ onWay with awaited | before
    · rw [free] at awaited
      cases awaited
    · exact unused before
  have none : arrivals (s.log ++ [.relayed s.tickets q.toQuery]) = arrivals s.log := by
    rw [arrivals_append]
    exact List.append_nil _
  refine ⟨?_, ?_, fun w => (h.held w).append _, ?_, ?_, ?_, ?_, ?_⟩
  · show Unique ((s.queue ++ [(s.tickets, q.message)]).map Prod.fst) _
    rw [List.map_append]
    exact h.unique.add fresh
  · intro m inside
    rcases List.mem_append.mp inside with inside | same
    · exact (h.queued m inside).imp (·.append _) (·.append _)
    · rw [List.mem_singleton.mp same]
      exact Or.inl ⟨q, List.mem_append_right _ (List.mem_singleton.mpr rfl), rfl⟩
  · intro t onWay
    show some s.tickets = some t ∨ _
    by_cases same : s.tickets = t
    · exact Or.inl (congrArg some same)
    · have before : s.onWay t := by
        refine onWay.imp_left fun inside => ?_
        simpa [Ne.symm same] using inside
      rcases h.accounted t before with awaited | failed
      · rw [free] at awaited
        cases awaited
      · exact Or.inr (List.mem_append_left _ failed)
  · intro t awaited
    cases awaited
    exact ⟨Nat.lt_succ_self _, fun inside => unused (failed _ inside)⟩
  · intro t inside
    exact Nat.lt_succ_of_lt (h.issued t (failed t inside))
  · intro t inside
    exact Nat.lt_succ_of_lt (h.sent t (none ▸ inside))
  · have other : q.message.mtype ≠ masterMsgtype := mt mtype_eq_master.mp q.live
    obtain ⟨kept, spec, arrived⟩ := h.arrived
    refine ⟨fun t => kept t || t == s.tickets, fun t => ?_, ?_⟩
    · rw [Bool.or_eq_true, spec, beq_iff_eq]
      simp only [State.Open, free, reduceCtorEq, false_or, Option.some.injEq]
      rw [or_comm, eq_comm]
      exact or_congr_right ⟨List.mem_append_left _, failed t⟩
    · rw [answers_append, answers_cons_of_ne other, none, arrived]
      refine (List.append_nil _).trans (List.filter_congr fun t inside => ?_)
      have older : (t == s.tickets) = false := beq_false_of_ne (h.sent t inside).ne
      rw [older, Bool.or_false]

/-- A step that moves messages between the queue and the workers. -/
theorem Tracked.moved (h : Tracked s) {queue : List (Nat × CommandMessage)}
    {workers : Nat → Worker} {log : List Event}
    (unique : Unique (queue.map Prod.fst) fun w => ticket (workers w))
    (queued : ∀ m ∈ queue, Request log m ∨ Response log m)
    (held : ∀ w, Carries log (workers w))
    (onWay : ∀ t, UnderWay (queue.map Prod.fst) (fun w => ticket (workers w)) t → s.onWay t)
    (failed : ∀ t, .failed t ∈ log ↔ .failed t ∈ s.log) {more : List Nat}
    (sent : arrivals log = arrivals s.log ++ more)
    (arrived : answers queue = answers s.queue ++ more) (known : ∀ t ∈ more, s.onWay t) :
    Tracked { s with queue := queue, workers := workers, log := log } where
  unique := unique
  queued := queued
  held := held
  accounted t h' := (h.accounted t (onWay t h')).imp_right (failed t).mpr
  pending t awaited := ⟨(h.pending t awaited).1, fun inside =>
    (h.pending t awaited).2 ((failed t).mp inside)⟩
  issued t inside := h.issued t ((failed t).mp inside)
  sent t inside := by
    rw [sent] at inside
    rcases List.mem_append.mp inside with before | new
    · exact h.sent t before
    · exact h.lt_of_open (h.accounted t (known t new))
  arrived := by
    obtain ⟨kept, spec, before⟩ := h.arrived
    refine ⟨kept, fun t => (spec t).trans (or_congr_right (failed t).symm), ?_⟩
    rw [arrived, before, sent, List.filter_append]
    congr 1
    exact (List.filter_eq_self.mpr fun t new => (spec t).mpr (h.accounted t (known t new))).symm

/-- A message leaves the queue; its ticket is nowhere else. -/
theorem Tracked.taken (h : Tracked s) {before after : List (Nat × CommandMessage)}
    {m : Nat × CommandMessage} (split : s.queue = before ++ m :: after) :
    Unique ((before ++ after).map Prod.fst) (fun w => ticket (s.workers w)) ∧
      ¬ UnderWay ((before ++ after).map Prod.fst) (fun w => ticket (s.workers w)) m.1 ∧
      (∀ x ∈ before ++ after, x ∈ s.queue) ∧ m ∈ s.queue := by
  have unique := h.unique
  rw [split, List.map_append, List.map_cons] at unique
  rw [List.map_append]
  refine ⟨unique.drop.1, unique.drop.2, ?_, ?_⟩
  · intro x inside
    rw [split]
    rcases List.mem_append.mp inside with front | back
    · exact List.mem_append_left _ front
    · exact List.mem_append_right _ (List.mem_cons_of_mem _ back)
  · rw [split]
    exact List.mem_append_right _ List.mem_cons_self

/-- Fewer messages are in the queue. -/
theorem UnderWay.mono {queue queue' : List (Nat × CommandMessage)} {holds : Nat → Option Nat}
    {t : Nat} (fewer : ∀ x ∈ queue, x ∈ queue') (h : UnderWay (queue.map Prod.fst) holds t) :
    UnderWay (queue'.map Prod.fst) holds t := by
  refine h.imp_left fun inside => ?_
  obtain ⟨x, inside, same⟩ := List.mem_map.mp inside
  exact List.mem_map.mpr ⟨x, fewer x inside, same⟩

theorem Tracked.receive (h : Tracked s) {w : Nat} (taken : step s (.receive w) = some s') :
    Tracked s' := by
  simp only [step] at taken
  split at taken
  · rename_i m queue inside waiting received
    cases taken
    obtain ⟨before, after, split, rfl, own, _⟩ := of_msgrcv received
    obtain ⟨unique, gone, fewer, there⟩ := h.taken split
    have request : Request s.log m := by
      apply (h.queued m there).resolve_right
      intro response
      have mine := mem_workerIds.mp (of_decide_eq_true inside)
      rw [← own, response.1] at mine
      exact absurd mine.1 (by decide)
    apply h.moved
    · rw [ticket_update]
      exact unique.hold gone w
    · exact fun x inside => h.queued x (fewer x inside)
    · exact fun w' => Carries.update (.received m.1 m.2) h.held request w w'
    · intro t onWay
      rw [ticket_update] at onWay
      rcases onWay.of_update with same | onWay
      · cases same
        exact Or.inl (List.mem_map_of_mem there)
      · exact onWay.mono fewer
    · exact fun _ => Iff.rfl
    · exact (List.append_nil _).symm
    · rw [split, answers_append, answers_append, answers_cons_of_ne request.mtype,
        List.append_nil]
    · exact fun t new => absurd new List.not_mem_nil
  · cases taken

theorem Tracked.dispatch (h : Tracked s) {w : Nat} {status : Int} {data : Memory}
    (taken : step s (.dispatch w status data) = some s') : Tracked s' := by
  simp only [step] at taken
  split at taken
  · rename_i t msg here
    have request : Request s.log (t, msg) := by
      have held := h.held w
      rw [here] at held
      exact held
    split at taken
    · rename_i reply executed
      cases taken
      have response : Response (s.log ++ [.dispatched t w msg reply]) (t, reply) := by
        obtain ⟨q, relayed, rfl⟩ := request
        refine ⟨afterDispatch_mtype executed, q.toQuery, w, List.mem_append_left _ relayed, ?_⟩
        exact List.mem_append_right _ (List.mem_singleton.mpr rfl)
      have tickets : (fun w' => ticket (Function.update s.workers w (.answering t reply) w')) =
          fun w' => ticket (s.workers w') := by
        rw [ticket_update]
        apply Function.update_eq_self_iff.mpr
        rw [here]
        rfl
      apply h.moved
      · rw [tickets]
        exact h.unique
      · exact fun m inside => (h.queued m inside).imp (·.append _) (·.append _)
      · exact fun w' =>
          Carries.update (.answering t reply) (fun w' => (h.held w').append _) response w w'
      · intro t' onWay
        rw [tickets] at onWay
        exact onWay
      · intro t'
        simp
      · exact arrivals_append _ _
      · exact (List.append_nil _).symm
      · exact fun t new => absurd new List.not_mem_nil
    · cases taken
      apply h.moved
      · rw [ticket_update]
        exact h.unique.release w
      · exact h.queued
      · exact fun w' => Carries.update .stopped h.held trivial w w'
      · intro t' onWay
        rw [ticket_update] at onWay
        exact onWay.of_update.resolve_left nofun
      · exact fun _ => Iff.rfl
      · exact (List.append_nil _).symm
      · exact (List.append_nil _).symm
      · exact fun t new => absurd new List.not_mem_nil
  · cases taken

theorem Tracked.reply (h : Tracked s) {w : Nat} (taken : step s (.reply w) = some s') :
    Tracked s' := by
  simp only [step] at taken
  split at taken
  · rename_i t reply here
    cases taken
    have held := h.held w
    rw [here] at held
    have holding : ticket (s.workers w) = some t := by
      rw [here]
      rfl
    apply h.moved
    · rw [ticket_update, List.map_append]
      exact h.unique.put holding
    · intro m inside
      rcases List.mem_append.mp inside with inside | same
      · exact (h.queued m inside).imp (·.append _) (·.append _)
      · rw [List.mem_singleton.mp same]
        exact Or.inr (Response.append held _)
    · exact fun w' => Carries.update .waiting (fun w' => (h.held w').append _) trivial w w'
    · intro t' onWay
      rw [ticket_update] at onWay
      rcases onWay.of_update.resolve_left nofun with inside | there
      · rw [List.map_append] at inside
        rcases List.mem_append.mp inside with inside | same
        · exact Or.inl inside
        · rw [List.map_singleton, List.mem_singleton] at same
          exact Or.inr ⟨w, holding.trans (congrArg some same.symm)⟩
      · exact Or.inr there
    · intro t'
      simp
    · exact arrivals_append _ _
    · have own : reply.mtype = masterMsgtype := held.1
      rw [answers_append, answers_cons own]
      rfl
    · intro t' new
      rw [List.mem_singleton.mp new]
      exact Or.inr ⟨w, holding⟩
  · cases taken

theorem Tracked.fail (h : Tracked s) (taken : step s .fail = some s') : Tracked s' := by
  simp only [step] at taken
  split at taken
  · rename_i t awaited
    cases taken
    have none : arrivals (s.log ++ [.failed t]) = arrivals s.log := by
      rw [arrivals_append]
      exact List.append_nil _
    refine ⟨h.unique, ?_, fun w => (h.held w).append _, ?_, nofun, ?_,
      fun t' inside => h.sent t' (none ▸ inside), ?_⟩
    · exact fun m inside => (h.queued m inside).imp (·.append _) (·.append _)
    · intro t' onWay
      refine Or.inr (List.mem_append.mpr ?_)
      rcases h.accounted t' onWay with same | failed
      · rw [awaited] at same
        exact Or.inr (by simpa using same.symm)
      · exact Or.inl failed
    · intro t' inside
      rcases List.mem_append.mp inside with inside | same
      · exact h.issued t' inside
      · cases List.mem_singleton.mp same
        exact (h.pending t awaited).1
    · obtain ⟨kept, spec, arrived⟩ := h.arrived
      refine ⟨kept, fun t' => (spec t').trans ?_, none ▸ arrived⟩
      simp only [State.Open, awaited, reduceCtorEq, false_or, Option.some.injEq, List.mem_append,
        List.mem_singleton, Event.failed.injEq, eq_comm (a := t')]
      exact or_comm
  · cases taken

/-- The ticket of the awaited command is over when its own answer is handed over. -/
theorem Tracked.answer (h : Tracked s) (own : HandsOwn s .answer s')
    (taken : step s .answer = some s') : Tracked s' := by
  simp only [step] at taken
  split at taken
  · rename_i k m queue awaited received
    cases taken
    obtain ⟨before, after, split, rfl, mine, others⟩ := of_msgrcv received
    obtain ⟨unique, gone, fewer, _⟩ := h.taken split
    have same : m.1 = k := (own k m _ rfl awaited received).1
    refine ⟨unique, fun x inside => h.queued x (fewer x inside), h.held, ?_, nofun, h.issued,
      h.sent, ?_⟩
    · intro t onWay
      refine Or.inr ((h.accounted t (onWay.mono fewer)).resolve_left ?_)
      intro still
      rw [awaited, ← same] at still
      cases still
      exact gone onWay
    · have first : answers s.queue = k :: answers after := by
        rw [split, answers_append, answers_eq_nil others, answers_cons mine, same, List.nil_append]
      have rest : answers (before ++ after) = answers after := by
        rw [answers_append, answers_eq_nil others, List.nil_append]
      have once : k ∉ answers after := by
        intro inside
        obtain ⟨x, inside, again⟩ := List.mem_map.mp inside
        refine gone (Or.inl (List.mem_map.mpr ⟨x, ?_, again.trans same.symm⟩))
        exact List.mem_append_right _ (List.mem_filter.mp inside).1
      refine h.arrived.hand first once rest fun t => ?_
      simp only [State.Open, awaited, reduceCtorEq, false_or, Option.some.injEq]
      constructor
      · intro failed
        refine ⟨Or.inr failed, ?_⟩
        rintro rfl
        exact (h.pending _ awaited).2 failed
      · rintro ⟨still, other⟩
        exact still.resolve_left (Ne.symm other)
  · cases taken

theorem Tracked.step {a : Act} (h : Tracked s) (own : HandsOwn s a s')
    (taken : FailedReceive.step s a = some s') : Tracked s' := by
  cases a with
  | query q =>
      simp only [FailedReceive.step] at taken
      split at taken
      · cases taken
      · rename_i free
        rw [Option.not_isSome_iff_eq_none] at free
        split at taken
        · cases taken
          exact ⟨h.unique, h.queued, h.held, h.accounted, h.pending, h.issued, h.sent, h.arrived⟩
        · cases taken
          exact h.query free q
  | receive w => exact h.receive taken
  | dispatch w status data => exact h.dispatch taken
  | reply w => exact h.reply taken
  | fail => exact h.fail taken
  | answer => exact h.answer own taken

/-- The abandoned answer is in the queue, and the awaited one not in front of it. -/
theorem Tracked.overtaken_iff (h : Tracked s) : Overtaken s ↔ ∃ before m after,
    s.queue = before ++ m :: after ∧ m.2.mtype = masterMsgtype ∧ .failed m.1 ∈ s.log ∧
      ∀ x ∈ before, x.2.mtype = masterMsgtype → s.awaited ≠ some x.1 := by
  obtain ⟨kept, spec, arrived⟩ := h.arrived
  constructor
  · rintro ⟨before, t, after, split, failed, others⟩
    rw [split, List.filter_append, List.filter_cons_of_pos ((spec t).mpr (Or.inr failed)),
      answers] at arrived
    obtain ⟨front, back, cut, first, second⟩ := List.map_eq_append_iff.mp arrived
    obtain ⟨m, _, rfl, rfl, _⟩ := List.map_eq_cons_iff.mp second
    obtain ⟨front', back', queue, rfl, rest⟩ := List.filter_eq_append_iff.mp cut
    obtain ⟨between, after', rfl, foreign, own, _⟩ := List.filter_eq_cons_iff.mp rest
    refine ⟨front' ++ between, m, after', ?_, by simpa using own, failed, ?_⟩
    · rw [queue, List.append_assoc]
    · intro x inside mine awaited
      rcases List.mem_append.mp inside with ahead | between
      · have there : x.1 ∈ before.filter kept := by
          rw [← first]
          exact List.mem_map_of_mem (List.mem_filter.mpr ⟨ahead, by simpa using mine⟩)
        exact others x.1 awaited (List.mem_filter.mp there).1
      · exact absurd (beq_iff_eq.mpr mine) (foreign x between)
  · rintro ⟨before, m, after, split, mine, failed, others⟩
    rw [split, answers_append, answers_cons mine] at arrived
    obtain ⟨front, back, cut, first, second⟩ := List.filter_eq_append_iff.mp arrived.symm
    obtain ⟨between, back', rfl, closed, _, _⟩ := List.filter_eq_cons_iff.mp second
    refine ⟨front ++ between, m.1, back', ?_, failed, fun k awaited inside => ?_⟩
    · rw [cut, List.append_assoc]
    · have still : kept k = true := (spec k).mpr (Or.inl awaited)
      rcases List.mem_append.mp inside with ahead | between
      · have there : k ∈ answers before := first ▸ List.mem_filter.mpr ⟨ahead, still⟩
        obtain ⟨x, answer, rfl⟩ := List.mem_map.mp there
        obtain ⟨queued, own⟩ := List.mem_filter.mp answer
        exact others x queued (by simpa using own) awaited
      · exact closed k between still

/-- A call is handed its own answer exactly when no abandoned one is ahead of it. -/
theorem Tracked.handsOwn_iff {a : Act} (h : Tracked s) (taken : FailedReceive.step s a = some s') :
    HandsOwn s a s' ↔ InTurn s a s' := by
  constructor
  · rintro own rfl overtaken
    obtain ⟨before, m, after, split, mine, failed, others⟩ := h.overtaken_iff.mp overtaken
    simp only [FailedReceive.step] at taken
    split at taken
    · rename_i k m' queue awaited received
      obtain ⟨same, _⟩ := own k m' queue rfl awaited received
      obtain ⟨front, back, split', _, mine', first⟩ := of_msgrcv received
      have abandoned : m ≠ m' := by
        rintro rfl
        exact (h.pending k awaited).2 (same ▸ failed)
      -- one of the two messages is in front of the other
      rcases List.append_eq_append_iff.mp (split.symm.trans split') with
        ⟨between, rfl, rest⟩ | ⟨between, rfl, rest⟩
      · rcases List.cons_eq_append_iff.mp rest with ⟨_, rest⟩ | ⟨between, rfl, _⟩
        · cases rest
          exact abandoned rfl
        · exact first m (by simp) mine
      · rcases List.cons_eq_append_iff.mp rest with ⟨_, rest⟩ | ⟨between, rfl, _⟩
        · cases rest
          exact abandoned rfl
        · exact others m' (by simp) mine' (awaited.trans (congrArg some same.symm))
    · cases taken
  · rintro turn k m rest rfl awaited received
    obtain ⟨before, after, split, _, mine, first⟩ := of_msgrcv received
    have there : m ∈ s.queue := (h.taken split).2.2.2
    have answer : AnswerTo s.log m.1 m.2 :=
      ((h.queued m there).resolve_left fun request => request.mtype mine).2
    have same : m.1 = k := by
      by_contra other
      apply turn rfl
      refine h.overtaken_iff.mpr ⟨before, m, after, split, mine, ?_,
        fun x inside own => absurd own (first x inside)⟩
      apply (h.accounted m.1 (Or.inl (List.mem_map_of_mem there))).resolve_left
      intro same
      rw [awaited] at same
      exact other (Option.some.inj same).symm
    exact ⟨same, same ▸ answer⟩

/-- Only a failing `msgrcv` is recorded as failed. -/
theorem not_failed_step {a : Act} (other : a ≠ .fail) (none : ∀ t, .failed t ∉ s.log)
    (taken : step s a = some s') (t : Nat) : .failed t ∉ s'.log := by
  cases a with
  | fail => exact absurd rfl other
  | query | receive | dispatch | reply | answer =>
      simp only [step] at taken
      repeat' split at taken
      all_goals cases taken
      all_goals simpa using none t

end Steps

/-! ## Whole schedules -/

/-- In every schedule, every call is handed its own answer exactly when no call
receives after an answer to a failed call has arrived in front of its own. -/
theorem hands_own_iff (acts : List Act) :
    Throughout step HandsOwn acts start ↔ Throughout step InTurn acts start := by
  apply throughout_congr_of_kept Tracked _ _ acts Tracked.start
  · exact fun h taken own => h.step own taken
  · exact fun h taken => h.handsOwn_iff taken

/-- While no `msgrcv` of the master fails, every call is handed its own answer. -/
theorem hands_own_of_received (acts : List Act) (received : .fail ∉ acts) :
    Throughout step HandsOwn acts start := by
  have inTurn : ∀ {s : State}, (∀ t, .failed t ∉ s.log) → Throughout step InTurn acts s := by
    induction acts with
    | nil => exact fun _ => trivial
    | cons a acts ih =>
        intro s none t taken
        have other : a ≠ .fail := fun same => received (same ▸ List.mem_cons_self)
        refine ⟨?_, ih (fun inside => received (List.mem_cons_of_mem _ inside)) ?_⟩
        · rintro - ⟨before, t, after, -, failed, -⟩
          exact none t failed
        · exact not_failed_step other none taken
  exact (hands_own_iff acts).mpr (inTurn fun _ => List.not_mem_nil)

/-- `get` of a key, for the worker with id 2. -/
def getQuery (key : String) (connection : Nat) : WorkerQuery where
  command := interpret [text "get", text key]
  connection := connection
  draw := 1
  status := 0
  live := by decide

/-- `get a` on connection 1 fails, and `get b` on connection 2 receives its answer. -/
def abandonedGet : List Act :=
  [.query (getQuery "a" 1), .fail, .receive 2, .dispatch 2 (-1) (getQuery "a" 1).message.data,
    .reply 2, .query (getQuery "b" 2), .answer]

/-- Not every call is handed its own answer. -/
theorem not_always_own : ¬ ∀ acts, Throughout step HandsOwn acts start := by
  intro always
  obtain ⟨_, rest⟩ := always abandonedGet _ rfl
  obtain ⟨_, rest⟩ := rest _ rfl
  obtain ⟨_, rest⟩ := rest _ rfl
  obtain ⟨_, rest⟩ := rest _ rfl
  obtain ⟨_, rest⟩ := rest _ rfl
  obtain ⟨_, rest⟩ := rest _ rfl
  obtain ⟨own, _⟩ := rest _ rfl
  have same := (own 1 _ _ rfl rfl rfl).1
  exact absurd same (by decide)

end FailedReceive

end EmrakulV1
