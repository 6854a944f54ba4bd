import Technosphere.Emrakul.ConnectionList
import Technosphere.Emrakul.Record
import Technosphere.Transition
import Mathlib.Logic.Function.Basic

/-!
# Handing clients over to workers

The server process of v2.0 accepts clients and passes their descriptors on to the
workers through one channel each. A message holds the socket itself: a worker that
receives it gets a descriptor of its own, and the server process keeps the one it
had. `handed_over` says that the workers share no client and close their own, and
that the server process has every client open that was ever handed over.
-/

namespace HandOver

open Emrakul Transition ConnectionList

inductive Process where
  | server
  | worker (id : Nat)
  deriving DecidableEq, Repr

/-- A connection was received: its socket, the worker and the id it got there. -/
structure Received where
  socket : Nat
  worker : Nat
  id : Nat
  deriving DecidableEq, Repr

/-- The open descriptors of clients with their sockets, the sockets in the channels,
and of each worker `conn_list` and `id_base`. Sockets are numbered as they are
accepted. -/
structure State where
  descriptors : Process → List (Nat × Nat)
  channel : Nat → List Nat
  connList : Nat → List ClientConnection
  idBase : Nat → Nat
  accepted : Nat
  log : List Received

def start : State := ⟨fun _ => [], fun _ => [], fun _ => [], fun _ => 0, 0, []⟩

inductive Act where
  /-- `listener_cb`: the new descriptor, what `rand()` returns and whether
  `sendmsg` succeeds, which is not checked. -/
  | accept (fd draw : Nat) (sent : Bool)
  /-- `fd_channel_callback` of a worker with the descriptor that `recvmsg` makes. -/
  | receive (w fd : Nat)
  /-- `conn_eventcb` of a connection, with the flags for end of file and error. -/
  | event (w id : Nat) (eof error : Bool)
  deriving DecidableEq, Repr

namespace State

/-- A descriptor of the process leads to the socket. -/
def Open (s : State) (p : Process) (socket : Nat) : Prop :=
  ∃ fd, (fd, socket) ∈ s.descriptors p

/-- A number that is in use is not given to a new descriptor. -/
def Free (s : State) (p : Process) (fd : Nat) : Prop := fd ∉ (s.descriptors p).map Prod.fst

instance (s : State) (p : Process) (fd : Nat) : Decidable (s.Free p fd) :=
  inferInstanceAs (Decidable (fd ∉ (s.descriptors p).map Prod.fst))

def addDescriptor (s : State) (p : Process) (fd socket : Nat) : State :=
  { s with descriptors :=
      Function.update s.descriptors p (s.descriptors p ++ [(fd, socket)]) }

def closeDescriptor (s : State) (p : Process) (fd : Nat) : State :=
  { s with descriptors :=
      Function.update s.descriptors p ((s.descriptors p).filter fun d => d.1 ≠ fd) }

/-- `listener_cb`. -/
def listenerCb (s : State) (fd draw : Nat) (sent : Bool) : State :=
  let socket := s.accepted
  let s := { s.addDescriptor .server fd socket with accepted := s.accepted + 1 }
  if 0 < fd ∧ sent = true then
    let workerId := draw % workerProcessesCount
    { s with channel := Function.update s.channel workerId (s.channel workerId ++ [socket]) }
  else s

/-- `fd_channel_callback` for the socket that is first in the channel. -/
def fdChannelCallback (s : State) (w fd socket : Nat) (rest : List Nat) : State :=
  let s := s.addDescriptor (.worker w) fd socket
  let conn : ClientConnection := ⟨s.idBase w, fd⟩
  { s with
    channel := Function.update s.channel w rest
    connList := Function.update s.connList w (s.connList w ++ [conn])
    idBase := Function.update s.idBase w (s.idBase w + 1)
    log := s.log ++ [⟨socket, w, conn.id⟩] }

/-- `close`, which frees the bufferevent and with it the descriptor. -/
def close (s : State) (w : Nat) (conn : ClientConnection) : State :=
  let s := s.closeDescriptor (.worker w) conn.bevIn
  { s with connList := Function.update s.connList w (removeConnection conn (s.connList w)) }

def step (s : State) : Act → Option State
  | .accept fd draw sent => if s.Free .server fd then some (s.listenerCb fd draw sent) else none
  | .receive w fd =>
    match s.channel w with
    | [] => none
    | socket :: rest =>
      if s.Free (.worker w) fd then some (s.fdChannelCallback w fd socket rest) else none
  | .event w id eof error =>
    match (s.connList w).find? (·.id == id) with
    | none => none
    | some conn => some (if eof then s.close w conn else if error then s.close w conn else s)

/-- The connection is still in the worker's list. -/
def Listed (s : State) (r : Received) : Prop := r.id ∈ (s.connList r.worker).map (·.id)

/-- Every client that was received is open in the worker that has it in its list
and in no other process, and in no process when it is in the list no more. -/
def OneOwner (s : State) : Prop :=
  ∀ r ∈ s.log, ∀ p, s.Open p r.socket ↔ p = .worker r.worker ∧ s.Listed r

/-- The same of the workers alone. -/
def OneWorker (s : State) : Prop :=
  ∀ r ∈ s.log, ∀ w, s.Open (.worker w) r.socket ↔ w = r.worker ∧ s.Listed r

/-! ## Who has what -/

/-- The sockets that exist and where they are; `waiting` speaks about those in a
channel, `listed` and `owned` relate the list of a worker to its descriptors. -/
structure Consistent (s : State) : Prop where
  kept : ∀ k < s.accepted, s.Open .server k
  waiting : ∀ w, ∀ k ∈ s.channel w, k < s.accepted ∧ ∀ r ∈ s.log, r.socket ≠ k
  unrepeated : ∀ w, (s.channel w).Nodup
  apart : ∀ w v k, k ∈ s.channel w → k ∈ s.channel v → w = v
  logged : ∀ r ∈ s.log, r.socket < s.accepted ∧ r.id < s.idBase r.worker
  socketOnce : ∀ r ∈ s.log, ∀ q ∈ s.log, r.socket = q.socket → r = q
  idOnce : ∀ r ∈ s.log, ∀ q ∈ s.log, r.worker = q.worker → r.id = q.id → r = q
  ids : ∀ w, ((s.connList w).map (·.id)).Nodup
  numbers : ∀ w, ((s.descriptors (.worker w)).map Prod.fst).Nodup
  listed : ∀ w, ∀ conn ∈ s.connList w, ∃ socket, ⟨socket, w, conn.id⟩ ∈ s.log ∧
    (conn.bevIn, socket) ∈ s.descriptors (.worker w)
  owned : ∀ w fd socket, (fd, socket) ∈ s.descriptors (.worker w) →
    ∃ conn ∈ s.connList w, conn.bevIn = fd ∧ ⟨socket, w, conn.id⟩ ∈ s.log

theorem start_consistent : Consistent start where
  kept _ none := absurd none (Nat.not_lt_zero _)
  waiting _ _ none := absurd none List.not_mem_nil
  unrepeated _ := List.nodup_nil
  apart _ _ _ none := absurd none List.not_mem_nil
  logged _ none := absurd none List.not_mem_nil
  socketOnce _ none := absurd none List.not_mem_nil
  idOnce _ none := absurd none List.not_mem_nil
  ids _ := List.nodup_nil
  numbers _ := List.nodup_nil
  listed _ _ none := absurd none List.not_mem_nil
  owned _ _ _ none := absurd none List.not_mem_nil

section Steps

variable {s : State}

@[simp] theorem addDescriptor_self (p : Process) (fd socket : Nat) :
    (s.addDescriptor p fd socket).descriptors p = s.descriptors p ++ [(fd, socket)] :=
  Function.update_self _ _ _

theorem addDescriptor_of_ne {p q : Process} (other : q ≠ p) (fd socket : Nat) :
    (s.addDescriptor p fd socket).descriptors q = s.descriptors q :=
  Function.update_of_ne other _ _

/-- The server process has one more client open, which may be in a channel. -/
theorem Consistent.listenerCb (h : s.Consistent) (fd draw : Nat) (sent : Bool) :
    (s.listenerCb fd draw sent).Consistent := by
  have kept : ∀ k < s.accepted + 1, (s.addDescriptor .server fd s.accepted).Open .server k := by
    intro k small
    rcases Nat.lt_succ_iff_lt_or_eq.mp small with old | rfl
    · obtain ⟨n, inside⟩ := h.kept k old
      refine ⟨n, ?_⟩
      rw [addDescriptor_self]
      exact List.mem_append_left _ inside
    · refine ⟨fd, ?_⟩
      rw [addDescriptor_self]
      exact List.mem_append_right _ (List.mem_singleton.mpr rfl)
  have logged : ∀ r ∈ s.log, r.socket < s.accepted + 1 ∧ r.id < s.idBase r.worker :=
    fun r inside => ⟨Nat.lt_succ_of_lt (h.logged r inside).1, (h.logged r inside).2⟩
  have waiting : ∀ w, ∀ k ∈ s.channel w, k < s.accepted + 1 ∧ ∀ r ∈ s.log, r.socket ≠ k :=
    fun w k inside => ⟨Nat.lt_succ_of_lt (h.waiting w k inside).1, (h.waiting w k inside).2⟩
  rw [State.listenerCb]
  split
  · rename_i sent
    let id := draw % workerProcessesCount
    have here : Function.update s.channel id (s.channel id ++ [s.accepted]) id =
        s.channel id ++ [s.accepted] := Function.update_self _ _ _
    have elsewhere : ∀ w, w ≠ id →
        Function.update s.channel id (s.channel id ++ [s.accepted]) w = s.channel w :=
      fun w other => Function.update_of_ne other _ _
    have fresh : ∀ w, s.accepted ∉ s.channel w :=
      fun w inside => Nat.lt_irrefl _ (h.waiting w _ inside).1
    have split : ∀ w k, k ∈ Function.update s.channel id (s.channel id ++ [s.accepted]) w →
        k ∈ s.channel w ∨ (w = id ∧ k = s.accepted) := by
      intro w k inside
      by_cases same : w = id
      · subst same
        rw [here] at inside
        exact (List.mem_append.mp inside).imp_right fun new => ⟨rfl, List.mem_singleton.mp new⟩
      · rw [elsewhere w same] at inside
        exact Or.inl inside
    refine ⟨kept, ?_, ?_, ?_, logged, h.socketOnce, h.idOnce, h.ids, h.numbers, h.listed,
      h.owned⟩
    · intro w k inside
      rcases split w k inside with old | ⟨_, rfl⟩
      · exact waiting w k old
      · exact ⟨Nat.lt_succ_self _, fun r there => Nat.ne_of_lt (h.logged r there).1⟩
    · intro w
      by_cases same : w = id
      · subst same
        show (Function.update s.channel id (s.channel id ++ [s.accepted]) id).Nodup
        rw [here, ← List.concat_eq_append]
        exact (h.unrepeated id).concat (fresh id)
      · show (Function.update s.channel id (s.channel id ++ [s.accepted]) w).Nodup
        rw [elsewhere w same]
        exact h.unrepeated w
    · intro w v k inside there
      rcases split w k inside with old | ⟨rfl, rfl⟩
      · rcases split v k there with old' | ⟨_, rfl⟩
        · exact h.apart w v k old old'
        · exact absurd old (fresh w)
      · rcases split v _ there with old' | ⟨rfl, _⟩
        · exact absurd old' (fresh v)
        · rfl
  · exact ⟨kept, waiting, h.unrepeated, h.apart, logged, h.socketOnce, h.idOnce, h.ids, h.numbers,
      h.listed, h.owned⟩

/-- The worker has a new descriptor and a new connection for the client. -/
theorem Consistent.fdChannelCallback (h : s.Consistent) {w fd socket : Nat} {rest : List Nat}
    (first : s.channel w = socket :: rest) (free : s.Free (.worker w) fd) :
    (s.fdChannelCallback w fd socket rest).Consistent := by
  have arrived : socket ∈ s.channel w := first ▸ List.mem_cons_self
  obtain ⟨small, unlogged⟩ := h.waiting w socket arrived
  have queue : ∀ v k, k ∈ Function.update s.channel w rest v → k ∈ s.channel v ∧ k ≠ socket := by
    intro v k inside
    by_cases same : v = w
    · subst same
      rw [Function.update_self] at inside
      have distinct := h.unrepeated v
      rw [first, List.nodup_cons] at distinct
      refine ⟨first ▸ List.mem_cons_of_mem _ inside, ?_⟩
      rintro rfl
      exact distinct.1 inside
    · rw [Function.update_of_ne same] at inside
      refine ⟨inside, ?_⟩
      rintro rfl
      exact same (h.apart v w k inside arrived)
  have log : ∀ {r : Received}, r ∈ s.log ++ [⟨socket, w, s.idBase w⟩] →
      r ∈ s.log ∨ r = ⟨socket, w, s.idBase w⟩ :=
    fun inside => (List.mem_append.mp inside).imp_right List.mem_singleton.mp
  have newest : (⟨socket, w, s.idBase w⟩ : Received) ∈ s.log ++ [⟨socket, w, s.idBase w⟩] :=
    List.mem_append_right _ (List.mem_singleton.mpr rfl)
  have descriptors : ∀ v, v ≠ w → (s.addDescriptor (.worker w) fd socket).descriptors (.worker v) =
      s.descriptors (.worker v) :=
    fun v other => addDescriptor_of_ne (fun same => other (Process.worker.inj same)) fd socket
  constructor
  case kept =>
    intro k inside
    obtain ⟨n, there⟩ := h.kept k inside
    refine ⟨n, ?_⟩
    have other : Process.server ≠ .worker w := nofun
    show (n, k) ∈ (s.addDescriptor (.worker w) fd socket).descriptors .server
    rw [addDescriptor_of_ne other]
    exact there
  case waiting =>
    intro v k inside
    obtain ⟨there, other⟩ := queue v k inside
    refine ⟨(h.waiting v k there).1, fun r logged => ?_⟩
    rcases log logged with old | rfl
    · exact (h.waiting v k there).2 r old
    · exact Ne.symm other
  case unrepeated =>
    intro v
    by_cases same : v = w
    · subst same
      have distinct := h.unrepeated v
      rw [first, List.nodup_cons] at distinct
      show (Function.update s.channel v rest v).Nodup
      rw [Function.update_self]
      exact distinct.2
    · show (Function.update s.channel w rest v).Nodup
      rw [Function.update_of_ne same]
      exact h.unrepeated v
  case apart =>
    exact fun v u k inside there => h.apart v u k (queue v k inside).1 (queue u k there).1
  case logged =>
    intro r inside
    show _ ∧ r.id < Function.update s.idBase w (s.idBase w + 1) r.worker
    rcases log inside with old | rfl
    · refine ⟨(h.logged r old).1, Nat.lt_of_lt_of_le (h.logged r old).2 ?_⟩
      by_cases same : r.worker = w
      · rw [same, Function.update_self]
        exact Nat.le_succ _
      · rw [Function.update_of_ne same]
    · rw [Function.update_self]
      exact ⟨small, Nat.lt_succ_self _⟩
  case socketOnce =>
    intro r inside q there same
    rcases log inside with old | rfl
    · rcases log there with old' | rfl
      · exact h.socketOnce r old q old' same
      · exact absurd same (unlogged r old)
    · rcases log there with old' | rfl
      · exact absurd same.symm (unlogged q old')
      · rfl
  case idOnce =>
    intro r inside q there worker id
    rcases log inside with old | rfl
    · rcases log there with old' | rfl
      · exact h.idOnce r old q old' worker id
      · have bound := (h.logged r old).2
        rw [id, worker] at bound
        exact absurd bound (Nat.lt_irrefl _)
    · rcases log there with old' | rfl
      · have bound := (h.logged q old').2
        rw [← id, ← worker] at bound
        exact absurd bound (Nat.lt_irrefl _)
      · rfl
  case ids =>
    intro v
    show ((Function.update s.connList w _ v).map _).Nodup
    by_cases same : v = w
    · subst same
      rw [Function.update_self, List.map_append, List.map_singleton, ← List.concat_eq_append]
      refine (h.ids v).concat fun inside => ?_
      obtain ⟨conn, listed, equal⟩ := List.mem_map.mp inside
      obtain ⟨k, logged, _⟩ := h.listed v conn listed
      have bound := (h.logged _ logged).2
      rw [show conn.id = s.idBase v from equal] at bound
      exact Nat.lt_irrefl _ bound
    · rw [Function.update_of_ne same]
      exact h.ids v
  case numbers =>
    intro v
    show (((s.addDescriptor (.worker w) fd socket).descriptors (.worker v)).map _).Nodup
    by_cases same : v = w
    · subst same
      rw [addDescriptor_self, List.map_append, List.map_singleton, ← List.concat_eq_append]
      exact (h.numbers v).concat free
    · rw [descriptors v same]
      exact h.numbers v
  case listed =>
    intro v conn inside
    show ∃ k, _ ∧ _ ∈ (s.addDescriptor (.worker w) fd socket).descriptors (.worker v)
    by_cases same : v = w
    · subst same
      replace inside : conn ∈ Function.update s.connList v _ v := inside
      rw [Function.update_self] at inside
      rw [addDescriptor_self]
      rcases List.mem_append.mp inside with old | new
      · obtain ⟨k, logged, there⟩ := h.listed v conn old
        exact ⟨k, List.mem_append_left _ logged, List.mem_append_left _ there⟩
      · rw [List.mem_singleton.mp new]
        exact ⟨socket, newest, List.mem_append_right _ (List.mem_singleton.mpr rfl)⟩
    · replace inside : conn ∈ Function.update s.connList w _ v := inside
      rw [Function.update_of_ne same] at inside
      obtain ⟨k, logged, there⟩ := h.listed v conn inside
      rw [descriptors v same]
      exact ⟨k, List.mem_append_left _ logged, there⟩
  case owned =>
    intro v n k inside
    show ∃ conn ∈ Function.update s.connList w _ v, _
    replace inside : (n, k) ∈ (s.addDescriptor (.worker w) fd socket).descriptors (.worker v) :=
      inside
    by_cases same : v = w
    · subst same
      rw [Function.update_self]
      rw [addDescriptor_self] at inside
      rcases List.mem_append.mp inside with old | new
      · obtain ⟨conn, listed, fd, logged⟩ := h.owned v n k old
        exact ⟨conn, List.mem_append_left _ listed, fd, List.mem_append_left _ logged⟩
      · cases List.mem_singleton.mp new
        exact ⟨_, List.mem_append_right _ (List.mem_singleton.mpr rfl), rfl, newest⟩
    · rw [Function.update_of_ne same]
      rw [descriptors v same] at inside
      obtain ⟨conn, listed, fd, logged⟩ := h.owned v n k inside
      exact ⟨conn, listed, fd, List.mem_append_left _ logged⟩

/-- The worker loses a connection and its descriptor. -/
theorem Consistent.close (h : s.Consistent) {w : Nat} {conn : ClientConnection}
    (inside : conn ∈ s.connList w) : (s.close w conn).Consistent := by
  have conns : ∀ v, ∀ c, c ∈ (s.close w conn).connList v ↔
      c ∈ s.connList v ∧ (v = w → c.id ≠ conn.id) := by
    intro v c
    show c ∈ Function.update s.connList w (removeConnection conn (s.connList w)) v ↔ _
    by_cases same : v = w
    · subst same
      rw [Function.update_self, removeConnection_eq_filter (h.ids v), List.mem_filter,
        decide_eq_true_eq]
      exact and_congr_right fun _ => ⟨fun other _ => other, fun other => other rfl⟩
    · rw [Function.update_of_ne same]
      exact (and_iff_left fun equal => absurd equal same).symm
  have descriptors : ∀ v, ∀ d, d ∈ (s.close w conn).descriptors (.worker v) ↔
      d ∈ s.descriptors (.worker v) ∧ (v = w → d.1 ≠ conn.bevIn) := by
    intro v d
    show d ∈ Function.update s.descriptors (.worker w) _ (.worker v) ↔ _
    by_cases same : v = w
    · subst same
      rw [Function.update_self, List.mem_filter, decide_eq_true_eq]
      exact and_congr_right fun _ => ⟨fun other _ => other, fun other => other rfl⟩
    · rw [Function.update_of_ne fun equal => same (Process.worker.inj equal)]
      exact (and_iff_left fun equal => absurd equal same).symm
  obtain ⟨socket, logged, there⟩ := h.listed w conn inside
  refine ⟨?_, h.waiting, h.unrepeated, h.apart, h.logged, h.socketOnce, h.idOnce, ?_, ?_, ?_, ?_⟩
  · exact fun k small => h.kept k small
  · intro v
    show ((Function.update s.connList w (removeConnection conn (s.connList w)) v).map _).Nodup
    by_cases same : v = w
    · subst same
      rw [Function.update_self, removeConnection_eq_filter (h.ids v)]
      exact ((List.filter_sublist).map _).nodup (h.ids v)
    · rw [Function.update_of_ne same]
      exact h.ids v
  · intro v
    show ((Function.update s.descriptors (.worker w) _ (.worker v)).map _).Nodup
    by_cases same : v = w
    · subst same
      rw [Function.update_self]
      exact ((List.filter_sublist).map _).nodup (h.numbers v)
    · rw [Function.update_of_ne fun equal => same (Process.worker.inj equal)]
      exact h.numbers v
  · intro v c remains
    obtain ⟨listed, other⟩ := (conns v c).mp remains
    obtain ⟨k, logged', there'⟩ := h.listed v c listed
    refine ⟨k, logged', (descriptors v _).mpr ⟨there', ?_⟩⟩
    rintro rfl same
    -- one descriptor leads to one socket, and one socket belongs to one connection
    have equal : (c.bevIn, k) = (conn.bevIn, socket) :=
      List.inj_on_of_nodup_map (h.numbers v) there' there same
    have one := h.socketOnce _ logged' _ logged (congrArg Prod.snd equal)
    exact other rfl (congrArg Received.id one)
  · intro v n k remains
    obtain ⟨held, other⟩ := (descriptors v _).mp remains
    obtain ⟨c, listed, fd, logged'⟩ := h.owned v n k held
    refine ⟨c, (conns v c).mpr ⟨listed, ?_⟩, fd, logged'⟩
    rintro rfl same
    have equal : c = conn := List.inj_on_of_nodup_map (h.ids v) listed inside same
    exact other rfl (by rw [← equal, fd])

/-- What a step does. -/
theorem step_cases {a : Act} {t : State} (taken : s.step a = some t) :
    (∃ fd draw sent, a = .accept fd draw sent ∧ t = s.listenerCb fd draw sent) ∨
      (∃ w fd socket rest, a = .receive w fd ∧ s.channel w = socket :: rest ∧
        s.Free (.worker w) fd ∧ t = s.fdChannelCallback w fd socket rest) ∨
      ((∀ w fd, a ≠ .receive w fd) ∧
        (t = s ∨ ∃ w, ∃ conn ∈ s.connList w, t = s.close w conn)) := by
  cases a with
  | accept fd draw sent =>
      obtain ⟨_, same⟩ := Option.ite_none_right_eq_some.mp taken
      exact .inl ⟨fd, draw, sent, rfl, (Option.some.inj same).symm⟩
  | receive w fd =>
      cases first : s.channel w with
      | nil => simp [State.step, first] at taken
      | cons socket rest =>
          simp only [State.step, first] at taken
          obtain ⟨free, same⟩ := Option.ite_none_right_eq_some.mp taken
          exact .inr (.inl ⟨w, fd, socket, rest, rfl, first, free, (Option.some.inj same).symm⟩)
  | event w id eof error =>
      refine .inr (.inr ⟨fun _ _ => Act.noConfusion, ?_⟩)
      cases found : (s.connList w).find? (·.id == id) with
      | none => simp [State.step, found] at taken
      | some conn =>
          have inside := List.mem_of_find?_eq_some found
          simp only [State.step, found] at taken
          cases taken
          split
          · exact .inr ⟨w, conn, inside, rfl⟩
          · split
            · exact .inr ⟨w, conn, inside, rfl⟩
            · exact .inl rfl

theorem Consistent.step (h : s.Consistent) {a : Act} {t : State} (taken : s.step a = some t) :
    t.Consistent := by
  obtain ⟨fd, draw, sent, _, rfl⟩ | ⟨w, fd, socket, rest, _, first, free, rfl⟩ |
    ⟨_, rfl | ⟨w, conn, inside, rfl⟩⟩ := step_cases taken
  · exact h.listenerCb fd draw sent
  · exact h.fdChannelCallback first free
  · exact h
  · exact h.close inside

/-- The workers do what they should. -/
theorem Consistent.oneWorker (h : s.Consistent) : s.OneWorker := by
  intro r logged w
  constructor
  · rintro ⟨fd, held⟩
    obtain ⟨conn, listed, _, logged'⟩ := h.owned w fd r.socket held
    have same := h.socketOnce r logged _ logged' rfl
    have worker : r.worker = w := congrArg Received.worker same
    refine ⟨worker.symm, ?_⟩
    rw [State.Listed, worker]
    exact List.mem_map.mpr ⟨conn, listed, (congrArg Received.id same).symm⟩
  · rintro ⟨rfl, listed⟩
    obtain ⟨conn, inside, id⟩ := List.mem_map.mp listed
    obtain ⟨socket, logged', held⟩ := h.listed r.worker conn inside
    have same := h.idOnce r logged _ logged' rfl id.symm
    rw [show r.socket = socket from congrArg Received.socket same]
    exact ⟨conn.bevIn, held⟩

/-- The server process still has every client that was received. -/
theorem Consistent.oneOwner_iff (h : s.Consistent) : s.OneOwner ↔ s.log = [] := by
  constructor
  · intro owner
    cases log : s.log with
    | nil => rfl
    | cons r log =>
        have logged : r ∈ s.log := log ▸ List.mem_cons_self
        have kept := h.kept r.socket (h.logged r logged).1
        exact absurd ((owner r logged .server).mp kept).1 Process.noConfusion
  · intro none r logged
    rw [none] at logged
    exact absurd logged List.not_mem_nil

end Steps

/-! ## Runs -/

theorem consistent_of_run {acts : List Act} {s : State}
    (h : Run State.step Always start acts s) : s.Consistent :=
  h.invariant (fun _ s => s.Consistent) start_consistent fun kept _ taken => kept.step taken

theorem step_log {s t : State} {a : Act} (taken : s.step a = some t) :
    t.log = [] ↔ s.log = [] ∧ ∀ w fd, a ≠ .receive w fd := by
  obtain ⟨fd, draw, sent, rfl, rfl⟩ | ⟨w, fd, socket, rest, rfl, _, _, rfl⟩ |
    ⟨other, rfl | ⟨w, conn, _, rfl⟩⟩ := step_cases taken
  · have same : (s.listenerCb fd draw sent).log = s.log := by
      rw [State.listenerCb]
      split <;> rfl
    rw [same]
    exact (and_iff_left fun _ _ => Act.noConfusion).symm
  · refine iff_of_false ?_ fun none => none.2 w fd rfl
    exact List.append_ne_nil_of_right_ne_nil s.log (List.cons_ne_nil _ _)
  · exact (and_iff_left other).symm
  · exact (and_iff_left other).symm

theorem log_of_run {acts : List Act} {s : State} (h : Run State.step Always start acts s) :
    s.log = [] ↔ ∀ w fd, Act.receive w fd ∉ acts := by
  refine h.invariant (fun acts s => s.log = [] ↔ ∀ w fd, Act.receive w fd ∉ acts) ?_ ?_
  · exact iff_of_true rfl fun _ _ => List.not_mem_nil
  · intro acts t a u kept _ taken
    rw [step_log taken, kept]
    simp only [List.mem_append, List.mem_singleton, not_or]
    constructor
    · exact fun none w fd => ⟨none.1 w fd, Ne.symm (none.2 w fd)⟩
    · exact fun none => ⟨fun w fd => (none w fd).1, fun w fd => Ne.symm (none w fd).2⟩

end State

open State

/-- Among the workers every client has one owner at any time, but in the server
process it stays open: all is as it should be only as long as no worker has
received a client. -/
theorem handed_over {acts : List Act} {s : State} (h : Run State.step Always start acts s) :
    s.OneWorker ∧ (s.OneOwner ↔ ∀ w fd, Act.receive w fd ∉ acts) :=
  ⟨(consistent_of_run h).oneWorker, (consistent_of_run h).oneOwner_iff.trans (log_of_run h)⟩

/-- One client comes to worker 0 and goes away again. -/
def oneClient : List Act := [.accept 9 0 true, .receive 0 12, .event 0 0 true false]

/-- A run to the end of these steps. -/
theorem oneClient_run : ∃ s, Run State.step Always start oneClient s ∧
    s.descriptors .server = [(9, 0)] ∧ s.log = [⟨0, 0, 0⟩] :=
  ⟨_, .of_foldlM rfl, rfl, rfl⟩

theorem handed_over_oneClient : ∃ s : State, Run State.step Always start oneClient s ∧
    s.OneWorker ∧ (s.OneOwner ↔ ∀ w fd, Act.receive w fd ∉ oneClient) := by
  obtain ⟨s, run, _⟩ := oneClient_run
  exact ⟨s, run, handed_over run⟩

/-- The client has gone, its worker has closed it, and the server process still
has it open. -/
theorem not_always_one_owner : ¬ ∀ (acts : List Act) (s : State),
    Run State.step Always start acts s → s.OneOwner := by
  intro always
  obtain ⟨s, run, held, log⟩ := oneClient_run
  have logged : ⟨0, 0, 0⟩ ∈ s.log := by
    rw [log]
    exact List.mem_singleton.mpr rfl
  have stillOpen : s.Open .server 0 := ⟨9, by rw [held]; exact List.mem_singleton.mpr rfl⟩
  exact Process.noConfusion ((always oneClient s run _ logged .server).mp stillOpen).1

end HandOver
