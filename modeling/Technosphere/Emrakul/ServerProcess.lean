import Technosphere.Emrakul.CleaningCompany
import Technosphere.Emrakul.PosixHashTable.Termination

/-!
# Shutting v2.0 down

On a signal the master sends SIGTERM to its children, waits until none is left,
and removes the table and the semaphores two seconds later. A worker handles a
signal in its event loop, so never inside a call; the cleaner handles it at any
point and is still to finish its pass. The processes have started, and nobody
kills them.
-/

namespace EmrakulV2

namespace ServerProcess

open SharedMemory PosixHashTable Emrakul Transition

/-! ## The processes -/

inductive Worker where
  | dispatching
  /-- `signal_cb` has asked its event loop to end. -/
  | leaving
  | exited
  deriving DecidableEq

inductive Master where
  | serving
  /-- In `signal_cb`, with these children still to be told. -/
  | telling (children : List Nat)
  /-- `signal_cb` has asked the event loop to end. -/
  | leaving
  /-- Behind `ipc_delete`. -/
  | deleted
  /-- Killed by SIGPIPE. -/
  | broken
  deriving DecidableEq

/-- The process that the cleaner is, behind the workers. -/
def cleanerId : Nat := workerProcessesCount

def children : List Nat := List.range (workerProcessesCount + 1)

/-- `signalled` has the workers, and `interrupted` the master, with a signal to handle. -/
structure Server where
  machine : Workers
  workers : Nat → Worker
  signalled : Nat → Bool
  cleaner : CleaningCompany
  interrupted : Bool
  master : Master

inductive Act where
  /-- A worker calls `get`, `set` or `del` for a client. -/
  | command (p : Nat) (call : Call)
  /-- A process goes on with its call. -/
  | run (p : Nat)
  | finish (p : Nat)
  | tick (now : Nat)
  /-- Somebody signals a child. -/
  | signal (p : Nat)
  /-- `signal_cb` of a worker. -/
  | handle (p : Nat)
  /-- The event loop of a worker is over. -/
  | leave (p : Nat)
  | timedwait
  | test
  | collect
  | sleep
  /-- Somebody signals the master. -/
  | interrupt
  /-- `signal_cb` of the master begins. -/
  | shutDown
  /-- It sends SIGTERM to a child. -/
  | tell (p : Nat)
  /-- `wait` has failed, since there is no child. -/
  | reaped
  /-- `listener_cb` passes a client on to a worker. -/
  | accept (p : Nat)
  /-- The event loop of the master is over. -/
  | delete

namespace Server

def start (mem : Memory) (clock : Nat) : Server :=
  ⟨.initial mem clock, fun _ => .dispatching, fun _ => false, .start clock, false, .serving⟩

/-- A step of the calls. -/
def callStep (s : Server) (a : Machine.Act Call) : Option Server :=
  (Workers.step s.machine a).map fun m => { s with machine := m }

/-- The cleaner handles a signal at once. -/
def signal (s : Server) (p : Nat) : Server :=
  if p = cleanerId then
    if s.cleaner.position = .exited then s else { s with cleaner := s.cleaner.sigHandler }
  else { s with signalled := Function.update s.signalled p true }

/-- All children have exited. -/
def Childless (s : Server) : Prop :=
  (∀ p < workerProcessesCount, s.workers p = .exited) ∧ s.cleaner.position = .exited

instance (s : Server) : Decidable s.Childless := inferInstanceAs (Decidable (_ ∧ _))

def step (s : Server) : Act → Option Server
  | .command p call =>
    if p < workerProcessesCount ∧ s.workers p ≠ .exited ∧ call ≠ .collectGarbage then
      s.callStep (.start p call)
    else none
  | .run p => s.callStep (.run p)
  | .finish p => s.callStep (.finish p)
  | .tick now => s.callStep (.tick now)
  | .signal p => if p ∈ children then some (s.signal p) else none
  | .handle p =>
    if p < workerProcessesCount ∧ s.workers p ≠ .exited ∧ s.signalled p = true ∧
        (s.machine.procs p).isNone then
      some { s with
        workers := Function.update s.workers p .leaving
        signalled := Function.update s.signalled p false }
    else none
  | .leave p =>
    if p < workerProcessesCount ∧ s.workers p = .leaving ∧ (s.machine.procs p).isNone then
      some { s with workers := Function.update s.workers p .exited }
    else none
  | .timedwait => (s.cleaner.timedwait s.machine.clock).map fun c => { s with cleaner := c }
  | .test => s.cleaner.test.map fun c => { s with cleaner := c }
  | .collect =>
    match s.cleaner.collect s.machine.clock with
    | some c => { s with cleaner := c }.callStep (.start cleanerId .collectGarbage)
    | none => none
  | .sleep =>
    if (s.machine.procs cleanerId).isNone then
      (s.cleaner.sleep s.machine.clock).map fun c => { s with cleaner := c }
    else none
  | .interrupt => some { s with interrupted := true }
  | .shutDown =>
    if s.interrupted = true ∧ (s.master = .serving ∨ s.master = .leaving) then
      some { s with interrupted := false, master := .telling children }
    else none
  | .tell p =>
    match s.master with
    | .telling children =>
      if p ∈ children then some { s.signal p with master := .telling (children.erase p) }
      else none
    | _ => none
  | .reaped =>
    if s.master = .telling [] ∧ s.Childless then some { s with master := .leaving } else none
  | .accept p =>
    if p < workerProcessesCount ∧ (s.master = .serving ∨ s.master = .leaving) then
      some (if s.workers p = .exited then { s with master := .broken } else s)
    else none
  | .delete => if s.master = .leaving then some { s with master := .deleted } else none

/-- Not a step of clients, of the clock, or of somebody who sends signals. -/
def Onward (_ : Server) : Act → Prop
  | .command _ _ | .tick _ | .signal _ | .interrupt | .accept _ => False
  | _ => True

/-- The master has begun to shut down and has not come to an end. -/
def ShuttingDown (s : Server) : Prop := s.master = .leaving ∨ ∃ left, s.master = .telling left

/-! ## What holds in every state -/

variable {s t : Server} {a : Act} {first : Nat}

theorem busy_of_step {m m' : Workers} {b : Machine.Act Call} (taken : Workers.step m b = some m')
    {q : Nat} (busy : m'.procs q ≠ none) : m.procs q ≠ none ∨ ∃ call, b = .start q call := by
  by_cases own : b.of q
  · cases b with
    | start p call =>
        cases own
        exact .inr ⟨call, rfl⟩
    | run p =>
        cases own
        refine .inl fun none => ?_
        simp [Workers.step, Machine.step, none] at taken
    | finish p =>
        cases own
        obtain ⟨before, _⟩ := Machine.finish_left taken
        exact .inl before
    | tick now => exact own.elim
  · exact .inl (Machine.procs_of_step own taken ▸ busy)

theorem clock_le {m m' : Workers} {b : Machine.Act Call} (taken : Workers.step m b = some m') :
    m.clock ≤ m'.clock := by
  obtain same | ⟨now, _, later, now_eq⟩ := Machine.clock_of_step taken
  · exact same.ge
  · exact later.trans_eq now_eq.symm

structure Sound (first : Nat) (s : Server) : Prop where
  punctual : s.cleaner.Punctual first s.machine.clock
  begun : first ≤ s.machine.clock
  /-- A call is one of a worker, or the pass of the cleaner. -/
  busy : ∀ p, s.machine.procs p ≠ none → p < workerProcessesCount ∧ s.workers p ≠ .exited ∨
    p = cleanerId ∧ s.cleaner.position = .passing
  /-- A child that has been told has the signal, or has handled it. -/
  told : ∀ left, s.master = .telling left →
    (∀ p < workerProcessesCount, p ∉ left → s.signalled p = true ∨ s.workers p ≠ .dispatching) ∧
      (cleanerId ∉ left → s.cleaner.exitTrigger = true)
  few : ∀ left, s.master = .telling left → left.length ≤ workerProcessesCount + 1
  gone : s.master = .leaving ∨ s.master = .deleted → s.Childless

theorem Sound.start (mem : Memory) (clock : Nat) : Sound clock (.start mem clock) where
  punctual := .start clock
  begun := Nat.le_refl _
  busy p some := absurd rfl some
  told := nofun
  few := nofun
  gone := by rintro (h | h) <;> cases h

theorem callStep_inv {b : Machine.Act Call} (taken : s.callStep b = some t) :
    ∃ m, Workers.step s.machine b = some m ∧ t = { s with machine := m } := by
  obtain ⟨m, went, rfl⟩ := Option.map_eq_some_iff.mp taken
  exact ⟨m, went, rfl⟩

/-- Steps of calls of processes that may have one. -/
theorem Sound.callStep (h : Sound first s) {b : Machine.Act Call} (taken : s.callStep b = some t)
    (allowed : ∀ p call, b = .start p call → p < workerProcessesCount ∧ s.workers p ≠ .exited ∨
      p = cleanerId ∧ s.cleaner.position = .passing) : Sound first t := by
  obtain ⟨m, went, rfl⟩ := callStep_inv taken
  exact { h with
    punctual := h.punctual.tick (clock_le went)
    begun := h.begun.trans (clock_le went)
    busy := fun p some => by
      obtain before | ⟨call, started⟩ := busy_of_step went some
      · exact h.busy p before
      · exact allowed p call started }

/-- The cleaner does something outside of its pass. -/
theorem Sound.cleaner (h : Sound first s) {c : CleaningCompany}
    (punctual : c.Punctual first s.machine.clock) (idle : s.machine.procs cleanerId = none)
    (trigger : s.cleaner.exitTrigger = true → c.exitTrigger = true)
    (exited : s.cleaner.position = .exited → c.position = .exited) :
    Sound first { s with cleaner := c } :=
  { h with
    punctual := punctual
    busy := fun p some => by
      obtain worker | ⟨rfl, _⟩ := h.busy p some
      · exact .inl worker
      · exact absurd idle some
    told := fun left telling => (h.told left telling).imp_right fun told out => trigger (told out)
    gone := fun ended => (h.gone ended).imp_right exited }

theorem Sound.idle (h : Sound first s) (elsewhere : s.cleaner.position ≠ .passing) :
    s.machine.procs cleanerId = none := by
  by_contra some
  obtain ⟨worker, _⟩ | ⟨_, passing⟩ := h.busy _ some
  · exact absurd worker (lt_irrefl _)
  · exact elsewhere passing

section Signals

variable {p : Nat}

@[simp] theorem signal_machine : (s.signal p).machine = s.machine := by
  rw [signal]
  split_ifs <;> rfl

@[simp] theorem signal_workers : (s.signal p).workers = s.workers := by
  rw [signal]
  split_ifs <;> rfl

@[simp] theorem signal_master : (s.signal p).master = s.master := by
  rw [signal]
  split_ifs <;> rfl

@[simp] theorem signal_position : (s.signal p).cleaner.position = s.cleaner.position := by
  rw [signal]
  split_ifs <;> rfl

theorem signal_signalled (q : Nat) (before : s.signalled q = true ∨ q = p ∧ p ≠ cleanerId) :
    (s.signal p).signalled q = true := by
  rw [signal]
  split_ifs with cleaner exited
  · exact before.resolve_right fun own => own.2 cleaner
  · exact before.resolve_right fun own => own.2 cleaner
  · by_cases own : q = p
    · rw [own]
      exact Function.update_self _ _ _
    · exact (Function.update_of_ne own _ _).trans (before.resolve_right fun same => own same.1)

theorem signal_trigger (h : Sound first s)
    (before : s.cleaner.exitTrigger = true ∨ p = cleanerId) :
    (s.signal p).cleaner.exitTrigger = true := by
  rw [signal]
  split_ifs with cleaner exited
  · exact h.punctual.exited exited
  · rfl
  · exact before.resolve_right cleaner

theorem signal_punctual (h : Sound first s) :
    (s.signal p).cleaner.Punctual first s.machine.clock := by
  rw [signal]
  split_ifs
  · exact h.punctual
  · exact h.punctual.sigHandler
  · exact h.punctual

theorem childless_signal : (s.signal p).Childless ↔ s.Childless := by
  rw [Childless, Childless, signal_workers, signal_position]

theorem Sound.signal (h : Sound first s) : Sound first (s.signal p) where
  punctual := by
    rw [signal_machine]
    exact signal_punctual h
  begun := by
    rw [signal_machine]
    exact h.begun
  busy q := by
    rw [signal_machine, signal_workers, signal_position]
    exact h.busy q
  told left := by
    rw [signal_master, signal_workers]
    intro telling
    obtain ⟨workers, cleaner⟩ := h.told left telling
    refine ⟨fun q lt out => ?_, fun out => signal_trigger h (.inl (cleaner out))⟩
    exact (workers q lt out).imp_left fun before => signal_signalled q (.inl before)
  few left := by
    rw [signal_master]
    exact h.few left
  gone := by
    rw [signal_master, childless_signal]
    exact h.gone

end Signals

/-- A worker that is in no call handles its signal, or exits. -/
theorem Sound.worker (h : Sound first s) {p : Nat} (lt : p < workerProcessesCount)
    (here : s.workers p ≠ .exited) (idle : (s.machine.procs p).isNone = true) {w : Worker}
    (left : w ≠ .dispatching) {signalled : Nat → Bool}
    (others : ∀ q, q ≠ p → signalled q = s.signalled q) :
    Sound first { s with workers := Function.update s.workers p w, signalled := signalled } :=
  { h with
    busy := fun q some => by
      have other : q ≠ p := by
        rintro rfl
        exact some (Option.isNone_iff_eq_none.mp idle)
      simpa only [Function.update_of_ne other] using h.busy q some
    told := fun children telling => by
      refine ⟨fun q inside out => ?_, (h.told children telling).2⟩
      change signalled q = true ∨ Function.update s.workers p w q ≠ .dispatching
      by_cases own : q = p
      · rw [own, Function.update_self]
        exact .inr left
      · rw [Function.update_of_ne own, others q own]
        exact (h.told children telling).1 q inside out
    gone := fun ended => absurd ((h.gone ended).1 p lt) here }

/-- Every step keeps all that. -/
theorem Sound.step (h : Sound first s) (taken : s.step a = some t) : Sound first t := by
  cases a with
  | command p call =>
      obtain ⟨⟨lt, here, _⟩, taken⟩ := Option.ite_none_right_eq_some.mp taken
      refine h.callStep taken fun q c started => ?_
      cases started
      exact .inl ⟨lt, here⟩
  | run p => exact h.callStep taken nofun
  | finish p => exact h.callStep taken nofun
  | tick now => exact h.callStep taken nofun
  | signal p =>
      obtain ⟨_, same⟩ := Option.ite_none_right_eq_some.mp taken
      cases same
      exact h.signal
  | handle p =>
      obtain ⟨⟨lt, here, _, idle⟩, same⟩ := Option.ite_none_right_eq_some.mp taken
      cases same
      exact h.worker (w := .leaving) lt here idle nofun fun q other =>
        Function.update_of_ne other _ _
  | leave p =>
      obtain ⟨⟨lt, leaving, idle⟩, same⟩ := Option.ite_none_right_eq_some.mp taken
      cases same
      exact h.worker (w := .exited) lt (by simp [leaving]) idle nofun fun _ _ => rfl
  | timedwait =>
      obtain ⟨c, woke, rfl⟩ := Option.map_eq_some_iff.mp taken
      obtain ⟨waiting, ⟨_, rfl⟩ | ⟨_, _, rfl⟩⟩ := CleaningCompany.timedwait_inv woke
      all_goals
        exact h.cleaner (h.punctual.timedwait woke) (h.idle (by simp [waiting])) id
          (by simp [waiting])
  | test =>
      obtain ⟨c, tested, rfl⟩ := Option.map_eq_some_iff.mp taken
      obtain ⟨woken, ⟨_, rfl⟩ | ⟨_, rfl⟩⟩ := CleaningCompany.test_inv tested
      all_goals
        exact h.cleaner (h.punctual.test tested) (h.idle (by simp [woken])) id (by simp [woken])
  | collect =>
      simp only [Server.step] at taken
      split at taken
      · rename_i c collected
        obtain ⟨collecting, rfl⟩ := CleaningCompany.collect_inv collected
        have passing := h.cleaner (h.punctual.collect collected) (h.idle (by simp [collecting])) id
          (by simp [collecting])
        refine passing.callStep taken fun q call started => ?_
        cases started
        exact .inr ⟨rfl, rfl⟩
      · cases taken
  | sleep =>
      obtain ⟨idle, taken⟩ := Option.ite_none_right_eq_some.mp taken
      obtain ⟨c, slept, rfl⟩ := Option.map_eq_some_iff.mp taken
      obtain ⟨passing, rfl⟩ := CleaningCompany.sleep_inv slept
      exact h.cleaner (h.punctual.sleep h.begun slept) (Option.isNone_iff_eq_none.mp idle) id
        (by simp [passing])
  | interrupt =>
      cases taken
      exact { h with }
  | shutDown =>
      obtain ⟨_, same⟩ := Option.ite_none_right_eq_some.mp taken
      cases same
      refine { h with
        told := fun left telling => ?_
        few := by
          rintro _ ⟨⟩
          exact (List.length_range).le
        gone := by rintro (ended | ended) <;> cases ended }
      cases telling
      refine ⟨fun p lt out => absurd ?_ out, fun out => absurd ?_ out⟩
      · exact List.mem_range.mpr (Nat.lt_succ_of_lt lt)
      · exact List.mem_range.mpr (Nat.lt_succ_self _)
  | tell p =>
      simp only [Server.step] at taken
      split at taken
      · rename_i left telling
        obtain ⟨inside, same⟩ := Option.ite_none_right_eq_some.mp taken
        cases same
        obtain ⟨workers, cleaner⟩ := h.told left telling
        refine { h.signal with
          told := ?_
          few := by
            rintro _ ⟨⟩
            exact (List.length_erase_le).trans (h.few left telling)
          gone := by rintro (ended | ended) <;> cases ended }
        rintro _ ⟨⟩
        refine ⟨fun q lt out => ?_, fun out => signal_trigger h ?_⟩
        · change (s.signal p).signalled q = true ∨ (s.signal p).workers q ≠ .dispatching
          rw [signal_workers]
          by_cases own : q = p
          · exact .inl (signal_signalled q (.inr ⟨own, own ▸ lt.ne⟩))
          · rw [List.mem_erase_of_ne own] at out
            exact (workers q lt out).imp_left fun before => signal_signalled q (.inl before)
        · by_cases own : cleanerId = p
          · exact .inr own.symm
          · rw [List.mem_erase_of_ne own] at out
            exact .inl (cleaner out)
      · cases taken
  | reaped =>
      obtain ⟨⟨_, childless⟩, same⟩ := Option.ite_none_right_eq_some.mp taken
      cases same
      exact { h with told := nofun, few := nofun, gone := fun _ => childless }
  | accept p =>
      obtain ⟨_, same⟩ := Option.ite_none_right_eq_some.mp taken
      cases same
      split_ifs
      · exact { h with
          told := nofun
          few := nofun
          gone := by rintro (ended | ended) <;> cases ended }
      · exact h
  | delete =>
      obtain ⟨leaving, same⟩ := Option.ite_none_right_eq_some.mp taken
      cases same
      exact { h with told := nofun, few := nofun, gone := fun _ => h.gone (.inl leaving) }

/-! ## The calls -/

theorem machine_of_step (taken : s.step a = some t) :
    t.machine = s.machine ∨ ∃ b, Workers.step s.machine b = some t.machine := by
  have call {s t : Server} {b : Machine.Act Call} (taken : s.callStep b = some t) :
      ∃ b, Workers.step s.machine b = some t.machine := by
    obtain ⟨m, went, rfl⟩ := callStep_inv taken
    exact ⟨b, went⟩
  cases a with
  | command p c => exact .inr (call (Option.ite_none_right_eq_some.mp taken).2)
  | run p | finish p | tick now => exact .inr (call taken)
  | signal p =>
      obtain ⟨_, same⟩ := Option.ite_none_right_eq_some.mp taken
      cases same
      exact .inl signal_machine
  | handle p | leave p | shutDown | reaped | delete =>
      obtain ⟨_, same⟩ := Option.ite_none_right_eq_some.mp taken
      cases same
      exact .inl rfl
  | timedwait | test =>
      obtain ⟨c, _, rfl⟩ := Option.map_eq_some_iff.mp taken
      exact .inl rfl
  | collect =>
      simp only [Server.step] at taken
      split at taken
      · obtain ⟨m, went, rfl⟩ := callStep_inv taken
        exact .inr ⟨_, went⟩
      · cases taken
  | sleep =>
      obtain ⟨_, taken⟩ := Option.ite_none_right_eq_some.mp taken
      obtain ⟨c, _, rfl⟩ := Option.map_eq_some_iff.mp taken
      exact .inl rfl
  | interrupt =>
      cases taken
      exact .inl rfl
  | tell p =>
      simp only [Server.step] at taken
      split at taken
      · obtain ⟨_, same⟩ := Option.ite_none_right_eq_some.mp taken
        cases same
        exact .inl signal_machine
      · cases taken
  | accept p =>
      obtain ⟨_, same⟩ := Option.ite_none_right_eq_some.mp taken
      cases same
      refine .inl ?_
      split_ifs <;> rfl

/-- What is known of every state that is reached. -/
structure Reached (mem : Memory) (clock : Nat) (s : Server) : Prop where
  sound : Sound clock s
  ran : ∃ acts, Run Workers.step Always (.initial mem clock) acts s.machine

theorem Reached.step {mem : Memory} {clock : Nat} (h : Reached mem clock s)
    (taken : s.step a = some t) : Reached mem clock t := by
  refine ⟨h.sound.step taken, ?_⟩
  obtain ⟨acts, ran⟩ := h.ran
  obtain same | ⟨b, went⟩ := machine_of_step taken
  · exact ⟨acts, same ▸ ran⟩
  · exact ⟨_, ran.snoc trivial went⟩

theorem Reached.of_run {mem : Memory} {clock : Nat} {acts : List Act}
    (ran : Run Server.step Always (start mem clock) acts s) : Reached mem clock s :=
  ran.invariant (fun _ s => Reached mem clock s) ⟨.start mem clock, [], .nil⟩
    fun h _ taken => h.step taken

/-- The processes that have calls. -/
def clients : Finset Nat := Finset.range (workerProcessesCount + 1)

theorem Reached.bounded {mem : Memory} {clock : Nat} (h : Reached mem clock s) :
    Machine.Bounded clients callSteps s.machine where
  ends := by
    obtain ⟨acts, ran⟩ := h.ran
    exact Machine.allEnd_of_run ends_code ran
  inside p busy := by
    rw [clients, Finset.mem_range, Nat.lt_succ_iff]
    obtain ⟨lt, _⟩ | ⟨rfl, _⟩ := h.sound.busy p busy
    · exact lt.le
    · exact le_rfl

theorem Reached.disciplined {mem : Memory} (ends : segments.RecordsEnd mem) {clock : Nat}
    (h : Reached mem clock s) :
    Machine.Disciplined segments.toSemaphores segments.guard tableBytes code s.machine := by
  obtain ⟨acts, ran⟩ := h.ran
  exact disciplined_of_run ends ran

/-! ## What is left of a shutdown -/

/-- Until the worker has exited. -/
def workerLeft (s : Server) (p : Nat) : Nat :=
  (match s.workers p with
    | .dispatching => 2
    | .leaving => 1
    | .exited => 0) + (s.signalled p).toNat

/-- Until the cleaner has exited, or sleeps until its next pass. A pass that is
due is still made. -/
def cleanerLeft (c : CleaningCompany) (clock : Nat) : Nat :=
  match c.position with
  | .waiting => if c.exitTrigger = false ∧ c.delay ≤ clock then callSteps + 8 else 2
  | .woken => if c.exitTrigger = false then callSteps + 7 else 1
  | .collecting => callSteps + 6
  | .passing => 3
  | .exited => 0

def masterLeft : Master → Nat
  | .telling children => 2 * children.length + 2
  | .leaving => 1
  | .serving | .deleted | .broken => 0

noncomputable def left (s : Server) : Nat :=
  s.machine.leftOf clients + ∑ p ∈ Finset.range workerProcessesCount, s.workerLeft p +
    cleanerLeft s.cleaner s.machine.clock + masterLeft s.master + 13 * s.interrupted.toNat

section Left

variable {c c' : CleaningCompany} {clock p : Nat}

theorem cleanerLeft_sigHandler : cleanerLeft c.sigHandler clock ≤ cleanerLeft c clock := by
  cases position : c.position with
  | waiting =>
      have after : cleanerLeft c.sigHandler clock = 2 := by
        simp [cleanerLeft, CleaningCompany.sigHandler, position]
      rw [after]
      simp only [cleanerLeft, position]
      split <;> omega
  | woken =>
      have after : cleanerLeft c.sigHandler clock = 1 := by
        simp [cleanerLeft, CleaningCompany.sigHandler, position]
      rw [after]
      simp only [cleanerLeft, position]
      split <;> omega
  | collecting | passing | exited =>
      simp [cleanerLeft, CleaningCompany.sigHandler, position]

theorem cleanerLeft_timedwait (h : c.Punctual first clock)
    (taken : c.timedwait clock = some c') : cleanerLeft c' clock < cleanerLeft c clock := by
  obtain ⟨waiting, ⟨post, rfl⟩ | ⟨_, past, rfl⟩⟩ := CleaningCompany.timedwait_inv taken
  · simp [cleanerLeft, waiting, h.posted post]
  · by_cases trigger : c.exitTrigger = false
    · simp [cleanerLeft, waiting, trigger, past]
    · simp [cleanerLeft, waiting, trigger]

theorem cleanerLeft_test (taken : c.test = some c') :
    cleanerLeft c' clock < cleanerLeft c clock := by
  obtain ⟨woken, ⟨trigger, rfl⟩ | ⟨off, rfl⟩⟩ := CleaningCompany.test_inv taken
  · simp [cleanerLeft, woken, trigger]
  · simp [cleanerLeft, woken, off]

theorem cleanerLeft_collect (taken : c.collect clock = some c') :
    cleanerLeft c' clock + (callSteps + 1) < cleanerLeft c clock := by
  obtain ⟨collecting, rfl⟩ := CleaningCompany.collect_inv taken
  simp only [cleanerLeft, collecting]
  omega

theorem cleanerLeft_sleep (taken : c.sleep clock = some c') :
    cleanerLeft c' clock < cleanerLeft c clock := by
  obtain ⟨passing, rfl⟩ := CleaningCompany.sleep_inv taken
  have asleep : ¬ CleaningCompany.period + clock ≤ clock := by
    rw [CleaningCompany.period]
    omega
  simp [cleanerLeft, passing, asleep]

/-- A worker takes a step of its own. -/
theorem sum_workerLeft_lt (inside : p < workerProcessesCount)
    (less : t.workerLeft p < s.workerLeft p)
    (others : ∀ q, q ≠ p → t.workerLeft q = s.workerLeft q) :
    ∑ q ∈ Finset.range workerProcessesCount, t.workerLeft q <
      ∑ q ∈ Finset.range workerProcessesCount, s.workerLeft q := by
  refine Finset.sum_lt_sum (fun q _ => ?_) ⟨p, Finset.mem_range.mpr inside, less⟩
  by_cases own : q = p
  · exact own ▸ less.le
  · exact (others q own).le

/-- A worker has one more signal to handle. -/
theorem sum_workerLeft_le (more : t.workerLeft p ≤ s.workerLeft p + 1)
    (others : ∀ q, q ≠ p → t.workerLeft q = s.workerLeft q) :
    ∑ q ∈ Finset.range workerProcessesCount, t.workerLeft q ≤
      ∑ q ∈ Finset.range workerProcessesCount, s.workerLeft q + 1 := by
  by_cases inside : p ∈ Finset.range workerProcessesCount
  · rw [← Finset.sum_erase_add _ _ inside, ← Finset.sum_erase_add _ _ inside, Nat.add_assoc]
    refine Nat.add_le_add (Finset.sum_le_sum fun q other => ?_) more
    exact (others q (Finset.ne_of_mem_erase other)).le
  · refine Nat.le_succ_of_le (Finset.sum_le_sum fun q here => (others q ?_).le)
    rintro rfl
    exact inside here

theorem left_master (phase : Master) :
    ({ s with master := phase } : Server).left + masterLeft s.master =
      s.left + masterLeft phase := by
  simp only [left, workerLeft]
  omega

theorem signal_left (p : Nat) : (s.signal p).left ≤ s.left + 1 := by
  rw [signal]
  split_ifs with cleaner exited
  · exact Nat.le_succ _
  · have less : cleanerLeft s.cleaner.sigHandler s.machine.clock ≤
        cleanerLeft s.cleaner s.machine.clock := cleanerLeft_sigHandler
    simp only [left, workerLeft]
    omega
  · have more := sum_workerLeft_le (p := p) (s := s)
      (t := { s with signalled := Function.update s.signalled p true }) (by
        simp only [workerLeft, Function.update_self, Bool.toNat_true]
        omega) (fun q other => by simp only [workerLeft, Function.update_of_ne other])
    simp only [left]
    omega

/-- Without clients and further signals every step leaves less. -/
theorem Reached.down {mem : Memory} (h : Reached mem clock s) (onward : Onward s a)
    (taken : s.step a = some t) : t.left < s.left := by
  have call {b : Machine.Act Call} (goesOn : Machine.Onward s.machine b)
      (taken : s.callStep b = some t) : t.left < s.left := by
    obtain ⟨m, went, rfl⟩ := callStep_inv taken
    obtain ⟨_, less⟩ := h.bounded.onward goesOn went
    have clock : m.clock = s.machine.clock := by
      obtain same | ⟨now, rfl, _⟩ := Machine.clock_of_step went
      · exact same
      · exact goesOn.elim
    simp only [left, clock]
    exact Nat.add_lt_add_right (Nat.add_lt_add_right (Nat.add_lt_add_right
      (Nat.add_lt_add_right less _) _) _) _
  cases a with
  | command | tick | signal | interrupt | accept => exact onward.elim
  | run p => exact call (b := .run p) trivial taken
  | finish p => exact call (b := .finish p) trivial taken
  | handle p =>
      obtain ⟨⟨lt, here, signalled, _⟩, same⟩ := Option.ite_none_right_eq_some.mp taken
      cases same
      have less := sum_workerLeft_lt (s := s) (p := p) (t := { s with
        workers := Function.update s.workers p .leaving
        signalled := Function.update s.signalled p false }) lt
        (by
          simp only [workerLeft, Function.update_self, signalled]
          cases stage : s.workers p <;> simp_all)
        (fun q other => by simp only [workerLeft, Function.update_of_ne other])
      simp only [left]
      omega
  | leave p =>
      obtain ⟨⟨lt, leaving, _⟩, same⟩ := Option.ite_none_right_eq_some.mp taken
      cases same
      have less := sum_workerLeft_lt (s := s) (p := p)
        (t := { s with workers := Function.update s.workers p .exited }) lt
        (by simp [workerLeft, leaving])
        (fun q other => by simp only [workerLeft, Function.update_of_ne other])
      simp only [left]
      omega
  | timedwait =>
      obtain ⟨c, woke, rfl⟩ := Option.map_eq_some_iff.mp taken
      have less := cleanerLeft_timedwait h.sound.punctual woke
      simp only [left, workerLeft]
      omega
  | test =>
      obtain ⟨c, tested, rfl⟩ := Option.map_eq_some_iff.mp taken
      have less : cleanerLeft c s.machine.clock < cleanerLeft s.cleaner s.machine.clock :=
        cleanerLeft_test tested
      simp only [left, workerLeft]
      omega
  | collect =>
      simp only [Server.step] at taken
      split at taken
      · rename_i c collected
        obtain ⟨m, went, rfl⟩ := callStep_inv taken
        have less := cleanerLeft_collect collected
        have more : m.leftOf clients ≤ s.machine.leftOf clients + (callSteps + 1) :=
          Machine.leftOf_start (ends_code .collectGarbage)
            (Finset.mem_range.mpr (Nat.lt_succ_self _)) went
        have same : m.clock = s.machine.clock := by
          obtain same | ⟨now, other, _⟩ := Machine.clock_of_step went
          · exact same
          · cases other
        simp only [left, workerLeft, same]
        omega
      · cases taken
  | sleep =>
      obtain ⟨_, taken⟩ := Option.ite_none_right_eq_some.mp taken
      obtain ⟨c, slept, rfl⟩ := Option.map_eq_some_iff.mp taken
      have less := cleanerLeft_sleep slept
      simp only [left, workerLeft]
      omega
  | shutDown =>
      obtain ⟨⟨interrupted, phase⟩, same⟩ := Option.ite_none_right_eq_some.mp taken
      cases same
      have five : masterLeft (.telling children) = 12 := rfl
      simp only [left, workerLeft, interrupted, five, Bool.toNat_true, Bool.toNat_false]
      omega
  | tell p =>
      simp only [Server.step] at taken
      split at taken
      · rename_i untold telling
        obtain ⟨inside, same⟩ := Option.ite_none_right_eq_some.mp taken
        cases same
        have more := signal_left (s := s) p
        have fewer : (untold.erase p).length + 1 = untold.length :=
          List.length_erase_add_one inside
        have told := left_master (s := s.signal p) (.telling (untold.erase p))
        rw [signal_master, telling, masterLeft, masterLeft] at told
        omega
      · cases taken
  | reaped =>
      obtain ⟨⟨telling, _⟩, same⟩ := Option.ite_none_right_eq_some.mp taken
      cases same
      simp only [left, workerLeft, telling, masterLeft, List.length_nil]
      omega
  | delete =>
      obtain ⟨leaving, same⟩ := Option.ite_none_right_eq_some.mp taken
      cases same
      simp only [left, workerLeft, leaving, masterLeft]
      omega

end Left

/-! ## The end of a shutdown -/

/-- Until the master is at its end, some process can go on. -/
theorem Reached.go {mem : Memory} (ends : segments.RecordsEnd mem) {clock : Nat}
    (h : Reached mem clock s) (shutting : ShuttingDown s) :
    ∃ a t, Onward s a ∧ s.step a = some t := by
  obtain leaving | ⟨_ | ⟨p, untold⟩, telling⟩ := shutting
  · exact ⟨.delete, _, trivial, if_pos leaving⟩
  · by_cases childless : s.Childless
    · exact ⟨.reaped, _, trivial, if_pos ⟨telling, childless⟩⟩
    by_cases busy : ∃ p, s.machine.procs p ≠ none
    · obtain ⟨q, m, ran | finished⟩ := (h.disciplined ends).progress busy
      · exact ⟨.run q, { s with machine := m }, trivial, Option.map_eq_some_iff.mpr ⟨m, ran, rfl⟩⟩
      · exact ⟨.finish q, { s with machine := m }, trivial,
          Option.map_eq_some_iff.mpr ⟨m, finished, rfl⟩⟩
    have idle (p : Nat) : (s.machine.procs p).isNone = true := by
      rw [Option.isNone_iff_eq_none]
      by_contra some
      exact busy ⟨p, some⟩
    obtain ⟨workers, cleaner⟩ := h.sound.told [] telling
    have trigger := cleaner List.not_mem_nil
    by_cases all : ∀ p < workerProcessesCount, s.workers p = .exited
    · have here : s.cleaner.position ≠ .exited := fun exited => childless ⟨all, exited⟩
      obtain ⟨c, woke⟩ | ⟨c, tested⟩ | ⟨c, collected⟩ | ⟨c, slept⟩ :=
        h.sound.punctual.go trigger here
      · exact ⟨.timedwait, { s with cleaner := c }, trivial,
          Option.map_eq_some_iff.mpr ⟨c, woke, rfl⟩⟩
      · exact ⟨.test, { s with cleaner := c }, trivial,
          Option.map_eq_some_iff.mpr ⟨c, tested, rfl⟩⟩
      · have none : s.machine.procs cleanerId = none := Option.isNone_iff_eq_none.mp (idle _)
        refine ⟨.collect, { s with
          cleaner := c
          machine := s.machine.goOn cleanerId .collectGarbage (code .collectGarbage) }, trivial, ?_⟩
        simp [Server.step, collected, callStep, Workers.step, Machine.step, none]
      · refine ⟨.sleep, { s with cleaner := c }, trivial, ?_⟩
        simp [Server.step, idle, slept]
    · obtain ⟨p, lt, here⟩ : ∃ p, p < workerProcessesCount ∧ s.workers p ≠ .exited := by
        simpa using all
      cases stage : s.workers p with
      | dispatching =>
          have signalled := (workers p lt List.not_mem_nil).resolve_right (by simp [stage])
          exact ⟨.handle p, _, trivial, if_pos ⟨lt, here, signalled, idle p⟩⟩
      | leaving => exact ⟨.leave p, _, trivial, if_pos ⟨lt, stage, idle p⟩⟩
      | exited => exact absurd stage here
  · refine ⟨.tell p, { s.signal p with master := .telling ((p :: untold).erase p) }, trivial, ?_⟩
    simp [Server.step, telling]

/-- A shutdown goes on until the master is at its end. -/
theorem onward_phase (onward : Onward s a) (phase : ShuttingDown s ∨ s.master = .deleted)
    (taken : s.step a = some t) : ShuttingDown t ∨ t.master = .deleted := by
  cases a with
  | command | tick | signal | interrupt | accept => exact onward.elim
  | run p | finish p =>
      obtain ⟨m, _, rfl⟩ := callStep_inv taken
      exact phase
  | handle p | leave p =>
      obtain ⟨_, same⟩ := Option.ite_none_right_eq_some.mp taken
      cases same
      exact phase
  | timedwait | test =>
      obtain ⟨c, _, rfl⟩ := Option.map_eq_some_iff.mp taken
      exact phase
  | collect =>
      simp only [Server.step] at taken
      split at taken
      · obtain ⟨m, _, rfl⟩ := callStep_inv taken
        exact phase
      · cases taken
  | sleep =>
      obtain ⟨_, taken⟩ := Option.ite_none_right_eq_some.mp taken
      obtain ⟨c, _, rfl⟩ := Option.map_eq_some_iff.mp taken
      exact phase
  | shutDown =>
      obtain ⟨_, same⟩ := Option.ite_none_right_eq_some.mp taken
      cases same
      exact .inl (.inr ⟨_, rfl⟩)
  | tell p =>
      simp only [Server.step] at taken
      split at taken
      · obtain ⟨_, same⟩ := Option.ite_none_right_eq_some.mp taken
        cases same
        exact .inl (.inr ⟨_, rfl⟩)
      · cases taken
  | reaped =>
      obtain ⟨_, same⟩ := Option.ite_none_right_eq_some.mp taken
      cases same
      exact .inl (.inl rfl)
  | delete =>
      obtain ⟨_, same⟩ := Option.ite_none_right_eq_some.mp taken
      cases same
      exact .inr rfl

/-- More steps than a shutdown can have. -/
def shutdownSteps : Nat := 6 * callSteps + 50

theorem workerLeft_le (p : Nat) : s.workerLeft p ≤ 3 := by
  have flag := Bool.toNat_le (s.signalled p)
  rw [workerLeft]
  split <;> omega

theorem cleanerLeft_le (c : CleaningCompany) (clock : Nat) :
    cleanerLeft c clock ≤ callSteps + 8 := by
  rw [cleanerLeft]
  split <;> try split
  all_goals omega

theorem Reached.left_le {mem : Memory} {clock : Nat} (h : Reached mem clock s) :
    s.left ≤ shutdownSteps := by
  have calls : s.machine.leftOf clients ≤ 5 * (callSteps + 1) := h.bounded.leftOf_le
  have workers : ∑ p ∈ Finset.range workerProcessesCount, s.workerLeft p ≤ 4 * 3 :=
    Finset.sum_le_card_nsmul _ _ _ fun p _ => workerLeft_le p
  have cleaner := cleanerLeft_le s.cleaner s.machine.clock
  have master : masterLeft s.master ≤ 12 := by
    cases phase : s.master with
    | telling untold =>
        have few := h.sound.few untold phase
        rw [workerProcessesCount] at few
        simp only [masterLeft]
        omega
    | _ => decide
  have flag := Bool.toNat_le s.interrupted
  rw [left, shutdownSteps]
  omega

/-! ## The results -/

/-- When the table and the semaphores are removed, no child of the master is
left, no call was cut short, and every semaphore has its permit. Once the master
has begun to shut down, every schedule without clients and further signals comes
to that in a bounded number of steps. -/
theorem shutdown_is_clean {mem : Memory} (ends : segments.RecordsEnd mem) {clock : Nat}
    {before : List Act} {s : Server}
    (reached : Run Server.step Always (.start mem clock) before s) :
    (s.master = .deleted → s.Childless ∧ (∀ p, s.machine.procs p = none) ∧
      ∀ i < hashtableSegmentsCount, s.machine.value i = 1) ∧
    (ShuttingDown s → ∀ acts t, Run Server.step Onward s acts t →
      acts.length ≤ shutdownSteps ∧
        ∃ rest u, Run Server.step Onward t rest u ∧ u.master = .deleted) := by
  have known := Reached.of_run reached
  constructor
  · intro deleted
    have childless := known.sound.gone (.inr deleted)
    have idle (p : Nat) : s.machine.procs p = none := by
      by_contra busy
      obtain ⟨lt, here⟩ | ⟨_, passing⟩ := known.sound.busy p busy
      · exact here (childless.1 p lt)
      · rw [childless.2] at passing
        cases passing
    have disciplined := known.disciplined ends
    refine ⟨childless, idle, fun i lt => ?_⟩
    have balance := disciplined.balance i lt
    rw [disciplined.nothing_held idle] at balance
    exact balance
  · intro shutting acts t ran
    let going (s : Server) : Prop := Reached mem clock s ∧ (ShuttingDown s ∨ s.master = .deleted)
    have down {s t : Server} {a : Act} (h : going s) (onward : Onward s a)
        (taken : s.step a = some t) : going t ∧ t.left < s.left :=
      ⟨⟨h.1.step taken, onward_phase onward h.2 taken⟩, h.1.down onward taken⟩
    obtain ⟨kept, bound⟩ := ran.length_le going left ⟨known, .inl shutting⟩ down
    refine ⟨(Nat.le_of_add_right_le bound).trans known.left_le, ?_⟩
    exact Run.completes going (fun s => s.master = .deleted) left kept down
      fun h more => h.1.go ends (h.2.resolve_right more)

/-- A signal for the master, and what follows. -/
theorem shutdown_is_clean_interrupted : ∃ acts s,
    Run Server.step Always (.start (fun _ => 0) 0) acts s ∧ s.master = .deleted ∧
      s.Childless ∧ (∀ p, s.machine.procs p = none) ∧ s.machine.value 0 = 1 := by
  have begun : Run Server.step Always (.start (fun _ => 0) 0) [.interrupt, .shutDown] _ :=
    .of_foldlM rfl
  obtain ⟨_, rest, s, ran, deleted⟩ :=
    (shutdown_is_clean recordsEnd_zero begun).2 (.inr ⟨_, rfl⟩) [] _ .nil
  have whole := begun.trans (ran.mono fun _ _ _ => trivial)
  obtain ⟨childless, idle, free⟩ := (shutdown_is_clean recordsEnd_zero whole).1 deleted
  exact ⟨_, s, whole, deleted, childless, idle, free 0 (by decide)⟩

/-- What a step does to the cleaner. -/
theorem cleaner_of_step (taken : s.step a = some t) : t.cleaner = s.cleaner ∨
    t.cleaner = s.cleaner.sigHandler ∨
      s.cleaner.timedwait s.machine.clock = some t.cleaner ∨ s.cleaner.test = some t.cleaner ∨
        s.cleaner.collect s.machine.clock = some t.cleaner ∨
          s.cleaner.sleep s.machine.clock = some t.cleaner := by
  have signalled (p : Nat) : (s.signal p).cleaner = s.cleaner ∨
      (s.signal p).cleaner = s.cleaner.sigHandler := by
    rw [signal]
    split_ifs
    · exact .inl rfl
    · exact .inr rfl
    · exact .inl rfl
  cases a with
  | command p call =>
      obtain ⟨m, _, rfl⟩ := callStep_inv (Option.ite_none_right_eq_some.mp taken).2
      exact .inl rfl
  | run p | finish p | tick now =>
      obtain ⟨m, _, rfl⟩ := callStep_inv taken
      exact .inl rfl
  | signal p =>
      obtain ⟨_, same⟩ := Option.ite_none_right_eq_some.mp taken
      cases same
      exact (signalled p).imp_right .inl
  | handle p | leave p | shutDown | reaped | delete =>
      obtain ⟨_, same⟩ := Option.ite_none_right_eq_some.mp taken
      cases same
      exact .inl rfl
  | timedwait =>
      obtain ⟨c, woke, rfl⟩ := Option.map_eq_some_iff.mp taken
      exact .inr (.inr (.inl woke))
  | test =>
      obtain ⟨c, tested, rfl⟩ := Option.map_eq_some_iff.mp taken
      exact .inr (.inr (.inr (.inl tested)))
  | collect =>
      simp only [Server.step] at taken
      split at taken
      · rename_i c collected
        obtain ⟨m, _, rfl⟩ := callStep_inv taken
        exact .inr (.inr (.inr (.inr (.inl collected))))
      · cases taken
  | sleep =>
      obtain ⟨_, taken⟩ := Option.ite_none_right_eq_some.mp taken
      obtain ⟨c, slept, rfl⟩ := Option.map_eq_some_iff.mp taken
      exact .inr (.inr (.inr (.inr (.inr slept))))
  | interrupt =>
      cases taken
      exact .inl rfl
  | tell p =>
      simp only [Server.step] at taken
      split at taken
      · obtain ⟨_, same⟩ := Option.ite_none_right_eq_some.mp taken
        cases same
        exact (signalled p).imp_right .inl
      · cases taken
  | accept p =>
      obtain ⟨_, same⟩ := Option.ite_none_right_eq_some.mp taken
      cases same
      refine .inl ?_
      split_ifs <;> rfl

/-- Passes of the collector begin half a minute apart, the first one half a
minute after the cleaner was started. When the cleaner has handled a signal it
begins one more pass at most, whatever happens, and it does not sleep again. -/
theorem passes_apart {mem : Memory} {clock : Nat} {before : List Act} {s : Server}
    (reached : Run Server.step Always (.start mem clock) before s) :
    s.cleaner.passes.Pairwise (fun next last => last + 30 ≤ next) ∧
      (∀ time ∈ s.cleaner.passes, clock + 30 ≤ time) ∧
      (s.cleaner.exitTrigger = true →
        (s.cleaner.position = .waiting → (s.cleaner.timedwait s.machine.clock).isSome) ∧
          ∀ acts t, Run Server.step Always s acts t →
            t.cleaner.passes.length ≤ s.cleaner.passes.length + 1) := by
  have known := Reached.of_run reached
  refine ⟨known.sound.punctual.apart, known.sound.punctual.afterFirst, fun trigger => ⟨?_, ?_⟩⟩
  · intro waiting
    have post : 0 < s.cleaner.timedSem := by
      simpa [waiting] using known.sound.punctual.kept trigger
    rw [CleaningCompany.timedwait, if_neg (not_not.mpr waiting), if_pos post, Option.isSome_some]
  · intro acts t ran
    have pledged := ran.invariant (fun _ t => t.cleaner.exitTrigger = true ∧
      t.cleaner.pledged ≤ s.cleaner.pledged) ⟨trigger, le_rfl⟩ ?_
    · obtain ⟨_, few⟩ := pledged
      rw [CleaningCompany.pledged, CleaningCompany.pledged] at few
      split_ifs at few <;> omega
    · rintro _ u b v ⟨trigger, few⟩ _ taken
      obtain same | moved := cleaner_of_step taken
      · exact same ▸ ⟨trigger, few⟩
      · obtain ⟨still, fewer⟩ := CleaningCompany.pledged_le trigger moved
        exact ⟨still, fewer.trans few⟩

/-- The instructions of one process are steps of the server. -/
theorem exists_run_of_calls {p : Nat} {acts : List (Machine.Act Call)} {m m' : Workers}
    (there : s.machine = m) (ran : Run Workers.step (fun _ a => a = .run p) m acts m') :
    ∃ acts, Run Server.step Always s acts { s with machine := m' } := by
  subst there
  induction ran with
  | nil => exact ⟨[], .nil⟩
  | snoc _ own taken ih =>
      obtain ⟨acts, ran⟩ := ih
      subst own
      refine ⟨_, ran.snoc trivial (a := .run p) ?_⟩
      simp only [Server.step, callStep, taken, Option.map_some]

/-- The first pass of the cleaner, half a minute after the start. -/
theorem first_pass : ∃ acts s r, Run Server.step Always (.start (fun _ => 0) 0) acts s ∧
    s.machine.procs cleanerId = some (.collectGarbage, .ret r) ∧ s.machine.clock = 30 ∧
    s.cleaner = ⟨.passing, 30, false, 0, [30]⟩ := by
  obtain ⟨s, m, begun, same, calls, none, started, clock, cleaner⟩ : ∃ s m,
      Run Server.step Always (.start (fun _ => 0) 0) [.tick 30, .timedwait, .test, .collect] s ∧
      s.machine = m ∧ Run Workers.step Always (.initial (fun _ => 0) 0)
        [.tick 30, .start cleanerId .collectGarbage] m ∧ m.holds = [] ∧
      m.procs cleanerId = some (.collectGarbage, code .collectGarbage) ∧ m.clock = 30 ∧
      s.cleaner = ⟨.passing, 30, false, 0, [30]⟩ :=
    ⟨_, _, .of_foldlM rfl, rfl, .of_foldlM rfl, rfl, Machine.goOn_procs_self _ _ _ _, rfl, rfl⟩
  obtain ⟨n, m', ran, advanced, _⟩ := runs_from recordsEnd_zero calls none started
  have own : Run Workers.step (fun _ a => a = .run cleanerId) m (List.replicate n _) m' :=
    ran.mem_acts.mono fun _ _ => List.eq_of_mem_replicate
  obtain ⟨acts, instructions⟩ := exists_run_of_calls same own
  exact ⟨_, _, _, begun.trans instructions, advanced.procs, advanced.clock.trans clock, cleaner⟩

/-- A signal that comes behind the test of `exit_trigger`, in the second round
of the cleaner. -/
theorem passes_apart_signalled : ∃ acts s,
    Run Server.step Always (.start (fun _ => 0) 0) acts s ∧ s.cleaner.passes = [60, 30] ∧
      s.cleaner.passes.Pairwise (fun next last => last + 30 ≤ next) ∧
      s.cleaner.exitTrigger = true ∧
      ∀ acts t, Run Server.step Always s acts t → t.cleaner.passes.length ≤ 3 := by
  obtain ⟨_, s, r, first, returned, clock, cleaner⟩ := first_pass
  obtain ⟨t, second, passes, trigger⟩ : ∃ t, Run Server.step Always s
      [.finish cleanerId, .sleep, .tick 60, .timedwait, .test, .signal cleanerId, .collect] t ∧
      t.cleaner.passes = [60, 30] ∧ t.cleaner.exitTrigger = true := by
    obtain ⟨m, workers, signalled, c, interrupted, master⟩ := s
    obtain ⟨mem, value, now, procs, holds⟩ := m
    cases clock
    cases cleaner
    have finished : step ⟨⟨mem, value, 30, procs, holds⟩, workers, signalled,
        ⟨.passing, 30, false, 0, [30]⟩, interrupted, master⟩ (.finish cleanerId) =
        some ⟨⟨mem, value, 30, Function.update procs cleanerId none, holds⟩, workers, signalled,
          ⟨.passing, 30, false, 0, [30]⟩, interrupted, master⟩ := by
      change procs cleanerId = _ at returned
      simp only [step, callStep, Workers.step, Machine.step, returned, Option.map_some]
    exact ⟨_, .cons trivial finished (.of_foldlM rfl), rfl, rfl⟩
  have ran := first.trans second
  obtain ⟨apart, _, last⟩ := passes_apart ran
  have few := (last trigger).2
  rw [passes] at few
  exact ⟨_, t, ran, passes, apart, trigger, few⟩

end Server

end ServerProcess

end EmrakulV2
