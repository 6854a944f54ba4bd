import Technosphere.Emrakul.PosixHashTable.Concurrent
import Technosphere.Emrakul.PosixHashTable.Locking
import Technosphere.SharedMemory.Atomicity
import Technosphere.SharedMemory.Ownership.Alone

/-!
# Every run of the workers and the cleaner is one of whole critical sections

The calls on the table of v2.0 are taken instruction by instruction, with the
semaphores as `sem_wait` and `sem_post` operate them. The locking discipline
makes every critical section atomic, so what is known of the coarse runs is
known of these: the same calls start and end in the same order, with the same
replies.
-/

namespace PosixHashTable

open SharedMemory Prog OpenAddressing Emrakul Transition

/-- The processes that share the table, instruction by instruction. -/
abbrev Workers := Machine Call Nat Point Reply

namespace Workers

def initial (mem : Memory) (clock : Nat) : Workers :=
  Machine.initial segments.toSemaphores mem clock

def step : Workers → Machine.Act Call → Option Workers :=
  Machine.step segments.toSemaphores code

end Workers

/-- Any values may be written, and every record ends inside its cell. -/
abbrev wholeProtocol : Protocol Nat := segments.protocol {v | v.length < valueSize} True

abbrev WholeReturns (mem : Memory) (c : Call) : Reply → Ghost Nat → Prop :=
  Returns True (segments.whole {v | v.length < valueSize} mem) (.call c)

theorem wp_code {mem : Memory} (ends : segments.RecordsEnd mem) (c : Call) (now : Nat) :
    wholeProtocol.wp (MayStore (.call c)) (code c) (.fresh mem now) (WholeReturns mem c) :=
  wp_textOf (fun _ short => short) (fun _ => ends) (.call c) (fun _ value _ _ => value.fits) now

/-- Where every record ends inside its cell, the calls keep the discipline. -/
theorem disciplined_of_run {mem : Memory} (ends : segments.RecordsEnd mem) {clock : Nat}
    {acts : List (Machine.Act Call)} {s : Workers}
    (ran : Run Workers.step Always (.initial mem clock) acts s) :
    Machine.Disciplined segments.toSemaphores segments.guard tableBytes code s := by
  have quits : ∀ c r γ, WholeReturns mem c r γ → γ.held = none := fun c => Returns.free (.call c)
  obtain ⟨whole, g, supported⟩ := Protocol.supported_of_run (P := wholeProtocol)
    (fun _ _ c now _ => wp_code ends c now) quits ran
  rw [tableBytes, ← cells_segments]
  exact supported.disciplined trivial quits

/-- A paused call waits for a semaphore or is over. -/
theorem readsClock_textAt (call : Call) (σ : Site) : (textAt call σ).readsClock = false := by
  cases σ with
  | filled cur rest => cases call <;> rfl
  | free cur rest => cases call <;> rfl
  | body c => cases call <;> rfl
  | sweep cur rest n => cases call <;> rfl
  | done reply => rfl

theorem readsClock_of_run {L : Located Call Site} {acts : List (Action Call)} {u : System}
    (ran : Run (SharedMemory.step code) Always (places.config L) acts u) {p : Nat} {c : Call}
    {q : Text Reply} (paused : u.procs p = some (c, q)) : q.readsClock = false := by
  obtain ⟨L', rfl, _⟩ := places.invariant (fun _ _ => True) (fun _ _ _ => trivial)
    (fun _ _ _ _ => trivial) (fun _ _ _ _ => trivial) trivial ran
  obtain ⟨σ, _, rfl⟩ := places.sites_of_procs paused
  exact readsClock_textAt c σ

/-- `u` is the coarse view of the workers `s`. -/
abbrev Views (s : Workers) (u : System) : Prop :=
  Machine.Coarse segments.toSemaphores segments.guard s u

section Runs

variable {mem : Memory} {clock : Nat} {before acts : List (Machine.Act Call)} {s t : Workers}

/-- Workers whose coarse view is at places of the calls go on as it does. -/
theorem Views.of_run {L : Located Call Site} (ends : segments.RecordsEnd mem)
    (reached : Run Workers.step Always (.initial mem clock) before s)
    (views : Views s (places.config L)) (ran : Run Workers.step Always s acts t) :
    ∃ acts' v, Run (SharedMemory.step code) Always (places.config L) acts' v ∧
      acts'.filterMap Action.boundary = acts.filterMap Machine.Act.boundary ∧ Views t v :=
  Machine.Coarse.of_run views (fun more => disciplined_of_run ends (reached.trans more))
    (fun more _ _ _ => readsClock_of_run more) ran

theorem coarse_of_run (ends : segments.RecordsEnd mem)
    (ran : Run Workers.step Always (.initial mem clock) acts s) :
    ∃ acts' u, Run (SharedMemory.step code) Always (Config.idle mem) acts' u ∧
      acts'.filterMap Action.boundary = acts.filterMap Machine.Act.boundary ∧ Views s u :=
  Views.of_run (L := ⟨mem, fun _ => none⟩) ends .nil (Machine.coarse_initial mem clock) ran

/-- Whatever the calls do instruction by instruction they could have done by
whole critical sections, with the same calls starting and ending in the same
order, the same replies, and the same bytes in every segment that is free. -/
theorem sections_are_atomic (ends : segments.RecordsEnd mem)
    (ran : Run Workers.step Always (.initial mem clock) acts s) :
    ∃ acts' u, Run (SharedMemory.step code) Always (Config.idle mem) acts' u ∧
      acts'.filterMap Action.boundary = acts.filterMap Machine.Act.boundary ∧
      (∀ p c r, s.procs p = some (c, .ret r) → u.procs p = some (c, .ret r)) ∧
      ∀ a, (∀ p i, i ∈ Machine.heldBy s.holds p → i ≠ segments.guard a) → u.mem a = s.mem a := by
  obtain ⟨acts', u, ran', same, views⟩ := coarse_of_run ends ran
  refine ⟨acts', u, ran', same, ?_, ?_⟩
  · intro p c r
    exact views.returned (disciplined_of_run ends ran)
  · intro a free
    exact views.settled a fun p i held index => absurd index (free p i held)

end Runs

/-! ## A call on a table that nobody uses -/

/-- While nobody holds anything, a process executes a part of its text up to a
place where it holds nothing either, and that does what `exec` says. -/
theorem runs_until {mem : Memory} (ends : segments.RecordsEnd mem) {clock : Nat}
    {before : List (Machine.Act Call)} {s : Workers}
    (reached : Run Workers.step Always (.initial mem clock) before s) (none : s.holds = [])
    {p : Nat} {c : Call} {α : Type} {q : Text α} {f : α → Text Reply}
    (running : s.procs p = some (c, q >>= f))
    (paused : ∀ g, wholeProtocol.wp (MayStore (.call c)) (f (exec s.clock q s.mem).1) g
      (WholeReturns mem c) → g.held = .none) :
    ∃ n t, Run Workers.step Always s (List.replicate n (.run p)) t ∧
      Protocol.Advanced p c (f (exec s.clock q s.mem).1) (exec s.clock q s.mem).2 s t ∧
      t.holds = [] := by
  have quits : ∀ c r γ, WholeReturns mem c r γ → γ.held = .none := fun c => Returns.free (.call c)
  have alone : wholeProtocol.Undisturbed (fun c => MayStore (.call c)) (WholeReturns mem) mem p
      s := by
    refine ⟨Protocol.supported_of_run (fun _ _ c now _ => wp_code ends c now) quits reached, ?_⟩
    intro r _
    rw [none]
    rfl
  obtain ⟨n, t, ran, advanced, ⟨⟨whole, g, supported⟩, others⟩⟩ :=
    Protocol.runs quits q f alone running
  refine ⟨n, t, ran, advanced, ?_⟩
  rw [List.eq_nil_iff_forall_not_mem]
  rintro ⟨r, i⟩ owns
  rw [← Machine.mem_heldBy] at owns
  by_cases e : r = p
  · subst e
    rw [(supported.knows r).held, paused _ ((supported.knows r).text advanced.procs)] at owns
    cases owns
  · rw [others r e] at owns
    cases owns

/-- A whole call while nobody holds anything. -/
theorem runs_from {mem : Memory} (ends : segments.RecordsEnd mem) {clock : Nat}
    {before : List (Machine.Act Call)} {s : Workers}
    (reached : Run Workers.step Always (.initial mem clock) before s) (none : s.holds = [])
    {p : Nat} {c : Call} (started : s.procs p = some (c, code c)) :
    ∃ n t, Run Workers.step Always s (List.replicate n (.run p)) t ∧
      Protocol.Advanced p c (.ret (exec s.clock (code c) s.mem).1) (exec s.clock (code c) s.mem).2
        s t ∧ t.holds = [] := by
  have running : s.procs p = some (c, code c >>= pure) := by
    rw [bind_pure]
    exact started
  exact runs_until ends reached none running fun g ended => Returns.free (.call c) _ g ended

/-- Nobody but process 0 is in a call. -/
theorem runs_alone {mem : Memory} (ends : segments.RecordsEnd mem) (clock : Nat) (c : Call) :
    ∃ acts t, Run Workers.step Always (.initial mem clock) acts t ∧
      t.procs 0 = some (c, .ret (exec clock (code c) mem).1) ∧
      t.mem = (exec clock (code c) mem).2 ∧ t.holds = [] := by
  have begun : Run Workers.step Always (.initial mem clock) [.start 0 c]
      ((Workers.initial mem clock).goOn 0 c (code c)) := .single trivial rfl
  obtain ⟨n, t, ran, advanced, free⟩ :=
    runs_from ends begun rfl (Machine.goOn_procs_self _ _ _ _)
  exact ⟨_, t, begun.trans ran, advanced.procs, advanced.mem, free⟩

/-- One whole `set`, instruction by instruction and section by section. -/
theorem sections_are_atomic_set : ∃ acts s acts' u,
    Run Workers.step Always (.initial (fun _ => 0) 0) acts s ∧
      Run (SharedMemory.step code) Always (Config.idle fun _ => 0) acts' u ∧
      acts'.filterMap Action.boundary = acts.filterMap Machine.Act.boundary ∧
      u.result 0 = some ⟨0, []⟩ ∧ u.mem = s.mem := by
  obtain ⟨acts, s, ran, returned, _, left⟩ :=
    runs_alone recordsEnd_zero 0 (.set keyD value1 10)
  obtain ⟨acts', u, ran', same, replies, bytes⟩ := sections_are_atomic recordsEnd_zero ran
  refine ⟨acts, s, acts', u, ran, ran', same, ?_, ?_⟩
  · have reply : (exec (0 : Nat) (code (.set keyD value1 10)) fun _ => 0).1 = ⟨0, []⟩ := by
      rw [exec_code_set, exec_set, zeroed_zero.place]
    rw [Config.result, replies 0 _ _ returned, reply]
    rfl
  · funext a
    apply bytes
    intro p i held
    rw [left] at held
    cases held

end PosixHashTable
