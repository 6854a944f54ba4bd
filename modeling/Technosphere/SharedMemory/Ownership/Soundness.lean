import Technosphere.SharedMemory.Ownership

/-!
# What all processes know along a run

`Knows` connects what one process knows with the machine, and `Supported` says
it of all processes. `supported_of_run` shows that it holds along every run of
calls that are correct one by one: a process relies on the bytes of a semaphore
having changed by `Rely` only, and every process that releases it has kept to
that. The locking discipline follows.
-/

namespace SharedMemory.Protocol

open Machine Transition

variable {C ι π ρ : Type} (P : Protocol ι)

/-- What process `p` knows is right. `whole k` are the bytes of semaphore `k`
when it was last free. -/
structure Knows (S : C → Ghost ι → Nat → Prop) (Q : C → ρ → Ghost ι → Prop)
    (s : Machine C ι π ρ) (whole : Nat → Memory) (p : Nat) (g : Ghost ι) : Prop where
  held : heldBy s.holds p = (g.held.map Prod.fst).toList
  named : ∀ {i m}, g.held = some (i, m) → P.index i < P.count
  mine : ∀ {i m}, g.held = some (i, m) → ∀ a, P.guards i a → m a = s.mem a
  entry : ∀ {i m}, g.held = some (i, m) → ∀ a, P.guards i a →
    g.seen (P.index i) a = whole (P.index i) a
  seen : ∀ k, P.Rely k (g.seen k) (whole k)
  now : g.now ≤ s.clock
  text : ∀ {c q}, s.procs p = some (c, q) → P.wp (S c) q g (Q c)
  idle : s.procs p = none → g.held = none

/-- Nobody holds semaphore `k` exclusively. -/
def Quiet (g : Nat → Ghost ι) (k : Nat) : Prop :=
  ∀ p i m, (g p).held = some (i, m) → P.index i = k → P.weight i ≠ P.permits

structure Supported (S : C → Ghost ι → Nat → Prop) (Q : C → ρ → Ghost ι → Prop) (m₀ : Memory)
    (s : Machine C ι π ρ) (whole : Nat → Memory) (g : Nat → Ghost ι) : Prop where
  balance : ∀ k < P.count, s.value k + taken P.toSemaphores s.holds k = P.permits
  quiet : ∀ k, P.Quiet g k → ∀ a, a < P.size → P.guard a = k → s.mem a = whole k a
  began : ∀ k, P.Rely k m₀ (whole k)
  knows : ∀ p, P.Knows S Q s whole p (g p)

variable {P} {S : C → Ghost ι → Nat → Prop} {Q : C → ρ → Ghost ι → Prop} {m₀ : Memory}
variable {s t : Machine C ι π ρ} {whole : Nat → Memory} {g : Nat → Ghost ι}

/-- Equal bytes under a semaphore are a change that is relied on. -/
theorem rely_of_agree {k : Nat} {m m' : Memory}
    (h : ∀ a, a < P.size → P.guard a = k → m a = m' a) : P.Rely k m m' :=
  P.rely_congr h (P.rely_refl k m)

theorem Knows.mem_holds {p : Nat} {γ : Ghost ι} {i : ι} {m : Memory}
    (h : P.Knows S Q s whole p γ) (held : γ.held = some (i, m)) : (p, i) ∈ s.holds := by
  rw [← mem_heldBy, h.held, held]
  exact List.mem_singleton.mpr rfl

/-- A process that goes on with `q` knows what `q` needs. -/
theorem Knows.running {p : Nat} {γ : Ghost ι} {c : C} {q : Prog ι π ρ}
    (procs : t.procs p = some (c, q)) (text : P.wp (S c) q γ (Q c))
    (held : heldBy t.holds p = (γ.held.map Prod.fst).toList)
    (named : ∀ {i m}, γ.held = some (i, m) → P.index i < P.count)
    (mine : ∀ {i m}, γ.held = some (i, m) → ∀ a, P.guards i a → m a = t.mem a)
    (entry : ∀ {i m}, γ.held = some (i, m) → ∀ a, P.guards i a →
      γ.seen (P.index i) a = whole (P.index i) a)
    (seen : ∀ k, P.Rely k (γ.seen k) (whole k)) (now : γ.now ≤ t.clock) :
    P.Knows S Q t whole p γ where
  held := held
  named := named
  mine := mine
  entry := entry
  seen := seen
  now := now
  text running := by
    rw [procs] at running
    cases running
    exact text
  idle stopped := by
    rw [procs] at stopped
    cases stopped

/-- What another process knows survives a step that leaves alone what it holds. -/
theorem Knows.frame {q : Nat} {γ : Ghost ι} {whole' : Nat → Memory}
    (h : P.Knows S Q s whole q γ) (procs : t.procs q = s.procs q)
    (holds : heldBy t.holds q = heldBy s.holds q) (clock : s.clock ≤ t.clock)
    (mem : ∀ i m, γ.held = some (i, m) → ∀ a, P.guards i a →
      t.mem a = s.mem a ∧ whole' (P.index i) a = whole (P.index i) a)
    (rely : ∀ k, P.Rely k (whole k) (whole' k)) : P.Knows S Q t whole' q γ where
  held := holds.trans h.held
  named := h.named
  mine held a guarded := (h.mine held a guarded).trans (mem _ _ held a guarded).1.symm
  entry held a guarded := (h.entry held a guarded).trans (mem _ _ held a guarded).2.symm
  seen k := P.rely_trans (h.seen k) (rely k)
  now := Nat.le_trans h.now clock
  text running := h.text (procs.symm.trans running)
  idle stopped := h.idle (procs.symm.trans stopped)

/-- A step that changes neither the memory nor what it holds does not concern it. -/
theorem Knows.bystander {q : Nat} {γ : Ghost ι} (h : P.Knows S Q s whole q γ)
    (procs : t.procs q = s.procs q) (holds : heldBy t.holds q = heldBy s.holds q)
    (clock : s.clock ≤ t.clock) (mem : t.mem = s.mem) : P.Knows S Q t whole q γ :=
  h.frame procs holds clock (fun _ _ _ a _ => ⟨congrFun mem a, rfl⟩) fun k => P.rely_refl k _

namespace Supported

variable [DecidableEq ι]

theorem exclusive (h : P.Supported S Q m₀ s whole g) {p q : Nat} {i j : ι}
    (hp : (p, i) ∈ s.holds) (hq : (q, j) ∈ s.holds) (named : P.index i < P.count)
    (same : P.index j = P.index i) (all : P.weight i = P.permits) : p = q := by
  by_contra ne
  have both := weights_le_taken (S := P.toSemaphores) hp hq (fun e => ne (congrArg Prod.fst e)) same
  have balance := h.balance _ named
  have positive := P.weight_pos j
  omega

/-- The other holders of a semaphore that is held exclusively: none. -/
theorem alone (h : P.Supported S Q m₀ s whole g) {p q : Nat} {i j : ι} {m m' : Memory}
    (hp : (g p).held = some (i, m)) (all : P.weight i = P.permits)
    (hq : (g q).held = some (j, m')) (same : P.index j = P.index i) : q = p :=
  (h.exclusive ((h.knows p).mem_holds hp) ((h.knows q).mem_holds hq) ((h.knows p).named hp) same
    all).symm

/-- While permits are left nobody holds the semaphore exclusively. -/
theorem quiet_of_value (h : P.Supported S Q m₀ s whole g) {k : Nat} (named : k < P.count)
    (left : 0 < s.value k) : P.Quiet g k := by
  rintro p i m held rfl all
  have weight := weight_le_taken (S := P.toSemaphores) ((h.knows p).mem_holds held)
  have balance := h.balance _ named
  omega

end Supported

/-- What all processes know after process `p` took a step: `γ` is what it knows
then, and nothing else concerns the others. -/
theorem Supported.update {p : Nat} {γ : Ghost ι} {whole' : Nat → Memory}
    (balance : ∀ k < P.count, t.value k + taken P.toSemaphores t.holds k = P.permits)
    (quiet : ∀ k, P.Quiet (Function.update g p γ) k → ∀ a, a < P.size → P.guard a = k →
      t.mem a = whole' k a)
    (began : ∀ k, P.Rely k m₀ (whole' k)) (self : P.Knows S Q t whole' p γ)
    (others : ∀ q, q ≠ p → P.Knows S Q t whole' q (g q)) :
    P.Supported S Q m₀ t whole' (Function.update g p γ) where
  balance := balance
  quiet := quiet
  began := began
  knows q := by
    by_cases e : q = p
    · subst e
      rw [Function.update_self]
      exact self
    · rw [Function.update_of_ne e]
      exact others q e

/-! ## One instruction -/

section Steps

theorem Quiet.of_update {p k : Nat} {γ : Ghost ι} (h : P.Quiet (Function.update g p γ) k)
    (self : ∀ i m, (g p).held = some (i, m) → P.index i = k → P.weight i ≠ P.permits) :
    P.Quiet g k := by
  intro q i m held
  by_cases e : q = p
  · subst e
    exact self i m held
  · exact h q i m (by rwa [Function.update_of_ne e])

theorem Quiet.of_free {p k : Nat} {γ : Ghost ι} (h : P.Quiet (Function.update g p γ) k)
    (free : (g p).held = none) : P.Quiet g k := by
  refine h.of_update fun i m held => ?_
  rw [free] at held
  cases held

/-- What the process that took the step does not own is as before. -/
theorem Supported.frame_self {p : Nat} {c : C} {q : Prog ι π ρ}
    (h : P.Supported S Q m₀ s whole g) (text : P.wp (S c) q (g p) (Q c)) :
    P.Supported S Q m₀ (s.goOn p c q) whole (Function.update g p (g p)) := by
  have self := h.knows p
  apply Supported.update
  · exact h.balance
  · intro k quiet
    rw [Function.update_eq_self] at quiet
    exact h.quiet k quiet
  · exact h.began
  · exact .running (Function.update_self _ _ _) text self.held self.named self.mine self.entry
      self.seen self.now
  · intro r other
    exact (h.knows r).bystander (Function.update_of_ne other _ _) rfl (Nat.le_refl _) rfl

theorem Supported.load {p : Nat} {c : C} {a : Nat} {next : UInt8 → Prog ι π ρ}
    (h : P.Supported S Q m₀ s whole g) (text : P.wp (S c) (.load a next) (g p) (Q c)) :
    P.Supported S Q m₀ (s.goOn p c (next (s.mem a))) whole (Function.update g p (g p)) := by
  obtain ⟨i, m, held, _, rest⟩ := text
  apply h.frame_self
  apply rest
  intro guarded
  exact ((h.knows p).mine held a guarded).symm

theorem Supported.time {p : Nat} {c : C} {next : Int → Prog ι π ρ}
    (h : P.Supported S Q m₀ s whole g) (text : P.wp (S c) (.time next) (g p) (Q c)) :
    P.Supported S Q m₀ (s.goOn p c (next s.clock)) whole
      (Function.update g p ((g p).read s.clock)) := by
  have self := h.knows p
  apply Supported.update
  · exact h.balance
  · intro k quiet
    apply h.quiet k
    apply quiet.of_update
    intro j m held same
    exact quiet p j m (by rw [Function.update_self]; exact held) same
  · exact h.began
  · exact .running (Function.update_self _ _ _) (text s.clock self.now) self.held self.named
      self.mine self.entry self.seen (Nat.le_refl _)
  · intro r other
    exact (h.knows r).bystander (Function.update_of_ne other _ _) rfl (Nat.le_refl _) rfl

theorem Supported.start {p : Nat} {c : C} {text : Prog ι π ρ}
    (h : P.Supported S Q m₀ s whole g) (idle : s.procs p = none)
    (correct : P.wp (S c) text (.fresh m₀ s.clock) (Q c)) :
    P.Supported S Q m₀ (s.goOn p c text) whole (Function.update g p (.fresh m₀ s.clock)) := by
  have self := h.knows p
  have free := self.idle idle
  apply Supported.update
  · exact h.balance
  · intro k quiet
    exact h.quiet k (quiet.of_free free)
  · exact h.began
  · refine .running (Function.update_self _ _ _) correct ?_ ?_ ?_ ?_ h.began (Nat.le_refl _)
    · show heldBy s.holds p = _
      rw [self.held, free]
      rfl
    · rintro j m ⟨⟩
    · rintro j m ⟨⟩
    · rintro j m ⟨⟩
  · intro r other
    exact (h.knows r).bystander (Function.update_of_ne other _ _) rfl (Nat.le_refl _) rfl

theorem Supported.finish {p : Nat} {c : C} {r : ρ} (h : P.Supported S Q m₀ s whole g)
    (quits : ∀ c r γ, Q c r γ → γ.held = none) (running : s.procs p = some (c, .ret r)) :
    P.Supported S Q m₀ { s with procs := Function.update s.procs p none } whole
      (Function.update g p (g p)) := by
  have self := h.knows p
  apply Supported.update
  · exact h.balance
  · intro k quiet
    rw [Function.update_eq_self] at quiet
    exact h.quiet k quiet
  · exact h.began
  · refine ⟨self.held, self.named, self.mine, self.entry, self.seen, self.now, ?_, ?_⟩
    · intro c' q' running'
      have stopped : Function.update s.procs p none p = none := Function.update_self _ _ _
      cases stopped.symm.trans running'
    · intro _
      exact quits c r _ (self.text running)
  · intro q other
    exact (h.knows q).bystander (Function.update_of_ne other _ _) rfl (Nat.le_refl _) rfl

theorem Supported.tick {now : Nat} (h : P.Supported S Q m₀ s whole g) (later : s.clock ≤ now) :
    P.Supported S Q m₀ { s with clock := now } whole g where
  balance := h.balance
  quiet := h.quiet
  began := h.began
  knows p := (h.knows p).bystander rfl rfl later rfl

variable [DecidableEq ι]

theorem Supported.lock {p : Nat} {c : C} {i : ι} {pt : π} {next : Prog ι π ρ}
    (h : P.Supported S Q m₀ s whole g) (text : P.wp (S c) (.lock i pt next) (g p) (Q c))
    (left : P.weight i ≤ s.value (P.index i)) :
    P.Supported S Q m₀
      { s.goOn p c next with
        value := Function.update s.value (P.index i) (s.value (P.index i) - P.weight i)
        holds := (p, i) :: s.holds }
      whole (Function.update g p ((g p).acquire i (P.index i) s.mem)) := by
  obtain ⟨free, named, rest⟩ := text
  have self := h.knows p
  have empty : heldBy s.holds p = [] := by rw [self.held, free]; rfl
  have quiet := h.quiet_of_value named (Nat.lt_of_lt_of_le (P.weight_pos i) left)
  have here := h.quiet _ quiet
  apply Supported.update
  · intro k hk
    have balance := h.balance k hk
    show Function.update s.value _ _ k + taken P.toSemaphores ((p, i) :: s.holds) k = _
    rw [taken_cons]
    by_cases e : P.index i = k
    · subst e
      rw [if_pos rfl, Function.update_self]
      omega
    · rw [if_neg e, Function.update_of_ne (Ne.symm e)]
      omega
  · intro k quiet
    exact h.quiet k (quiet.of_free free)
  · exact h.began
  · refine .running (Function.update_self _ _ _) (rest s.mem ?_) ?_ ?_ ?_ ?_ ?_ self.now
    · exact P.rely_congr (fun a inside guarded => (here a inside guarded).symm) (self.seen _)
    · show heldBy ((p, i) :: s.holds) p = _
      rw [heldBy_cons_self, empty]
      rfl
    · rintro j m ⟨⟩
      exact named
    · rintro j m ⟨⟩ a guarded
      rfl
    · rintro j m ⟨⟩ a ⟨inside, guarded⟩
      show Function.update (g p).seen (P.index i) s.mem (P.index i) a = _
      rw [Function.update_self]
      exact here a inside guarded
    · intro k
      show P.Rely k (Function.update (g p).seen (P.index i) s.mem k) _
      by_cases e : k = P.index i
      · subst e
        rw [Function.update_self]
        exact rely_of_agree here
      · rw [Function.update_of_ne e]
        exact self.seen k
  · intro r other
    exact (h.knows r).bystander (Function.update_of_ne other _ _) (heldBy_cons_of_ne other)
      (Nat.le_refl _) rfl

theorem Supported.unlock {p : Nat} {c : C} {i : ι} {next : Prog ι π ρ}
    (h : P.Supported S Q m₀ s whole g) (text : P.wp (S c) (.unlock i next) (g p) (Q c)) :
    ∃ whole' γ, P.Supported S Q m₀
      { s.goOn p c next with
        value := Function.update s.value (P.index i) (s.value (P.index i) + P.weight i)
        holds := s.holds.erase (p, i) }
      whole' (Function.update g p γ) := by
  obtain ⟨m, held, rely, rest⟩ := text
  have self := h.knows p
  have named := self.named held
  have own := self.mem_holds held
  -- what is left under the semaphore is a change that all others rely on
  have changed : P.Rely (P.index i) (whole (P.index i)) m := by
    refine P.rely_trans (rely_of_agree fun a inside guarded => ?_) rely
    exact (self.entry held a ⟨inside, guarded⟩).symm
  have changes : ∀ k, P.Rely k (whole k) (Function.update whole (P.index i) m k) := by
    intro k
    by_cases e : k = P.index i
    · subst e
      rw [Function.update_self]
      exact changed
    · rw [Function.update_of_ne e]
      exact P.rely_refl _ _
  refine ⟨Function.update whole (P.index i) m, (g p).release (P.index i) m, ?_⟩
  apply Supported.update
  · intro k hk
    have balance := h.balance k hk
    rw [taken_erase own] at balance
    show Function.update s.value _ _ k + taken P.toSemaphores (s.holds.erase (p, i)) k = _
    by_cases e : P.index i = k
    · subst e
      rw [if_pos rfl] at balance
      rw [Function.update_self]
      omega
    · rw [if_neg e] at balance
      rw [Function.update_of_ne (Ne.symm e)]
      omega
  · intro k quiet a inside guarded
    by_cases e : k = P.index i
    · subst e
      rw [Function.update_self]
      exact (self.mine held a ⟨inside, guarded⟩).symm
    · rw [Function.update_of_ne e]
      refine h.quiet k (quiet.of_update ?_) a inside guarded
      intro j m' held' same
      rw [held] at held'
      cases held'
      exact absurd same.symm e
  · intro k
    exact P.rely_trans (h.began k) (changes k)
  · refine .running (Function.update_self _ _ _) rest ?_ ?_ ?_ ?_ ?_ self.now
    · show heldBy (s.holds.erase (p, i)) p = _
      rw [heldBy_erase_self, self.held, held]
      simp [Ghost.release]
    · rintro j m' ⟨⟩
    · rintro j m' ⟨⟩
    · rintro j m' ⟨⟩
    · intro k
      show P.Rely k (Function.update (g p).seen (P.index i) m k) _
      by_cases e : k = P.index i
      · subst e
        rw [Function.update_self, Function.update_self]
        exact P.rely_refl _ _
      · rw [Function.update_of_ne e, Function.update_of_ne e]
        exact self.seen k
  · intro r other
    refine (h.knows r).frame (Function.update_of_ne other _ _) (heldBy_erase_of_ne other)
      (Nat.le_refl _) ?_ changes
    intro j m' held' a guarded
    refine ⟨rfl, ?_⟩
    by_cases e : P.index j = P.index i
    · -- two holders of one semaphore share it, and its bytes are as they were
      rw [e, Function.update_self, self.mine held a ⟨guarded.1, guarded.2.trans e⟩]
      apply h.quiet _ _ a guarded.1 (guarded.2.trans e)
      intro q l m'' held'' same all
      have first := h.alone held'' all held (same.symm)
      have second := h.alone held'' all held' (e.trans same.symm)
      exact other (second.trans first.symm)
    · rw [Function.update_of_ne e]

theorem Supported.store {p : Nat} {c : C} {a : Nat} {b : UInt8} {next : Prog ι π ρ}
    (h : P.Supported S Q m₀ s whole g) (text : P.wp (S c) (.store a b next) (g p) (Q c)) :
    ∃ γ, P.Supported S Q m₀
      { s.goOn p c next with mem := Function.update s.mem a b } whole (Function.update g p γ) := by
  obtain ⟨i, m, held, guarded, all, _, rest⟩ := text
  have self := h.knows p
  refine ⟨(g p).write i (Function.update m a b), ?_⟩
  apply Supported.update
  · exact h.balance
  · intro k quiet x inside there
    have apart : k ≠ P.index i := by
      rintro rfl
      exact quiet p i _ (by rw [Function.update_self]; rfl) rfl all
    have ne : x ≠ a := by
      rintro rfl
      exact apart (there.symm.trans guarded.2)
    show Function.update s.mem a b x = whole k x
    rw [Function.update_of_ne ne]
    refine h.quiet k (quiet.of_update ?_) x inside there
    intro j m' held' same
    rw [held] at held'
    cases held'
    exact absurd same.symm apart
  · exact h.began
  · refine .running (Function.update_self _ _ _) rest ?_ ?_ ?_ ?_ self.seen self.now
    · show heldBy s.holds p = _
      rw [self.held, held]
      rfl
    · rintro j m' ⟨⟩
      exact self.named held
    · rintro j m' ⟨⟩ x there
      by_cases e : x = a
      · subst e
        show Function.update m x b x = Function.update s.mem x b x
        rw [Function.update_self, Function.update_self]
      · show Function.update m a b x = Function.update s.mem a b x
        rw [Function.update_of_ne e, Function.update_of_ne e]
        exact self.mine held x there
    · rintro j m' ⟨⟩
      exact self.entry held
  · intro r other
    refine (h.knows r).frame (Function.update_of_ne other _ _) rfl (Nat.le_refl _) ?_
      fun k => P.rely_refl k _
    intro j m' held' x there
    have ne : x ≠ a := by
      rintro rfl
      exact other (h.alone held all held' (there.2.symm.trans guarded.2))
    exact ⟨Function.update_of_ne ne _ _, rfl⟩

end Steps

/-! ## Whole runs -/

section Runs

theorem supported_initial (clock : Nat) :
    P.Supported S Q m₀ (Machine.initial P.toSemaphores m₀ clock : Machine C ι π ρ)
      (fun _ => m₀) fun _ => .fresh m₀ clock where
  balance _ _ := rfl
  quiet _ _ _ _ _ := rfl
  began _ := P.rely_refl _ _
  knows _ := {
    held := rfl
    named := nofun
    mine := nofun
    entry := nofun
    seen := fun k => P.rely_refl k _
    now := Nat.le_refl _
    text := nofun
    idle := fun _ => rfl }

variable [DecidableEq ι] {code : C → Prog ι π ρ} {ok : Machine C ι π ρ → Act C → Prop}

theorem Supported.step {a : Act C} (h : P.Supported S Q m₀ s whole g)
    (correct : ∀ p c, a = .start p c → P.wp (S c) (code c) (.fresh m₀ s.clock) (Q c))
    (quits : ∀ c r γ, Q c r γ → γ.held = none)
    (taken : Machine.step P.toSemaphores code s a = some t) :
    ∃ whole' g', P.Supported S Q m₀ t whole' g' := by
  cases a with
  | start p c =>
      cases running : s.procs p with
      | some x => simp [Machine.step, running] at taken
      | none =>
          simp only [Machine.step, running, Option.some.injEq] at taken
          rw [← taken]
          exact ⟨_, _, h.start running (correct p c rfl)⟩
  | run p =>
      cases running : s.procs p with
      | none => simp [Machine.step, running] at taken
      | some x =>
          obtain ⟨c, q⟩ := x
          have text := (h.knows p).text running
          simp only [Machine.step, running] at taken
          cases q with
          | ret r => cases taken
          | lock i pt next =>
              obtain ⟨left, moved⟩ := Option.ite_none_right_eq_some.mp taken
              cases moved
              exact ⟨_, _, h.lock text left⟩
          | unlock i next =>
              cases taken
              obtain ⟨whole', γ, supported⟩ := h.unlock text
              exact ⟨whole', _, supported⟩
          | load a next =>
              cases taken
              exact ⟨_, _, h.load text⟩
          | store a b next =>
              cases taken
              obtain ⟨γ, supported⟩ := h.store text
              exact ⟨whole, _, supported⟩
          | time next =>
              cases taken
              exact ⟨_, _, h.time text⟩
  | finish p =>
      cases running : s.procs p with
      | none => simp [Machine.step, running] at taken
      | some x =>
          obtain ⟨c, q⟩ := x
          cases q with
          | ret r =>
              simp only [Machine.step, running, Option.some.injEq] at taken
              rw [← taken]
              exact ⟨_, _, h.finish quits running⟩
          | _ => simp [Machine.step, running] at taken
  | tick now =>
      obtain ⟨later, moved⟩ := Option.ite_none_right_eq_some.mp taken
      cases moved
      exact ⟨whole, g, h.tick later⟩

/-- Along a run of correct calls every process knows what is right. -/
theorem supported_of_run {clock : Nat} {acts : List (Act C)}
    (correct : ∀ s p c now, ok s (.start p c) → P.wp (S c) (code c) (.fresh m₀ now) (Q c))
    (quits : ∀ c r γ, Q c r γ → γ.held = none)
    (ran : Run (Machine.step P.toSemaphores code) ok (.initial P.toSemaphores m₀ clock) acts s) :
    ∃ whole g, P.Supported S Q m₀ s whole g := by
  refine ran.invariant (fun _ s => ∃ whole g, P.Supported S Q m₀ s whole g)
    ⟨_, _, supported_initial clock⟩ ?_
  rintro acts s a t ⟨whole, g, supported⟩ met taken
  apply supported.step _ quits taken
  rintro p c rfl
  exact correct s p c s.clock met

/-- A process that waits for no semaphore can go on. -/
theorem advances {p : Nat} {c : C} {q : Prog ι π ρ} (running : s.procs p = some (c, q))
    (waits : ∀ i, q.acquires = some i → P.weight i ≤ s.value (P.index i)) :
    ∃ t, Machine.step P.toSemaphores code s (.run p) = some t ∨
      Machine.step P.toSemaphores code s (.finish p) = some t := by
  cases q with
  | ret r => exact ⟨_, Or.inr (by simp only [Machine.step, running]; rfl)⟩
  | lock i pt next =>
      have moves : advance P.toSemaphores s p c (.lock i pt next) = some _ :=
        if_pos (waits i rfl)
      exact ⟨_, Or.inl (by simp only [Machine.step, running]; exact moves)⟩
  | _ => exact ⟨_, Or.inl (by simp only [Machine.step, running]; rfl)⟩

/-- Calls that are correct one by one keep the locking discipline together. -/
theorem Supported.disciplined (h : P.Supported S Q m₀ s whole g) (strict : P.strict)
    (quits : ∀ c r γ, Q c r γ → γ.held = none) :
    Disciplined P.toSemaphores P.guard P.size code s where
  balance := h.balance
  single p := by
    rw [(h.knows p).held]
    cases (g p).held <;> simp
  exclusive p i q j hp hq same all := by
    rw [mem_heldBy] at hp hq
    have named : P.index i < P.count := by
      have held := (h.knows p).held
      cases owns : (g p).held with
      | none =>
          rw [owns] at held
          rw [← mem_heldBy, held] at hp
          cases hp
      | some x =>
          rw [owns] at held
          rw [← mem_heldBy, held] at hp
          cases List.mem_singleton.mp hp
          exact (h.knows p).named owns
    exact h.exclusive hp hq named same.symm all
  named p c text i running names := by
    have correct := (h.knows p).text running
    cases text with
    | lock j pt next =>
        rcases names with names | names
        · cases names
          exact correct.2.1
        · cases names
    | unlock j next =>
        rcases names with names | names
        · cases names
        · cases names
          obtain ⟨m, held, _⟩ := correct
          exact (h.knows p).named held
    | _ => rcases names with names | names <;> cases names
  released p c text i running names := by
    have correct := (h.knows p).text running
    cases text with
    | unlock j next =>
        cases names
        obtain ⟨m, held, _⟩ := correct
        exact mem_heldBy.mpr ((h.knows p).mem_holds held)
    | _ => cases names
  loaded p c text a running names := by
    have correct := (h.knows p).text running
    cases text with
    | load b next =>
        cases names
        obtain ⟨i, m, held, guarded, _⟩ := correct
        exact ⟨(guarded strict).1, i, mem_heldBy.mpr ((h.knows p).mem_holds held),
          (guarded strict).2.symm⟩
    | _ => cases names
  stored p c text a running names := by
    have correct := (h.knows p).text running
    cases text with
    | store b byte next =>
        cases names
        obtain ⟨i, m, held, guarded, all, _⟩ := correct
        exact ⟨guarded.1, i, mem_heldBy.mpr ((h.knows p).mem_holds held), guarded.2.symm, all⟩
    | _ => cases names
  returned p finished := by
    have free : (g p).held = none := by
      cases running : s.procs p with
      | none => exact (h.knows p).idle running
      | some x =>
          obtain ⟨c, text⟩ := x
          have reached := finished c text running
          have correct := (h.knows p).text running
          cases text with
          | ret r => exact quits c r _ correct
          | _ => cases reached
    rw [(h.knows p).held, free]
    rfl
  progress := by
    rintro ⟨p, active⟩
    by_cases holder : ∃ q i m, (g q).held = some (i, m)
    · -- a process that holds a semaphore does not wait for another one
      obtain ⟨q, i, m, held⟩ := holder
      obtain ⟨⟨c, text⟩, running⟩ : ∃ x, s.procs q = some x := by
        apply Option.ne_none_iff_exists'.mp
        intro stopped
        rw [(h.knows q).idle stopped] at held
        cases held
      have correct := (h.knows q).text running
      refine ⟨q, advances running fun j waits => ?_⟩
      cases text with
      | lock l pt next =>
          rw [correct.1] at held
          cases held
      | _ => cases waits
    · -- nobody holds a permit, so every semaphore has its initial value
      obtain ⟨⟨c, text⟩, running⟩ := Option.ne_none_iff_exists'.mp active
      have correct := (h.knows p).text running
      have free : s.holds = [] := by
        rw [List.eq_nil_iff_forall_not_mem]
        rintro ⟨q, i⟩ owns
        rw [← mem_heldBy, (h.knows q).held] at owns
        cases held : (g q).held with
        | none =>
            rw [held] at owns
            cases owns
        | some x => exact holder ⟨q, x.1, x.2, held⟩
      refine ⟨p, advances running fun j waits => ?_⟩
      cases text with
      | lock l pt next =>
          cases waits
          have balance := h.balance _ correct.2.1
          rw [free] at balance
          rw [show s.value (P.index j) = P.permits from balance]
          exact P.weight_le j
      | _ => cases waits

end Runs

end SharedMemory.Protocol
