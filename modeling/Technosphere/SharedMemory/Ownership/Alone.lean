import Technosphere.SharedMemory.Ownership.Soundness

/-!
# A process that is not disturbed

While nobody else holds a semaphore, a process whose call is correct can execute
any part of its text without a break, and the machine then does what `exec`
says. This connects the instructions of the machine with the semantics of a
process that runs alone.
-/

namespace SharedMemory.Protocol

open Machine Transition

variable {C ι π ρ α : Type} {P : Protocol ι}
variable {S : C → Ghost ι → Nat → Prop} {Q : C → ρ → Ghost ι → Prop} {m₀ : Memory}

/-- All processes know what is right, and only process `p` holds anything. -/
def Undisturbed (S : C → Ghost ι → Nat → Prop) (Q : C → ρ → Ghost ι → Prop) (m₀ : Memory) (p : Nat)
    (s : Machine C ι π ρ) : Prop :=
  (∃ whole g, P.Supported S Q m₀ s whole g) ∧ ∀ r, r ≠ p → heldBy s.holds r = []

/-- Process `p` has executed a part of its text with the given effect, and the
others are where they were. -/
structure Advanced (p : Nat) (c : C) (text : Prog ι π ρ) (m : Memory) (s t : Machine C ι π ρ) :
    Prop where
  procs : t.procs p = some (c, text)
  mem : t.mem = m
  clock : t.clock = s.clock
  others : ∀ r, r ≠ p → t.procs r = s.procs r

theorem Advanced.trans {p : Nat} {c : C} {text text' : Prog ι π ρ} {m m' : Memory}
    {s t u : Machine C ι π ρ} (h : Advanced p c text m s t) (h' : Advanced p c text' m' t u) :
    Advanced p c text' m' s u where
  procs := h'.procs
  mem := h'.mem
  clock := h'.clock.trans h.clock
  others r other := (h'.others r other).trans (h.others r other)

variable [DecidableEq ι] {code : C → Prog ι π ρ} {p : Nat} {c : C} {s : Machine C ι π ρ}

variable (P S Q m₀ code p c) in
/-- A part `q` of the text of process `p`, in front of `f`, can be executed
without a break. -/
def Runs (q : Prog ι π α) (f : α → Prog ι π ρ) (s : Machine C ι π ρ) : Prop :=
  ∃ n t, Run (Machine.step P.toSemaphores code) Always s (List.replicate n (.run p)) t ∧
    Advanced p c (f (Prog.exec s.clock q s.mem).1) (Prog.exec s.clock q s.mem).2 s t ∧
    P.Undisturbed S Q m₀ p t

/-- One instruction, and then the rest of the part. -/
theorem Runs.cons (quits : ∀ c r γ, Q c r γ → γ.held = none) {q next : Prog ι π α}
    {f : α → Prog ι π ρ} {m : Memory} (h : P.Undisturbed S Q m₀ p s)
    (rest : ∀ {t : Machine C ι π ρ}, P.Undisturbed S Q m₀ p t → t.procs p = some (c, next >>= f) →
      Runs P S Q m₀ code p c next f t)
    (moved : ∃ t, Machine.step P.toSemaphores code s (.run p) = some t ∧
      Advanced p c (next >>= f) m s t ∧ ∀ r, r ≠ p → heldBy t.holds r = [])
    (effect : Prog.exec s.clock q s.mem = Prog.exec s.clock next m) :
    Runs P S Q m₀ code p c q f s := by
  obtain ⟨⟨whole, g, supported⟩, _⟩ := h
  obtain ⟨t, taken, advanced, free⟩ := moved
  have correct := supported.step (fun _ _ e => by cases e) quits taken
  obtain ⟨n, u, ran, advanced', undisturbed⟩ := rest ⟨correct, free⟩ advanced.procs
  rw [advanced.clock, advanced.mem, ← effect] at advanced'
  exact ⟨n + 1, u, .cons trivial taken ran, advanced.trans advanced', undisturbed⟩

omit [DecidableEq ι] in
theorem advanced_goOn (text : Prog ι π ρ) (m : Memory) (value : Nat → Nat)
    (holds : List (Nat × ι)) :
    Advanced p c text m s { s.goOn p c text with mem := m, value := value, holds := holds } where
  procs := Function.update_self _ _ _
  mem := rfl
  clock := rfl
  others _ other := Function.update_of_ne other _ _

omit [DecidableEq ι] in
/-- A process that holds nothing and is not disturbed finds every semaphore free. -/
theorem Undisturbed.left (h : P.Undisturbed S Q m₀ p s) {i : ι} {pt : π} {next : Prog ι π ρ}
    (running : s.procs p = some (c, .lock i pt next)) : P.weight i ≤ s.value (P.index i) := by
  obtain ⟨⟨whole, g, supported⟩, alone⟩ := h
  obtain ⟨free, named, _⟩ := (supported.knows p).text running
  have none : s.holds = [] := by
    rw [List.eq_nil_iff_forall_not_mem]
    rintro ⟨r, j⟩ owns
    rw [← mem_heldBy] at owns
    by_cases own : r = p
    · subst own
      rw [(supported.knows r).held, free] at owns
      cases owns
    · rw [alone r own] at owns
      cases owns
  have balance := supported.balance _ named
  rw [none] at balance
  rw [show s.value (P.index i) = P.permits from balance]
  exact P.weight_le i

/-- A process that is not disturbed can execute any part of its text. -/
theorem runs (quits : ∀ c r γ, Q c r γ → γ.held = none) (q : Prog ι π α) (f : α → Prog ι π ρ)
    (h : P.Undisturbed S Q m₀ p s) (running : s.procs p = some (c, q >>= f)) :
    Runs P S Q m₀ code p c q f s := by
  induction q generalizing s with
  | ret a => exact ⟨0, s, .nil, ⟨running, rfl, rfl, fun _ _ => rfl⟩, h⟩
  | lock i pt next ih =>
      refine Runs.cons quits h ih ⟨_, ?_, advanced_goOn _ s.mem (Function.update s.value (P.index i)
        (s.value (P.index i) - P.weight i)) ((p, i) :: s.holds), ?_⟩ rfl
      · simp only [Machine.step, running]
        exact if_pos (h.left running)
      · intro r other
        exact (heldBy_cons_of_ne other).trans (h.2 r other)
  | unlock i next ih =>
      refine Runs.cons quits h ih ⟨_, ?_, advanced_goOn _ s.mem (Function.update s.value (P.index i)
        (s.value (P.index i) + P.weight i)) (s.holds.erase (p, i)), ?_⟩ rfl
      · simp only [Machine.step, running]
        rfl
      · intro r other
        exact (heldBy_erase_of_ne other).trans (h.2 r other)
  | load a next ih =>
      refine Runs.cons quits h (ih (s.mem a))
        ⟨_, ?_, advanced_goOn _ s.mem s.value s.holds, h.2⟩ rfl
      simp only [Machine.step, running]
      rfl
  | store a b next ih =>
      refine Runs.cons quits h ih
        ⟨_, ?_, advanced_goOn _ (Function.update s.mem a b) s.value s.holds, h.2⟩ rfl
      simp only [Machine.step, running]
      rfl
  | time next ih =>
      refine Runs.cons quits h (ih s.clock)
        ⟨_, ?_, advanced_goOn _ s.mem s.value s.holds, h.2⟩ rfl
      simp only [Machine.step, running]
      rfl

end SharedMemory.Protocol
