import Technosphere.SharedMemory.Program
import Technosphere.Transition

/-!
# Interleaving processes by critical sections

Any number of processes share one memory. An idle process may start a call;
a process that waits for a semaphore may run its whole critical section as one
step; a process that has reached its result may return it. Mutual exclusion is
what makes a critical section one step, so no semaphore values are kept here.

An `Outline` names the places where the text of a call can be paused and says
how one critical section leads from place to place. Assertions about a run can
then speak about places instead of continuations, and `Outline.invariant` turns
a check of the three kinds of step into a fact about every run.
-/

namespace SharedMemory

variable {C ι π ρ S : Type}

/-- The memory, and for each process the call it executes with the rest of its text. -/
structure Config (C ι π ρ : Type) where
  mem : Memory
  procs : Nat → Option (C × Prog ι π ρ)

/-- One scheduling decision. The clock readings taken inside a region belong
to the decision, so a run fixes them without assuming anything about them. -/
inductive Action (C : Type) where
  | start (p : Nat) (call : C)
  | region (p : Nat) (clk : Nat → Int)
  | finish (p : Nat)

/-- Whether a decision lets `p` run a critical section. -/
def Action.isRegionOf (p : Nat) : Action C → Bool
  | .region q _ => decide (q = p)
  | _ => false

/-- The number of critical sections that `p` has run. -/
def sections (p : Nat) (acts : List (Action C)) : Nat := acts.countP (Action.isRegionOf p)

theorem sections_append (p : Nat) (acts acts' : List (Action C)) :
    sections p (acts ++ acts') = sections p acts + sections p acts' :=
  List.countP_append

namespace Config

/-- All processes idle. -/
def idle (mem : Memory) : Config C ι π ρ := ⟨mem, fun _ => none⟩

/-- The call that process `p` executes. -/
def call (s : Config C ι π ρ) (p : Nat) : Option C := (s.procs p).map Prod.fst

/-- The program point where process `p` waits for a semaphore. -/
def point (s : Config C ι π ρ) (p : Nat) : Option π := (s.procs p).bind fun x => x.2.point

/-- The result that process `p` has reached and not yet returned. -/
def result (s : Config C ι π ρ) (p : Nat) : Option ρ := (s.procs p).bind fun x => x.2.result

end Config

/-- The effect of one scheduling decision, if it is possible. -/
def step (code : C → Prog ι π ρ) (s : Config C ι π ρ) : Action C → Option (Config C ι π ρ)
  | .start p c =>
    match s.procs p with
    | none => some { s with procs := Function.update s.procs p (some (c, code c)) }
    | some _ => none
  | .region p clk =>
    match s.procs p with
    | none => none
    | some (c, q) =>
      (q.enter clk s.mem).map fun r => ⟨r.1, Function.update s.procs p (some (c, r.2))⟩
  | .finish p =>
    match s.procs p with
    | none => none
    | some (_, q) =>
      q.result.map fun _ => { s with procs := Function.update s.procs p none }

/-- A configuration whose processes are paused at places of an outline. -/
structure Located (C S : Type) where
  mem : Memory
  sites : Nat → Option (C × S)

/-- The places where a call can be paused. `next c σ m m' σ'` describes one
critical section entered at `σ` with memory `m`: it leaves `m'` and stops at
`σ'`. -/
structure Outline (code : C → Prog ι π ρ) (S : Type) where
  textAt : C → S → Prog ι π ρ
  entry : C → S
  next : C → S → Memory → Memory → S → Prop
  text_entry : ∀ c, textAt c (entry c) = code c
  sound : ∀ {clk c σ m m' q}, (textAt c σ).enter clk m = some (m', q) →
    ∃ σ', next c σ m m' σ' ∧ q = textAt c σ'

namespace Outline

variable {code : C → Prog ι π ρ} (O : Outline code S)

/-- Forget the places, keeping the texts they stand for. -/
def config (L : Located C S) : Config C ι π ρ :=
  ⟨L.mem, fun p => (L.sites p).map fun x => (x.1, O.textAt x.1 x.2)⟩

@[simp] theorem config_mem (L : Located C S) : (O.config L).mem = L.mem := rfl

theorem config_procs {L : Located C S} {p : Nat} {c : C} {σ : S}
    (h : L.sites p = some (c, σ)) : (O.config L).procs p = some (c, O.textAt c σ) := by
  simp [config, h]

theorem config_call {L : Located C S} {p : Nat} {c : C} {σ : S}
    (h : L.sites p = some (c, σ)) : (O.config L).call p = some c := by
  simp [Config.call, O.config_procs h]

theorem config_point {L : Located C S} {p : Nat} {c : C} {σ : S}
    (h : L.sites p = some (c, σ)) : (O.config L).point p = (O.textAt c σ).point := by
  simp [Config.point, O.config_procs h]

theorem config_result {L : Located C S} {p : Nat} {c : C} {σ : S}
    (h : L.sites p = some (c, σ)) : (O.config L).result p = (O.textAt c σ).result := by
  simp [Config.result, O.config_procs h]

theorem sites_of_procs {L : Located C S} {p : Nat} {c : C} {q : Prog ι π ρ}
    (h : (O.config L).procs p = some (c, q)) : ∃ σ, L.sites p = some (c, σ) ∧ q = O.textAt c σ := by
  obtain ⟨⟨c', σ⟩, hs, heq⟩ := Option.map_eq_some_iff.mp h
  cases heq
  exact ⟨σ, hs, rfl⟩

theorem sites_of_call {L : Located C S} {p : Nat} {c : C}
    (h : (O.config L).call p = some c) : ∃ σ, L.sites p = some (c, σ) := by
  obtain ⟨⟨c', q⟩, hp, rfl⟩ := Option.map_eq_some_iff.mp h
  obtain ⟨σ, hs, _⟩ := O.sites_of_procs hp
  exact ⟨σ, hs⟩

theorem sites_of_result {L : Located C S} {p : Nat} {r : ρ}
    (h : (O.config L).result p = some r) :
    ∃ c σ, L.sites p = some (c, σ) ∧ (O.textAt c σ).result = some r := by
  obtain ⟨⟨c, q⟩, hp, hr⟩ := Option.bind_eq_some_iff.mp h
  obtain ⟨σ, hs, rfl⟩ := O.sites_of_procs hp
  exact ⟨c, σ, hs, hr⟩

theorem sites_eq_none {L : Located C S} {p : Nat} (h : (O.config L).procs p = none) :
    L.sites p = none := by
  simpa [config] using h

@[simp] theorem config_idle (m : Memory) :
    O.config ⟨m, fun _ => none⟩ = (Config.idle m : Config C ι π ρ) := rfl

private theorem config_put (L : Located C S) (m : Memory) (p : Nat) (site : Option (C × S)) :
    O.config ⟨m, Function.update L.sites p site⟩ =
      ⟨m, Function.update (O.config L).procs p (site.map fun x => (x.1, O.textAt x.1 x.2))⟩ := by
  simp only [config, Config.mk.injEq, true_and]
  funext q
  by_cases hq : q = p
  · subst hq
    simp
  · simp [Function.update_of_ne hq]

/-- Every step of the texts is a step between places. -/
theorem step_cases {L : Located C S} {a : Action C} {s' : Config C ι π ρ}
    (h : step code (O.config L) a = some s') :
    (∃ p c, a = .start p c ∧ L.sites p = none ∧
      s' = O.config ⟨L.mem, Function.update L.sites p (some (c, O.entry c))⟩) ∨
    (∃ p clk c σ m' σ', a = .region p clk ∧ L.sites p = some (c, σ) ∧
      O.next c σ L.mem m' σ' ∧
      s' = O.config ⟨m', Function.update L.sites p (some (c, σ'))⟩) ∨
    (∃ p c σ r, a = .finish p ∧ L.sites p = some (c, σ) ∧ (O.textAt c σ).result = some r ∧
      s' = O.config ⟨L.mem, Function.update L.sites p none⟩) := by
  cases a with
  | start p c =>
      cases hp : (O.config L).procs p with
      | some x => simp [step, hp] at h
      | none =>
          simp only [step, hp, Option.some.injEq] at h
          refine Or.inl ⟨p, c, rfl, O.sites_eq_none hp, ?_⟩
          rw [config_put, Option.map_some, O.text_entry, ← h]
          rfl
  | region p clk =>
      cases hp : (O.config L).procs p with
      | none => simp [step, hp] at h
      | some x =>
          obtain ⟨c, q⟩ := x
          obtain ⟨σ, hσ, rfl⟩ := O.sites_of_procs hp
          simp only [step, hp] at h
          obtain ⟨⟨m', q'⟩, entered, hs'⟩ := Option.map_eq_some_iff.mp h
          obtain ⟨σ', hnext, rfl⟩ := O.sound entered
          refine Or.inr (Or.inl ⟨p, clk, c, σ, m', σ', rfl, hσ, hnext, ?_⟩)
          rw [config_put, ← hs', Option.map_some]
  | finish p =>
      cases hp : (O.config L).procs p with
      | none => simp [step, hp] at h
      | some x =>
          obtain ⟨c, q⟩ := x
          obtain ⟨σ, hσ, rfl⟩ := O.sites_of_procs hp
          simp only [step, hp] at h
          obtain ⟨r, hr, hs'⟩ := Option.map_eq_some_iff.mp h
          refine Or.inr (Or.inr ⟨p, c, σ, r, rfl, hσ, hr, ?_⟩)
          rw [config_put, ← hs', Option.map_none]
          rfl

/-- A call that could be started. -/
theorem of_start {L : Located C S} {p : Nat} {c : C} {s' : Config C ι π ρ}
    (h : step code (O.config L) (.start p c) = some s') :
    L.sites p = none ∧
      s' = O.config ⟨L.mem, Function.update L.sites p (some (c, O.entry c))⟩ := by
  rcases O.step_cases h with ⟨_, _, e, hp, rfl⟩ | ⟨_, _, _, _, _, _, e, _⟩ | ⟨_, _, _, _, e, _⟩ <;>
    cases e
  exact ⟨hp, rfl⟩

/-- A call that could be finished. -/
theorem of_finish {L : Located C S} {p : Nat} {s' : Config C ι π ρ}
    (h : step code (O.config L) (.finish p) = some s') :
    s' = O.config ⟨L.mem, Function.update L.sites p none⟩ := by
  rcases O.step_cases h with
    ⟨_, _, e, _⟩ | ⟨_, _, _, _, _, _, e, _⟩ | ⟨_, _, _, _, e, _, _, rfl⟩ <;> cases e
  rfl

/-- Invariants over places. The three premises are the three kinds of step;
each may use that the step met the condition of the run. -/
theorem invariant {ok : Config C ι π ρ → Action C → Prop}
    (I : List (Action C) → Located C S → Prop)
    (start : ∀ {acts L p c}, I acts L → ok (O.config L) (.start p c) → L.sites p = none →
      I (acts ++ [.start p c]) ⟨L.mem, Function.update L.sites p (some (c, O.entry c))⟩)
    (region : ∀ {acts L p clk c σ m' σ'}, I acts L → ok (O.config L) (.region p clk) →
      L.sites p = some (c, σ) → O.next c σ L.mem m' σ' →
      I (acts ++ [.region p clk]) ⟨m', Function.update L.sites p (some (c, σ'))⟩)
    (finish : ∀ {acts L p c σ r}, I acts L → ok (O.config L) (.finish p) →
      L.sites p = some (c, σ) → (O.textAt c σ).result = some r →
      I (acts ++ [.finish p]) ⟨L.mem, Function.update L.sites p none⟩)
    {L : Located C S} {acts : List (Action C)} {s : Config C ι π ρ} (init : I [] L)
    (h : Transition.Run (step code) ok (O.config L) acts s) :
    ∃ L', s = O.config L' ∧ I acts L' := by
  apply h.invariant (fun acts s => ∃ L', s = O.config L' ∧ I acts L') ⟨L, rfl, init⟩
  rintro acts t a u ⟨K, rfl, inv⟩ met taken
  rcases O.step_cases taken with ⟨p, c, rfl, hp, rfl⟩ | ⟨p, clk, c, σ, m', σ', rfl, hp, hn, rfl⟩ |
    ⟨p, c, σ, r, rfl, hp, hr, rfl⟩
  · exact ⟨_, rfl, start inv met hp⟩
  · exact ⟨_, rfl, region inv met hp hn⟩
  · exact ⟨_, rfl, finish inv met hp hr⟩

/-- An assertion `G` about the shared memory and one, `Q`, about each paused
process. Both may mention the actions so far. -/
structure Holds (G : List (Action C) → Memory → Prop)
    (Q : List (Action C) → Memory → Nat → C → S → Prop) (acts : List (Action C))
    (L : Located C S) : Prop where
  shared : G acts L.mem
  paused : ∀ p c σ, L.sites p = some (c, σ) → Q acts L.mem p c σ

/-- The assertions after process `p` moved to another place or became idle. -/
theorem Holds.update {G : List (Action C) → Memory → Prop}
    {Q : List (Action C) → Memory → Nat → C → S → Prop} {acts : List (Action C)}
    {L : Located C S} {m : Memory} {p : Nat} {x : Option (C × S)} (shared : G acts m)
    (self : ∀ c σ, x = some (c, σ) → Q acts m p c σ)
    (others : ∀ q c σ, q ≠ p → L.sites q = some (c, σ) → Q acts m q c σ) :
    Holds G Q acts ⟨m, Function.update L.sites p x⟩ := by
  refine ⟨shared, fun q c σ hq => ?_⟩
  by_cases e : q = p
  · subst e
    exact self c σ ((Function.update_self q x L.sites).symm.trans hq)
  · exact others q c σ e ((Function.update_of_ne e x L.sites).symm.trans hq)

/-- Assertions that are locally correct and free of interference hold along
every run: each step establishes the assertion of the process that takes it
and keeps those of all others. A longer history never invalidates one. -/
theorem holds_of_run {ok : Config C ι π ρ → Action C → Prop}
    {G : List (Action C) → Memory → Prop} {Q : List (Action C) → Memory → Nat → C → S → Prop}
    (grow : ∀ {acts a m}, G acts m → G (acts ++ [a]) m)
    (growPaused : ∀ {acts a m p c σ}, Q acts m p c σ → Q (acts ++ [a]) m p c σ)
    (start : ∀ {acts L p c}, Holds G Q acts L → ok (O.config L) (.start p c) →
      L.sites p = none → Q (acts ++ [.start p c]) L.mem p c (O.entry c))
    (region : ∀ {acts L p clk c σ m' σ'}, Holds G Q acts L → ok (O.config L) (.region p clk) →
      L.sites p = some (c, σ) → O.next c σ L.mem m' σ' →
      G acts m' ∧ Q acts m' p c σ' ∧
        ∀ q c₁ σ₁, q ≠ p → L.sites q = some (c₁, σ₁) → Q acts m' q c₁ σ₁)
    {L : Located C S} {acts : List (Action C)} {s : Config C ι π ρ} (init : Holds G Q [] L)
    (h : Transition.Run (step code) ok (O.config L) acts s) :
    ∃ L', s = O.config L' ∧ Holds G Q acts L' := by
  refine O.invariant (Holds G Q) ?_ ?_ ?_ init h
  · intro acts L p c holds met idle
    have started := start holds met idle
    refine Holds.update (grow holds.shared) ?_ fun q c₁ σ₁ _ hq =>
      growPaused (holds.paused q c₁ σ₁ hq)
    rintro c₁ σ₁ ⟨⟩
    exact started
  · intro acts L p clk c σ m' σ' holds met hp next
    obtain ⟨shared, self, others⟩ := region holds met hp next
    refine Holds.update (grow shared) ?_ fun q c₁ σ₁ e hq => growPaused (others q c₁ σ₁ e hq)
    rintro c₁ σ₁ ⟨⟩
    exact growPaused self
  · intro acts L p c σ r holds met hp reached
    refine Holds.update (grow holds.shared) ?_ fun q c₁ σ₁ _ hq =>
      growPaused (holds.paused q c₁ σ₁ hq)
    intro c₁ σ₁ none
    cases none

/-- If every critical section of a call decreases a rank of its place, the
call takes no more of them than the rank it starts with. -/
theorem rank_of_run {ok : Config C ι π ρ → Action C → Prop} {p : Nat} (rank : S → Nat)
    (decreases : ∀ {c σ m m' σ'}, O.next c σ m m' σ' → rank σ' < rank σ)
    (stays : ∀ s, ¬ ok s (.finish p)) {L : Located C S} {c : C} {σ : S}
    (hp : L.sites p = some (c, σ)) {acts : List (Action C)} {s : Config C ι π ρ}
    (h : Transition.Run (step code) ok (O.config L) acts s) :
    ∃ L' σ', s = O.config L' ∧ L'.sites p = some (c, σ') ∧
      rank σ' + sections p acts ≤ rank σ := by
  have ranked : ∃ L', s = O.config L' ∧
      ∃ σ', L'.sites p = some (c, σ') ∧ rank σ' + sections p acts ≤ rank σ := by
    refine O.invariant (fun acts L' => ∃ σ', L'.sites p = some (c, σ') ∧
      rank σ' + sections p acts ≤ rank σ) ?_ ?_ ?_ ⟨σ, hp, Nat.le_refl _⟩ h
    · rintro acts K q d ⟨σ₁, hp₁, bound⟩ _ idle
      have e : p ≠ q := by
        rintro rfl
        rw [hp₁] at idle
        cases idle
      refine ⟨σ₁, (Function.update_of_ne e _ _).trans hp₁, ?_⟩
      rw [sections_append]
      exact bound
    · rintro acts K q clk d σ₂ m' σ₃ ⟨σ₁, hp₁, bound⟩ _ hq next
      rw [sections_append]
      by_cases e : p = q
      · subst e
        cases hp₁.symm.trans hq
        refine ⟨σ₃, Function.update_self _ _ _, ?_⟩
        have less := decreases next
        simp only [sections, List.countP_singleton, Action.isRegionOf, decide_true, if_true]
        show rank σ₃ + (sections p acts + 1) ≤ rank σ
        omega
      · refine ⟨σ₁, (Function.update_of_ne e _ _).trans hp₁, ?_⟩
        have other : sections p [Action.region (C := C) q clk] = 0 := by
          simp [sections, Action.isRegionOf, Ne.symm e]
        rw [other]
        exact bound
    · rintro acts K q d σ₂ r ⟨σ₁, hp₁, bound⟩ met _ _
      have e : p ≠ q := by
        rintro rfl
        exact stays _ met
      refine ⟨σ₁, (Function.update_of_ne e _ _).trans hp₁, ?_⟩
      rw [sections_append]
      exact bound
  obtain ⟨L', hs, σ', hp', bound⟩ := ranked
  exact ⟨L', σ', hs, hp', bound⟩

end Outline

end SharedMemory
