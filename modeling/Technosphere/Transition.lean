import Mathlib.Data.List.Basic

/-!
# Runs of a deterministic step function

`Run step ok s acts t` says that the actions `acts`, taken in order from `s`,
lead to `t`, and that each of them met `ok` in the state it was taken in. With
`ok` always true these are all runs of the system; other conditions restrict
which steps an environment or a scheduler may choose.

Invariants may mention the actions taken so far, so histories need no extra
state. `Throughout` speaks about every step that a schedule takes. `InForce`
reads a list of events backwards: what was put in place and not dropped since.
-/

namespace Transition

variable {σ α : Type} {step : σ → α → Option σ} {ok ok' : σ → α → Prop}

inductive Run (step : σ → α → Option σ) (ok : σ → α → Prop) (s : σ) : List α → σ → Prop where
  | nil : Run step ok s [] s
  | snoc {acts t a u} : Run step ok s acts t → ok t a → step t a = some u →
      Run step ok s (acts ++ [a]) u

/-- No condition on the steps. -/
def Always (_ : σ) (_ : α) : Prop := True

namespace Run

theorem mono {s t : σ} {acts : List α} (h : Run step ok s acts t)
    (weaken : ∀ s a, ok s a → ok' s a) : Run step ok' s acts t := by
  induction h with
  | nil => exact .nil
  | snoc _ met taken ih => exact .snoc ih (weaken _ _ met) taken

theorem single {s t : σ} {a : α} (met : ok s a) (taken : step s a = some t) :
    Run step ok s [a] t := by
  simpa using Run.snoc .nil met taken

theorem trans {s t u : σ} {acts acts' : List α} (first : Run step ok s acts t)
    (second : Run step ok t acts' u) : Run step ok s (acts ++ acts') u := by
  induction second with
  | nil => simpa using first
  | snoc _ met taken ih =>
      rw [← List.append_assoc]
      exact .snoc ih met taken

theorem cons {s t u : σ} {a : α} {acts : List α} (met : ok s a) (taken : step s a = some t)
    (rest : Run step ok t acts u) : Run step ok s (a :: acts) u :=
  (single met taken).trans rest

/-- A run that is computed. -/
theorem of_foldlM {s t : σ} {acts : List α} (h : acts.foldlM step s = some t) :
    Run step Always s acts t := by
  induction acts generalizing s with
  | nil =>
      cases h
      exact .nil
  | cons a acts ih =>
      rw [List.foldlM_cons] at h
      obtain ⟨u, taken, rest⟩ := Option.bind_eq_some_iff.mp h
      exact cons trivial taken (ih rest)

/-- Every step of a run is one of its actions. -/
theorem mem_acts {s t : σ} {acts : List α} (h : Run step ok s acts t) :
    Run step (fun _ a => a ∈ acts) s acts t := by
  induction h with
  | nil => exact .nil
  | snoc _ _ taken ih =>
      refine .snoc (ih.mono fun _ _ earlier => List.mem_append_left _ earlier) ?_ taken
      exact List.mem_append_right _ (List.mem_singleton.mpr rfl)

/-- The invariant rule: what holds at the start and survives every step that
meets the condition holds at the end. The invariant sees the actions so far. -/
theorem invariant {s t : σ} {acts : List α} (I : List α → σ → Prop) (init : I [] s)
    (keep : ∀ {acts t a u}, I acts t → ok t a → step t a = some u → I (acts ++ [a]) u)
    (h : Run step ok s acts t) : I acts t := by
  induction h with
  | nil => exact init
  | snoc _ met taken ih => exact keep ih met taken

/-- A quantity that every step takes down bounds how long a run can be. -/
theorem length_le {s t : σ} {acts : List α} (I : σ → Prop) (quantity : σ → Nat) (init : I s)
    (down : ∀ {s a t}, I s → ok s a → step s a = some t → I t ∧ quantity t < quantity s)
    (h : Run step ok s acts t) : I t ∧ acts.length + quantity t ≤ quantity s := by
  induction h with
  | nil => exact ⟨init, by simp⟩
  | snoc _ met taken ih =>
      obtain ⟨holds, bound⟩ := ih
      obtain ⟨holds', less⟩ := down holds met taken
      refine ⟨holds', ?_⟩
      rw [List.length_append, List.length_singleton]
      omega

/-- Where a step is possible until everything is done, some run gets there. -/
theorem completes {s : σ} (I done : σ → Prop) (quantity : σ → Nat) (init : I s)
    (down : ∀ {s a t}, I s → ok s a → step s a = some t → I t ∧ quantity t < quantity s)
    (go : ∀ {s}, I s → ¬ done s → ∃ a t, ok s a ∧ step s a = some t) :
    ∃ acts t, Run step ok s acts t ∧ done t := by
  induction left : quantity s using Nat.strongRecOn generalizing s with
  | ind n ih =>
      subst left
      by_cases ended : done s
      · exact ⟨[], s, .nil, ended⟩
      · obtain ⟨a, t, met, taken⟩ := go init ended
        obtain ⟨holds, less⟩ := down init met taken
        obtain ⟨acts, u, ran, finished⟩ := ih _ less holds rfl
        exact ⟨a :: acts, u, .cons met taken ran, finished⟩

end Run

/-! ## Properties of every step -/

/-- Every step that the actions take from a state satisfies `P`. -/
def Throughout (step : σ → α → Option σ) (P : σ → α → σ → Prop) : List α → σ → Prop
  | [], _ => True
  | a :: acts, s => ∀ t, step s a = some t → P s a t ∧ Throughout step P acts t

/-- Two properties of single steps that agree wherever an invariant holds, which
steps with the first property keep. -/
theorem throughout_congr_of_kept {P Q : σ → α → σ → Prop} (I : σ → Prop)
    (keep : ∀ {s a t}, I s → step s a = some t → P s a t → I t)
    (agree : ∀ {s a t}, I s → step s a = some t → (P s a t ↔ Q s a t)) (acts : List α) {s : σ}
    (init : I s) : Throughout step P acts s ↔ Throughout step Q acts s := by
  induction acts generalizing s with
  | nil => exact Iff.rfl
  | cons a acts ih =>
      apply forall_congr'
      intro t
      apply forall_congr'
      intro taken
      have rest : P s a t → (Throughout step P acts t ↔ Throughout step Q acts t) :=
        fun p => ih (keep init taken p)
      exact (and_congr_right rest).trans (and_congr_left' (agree init taken))

/-- Two properties of single steps that agree wherever an invariant holds. -/
theorem throughout_congr {P Q : σ → α → σ → Prop} (I : σ → Prop)
    (keep : ∀ {s a t}, I s → step s a = some t → I t)
    (agree : ∀ {s a t}, I s → step s a = some t → (P s a t ↔ Q s a t)) (acts : List α) {s : σ}
    (init : I s) : Throughout step P acts s ↔ Throughout step Q acts s :=
  throughout_congr_of_kept I (fun kept taken _ => keep kept taken) agree acts init

/-- The steps after a run. -/
theorem Throughout.after {P : σ → α → σ → Prop} {acts more : List α} {s t : σ}
    (h : Throughout step P (acts ++ more) s) (ran : Run step ok s acts t) :
    Throughout step P more t := by
  induction ran generalizing more with
  | nil => exact h
  | snoc _ _ taken ih =>
      rw [List.append_assoc] at h
      exact (ih h _ taken).2

/-! ## What a history has left in force -/

/-- Some event of the history put something in place and no later one dropped it. -/
def InForce (puts drops : α → Prop) (history : List α) : Prop :=
  ∃ before e after, history = before ++ e :: after ∧ puts e ∧ ∀ f ∈ after, ¬ drops f

theorem not_inForce_nil (puts drops : α → Prop) : ¬ InForce puts drops [] := by
  rintro ⟨before, e, after, split, _⟩
  simp at split

theorem inForce_snoc {puts drops : α → Prop} {history : List α} {e : α} :
    InForce puts drops (history ++ [e]) ↔ puts e ∨ (InForce puts drops history ∧ ¬ drops e) := by
  constructor
  · rintro ⟨before, f, after, split, put, rest⟩
    rcases List.eq_nil_or_concat after with rfl | ⟨after, g, rfl⟩
    · obtain ⟨_, hf⟩ := List.append_inj' split rfl
      cases hf
      exact Or.inl put
    · rw [List.concat_eq_append, ← List.cons_append, ← List.append_assoc] at split
      obtain ⟨rfl, hg⟩ := List.append_inj' split rfl
      cases hg
      refine Or.inr ⟨⟨before, f, after, rfl, put, fun x hx => rest x ?_⟩, rest e ?_⟩
      · simp [hx]
      · simp
  · rintro (put | ⟨⟨before, f, after, rfl, put, rest⟩, stays⟩)
    · exact ⟨history, e, [], rfl, put, by simp⟩
    · refine ⟨before, f, after ++ [e], by simp, put, ?_⟩
      intro x hx
      rcases List.mem_append.mp hx with hx | hx
      · exact rest x hx
      · rw [List.mem_singleton.mp hx]
        exact stays

end Transition
