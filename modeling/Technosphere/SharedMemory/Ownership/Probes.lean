import Technosphere.SharedMemory.Ownership
import Technosphere.SharedMemory.Scan

/-!
# Probes that own the segment they are in

A probe holds the semaphore of one segment at a time and changes nothing. When
it stops at a cell, that cell matched when the segment was last seen.
-/

namespace SharedMemory.Protocol

open Scan OpenAddressing

variable {ι π α : Type} {P : Protocol ι}

/-- The knowledge has only grown: what was seen later is a change of what was
seen before. -/
structure Later (P : Protocol ι) (g g' : Ghost ι) : Prop where
  rely : ∀ k, P.Rely k (g.seen k) (g'.seen k)
  now : g.now ≤ g'.now

namespace Later

variable {g g' : Ghost ι}

theorem refl (g : Ghost ι) : P.Later g g := ⟨fun _ => P.rely_refl _ _, Nat.le_refl _⟩

theorem trans {g'' : Ghost ι} (h : P.Later g g') (h' : P.Later g' g'') : P.Later g g'' :=
  ⟨fun k => P.rely_trans (h.rely k) (h'.rely k), Nat.le_trans h.now h'.now⟩

/-- To see the semaphore again with a change that is relied on. -/
private theorem see {k : Nat} {m : Memory} {γ : Ghost ι}
    (seen : γ.seen = Function.update g.seen k m) (now : g.now ≤ γ.now)
    (h : P.Rely k (g.seen k) m) : P.Later g γ := by
  refine ⟨fun k' => ?_, now⟩
  rw [seen]
  by_cases e : k' = k
  · subst e
    rw [Function.update_self]
    exact h
  · rw [Function.update_of_ne e]
    exact P.rely_refl _ _

theorem acquire {i : ι} {k : Nat} {m : Memory} (h : P.Rely k (g.seen k) m) :
    P.Later g (g.acquire i k m) :=
  see rfl (Nat.le_refl _) h

theorem release {k : Nat} {m : Memory} (h : P.Rely k (g.seen k) m) : P.Later g (g.release k m) :=
  see rfl (Nat.le_refl _) h

end Later

/-- The text of a test that a probe makes, for cells below `cells` in segments
of `seg` cells. -/
structure Tests (P : Protocol ι) (sem : Nat → ι) (seg cells : Nat) (test : Nat → Prog ι π Bool)
    (hits : Memory → Nat → Bool) : Prop where
  index : ∀ k < P.count, P.index (sem k) = k
  inside : ∀ c < cells, c / seg < P.count
  confined : ∀ c < cells, ∀ m,
    Confined (P.guards (sem (c / seg))) (fun _ => False) (test c) m
  alone : ∀ c m, Prog.exec 0 (test c) m = (hits m c, m)

section Rules

variable {S : Ghost ι → Nat → Prop} {sem : Nat → ι} {seg cells : Nat} {pt : Nat → π}
variable {test : Nat → Prog ι π Bool} {hits : Memory → Nat → Bool}

/-- Nothing was changed under the semaphore that is held. -/
def Reading (sem : Nat → ι) (block : Nat) (g : Ghost ι) : Prop :=
  g.held = some (sem block, g.seen block)

/-- Taking the semaphore of a segment that exists, to read in it. -/
theorem wp_enter (T : P.Tests sem seg cells test hits) {block : Nat} {point : π} {g : Ghost ι}
    {f : Unit → Prog ι π α} {Q : α → Ghost ι → Prop} (named : block < P.count)
    (free : g.held = none)
    (rest : ∀ g', P.Later g g' → Reading sem block g' → P.wp S (f ()) g' Q) :
    P.wp S (Prog.acquire (sem block) point >>= f) g Q := by
  have same := T.index block named
  apply wp_acquire free (by rwa [same])
  intro m rely
  rw [same] at rely ⊢
  apply rest _ (.acquire rely)
  show some (sem block, m) = some (sem block, Function.update g.seen block m block)
  rw [Function.update_self]

/-- Releasing it again. -/
theorem wp_leave (T : P.Tests sem seg cells test hits) {block : Nat} {g : Ghost ι}
    {f : Unit → Prog ι π α} {Q : α → Ghost ι → Prop} (named : block < P.count)
    (reading : Reading sem block g)
    (rest : P.wp S (f ()) { g with held := none } Q) :
    P.wp S (Prog.release (sem block) >>= f) g Q := by
  have same := T.index block named
  apply wp_release reading (congrArg g.seen same) (P.rely_refl _ _)
  rw [same, Ghost.release, Function.update_eq_self]
  exact rest

theorem wp_test (T : P.Tests sem seg cells test hits) {c : Nat} (hc : c < cells) {g : Ghost ι}
    {f : Bool → Prog ι π α} {Q : α → Ghost ι → Prop} (reading : Reading sem (c / seg) g)
    (rest : P.wp S (f (hits (g.seen (c / seg)) c)) g Q) : P.wp S (test c >>= f) g Q := by
  apply wp_bind
  apply wp_confined (T.confined c hc _) reading
  · exact fun a guarded => guarded
  · exact fun a never => never.elim
  · rw [T.alone, Ghost.write, ← reading]
    exact rest

/-- A loop over cells ends at a cell that matched, or still in a segment. -/
theorem wp_forCells (T : P.Tests sem seg cells test hits) {walk : List Nat}
    (inside : ∀ c ∈ walk, c < cells) {block : Nat} (named : block < P.count) {g : Ghost ι}
    (reading : Reading sem block g) :
    P.wp S (forCells sem seg pt test walk block) g fun o g' => P.Later g g' ∧
      match o with
      | .found c => c ∈ walk ∧ g'.held = none ∧ hits (g'.seen (c / seg)) c = true
      | .ended b => b < P.count ∧ Reading sem b g' := by
  induction walk generalizing block g with
  | nil => exact ⟨.refl g, named, reading⟩
  | cons cur rest ih =>
      have hcur : cur < cells := inside cur (by simp)
      have hrest : ∀ c ∈ rest, c < cells := fun c hc => inside c (by simp [hc])
      have visit : ∀ g₁, P.Later g g₁ → Reading sem (cur / seg) g₁ →
          P.wp S (forCells sem seg pt test (cur :: rest) (cur / seg)) g₁ fun o g' =>
            P.Later g g' ∧
            match o with
            | .found c => c ∈ cur :: rest ∧ g'.held = none ∧ hits (g'.seen (c / seg)) c = true
            | .ended b => b < P.count ∧ Reading sem b g' := by
        intro g₁ later reading₁
        rw [forCells_visit]
        apply wp_test T hcur reading₁
        cases hit : hits (g₁.seen (cur / seg)) cur with
        | true =>
            apply wp_leave T (T.inside cur hcur) reading₁
            exact ⟨later.trans ⟨fun k => P.rely_refl k _, Nat.le_refl _⟩, by simp, rfl, hit⟩
        | false =>
            apply wp_mono (ih hrest (T.inside cur hcur) reading₁)
            rintro o g' ⟨later', ends⟩
            refine ⟨later.trans later', ?_⟩
            cases o with
            | found c => exact ⟨List.mem_cons_of_mem _ ends.1, ends.2⟩
            | ended b => exact ends
      by_cases hb : cur / seg ≠ block
      · rw [forCells_border _ hb]
        apply wp_leave T named reading
        apply wp_enter T (T.inside cur hcur) rfl
        intro g₁ later reading₁
        exact visit g₁ ⟨later.rely, later.now⟩ reading₁
      · obtain rfl : cur / seg = block := by simpa using hb
        exact visit g (.refl g) reading

/-- A probe returns -1 or a cell that matched when it was seen last. -/
theorem wp_find (T : P.Tests sem seg cells test hits) {h : Nat} (hh : h < cells) {g : Ghost ι}
    (free : g.held = none) :
    P.wp S (find sem seg pt test cells h) g fun idx g' => P.Later g g' ∧ g'.held = none ∧
      (idx = -1 ∨ ∃ c < cells, idx = c ∧ hits (g'.seen (c / seg)) c = true) := by
  have inside : ∀ c ∈ probeOrder cells h, c < cells :=
    fun c hc => (mem_probeOrder (Nat.le_of_lt hh)).mp hc
  rw [find_eq_resume hh]
  rw [probeOrder_cons hh] at inside ⊢
  rw [resume]
  apply wp_enter T (T.inside h hh) free
  intro g₁ later reading
  rw [probe]
  apply wp_bind
  apply wp_mono (wp_forCells T inside (T.inside h hh) reading)
  rintro o g' ⟨later', ends⟩
  cases o with
  | found c =>
      obtain ⟨member, free', hit⟩ := ends
      exact ⟨later.trans later', free', Or.inr ⟨c, inside c member, rfl, hit⟩⟩
  | ended b =>
      obtain ⟨named, reading'⟩ := ends
      show P.wp S (close sem (.ended b)) g' _
      rw [close]
      apply wp_leave T named reading'
      exact ⟨(later.trans later').trans ⟨fun k => P.rely_refl k _, Nat.le_refl _⟩, rfl,
        Or.inl rfl⟩

end Rules

end SharedMemory.Protocol
