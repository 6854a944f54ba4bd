import Technosphere.SharedMemory.Interleaving
import Technosphere.SharedMemory.Semaphores

/-!
# Critical sections are atomic

The two semantics of many processes are connected here. Wherever the locking
discipline is kept, whatever the processes do instruction by instruction they
could also have done by whole critical sections: each section is moved to the
instant of its release. Until then its process is still in front of the
semaphore as far as the coarse run is concerned, and `Within` records what it
has done in private.

The coarse run starts and finishes the same calls in the same order. Processes
that hold no semaphore are at the same text, and the bytes that nobody holds
exclusively are the same.
-/

namespace SharedMemory

variable {C ι π ρ α : Type}

namespace Prog

/-- The next instruction reads the clock. -/
def readsClock : Prog ι π α → Bool
  | time _ => true
  | _ => false

/-- A section entered at `next` with the memory `m` has come to a text, with
the memory as it would be if nothing else had happened since. It touched bytes
of `G` only. The list holds its clock readings. -/
inductive Within (G : Nat → Prop) (next : Prog ι π α) (m : Memory) :
    List Int → Prog ι π α → Memory → Prop where
  | entered : Within G next m [] next m
  | load {readings a k m'} : Within G next m readings (.load a k) m' → G a →
      Within G next m readings (k (m' a)) m'
  | store {readings a b k m'} : Within G next m readings (.store a b k) m' → G a →
      Within G next m readings k (Function.update m' a b)
  | time {readings k m'} (t : Int) : Within G next m readings (.time k) m' →
      Within G next m (readings ++ [t]) (k t) m'

namespace Within

variable {G : Nat → Prop} {next q : Prog ι π α} {m m' m₁ : Memory} {readings : List Int}

/-- The other bytes stay as they were. -/
theorem outside (h : Within G next m readings q m') {a : Nat} (ha : ¬ G a) : m' a = m a := by
  induction h with
  | entered => rfl
  | load _ _ ih => exact ih
  | @store _ x _ _ _ _ inside ih =>
      have ne : a ≠ x := by
        rintro rfl
        exact ha inside
      rw [Function.update_of_ne ne, ih]
  | time _ _ ih => exact ih

/-- What a section does is not affected by the other bytes. -/
theorem frame (h : Within G next m readings q m') (same : ∀ a, G a → m₁ a = m a) :
    ∃ m₁', Within G next m₁ readings q m₁' ∧ ∀ a, G a → m₁' a = m' a := by
  induction h with
  | entered => exact ⟨m₁, .entered, same⟩
  | @load _ a _ _ _ inside ih =>
      obtain ⟨m₁', within, agree⟩ := ih
      refine ⟨m₁', ?_, agree⟩
      rw [← agree a inside]
      exact within.load inside
  | @store _ a b _ _ _ inside ih =>
      obtain ⟨m₁', within, agree⟩ := ih
      refine ⟨_, within.store inside, fun x hx => ?_⟩
      by_cases e : x = a
      · subst e
        rw [Function.update_self, Function.update_self]
      · rw [Function.update_of_ne e, Function.update_of_ne e, agree x hx]
  | time t _ ih =>
      obtain ⟨m₁', within, agree⟩ := ih
      exact ⟨m₁', within.time t, agree⟩

/-- Running on from where the section has come to completes it. -/
theorem region (h : Within G next m readings q m') (clk : Nat → Int)
    (read : ∀ i t, readings[i]? = some t → clk i = t) :
    next.region clk m = q.region (fun i => clk (i + readings.length)) m' := by
  induction h with
  | entered => rfl
  | load _ _ ih => exact ih read
  | store _ _ ih => exact ih read
  | @time readings k m' t _ ih =>
      have earlier : ∀ i t, readings[i]? = some t → clk i = t := by
        intro i u hu
        have bound := (List.getElem?_eq_some_iff.mp hu).1
        exact read i u ((List.getElem?_append_left bound).trans hu)
      have last : clk (0 + readings.length) = t := by
        apply read
        rw [Nat.zero_add]
        exact List.getElem?_concat_length
      rw [ih earlier]
      show (k (clk (0 + readings.length))).region _ m' = _
      rw [last, List.length_append, List.length_singleton]
      simp only [Nat.add_assoc, Nat.add_comm 1]

end Within

end Prog

/-! ## What both runs show -/

/-- The starts and the ends of calls. -/
def Machine.Act.boundary : Machine.Act C → Option (Action C)
  | .start p c => some (.start p c)
  | .finish p => some (.finish p)
  | _ => none

def Action.boundary : Action C → Option (Action C)
  | .region _ _ => none
  | a => some a

namespace Machine

open Transition

/-- Process `p` is in the section that it entered with `i`. The coarse run has
not let it in yet. -/
def InSection (S : Semaphores ι) (guard : Nat → Nat) (s : Machine C ι π ρ)
    (u : Config C ι π ρ) (p : Nat) (i : ι) : Prop :=
  ∃ c q pt next readings m, s.procs p = some (c, q) ∧ u.procs p = some (c, .lock i pt next) ∧
    next.Within (fun a => guard a = S.index i) u.mem readings q m ∧
    (∀ a, guard a = S.index i → m a = s.mem a) ∧ (S.weight i ≠ S.permits → m = u.mem)

/-- `u` is the coarse view of `s`. -/
structure Coarse (S : Semaphores ι) (guard : Nat → Nat) (s : Machine C ι π ρ)
    (u : Config C ι π ρ) : Prop where
  outside : ∀ p, heldBy s.holds p = [] → u.procs p = s.procs p
  inside : ∀ p i, i ∈ heldBy s.holds p → InSection S guard s u p i
  settled : ∀ a, (∀ p i, i ∈ heldBy s.holds p → S.index i = guard a →
    S.weight i ≠ S.permits) → u.mem a = s.mem a

variable {S : Semaphores ι} {guard : Nat → Nat} {s t : Machine C ι π ρ} {u : Config C ι π ρ}

/-- A section goes on while its process and its bytes are left alone. -/
theorem InSection.frame {p : Nat} {i : ι} {u' : Config C ι π ρ}
    (h : InSection S guard s u p i) (procs : t.procs p = s.procs p)
    (procs' : u'.procs p = u.procs p) (mem : ∀ a, guard a = S.index i → t.mem a = s.mem a)
    (mem' : ∀ a, guard a = S.index i → u'.mem a = u.mem a) : InSection S guard t u' p i := by
  obtain ⟨c, q, pt, next, readings, m, running, waiting, within, own, shared⟩ := h
  obtain ⟨m', within', agree⟩ := within.frame mem'
  refine ⟨c, q, pt, next, readings, m', procs.trans running, procs'.trans waiting, within', ?_, ?_⟩
  · intro a ha
    rw [agree a ha, own a ha, mem a ha]
  · intro reader
    funext a
    by_cases ha : guard a = S.index i
    · rw [agree a ha, shared reader, mem' a ha]
    · exact within'.outside ha

/-- The section of a process that holds `i` and is at `q`. -/
theorem Coarse.at {p : Nat} {i : ι} {c : C} {q : Prog ι π ρ} (h : Coarse S guard s u)
    (held : i ∈ heldBy s.holds p) (running : s.procs p = some (c, q)) :
    ∃ pt next readings m, u.procs p = some (c, .lock i pt next) ∧
      next.Within (fun a => guard a = S.index i) u.mem readings q m ∧
      (∀ a, guard a = S.index i → m a = s.mem a) ∧ (S.weight i ≠ S.permits → m = u.mem) := by
  obtain ⟨c', q', pt, next, readings, m, running', rest⟩ := h.inside p i held
  cases running.symm.trans running'
  exact ⟨pt, next, readings, m, rest⟩

/-- Where nothing is held the memories are the same. -/
theorem Coarse.mem_eq (h : Coarse S guard s u) (free : s.holds = []) : u.mem = s.mem := by
  funext a
  apply h.settled
  intro p i held
  rw [free] at held
  cases held

theorem coarse_initial (mem : Memory) (clock : Nat) :
    Coarse S guard (initial S mem clock : Machine C ι π ρ) (.idle mem) where
  outside _ _ := rfl
  inside _ _ held := by cases held
  settled _ _ := rfl

/-! ## One instruction -/

section Steps

variable {p : Nat} {c : C} {i : ι}

/-- A process that holds nothing starts or finishes a call. -/
theorem Coarse.replace (h : Coarse S guard s u) (free : heldBy s.holds p = [])
    (x : Option (C × Prog ι π ρ)) :
    Coarse S guard { s with procs := Function.update s.procs p x }
      { u with procs := Function.update u.procs p x } where
  outside q empty := by
    show Function.update u.procs p x q = Function.update s.procs p x q
    by_cases e : q = p
    · subst e
      rw [Function.update_self, Function.update_self]
    · rw [Function.update_of_ne e, Function.update_of_ne e]
      exact h.outside q empty
  inside q i holds := by
    have e : q ≠ p := by
      rintro rfl
      rw [show heldBy s.holds q = [] from free] at holds
      cases holds
    exact (h.inside q i holds).frame (Function.update_of_ne e _ _) (Function.update_of_ne e _ _)
      (fun _ _ => rfl) fun _ _ => rfl
  settled := h.settled

/-- A process enters a section. The coarse run does not notice. -/
theorem Coarse.lock {pt : π} {next : Prog ι π ρ} (h : Coarse S guard s u) (value : Nat → Nat)
    (running : s.procs p = some (c, .lock i pt next)) (free : heldBy s.holds p = [])
    (quiet : ∀ q j, j ∈ heldBy s.holds q → S.index j = S.index i → S.weight j ≠ S.permits) :
    Coarse S guard { s.goOn p c next with value := value, holds := (p, i) :: s.holds } u where
  outside q empty := by
    have e : q ≠ p := by
      rintro rfl
      rw [show heldBy ((q, i) :: s.holds) q = i :: _ from heldBy_cons_self] at empty
      cases empty
    rw [show heldBy ((p, i) :: s.holds) q = _ from heldBy_cons_of_ne e] at empty
    exact (h.outside q empty).trans (Function.update_of_ne e _ _).symm
  inside q j holds := by
    by_cases e : q = p
    · subst e
      rw [show heldBy ((q, i) :: s.holds) q = i :: _ from heldBy_cons_self, free] at holds
      cases List.mem_singleton.mp holds
      have waiting := (h.outside q free).trans running
      have own : ∀ a, guard a = S.index i → u.mem a = s.mem a := by
        intro a ha
        apply h.settled
        rw [ha]
        exact quiet
      exact ⟨c, next, pt, next, [], u.mem, Function.update_self _ _ _, waiting, .entered, own,
        fun _ => rfl⟩
    · rw [show heldBy ((p, i) :: s.holds) q = _ from heldBy_cons_of_ne e] at holds
      exact (h.inside q j holds).frame (Function.update_of_ne e _ _) rfl (fun _ _ => rfl)
        fun _ _ => rfl
  settled a exclusive := by
    apply h.settled
    intro q j holds
    apply exclusive q j
    rw [mem_heldBy] at holds ⊢
    exact List.mem_cons_of_mem _ holds

/-- A process goes on in its section. What it changes, it holds exclusively. -/
theorem Coarse.proceed (h : Coarse S guard s u) (single : ∀ j, j ∈ heldBy s.holds p → j = i)
    (held : i ∈ heldBy s.holds p) (holds : t.holds = s.holds)
    (others : ∀ q, q ≠ p → t.procs q = s.procs q)
    (alone : ∀ q j, j ∈ heldBy s.holds q → S.index j = S.index i → S.weight i = S.permits → q = p)
    (mem : ∀ a, t.mem a = s.mem a ∨ (guard a = S.index i ∧ S.weight i = S.permits))
    (self : InSection S guard t u p i) : Coarse S guard t u where
  outside q empty := by
    rw [holds] at empty
    have e : q ≠ p := by
      rintro rfl
      rw [empty] at held
      cases held
    exact (h.outside q empty).trans (others q e).symm
  inside q j holder := by
    rw [holds] at holder
    by_cases e : q = p
    · subst e
      rw [single j holder]
      exact self
    · refine (h.inside q j holder).frame (others q e) rfl (fun a ha => ?_) fun _ _ => rfl
      rcases mem a with same | ⟨here, exclusive⟩
      · exact same
      · exact absurd (alone q j holder (ha.symm.trans here) exclusive) e
  settled a free := by
    rw [holds] at free
    rcases mem a with same | ⟨here, exclusive⟩
    · rw [same]
      exact h.settled a free
    · exact absurd exclusive (free p i held here.symm)

/-- A process leaves its section, which the coarse run now makes up for. -/
theorem Coarse.unlock [DecidableEq ι] {next : Prog ι π ρ} {code : C → Prog ι π ρ}
    (h : Coarse S guard s u) (value : Nat → Nat)
    (running : s.procs p = some (c, .unlock i next)) (held : heldBy s.holds p = [i])
    (alone : ∀ q j, j ∈ heldBy s.holds q → S.index j = S.index i → S.weight i = S.permits → q = p) :
    ∃ clk u', SharedMemory.step code u (.region p clk) = some u' ∧
      Coarse S guard
        { s.goOn p c next with value := value, holds := s.holds.erase (p, i) } u' := by
  have holder : i ∈ heldBy s.holds p := by
    rw [held]
    exact List.mem_singleton.mpr rfl
  obtain ⟨c', q, pt, entered, readings, m, running', waiting, within, own, shared⟩ :=
    h.inside p i holder
  cases running.symm.trans running'
  have whole := within.region (fun i => readings.getD i 0) fun i t hi => by
    rw [List.getD_eq_getElem?_getD, hi, Option.getD_some]
  refine ⟨fun i => readings.getD i 0, ⟨m, Function.update u.procs p (some (c, next))⟩, ?_, ?_⟩
  · simp only [SharedMemory.step, waiting, Prog.enter, Option.map_some, whole]
    rfl
  · have empty : heldBy (s.holds.erase (p, i)) p = [] := by
      rw [heldBy_erase_self, held, List.erase_cons_head]
    refine ⟨fun q free => ?_, fun q j holds => ?_, fun a free => ?_⟩
    · show Function.update u.procs p _ q = Function.update s.procs p _ q
      by_cases e : q = p
      · subst e
        rw [Function.update_self, Function.update_self]
      · rw [Function.update_of_ne e, Function.update_of_ne e]
        rw [show heldBy (s.holds.erase (p, i)) q = _ from heldBy_erase_of_ne e] at free
        exact h.outside q free
    · have e : q ≠ p := by
        rintro rfl
        rw [show heldBy (s.holds.erase (q, i)) q = [] from empty] at holds
        cases holds
      rw [show heldBy (s.holds.erase (p, i)) q = _ from heldBy_erase_of_ne e] at holds
      refine (h.inside q j holds).frame (Function.update_of_ne e _ _) (Function.update_of_ne e _ _)
        (fun _ _ => rfl) fun a ha => ?_
      by_cases same : S.index j = S.index i
      · -- two holders of one semaphore are readers
        have reader : S.weight i ≠ S.permits := fun all => e (alone q j holds same all)
        exact congrFun (shared reader) a
      · exact within.outside fun there => same (ha.symm.trans there)
    · show m a = s.mem a
      by_cases here : guard a = S.index i
      · exact own a here
      · rw [within.outside here]
        apply h.settled
        intro q j holds index
        apply free q j _ index
        rw [mem_heldBy] at holds ⊢
        refine (List.mem_erase_of_ne ?_).mpr holds
        rintro ⟨⟩
        exact here index.symm

end Steps

/-! ## Whole runs -/

section Runs

variable [DecidableEq ι] {size : Nat} {code : C → Prog ι π ρ}

/-- What a process holds in a disciplined configuration is one semaphore. -/
theorem Disciplined.heldBy_eq {p : Nat} {i : ι} (h : Disciplined S guard size code s)
    (held : i ∈ heldBy s.holds p) : heldBy s.holds p = [i] := by
  have single := h.single p
  obtain ⟨j, rest, cons⟩ := List.exists_cons_of_ne_nil (List.ne_nil_of_mem held)
  rw [cons] at single held ⊢
  obtain rfl : rest = [] := List.eq_nil_of_length_eq_zero (by simpa using single)
  rw [List.mem_singleton.mp held]

theorem Disciplined.alone {p q : Nat} {i j : ι} (h : Disciplined S guard size code s)
    (hp : i ∈ heldBy s.holds p) (hq : j ∈ heldBy s.holds q) (same : S.index j = S.index i)
    (all : S.weight i = S.permits) : q = p :=
  (h.exclusive p i q j hp hq same.symm all).symm

/-- One instruction is a section or nothing in the coarse run. -/
theorem Coarse.run {p : Nat} (h : Coarse S guard s u)
    (before : Disciplined S guard size code s) (after : Disciplined S guard size code t)
    (paused : ∀ p c q, u.procs p = some (c, q) → q.readsClock = false)
    (taken : Machine.step S code s (.run p) = some t) :
    Coarse S guard t u ∨
      ∃ clk u', SharedMemory.step code u (.region p clk) = some u' ∧ Coarse S guard t u' := by
  cases running : s.procs p with
  | none => simp [Machine.step, running] at taken
  | some x =>
      obtain ⟨c, q⟩ := x
      simp only [Machine.step, running] at taken
      have proceed : ∀ {i}, i ∈ heldBy s.holds p → t.holds = s.holds →
          (∀ q, q ≠ p → t.procs q = s.procs q) →
          (∀ a, t.mem a = s.mem a ∨ (guard a = S.index i ∧ S.weight i = S.permits)) →
          InSection S guard t u p i → Coarse S guard t u := by
        intro i held holds others mem self
        refine h.proceed (fun j hj => ?_) held holds others
          (fun q j hj same all => before.alone held hj same all) mem self
        rw [before.heldBy_eq held] at hj
        exact List.mem_singleton.mp hj
      cases q with
      | ret r => cases taken
      | lock i pt next =>
          obtain ⟨left, moved⟩ := Option.ite_none_right_eq_some.mp taken
          cases moved
          have mine : heldBy ((p, i) :: s.holds) p = i :: heldBy s.holds p := heldBy_cons_self
          have free : heldBy s.holds p = [] := by
            have single := after.single p
            rw [show heldBy _ p = _ from mine, List.length_cons] at single
            exact List.eq_nil_of_length_eq_zero (by omega)
          refine Or.inl (h.lock _ running free fun q j hj same all => ?_)
          have e : q ≠ p := by
            rintro rfl
            rw [free] at hj
            cases hj
          refine e (after.exclusive q j p i ?_ ?_ same all)
          · rw [mem_heldBy] at hj ⊢
            exact List.mem_cons_of_mem _ hj
          · rw [show heldBy _ p = _ from mine]
            exact List.mem_cons_self
      | unlock i next =>
          cases taken
          have held := before.released p c _ i running rfl
          exact Or.inr (h.unlock _ running (before.heldBy_eq held)
            fun q j hj same all => before.alone held hj same all)
      | load a next =>
          cases taken
          obtain ⟨_, i, held, index⟩ := before.loaded p c _ a running rfl
          obtain ⟨pt, entered, readings, m, waiting, within, own, shared⟩ := h.at held running
          have byte := own a index.symm
          refine Or.inl (proceed held rfl (fun q e => Function.update_of_ne e _ _)
            (fun _ => Or.inl rfl) ⟨c, _, pt, entered, readings, m, goOn_procs_self _ _ _ _, waiting,
              ?_, own, shared⟩)
          rw [← byte]
          exact within.load index.symm
      | store a b next =>
          cases taken
          obtain ⟨_, i, held, index, all⟩ := before.stored p c _ a running rfl
          obtain ⟨pt, entered, readings, m, waiting, within, own, _⟩ := h.at held running
          refine Or.inl (proceed held rfl (fun q e => Function.update_of_ne e _ _) (fun x => ?_)
            ⟨c, _, pt, entered, readings, _, Function.update_self _ _ _, waiting,
              within.store index.symm, fun x hx => ?_, fun reader => absurd all reader⟩)
          · by_cases e : x = a
            · exact Or.inr ⟨e ▸ index.symm, all⟩
            · exact Or.inl (Function.update_of_ne e _ _)
          · show Function.update m a b x = Function.update s.mem a b x
            by_cases e : x = a
            · subst e
              rw [Function.update_self, Function.update_self]
            · rw [Function.update_of_ne e, Function.update_of_ne e, own x hx]
      | time next =>
          cases taken
          by_cases free : heldBy s.holds p = []
          · have clockless := paused p c _ ((h.outside p free).trans running)
            cases clockless
          · obtain ⟨i, rest, cons⟩ := List.exists_cons_of_ne_nil free
            have held : i ∈ heldBy s.holds p := by
              rw [cons]
              exact List.mem_cons_self
            obtain ⟨pt, entered, readings, m, waiting, within, own, shared⟩ := h.at held running
            exact Or.inl (proceed held rfl (fun q e => Function.update_of_ne e _ _)
              (fun _ => Or.inl rfl) ⟨c, _, pt, entered, _, m, goOn_procs_self _ _ _ _, waiting,
                within.time _, own, shared⟩)

/-- One step, in either run. -/
theorem Coarse.step {a : Act C} (h : Coarse S guard s u)
    (before : Disciplined S guard size code s) (after : Disciplined S guard size code t)
    (paused : ∀ p c q, u.procs p = some (c, q) → q.readsClock = false)
    (taken : Machine.step S code s a = some t) :
    ∃ acts u', Run (SharedMemory.step code) Always u acts u' ∧
      acts.filterMap Action.boundary = a.boundary.toList ∧ Coarse S guard t u' := by
  cases a with
  | start p c =>
      cases running : s.procs p with
      | some x => simp [Machine.step, running] at taken
      | none =>
          simp only [Machine.step, running, Option.some.injEq] at taken
          have free : heldBy s.holds p = [] := before.returned p fun c q there => by
            rw [running] at there
            cases there
          have idle := (h.outside p free).trans running
          rw [← taken]
          refine ⟨[.start p c], _, .single trivial ?_, rfl, h.replace free (some (c, code c))⟩
          simp only [SharedMemory.step, idle]
  | run p =>
      rcases h.run before after paused taken with same | ⟨clk, u', moved, coarse⟩
      · exact ⟨[], u, .nil, rfl, same⟩
      · exact ⟨[.region p clk], u', .single trivial moved, rfl, coarse⟩
  | finish p =>
      cases running : s.procs p with
      | none => simp [Machine.step, running] at taken
      | some x =>
          obtain ⟨c, q⟩ := x
          cases q with
          | ret r =>
              simp only [Machine.step, running, Option.some.injEq] at taken
              have free : heldBy s.holds p = [] := before.returned p fun c q there => by
                rw [running] at there
                cases there
                rfl
              have there := (h.outside p free).trans running
              rw [← taken]
              refine ⟨[.finish p], _, .single trivial ?_, rfl, h.replace free none⟩
              simp only [SharedMemory.step, there, Prog.result, Option.map_some]
          | _ => simp [Machine.step, running] at taken
  | tick now =>
      obtain ⟨_, moved⟩ := Option.ite_none_right_eq_some.mp taken
      cases moved
      exact ⟨[], u, .nil, rfl, h.outside, h.inside, h.settled⟩

/-- Whatever happens instruction by instruction under the locking discipline
could have happened section by section. The clock is not to be read outside
the sections. -/
theorem Coarse.of_run (h : Coarse S guard s u)
    (disciplined : ∀ {acts t}, Run (Machine.step S code) Always s acts t →
      Disciplined S guard size code t)
    (paused : ∀ {acts v}, Run (SharedMemory.step code) Always u acts v →
      ∀ p c q, v.procs p = some (c, q) → q.readsClock = false)
    {acts : List (Act C)} (ran : Run (Machine.step S code) Always s acts t) :
    ∃ acts' v, Run (SharedMemory.step code) Always u acts' v ∧
      acts'.filterMap Action.boundary = acts.filterMap Act.boundary ∧ Coarse S guard t v := by
  induction ran with
  | nil => exact ⟨[], u, .nil, rfl, h⟩
  | @snoc acts t a t' earlier _ taken ih =>
      obtain ⟨acts', v, ran', same, coarse⟩ := ih
      obtain ⟨more, v', moved, last, coarse'⟩ := coarse.step (disciplined earlier)
        (disciplined (earlier.snoc trivial taken)) (paused ran') taken
      refine ⟨acts' ++ more, v', ran'.trans moved, ?_, coarse'⟩
      rw [List.filterMap_append, List.filterMap_append, same, last]
      congr 1

/-- Processes that hold nothing are at the same text. -/
theorem Coarse.returned {p : Nat} {c : C} {r : ρ} (h : Coarse S guard s u)
    (disciplined : Disciplined S guard size code s) (reached : s.procs p = some (c, .ret r)) :
    u.procs p = some (c, .ret r) := by
  refine (h.outside p (disciplined.returned p fun c' q there => ?_)).trans reached
  rw [reached] at there
  cases there
  rfl

end Runs

end Machine

/-! ## Text that never reads the clock -/

namespace Prog

variable {β : Type}

def Timeless : Prog ι π α → Prop
  | ret _ => True
  | lock _ _ next => next.Timeless
  | unlock _ next => next.Timeless
  | load _ next => ∀ byte, (next byte).Timeless
  | store _ _ next => next.Timeless
  | time _ => False

theorem Timeless.pure (a : α) : (pure a : Prog ι π α).Timeless := trivial

theorem Timeless.bind {p : Prog ι π α} {f : α → Prog ι π β} (hp : p.Timeless)
    (hf : ∀ a, (f a).Timeless) : (p >>= f).Timeless := by
  show (p.bind f).Timeless
  induction p with
  | ret value => exact hf value
  | lock _ _ _ ih => exact ih hp
  | unlock _ _ ih => exact ih hp
  | load _ _ ih => exact fun byte => ih byte (hp byte)
  | store _ _ _ ih => exact ih hp
  | time _ => exact hp.elim

theorem Plain.timeless {p : Prog ι π α} (h : p.Plain) : p.Timeless := by
  induction p with
  | load _ _ ih => exact fun byte => ih byte (h byte)
  | store _ _ _ ih => exact ih h
  | ret => exact h
  | lock | unlock | time => exact h.elim

theorem Timeless.readsClock {p : Prog ι π α} (h : p.Timeless) : p.readsClock = false := by
  cases p with
  | time _ => exact h.elim
  | ret | lock | unlock | load | store => rfl

theorem Timeless.region {p : Prog ι π α} (h : p.Timeless) (clk : Nat → Int) (m : Memory) :
    (p.region clk m).2.Timeless := by
  induction p generalizing m with
  | ret | lock | unlock => exact h
  | load _ _ ih => exact ih _ (h _) m
  | store _ _ _ ih => exact ih h _
  | time _ => exact h.elim

theorem Timeless.enter {p q : Prog ι π α} (h : p.Timeless) {clk : Nat → Int} {m m' : Memory}
    (entered : p.enter clk m = some (m', q)) : q.Timeless := by
  cases p with
  | lock sem pt next =>
      have body : next.Timeless := h
      have rest := body.region clk m
      rw [Option.some.inj entered] at rest
      exact rest
  | ret | unlock | load | store | time => cases entered

end Prog

open Transition in
/-- Calls whose text does not read the clock never wait in front of a reading. -/
theorem Prog.readsClock_of_run {code : C → Prog ι π ρ} (timeless : ∀ c, (code c).Timeless)
    {mem : Memory} {acts : List (Action C)} {u : Config C ι π ρ}
    (ran : Run (step code) Always (.idle mem) acts u) {p : Nat} {c : C} {q : Prog ι π ρ}
    (paused : u.procs p = some (c, q)) : q.readsClock = false := by
  suffices all : ∀ p c q, u.procs p = some (c, q) → q.Timeless from
    (all p c q paused).readsClock
  refine ran.invariant (fun _ u => ∀ p c q, u.procs p = some (c, q) → q.Timeless)
    (fun _ _ _ none => by cases none) ?_
  intro acts u a u' kept _ taken p c q there
  have updated : ∀ {r : Nat} {x : Option (C × Prog ι π ρ)},
      (∀ c q, x = some (c, q) → q.Timeless) → Function.update u.procs r x p = some (c, q) →
      q.Timeless := by
    intro r x new there
    by_cases e : p = r
    · rw [e, Function.update_self] at there
      exact new c q there
    · rw [Function.update_of_ne e] at there
      exact kept p c q there
  cases a with
  | start r d =>
      cases idle : u.procs r <;> simp only [step, idle, reduceCtorEq] at taken
      cases taken
      refine updated ?_ there
      rintro c q ⟨⟩
      exact timeless _
  | region r clk =>
      cases running : u.procs r with
      | none => simp [step, running] at taken
      | some x =>
          obtain ⟨d, text⟩ := x
          simp only [step, running] at taken
          obtain ⟨⟨m', rest⟩, entered, rfl⟩ := Option.map_eq_some_iff.mp taken
          refine updated ?_ there
          rintro c q ⟨⟩
          exact (kept r d text running).enter entered
  | finish r =>
      cases running : u.procs r with
      | none => simp [step, running] at taken
      | some x =>
          obtain ⟨d, text⟩ := x
          simp only [step, running] at taken
          obtain ⟨_, _, rfl⟩ := Option.map_eq_some_iff.mp taken
          exact updated (fun _ _ none => by cases none) there

end SharedMemory
