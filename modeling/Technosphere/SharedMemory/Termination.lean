import Mathlib.Algebra.BigOperators.Group.Finset.Basic
import Mathlib.Algebra.Order.BigOperators.Group.Finset
import Mathlib.Order.Lattice.Nat
import Technosphere.SharedMemory.CString
import Technosphere.SharedMemory.Scan
import Technosphere.SharedMemory.Semaphores

/-!
# Calls end

A text that has no more than `n` instructions on any path ends after `n` steps
of its process, as far as the semaphores let it go on. Where some process can
always go on, the calls that have been started therefore all end, in a number
of steps that no schedule can exceed.
-/

namespace SharedMemory

open Transition

variable {C ι π ρ α β : Type}

namespace Prog

/-! ## The length of a text -/

/-- The text ends within `n` instructions, whatever it loads. -/
def Ends : Prog ι π α → Nat → Prop
  | ret _, _ => True
  | lock _ _ next, n => 0 < n ∧ next.Ends (n - 1)
  | unlock _ next, n => 0 < n ∧ next.Ends (n - 1)
  | load _ next, n => 0 < n ∧ ∀ byte, (next byte).Ends (n - 1)
  | store _ _ next, n => 0 < n ∧ next.Ends (n - 1)
  | time next, n => 0 < n ∧ ∀ t, (next t).Ends (n - 1)

namespace Ends

theorem mono {p : Prog ι π α} {n n' : Nat} (h : p.Ends n) (le : n ≤ n') : p.Ends n' := by
  induction p generalizing n n' with
  | ret => trivial
  | lock _ _ _ ih | unlock _ _ ih | store _ _ _ ih =>
      exact ⟨Nat.lt_of_lt_of_le h.1 le, ih h.2 (Nat.sub_le_sub_right le 1)⟩
  | load _ _ ih | time _ ih =>
      exact ⟨Nat.lt_of_lt_of_le h.1 le, fun x => ih x (h.2 x) (Nat.sub_le_sub_right le 1)⟩

theorem bind {p : Prog ι π α} {f : α → Prog ι π β} {n k : Nat} (hp : p.Ends n)
    (hf : ∀ a, (f a).Ends k) : (p >>= f).Ends (n + k) := by
  show (p.bind f).Ends (n + k)
  have shift {n : Nat} (h : 0 < n) : n + k - 1 = n - 1 + k := by omega
  induction p generalizing n with
  | ret value => exact (hf value).mono (Nat.le_add_left k n)
  | lock _ _ _ ih | unlock _ _ ih | store _ _ _ ih =>
      refine ⟨Nat.add_pos_left hp.1 k, ?_⟩
      rw [shift hp.1]
      exact ih hp.2
  | load _ _ ih | time _ ih =>
      refine ⟨Nat.add_pos_left hp.1 k, fun x => ?_⟩
      rw [shift hp.1]
      exact ih x (hp.2 x)

/-- One more instruction in front. -/
theorem after {p : Prog ι π α} {f : α → Prog ι π β} {n : Nat} (hp : p.Ends 1)
    (hf : ∀ a, (f a).Ends n) : (p >>= f).Ends (n + 1) :=
  (hp.bind hf).mono (Nat.add_comm 1 n).le

theorem pure (a : α) (n : Nat) : (pure a : Prog ι π α).Ends n := trivial

theorem acquire (sem : ι) (point : π) : (acquire sem point).Ends 1 := ⟨Nat.one_pos, trivial⟩

theorem release (sem : ι) : (release sem : Prog ι π Unit).Ends 1 := ⟨Nat.one_pos, trivial⟩

theorem fetch (addr : Nat) : (fetch addr : Prog ι π UInt8).Ends 1 :=
  ⟨Nat.one_pos, fun _ => trivial⟩

theorem put (addr : Nat) (byte : UInt8) : (put addr byte : Prog ι π Unit).Ends 1 :=
  ⟨Nat.one_pos, trivial⟩

theorem clock : (clock : Prog ι π Int).Ends 1 := ⟨Nat.one_pos, fun _ => trivial⟩

theorem ite {c : Prop} [Decidable c] {p q : Prog ι π α} {n : Nat} (hp : p.Ends n)
    (hq : q.Ends n) : (if c then p else q).Ends n := by
  split
  · exact hp
  · exact hq

/-! ### Strings -/

theorem memcpyTo (a : Nat) (bs : List UInt8) :
    (memcpyTo a bs : Prog ι π Unit).Ends bs.length := by
  induction bs generalizing a with
  | nil => trivial
  | cons b bs ih => exact (put a b).after fun _ => ih (a + 1)

theorem memcpyFrom (a n : Nat) : (memcpyFrom a n : Prog ι π _).Ends n := by
  induction n generalizing a with
  | zero => trivial
  | succ n ih => exact (fetch a).after fun _ => (ih (a + 1)).bind fun _ => pure _ 0

theorem strcpyTo (a : Nat) (s : List UInt8) :
    (strcpyTo a s : Prog ι π Unit).Ends (s.length + 1) := by
  have all := memcpyTo (ι := ι) (π := π) a (s ++ [0])
  rwa [List.length_append, List.length_singleton] at all

theorem strcpyFrom (a room : Nat) : (strcpyFrom a room : Prog ι π _).Ends room := by
  induction room generalizing a with
  | zero => trivial
  | succ n ih =>
      apply (fetch a).after
      intro b
      exact .ite (pure _ _) ((ih (a + 1)).bind fun _ => pure _ 0)

theorem strcmpEq (a : Nat) (s : List UInt8) :
    (strcmpEq a s : Prog ι π Bool).Ends (s.length + 1) := by
  induction s generalizing a with
  | nil => exact (fetch a).bind fun _ => pure _ 0
  | cons c cs ih =>
      apply (fetch a).after
      intro b
      exact .ite (ih (a + 1)) (pure _ _)

/-! ### Probes -/

section Probe

variable {sem : Nat → ι} {seg : Nat} {pt : Nat → π} {test : Nat → Prog ι π Bool} {k : Nat}

theorem forCells (tests : ∀ cell, (test cell).Ends k) (cells : List Nat) (block : Nat) :
    (Scan.forCells sem seg pt test cells block).Ends (cells.length * (k + 3)) := by
  induction cells generalizing block with
  | nil => trivial
  | cons cur rest ih =>
      have visit : ∀ next : Nat, Ends (do
          let hit ← test cur
          if hit then
            Prog.release (sem next)
            Pure.pure (.found cur)
          else
            Scan.forCells sem seg pt test rest next) (k + (rest.length * (k + 3) + 1)) := by
        intro next
        apply (tests cur).bind
        intro hit
        exact .ite ((release _).after fun _ => pure _ _) ((ih next).mono (Nat.le_succ _))
      have whole : (Scan.forCells sem seg pt test (cur :: rest) block).Ends
          (k + (rest.length * (k + 3) + 1) + 1 + 1) := by
        rw [Scan.forCells]
        split
        · exact (release _).after fun _ => (acquire _ _).after fun _ => visit _
        · exact (visit _).mono (by omega)
      apply whole.mono
      rw [List.length_cons, Nat.succ_mul]
      omega

theorem find (tests : ∀ cell, (test cell).Ends k) {cells h : Nat} (inside : h < cells) :
    (Scan.find sem seg pt test cells h).Ends (cells * (k + 3) + 2) := by
  rw [Scan.find_eq_resume inside, OpenAddressing.probeOrder_cons inside, Scan.resume]
  apply after (acquire _ _)
  intro _
  rw [← OpenAddressing.probeOrder_cons inside]
  have visits : (Scan.forCells sem seg pt test (OpenAddressing.probeOrder cells h) (h / seg)).Ends
      (cells * (k + 3)) := by
    have length : (OpenAddressing.probeOrder cells h).length = cells := by
      simp only [OpenAddressing.probeOrder, List.length_append, List.length_range',
        List.length_range]
      omega
    have all : (Scan.forCells sem seg pt test _ (h / seg)).Ends (_ * (k + 3)) :=
      forCells tests (OpenAddressing.probeOrder cells h) (h / seg)
    rwa [length] at all
  apply visits.bind
  rintro (cell | block)
  · exact pure _ _
  · exact (release _).bind fun _ => pure _ 0

end Probe

end Ends

/-- The number of instructions after which the text ends on every path. -/
noncomputable def steps (p : Prog ι π α) : Nat := sInf {n | p.Ends n}

namespace Ends

variable {p : Prog ι π α} {n : Nat}

theorem steps_le (h : p.Ends n) : p.steps ≤ n := Nat.sInf_le h

theorem ends_steps (h : p.Ends n) : p.Ends p.steps := Nat.sInf_mem ⟨n, h⟩

/-- What comes after an instruction is shorter. -/
theorem steps_lt {q : Prog ι π α} (h : p.Ends n)
    (next : ∀ {k}, p.Ends k → 0 < k ∧ q.Ends (k - 1)) : q.Ends n ∧ q.steps < p.steps := by
  obtain ⟨pos, rest⟩ := next h.ends_steps
  have less := rest.steps_le
  exact ⟨(next h).2.mono (Nat.sub_le n 1), by omega⟩

end Ends

end Prog

namespace Machine

variable [DecidableEq ι] {S : Semaphores ι} {code : C → Prog ι π ρ} {s t : Machine C ι π ρ}
variable {a : Act C} {n : Nat}

/-! ## What is left to do -/

/-- The step goes on with a call, or ends it. -/
def Onward (_ : Machine C ι π ρ) : Act C → Prop
  | .run _ | .finish _ => True
  | .start _ _ | .tick _ => False

/-- Every call that is not over ends within `n` instructions. -/
def AllEnd (n : Nat) (s : Machine C ι π ρ) : Prop :=
  ∀ p c q, s.procs p = some (c, q) → q.Ends n

/-- The instructions and the end that are left of the call of process `p`. -/
noncomputable def left (s : Machine C ι π ρ) (p : Nat) : Nat :=
  match s.procs p with
  | none => 0
  | some (_, q) => q.steps + 1

omit [DecidableEq ι] in
theorem left_eq_zero {p : Nat} : s.left p = 0 ↔ s.procs p = none := by
  rw [left]
  cases s.procs p <;> simp

omit [DecidableEq ι] in
theorem left_le (h : AllEnd n s) (p : Nat) : s.left p ≤ n + 1 := by
  rw [left]
  split
  · exact Nat.zero_le _
  · rename_i c q running
    exact Nat.succ_le_succ (h p c q running).steps_le

/-- A step of a call leaves less of it. -/
theorem run_left {p : Nat} (h : AllEnd n s) (taken : step S code s (.run p) = some t) :
    ∃ c q q', s.procs p = some (c, q) ∧ t.procs = Function.update s.procs p (some (c, q')) ∧
      q'.Ends n ∧ q'.steps < q.steps := by
  cases running : s.procs p with
  | none => simp [step, running] at taken
  | some x =>
      obtain ⟨c, q⟩ := x
      have ends := h p c q running
      simp only [step, running] at taken
      refine ⟨c, q, ?_⟩
      cases q with
      | ret => cases taken
      | lock i pt next =>
          obtain ⟨_, moved⟩ := Option.ite_none_right_eq_some.mp taken
          cases moved
          exact ⟨next, rfl, rfl, ends.steps_lt id⟩
      | unlock i next =>
          cases taken
          exact ⟨next, rfl, rfl, ends.steps_lt id⟩
      | store addr byte next =>
          cases taken
          exact ⟨next, rfl, rfl, ends.steps_lt id⟩
      | load addr next =>
          cases taken
          exact ⟨next _, rfl, rfl, ends.steps_lt fun whole => ⟨whole.1, whole.2 _⟩⟩
      | time next =>
          cases taken
          exact ⟨next _, rfl, rfl, ends.steps_lt fun whole => ⟨whole.1, whole.2 _⟩⟩

theorem finish_left {p : Nat} (taken : step S code s (.finish p) = some t) :
    s.procs p ≠ none ∧ t.procs = Function.update s.procs p none := by
  cases running : s.procs p with
  | none => simp [step, running] at taken
  | some x =>
      obtain ⟨c, q⟩ := x
      cases q <;> simp only [step, running, reduceCtorEq] at taken
      cases taken
      exact ⟨Option.some_ne_none _, rfl⟩

/-- Only a tick moves the clock. -/
theorem clock_of_step (taken : step S code s a = some t) :
    t.clock = s.clock ∨ ∃ now, a = .tick now ∧ s.clock ≤ now ∧ t.clock = now := by
  cases a with
  | start p c =>
      cases running : s.procs p <;> simp only [step, running, reduceCtorEq] at taken
      cases taken
      exact .inl rfl
  | run p =>
      cases running : s.procs p with
      | none => simp [step, running] at taken
      | some x =>
          obtain ⟨c, q⟩ := x
          simp only [step, running] at taken
          cases q with
          | lock i pt next =>
              obtain ⟨_, moved⟩ := Option.ite_none_right_eq_some.mp taken
              cases moved
              exact .inl rfl
          | _ =>
              cases taken
              try exact .inl rfl
  | finish p =>
      cases running : s.procs p with
      | none => simp [step, running] at taken
      | some x =>
          obtain ⟨c, q⟩ := x
          cases q <;> simp only [step, running, reduceCtorEq] at taken
          cases taken
          exact .inl rfl
  | tick now =>
      obtain ⟨later, moved⟩ := Option.ite_none_right_eq_some.mp taken
      cases moved
      exact .inr ⟨now, rfl, later, rfl⟩

/-- Every call that is not over is one of a process in `clients` and ends
within `n` instructions. -/
structure Bounded (clients : Finset Nat) (n : Nat) (s : Machine C ι π ρ) : Prop where
  ends : AllEnd n s
  inside : ∀ p, s.procs p ≠ none → p ∈ clients

/-- All that is left to do. -/
noncomputable def leftOf (clients : Finset Nat) (s : Machine C ι π ρ) : Nat :=
  ∑ p ∈ clients, s.left p

/-- A process that starts a call is one more. -/
theorem inside_of_start {clients : Finset Nat} {p : Nat} {c : C}
    (inside : ∀ p, s.procs p ≠ none → p ∈ clients) (taken : step S code s (.start p c) = some t) :
    ∀ q, t.procs q ≠ none → q ∈ insert p clients := by
  intro q busy
  by_cases own : q = p
  · exact Finset.mem_insert.mpr (Or.inl own)
  · have other : ¬ (Act.start p c).of q := fun same => own same.symm
    rw [procs_of_step other taken] at busy
    exact Finset.mem_insert_of_mem (inside q busy)

theorem Bounded.onward {clients : Finset Nat} (h : Bounded clients n s) (goesOn : Onward s a)
    (taken : step S code s a = some t) :
    Bounded clients n t ∧ t.leftOf clients < s.leftOf clients := by
  have less (p : Nat) (busy : s.procs p ≠ none) (here : t.left p < s.left p)
      (others : ∀ p', p' ≠ p → t.procs p' = s.procs p') :
      t.leftOf clients < s.leftOf clients := by
    refine Finset.sum_lt_sum (fun p' _ => ?_) ⟨p, h.inside p busy, here⟩
    by_cases e : p' = p
    · subst e
      exact here.le
    · rw [left, left, others p' e]
  cases a with
  | start p c => exact goesOn.elim
  | tick now => exact goesOn.elim
  | run p =>
      obtain ⟨c, q, q', running, moved, ends, shorter⟩ := run_left h.ends taken
      refine ⟨⟨?_, ?_⟩, less p (by simp [running]) ?_ ?_⟩
      · intro p' c' text there
        rw [moved] at there
        by_cases e : p' = p
        · rw [e, Function.update_self] at there
          cases there
          exact ends
        · rw [Function.update_of_ne e] at there
          exact h.ends p' c' text there
      · intro p' busy
        rw [moved] at busy
        by_cases e : p' = p
        · exact h.inside p' (by simp [e, running])
        · rw [Function.update_of_ne e] at busy
          exact h.inside p' busy
      · rw [left, left, moved, Function.update_self, running]
        exact Nat.succ_lt_succ shorter
      · intro p' e
        rw [moved, Function.update_of_ne e]
  | finish p =>
      obtain ⟨busy, moved⟩ := finish_left taken
      have idle : ∀ p', t.procs p' ≠ none → t.procs p' = s.procs p' := by
        intro p' busy'
        rw [moved] at busy' ⊢
        refine Function.update_of_ne ?_ _ _
        rintro rfl
        rw [Function.update_self] at busy'
        exact busy' rfl
      refine ⟨⟨?_, ?_⟩, less p busy ?_ ?_⟩
      · intro p' c' text there
        exact h.ends p' c' text ((idle p' (by simp [there])).symm.trans there)
      · intro p' busy'
        exact h.inside p' (idle p' busy' ▸ busy')
      · rw [left_eq_zero.mpr (by rw [moved, Function.update_self])]
        exact Nat.pos_of_ne_zero fun gone => busy (left_eq_zero.mp gone)
      · intro p' e
        rw [moved, Function.update_of_ne e]

/-- A call that is started is all that is more. -/
theorem leftOf_start {clients : Finset Nat} {p : Nat} {c : C}
    (ends : (code c).Ends n) (inside : p ∈ clients) (taken : step S code s (.start p c) = some t) :
    t.leftOf clients ≤ s.leftOf clients + (n + 1) := by
  have own : t.left p ≤ n + 1 := by
    cases running : s.procs p <;> simp only [step, running, reduceCtorEq] at taken
    cases taken
    rw [left, goOn_procs_self]
    exact Nat.succ_le_succ ends.steps_le
  have others : ∀ q ∈ clients.erase p, t.left q = s.left q := by
    intro q inside
    have other : ¬ (Act.start p c).of q := fun own => Finset.ne_of_mem_erase inside own.symm
    rw [left, left, procs_of_step other taken]
  calc t.leftOf clients
      = ∑ q ∈ clients.erase p, t.left q + t.left p := (Finset.sum_erase_add _ _ inside).symm
    _ = ∑ q ∈ clients.erase p, s.left q + t.left p := by rw [Finset.sum_congr rfl others]
    _ ≤ s.leftOf clients + (n + 1) :=
        Nat.add_le_add (Finset.sum_le_sum_of_subset (Finset.erase_subset _ _)) own

omit [DecidableEq ι] in
theorem Bounded.leftOf_le {clients : Finset Nat} (h : Bounded clients n s) :
    s.leftOf clients ≤ clients.card * (n + 1) :=
  Finset.sum_le_card_nsmul _ _ _ fun p _ => left_le h.ends p

/-! ## Whole runs -/

theorem allEnd_of_run (ends : ∀ c, (code c).Ends n) {m : Memory} {clock : Nat}
    {acts : List (Act C)} (ran : Run (step S code) Always (initial S m clock) acts s) :
    AllEnd n s := by
  refine ran.invariant (fun _ s => AllEnd n s) (fun p c q none => by cases none) ?_
  intro _ s a t all _ taken p' c' text there
  by_cases own : a.of p'
  · cases a with
    | start p c =>
        cases running : s.procs p <;> simp only [step, running, reduceCtorEq] at taken
        cases taken
        cases own
        rw [goOn_procs_self] at there
        cases there
        exact ends c'
    | run p =>
        obtain ⟨c, q, q', _, moved, ends', _⟩ := run_left all taken
        cases own
        rw [moved, Function.update_self] at there
        cases there
        exact ends'
    | finish p =>
        obtain ⟨_, moved⟩ := finish_left taken
        cases own
        rw [moved, Function.update_self] at there
        cases there
    | tick now => exact own.elim
  · rw [procs_of_step own taken] at there
    exact all p' c' text there

theorem Bounded.of_run {clients : Finset Nat} (h : Bounded clients n s) {acts : List (Act C)}
    (ran : Run (step S code) Onward s acts t) : Bounded clients n t :=
  (ran.length_le (Bounded clients n) (leftOf clients) h
    fun bounded goesOn taken => bounded.onward goesOn taken).1

/-- Nothing is held when all calls are over. -/
theorem Disciplined.nothing_held {guard : Nat → Nat} {size : Nat}
    (h : Disciplined S guard size code s) (idle : ∀ p, s.procs p = none) : s.holds = [] := by
  rw [List.eq_nil_iff_forall_not_mem]
  rintro ⟨p, i⟩ held
  have none := h.returned p fun c text running => by
    rw [idle p] at running
    cases running
  rw [← mem_heldBy, none] at held
  cases held

/-- No schedule without new calls is longer than the calls. -/
theorem Bounded.length_le {clients : Finset Nat} (h : Bounded clients n s) {acts : List (Act C)}
    (ran : Run (step S code) Onward s acts t) : acts.length ≤ clients.card * (n + 1) := by
  have bound := (ran.length_le (Bounded clients n) (leftOf clients) h
    fun bounded goesOn taken => bounded.onward goesOn taken).2
  exact Nat.le_trans (Nat.le_of_add_right_le bound) h.leftOf_le

/-- Where some process can always go on, all calls end without new ones. -/
theorem Bounded.completes {clients : Finset Nat} (h : Bounded clients n s)
    (progress : ∀ {acts t}, Run (step S code) Onward s acts t → (∃ p, t.procs p ≠ none) →
      ∃ q u, step S code t (.run q) = some u ∨ step S code t (.finish q) = some u) :
    ∃ acts t, Run (step S code) Onward s acts t ∧ ∀ p, t.procs p = none := by
  let reached (t : Machine C ι π ρ) : Prop :=
    Bounded clients n t ∧ ∃ acts, Run (step S code) Onward s acts t
  refine Run.completes reached (fun t => ∀ p, t.procs p = none) (leftOf clients)
    ⟨h, [], .nil⟩ ?_ ?_
  · rintro t a u ⟨bounded, acts, ran⟩ goesOn taken
    obtain ⟨bounded', less⟩ := bounded.onward goesOn taken
    exact ⟨⟨bounded', _, ran.snoc goesOn taken⟩, less⟩
  · rintro t ⟨bounded, acts, ran⟩ busy
    rw [not_forall] at busy
    obtain ⟨q, u, taken | taken⟩ := progress ran busy
    · exact ⟨Act.run q, u, trivial, taken⟩
    · exact ⟨Act.finish q, u, trivial, taken⟩

end Machine

end SharedMemory
