import Technosphere.Transition

/-!
# The loop of the cleaner

The cleaner sleeps in `sem_timedwait` until its next pass is due. Its signal
handler posts the semaphore, so a signal also wakes it, and is not missed where
it comes between the test of `exit_trigger` and the next sleep.
-/

namespace EmrakulV2

namespace CleaningCompany

inductive Position where
  /-- In front of `sem_timedwait`, or asleep in it. -/
  | waiting
  /-- In front of the test of `exit_trigger`. -/
  | woken
  /-- In front of `collect_garbage`. -/
  | collecting
  /-- In it, or behind it. -/
  | passing
  | exited
  deriving DecidableEq

/-- Seconds between the end of a pass and the next one. -/
def period : Nat := 30

end CleaningCompany

open CleaningCompany in
/-- `delay` is the time at which `sem_timedwait` gives up. `passes` records when
passes began, the last one first. -/
structure CleaningCompany where
  position : Position
  delay : Nat
  exitTrigger : Bool
  timedSem : Nat
  passes : List Nat

namespace CleaningCompany

variable {c c' : CleaningCompany} {clock clock' : Nat}

/-- The constructor, and `start` up to its loop. -/
def start (clock : Nat) : CleaningCompany := ⟨.waiting, period + clock, false, 0, []⟩

/-- For SIGINT and SIGTERM, which it is installed for. -/
def sigHandler (c : CleaningCompany) : CleaningCompany :=
  { c with exitTrigger := true, timedSem := c.timedSem + 1 }

/-- The return of `sem_timedwait`, with the semaphore or without it. -/
def timedwait (c : CleaningCompany) (clock : Nat) : Option CleaningCompany :=
  if c.position ≠ .waiting then none
  else if 0 < c.timedSem then some { c with position := .woken, timedSem := c.timedSem - 1 }
  else if c.delay ≤ clock then some { c with position := .woken }
  else none

/-- The test of `exit_trigger`; behind the loop the process exits. -/
def test (c : CleaningCompany) : Option CleaningCompany :=
  if c.position ≠ .woken then none
  else some { c with position := if c.exitTrigger then .exited else .collecting }

/-- The call of `collect_garbage`. -/
def collect (c : CleaningCompany) (clock : Nat) : Option CleaningCompany :=
  if c.position ≠ .collecting then none
  else some { c with position := .passing, passes := clock :: c.passes }

/-- The end of a pass. -/
def sleep (c : CleaningCompany) (clock : Nat) : Option CleaningCompany :=
  if c.position ≠ .passing then none
  else some { c with position := .waiting, delay := period + clock }

/-! ## Wakeups and passes -/

/-- No signal is missed, and no pass is early. -/
structure Punctual (first clock : Nat) (c : CleaningCompany) : Prop where
  /-- The semaphore was only posted by the handler. -/
  posted : 0 < c.timedSem → c.exitTrigger = true
  /-- Until the process is woken, the semaphore keeps the signal. -/
  kept : c.exitTrigger = true → c.position = .woken ∨ c.position = .exited ∨ 0 < c.timedSem
  exited : c.position = .exited → c.exitTrigger = true
  woken : c.position = .woken → c.exitTrigger = true ∨ c.delay ≤ clock
  due : c.position = .collecting → c.delay ≤ clock
  begun : c.position = .passing → ∀ time ∈ c.passes, time ≤ clock
  later : c.position ≠ .passing → ∀ time ∈ c.passes, time + period ≤ c.delay
  delayed : first + period ≤ c.delay
  apart : c.passes.Pairwise fun next last => last + period ≤ next
  afterFirst : ∀ time ∈ c.passes, first + period ≤ time

theorem Punctual.start (first : Nat) : Punctual first first (.start first) := by
  constructor <;> simp [CleaningCompany.start, Nat.add_comm]

section Steps

variable {first : Nat}

theorem Punctual.tick (h : Punctual first clock c) (on : clock ≤ clock') :
    Punctual first clock' c :=
  { h with
    woken := fun woken => (h.woken woken).imp_right fun past => Nat.le_trans past on
    due := fun collecting => Nat.le_trans (h.due collecting) on
    begun := fun passing time inside => Nat.le_trans (h.begun passing time inside) on }

theorem Punctual.sigHandler (h : Punctual first clock c) : Punctual first clock c.sigHandler :=
  { h with
    posted := fun _ => rfl
    kept := fun _ => .inr (.inr (Nat.succ_pos _))
    exited := fun _ => rfl
    woken := fun _ => .inl rfl }

theorem timedwait_inv (taken : c.timedwait clock = some c') :
    c.position = .waiting ∧
      (0 < c.timedSem ∧ c' = { c with position := .woken, timedSem := c.timedSem - 1 } ∨
        c.timedSem = 0 ∧ c.delay ≤ clock ∧ c' = { c with position := .woken }) := by
  rw [timedwait] at taken
  split_ifs at taken with elsewhere post past
  · exact ⟨not_not.mp elsewhere, .inl ⟨post, (Option.some.inj taken).symm⟩⟩
  · exact ⟨not_not.mp elsewhere, .inr ⟨by omega, past, (Option.some.inj taken).symm⟩⟩

theorem Punctual.timedwait (h : Punctual first clock c) (taken : c.timedwait clock = some c') :
    Punctual first clock c' := by
  obtain ⟨waiting, ⟨post, rfl⟩ | ⟨none, past, rfl⟩⟩ := timedwait_inv taken
  · exact { h with
      posted := fun _ => h.posted post
      kept := fun _ => .inl rfl
      exited := nofun
      woken := fun _ => .inl (h.posted post)
      due := nofun
      begun := nofun
      later := fun _ => h.later (by simp [waiting]) }
  · exact { h with
      kept := fun _ => .inl rfl
      exited := nofun
      woken := fun _ => .inr past
      due := nofun
      begun := nofun
      later := fun _ => h.later (by simp [waiting]) }

theorem test_inv (taken : c.test = some c') : c.position = .woken ∧
    (c.exitTrigger = true ∧ c' = { c with position := .exited } ∨
      c.exitTrigger = false ∧ c' = { c with position := .collecting }) := by
  rw [test] at taken
  split_ifs at taken with elsewhere trigger
  · exact ⟨not_not.mp elsewhere, .inl ⟨trigger, (Option.some.inj taken).symm⟩⟩
  · exact ⟨not_not.mp elsewhere, .inr ⟨by simpa using trigger, (Option.some.inj taken).symm⟩⟩

theorem Punctual.test (h : Punctual first clock c) (taken : c.test = some c') :
    Punctual first clock c' := by
  obtain ⟨woken, ⟨trigger, rfl⟩ | ⟨off, rfl⟩⟩ := test_inv taken
  · exact { h with
      kept := fun _ => .inr (.inl rfl)
      exited := fun _ => trigger
      woken := nofun
      due := nofun
      begun := nofun
      later := fun _ => h.later (by simp [woken]) }
  · exact { h with
      kept := fun trigger => by simp [off] at trigger
      exited := nofun
      woken := nofun
      due := fun _ => (h.woken woken).resolve_left (by simp [off])
      begun := nofun
      later := fun _ => h.later (by simp [woken]) }

theorem collect_inv (taken : c.collect clock = some c') : c.position = .collecting ∧
    c' = { c with position := .passing, passes := clock :: c.passes } := by
  rw [collect] at taken
  split_ifs at taken with elsewhere
  exact ⟨not_not.mp elsewhere, (Option.some.inj taken).symm⟩

theorem Punctual.collect (h : Punctual first clock c) (taken : c.collect clock = some c') :
    Punctual first clock c' := by
  obtain ⟨collecting, rfl⟩ := collect_inv taken
  have past (time : Nat) (inside : time ∈ c.passes) : time + period ≤ clock :=
    Nat.le_trans (h.later (by simp [collecting]) time inside) (h.due collecting)
  refine { h with
    kept := fun trigger => .inr (.inr ?_)
    exited := nofun
    woken := nofun
    due := nofun
    begun := ?_
    later := fun elsewhere => absurd rfl elsewhere
    apart := List.pairwise_cons.mpr ⟨past, h.apart⟩
    afterFirst := ?_ }
  · simpa [collecting] using h.kept trigger
  · intro _ time inside
    rcases List.mem_cons.mp inside with rfl | inside
    · exact Nat.le_refl _
    · exact Nat.le_trans (Nat.le_add_right _ _) (past time inside)
  · intro time inside
    rcases List.mem_cons.mp inside with rfl | inside
    · exact Nat.le_trans h.delayed (h.due collecting)
    · exact h.afterFirst time inside

theorem sleep_inv (taken : c.sleep clock = some c') : c.position = .passing ∧
    c' = { c with position := .waiting, delay := period + clock } := by
  rw [sleep] at taken
  split_ifs at taken with elsewhere
  exact ⟨not_not.mp elsewhere, (Option.some.inj taken).symm⟩

theorem Punctual.sleep (h : Punctual first clock c) (on : first ≤ clock)
    (taken : c.sleep clock = some c') : Punctual first clock c' := by
  obtain ⟨passing, rfl⟩ := sleep_inv taken
  refine { h with
    kept := fun trigger => .inr (.inr ?_)
    exited := nofun
    woken := nofun
    due := nofun
    begun := nofun
    later := fun _ time inside => ?_
    delayed := ?_ }
  · simpa [passing] using h.kept trigger
  · rw [Nat.add_comm period]
    exact Nat.add_le_add_right (h.begun passing time inside) _
  · rw [Nat.add_comm period]
    exact Nat.add_le_add_right on _

/-- The passes that have begun, and the one that will. -/
def pledged (c : CleaningCompany) : Nat :=
  c.passes.length + if c.position = .collecting then 1 else 0

/-- With the signal no further pass is pledged. -/
theorem pledged_le (trigger : c.exitTrigger = true)
    (taken : c' = c.sigHandler ∨ c.timedwait clock = some c' ∨ c.test = some c' ∨
      c.collect clock = some c' ∨ c.sleep clock = some c') :
    c'.exitTrigger = true ∧ c'.pledged ≤ c.pledged := by
  obtain rfl | woke | tested | collected | slept := taken
  · exact ⟨rfl, Nat.le_refl _⟩
  · obtain ⟨waiting, ⟨_, rfl⟩ | ⟨_, _, rfl⟩⟩ := timedwait_inv woke
    all_goals exact ⟨trigger, by simp [pledged]⟩
  · obtain ⟨woken, ⟨_, rfl⟩ | ⟨off, rfl⟩⟩ := test_inv tested
    · exact ⟨trigger, by simp [pledged]⟩
    · simp [off] at trigger
  · obtain ⟨collecting, rfl⟩ := collect_inv collected
    exact ⟨trigger, by simp [pledged, collecting]⟩
  · obtain ⟨passing, rfl⟩ := sleep_inv slept
    exact ⟨trigger, by simp [pledged]⟩

/-- A cleaner that has the signal goes on to its exit. -/
theorem Punctual.go (h : Punctual first clock c) (trigger : c.exitTrigger = true)
    (here : c.position ≠ .exited) :
    (∃ c', c.timedwait clock = some c') ∨ (∃ c', c.test = some c') ∨
      (∃ c', c.collect clock = some c') ∨ ∃ c', c.sleep clock = some c' := by
  cases position : c.position with
  | waiting =>
      have post : 0 < c.timedSem := by simpa [position] using h.kept trigger
      exact .inl ⟨_, by rw [CleaningCompany.timedwait, if_neg (not_not.mpr position), if_pos post]⟩
  | woken => exact .inr (.inl ⟨_, if_neg (not_not.mpr position)⟩)
  | collecting => exact .inr (.inr (.inl ⟨_, if_neg (not_not.mpr position)⟩))
  | passing => exact .inr (.inr (.inr ⟨_, if_neg (not_not.mpr position)⟩))
  | exited => exact absurd position here

end Steps

end CleaningCompany

end EmrakulV2
