import Technosphere.LisonShell.CommandItem
import Technosphere.Transition
import Mathlib.Data.Finset.Insert
import Mathlib.Data.Finset.Erase

/-!
# Who collects a child

`CommandItem::run` starts a child, notes its pid in `child_processes`, waits and
erases a pid. `wait` takes any child that has terminated, and the handler of
SIGCHLD takes all of them whenever the signal is delivered. Children of
`run_sequence_in_background` end at any time.

`own_status_iff` says for whole runs when every command is left with the status of its
own child.
-/

namespace LisonShell

open Transition

namespace Reaping

/-- A child of the shell. Pids are used again, serial numbers are not. -/
structure Kid where
  serial : Nat
  pid : Int
  deriving DecidableEq

/-- A child that has terminated, and how. -/
abbrev Zombie := Kid × Termination

/-- Where the shell is in `CommandItem::run`. -/
inductive Position where
  | outside
  /-- In front of `child_processes.insert`. -/
  | forked (item : CommandItem) (kid : Kid)
  /-- In front of `wait`. -/
  | inserted (item : CommandItem) (kid : Kid)
  /-- In front of `child_processes.erase`, with what `wait` has taken. -/
  | waited (item : CommandItem) (kid : Kid) (collected : Option Zombie)

/-- A return of `CommandItem::run`. -/
structure Return where
  item : CommandItem
  kid : Kid
  collected : Option Zombie
  childProcesses : Finset Int
  /-- The terminations before it. -/
  endings : List Zombie

/-- The children that run, those that nobody has collected yet, and what has
happened so far. -/
structure Shell where
  position : Position
  running : List Kid
  zombies : List Zombie
  childProcesses : Finset Int
  forks : Nat
  endings : List Zombie
  returned : List Return

inductive Act where
  /-- `fork` in `CommandItem::run`. -/
  | fork (item : CommandItem) (pid : Int)
  /-- `fork` in `run_sequence_in_background`. -/
  | background (pid : Int)
  /-- `child_processes.insert`. -/
  | insert
  /-- A child terminates. -/
  | terminate (z : Zombie)
  /-- SIGCHLD is delivered, and `child_end_handler` runs. -/
  | deliver
  /-- `wait` takes a child. -/
  | wait (z : Zombie)
  /-- `wait` fails, because there is no child. -/
  | noChild
  /-- `child_processes.erase`, after which `run` returns. -/
  | erase

namespace Shell

/-- No child of the shell has this pid. -/
def fresh (s : Shell) (pid : Int) : Prop :=
  0 < pid ∧ (∀ kid ∈ s.running, kid.pid ≠ pid) ∧ ∀ z ∈ s.zombies, z.1.pid ≠ pid

instance (s : Shell) (pid : Int) : Decidable (s.fresh pid) :=
  inferInstanceAs (Decidable (_ ∧ _ ∧ _))

/-- The next child. -/
def kid (s : Shell) (pid : Int) : Kid := ⟨s.forks, pid⟩

def fork (s : Shell) (pid : Int) : Shell :=
  { s with running := s.kid pid :: s.running, forks := s.forks + 1 }

/-- The child of the command that has not been waited for. -/
def underWay (s : Shell) : Option Kid :=
  match s.position with
  | .forked _ kid | .inserted _ kid => some kid
  | .outside | .waited _ _ _ => none

end Shell

/-- The pid that `wait` has returned. -/
def waitedPid : Option Zombie → Int
  | some z => z.1.pid
  | none => -1

/-- One step of the shell or of a child. The inner `pid` of `run`, which is the
one that `wait` has returned, hides that of the child. -/
def step (s : Shell) : Act → Option Shell
  | .fork item pid =>
    match s.position with
    | .outside =>
      if s.fresh pid then some { s.fork pid with position := .forked item (s.kid pid) } else none
    | _ => none
  | .background pid =>
    match s.position with
    | .outside => if s.fresh pid then some (s.fork pid) else none
    | _ => none
  | .insert =>
    match s.position with
    | .forked item kid => some { s with
        position := .inserted item kid, childProcesses := insert kid.pid s.childProcesses }
    | _ => none
  | .terminate z =>
    if z.1 ∈ s.running then
      some { s with
        running := s.running.filter (· ≠ z.1), zombies := z :: s.zombies
        endings := z :: s.endings }
    else none
  | .deliver => some { s with zombies := [] }
  | .wait z =>
    match s.position with
    | .inserted item kid =>
      if z ∈ s.zombies then
        some { s with
          position := .waited { item with status := z.2.status } kid (some z)
          zombies := s.zombies.filter (· ≠ z) }
      else none
    | _ => none
  | .noChild =>
    match s.position with
    | .inserted item kid =>
      if s.running = [] ∧ s.zombies = [] then some { s with position := .waited item kid none }
      else none
    | _ => none
  | .erase =>
    match s.position with
    | .waited item kid collected =>
      let left := s.childProcesses.erase (waitedPid collected)
      some { s with
        position := .outside
        childProcesses := left
        returned := ⟨item, kid, collected, left, s.endings⟩ :: s.returned }
    | _ => none

/-- A shell without children. A background process begins with the registered
pids of the shell that has started it. -/
def Shell.start (childProcesses : Finset Int) : Shell :=
  ⟨.outside, [], [], childProcesses, 0, [], []⟩

/-- The child has terminated, its status is the one that was stored, and its
pid is not registered any more. -/
def Return.Own (r : Return) : Prop :=
  ∃ ending, (r.kid, ending) ∈ r.endings ∧ r.collected = some (r.kid, ending) ∧
    r.item.status = ending.status ∧ r.kid.pid ∉ r.childProcesses

/-- The handler does not find the child of the command under way among those
that have terminated, and `wait` takes no other child. -/
def Undisturbed (s : Shell) : Act → Prop
  | .deliver => ∀ kid ∈ s.underWay, kid ∉ s.zombies.map Prod.fst
  | .wait z => z.1 ∈ s.underWay
  | _ => True

/-! ## What one step does -/

section Steps

variable {s t : Shell}

theorem fork_inv {item : CommandItem} {pid : Int} (taken : step s (.fork item pid) = some t) :
    s.position = .outside ∧ t = { s.fork pid with position := .forked item (s.kid pid) } := by
  rw [step] at taken
  split at taken
  · rename_i outside
    split at taken
    · exact ⟨outside, (Option.some.inj taken).symm⟩
    · cases taken
  · cases taken

theorem background_inv {pid : Int} (taken : step s (.background pid) = some t) :
    s.position = .outside ∧ t = s.fork pid := by
  rw [step] at taken
  split at taken
  · rename_i outside
    split at taken
    · exact ⟨outside, (Option.some.inj taken).symm⟩
    · cases taken
  · cases taken

theorem insert_inv (taken : step s .insert = some t) :
    ∃ item kid, s.position = .forked item kid ∧ t = { s with
      position := .inserted item kid, childProcesses := insert kid.pid s.childProcesses } := by
  rw [step] at taken
  split at taken
  · rename_i item kid there
    exact ⟨item, kid, there, (Option.some.inj taken).symm⟩
  · cases taken

theorem terminate_inv {z : Zombie} (taken : step s (.terminate z) = some t) :
    z.1 ∈ s.running ∧ t = { s with
      running := s.running.filter (· ≠ z.1), zombies := z :: s.zombies
      endings := z :: s.endings } := by
  rw [step] at taken
  split at taken
  · rename_i inside
    exact ⟨inside, (Option.some.inj taken).symm⟩
  · cases taken

theorem wait_inv {z : Zombie} (taken : step s (.wait z) = some t) :
    ∃ item kid, s.position = .inserted item kid ∧ z ∈ s.zombies ∧ t = { s with
      position := .waited { item with status := z.2.status } kid (some z)
      zombies := s.zombies.filter (· ≠ z) } := by
  rw [step] at taken
  split at taken
  · rename_i item kid there
    split at taken
    · rename_i inside
      exact ⟨item, kid, there, inside, (Option.some.inj taken).symm⟩
    · cases taken
  · cases taken

theorem noChild_inv (taken : step s .noChild = some t) :
    ∃ item kid, s.position = .inserted item kid ∧ s.running = [] ∧ s.zombies = [] ∧
      t = { s with position := .waited item kid none } := by
  rw [step] at taken
  split at taken
  · rename_i item kid there
    split at taken
    · rename_i nobody
      exact ⟨item, kid, there, nobody.1, nobody.2, (Option.some.inj taken).symm⟩
    · cases taken
  · cases taken

theorem erase_inv (taken : step s .erase = some t) :
    ∃ item kid collected, s.position = .waited item kid collected ∧ t = { s with
      position := .outside
      childProcesses := s.childProcesses.erase (waitedPid collected)
      returned := ⟨item, kid, collected, s.childProcesses.erase (waitedPid collected),
        s.endings⟩ :: s.returned } := by
  rw [step] at taken
  split at taken
  · rename_i item kid collected there
    exact ⟨item, kid, collected, there, (Option.some.inj taken).symm⟩
  · cases taken

theorem underWay_inserted {item : CommandItem} {kid : Kid}
    (there : s.position = .inserted item kid) : s.underWay = some kid := by
  rw [Shell.underWay, there]

theorem underWay_forked {item : CommandItem} {kid : Kid}
    (there : s.position = .forked item kid) : s.underWay = some kid := by
  rw [Shell.underWay, there]

theorem underWay_outside (there : s.position = .outside) : s.underWay = none := by
  rw [Shell.underWay, there]

end Steps

/-! ## Undisturbed runs -/

/-- What holds as long as nobody takes a child from the command that waits for it. -/
structure Sound (s : Shell) : Prop where
  zombies : ∀ z ∈ s.zombies, z ∈ s.endings
  child : ∀ kid ∈ s.underWay, kid ∈ s.running ∨ kid ∈ s.zombies.map Prod.fst
  waited : ∀ item kid collected, s.position = .waited item kid collected →
    ∃ ending, (kid, ending) ∈ s.endings ∧ collected = some (kid, ending) ∧
      item.status = ending.status
  returned : ∀ r ∈ s.returned, r.Own

namespace Sound

variable {s t : Shell}

theorem start (childProcesses : Finset Int) : Sound (.start childProcesses) where
  zombies := List.forall_mem_nil _
  child kid under := absurd under (Option.not_mem_none kid)
  waited _ _ _ waited := nomatch waited
  returned := List.forall_mem_nil _

theorem fork (h : Sound s) {pid : Int} {item : CommandItem}
    (taken : step s (.fork item pid) = some t) : Sound t := by
  obtain ⟨_, rfl⟩ := fork_inv taken
  refine ⟨h.zombies, ?_, (fun _ _ _ waited => nomatch waited), h.returned⟩
  rintro kid ⟨⟩
  exact Or.inl List.mem_cons_self

theorem background (h : Sound s) {pid : Int} (taken : step s (.background pid) = some t) :
    Sound t := by
  obtain ⟨outside, rfl⟩ := background_inv taken
  refine ⟨h.zombies, ?_, h.waited, h.returned⟩
  intro kid under
  have none : (s.fork pid).underWay = none := underWay_outside outside
  rw [none] at under
  cases under

theorem insert (h : Sound s) (taken : step s .insert = some t) : Sound t := by
  obtain ⟨item, kid, there, rfl⟩ := insert_inv taken
  refine ⟨h.zombies, ?_, (fun _ _ _ waited => nomatch waited), h.returned⟩
  rintro _ ⟨⟩
  exact h.child kid (underWay_forked there)

theorem terminate (h : Sound s) {z : Zombie} (taken : step s (.terminate z) = some t) :
    Sound t := by
  obtain ⟨_, rfl⟩ := terminate_inv taken
  refine ⟨List.cons_subset_cons z h.zombies, ?_, ?_, h.returned⟩
  · intro kid under
    rw [List.map_cons, List.mem_cons, List.mem_filter, decide_eq_true_eq]
    by_cases same : kid = z.1
    · exact Or.inr (Or.inl same)
    · exact (h.child kid under).imp (⟨·, same⟩) Or.inr
  · intro item kid collected there
    obtain ⟨ending, inside, rest⟩ := h.waited item kid collected there
    exact ⟨ending, List.mem_cons_of_mem _ inside, rest⟩

theorem deliver (h : Sound s) (free : Undisturbed s .deliver) (taken : step s .deliver = some t) :
    Sound t := by
  cases taken
  refine ⟨nofun, ?_, h.waited, h.returned⟩
  intro kid under
  exact Or.inl ((h.child kid under).resolve_right (free kid under))

theorem wait (h : Sound s) {z : Zombie} (own : Undisturbed s (.wait z))
    (taken : step s (.wait z) = some t) : Sound t := by
  obtain ⟨item, kid, there, inside, rfl⟩ := wait_inv taken
  have same : z.1 = kid := by
    have under : z.1 ∈ s.underWay := own
    rw [underWay_inserted there] at under
    exact (Option.mem_some_iff.mp under).symm
  have whole : z = (kid, z.2) := Prod.ext same rfl
  refine ⟨fun x left => h.zombies x (List.mem_of_mem_filter left), nofun, ?_, h.returned⟩
  rintro _ _ _ ⟨⟩
  exact ⟨z.2, whole ▸ h.zombies z inside, congrArg some whole, rfl⟩

/-- `wait` does not fail while the child is there. -/
theorem noChild (h : Sound s) (taken : step s .noChild = some t) : False := by
  obtain ⟨item, kid, there, none, nobody, _⟩ := noChild_inv taken
  have child := h.child kid (underWay_inserted there)
  rw [none, nobody] at child
  rcases child with child | child <;> cases child

theorem erase (h : Sound s) (taken : step s .erase = some t) : Sound t := by
  obtain ⟨item, kid, collected, there, rfl⟩ := erase_inv taken
  obtain ⟨ending, inside, took, status⟩ := h.waited item kid collected there
  refine ⟨h.zombies, nofun, (fun _ _ _ waited => nomatch waited), ?_⟩
  intro r old
  rcases List.mem_cons.mp old with rfl | old
  · refine ⟨ending, inside, took, status, ?_⟩
    rw [took]
    exact Finset.notMem_erase _ _
  · exact h.returned r old

/-- The step lemma. -/
theorem step (h : Sound s) {a : Act} (free : Undisturbed s a) (taken : step s a = some t) :
    Sound t := by
  cases a with
  | fork item pid => exact h.fork taken
  | background pid => exact h.background taken
  | insert => exact h.insert taken
  | terminate z => exact h.terminate taken
  | deliver => exact h.deliver free taken
  | wait z => exact h.wait free taken
  | noChild => exact (h.noChild taken).elim
  | erase => exact h.erase taken

end Sound

/-! ## Disturbed runs -/

/-- No child both runs and has terminated, and serial numbers are not used again. -/
structure Tidy (s : Shell) : Prop where
  apart : ∀ kid ∈ s.running, kid ∉ s.zombies.map Prod.fst
  older : ∀ z ∈ s.zombies, z.1.serial < s.forks
  born : ∀ kid ∈ s.running, kid.serial < s.forks

namespace Tidy

variable {s t : Shell}

theorem start (childProcesses : Finset Int) : Tidy (.start childProcesses) where
  apart := List.forall_mem_nil _
  older := List.forall_mem_nil _
  born := List.forall_mem_nil _

theorem fork (h : Tidy s) (pid : Int) : Tidy (s.fork pid) where
  apart kid inside := by
    rcases List.mem_cons.mp inside with rfl | inside
    · intro found
      obtain ⟨z, old, same⟩ := List.mem_map.mp found
      have less := h.older z old
      rw [same] at less
      exact Nat.lt_irrefl _ less
    · exact h.apart kid inside
  older z inside := Nat.lt_succ_of_lt (h.older z inside)
  born kid inside := by
    rcases List.mem_cons.mp inside with rfl | inside
    · exact Nat.lt_succ_self _
    · exact Nat.lt_succ_of_lt (h.born kid inside)

/-- Children are only taken away. -/
theorem fewer (h : Tidy s) (running : t.running = s.running) (zombies : t.zombies ⊆ s.zombies)
    (forks : t.forks = s.forks) : Tidy t where
  apart kid inside found := by
    rw [running] at inside
    exact h.apart kid inside (List.map_subset _ zombies found)
  older z inside := forks ▸ h.older z (zombies inside)
  born kid inside := forks ▸ h.born kid (running ▸ inside)

theorem step (h : Tidy s) {a : Act} (taken : step s a = some t) : Tidy t := by
  cases a with
  | fork item pid =>
      obtain ⟨_, rfl⟩ := fork_inv taken
      exact (h.fork pid).fewer rfl (List.Subset.refl _) rfl
  | background pid =>
      obtain ⟨_, rfl⟩ := background_inv taken
      exact h.fork pid
  | insert =>
      obtain ⟨_, _, _, rfl⟩ := insert_inv taken
      exact h.fewer rfl (List.Subset.refl _) rfl
  | terminate z =>
      obtain ⟨inside, rfl⟩ := terminate_inv taken
      refine ⟨?_, List.forall_mem_cons.mpr ⟨h.born z.1 inside, h.older⟩, ?_⟩
      · intro kid still found
        obtain ⟨still, other⟩ := List.mem_filter.mp still
        rcases List.mem_cons.mp found with same | found
        · exact of_decide_eq_true other same
        · exact h.apart kid still found
      · exact fun kid still => h.born kid (List.mem_of_mem_filter still)
  | deliver =>
      cases taken
      exact h.fewer rfl (List.nil_subset _) rfl
  | wait z =>
      obtain ⟨_, _, _, _, rfl⟩ := wait_inv taken
      exact h.fewer rfl (fun _ inside => List.mem_of_mem_filter inside) rfl
  | noChild =>
      obtain ⟨_, _, _, _, _, rfl⟩ := noChild_inv taken
      exact h.fewer rfl (List.Subset.refl _) rfl
  | erase =>
      obtain ⟨_, _, _, _, rfl⟩ := erase_inv taken
      exact h.fewer rfl (List.Subset.refl _) rfl

end Tidy

/-- Some command has returned without its own child, or will do so: somebody
has taken the child, or `wait` has brought another one or none. -/
inductive Doomed (s : Shell) : Prop where
  | returned {r : Return} (inside : r ∈ s.returned) (other : ¬ r.Own)
  | taken {kid : Kid} (under : s.underWay = some kid) (idle : kid ∉ s.running)
      (gone : kid ∉ s.zombies.map Prod.fst)
  | waited {item : CommandItem} {kid : Kid} {collected : Option Zombie}
      (there : s.position = .waited item kid collected)
      (other : ∀ ending, collected ≠ some (kid, ending))

namespace Doomed

variable {s t : Shell}

/-- A step that disturbs. -/
theorem disturb (tidy : Tidy s) {a : Act} (not : ¬ Undisturbed s a) (taken : step s a = some t) :
    Doomed t := by
  cases a with
  | deliver =>
      cases taken
      simp only [Undisturbed, not_forall, not_not] at not
      obtain ⟨kid, under, found⟩ := not
      exact .taken under (fun runs => tidy.apart kid runs found) List.not_mem_nil
  | wait z =>
      obtain ⟨item, kid, there, _, rfl⟩ := wait_inv taken
      refine .waited rfl ?_
      rintro ending ⟨⟩
      exact not (underWay_inserted there)
  | fork | background | insert | terminate | noChild | erase => exact absurd trivial not

/-- What has gone wrong does not get right again. -/
theorem step (h : Doomed s) {a : Act} (taken : step s a = some t) : Doomed t := by
  cases a with
  | fork item pid =>
      obtain ⟨outside, rfl⟩ := fork_inv taken
      cases h with
      | returned inside other => exact .returned inside other
      | taken under _ _ => cases (underWay_outside outside).symm.trans under
      | waited there _ => cases outside.symm.trans there
  | background pid =>
      obtain ⟨outside, rfl⟩ := background_inv taken
      cases h with
      | returned inside other => exact .returned inside other
      | taken under _ _ => cases (underWay_outside outside).symm.trans under
      | waited there _ => cases outside.symm.trans there
  | insert =>
      obtain ⟨item, kid, forked, rfl⟩ := insert_inv taken
      cases h with
      | returned inside other => exact .returned inside other
      | taken under idle gone =>
          cases (underWay_forked forked).symm.trans under
          exact .taken rfl idle gone
      | waited there _ => cases forked.symm.trans there
  | terminate z =>
      obtain ⟨runs, rfl⟩ := terminate_inv taken
      cases h with
      | returned inside other => exact .returned inside other
      | taken under idle gone =>
          refine .taken under (fun inside => idle (List.mem_of_mem_filter inside)) ?_
          intro found
          rcases List.mem_cons.mp found with rfl | found
          · exact idle runs
          · exact gone found
      | waited there other => exact .waited there other
  | deliver =>
      cases taken
      cases h with
      | returned inside other => exact .returned inside other
      | taken under idle _ => exact .taken under idle List.not_mem_nil
      | waited there other => exact .waited there other
  | wait z =>
      obtain ⟨item, kid, inserted, inside, rfl⟩ := wait_inv taken
      cases h with
      | returned old other => exact .returned old other
      | taken under _ gone =>
          cases (underWay_inserted inserted).symm.trans under
          refine .waited rfl ?_
          rintro ending ⟨⟩
          exact gone (List.mem_map_of_mem inside)
      | waited there _ => cases inserted.symm.trans there
  | noChild =>
      obtain ⟨item, kid, inserted, _, _, rfl⟩ := noChild_inv taken
      cases h with
      | returned inside other => exact .returned inside other
      | taken _ _ _ => exact .waited rfl nofun
      | waited there _ => cases inserted.symm.trans there
  | erase =>
      obtain ⟨item, kid, collected, waited, rfl⟩ := erase_inv taken
      cases h with
      | returned inside other => exact .returned (List.mem_cons_of_mem _ inside) other
      | taken under _ _ =>
          rw [Shell.underWay, waited] at under
          cases under
      | waited there other =>
          cases waited.symm.trans there
          refine .returned List.mem_cons_self ?_
          rintro ⟨ending, _, took, _⟩
          exact other ending took

end Doomed

/-- A run is undisturbed, or leaves something that shows that it is not. -/
theorem undisturbed_or_doomed {childProcesses : Finset Int} {acts : List Act} {s : Shell}
    (ran : Run step Always (.start childProcesses) acts s) :
    Run step Undisturbed (.start childProcesses) acts s ∨ Doomed s := by
  have both : (Run step Undisturbed (.start childProcesses) acts s ∨ Doomed s) ∧ Tidy s := by
    apply ran.invariant fun acts s =>
      (Run step Undisturbed (.start childProcesses) acts s ∨ Doomed s) ∧ Tidy s
    · exact ⟨Or.inl .nil, .start childProcesses⟩
    · rintro acts t a u ⟨so, tidy⟩ - taken
      refine ⟨?_, tidy.step taken⟩
      rcases so with free | doomed
      · by_cases own : Undisturbed t a
        · exact Or.inl (.snoc free own taken)
        · exact Or.inr (.disturb tidy own taken)
      · exact Or.inr (doomed.step taken)
  exact both.1

/-- Every command that has returned has the status of its own child, if nobody
takes a child from a command that is under way. Where no command is under way,
it is also necessary. -/
theorem own_status_iff {childProcesses : Finset Int} {acts : List Act} {s : Shell}
    (ran : Run step Always (.start childProcesses) acts s) :
    (Run step Undisturbed (.start childProcesses) acts s → ∀ r ∈ s.returned, r.Own) ∧
      (s.position = .outside → (∀ r ∈ s.returned, r.Own) →
        Run step Undisturbed (.start childProcesses) acts s) := by
  constructor
  · intro free
    have sound : Sound s := by
      apply free.invariant fun _ s => Sound s
      · exact .start childProcesses
      · exact fun h own taken => h.step own taken
    exact sound.returned
  · intro outside all
    rcases undisturbed_or_doomed ran with free | doomed
    · exact free
    · cases doomed with
      | returned inside other => exact absurd (all _ inside) other
      | taken under _ _ => cases (underWay_outside outside).symm.trans under
      | waited there _ => cases outside.symm.trans there

/-- `false`, before it is run. -/
def falseItem : CommandItem := ⟨[Bytes.text "false"], -1, none, none, 0⟩

/-- `false` ends, and `wait` takes it. -/
def ownActs : List Act :=
  [.fork falseItem 100, .insert, .terminate (⟨0, 100⟩, .exited 1), .wait (⟨0, 100⟩, .exited 1),
    .erase]

theorem own_status_iff_false : ∃ s, Run step Always (.start ∅) ownActs s ∧ s.returned ≠ [] ∧
    (Run step Undisturbed (.start ∅) ownActs s → ∀ r ∈ s.returned, r.Own) ∧
      (s.position = .outside → (∀ r ∈ s.returned, r.Own) →
        Run step Undisturbed (.start ∅) ownActs s) := by
  have ran : ∃ s, Run step Always (.start ∅) ownActs s ∧ s.returned ≠ [] := by
    refine ⟨_, .of_foldlM rfl, ?_⟩
    exact List.cons_ne_nil _ _
  obtain ⟨s, ran, some⟩ := ran
  exact ⟨s, ran, some, own_status_iff ran⟩

/-- `false` ends, and SIGCHLD is delivered before the shell waits. -/
def reapedActs : List Act :=
  [.fork falseItem 100, .insert, .terminate (⟨0, 100⟩, .exited 1), .deliver, .noChild, .erase]

/-- The handler takes the child, and `false` counts as having exited with 0. -/
theorem false_reaped : ∃ s, Run step Always (.start ∅) reapedActs s ∧
    ∃ r ∈ s.returned, r.endings = [(r.kid, .exited 1)] ∧ r.collected = none ∧
      r.item.getExitCode = 0 ∧ r.kid.pid ∈ r.childProcesses := by
  refine ⟨_, .of_foldlM rfl, _, List.mem_cons_self, ?_⟩
  exact ⟨rfl, rfl, by decide, by decide⟩

theorem not_always_own_status : ¬ ∀ (childProcesses : Finset Int) (acts : List Act) (s : Shell),
    Run step Always (.start childProcesses) acts s → ∀ r ∈ s.returned, r.Own := by
  intro always
  obtain ⟨s, ran, r, inside, _, none, _⟩ := false_reaped
  obtain ⟨_, _, took, _⟩ := always ∅ reapedActs s ran r inside
  cases none.symm.trans took

end Reaping

end LisonShell
