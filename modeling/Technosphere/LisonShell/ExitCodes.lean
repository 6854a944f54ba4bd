import Technosphere.LisonShell.ShortCircuit

/-!
# Commands behind `&&` and `||`

`get_exit_code` gives 0 for a child that was killed by a signal, so what
follows such a command behind `&&` is run as if it had succeeded. That is the
only way in which `run_sequence` starts a command that its connective forbids.
-/

namespace LisonShell

/-- Commands, each with the connective in front of it. -/
abbrev Chain := List (Connective × CommandItem)

def Chain.joined (rest : Chain) : Joined := rest.map fun (j, c) => (j.joint.name, c)

/-- What a connective asks of the command that was run just before. -/
def Connective.allows : Connective → Termination → Prop
  | .and, ending => ending = .exited 0
  | .or, ending => ending ≠ .exited 0

/-- The children that `run_sequence` starts for a first command and a chain. -/
def startedOf (ends : Nat → Termination) (first : CommandItem) (rest : Chain) (w : World) :
    List Child :=
  (runSequence ends (interleave first rest.joined) w).children.drop w.children.length

/-- Whenever a command with a connective in front of it is started, another one
was started just before, and it ended as the connective asks. -/
def NeverFollowsFailure (ends : Nat → Termination) (first : CommandItem) (rest : Chain)
    (w : World) : Prop :=
  ∀ i child k j c, (startedOf ends first rest w)[i]? = some child → child.command = k + 1 →
    rest[k]? = some (j, c) →
      ∃ h child', i = h + 1 ∧ (startedOf ends first rest w)[h]? = some child' ∧
        j.allows (ends child'.command)

/-- The command with number `k` exits, and with the code that the connective
behind it asks for. -/
def GoesOn (ends : Nat → Termination) (rest : Chain) (k : Nat) : Prop :=
  ∃ j c code, rest[k]? = some (j, c) ∧ ends k = .exited code ∧ j.allows (.exited code)

/-! ## What is started -/

/-- The operators of a chain. -/
def Chain.ops (rest : Chain) : List OpType := rest.map fun r => r.1.joint.name

theorem Chain.ops_getElem? {rest : Chain} {k : Nat} {j : Connective} {c : CommandItem}
    (here : rest[k]? = some (j, c)) : rest.ops[k]? = some j.joint.name := by
  rw [ops, List.getElem?_map, here]
  rfl

/-- The first commands are started, one after the other. -/
theorem startedOf_commands (ends : Nat → Termination) (first : CommandItem) (rest : Chain)
    (w : World) :
    (startedOf ends first rest w).map Child.command = List.range (reached ends 0 rest.ops + 1) := by
  have ran := runFrom_interleave ends first rest.joined [] 0 (-1) w
  have ops : rest.joined.map Prod.fst = rest.ops := by
    rw [Chain.joined, List.map_map, Chain.ops]
    rfl
  have length : (first :: rest.joined.map Prod.snd).length = rest.ops.length + 1 := by
    simp [Chain.joined, Chain.ops]
  have few := reached_le ends 0 rest.ops
  rw [List.map_nil, List.append_nil, ops] at ran
  rw [startedOf, List.map_drop, runSequence, ran, runAll_commands, List.drop_left',
    List.length_take, length, List.range_eq_range', Nat.min_eq_left (Nat.succ_le_succ few)]
  rw [List.length_map]

theorem startedOf_getElem? (ends : Nat → Termination) (first : CommandItem) (rest : Chain)
    (w : World) (i : Nat) :
    (startedOf ends first rest w)[i]?.map Child.command =
      if i < reached ends 0 rest.ops + 1 then some i else none := by
  rw [← List.getElem?_map, startedOf_commands]
  split
  · exact List.getElem?_range ‹_›
  · rw [List.getElem?_eq_none_iff, List.length_range]
    omega

/-! ## When a connective is ignored -/

/-- The command before a connective is the one that was started just before,
so only the ends of the commands matter. -/
theorem neverFollowsFailure_iff (ends : Nat → Termination) (first : CommandItem) (rest : Chain)
    (w : World) :
    NeverFollowsFailure ends first rest w ↔
      ∀ k < reached ends 0 rest.ops, ∀ j c, rest[k]? = some (j, c) → j.allows (ends k) := by
  have number : ∀ {i child}, (startedOf ends first rest w)[i]? = some child →
      i < reached ends 0 rest.ops + 1 ∧ child.command = i := by
    intro i child here
    have found := startedOf_getElem? ends first rest w i
    rw [here, Option.map_some] at found
    split at found
    · exact ⟨‹_›, Option.some.inj found⟩
    · cases found
  have exists_started : ∀ i < reached ends 0 rest.ops + 1,
      ∃ child, (startedOf ends first rest w)[i]? = some child ∧ child.command = i := by
    intro i low
    have found := startedOf_getElem? ends first rest w i
    rw [if_pos low] at found
    exact Option.map_eq_some_iff.mp found
  constructor
  · intro never k low j c behind
    obtain ⟨child, here, command⟩ := exists_started (k + 1) (Nat.succ_lt_succ low)
    obtain ⟨h, child', same, before, allowed⟩ := never (k + 1) child k j c here command behind
    obtain rfl : k = h := Nat.succ.inj same
    rwa [(number before).2] at allowed
  · intro respected i child k j c here command behind
    obtain ⟨low, rfl⟩ := number here
    rw [command] at low here
    obtain ⟨child', before, command'⟩ := exists_started k (Nat.lt_of_succ_lt low)
    refine ⟨k, child', command, before, ?_⟩
    rw [command']
    exact respected k (Nat.lt_of_succ_lt_succ low) j c behind

/-- A connective at which the loop goes on is satisfied, unless it is `&&`
behind a command that was killed. -/
theorem passes_cases {j : Connective} {ending : Termination}
    (passes : j.joint.name.passes ending = true) :
    (∃ code, ending = .exited code ∧ j.allows (.exited code)) ∨
      j = .and ∧ ∃ signum known, ending = .signaled signum known := by
  cases ending with
  | signaled signum known =>
      cases j with
      | and => exact Or.inr ⟨rfl, signum, known, rfl⟩
      | or => exact absurd passes Bool.false_ne_true
  | exited code =>
      have zero : code.toNat = 0 ↔ code = 0 := UInt8.toNat_inj (b := 0)
      refine Or.inl ⟨code, rfl, ?_⟩
      cases j <;>
        simpa [Connective.joint, Joint.name, OpType.passes, Termination.exitCode, zero,
          Connective.allows] using passes

theorem passes_of_allows {j : Connective} {code : UInt8} (allowed : j.allows (.exited code)) :
    j.joint.name.passes (.exited code) = true := by
  have zero : code.toNat = 0 ↔ code = 0 := UInt8.toNat_inj (b := 0)
  cases j <;>
    simpa [Connective.joint, Joint.name, OpType.passes, Termination.exitCode, zero,
      Connective.allows] using allowed

theorem passes_of_goesOn {ends : Nat → Termination} {rest : Chain} {k : Nat}
    (h : GoesOn ends rest k) {op : OpType} (here : rest.ops[k]? = some op) :
    op.passes (ends k) = true := by
  obtain ⟨j, c, code, there, ending, allowed⟩ := h
  cases here.symm.trans (Chain.ops_getElem? there)
  rw [ending]
  exact passes_of_allows allowed

/-- Connectives are respected if and only if no command that is killed by a
signal stands in front of `&&` while all commands before it exit as their
connectives ask. -/
theorem neverFollowsFailure_iff_killed (ends : Nat → Termination) (first : CommandItem)
    (rest : Chain) (w : World) :
    NeverFollowsFailure ends first rest w ↔
      ∀ k c, rest[k]? = some (.and, c) → (∀ i < k, GoesOn ends rest i) →
        ∀ signum known, ends k ≠ .signaled signum known := by
  rw [neverFollowsFailure_iff]
  constructor
  · intro respected k c behind before signum known killed
    have low : k < reached ends 0 rest.ops := by
      rw [lt_reached_iff]
      have here := Chain.ops_getElem? behind
      refine ⟨(List.getElem?_eq_some_iff.mp here).1, fun i hi op there => ?_⟩
      rw [Nat.zero_add]
      rcases Nat.lt_or_eq_of_le hi with hi | rfl
      · exact passes_of_goesOn (before i hi) there
      · cases here.symm.trans there
        rw [killed]
        rfl
    have exited : ends k = .exited 0 := respected k low .and c behind
    rw [killed] at exited
    cases exited
  · intro unkilled k low
    rw [lt_reached_iff, Chain.ops, List.length_map] at low
    obtain ⟨length, passes⟩ := low
    -- all commands up to this one exit as asked
    have goes : ∀ i ≤ k, GoesOn ends rest i := by
      intro i
      induction i using Nat.strongRecOn with
      | ind i ih =>
          intro hi
          obtain ⟨⟨j, c⟩, here⟩ : ∃ jc, rest[i]? = some jc :=
            ⟨_, List.getElem?_eq_getElem (Nat.lt_of_le_of_lt hi length)⟩
          have passed := passes i hi _ (Chain.ops_getElem? here)
          rw [Nat.zero_add] at passed
          rcases passes_cases passed with ⟨code, ending, allowed⟩ | ⟨rfl, signum, known, killed⟩
          · exact ⟨j, c, code, here, ending, allowed⟩
          · exact absurd killed (unkilled i c here
              (fun i' lower => ih i' lower (Nat.le_of_lt (Nat.lt_of_lt_of_le lower hi)))
              signum known)
    intro j c behind
    obtain ⟨j', c', code, here, ending, allowed⟩ := goes k (Nat.le_refl k)
    cases behind.symm.trans here
    rwa [ending]

/-- `a && b`. -/
def killedThenAnd : Chain := [(.and, ⟨[Bytes.text "b"], -1, none, none, 0⟩)]

/-- `b` is started although `a` was killed with SIGKILL. -/
theorem not_never_follows_failure :
    ¬ ∀ (ends : Nat → Termination) (first : CommandItem) (rest : Chain) (w : World),
      NeverFollowsFailure ends first rest w := by
  intro always
  have never := always (fun _ => .signaled 9 (by decide)) ⟨[Bytes.text "a"], -1, none, none, 0⟩
    killedThenAnd (.fresh [])
  obtain ⟨h, child, same, _, allowed⟩ :=
    never 1 ⟨1, [Bytes.text "b"], .inherited, .inherited⟩ 0 .and _
    rfl rfl rfl
  cases allowed

end LisonShell
