import Technosphere.LisonShell.Descriptors

/-!
# Standard input and output of commands

A command reads from the file of its last `<` or else from the pipe in front of
it, and writes to the file of its last `>` or else to the pipe behind it. The
second loop lets a pipe replace a redirection, so `wired_iff` says for which
lines this rule is followed.
-/

namespace LisonShell

open Bytes

/-! ## The rule -/

/-- The file of the last redirection of a command. -/
def CommandLine.lastRedirection (l : CommandLine) (k : Nat) (d : Direction) : Option Token :=
  (l.redirections.reverse.find? fun r => decide (r.1 = k ∧ r.2.1 = d)).map fun r => r.2.2

/-- The rule for standard input or output of the command with number `k`, when
the `|` at place `j` has made the pipe `pipeOf j`. -/
def CommandLine.Prescribes (l : CommandLine) (w : World) (pipeOf : Nat → Nat) (k : Nat)
    (d : Direction) (standard : Standard) : Prop :=
  match l.lastRedirection k d with
  | some path => ∃ file, w.named path = some file ∧ standard = .redirected (.file file d.writing)
  | none =>
    match pipeAt l.ops k d with
    | some j => standard = .redirected (.pipe (pipeOf j) d.writing)
    | none => standard = .inherited

/-- Every `|` has a pipe of its own, and whatever the exit codes are, every
command that is started has its prescribed input and output. -/
def CommandLine.Wired (l : CommandLine) (operands : List Item) (w : World) : Prop :=
  ∃ pipeOf : Nat → Nat,
    (∀ i j, l.ops[i]? = some .pipeline → l.ops[j]? = some .pipeline → pipeOf i = pipeOf j →
      i = j) ∧
    ∀ ends, ∀ child ∈ startedBy ends operands w,
      l.Prescribes w pipeOf child.command .input child.stdin ∧
        l.Prescribes w pipeOf child.command .output child.stdout

/-- The file of the last redirection of each command in each direction is
opened, and no pipe takes its place. -/
def CommandLine.Unreplaced (l : CommandLine) (w : World) : Prop :=
  ∀ before k d path after, l.redirections = before ++ (k, d, path) :: after →
    (∀ path', (k, d, path') ∉ after) → Opens w before d path ∧ pipeAt l.ops k d = none

namespace CommandLine

variable {l : CommandLine} {before after : List (Nat × Direction × Token)} {k : Nat}
variable {d : Direction} {path : Token}

theorem lastRedirection_eq_some_iff : l.lastRedirection k d = some path ↔
    ∃ before after, l.redirections = before ++ (k, d, path) :: after ∧
      ∀ path', (k, d, path') ∉ after := by
  rw [lastRedirection, Option.map_eq_some_iff]
  constructor
  · rintro ⟨⟨k', d', path'⟩, found, rfl⟩
    obtain ⟨own, after, before, split, none⟩ := List.find?_eq_some_iff_append.mp found
    obtain ⟨rfl, rfl⟩ := of_decide_eq_true own
    refine ⟨before.reverse, after.reverse, ?_, fun path'' inside => ?_⟩
    · rw [← List.reverse_reverse l.redirections, split]
      simp
    · have other := none _ (List.mem_reverse.mp inside)
      simp at other
  · rintro ⟨before, after, split, none⟩
    refine ⟨(k, d, path), ?_, rfl⟩
    rw [List.find?_eq_some_iff_append]
    refine ⟨by simp, after.reverse, before.reverse, by rw [split]; simp, ?_⟩
    rintro ⟨k', d', path'⟩ inside
    by_contra own
    simp only [Bool.not_eq_true', decide_eq_false_iff_not, not_not] at own
    obtain ⟨rfl, rfl⟩ := own
    exact none path' (List.mem_reverse.mp inside)

theorem lastRedirection_eq_none_iff :
    l.lastRedirection k d = none ↔ ∀ path, (k, d, path) ∉ l.redirections := by
  rw [lastRedirection, Option.map_eq_none_iff, List.find?_eq_none]
  constructor
  · intro none path inside
    have other := none _ (List.mem_reverse.mpr inside)
    simp at other
  · rintro none ⟨k', d', path'⟩ inside own
    obtain ⟨rfl, rfl⟩ := of_decide_eq_true own
    exact none path' (List.mem_reverse.mp inside)

end CommandLine

/-! ## What the children get -/

/-- Where a field leads whose entries are these. -/
def Ledger.standard (E : Ledger) (k : Nat) (d : Direction) : Standard :=
  match E.last k d with
  | none => .inherited
  | some e =>
    match e.stream with
    | none => .closed
    | some s => .redirected s

theorem Ledger.standard_of_last {E : Ledger} {k : Nat} {d : Direction} {e : Entry}
    (last : E.last k d = some e) :
    E.standard k d = match e.stream with
      | none => .closed
      | some s => .redirected s := by
  rw [standard, last]

namespace Built

variable {l : CommandLine} {w w' : World} {operands : List Item} {items : List CommandItem}
variable {k : Nat} {c : CommandItem}

/-- When a command is run, what its fields hold is still open. -/
theorem standard_eq (b : Built l w w' operands items) (valid : w.Valid)
    (here : items[k]? = some c) (d : Direction) :
    (runAll (items.take k) 0 w').standard (c.fd d) = (l.ledger w).standard k d := by
  have valid' := b.more.valid valid
  have few : k ≤ items.length := Nat.le_of_lt (List.getElem?_eq_some_iff.mp here).1
  rw [b.fd_eq here]
  cases last : (l.ledger w).last k d with
  | none =>
      rw [Ledger.standard, last]
      rfl
  | some e =>
      obtain ⟨inside, command, _⟩ := Ledger.of_last last
      have now : (runAll (items.take k) 0 w').Valid := runAll_valid _ 0 valid'
      rw [Ledger.standard_of_last last, Option.map_some, World.standard]
      cases stream : e.stream with
      | none =>
          have closed : (runAll (items.take k) 0 w').descriptors.lookup e.fd = none := by
            rw [Option.eq_none_iff_forall_ne_some]
            intro s found
            have held := now.lookup_eq.mp found
            rw [runAll_descriptors] at held
            exact b.accounts.fd_of_failed valid' inside stream (List.mem_of_mem_filter held) rfl
          rw [closed]
      | some s =>
          have opened : e.stream ≠ none := by rw [stream]; exact Option.some_ne_none s
          have held : (e.fd, s) ∈ (runAll (items.take k) 0 w').descriptors := by
            rw [runAll_descriptors, List.mem_filter, decide_eq_true_eq]
            refine ⟨b.accounts.descriptor_mem inside stream, fun closed => ?_⟩
            have earlier := ((b.closed_iff valid few inside opened).mp closed).1
            exact Nat.lt_irrefl k (command ▸ earlier)
          rw [now.lookup_eq.mpr held]

/-- A command is given a closed stream where `open` has failed, and only there. -/
theorem closed_iff_failed (b : Built l w w' operands items) (valid : w.Valid)
    (here : items[k]? = some c) (d : Direction) :
    (runAll (items.take k) 0 w').standard (c.fd d) = .closed ↔ c.fd d = some (-1) := by
  have valid' := b.more.valid valid
  rw [b.standard_eq valid here, b.fd_eq here]
  cases last : (l.ledger w).last k d with
  | none =>
      rw [Ledger.standard, last]
      exact iff_of_false nofun nofun
  | some e =>
      have inside := (Ledger.of_last last).1
      rw [Ledger.standard_of_last last, Option.map_some, Option.some_inj]
      cases stream : e.stream with
      | none => exact iff_of_true rfl (b.accounts.failed e inside stream)
      | some s =>
          have low := valid'.numbers _ (b.accounts.descriptor_mem inside stream)
          refine iff_of_false nofun fun failed => ?_
          have low : 3 ≤ e.fd := low
          omega

/-- The children that are started. -/
theorem mem_startedBy (b : Built l w w' operands items) (valid : w.Valid)
    (ends : Nat → Termination) {child : Child} (started : child ∈ startedBy ends operands w') :
    child.stdin = (l.ledger w).standard child.command .input ∧
      child.stdout = (l.ledger w).standard child.command .output := by
  obtain ⟨k, here⟩ := List.mem_iff_getElem?.mp started
  rw [b.startedBy_getElem?] at here
  split at here
  · obtain ⟨c, there, rfl⟩ := Option.map_eq_some_iff.mp here
    exact ⟨b.standard_eq valid there .input, b.standard_eq valid there .output⟩
  · cases here

end Built

/-- Ends of commands with which all commands of a line are run. -/
def passing (ops : List OpType) (i : Nat) : Termination :=
  if ops[i]? = some .or then .exited 1 else .exited 0

theorem reached_passing (ops : List OpType) (k : Nat) : Reached (passing ops) ops k := by
  intro i _ op here
  rw [passing, here]
  cases op <;> rfl

theorem Built.exists_startedBy {l : CommandLine} {w w' : World} {operands : List Item}
    {items : List CommandItem} (b : Built l w w' operands items) {k : Nat}
    (low : k ≤ l.ops.length) :
    ∃ child ∈ startedBy (passing l.ops) operands w', child.command = k := by
  have run := (lt_reached_succ_iff (passing l.ops) l.ops k).mpr ⟨low, reached_passing l.ops k⟩
  have inside : k < items.length := by
    rw [b.length_items]
    exact Nat.lt_succ_of_le low
  have here := b.startedBy_getElem? (passing l.ops) k
  rw [if_pos run, List.getElem?_eq_getElem inside] at here
  exact ⟨_, List.mem_of_getElem? here, rfl⟩

/-! ## When the rule is followed -/

namespace CommandLine

variable {l : CommandLine} {before after : List (Nat × Direction × Token)} {k j : Nat}
variable {d : Direction} {path : Token} {w : World}

/-- The number of the pipe that the `|` at place `j` makes. -/
def pipeNumber (l : CommandLine) (w : World) (j : Nat) : Nat :=
  (openedWorld l.redirections w).pipes + (l.ops.take j).count .pipeline

theorem pipeNumber_lt {i : Nat} (here : l.ops[i]? = some .pipeline) (less : i < j) (w : World) :
    l.pipeNumber w i < l.pipeNumber w j := by
  have next : (l.ops.take (i + 1)).count .pipeline = (l.ops.take i).count .pipeline + 1 := by
    rw [List.take_add_one, here, Option.toList_some, List.count_append, List.count_singleton_self]
  have more : (l.ops.take (i + 1)).count .pipeline ≤ (l.ops.take j).count .pipeline :=
    (List.take_sublist_take_left less).count_le _
  rw [pipeNumber, pipeNumber]
  omega

theorem pipeNumber_inj {i : Nat} (here : l.ops[i]? = some .pipeline)
    (here' : l.ops[j]? = some .pipeline) (same : l.pipeNumber w i = l.pipeNumber w j) : i = j := by
  rcases Nat.lt_trichotomy i j with less | equal | greater
  · exact absurd same (Nat.ne_of_lt (pipeNumber_lt here less w))
  · exact equal
  · exact absurd same (Nat.ne_of_gt (pipeNumber_lt here' greater w))

/-- A pipe replaces the redirections on its side of the command. -/
theorem standard_of_pipe (place : pipeAt l.ops k d = some j) (w : World) :
    (l.ledger w).standard k d = .redirected (.pipe (l.pipeNumber w j) d.writing) := by
  have stream := last_pipeEntries 0 l.ops (openedWorld l.redirections w) k d
  rw [Nat.zero_add, place, Option.map_some, Option.map_eq_some_iff] at stream
  obtain ⟨e, last, stream⟩ := stream
  have last' : (l.ledger w).last k d = some e := by
    rw [ledger, Ledger.last_append, last, Option.some_or]
  rw [Ledger.standard_of_last last', stream]
  rfl

/-- Without a pipe the last redirection counts. -/
theorem standard_of_redirection (split : l.redirections = before ++ (k, d, path) :: after)
    (once : ∀ path', (k, d, path') ∉ after) (noPipe : pipeAt l.ops k d = none) (w : World) :
    (l.ledger w).standard k d =
      match (openedWorld before w).found d path with
      | none => .closed
      | some s => .redirected s := by
  have last : (l.ledger w).last k d = some (redirectionEntry k d path (openedWorld before w)) := by
    rw [ledger_split split]
    refine Ledger.last_of_split fun x inside own => ?_
    rcases (l.exists_laterEntries_iff before after k d path w).mp ⟨x, inside, own⟩ with
      again | piped
    · exact again.elim once
    · exact piped noPipe
  rw [Ledger.standard_of_last last]
  rfl

theorem standard_of_nothing (none : ∀ path, (k, d, path) ∉ l.redirections)
    (noPipe : pipeAt l.ops k d = .none) (w : World) : (l.ledger w).standard k d = .inherited := by
  have last : (l.ledger w).last k d = .none := by
    rw [Ledger.last_eq_none]
    rintro e inside ⟨rfl, rfl⟩
    rcases List.mem_append.mp inside with redirection | piped
    · exact (of_openEntries redirection).elim none
    · obtain ⟨j, place, _⟩ := pipeAt_of_pipeEntries piped
      cases noPipe.symm.trans place
  rw [Ledger.standard, last]

/-- What children get is what the rule prescribes. -/
theorem Unreplaced.standard_prescribed (h : l.Unreplaced w) {w' : World} (more : w.Extends w')
    (k : Nat) (d : Direction) :
    l.Prescribes w' (l.pipeNumber w) k d ((l.ledger w).standard k d) := by
  rw [Prescribes]
  cases last : l.lastRedirection k d with
  | some path =>
      obtain ⟨before, after, split, once⟩ := lastRedirection_eq_some_iff.mp last
      obtain ⟨⟨file, finds⟩, noPipe⟩ := h before k d path after split once
      have target := (target_openedWorld_iff before w d path file).mpr finds
      refine ⟨file, ?_, ?_⟩
      · rw [more.named, ← (openedWorld_extends before w).named]
        exact World.named_of_target target
      · rw [standard_of_redirection split once noPipe, World.found_of_target target]
  | none =>
      cases place : pipeAt l.ops k d with
      | some j => exact standard_of_pipe place w
      | none => exact standard_of_nothing (lastRedirection_eq_none_iff.mp last) place w

end CommandLine

/-- All commands have their prescribed input and output exactly if no pipe takes
the place of a redirection and every file can be opened by then. -/
theorem wired_iff {l : CommandLine} {w w' : World} {operands : List Item} (valid : w.Valid)
    (parsed : buildCommandSequence l.tokens w = some (operands, w')) :
    l.Wired operands w' ↔ l.Unreplaced w := by
  obtain ⟨items, b⟩ := exists_built parsed
  constructor
  · rintro ⟨pipeOf, _, children⟩ before k d path after split once
    have low := CommandLine.le_of_split split
    obtain ⟨child, started, rfl⟩ := b.exists_startedBy low
    have own := b.mem_startedBy valid _ started
    have prescribed := children _ child started
    have last := CommandLine.lastRedirection_eq_some_iff.mpr ⟨before, after, split, once⟩
    have rule : l.Prescribes w' pipeOf child.command d ((l.ledger w).standard child.command d) := by
      cases d with
      | input => exact own.1 ▸ prescribed.1
      | output => exact own.2 ▸ prescribed.2
    rw [CommandLine.Prescribes, last] at rule
    obtain ⟨name, _, file⟩ := rule
    have noPipe : pipeAt l.ops child.command d = none := by
      cases place : pipeAt l.ops child.command d with
      | none => rfl
      | some j => cases (CommandLine.standard_of_pipe place w).symm.trans file
    refine ⟨(found_ne_none_iff before w d path).mp fun missing => ?_, noPipe⟩
    rw [CommandLine.standard_of_redirection split once noPipe, missing] at file
    cases file
  · intro unreplaced
    refine ⟨l.pipeNumber w, fun i j here here' => CommandLine.pipeNumber_inj here here', ?_⟩
    intro ends child started
    obtain ⟨stdin, stdout⟩ := b.mem_startedBy valid ends started
    rw [stdin, stdout]
    exact ⟨unreplaced.standard_prescribed b.more child.command .input,
      unreplaced.standard_prescribed b.more child.command .output⟩

/-- `cat < f | wc`. -/
def catThenWc : CommandLine where
  first := [text "cat", text "<", text "f"]
  rest := [(.pipeline, [text "wc"])]
  trailing := none
  noOperator := by decide
  operators := by decide
  ended := by decide

theorem wired_iff_cat : ∃ operands w',
    buildCommandSequence catThenWc.tokens (.fresh [text "f"]) = some (operands, w') ∧
      (catThenWc.Wired operands w' ↔ catThenWc.Unreplaced (.fresh [text "f"])) :=
  ⟨_, _, rfl, wired_iff (valid_fresh [text "f"]) rfl⟩

/-- `a > f | b`. -/
def writeThenRead : CommandLine where
  first := [text "a", text ">", text "f"]
  rest := [(.pipeline, [text "b"])]
  trailing := none
  noOperator := by decide
  operators := by decide
  ended := by decide

/-- `a > f | b`: the first command writes to the pipe. -/
theorem not_always_wired : ¬ ∀ (l : CommandLine) (w w' : World) (operands : List Item), w.Valid →
    buildCommandSequence l.tokens w = some (operands, w') → l.Wired operands w' := by
  intro always
  obtain ⟨pipeOf, _, children⟩ := always writeThenRead (.fresh []) _ _
    (valid_fresh []) rfl
  have stdout := (children (fun _ => .exited 0)
    ⟨0, [text "a"], .inherited, .redirected (.pipe 0 true)⟩ (by decide)).2
  have rule : writeThenRead.lastRedirection 0 .output = some (text "f") := rfl
  rw [CommandLine.Prescribes, rule] at stdout
  obtain ⟨_, _, same⟩ := stdout
  cases same

end LisonShell
