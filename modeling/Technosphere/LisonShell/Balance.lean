import Technosphere.LisonShell.Descriptors
import Technosphere.LisonShell.Tokenizer
import Technosphere.Transition

/-!
# Descriptors after a line

A descriptor that was opened for a line is left open if its command is not run,
or if its field was written to again. `executeLine_balanced_iff` says for which
lines nothing is left open.
-/

namespace LisonShell

open Bytes Transition

/-- `execute_line`. Another process runs a sequence that ends in `&`. -/
def executeLine (ends : Nat → Termination) (cmdLine : List UInt8) (w : World) : Option World :=
  let commandsParsed := tokenizeLine cmdLine
  if commandsParsed.length = 0 then some w
  else
    (buildCommandSequence commandsParsed w).map fun (operands, w) =>
      if operands.getLast? = some (.op .runInBackground) then w else runSequence ends operands w

/-- The shell itself runs the command with number `k`. -/
def CommandLine.Runs (l : CommandLine) (ends : Nat → Termination) (k : Nat) : Prop :=
  l.trailing ≠ some .runInBackground ∧ Reached ends l.ops k

/-- The command of everything that is opened is run, and no descriptor is
replaced by that of another redirection or by a pipe. -/
structure CommandLine.Balanced (l : CommandLine) (ends : Nat → Termination) (w : World) :
    Prop where
  redirections : ∀ before k d path after, l.redirections = before ++ (k, d, path) :: after →
    Opens w before d path →
      l.Runs ends k ∧ (∀ path', (k, d, path') ∉ after) ∧ pipeAt l.ops k d = none
  pipes : ∀ j, l.ops[j]? = some .pipeline → l.Runs ends (j + 1)

namespace Built

variable {l : CommandLine} {w w' : World} {operands : List Item} {items : List CommandItem}
variable {n : Nat} {ends : Nat → Termination}

theorem balanced_iff (b : Built l w w' operands items) (valid : w.Valid) (few : n ≤ items.length)
    (runs : ∀ k ≤ l.ops.length, (k < n ↔ l.Runs ends k)) :
    (runAll (items.take n) 0 w').descriptors = w.descriptors ↔ l.Balanced ends w := by
  rw [b.descriptors_iff valid few]
  have valid' := b.more.valid valid
  constructor
  · intro closed
    constructor
    · intro before k d path after split opens
      have low := CommandLine.le_of_split split
      have accounts := b.accounts
      rw [CommandLine.ledger_split split] at accounts closed
      have opened : (redirectionEntry k d path (openedWorld before w)).stream ≠ none :=
        (found_ne_none_iff before w d path).mpr opens
      obtain ⟨run, last⟩ := closed _ (List.mem_append_right _ List.mem_cons_self) opened
      have kept : ¬ ((∃ path', (k, d, path') ∈ after) ∨ pipeAt l.ops k d ≠ none) := by
        rw [← l.exists_laterEntries_iff before after k d path w]
        rintro ⟨x, inside, own⟩
        exact (accounts.last_iff valid' opened).mp last x inside own
      rw [not_or, not_exists, not_not] at kept
      exact ⟨(runs k low).mp run, kept⟩
    · intro j here
      have low := (List.getElem?_eq_some_iff.mp here).1
      have place : pipeAt l.ops (j + 1) .input = some j :=
        pipeAt_eq_some_iff.mpr ⟨here, Or.inr ⟨rfl, rfl⟩⟩
      obtain ⟨e, inside, command, _⟩ := exists_pipeEntries (openedWorld l.redirections w) place
      obtain ⟨_, _, stream⟩ := pipeAt_of_pipeEntries inside
      have opened : e.stream ≠ none := by rw [stream]; exact Option.some_ne_none _
      have run := (closed e (List.mem_append_right _ inside) opened).1
      rw [command] at run
      exact (runs (j + 1) low).mp run
  · intro balanced e inside opened
    rcases List.mem_append.mp inside with redirection | piped
    · obtain ⟨before, k, d, path, after, split, rfl⟩ := split_of_openEntries redirection
      have low := CommandLine.le_of_split split
      have accounts := b.accounts
      obtain ⟨run, once, noPipe⟩ := balanced.redirections before k d path after split
        ((found_ne_none_iff before w d path).mp opened)
      rw [CommandLine.ledger_split split] at accounts ⊢
      refine ⟨(runs k low).mpr run, (accounts.last_iff valid' opened).mpr fun x later own => ?_⟩
      rcases (l.exists_laterEntries_iff before after k d path w).mp ⟨x, later, own⟩ with
        again | replaced
      · exact again.elim once
      · exact replaced noPipe
    · obtain ⟨j, place, _⟩ := pipeAt_of_pipeEntries piped
      have last : (l.ledger w).last e.command e.direction = some e := by
        rw [CommandLine.ledger, Ledger.last_append, last_of_pipeEntries piped, Option.some_or]
      obtain ⟨here, side⟩ := pipeAt_eq_some_iff.mp place
      have low := (List.getElem?_eq_some_iff.mp here).1
      have run := (runs (j + 1) low).mpr (balanced.pipes j here)
      exact ⟨by omega, last⟩

end Built

theorem executeLine_tokens {ends : Nat → Termination} {cmdLine : List UInt8} {w w' : World}
    {l : CommandLine} (cut : l.tokens = tokenizeLine cmdLine)
    (executed : executeLine ends cmdLine w = some w') :
    ∃ operands w₁, buildCommandSequence l.tokens w = some (operands, w₁) ∧
      w' = if operands.getLast? = some (.op .runInBackground) then w₁
        else runSequence ends operands w₁ := by
  have some : ¬ (tokenizeLine cmdLine).length = 0 := by
    rw [← cut, List.length_eq_zero_iff]
    exact l.tokens_ne_nil
  rw [executeLine, if_neg some, ← cut] at executed
  obtain ⟨⟨operands, w₁⟩, parsed, same⟩ := Option.map_eq_some_iff.mp executed
  exact ⟨operands, w₁, parsed, same.symm⟩

theorem executeLine_nil {ends : Nat → Termination} {cmdLine : List UInt8} {w w' : World}
    (tokens : tokenizeLine cmdLine = []) (executed : executeLine ends cmdLine w = some w') :
    w' = w := by
  rw [executeLine, if_pos (by rw [tokens]; rfl)] at executed
  exact (Option.some.inj executed).symm

theorem descriptors_iff_of_tokens {ends : Nat → Termination} {cmdLine : List UInt8} {w w' : World}
    {l : CommandLine} (valid : w.Valid) (cut : l.tokens = tokenizeLine cmdLine)
    (executed : executeLine ends cmdLine w = some w') :
    w'.descriptors = w.descriptors ↔ l.Balanced ends w := by
  obtain ⟨operands, w₁, parsed, rfl⟩ := executeLine_tokens cut executed
  obtain ⟨items, b⟩ := exists_built parsed
  by_cases background : l.trailing = some .runInBackground
  · rw [if_pos (b.background.mpr background)]
    refine b.balanced_iff (n := 0) valid (Nat.zero_le _) fun k _ => ?_
    exact iff_of_false (Nat.not_lt_zero k) fun run => run.1 background
  · rw [if_neg (mt b.background.mp background), b.runs]
    refine b.balanced_iff valid ?_ fun k low => ?_
    · rw [b.length_items]
      exact Nat.succ_le_succ (reached_le ends 0 l.ops)
    · rw [lt_reached_succ_iff, CommandLine.Runs, and_iff_right low, and_iff_right background]

theorem descriptors_of_balanced {ends : Nat → Termination} {cmdLine : List UInt8} {w w' : World}
    (valid : w.Valid) (executed : executeLine ends cmdLine w = some w')
    (balanced : ∀ l : CommandLine, l.tokens = tokenizeLine cmdLine → l.Balanced ends w) :
    w'.descriptors = w.descriptors := by
  cases tokens : tokenizeLine cmdLine with
  | nil => rw [executeLine_nil tokens executed]
  | cons t ts =>
      obtain ⟨l, cut⟩ := exists_commandLine t ts
      have cut := cut.trans tokens.symm
      exact (descriptors_iff_of_tokens valid cut executed).mpr (balanced l cut)

/-- When the line has been executed, the shell has the descriptors that it had
before exactly if the line is balanced. -/
theorem executeLine_balanced_iff (ends : Nat → Termination) {cmdLine : List UInt8} {w w' : World}
    (valid : w.Valid) (executed : executeLine ends cmdLine w = some w') :
    w'.descriptors = w.descriptors ↔
      ∀ l : CommandLine, l.tokens = tokenizeLine cmdLine → l.Balanced ends w :=
  ⟨fun same _ cut => (descriptors_iff_of_tokens valid cut executed).mp same,
    descriptors_of_balanced valid executed⟩

/-- The line `a > f | b`. -/
theorem executeLine_balanced_iff_replaced : ∃ w',
    executeLine (fun _ => .exited 0) (text "a > f | b") (.fresh []) = some w' ∧
      (w'.descriptors = [] ↔ ∀ l : CommandLine, l.tokens = tokenizeLine (text "a > f | b") →
        l.Balanced (fun _ => .exited 0) (.fresh [])) :=
  ⟨_, rfl, executeLine_balanced_iff _ (valid_fresh []) rfl⟩

/-- `a > f | b`: the descriptor of `f` stays open. -/
theorem not_always_balanced : ¬ ∀ (ends : Nat → Termination) (cmdLine : List UInt8) (w w' : World),
    w.Valid → executeLine ends cmdLine w = some w' → w'.descriptors = w.descriptors := by
  intro always
  have same := always (fun _ => .exited 0) (text "a > f | b") (.fresh []) _
    (valid_fresh []) rfl
  exact absurd same (by decide)

/-! ## Sessions -/

theorem executeLine_valid {ends : Nat → Termination} {cmdLine : List UInt8} {w w' : World}
    (valid : w.Valid) (executed : executeLine ends cmdLine w = some w') : w'.Valid := by
  cases tokens : tokenizeLine cmdLine with
  | nil =>
      rw [executeLine_nil tokens executed]
      exact valid
  | cons t ts =>
      obtain ⟨l, cut⟩ := exists_commandLine t ts
      obtain ⟨operands, w₁, parsed, rfl⟩ := executeLine_tokens (cut.trans tokens.symm) executed
      obtain ⟨items, b⟩ := exists_built parsed
      have valid₁ := b.more.valid valid
      split
      · exact valid₁
      · rw [b.runs]
        exact runAll_valid _ 0 valid₁

/-- A line and the ends of its commands. -/
def executeNext (w : World) (a : (Nat → Termination) × List UInt8) : Option World :=
  executeLine a.1 a.2 w

/-- As long as all lines are balanced, nothing is ever left open. -/
theorem descriptors_of_session {acts : List ((Nat → Termination) × List UInt8)} {w w' : World}
    (valid : w.Valid)
    (h : Run executeNext
      (fun w a => ∀ l : CommandLine, l.tokens = tokenizeLine a.2 → l.Balanced a.1 w) w acts w') :
    w'.Valid ∧ w'.descriptors = w.descriptors := by
  refine h.invariant (fun _ u => u.Valid ∧ u.descriptors = w.descriptors) ⟨valid, rfl⟩ ?_
  rintro _ t a u ⟨valid', same⟩ balanced executed
  exact ⟨executeLine_valid valid' executed,
    (descriptors_of_balanced valid' executed balanced).trans same⟩

end LisonShell
