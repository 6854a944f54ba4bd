import Technosphere.LisonShell.Descriptors

/-!
# Files of commands that are not run

The constructor of a command opens its files, long before `run_sequence` finds
out whether the command is run. `skipped_untouched_iff` says for which lines the
files of commands that are not run are left alone.
-/

namespace LisonShell

open Bytes

/-- `run_sequence` does not start the command with number `k`. -/
def Skipped (ends : Nat → Termination) (operands : List Item) (w : World) (k : Nat) : Prop :=
  ∀ child ∈ startedBy ends operands w, child.command ≠ k

instance (ends : Nat → Termination) (operands : List Item) (w : World) (k : Nat) :
    Decidable (Skipped ends operands w k) :=
  inferInstanceAs (Decidable (∀ child ∈ startedBy ends operands w, child.command ≠ k))

/-- The file has not been opened, so not been truncated, and not been created. -/
structure Untouched (file : Token) (w w' : World) : Prop where
  descriptors : ∀ fd writing, (fd, .file file writing) ∈ w'.descriptors →
    (fd, .file file writing) ∈ w.descriptors
  files : file ∈ w'.files → file ∈ w.files

/-- No `>` of the line may open the file, and no `<` finds it before the line. -/
def CommandLine.Absent (l : CommandLine) (w : World) (file : Token) : Prop :=
  ∀ k d path, (k, d, path) ∈ l.redirections → w.target d path ≠ some file

namespace Built

variable {l : CommandLine} {w w' : World} {operands : List Item} {items : List CommandItem}
variable {k : Nat} {d : Direction} {path file : Token}

/-- The commands that are not run are those that are not reached. -/
theorem skipped_iff (b : Built l w w' operands items) (ends : Nat → Termination)
    (low : k ≤ l.ops.length) : Skipped ends operands w' k ↔ ¬ Reached ends l.ops k := by
  have inside : k < items.length := by
    rw [b.length_items]
    exact Nat.lt_succ_of_le low
  have reaches := lt_reached_succ_iff ends l.ops k
  rw [and_iff_right low] at reaches
  rw [← reaches]
  constructor
  · intro skipped run
    have here := b.startedBy_getElem? ends k
    rw [if_pos run, List.getElem?_eq_getElem inside] at here
    exact skipped _ (List.mem_of_getElem? here) rfl
  · rintro run child started rfl
    obtain ⟨i, here⟩ := List.mem_iff_getElem?.mp started
    have there := here
    rw [b.startedBy_getElem?] at there
    split at there
    · obtain ⟨c, _, rfl⟩ := Option.map_eq_some_iff.mp there
      exact run ‹_›
    · cases there

/-- A redirection that opens its file. -/
theorem not_untouched (b : Built l w w' operands items) (valid : w.Valid)
    {before after : List (Nat × Direction × Token)}
    (split : l.redirections = before ++ (k, d, path) :: after)
    (finds : Finds w before d path file) : ¬ Untouched file w w' := by
  intro untouched
  have found := World.found_of_target ((target_openedWorld_iff before w d path file).mpr finds)
  have opened : (openedWorld before w).found d path ≠ none := by
    rw [found]
    exact Option.some_ne_none _
  have inside : redirectionEntry k d path (openedWorld before w) ∈ l.ledger w := by
    rw [CommandLine.ledger_split split]
    exact List.mem_append_right _ List.mem_cons_self
  have held := b.accounts.descriptor_mem inside found
  exact b.accounts.fd_of_opened (b.more.valid valid) inside opened
    (untouched.descriptors _ _ held) rfl

/-- The line does not write to the file. -/
theorem not_writes {rs : List (Nat × Direction × Token)} (some : rs ⊆ l.redirections)
    (absent : l.Absent w file) : ¬ Writes w rs file := by
  rintro ⟨k, path, inside, writes⟩
  exact absent k .output path (some inside) writes

theorem untouched_of_absent (b : Built l w w' operands items) (absent : l.Absent w file) :
    Untouched file w w' where
  descriptors fd writing held := by
    rcases b.accounts.mem_descriptors.mp held with ⟨e, inside, descriptor⟩ | before
    · obtain ⟨s, stream, same⟩ := Option.map_eq_some_iff.mp descriptor
      cases same
      rcases List.mem_append.mp inside with redirection | piped
      · obtain ⟨before, k, d, path', after, split, rfl⟩ := split_of_openEntries redirection
        have found : (openedWorld before w).found d path' = some (.file file writing) := stream
        obtain ⟨other, target, same⟩ := Option.map_eq_some_iff.mp found
        cases same
        have here : (k, d, path') ∈ l.redirections := by
          rw [split]
          exact List.mem_append_right _ List.mem_cons_self
        have finds := (target_openedWorld_iff before w d path' file).mp target
        obtain first | ⟨_, _, _, written⟩ := finds
        · exact absurd first (absent k d path' here)
        · refine absurd written (not_writes ?_ absent)
          rw [split]
          exact List.subset_append_left _ _
      · obtain ⟨j, _, pipe⟩ := pipeAt_of_pipeEntries piped
        cases stream.symm.trans pipe
    · exact before
  files there := by
    rw [b.files, mem_files_openedWorld] at there
    exact there.resolve_right (not_writes (List.Subset.refl _) absent)

/-- A file is left alone only if there is nothing to open. -/
theorem untouched_iff (b : Built l w w' operands items) (valid : w.Valid) :
    Untouched file w w' ↔ l.Absent w file := by
  refine ⟨fun untouched k d path inside found => ?_, b.untouched_of_absent⟩
  obtain ⟨before, after, split⟩ := List.append_of_mem inside
  exact b.not_untouched valid split (Or.inl found) untouched

/-- Running commands neither opens nor creates a file. -/
theorem untouched_run (b : Built l w w' operands items) (ends : Nat → Termination)
    (untouched : Untouched file w w') : Untouched file w (runSequence ends operands w') where
  descriptors fd writing held := by
    rw [b.runs, runAll_descriptors] at held
    exact untouched.descriptors fd writing (List.mem_of_mem_filter held)
  files there := by
    rw [b.runs, runAll_files] at there
    exact untouched.files there

end Built

/-- Executing a line leaves the files of all commands that are not run alone
exactly if nothing on the line opens any of them. -/
theorem skipped_untouched_iff (ends : Nat → Termination) {l : CommandLine} {w w' : World}
    {operands : List Item} (valid : w.Valid)
    (parsed : buildCommandSequence l.tokens w = some (operands, w')) :
    (∀ k d path, (k, d, path) ∈ l.redirections → Skipped ends operands w' k →
        ∀ file, w.named path = some file →
          Untouched file w w' ∧ Untouched file w (runSequence ends operands w')) ↔
      ∀ k d path, (k, d, path) ∈ l.redirections → ¬ Reached ends l.ops k →
        ∀ file, w.named path = some file → l.Absent w file := by
  obtain ⟨items, b⟩ := exists_built parsed
  constructor
  · intro untouched k d path inside skipped file named
    have low := CommandLine.le_of_redirections inside
    have before := untouched k d path inside ((b.skipped_iff ends low).mpr skipped) file named
    exact (b.untouched_iff valid).mp before.1
  · intro absent k d path inside skipped file named
    have low := CommandLine.le_of_redirections inside
    have untouched := b.untouched_of_absent
      (absent k d path inside ((b.skipped_iff ends low).mp skipped) file named)
    exact ⟨untouched, b.untouched_run ends untouched⟩

/-- `false && cat < f`. -/
def falseAndCat : CommandLine where
  first := [text "false"]
  rest := [(.and, [text "cat", text "<", text "f"])]
  trailing := none
  noOperator := by decide
  operators := by decide
  ended := by decide

theorem skipped_untouched_iff_cat : ∃ operands w',
    buildCommandSequence falseAndCat.tokens (.fresh []) = some (operands, w') ∧
      ((∀ k d path, (k, d, path) ∈ falseAndCat.redirections →
          Skipped (fun _ => .exited 1) operands w' k →
            ∀ file, (World.fresh []).named path = some file → Untouched file (.fresh []) w' ∧
              Untouched file (.fresh []) (runSequence (fun _ => .exited 1) operands w')) ↔
        ∀ k d path, (k, d, path) ∈ falseAndCat.redirections →
          ¬ Reached (fun _ => .exited 1) falseAndCat.ops k →
            ∀ file, (World.fresh []).named path = some file →
              falseAndCat.Absent (.fresh []) file) :=
  ⟨_, _, rfl, skipped_untouched_iff _ (valid_fresh []) rfl⟩

/-- `false && echo > f`. -/
def falseAndEcho : CommandLine where
  first := [text "false"]
  rest := [(.and, [text "echo", text ">", text "f"])]
  trailing := none
  noOperator := by decide
  operators := by decide
  ended := by decide

/-- `false && echo > f` creates `f`. -/
theorem not_always_untouched : ¬ ∀ (ends : Nat → Termination) (l : CommandLine) (w w' : World)
    (operands : List Item), w.Valid →
    buildCommandSequence l.tokens w = some (operands, w') → ∀ k d path,
      (k, d, path) ∈ l.redirections → Skipped ends operands w' k →
        ∀ file, w.named path = some file →
          Untouched file w w' ∧ Untouched file w (runSequence ends operands w') := by
  intro always
  have untouched := always (fun _ => .exited 1) falseAndEcho (.fresh []) _ _
    (valid_fresh []) rfl 1 .output (text "f") (by decide) (by decide) (text "f") (by decide)
  exact List.not_mem_nil (untouched.1.files (by decide))

end LisonShell
