import Technosphere.LisonShell.Sequence
import Technosphere.LisonShell.Wiring

/-!
# How far a sequence is run

`run_sequence` runs the commands of a sequence from the left up to the first
`&&` or `||` that its exit code does not pass. `reached` counts them from the
operators and the ends of the commands; `runFrom_interleave` says that the loop
does nothing but run so many commands.
-/

namespace LisonShell

/-- What `get_exit_code` gives after a command that ended so. -/
def Termination.exitCode : Termination → Int
  | .exited code => code.toNat
  | .signaled _ _ => 0

theorem getExitCode_of_run (item : CommandItem) (w : World) (number : Nat) (ending : Termination) :
    (item.run w number ending).1.getExitCode = ending.exitCode := by
  cases ending with
  | exited code => exact item.getExitCode_run w number code
  | signaled signum known =>
      have killed : ¬ wifexited (signum : Int) = true := by
        rw [wifexited, beq_iff_eq]
        omega
      exact if_neg killed

/-- The loop goes on at the operator behind a command that ended so. -/
def OpType.passes : OpType → Termination → Bool
  | .and, ending => ending.exitCode == 0
  | .or, ending => ending.exitCode != 0
  | _, _ => true

theorem not_passes_iff (op : OpType) (ending : Termination) :
    ((op = .or ∧ ending.exitCode = 0) ∨ (op = .and ∧ ending.exitCode ≠ 0)) ↔
      ¬ op.passes ending = true := by
  cases op <;> simp [OpType.passes]

/-- How many commands are run behind the one with the given number, when these
operators are in front of them. -/
def reached (ends : Nat → Termination) (number : Nat) : List OpType → Nat
  | [] => 0
  | op :: ops => if op.passes (ends number) then reached ends (number + 1) ops + 1 else 0

theorem reached_le (ends : Nat → Termination) (number : Nat) (ops : List OpType) :
    reached ends number ops ≤ ops.length := by
  induction ops generalizing number with
  | nil => exact Nat.le_refl 0
  | cons op ops ih =>
      rw [reached]
      split
      · exact Nat.succ_le_succ (ih (number + 1))
      · exact Nat.zero_le _

theorem lt_reached_iff (ends : Nat → Termination) (number : Nat) (ops : List OpType) (k : Nat) :
    k < reached ends number ops ↔ k < ops.length ∧
      ∀ i ≤ k, ∀ op, ops[i]? = some op → op.passes (ends (number + i)) = true := by
  induction ops generalizing number k with
  | nil => simp [reached]
  | cons op ops ih =>
      rw [reached]
      by_cases passes : op.passes (ends number) = true
      · rw [if_pos passes]
        cases k with
        | zero =>
            refine iff_of_true (Nat.succ_pos _) ⟨Nat.succ_pos _, ?_⟩
            intro i hi op' here
            obtain rfl := Nat.le_zero.mp hi
            cases here
            exact passes
        | succ k =>
            rw [Nat.succ_lt_succ_iff, ih, List.length_cons, Nat.succ_lt_succ_iff]
            refine and_congr_right fun _ => ⟨fun h i hi op' here => ?_, fun h i hi op' here => ?_⟩
            · cases i with
              | zero =>
                  cases here
                  exact passes
              | succ i =>
                  have there := h i (Nat.le_of_succ_le_succ hi) op' here
                  rwa [Nat.add_assoc, Nat.add_comm 1] at there
            · have there := h (i + 1) (Nat.succ_le_succ hi) op' here
              rwa [Nat.add_assoc, Nat.add_comm 1]
      · rw [if_neg passes]
        refine iff_of_false (Nat.not_lt_zero k) ?_
        rintro ⟨_, all⟩
        exact passes (all 0 (Nat.zero_le k) op rfl)

/-- The command with number `k` of a line is reached: every operator before it
is passed. -/
def Reached (ends : Nat → Termination) (ops : List OpType) (k : Nat) : Prop :=
  ∀ i < k, ∀ op, ops[i]? = some op → op.passes (ends i) = true

theorem lt_reached_succ_iff (ends : Nat → Termination) (ops : List OpType) (k : Nat) :
    k < reached ends 0 ops + 1 ↔ k ≤ ops.length ∧ Reached ends ops k := by
  cases k with
  | zero => exact iff_of_true (Nat.succ_pos _) ⟨Nat.zero_le _, nofun⟩
  | succ k =>
      rw [Nat.succ_lt_succ_iff, lt_reached_iff, Nat.succ_le_iff]
      simp only [Nat.zero_add, Reached, Nat.lt_succ_iff]

/-! ## Running commands one after the other -/

/-- The shell after it has run a command and waited for it, however that ended. -/
def CommandItem.ran (item : CommandItem) (w : World) (number : Nat) : World :=
  (item.run w number (.exited 0)).2

/-- The shell after it has run commands, the first of which has the given number. -/
def runAll : List CommandItem → (number : Nat) → World → World
  | [], _, w => w
  | c :: cs, number, w => runAll cs (number + 1) (c.ran w number)

theorem runFrom_ops (ends : Nat → Termination) (ops : List OpType) (number : Nat) (exitCode : Int)
    (w : World) : runFrom ends (ops.map .op) number exitCode w = w := by
  induction ops with
  | nil => rfl
  | cons op ops ih =>
      rw [List.map_cons, runFrom]
      split
      · rfl
      · exact ih

/-- The loop runs the commands that are reached. -/
theorem runFrom_interleave (ends : Nat → Termination) (first : CommandItem) (rest : Joined)
    (tail : List OpType) (number : Nat) (exitCode : Int) (w : World) :
    runFrom ends (interleave first rest ++ tail.map .op) number exitCode w =
      runAll ((first :: rest.map Prod.snd).take (reached ends number (rest.map Prod.fst) + 1))
        number w := by
  induction rest generalizing first number exitCode w with
  | nil => exact runFrom_ops ends tail _ _ _
  | cons r rest ih =>
      obtain ⟨op, c⟩ := r
      show runFrom ends (.cmd first :: .op op :: (interleave c rest ++ tail.map .op)) number
        exitCode w = _
      rw [runFrom, runFrom, getExitCode_of_run, List.map_cons, List.map_cons, reached]
      by_cases passes : op.passes (ends number) = true
      · rw [if_neg (mt (not_passes_iff op _).mp (not_not.mpr passes)), if_pos passes, ih]
        rfl
      · rw [if_pos ((not_passes_iff op _).mpr passes), if_neg passes]
        rfl

theorem runAll_commands (cs : List CommandItem) (number : Nat) (w : World) :
    (runAll cs number w).children.map Child.command =
      w.children.map Child.command ++ List.range' number cs.length := by
  induction cs generalizing number w with
  | nil => exact (List.append_nil _).symm
  | cons c cs ih =>
      rw [runAll, ih, CommandItem.ran, c.run_children, List.map_append, List.append_assoc]
      rfl

end LisonShell
