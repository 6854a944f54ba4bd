import Technosphere.LisonShell.CmdInterperter

/-!
# Running a command sequence

`run_sequence` runs the commands of a sequence in order and stops at the first
`&&` or `||` that is not satisfied. The rule for lists of pipelines joined by
`&&` and `||` skips one pipeline there and goes on with the next connective.
`runSequence_follows_iff` says when the two run the same commands.
-/

namespace LisonShell

open Bytes

/-- The loop of `run_sequence` from a certain item on. The command with number
`k` of the sequence ends as `ends k` says. -/
def runFrom (ends : Nat → Termination) : List Item → (number : Nat) → (exitCode : Int) →
    World → World
  | [], _, _, w => w
  | .cmd cmd :: operands, number, _, w =>
    let ran := cmd.run w number (ends number)
    runFrom ends operands (number + 1) ran.1.getExitCode ran.2
  | .op nextOp :: operands, number, exitCode, w =>
    if (nextOp = .or ∧ exitCode = 0) ∨ (nextOp = .and ∧ exitCode ≠ 0) then w
    else runFrom ends operands number exitCode w

def runSequence (ends : Nat → Termination) (operands : List Item) (w : World) : World :=
  runFrom ends operands 0 (-1) w

/-! ## The rule -/

/-- A command that was run, by its number in the sequence. -/
abbrev Call := Nat

def Child.call (child : Child) : Call := child.command

inductive Connective where
  | and
  | or
  deriving DecidableEq, Repr

/-- What a connective asks of the status of the last executed pipeline. -/
def Connective.satisfied : Connective → UInt8 → Bool
  | .and, status => status == 0
  | .or, status => status != 0

/-- Commands joined by `|`. -/
structure Pipeline where
  first : Command
  piped : List Command

/-- Pipelines joined by `&&` and `||`. -/
structure AndOrList where
  first : Pipeline
  rest : List (Connective × Pipeline)

namespace Pipeline

def size (p : Pipeline) : Nat := p.piped.length + 1

/-- The calls of all commands of the pipeline, the first of which has the given number. -/
def calls (p : Pipeline) (number : Nat) : List Call := List.range' number p.size

/-- The status of a pipeline is that of its last command. -/
def status (codes : Nat → UInt8) (number : Nat) (p : Pipeline) : UInt8 :=
  codes (number + p.piped.length)

end Pipeline

/-- The rule for the pipelines after one with the given status. The next
command has the given number, whether or not commands before it were run. -/
def prescribedAfter (codes : Nat → UInt8) (status : UInt8) (number : Nat) :
    List (Connective × Pipeline) → List Call
  | [] => []
  | (j, p) :: rest =>
    if j.satisfied status then
      p.calls number ++ prescribedAfter codes (p.status codes number) (number + p.size) rest
    else prescribedAfter codes status (number + p.size) rest

/-- The calls that the rule prescribes when the commands exit with `codes`. -/
def AndOrList.prescribed (codes : Nat → UInt8) (l : AndOrList) : List Call :=
  l.first.calls 0 ++ prescribedAfter codes (l.first.status codes 0) l.first.size l.rest

/-- The first connective that skips its pipeline is followed by connectives of
its own kind only. -/
def SkipsToTheEnd (codes : Nat → UInt8) (status : UInt8) (number : Nat) :
    List (Connective × Pipeline) → Prop
  | [] => True
  | (j, p) :: rest =>
    if j.satisfied status then SkipsToTheEnd codes (p.status codes number) (number + p.size) rest
    else ∀ next ∈ rest, next.1 = j

/-! ## Tokens of a list -/

def Connective.joint : Connective → Joint
  | .and => .and
  | .or => .or

namespace Pipeline

/-- The commands after the first one, with what joins them. -/
def joints (p : Pipeline) : List (Joint × Command) := p.piped.map fun c => (.pipeline, c)

/-- All commands of a pipeline that follows a connective. -/
def jointsAfter (j : Connective) (p : Pipeline) : List (Joint × Command) :=
  (j.joint, p.first) :: p.joints

end Pipeline

namespace AndOrList

def joints (l : AndOrList) : List (Joint × Command) :=
  l.first.joints ++ l.rest.flatMap fun (j, p) => p.jointsAfter j

/-- The tokens of the list. -/
def tokens (l : AndOrList) : List Token := joinedTokens l.first.first l.joints

end AndOrList

/-! ## What the loop runs -/

/-- The calls that the loop makes for items of the given shapes. -/
def callsOf (codes : Nat → UInt8) : List (List Token ⊕ OpType) → (number : Nat) →
    (exitCode : Int) → List Call
  | [], _, _ => []
  | .inl _ :: shapes, number, _ =>
    number :: callsOf codes shapes (number + 1) (codes number).toNat
  | .inr nextOp :: shapes, number, exitCode =>
    if (nextOp = .or ∧ exitCode = 0) ∨ (nextOp = .and ∧ exitCode ≠ 0) then []
    else callsOf codes shapes number exitCode

theorem runFrom_calls (codes : Nat → UInt8) (operands : List Item) (number : Nat) (exitCode : Int)
    (w : World) :
    (runFrom (fun k => .exited (codes k)) operands number exitCode w).children.map Child.call =
      w.children.map Child.call ++ callsOf codes (operands.map Item.shape) number exitCode := by
  induction operands generalizing number exitCode w with
  | nil => exact (List.append_nil _).symm
  | cons item operands ih =>
      cases item with
      | cmd cmd =>
          rw [runFrom, ih, cmd.run_children, cmd.getExitCode_run, List.map_append,
            List.append_assoc]
          rfl
      | op nextOp =>
          rw [runFrom, List.map_cons, Item.shape, callsOf]
          split
          · exact (List.append_nil _).symm
          · exact ih number exitCode w

/-- The shapes of what follows the first command. -/
def jointShapes (rest : List (Joint × Command)) : List (List Token ⊕ OpType) :=
  rest.flatMap fun (j, c) => [.inr j.name, .inl c.words]

theorem joinedShapes_eq (c : Command) (rest : List (Joint × Command)) :
    joinedShapes c rest = .inl c.words :: jointShapes rest := by
  induction rest generalizing c with
  | nil => rfl
  | cons jd rest ih => rw [joinedShapes, ih]; rfl

/-- A pipeline is run as a whole, and its last code is left. -/
theorem callsOf_pipeline (codes : Nat → UInt8) (c : Command) (piped : List Command)
    (more : List (List Token ⊕ OpType)) (number : Nat) (exitCode : Int) :
    callsOf codes (.inl c.words :: (jointShapes (Pipeline.mk c piped).joints ++ more)) number
        exitCode =
      (Pipeline.mk c piped).calls number ++
        callsOf codes more (number + (Pipeline.mk c piped).size)
          ((Pipeline.mk c piped).status codes number).toNat := by
  induction piped generalizing c number exitCode with
  | nil => rfl
  | cons d piped ih =>
      have there : callsOf codes (.inl c.words ::
          (jointShapes (Pipeline.mk c (d :: piped)).joints ++ more)) number exitCode =
          number :: callsOf codes
            (.inl d.words :: (jointShapes (Pipeline.mk d piped).joints ++ more)) (number + 1)
            (codes number).toNat := rfl
      have next : number + 1 + (Pipeline.mk d piped).size =
          number + (Pipeline.mk c (d :: piped)).size := by
        simp only [Pipeline.size, List.length_cons]
        omega
      have last : (Pipeline.mk d piped).status codes (number + 1) =
          (Pipeline.mk c (d :: piped)).status codes number := by
        simp only [Pipeline.status, List.length_cons]
        congr 1
        omega
      rw [there, ih, next, last]
      rfl

/-- The calls made after a pipeline with the given status. -/
def callsAfter (codes : Nat → UInt8) (status : UInt8) (number : Nat) :
    List (Connective × Pipeline) → List Call
  | [] => []
  | (j, p) :: rest =>
    if j.satisfied status then
      p.calls number ++ callsAfter codes (p.status codes number) (number + p.size) rest
    else []

/-- The loop stops at a connective that is not satisfied. -/
theorem stops_iff (j : Connective) (status : UInt8) :
    ((j.joint.name = .or ∧ (status.toNat : Int) = 0) ∨
      (j.joint.name = .and ∧ (status.toNat : Int) ≠ 0)) ↔ ¬ j.satisfied status = true := by
  have zero : status.toNat = 0 ↔ status = 0 := UInt8.toNat_inj (b := 0)
  cases j <;> simp [Connective.joint, Joint.name, Connective.satisfied, zero]

theorem callsOf_rest (codes : Nat → UInt8) (rest : List (Connective × Pipeline)) (status : UInt8)
    (number : Nat) :
    callsOf codes (jointShapes (rest.flatMap fun (j, p) => p.jointsAfter j)) number status.toNat =
      callsAfter codes status number rest := by
  induction rest generalizing status number with
  | nil => rfl
  | cons jp rest ih =>
      obtain ⟨j, p⟩ := jp
      have shapes : jointShapes (((j, p) :: rest).flatMap fun (j, p) => p.jointsAfter j) =
          .inr j.joint.name :: (.inl p.first.words :: (jointShapes p.joints ++
            jointShapes (rest.flatMap fun (j, p) => p.jointsAfter j))) := by
        rw [List.flatMap_cons, jointShapes, List.flatMap_append]
        rfl
      rw [shapes, callsOf, callsAfter]
      by_cases goes : j.satisfied status = true
      · rw [if_neg (mt (stops_iff j status).mp (not_not.mpr goes)), if_pos goes,
          callsOf_pipeline, ih]
      · rw [if_pos ((stops_iff j status).mpr goes), if_neg goes]

/-- What `run_sequence` runs of the sequence that is built for a list. -/
theorem runSequence_list (l : AndOrList) (codes : Nat → UInt8) (w : World) :
    ∃ operands w', buildCommandSequence l.tokens w = some (operands, w') ∧
      (runSequence (fun k => .exited (codes k)) operands w').children.map Child.call =
        w.children.map Child.call ++ (l.first.calls 0 ++
          callsAfter codes (l.first.status codes 0) l.first.size l.rest) := by
  obtain ⟨operands, w', built, shapes, children⟩ := build_joined l.first.first l.joints w
  refine ⟨operands, w', built, ?_⟩
  rw [runSequence, runFrom_calls, shapes, children, joinedShapes_eq, AndOrList.joints, jointShapes,
    List.flatMap_append]
  congr 1
  apply (callsOf_pipeline codes l.first.first l.first.piped _ 0 (-1)).trans
  rw [← callsOf_rest, Nat.zero_add]
  rfl

/-! ## When the loop follows the rule -/

theorem calls_ne_nil (p : Pipeline) (number : Nat) : p.calls number ≠ [] :=
  List.cons_ne_nil _ _

/-- While pipelines are skipped, only a connective of the other kind can end it. -/
theorem prescribedAfter_skipped {codes : Nat → UInt8} {j : Connective} {status : UInt8}
    (skips : ¬ j.satisfied status = true) (number : Nat) (rest : List (Connective × Pipeline)) :
    prescribedAfter codes status number rest = [] ↔ ∀ next ∈ rest, next.1 = j := by
  have same : ∀ k : Connective, ¬ k.satisfied status = true ↔ k = j := by
    intro k
    cases j <;> cases k <;> simp_all [Connective.satisfied]
  induction rest generalizing number with
  | nil => simp [prescribedAfter]
  | cons kp rest ih =>
      obtain ⟨k, p⟩ := kp
      rw [prescribedAfter, List.forall_mem_cons, ← same k]
      by_cases goes : k.satisfied status = true
      · rw [if_pos goes]
        simp [goes, calls_ne_nil]
      · rw [if_neg goes]
        exact (ih _).trans (and_iff_right goes).symm

theorem callsAfter_eq_iff (codes : Nat → UInt8) (status : UInt8) (number : Nat)
    (rest : List (Connective × Pipeline)) :
    callsAfter codes status number rest = prescribedAfter codes status number rest ↔
      SkipsToTheEnd codes status number rest := by
  induction rest generalizing status number with
  | nil => simp [callsAfter, prescribedAfter, SkipsToTheEnd]
  | cons jp rest ih =>
      obtain ⟨j, p⟩ := jp
      rw [callsAfter, prescribedAfter, SkipsToTheEnd]
      by_cases goes : j.satisfied status = true
      · rw [if_pos goes, if_pos goes, if_pos goes, List.append_cancel_left_eq, ih]
      · rw [if_neg goes, if_neg goes, if_neg goes, eq_comm]
        exact prescribedAfter_skipped goes _ rest

/-- `run_sequence` runs what the rule prescribes, in that order, exactly when
the first connective that skips is followed by connectives of its kind only. -/
theorem runSequence_follows_iff (l : AndOrList) (codes : Nat → UInt8) (w : World) :
    ∃ operands w', buildCommandSequence l.tokens w = some (operands, w') ∧
      ((runSequence (fun k => .exited (codes k)) operands w').children.map Child.call =
          w.children.map Child.call ++ l.prescribed codes ↔
        SkipsToTheEnd codes (l.first.status codes 0) l.first.size l.rest) := by
  obtain ⟨operands, w', built, ran⟩ := runSequence_list l codes w
  refine ⟨operands, w', built, ?_⟩
  rw [ran, List.append_cancel_left_eq, AndOrList.prescribed, List.append_cancel_left_eq]
  exact callsAfter_eq_iff codes _ _ l.rest

/-- `true || echo a && echo b`. -/
def orThenAnd : AndOrList where
  first := ⟨⟨[text "true"], by decide, by decide, by decide⟩, []⟩
  rest :=
    [(.or, ⟨⟨[text "echo", text "a"], by decide, by decide, by decide⟩, []⟩),
      (.and, ⟨⟨[text "echo", text "b"], by decide, by decide, by decide⟩, []⟩)]

/-- With code 0 everywhere only `true` is run, and the rule asks for `echo b` too. -/
theorem orThenAnd_stops :
    (buildCommandSequence orThenAnd.tokens (.fresh [])).map (fun s =>
        (runSequence (fun _ => .exited 0) s.1 s.2).children.map Child.call) =
        some [0] ∧
      orThenAnd.prescribed (fun _ => 0) = [0, 2] :=
  ⟨by decide, by decide⟩

/-- `run_sequence` does not always run what the rule prescribes. -/
theorem echo_after_skip_not_run :
    ¬ ∀ (l : AndOrList) codes w operands w',
      buildCommandSequence l.tokens w = some (operands, w') →
        (runSequence (fun k => .exited (codes k)) operands w').children.map Child.call =
          w.children.map Child.call ++ l.prescribed codes := by
  intro always
  obtain ⟨stops, rule⟩ := orThenAnd_stops
  obtain ⟨⟨operands, w'⟩, built, ran⟩ := Option.map_eq_some_iff.mp stops
  have follows := always orThenAnd (fun _ => 0) (.fresh []) operands w' built
  rw [ran, rule] at follows
  exact absurd follows (by decide)

end LisonShell
