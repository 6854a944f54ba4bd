import Technosphere.LisonShell.CmdInterperter
import Technosphere.LisonShell.Tokenizer
import Technosphere.Lines
import Technosphere.Transition

/-!
# The processes that interpret the input

`fork` copies the interpreter with its place in the sequence and the input that
it has read ahead; what has not been read yet is shared. A child of
`CommandItem::run` stops to be an interpreter when `execvp` succeeds. Otherwise
it returns from `run` and goes on with the sequence and with its input, which
is another one if the command has a redirection or stands behind a `|`: `run`
replaces the standard input before it calls `execvp`.

`one_interpreter_iff` says for whole sessions when only one process does so.
-/

namespace LisonShell

open Bytes Transition

namespace Interpreters

/-- What has started a process. -/
inductive Origin where
  | shell
  /-- `run_sequence_in_background`. -/
  | background
  /-- `CommandItem::run` for an item of a parsed line. -/
  | command (line : Nat) (index : Nat)
  deriving DecidableEq

def Origin.isCommand : Origin → Bool
  | .command _ _ => true
  | .shell | .background => false

/-- What is left of the sequence of a line: the items from `index` on. -/
structure Sequence where
  line : Nat
  background : Bool
  index : Nat
  operands : List Item
  deriving DecidableEq

def Sequence.next (seq : Sequence) (operands : List Item) : Sequence :=
  { seq with index := seq.index + 1, operands := operands }

inductive Control where
  /-- In `std::getline` of `main`. -/
  | getline
  /-- In the loop of `run_sequence`. -/
  | sequence (seq : Sequence) (exitCode : Int)
  /-- In `run`, in the child, in front of `execvp`. -/
  | child (seq : Sequence) (item : CommandItem)
  /-- In `run`, in front of `wait`. -/
  | waiting (seq : Sequence) (item : CommandItem)
  /-- Executing another program. -/
  | replaced
  | finished (ending : Termination)
  deriving DecidableEq

/-- Where the standard input of a process leads. -/
inductive Stdin where
  /-- To the input of the shell. -/
  | shared
  /-- To a pipe or a file that has taken its place, or to nothing if that could not
  be opened. -/
  | replaced
  /-- To a stream whose end was found. -/
  | ended
  deriving DecidableEq

/-- The standard input of the child that `run` starts for an item, when the
process itself has this one. It is replaced before `execvp` is called. -/
def Stdin.ofItem (stdin : Stdin) (item : CommandItem) : Stdin :=
  if item.stdinFd.isSome then .replaced else stdin

/-- A process. `buffer` is the input that it has read and not yet used, and `eof`
says whether `std::cin` has found the end of its input. -/
structure Proc where
  parent : Option Nat
  origin : Origin
  stdin : Stdin
  buffer : List UInt8
  eof : Bool
  control : Control
  deriving DecidableEq

/-- A command is run. -/
structure Call where
  process : Nat
  line : Nat
  index : Nat
  deriving DecidableEq

/-- All processes that were ever started, the ones among them that nobody can
wait for any more, the input that nobody has read, and what has happened:
how many lines were parsed, by which processes, and which items were run. -/
structure Session where
  procs : List Proc
  collected : List Nat
  input : List UInt8
  lines : List Nat
  calls : List Call
  deriving DecidableEq

namespace Session

/-- Process `i` goes on as `p`, and perhaps a process is started. -/
def update (s : Session) (i : Nat) (p : Proc) (started : Option Proc) : Session :=
  { s with procs := s.procs.set i p ++ started.toList }

/-- A child of `i` has terminated, and nobody has waited for it. -/
def zombie (s : Session) (i j : Nat) : Option Termination :=
  match s.procs[j]? with
  | some ⟨some parent, _, _, _, _, .finished ending⟩ =>
    if parent = i ∧ j ∉ s.collected then some ending else none
  | _ => none

end Session

inductive Act where
  /-- More of the input of the shell is read. -/
  | refill (i count : Nat)
  /-- These bytes are read where the standard input was replaced, or without bytes
  its end. What there is to read is left open. -/
  | receive (i : Nat) (bytes : List UInt8)
  /-- A line is taken. The files and descriptors at that time are left open. -/
  | getline (i : Nat) (w : World)
  /-- The loop of `run_sequence` looks at an item. -/
  | item (i : Nat)
  | execSucceeds (i : Nat)
  | execFails (i : Nat)
  /-- A program ends. -/
  | terminate (i : Nat) (ending : Termination)
  /-- `wait` takes a child. -/
  | wait (i j : Nat)
  /-- `wait` fails, because there is no child. -/
  | noChild (i : Nat)
  /-- `child_end_handler` takes all children that have terminated. -/
  | deliver (i : Nat)

/-- What `std::getline` finds. -/
inductive Found where
  | more
  | endOfFile
  /-- A line, which ends with the input if `eof` is set. -/
  | line (cmdLine rest : List UInt8) (eof : Bool)
  deriving DecidableEq

/-- There may be more to read, when this much of the input of the shell is left. -/
def Stdin.hasMore (stdin : Stdin) (input : List UInt8) : Bool :=
  match stdin with
  | .shared => input ≠ []
  | .replaced => true
  | .ended => false

/-- The next line, from what the process has read and what is left to read. -/
def nextLine (p : Proc) (input : List UInt8) : Found :=
  if p.eof then .endOfFile
  else
    match Lines.cut 10 p.buffer with
    | some (cmdLine, rest) => .line cmdLine rest false
    | none =>
      if p.stdin.hasMore input then .more
      else if p.buffer = [] then .endOfFile
      else .line p.buffer [] true

/-- The last item of the sequence is `&`. -/
def endsInBackground (operands : List Item) : Bool :=
  operands.getLast? == some (.op .runInBackground)

/-- `execute_line`. -/
def executeLine (s : Session) (i : Nat) (p : Proc) (cmdLine : List UInt8) (w : World) :
    Option Session :=
  let s' := { s with lines := s.lines ++ [i] }
  match tokenizeLine cmdLine with
  | [] => some (s'.update i p none)
  | tokens => do
    let (operands, _) ← buildCommandSequence tokens w
    if endsInBackground operands then
      let seq := ⟨s.lines.length, true, 0, operands⟩
      some (s'.update i p
        (some ⟨some i, .background, p.stdin, p.buffer, p.eof, .sequence seq (-1)⟩))
    else
      let seq := ⟨s.lines.length, false, 0, operands⟩
      some (s'.update i { p with control := .sequence seq (-1) } none)

/-- The connective ends the loop of `run_sequence`. -/
def breaks (nextOp : OpType) (exitCode : Int) : Bool :=
  (nextOp == .or && exitCode == 0) || (nextOp == .and && exitCode != 0)

/-- One step of one process. -/
def step (s : Session) : Act → Option Session
  | .refill i count => do
    let p ← s.procs[i]?
    match p.control, p.stdin, nextLine p s.input with
    | .getline, .shared, .more =>
      some ({ s with input := s.input.drop (count + 1) }.update i
        { p with buffer := p.buffer ++ s.input.take (count + 1) } none)
    | _, _, _ => none
  | .receive i bytes => do
    let p ← s.procs[i]?
    match p.control, p.stdin, nextLine p s.input with
    | .getline, .replaced, .more =>
      let stdin := if bytes = [] then .ended else .replaced
      some (s.update i { p with stdin := stdin, buffer := p.buffer ++ bytes } none)
    | _, _, _ => none
  | .getline i w => do
    let p ← s.procs[i]?
    match p.control, nextLine p s.input with
    | .getline, .endOfFile => some (s.update i { p with control := .finished (.exited 0) } none)
    | .getline, .line cmdLine rest eof =>
      if cmdLine = text "quit" then
        some (s.update i { p with buffer := rest, control := .finished (.exited 0) } none)
      else executeLine s i { p with buffer := rest, eof := eof } cmdLine w
    | _, _ => none
  | .item i => do
    let p ← s.procs[i]?
    match p.control with
    | .sequence seq exitCode =>
      match seq.operands with
      | [] =>
        let control := if seq.background then .finished (.exited 0) else .getline
        some (s.update i { p with control := control } none)
      | .cmd item :: operands =>
        let s' : Session := { s with calls := s.calls ++ [⟨i, seq.line, seq.index⟩] }
        some (s'.update i
          { p with control := .waiting (seq.next operands) item }
          (some ⟨some i, .command seq.line seq.index, p.stdin.ofItem item, p.buffer, p.eof,
            .child (seq.next operands) item⟩))
      | .op nextOp :: operands =>
        let left := if breaks nextOp exitCode then [] else operands
        some (s.update i { p with control := .sequence (seq.next left) exitCode } none)
    | _ => none
  | .execSucceeds i => do
    let p ← s.procs[i]?
    match p.control with
    | .child _ _ => some (s.update i { p with control := .replaced } none)
    | _ => none
  | .execFails i => do
    let p ← s.procs[i]?
    match p.control with
    | .child seq item =>
      some (s.update i { p with control := .sequence seq item.getExitCode } none)
    | _ => none
  | .terminate i ending => do
    let p ← s.procs[i]?
    match p.control with
    | .replaced => some (s.update i { p with control := .finished ending } none)
    | _ => none
  | .wait i j => do
    let p ← s.procs[i]?
    match p.control, s.zombie i j with
    | .waiting seq item, some ending =>
      let code := { item with status := ending.status }.getExitCode
      some ({ s with collected := j :: s.collected }.update i
        { p with control := .sequence seq code } none)
    | _, _ => none
  | .noChild i => do
    let p ← s.procs[i]?
    match p.control with
    | .waiting seq item =>
      if ∀ j < s.procs.length, j ∉ s.collected → (s.procs[j]?.bind Proc.parent) ≠ some i then
        some (s.update i { p with control := .sequence seq item.getExitCode } none)
      else none
    | _ => none
  | .deliver i => do
    let p ← s.procs[i]?
    match p.control with
    | .replaced | .finished _ => none
    | _ =>
      let ended := (List.range s.procs.length).filter fun j => (s.zombie i j).isSome
      some { s with collected := ended ++ s.collected }

/-- The shell is started with this input. -/
def Session.start (input : List UInt8) : Session :=
  ⟨[⟨none, .shell, .shared, [], false, .getline⟩], [], input, [], []⟩

/-- Every item is run at most once, and no process that was made to run a
command runs an item or executes a line. -/
def OneInterpreter (s : Session) : Prop :=
  (s.calls.map fun c => (c.line, c.index)).Nodup ∧
    ∀ i (p : Proc), s.procs[i]? = some p → p.origin.isCommand = true →
      (∀ c ∈ s.calls, c.process ≠ i) ∧ i ∉ s.lines

/-- `run_sequence` runs nothing more of what is left of a sequence. -/
def settled : List Item → (exitCode : Int) → Bool
  | [], _ => true
  | .cmd _ :: _, _ => false
  | .op nextOp :: operands, exitCode => breaks nextOp exitCode || settled operands exitCode

/-- Where `execvp` fails, nothing is left of the sequence. Where the child of a
command is back in the loop of `main`, no line is left but `quit`. -/
def NothingLeft (s : Session) : Act → Prop
  | .execFails i => ∀ p seq item, s.procs[i]? = some p → p.control = .child seq item →
      settled seq.operands item.getExitCode = true
  | .getline i _ => ∀ p cmdLine rest eof, s.procs[i]? = some p → p.origin.isCommand = true →
      nextLine p s.input = .line cmdLine rest eof → cmdLine = text "quit"
  | _ => True

/-! ## What one step does -/

section Steps

variable {s t : Session} {i : Nat}

theorem update_getElem {p q : Proc} {started : Option Proc} {j : Nat} (here : i < s.procs.length)
    (there : (s.update i p started).procs[j]? = some q) :
    (j = i ∧ q = p) ∨ (j ≠ i ∧ s.procs[j]? = some q) ∨
      (j = s.procs.length ∧ started = some q) := by
  rw [Session.update, List.getElem?_append, List.length_set] at there
  split at there
  · by_cases same : j = i
    · subst same
      rw [List.getElem?_set_self here] at there
      exact Or.inl ⟨rfl, (Option.some.inj there).symm⟩
    · rw [List.getElem?_set_ne (Ne.symm same)] at there
      exact Or.inr (Or.inl ⟨same, there⟩)
  · rename_i outside
    refine Or.inr (Or.inr ?_)
    cases started with
    | none => cases there
    | some r =>
        obtain ⟨less, same⟩ := List.getElem?_eq_some_iff.mp there
        have zero : j - s.procs.length = 0 := by
          simp only [Option.toList_some, List.length_singleton] at less
          omega
        simp only [zero] at same
        exact ⟨by omega, congrArg some same⟩

/-- The sequence that a process is in. -/
def Control.pending : Control → Option Sequence
  | .sequence seq _ | .child seq _ | .waiting seq _ => some seq
  | .getline | .replaced | .finished _ => none

/-- No command that is left will be run. -/
def Control.Quiet : Control → Prop
  | .sequence seq exitCode => settled seq.operands exitCode = true
  | .waiting _ _ => False
  | .getline | .child _ _ | .replaced | .finished _ => True

/-- A command that is left will be run. -/
def Control.Restless : Control → Prop
  | .sequence seq exitCode => settled seq.operands exitCode = false
  | .getline | .child _ _ | .waiting _ _ | .replaced | .finished _ => False

/-- What `run_sequence` and `main` do between items and lines keeps a process in
its sequence, or takes it out. -/
structure Onward (s : Session) (a : Act) (c c' : Control) : Prop where
  pending : ∀ seq', c'.pending = some seq' →
    ∃ seq, c.pending = some seq ∧ seq'.line = seq.line ∧ seq.index ≤ seq'.index
  quiet : NothingLeft s a → c.Quiet → c'.Quiet
  restless : c.Restless → c'.Restless
  child : ∀ seq item, c' = .child seq item → c = .child seq item

namespace Onward

variable {a : Act} {c c' : Control}

theorem refl (c : Control) : Onward s a c c :=
  ⟨fun seq found => ⟨seq, found, rfl, Nat.le_refl _⟩, fun _ => id, id, fun _ _ => id⟩

/-- Out of the sequence. -/
theorem idle (done : ¬ c.Restless) (none : c'.pending = none) : Onward s a c c' where
  pending seq found := by
    rw [none] at found
    cases found
  quiet _ _ := by
    cases c' with
    | sequence | child | waiting => cases none
    | getline | replaced | finished => trivial
  restless h := absurd h done
  child seq item same := by
    rw [same] at none
    cases none

/-- Over an operator. -/
theorem operator {seq : Sequence} {nextOp : OpType} {operands : List Item} (exitCode : Int)
    (first : seq.operands = .op nextOp :: operands) :
    Onward s a (.sequence seq exitCode)
      (.sequence (seq.next (if breaks nextOp exitCode then [] else operands)) exitCode) where
  pending _ found := by
    cases found
    exact ⟨seq, rfl, rfl, Nat.le_succ _⟩
  quiet _ h := by
    simp only [Control.Quiet, first, settled, Bool.or_eq_true] at h
    show settled (if breaks nextOp exitCode then [] else operands) exitCode = true
    split
    · rfl
    · exact h.resolve_left ‹_›
  restless h := by
    simp only [Control.Restless, first, settled, Bool.or_eq_false_iff] at h
    show settled (if breaks nextOp exitCode then [] else operands) exitCode = false
    rw [h.1]
    exact h.2
  child _ _ same := by cases same

/-- Back from `wait`. -/
theorem waited (seq : Sequence) (item : CommandItem) (exitCode : Int) :
    Onward s a (.waiting seq item) (.sequence seq exitCode) :=
  ⟨fun _ found => ⟨seq, rfl, by cases found; exact ⟨rfl, Nat.le_refl _⟩⟩, fun _ h => h.elim,
    fun h => h.elim, nofun⟩

end Onward

/-- A process runs an item. -/
structure Runs (s : Session) (i : Nat) (p : Proc) (seq : Sequence) (exitCode : Int)
    (item : CommandItem) (operands : List Item) : Prop where
  there : s.procs[i]? = some p
  control : p.control = .sequence seq exitCode
  operands : seq.operands = .cmd item :: operands

/-- A process executes a line. -/
structure Executes (s : Session) (i : Nat) (p : Proc) (cmdLine rest : List UInt8) (eof : Bool) :
    Prop where
  there : s.procs[i]? = some p
  control : p.control = .getline
  next : nextLine p s.input = .line cmdLine rest eof
  other : cmdLine ≠ text "quit"

/-- What a step does. -/
inductive Effect (s : Session) (a : Act) : Session → Prop where
  | moves {i : Nat} {p p' : Proc} {collected : List Nat} {input : List UInt8}
      (there : s.procs[i]? = some p) (same : p'.origin = p.origin)
      (onward : Onward s a p.control p'.control) :
      Effect s a ({ s with collected := collected, input := input }.update i p' none)
  | runs {i : Nat} {p : Proc} {seq : Sequence} {exitCode : Int} {item : CommandItem}
      {operands : List Item} (h : Runs s i p seq exitCode item operands) :
      Effect s a (Session.update { s with calls := s.calls ++ [⟨i, seq.line, seq.index⟩] } i
        { p with control := .waiting (seq.next operands) item }
        (some ⟨some i, .command seq.line seq.index, p.stdin.ofItem item, p.buffer, p.eof,
          .child (seq.next operands) item⟩))
  | executes {i : Nat} {p : Proc} {cmdLine rest : List UInt8} {eof : Bool} {w : World}
      {t : Session} (h : Executes s i p cmdLine rest eof) (same : a = .getline i w)
      (taken : executeLine s i { p with buffer := rest, eof := eof } cmdLine w = some t) :
      Effect s a t

/-- A process that stays as it is. -/
theorem Effect.stays {a : Act} {p : Proc} (there : s.procs[i]? = some p) (collected : List Nat) :
    Effect s a { s with collected := collected } := by
  obtain ⟨less, same⟩ := List.getElem?_eq_some_iff.mp there
  have whole : s.procs.set i p ++ [] = s.procs := by
    rw [List.append_nil, ← same, List.set_getElem_self]
  have moves : Effect s a ({ s with collected := collected, input := s.input }.update i p none) :=
    .moves there rfl (.refl _)
  rw [Session.update] at moves
  simp only [Option.toList_none, whole] at moves
  exact moves

theorem effect {a : Act} (taken : step s a = some t) : Effect s a t := by
  cases a with
  | refill i count =>
      simp only [step, Option.bind_eq_bind, Option.bind_eq_some_iff] at taken
      obtain ⟨p, there, taken⟩ := taken
      split at taken
      · cases taken
        exact .moves there rfl (.refl _)
      · cases taken
  | receive i bytes =>
      simp only [step, Option.bind_eq_bind, Option.bind_eq_some_iff] at taken
      obtain ⟨p, there, taken⟩ := taken
      split at taken
      · cases taken
        exact .moves there rfl (.refl _)
      · cases taken
  | getline i w =>
      simp only [step, Option.bind_eq_bind, Option.bind_eq_some_iff] at taken
      obtain ⟨p, there, taken⟩ := taken
      split at taken
      · rename_i control _
        cases taken
        exact .moves there rfl (.idle (by rw [control]; exact id) rfl)
      · rename_i cmdLine rest eof control next
        split at taken
        · cases taken
          exact .moves there rfl (.idle (by rw [control]; exact id) rfl)
        · rename_i other
          exact .executes ⟨there, control, next, other⟩ rfl taken
      · cases taken
  | item i =>
      simp only [step, Option.bind_eq_bind, Option.bind_eq_some_iff] at taken
      obtain ⟨p, there, taken⟩ := taken
      split at taken
      · rename_i seq exitCode control
        split at taken
        · rename_i empty
          cases taken
          refine .moves there rfl (.idle ?_ (by split <;> rfl))
          rw [control, Control.Restless, empty]
          exact Bool.noConfusion
        · rename_i item operands first
          cases taken
          exact .runs ⟨there, control, first⟩
        · rename_i nextOp operands first
          cases taken
          exact .moves there rfl (control ▸ .operator exitCode first)
      · cases taken
  | execSucceeds i =>
      simp only [step, Option.bind_eq_bind, Option.bind_eq_some_iff] at taken
      obtain ⟨p, there, taken⟩ := taken
      split at taken
      · rename_i control
        cases taken
        exact .moves there rfl (.idle (by rw [control]; exact id) rfl)
      · cases taken
  | execFails i =>
      simp only [step, Option.bind_eq_bind, Option.bind_eq_some_iff] at taken
      obtain ⟨p, there, taken⟩ := taken
      split at taken
      · rename_i seq item control
        cases taken
        refine .moves there rfl ⟨?_, ?_, ?_, nofun⟩
        · rintro _ ⟨⟩
          exact ⟨seq, congrArg Control.pending control, rfl, Nat.le_refl _⟩
        · exact fun left _ => left p seq item there control
        · exact fun h => (control ▸ h : Control.Restless (.child seq item)).elim
      · cases taken
  | terminate i ending =>
      simp only [step, Option.bind_eq_bind, Option.bind_eq_some_iff] at taken
      obtain ⟨p, there, taken⟩ := taken
      split at taken
      · rename_i control
        cases taken
        exact .moves there rfl (.idle (by rw [control]; exact id) rfl)
      · cases taken
  | wait i j =>
      simp only [step, Option.bind_eq_bind, Option.bind_eq_some_iff] at taken
      obtain ⟨p, there, taken⟩ := taken
      split at taken
      · rename_i seq item ending control _
        cases taken
        exact .moves there rfl (control ▸ .waited seq item _)
      · cases taken
  | noChild i =>
      simp only [step, Option.bind_eq_bind, Option.bind_eq_some_iff] at taken
      obtain ⟨p, there, taken⟩ := taken
      split at taken
      · rename_i seq item control
        split at taken
        · cases taken
          exact .moves there rfl (control ▸ .waited seq item _)
        · cases taken
      · cases taken
  | deliver i =>
      simp only [step, Option.bind_eq_bind, Option.bind_eq_some_iff] at taken
      obtain ⟨p, there, taken⟩ := taken
      split at taken
      · cases taken
      · cases taken
      · cases taken
        exact .stays there _

/-- `execute_line` starts at most one sequence: in the process itself, or in one
that it starts in the background. -/
theorem executeLine_inv {p : Proc} {cmdLine : List UInt8} {w : World}
    (taken : executeLine s i p cmdLine w = some t) :
    ∃ (control : Control) (started : Option Proc),
      t = Session.update { s with lines := s.lines ++ [i] } i { p with control := control }
          started ∧
      ((control = p.control ∧ started = none) ∨
        (∃ operands, control = p.control ∧ started = some ⟨some i, .background, p.stdin, p.buffer,
          p.eof, .sequence ⟨s.lines.length, true, 0, operands⟩ (-1)⟩) ∨
        ∃ operands, control = .sequence ⟨s.lines.length, false, 0, operands⟩ (-1) ∧
          started = none) := by
  rw [executeLine] at taken
  split at taken
  · cases taken
    exact ⟨p.control, none, rfl, Or.inl ⟨rfl, rfl⟩⟩
  · simp only [Option.bind_eq_bind, Option.bind_eq_some_iff] at taken
    obtain ⟨⟨operands, w'⟩, _, taken⟩ := taken
    split at taken
    · cases taken
      exact ⟨p.control, _, rfl, Or.inr (Or.inl ⟨operands, rfl, rfl⟩)⟩
    · cases taken
      exact ⟨_, none, rfl, Or.inr (Or.inr ⟨operands, rfl, rfl⟩)⟩

end Steps

/-! ## Sessions in which nothing is left for the children -/

/-- The sequence that a process is to run, unless it was made to run a command. -/
def Proc.owned (p : Proc) : Option Sequence :=
  if p.origin.isCommand then none else p.control.pending

/-- What holds of every process: it has run the items of its sequence that it is
past, or has run nothing if it was made to run a command. -/
structure Proc.Fits (calls : List Call) (lines : List Nat) (i : Nat) (p : Proc) : Prop where
  quiet : p.origin.isCommand = true → p.control.Quiet
  silent : p.origin.isCommand = true → (∀ c ∈ calls, c.process ≠ i) ∧ i ∉ lines
  parsed : ∀ seq, p.owned = some seq → seq.line < lines.length
  ahead : ∀ seq, p.owned = some seq → ∀ c ∈ calls, c.line = seq.line → c.index < seq.index

/-- The process is to run what is left of the line. -/
def Session.Owns (s : Session) (i line : Nat) : Prop :=
  ∃ (p : Proc) (seq : Sequence), s.procs[i]? = some p ∧ p.owned = some seq ∧ seq.line = line

/-- The processes run different lines, and every item has been run once at most. -/
structure Orderly (s : Session) : Prop where
  fits : ∀ (i : Nat) (p : Proc), s.procs[i]? = some p → p.Fits s.calls s.lines i
  apart : ∀ i j line, s.Owns i line → s.Owns j line → i = j
  known : ∀ c ∈ s.calls, c.process < s.procs.length
  heard : ∀ i ∈ s.lines, i < s.procs.length
  parsed : ∀ c ∈ s.calls, c.line < s.lines.length
  once : (s.calls.map fun c => (c.line, c.index)).Nodup

namespace Orderly

variable {s t : Session} {i : Nat} {p : Proc}

theorem start (input : List UInt8) : Orderly (.start input) where
  fits j q there := by
    cases j with
    | zero =>
        cases there
        exact ⟨nofun, nofun, nofun, nofun⟩
    | succ j => cases there
  apart j k line first _ := by
    obtain ⟨q, seq, there, owned, _⟩ := first
    cases j with
    | zero =>
        cases there
        cases owned
    | succ j => cases there
  known := nofun
  heard := nofun
  parsed := nofun
  once := List.nodup_nil

theorem length_update (s : Session) (i : Nat) (p : Proc) (started : Option Proc) :
    (s.update i p started).procs.length = s.procs.length + started.toList.length := by
  rw [Session.update, List.length_append, List.length_set]

/-- A process that goes on in its sequence, or leaves it, owns no other line. -/
theorem owned_onward {a : Act} {p' : Proc} (same : p'.origin = p.origin)
    (onward : Onward s a p.control p'.control) {seq' : Sequence} (owned : p'.owned = some seq') :
    ∃ seq, p.owned = some seq ∧ seq'.line = seq.line ∧ seq.index ≤ seq'.index := by
  rw [Proc.owned, same] at owned
  split at owned
  · cases owned
  · rename_i other
    rw [Proc.owned, if_neg other]
    exact onward.pending seq' owned

/-- A process goes on in its sequence or leaves it. -/
theorem moves {a : Act} (h : Orderly s) {p' : Proc} (there : s.procs[i]? = some p)
    (same : p'.origin = p.origin) {collected : List Nat} {input : List UInt8}
    (onward : Onward s a p.control p'.control) (nothing : NothingLeft s a) :
    Orderly ({ s with collected := collected, input := input }.update i p' none) := by
  have here : i < s.procs.length := (List.getElem?_eq_some_iff.mp there).1
  have fits := h.fits i p there
  refine ⟨?_, ?_, ?_, ?_, h.parsed, h.once⟩
  · intro j q inside
    rcases update_getElem here inside with ⟨rfl, rfl⟩ | ⟨_, old⟩ | ⟨_, none⟩
    · refine ⟨fun command => onward.quiet nothing (fits.quiet (same ▸ command)),
        fun command => fits.silent (same ▸ command), ?_, ?_⟩
      · intro seq' owned
        obtain ⟨seq, owned', line, _⟩ := owned_onward same onward owned
        rw [line]
        exact fits.parsed seq owned'
      · intro seq' owned c call line'
        obtain ⟨seq, owned', line, index⟩ := owned_onward same onward owned
        exact Nat.lt_of_lt_of_le (fits.ahead seq owned' c call (line'.trans line)) index
    · exact h.fits j q old
    · cases none
  · have old : ∀ {j line},
        ({ s with collected := collected, input := input }.update i p' none).Owns j line →
          s.Owns j line := by
      rintro j _ ⟨q, seq, inside, owned, rfl⟩
      rcases update_getElem here inside with ⟨rfl, rfl⟩ | ⟨_, old⟩ | ⟨_, none⟩
      · obtain ⟨seq', owned', line, _⟩ := owned_onward same onward owned
        exact ⟨p, seq', there, owned', line.symm⟩
      · exact ⟨q, seq, old, owned, rfl⟩
      · cases none
    exact fun j k line first second => h.apart j k line (old first) (old second)
  · intro c call
    rw [length_update]
    exact Nat.lt_add_right _ (h.known c call)
  · intro j line
    rw [length_update]
    exact Nat.lt_add_right _ (h.heard j line)

/-- A process that was not made to run a command runs an item. -/
theorem runs (h : Orderly s) {seq : Sequence} {exitCode : Int} {item : CommandItem}
    {operands : List Item} (run : Runs s i p seq exitCode item operands) :
    Orderly (Session.update { s with calls := s.calls ++ [⟨i, seq.line, seq.index⟩] } i
      { p with control := .waiting (seq.next operands) item }
      (some ⟨some i, .command seq.line seq.index, p.stdin.ofItem item, p.buffer, p.eof,
        .child (seq.next operands) item⟩)) := by
  have here : i < s.procs.length := (List.getElem?_eq_some_iff.mp run.there).1
  have fits := h.fits i p run.there
  have shell : p.origin.isCommand = false := by
    rw [Bool.eq_false_iff]
    intro command
    have quiet := fits.quiet command
    rw [run.control, Control.Quiet, run.operands] at quiet
    cases quiet
  have owner : p.owned = some seq := by
    rw [Proc.owned, shell, run.control]
    rfl
  have owner' : Proc.owned { p with control := .waiting (seq.next operands) item } =
      some (seq.next operands) := by
    rw [Proc.owned, shell]
    rfl
  refine ⟨?_, ?_, ?_, ?_, ?_, ?_⟩
  · intro j q inside
    rcases update_getElem here inside with ⟨rfl, rfl⟩ | ⟨other, old⟩ | ⟨rfl, new⟩
    · refine ⟨fun command => absurd (shell.symm.trans command) Bool.noConfusion,
        fun command => absurd (shell.symm.trans command) Bool.noConfusion, ?_, ?_⟩
      · rw [owner']
        rintro _ ⟨⟩
        exact fits.parsed seq owner
      · rw [owner']
        rintro _ ⟨⟩ c call line
        rcases List.mem_append.mp call with call | call
        · exact Nat.lt_succ_of_lt (fits.ahead seq owner c call line)
        · rw [List.mem_singleton.mp call]
          exact Nat.lt_succ_self _
    · have fits' := h.fits j q old
      refine ⟨fits'.quiet, ?_, fits'.parsed, ?_⟩
      · intro command
        refine ⟨?_, (fits'.silent command).2⟩
        intro c call
        rcases List.mem_append.mp call with call | call
        · exact (fits'.silent command).1 c call
        · rw [List.mem_singleton.mp call]
          exact Ne.symm other
      · intro seq' owned c call line
        rcases List.mem_append.mp call with call | call
        · exact fits'.ahead seq' owned c call line
        · rw [List.mem_singleton.mp call] at line
          exact absurd (h.apart i j seq.line ⟨p, seq, run.there, owner, rfl⟩
            ⟨q, seq', old, owned, line.symm⟩).symm other
    · cases new
      refine ⟨fun _ => trivial, fun _ => ⟨?_, ?_⟩, nofun, nofun⟩
      · intro c call same
        rcases List.mem_append.mp call with call | call
        · exact absurd (h.known c call) (Nat.not_lt.mpr (Nat.le_of_eq same.symm))
        · rw [List.mem_singleton.mp call] at same
          exact absurd here (Nat.not_lt.mpr (Nat.le_of_eq same.symm))
      · exact fun line => absurd (h.heard _ line) (Nat.lt_irrefl _)
  · have old : ∀ {j line}, (Session.update
        { s with calls := s.calls ++ [⟨i, seq.line, seq.index⟩] } i
        { p with control := .waiting (seq.next operands) item }
        (some ⟨some i, .command seq.line seq.index, p.stdin.ofItem item, p.buffer, p.eof,
          .child (seq.next operands) item⟩)).Owns j line → s.Owns j line := by
      rintro j _ ⟨q, seq', inside, owned, rfl⟩
      rcases update_getElem here inside with ⟨rfl, rfl⟩ | ⟨_, old⟩ | ⟨_, new⟩
      · cases owner'.symm.trans owned
        exact ⟨p, seq, run.there, owner, rfl⟩
      · exact ⟨q, seq', old, owned, rfl⟩
      · cases new
        cases owned
    exact fun j k line first second => h.apart j k line (old first) (old second)
  · intro c call
    rw [length_update]
    rcases List.mem_append.mp call with call | call
    · exact Nat.lt_add_right _ (h.known c call)
    · rw [List.mem_singleton.mp call]
      exact Nat.lt_add_right _ here
  · intro j line
    rw [length_update]
    exact Nat.lt_add_right _ (h.heard j line)
  · intro c call
    rcases List.mem_append.mp call with call | call
    · exact h.parsed c call
    · rw [List.mem_singleton.mp call]
      exact fits.parsed seq owner
  · show ((s.calls ++ [_]).map _).Nodup
    rw [List.map_append, List.nodup_append]
    refine ⟨h.once, List.nodup_singleton _, ?_⟩
    rintro x old y new rfl
    obtain ⟨c, call, same⟩ := List.mem_map.mp old
    rw [List.map_singleton, List.mem_singleton] at new
    obtain ⟨line, index⟩ := Prod.mk.inj (same.trans new)
    have less := fits.ahead seq owner c call line
    exact absurd index (Nat.ne_of_lt less)

theorem owns_parsed (h : Orderly s) {line : Nat} (owns : s.Owns i line) :
    line < s.lines.length := by
  obtain ⟨q, seq, there, owned, rfl⟩ := owns
  exact (h.fits i q there).parsed seq owned

/-- A process that was not made to run a command executes a line. -/
theorem executes (h : Orderly s) (there : s.procs[i]? = some p)
    (shell : p.origin.isCommand = false) {control : Control} {started : Option Proc}
    (buffer : List UInt8) (eof : Bool)
    (own : ∀ seq, control.pending = some seq → seq.line = s.lines.length ∧ started = none)
    (other : ∀ q, started = some q → q.origin.isCommand = false ∧
      ∀ seq, q.control.pending = some seq → seq.line = s.lines.length) :
    Orderly (Session.update { s with lines := s.lines ++ [i] } i
      { p with buffer := buffer, eof := eof, control := control } started) := by
  have here : i < s.procs.length := (List.getElem?_eq_some_iff.mp there).1
  have pending : ∀ {q : Proc} {seq : Sequence}, q.owned = some seq →
      q.control.pending = some seq := by
    intro q seq owned
    rw [Proc.owned] at owned
    split at owned
    · cases owned
    · exact owned
  have new : ∀ {j q}, q.origin.isCommand = false →
      (∀ seq, q.control.pending = some seq → seq.line = s.lines.length) →
      Proc.Fits s.calls (s.lines ++ [i]) j q := by
    intro j q shell lines
    refine ⟨fun command => absurd (shell.symm.trans command) Bool.noConfusion,
      fun command => absurd (shell.symm.trans command) Bool.noConfusion, ?_, ?_⟩
    · intro seq owned
      rw [lines seq (pending owned), List.length_append]
      exact Nat.lt_succ_self _
    · intro seq owned c call line
      rw [lines seq (pending owned)] at line
      exact absurd (h.parsed c call) (Nat.not_lt.mpr (Nat.le_of_eq line.symm))
  refine ⟨?_, ?_, ?_, ?_, ?_, h.once⟩
  · intro j q inside
    rcases update_getElem here inside with ⟨rfl, rfl⟩ | ⟨apart, old⟩ | ⟨_, same⟩
    · exact new shell fun seq found => (own seq found).1
    · have fits := h.fits j q old
      refine ⟨fits.quiet, fun command => ⟨(fits.silent command).1, ?_⟩, ?_, fits.ahead⟩
      · intro line
        rcases List.mem_append.mp line with line | line
        · exact (fits.silent command).2 line
        · exact apart (List.mem_singleton.mp line)
      · intro seq owned
        show _ < (s.lines ++ [i]).length
        rw [List.length_append]
        exact Nat.lt_add_right _ (fits.parsed seq owned)
    · exact new (other q same).1 (other q same).2
  · have old : ∀ {j line}, (Session.update { s with lines := s.lines ++ [i] } i
        { p with buffer := buffer, eof := eof, control := control } started).Owns j line →
        (s.Owns j line ∧ line < s.lines.length) ∨
          (line = s.lines.length ∧ j = if started.isNone then i else s.procs.length) := by
      rintro j _ ⟨q, seq, inside, owned, rfl⟩
      rcases update_getElem here inside with ⟨rfl, rfl⟩ | ⟨_, old⟩ | ⟨rfl, same⟩
      · obtain ⟨line, none⟩ := own seq (pending owned)
        refine Or.inr ⟨line, ?_⟩
        rw [none]
        rfl
      · have owns : s.Owns j seq.line := ⟨q, seq, old, owned, rfl⟩
        exact Or.inl ⟨owns, h.owns_parsed owns⟩
      · refine Or.inr ⟨(other q same).2 seq (pending owned), ?_⟩
        rw [same]
        rfl
    intro j k line first second
    rcases old first with ⟨first, less⟩ | ⟨rfl, same⟩
    · rcases old second with ⟨second, _⟩ | ⟨rfl, _⟩
      · exact h.apart j k line first second
      · exact absurd less (Nat.lt_irrefl _)
    · rcases old second with ⟨_, less⟩ | ⟨_, same'⟩
      · exact absurd less (Nat.lt_irrefl _)
      · exact same.trans same'.symm
  · intro c call
    rw [length_update]
    exact Nat.lt_add_right _ (h.known c call)
  · intro j line
    rw [length_update]
    rcases List.mem_append.mp line with line | line
    · exact Nat.lt_add_right _ (h.heard j line)
    · rw [List.mem_singleton.mp line]
      exact Nat.lt_add_right _ here
  · intro c call
    show _ < (s.lines ++ [i]).length
    rw [List.length_append]
    exact Nat.lt_add_right _ (h.parsed c call)

/-- The step lemma. -/
theorem step (h : Orderly s) {a : Act} (nothing : NothingLeft s a)
    (taken : step s a = some t) : Orderly t := by
  cases effect taken with
  | moves there origin onward => exact h.moves there origin onward nothing
  | runs run => exact h.runs run
  | @executes i p cmdLine rest eof w _ line same taken =>
      have shell : p.origin.isCommand = false := by
        rw [Bool.eq_false_iff]
        intro command
        rw [same] at nothing
        exact line.other (nothing p cmdLine rest eof line.there command line.next)
      obtain ⟨control, started, rfl, kinds⟩ := executeLine_inv taken
      apply h.executes line.there shell
      · intro seq found
        rcases kinds with ⟨rfl, _⟩ | ⟨_, rfl, _⟩ | ⟨operands, rfl, none⟩
        · rw [line.control] at found
          cases found
        · rw [line.control] at found
          cases found
        · cases found
          exact ⟨rfl, none⟩
      · rintro q rfl
        rcases kinds with ⟨_, none⟩ | ⟨operands, _, same⟩ | ⟨_, _, none⟩
        · cases none
        · cases same
          refine ⟨rfl, ?_⟩
          rintro seq ⟨⟩
          rfl
        · cases none

theorem one (h : Orderly s) : OneInterpreter s :=
  ⟨h.once, fun i p there command => (h.fits i p there).silent command⟩

end Orderly

/-! ## Sessions in which something is left -/

/-- A process that was made to run a command has interpreted the input, or will
do so. -/
inductive Astray (s : Session) : Prop where
  | interpreted {i : Nat} {p : Proc} (there : s.procs[i]? = some p)
      (command : p.origin.isCommand = true) (done : (∃ c ∈ s.calls, c.process = i) ∨ i ∈ s.lines)
  | restless {i : Nat} {p : Proc} (there : s.procs[i]? = some p)
      (command : p.origin.isCommand = true) (restless : p.control.Restless)

/-- Only processes that were made to run a command are in front of `execvp`. -/
def Childlike (s : Session) : Prop :=
  ∀ (i : Nat) (p : Proc) seq item, s.procs[i]? = some p → p.control = .child seq item →
    p.origin.isCommand = true

section Steps

variable {s t : Session} {i : Nat} {p p' : Proc}

theorem update_self (here : i < s.procs.length) (started : Option Proc) :
    (s.update i p started).procs[i]? = some p := by
  rw [Session.update, List.getElem?_append_left (by rwa [List.length_set])]
  exact List.getElem?_set_self here

theorem update_other {j : Nat} {q : Proc} (there : s.procs[j]? = some q) (other : j ≠ i)
    (started : Option Proc) : (s.update i p started).procs[j]? = some q := by
  have here : j < s.procs.length := (List.getElem?_eq_some_iff.mp there).1
  rw [Session.update, List.getElem?_append_left (by rwa [List.length_set])]
  rw [List.getElem?_set_ne (Ne.symm other)]
  exact there

namespace Childlike

theorem step {a : Act} (h : Childlike s) (taken : step s a = some t) : Childlike t := by
  cases effect taken with
  | moves there origin onward =>
      intro j q seq item inside child
      have here := (List.getElem?_eq_some_iff.mp there).1
      rcases update_getElem here inside with ⟨rfl, rfl⟩ | ⟨_, old⟩ | ⟨_, none⟩
      · rw [origin]
        exact h _ _ seq item there (onward.child seq item child)
      · exact h j q seq item old child
      · cases none
  | runs run =>
      intro j q seq item inside child
      have here := (List.getElem?_eq_some_iff.mp run.there).1
      rcases update_getElem here inside with ⟨rfl, rfl⟩ | ⟨_, old⟩ | ⟨_, same⟩
      · cases child
      · exact h j q seq item old child
      · cases same
        rfl
  | executes line same taken =>
      intro j q seq item inside child
      have here := (List.getElem?_eq_some_iff.mp line.there).1
      obtain ⟨control, started, rfl, kinds⟩ := executeLine_inv taken
      have neither : control.pending = none ∨ ∃ seq code, control = .sequence seq code := by
        rcases kinds with ⟨rfl, _⟩ | ⟨_, rfl, _⟩ | ⟨operands, rfl, _⟩
        · exact Or.inl (by rw [line.control]; rfl)
        · exact Or.inl (by rw [line.control]; rfl)
        · exact Or.inr ⟨_, _, rfl⟩
      rcases update_getElem here inside with ⟨rfl, rfl⟩ | ⟨_, old⟩ | ⟨_, rfl⟩
      · obtain rfl : control = .child seq item := child
        rcases neither with none | ⟨_, _, same⟩
        · cases none
        · cases same
      · exact h j q seq item old child
      · rcases kinds with ⟨_, none⟩ | ⟨operands, _, same⟩ | ⟨_, _, none⟩
        · cases none
        · cases same
          cases child
        · cases none

end Childlike

namespace Astray

/-- A child whose `execvp` fails where something is left, or that takes a line. -/
theorem begins {a : Act} (childlike : Childlike s) (left : ¬ NothingLeft s a)
    (taken : step s a = some t) : Astray t := by
  cases a with
  | execFails i =>
      simp only [NothingLeft, not_forall] at left
      obtain ⟨p, seq, item, there, control, unsettled⟩ := left
      simp only [Interpreters.step, there, Option.bind_eq_bind, Option.bind_some, control] at taken
      cases taken
      have here := (List.getElem?_eq_some_iff.mp there).1
      exact .restless (update_self here none) (childlike i p seq item there control)
        (Bool.eq_false_iff.mpr unsettled)
  | getline i w =>
      simp only [NothingLeft, not_forall] at left
      obtain ⟨p, cmdLine, rest, eof, there, command, next, other⟩ := left
      simp only [Interpreters.step, there, Option.bind_eq_bind, Option.bind_some] at taken
      split at taken
      · rename_i same
        cases next.symm.trans same
      · rename_i cmdLine' rest' eof' _ same
        cases next.symm.trans same
        rw [if_neg other] at taken
        obtain ⟨control, started, rfl, _⟩ := executeLine_inv taken
        have here := (List.getElem?_eq_some_iff.mp there).1
        exact .interpreted (update_self here started) command
          (Or.inr (List.mem_append_right _ (List.mem_singleton.mpr rfl)))
      · cases taken
  | refill | receive | item | execSucceeds | terminate | wait | noChild | deliver =>
      exact absurd trivial left

theorem update (h : Astray s) {s' : Session} (procs : s'.procs = s.procs)
    (calls : s.calls ⊆ s'.calls) (lines : s.lines ⊆ s'.lines) (there : s.procs[i]? = some p)
    (origin : p'.origin = p.origin) (started : Option Proc)
    (stays : p.control.Restless → p'.control.Restless ∨ ∃ c ∈ s'.calls, c.process = i) :
    Astray (s'.update i p' started) := by
  have here : i < s'.procs.length := by
    rw [procs]
    exact (List.getElem?_eq_some_iff.mp there).1
  cases h with
  | @interpreted j q inside command done =>
      have done' : (∃ c ∈ s'.calls, c.process = j) ∨ j ∈ s'.lines :=
        done.imp (fun ⟨c, call, same⟩ => ⟨c, calls call, same⟩) fun line => lines line
      by_cases same : j = i
      · subst same
        cases there.symm.trans inside
        exact .interpreted (update_self here started) (origin ▸ command) done'
      · exact .interpreted (update_other (procs ▸ inside) same started) command done'
  | @restless j q inside command restless =>
      by_cases same : j = i
      · subst same
        cases there.symm.trans inside
        rcases stays restless with restless' | done
        · exact .restless (update_self here started) (origin ▸ command) restless'
        · exact .interpreted (update_self here started) (origin ▸ command) (Or.inl done)
      · exact .restless (update_other (procs ▸ inside) same started) command restless

/-- It cannot be undone. -/
theorem step {a : Act} (h : Astray s) (taken : step s a = some t) : Astray t := by
  cases effect taken with
  | moves there origin onward =>
      apply h.update
      · rfl
      · exact List.Subset.refl _
      · exact List.Subset.refl _
      · exact there
      · exact origin
      · exact fun restless => Or.inl (onward.restless restless)
  | runs run =>
      apply h.update
      · rfl
      · exact List.subset_append_left _ _
      · exact List.Subset.refl _
      · exact run.there
      · rfl
      · exact fun _ => Or.inr ⟨_, List.mem_append_right _ (List.mem_singleton.mpr rfl), rfl⟩
  | executes line same taken =>
      obtain ⟨control, started, rfl, _⟩ := executeLine_inv taken
      apply h.update
      · rfl
      · exact List.Subset.refl _
      · exact List.subset_append_left _ _
      · exact line.there
      · rfl
      · intro restless
        rw [line.control] at restless
        exact restless.elim

end Astray

end Steps

/-! ## Whole sessions -/

theorem nothing_or_astray {input : List UInt8} {acts : List Act} {s : Session}
    (ran : Run step Always (.start input) acts s) :
    Run step NothingLeft (.start input) acts s ∨ Astray s := by
  have both : (Run step NothingLeft (.start input) acts s ∨ Astray s) ∧ Childlike s := by
    apply ran.invariant fun acts s =>
      (Run step NothingLeft (.start input) acts s ∨ Astray s) ∧ Childlike s
    · refine ⟨Or.inl .nil, ?_⟩
      intro i p seq item there child
      cases i with
      | zero =>
          cases there
          cases child
      | succ i => cases there
    · rintro acts t a u ⟨so, childlike⟩ - taken
      refine ⟨?_, childlike.step taken⟩
      rcases so with nothing | astray
      · by_cases left : NothingLeft t a
        · exact Or.inl (.snoc nothing left taken)
        · exact Or.inr (.begins childlike left taken)
      · exact Or.inr (astray.step taken)
  exact both.1

/-- Only one process interprets the input, if nothing is left for a child whose
`execvp` fails. Where no such child is still in `run_sequence`, it is also
necessary. -/
theorem one_interpreter_iff {input : List UInt8} {acts : List Act} {s : Session}
    (ran : Run step Always (.start input) acts s) :
    (Run step NothingLeft (.start input) acts s → OneInterpreter s) ∧
      ((∀ p ∈ s.procs, p.origin.isCommand = true → ∀ seq code, p.control ≠ .sequence seq code) →
        OneInterpreter s → Run step NothingLeft (.start input) acts s) := by
  constructor
  · intro nothing
    have orderly : Orderly s := by
      apply nothing.invariant fun _ s => Orderly s
      · exact .start input
      · exact fun h left taken => h.step left taken
    exact orderly.one
  · intro settled one
    rcases nothing_or_astray ran with nothing | astray
    · exact nothing
    · cases astray with
      | @interpreted i p there command done =>
          obtain ⟨calls, lines⟩ := one.2 i p there command
          rcases done with ⟨c, call, same⟩ | line
          · exact absurd same (calls c call)
          · exact absurd line lines
      | @restless i p there command restless =>
          cases control : p.control with
          | sequence seq code =>
              exact absurd control (settled p (List.mem_of_getElem? there) command seq code)
          | getline | child | waiting | replaced | finished =>
              rw [control] at restless
              exact restless.elim

/-- A world without files and descriptors. -/
def bare : World := .fresh []

/-- `echo echo hi | nosuch`, where `nosuch` does not exist. -/
def echoToNosuch : List UInt8 := text "echo echo hi | nosuch" ++ [10]

/-- The child of `nosuch` has the pipe for its standard input, and executes the
line that `echo` has written there. -/
def echoToNosuchActs : List Act :=
  [.refill 0 100, .getline 0 bare, .item 0, .execSucceeds 1, .terminate 1 (.exited 0), .wait 0 1,
    .item 0, .item 0, .execFails 2, .item 2, .receive 2 (text "echo hi" ++ [10]), .getline 2 bare,
    .item 2]

theorem one_interpreter_iff_nosuch :
    ∃ s, Run step Always (.start echoToNosuch) echoToNosuchActs s ∧
      (Run step NothingLeft (.start echoToNosuch) echoToNosuchActs s → OneInterpreter s) ∧
        ((∀ p ∈ s.procs, p.origin.isCommand = true →
            ∀ seq code, p.control ≠ .sequence seq code) →
          OneInterpreter s → Run step NothingLeft (.start echoToNosuch) echoToNosuchActs s) := by
  have finished : (echoToNosuchActs.foldlM step (.start echoToNosuch)).isSome := by decide +kernel
  obtain ⟨s, last⟩ := Option.isSome_iff_exists.mp finished
  have ran : Run step Always (.start echoToNosuch) echoToNosuchActs s := .of_foldlM last
  exact ⟨s, ran, one_interpreter_iff ran⟩

/-- `nosuch && echo a`, where `nosuch` does not exist. -/
def nosuchAndEcho : List UInt8 := text "nosuch && echo a" ++ [10]

def nosuchItem : CommandItem := ⟨[text "nosuch"], -1, none, none, 0⟩

def echoItem : CommandItem := ⟨[text "echo", text "a"], -1, none, none, 0⟩

/-- The shell waits for the child of `nosuch`, with `echo a` still to run. -/
def shellWaiting : Proc :=
  ⟨none, .shell, .shared, [], false, .waiting ⟨0, false, 1, [.op .and, .cmd echoItem]⟩ nosuchItem⟩

/-- The line is parsed. -/
def parsed : Session :=
  ⟨[⟨none, .shell, .shared, [], false,
    .sequence ⟨0, false, 0, [.cmd nosuchItem, .op .and, .cmd echoItem]⟩ (-1)⟩], [], [], [0], []⟩

/-- The child of `nosuch` is back in `run_sequence`. -/
def childBack : Session :=
  ⟨[shellWaiting, ⟨some 0, .command 0 0, .shared, [], false,
    .sequence ⟨0, false, 1, [.op .and, .cmd echoItem]⟩ 0⟩], [], [], [0], [⟨0, 0, 0⟩]⟩

/-- The child of `nosuch` has started `echo a`. -/
def childWaiting : Session :=
  ⟨[shellWaiting, ⟨some 0, .command 0 0, .shared, [], false, .waiting ⟨0, false, 3, []⟩ echoItem⟩,
    ⟨some 1, .command 0 2, .shared, [], false, .child ⟨0, false, 3, []⟩ echoItem⟩], [], [], [0],
    [⟨0, 0, 0⟩, ⟨1, 0, 2⟩]⟩

/-- Both have ended. -/
def childOver : Session :=
  ⟨[shellWaiting, ⟨some 0, .command 0 0, .shared, [], false, .finished (.exited 0)⟩,
    ⟨some 1, .command 0 2, .shared, [], false, .finished (.exited 0)⟩], [2], [], [0],
    [⟨0, 0, 0⟩, ⟨1, 0, 2⟩]⟩

/-- The child of `nosuch` runs `echo a`, finds the end of the input and exits
with 0. Then the shell runs `echo a` too. -/
theorem echo_run_twice : ∃ acts s, Run step Always (.start nosuchAndEcho) acts s ∧
    s.calls = [⟨0, 0, 0⟩, ⟨1, 0, 2⟩, ⟨0, 0, 2⟩] := by
  have read : [.refill 0 100, .getline 0 bare].foldlM step (.start nosuchAndEcho) =
      some parsed := by decide +kernel
  have failed : [.item 0, .execFails 1].foldlM step parsed = some childBack := by decide +kernel
  have started : [.item 1, .item 1].foldlM step childBack = some childWaiting := by decide +kernel
  have ended : [.execSucceeds 2, .terminate 2 (.exited 0), .wait 1 2, .item 1,
      .getline 1 bare].foldlM step childWaiting = some childOver := by decide +kernel
  have again : ([.wait 0 1, .item 0, .item 0].foldlM step childOver).map Session.calls =
      some [⟨0, 0, 0⟩, ⟨1, 0, 2⟩, ⟨0, 0, 2⟩] := by decide +kernel
  obtain ⟨s, last, calls⟩ := Option.map_eq_some_iff.mp again
  have twice := (((Run.of_foldlM read).trans (.of_foldlM failed)).trans (.of_foldlM started)).trans
    (.of_foldlM ended)
  exact ⟨_, s, twice.trans (.of_foldlM last), calls⟩

/-- Not every session has one interpreter. -/
theorem not_always_one_interpreter : ¬ ∀ (input : List UInt8) (acts : List Act) (s : Session),
    Run step Always (.start input) acts s → OneInterpreter s := by
  intro always
  obtain ⟨acts, s, ran, calls⟩ := echo_run_twice
  have once := (always nosuchAndEcho acts s ran).1
  rw [calls] at once
  exact absurd once (by decide)

end Interpreters

end LisonShell
