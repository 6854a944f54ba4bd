import Technosphere.LisonShell.Pipelines
import Technosphere.LisonShell.Redirected
import Technosphere.Streams

/-!
# What a pipeline computes

The commands are programs on streams of bytes, and the pipes hold bytes. The
shell starts the commands one after another and waits for each, so a command
finds the whole output of the one before in its pipe. `pipeline_composes` says
that a pipeline computes the composition of its programs, or comes to no end
where a stream between two of them does not fit into a pipe. Where the file of
a redirection could not be opened, nothing is read and the output is lost.
-/

namespace LisonShell

open Bytes Transition Streams Pipelines

namespace Dataflow

/-! ## The shell and its children -/

/-- A child that executes a program. -/
structure Process where
  descriptors : List (Int × Stream)
  stdin : Standard
  stdout : Standard
  progress : Progress UInt8
  running : Bool

/-- The child as far as its descriptors go. -/
def Process.bare (p : Process) : Proc := ⟨p.descriptors, p.stdin, p.stdout, 0, false, 0, p.running⟩

/-- The child reads the file that it writes to. -/
def Process.readsOwn (p : Process) : Bool :=
  match p.stdin, p.stdout with
  | .redirected (.file read false), .redirected (.file written true) => read == written
  | _, _ => false

/-- The child goes on, and has read and written `q`. -/
def Process.goOn (p : Process) (q : Progress UInt8) : Process := { p with progress := q }

@[simp] theorem Process.goOn_progress (p : Process) (q : Progress UInt8) :
    (p.goOn q).progress = q :=
  rfl

/-- What the commands do, by their numbers, and how they end. -/
structure Commands where
  program : Nat → Program UInt8
  ends : Nat → Termination

/-- The shell in `run_sequence`, as in `Running`, with the bytes in the pipes.
`input` is what is left to read besides pipes, `output` what was written there. -/
structure Flow where
  operands : List Item
  exitCode : Int
  waiting : Option CommandItem
  world : World
  procs : List Process
  contents : Nat → List UInt8
  input : List UInt8
  output : List UInt8

namespace Flow

/-- A process that has not ended holds an end of a pipe. -/
def held (m : Flow) (s : Stream) : Prop :=
  s ∈ m.world.descriptors.map Prod.snd ∨ ∃ p ∈ m.procs, p.running = true ∧ p.bare.holds s

instance (m : Flow) (s : Stream) : Decidable (m.held s) :=
  inferInstanceAs (Decidable (_ ∨ _))

def setProc (m : Flow) (i : Nat) (p : Process) : Flow := { m with procs := m.procs.set i p }

/-- `run_sequence` is called, with this to read from the standard input or a file. -/
def start (operands : List Item) (w : World) (input : List UInt8) : Flow :=
  ⟨operands, -1, none, w, [], fun _ => [], input, []⟩

/-- The sequence is done, and so are all its commands. -/
def Finished (m : Flow) : Prop :=
  m.operands = [] ∧ m.waiting = none ∧ ∀ p ∈ m.procs, p.running = false

end Flow

/-- The child that `CommandItem::run` starts. -/
def processOf (item : CommandItem) (w : World) : Process :=
  ⟨(item.childWorld w).descriptors, w.standard item.stdinFd, w.standard item.stdoutFd, .start,
    true⟩

inductive Act where
  /-- The next step of the shell. -/
  | shell
  /-- The command with the given number goes on. -/
  | move (i : Nat)

/-- One step of `run_sequence`: a command is started, a wait is over, or an
operator is looked at. -/
def shellStep (c : Commands) (m : Flow) : Option Flow :=
  match m.waiting with
  | some item =>
    if m.procs.any (·.running) then none
    else
      let number := m.procs.length - 1
      some { m with
        waiting := none, exitCode := (item.run m.world number (c.ends number)).1.getExitCode }
  | none =>
    match m.operands with
    | [] => none
    | .cmd item :: operands =>
      let number := m.procs.length
      some { m with
        operands := operands
        waiting := some item
        world := (item.run m.world number (c.ends number)).2
        procs := m.procs ++ [processOf item m.world] }
    | .op nextOp :: operands =>
      if (nextOp = .or ∧ m.exitCode = 0) ∨ (nextOp = .and ∧ m.exitCode ≠ 0) then
        some { m with operands := [] }
      else some { m with operands := operands }

/-- A child reads a byte, or finds the end of its input. From a closed input
nothing can be read. -/
def readStep (m : Flow) (i : Nat) (p : Process) : Option Flow :=
  match p.stdin with
  | .redirected (.pipe k false) =>
    match m.contents k with
    | b :: rest =>
      some { m.setProc i (p.goOn (p.progress.saw b)) with
        contents := Function.update m.contents k rest }
    | [] =>
      if m.held (.pipe k true) then none
      else some (m.setProc i (p.goOn p.progress.atEnd))
  | .closed => some (m.setProc i (p.goOn p.progress.atEnd))
  | _ =>
    match m.input with
    | b :: rest => some { m.setProc i (p.goOn (p.progress.saw b)) with input := rest }
    | [] => some (m.setProc i (p.goOn p.progress.atEnd))

/-- A child writes a byte, with pipes of a given capacity. What it writes to a
closed output is lost, and what it writes behind the file that it reads is there to
be read. -/
def writeStep (capacity : Nat) (m : Flow) (i : Nat) (p : Process) (b : UInt8) : Option Flow :=
  match p.stdout with
  | .redirected (.pipe k true) =>
    -- without a reader the write ends the child
    if ¬ m.held (.pipe k false) then some (m.setProc i { p with running := false })
    else if (m.contents k).length < capacity then
      some { m.setProc i (p.goOn (p.progress.wrote b)) with
        contents := Function.update m.contents k (m.contents k ++ [b]) }
    else none
  | .closed => some (m.setProc i (p.goOn (p.progress.wrote b)))
  | _ =>
    some { m.setProc i (p.goOn (p.progress.wrote b)) with
      input := if p.readsOwn then m.input ++ [b] else m.input
      output := m.output ++ [b] }

/-- One step of the shell or of a running child. -/
def flowStep (c : Commands) (capacity : Nat) (m : Flow) : Act → Option Flow
  | .shell => shellStep c m
  | .move i => do
    let p ← m.procs[i]?
    if p.running then
      match c.program i p.progress with
      | .read => readStep m i p
      | .write b => writeStep capacity m i p b
      | .exit => some (m.setProc i { p with running := false })
    else none

/-- What of some bytes comes through a standard stream: none if it is closed. -/
def through (s : Standard) (bytes : List UInt8) : List UInt8 := if s = .closed then [] else bytes

theorem through_append (s : Standard) (bytes bytes' : List UInt8) :
    through s (bytes ++ bytes') = through s bytes ++ through s bytes' := by
  simp only [through]
  split <;> rfl

theorem through_eq_cons {s : Standard} {bytes rest : List UInt8} {b : UInt8}
    (h : through s bytes = b :: rest) : bytes = b :: rest ∧ through s rest = rest := by
  rw [through] at h
  split at h
  · cases h
  · exact ⟨h, if_neg ‹_›⟩

/-- The last of the commands will be given the output `out` when it is started. -/
def Awaits (out : Standard) : List CommandItem → World → Prop
  | [], _ => True
  | item :: rest, w => (rest = [] → w.standard item.stdoutFd = out) ∧
      Awaits out rest (CommandItem.closeFd (CommandItem.closeFd w item.stdinFd) item.stdoutFd)

theorem standard_congr {w w' : World} (same : w'.descriptors = w.descriptors) (fd : Option Int) :
    w'.standard fd = w.standard fd := by
  cases fd with
  | none => rfl
  | some n => rw [World.standard, World.standard, same]

theorem closeFd_congr {w w' : World} (same : w'.descriptors = w.descriptors) (fd : Option Int) :
    (CommandItem.closeFd w' fd).descriptors = (CommandItem.closeFd w fd).descriptors := by
  rw [closeFd_descriptors, closeFd_descriptors, same]

theorem Awaits.congr {out : Standard} {rest : List CommandItem} {w w' : World}
    (h : Awaits out rest w) (same : w'.descriptors = w.descriptors) : Awaits out rest w' := by
  induction rest generalizing w w' with
  | nil => trivial
  | cons item rest ih =>
      refine ⟨fun last => (standard_congr same _).trans (h.1 last), ih h.2 ?_⟩
      exact closeFd_congr (closeFd_congr same _) _

/-- What the last command is given after the others have been run. -/
theorem awaits_of_runAll {out : Standard} {items : List CommandItem} {last : CommandItem}
    (number : Nat) (w : World)
    (gives : (runAll items number w).standard last.stdoutFd = out) :
    Awaits out (items ++ [last]) w := by
  induction items generalizing number w with
  | nil => exact ⟨fun _ => gives, trivial⟩
  | cons item items ih =>
      refine ⟨fun none => absurd none (List.append_ne_nil_of_right_ne_nil _ (List.cons_ne_nil _ _)),
        (ih (number + 1) (item.ran w number) gives).congr ?_⟩
      exact (run_world item w number (.exited 0)).1.symm

/-! ## Stages of a pipeline -/

/-- The programs of the commands from number `i` on. -/
def programsFrom (c : Commands) (i count : Nat) : List (Program UInt8) :=
  (List.range' i count).map c.program

/-- `i` commands have been started and have ended, and `rest` are to come, the
first of them with the input `y`. Without `rest`, `y` is what was written to the
output `out`. A command that has no other beside it does not read its own output. -/
structure Quiet (out : Standard) (first i : Nat) (rest : List CommandItem) (y : List UInt8)
    (m : Flow) : Prop where
  started : m.procs.length = i
  finished : ∀ p ∈ m.procs, p.running = false
  prepared : Prepared first (first + i) rest m.world
  empty : ∀ k, first + i ≤ k → m.contents k = []
  outside : i = 0 → ∀ item rest', rest = item :: rest' →
    y = through (m.world.standard item.stdinFd) m.input
  inside : ∀ k, i = k + 1 → rest ≠ [] → m.contents (first + k) = y
  output : m.output = if rest = [] then through out y else []
  awaits : Awaits out rest m.world
  apart : i = 0 → ∀ item, rest = [item] → (processOf item m.world).readsOwn = false

/-- Where the command with number `i` has its input `y` from. -/
def Source (first i : Nat) (y : List UInt8) (p : Process) (m : Flow) : Prop :=
  (i = 0 ∧ Outside p.stdin ∧ y = p.progress.seen ++ through p.stdin m.input) ∨
    ∃ k, i = k + 1 ∧ p.stdin = .redirected (.pipe (first + k) false) ∧
      y = p.progress.seen ++ m.contents (first + k)

/-- The command with number `i` is running and `rest` are to come. -/
structure Going (out : Standard) (capacity first i : Nat) (rest : List CommandItem) (y : List UInt8)
    (p : Process) (m : Flow) : Prop where
  procs : ∃ old, m.procs = old ++ [p] ∧ old.length = i ∧ ∀ x ∈ old, x.running = false
  running : p.running = true
  waiting : m.waiting ≠ none
  operands : m.operands = (piped rest).items
  prepared : Prepared first (first + (i + 1)) rest m.world
  started : Started first (first + i) rest p.bare m.world
  source : Source first i y p m
  empty : ∀ k, first + i < k → m.contents k = []
  inPipe : rest ≠ [] → m.contents (first + i) = p.progress.written ∧
    p.progress.written.length ≤ capacity
  output : m.output = if rest = [] then through out p.progress.written else []
  stdout : rest = [] → p.stdout = out
  awaits : Awaits out rest m.world
  apart : rest = [] → p.readsOwn = false

section Steps

variable {out : Standard} {c : Commands} {capacity first i : Nat} {rest : List CommandItem}
variable {y : List UInt8} {p : Process} {m m' : Flow} {a : Act} {b : UInt8}

/-- The standard input of the next command. -/
theorem standard_of_prepared {w : World} {item : CommandItem}
    (h : Prepared first (first + i) (item :: rest) w) :
    (i = 0 ∧ Outside (w.standard item.stdinFd)) ∨
      ∃ k, i = k + 1 ∧ w.standard item.stdinFd = .redirected (.pipe (first + k) false) := by
  obtain ⟨_, input⟩ := h.next item rest rfl
  rcases input with ⟨same, foreign⟩ | ⟨k, read, least, before, stdin, there, _⟩
  · exact Or.inl ⟨by omega, foreign.outside h.valid⟩
  · obtain ⟨n, rfl⟩ := Nat.exists_eq_add_of_le least
    exact Or.inr ⟨n, by omega, by rw [stdin, standard_eq h.valid there]⟩

variable (c capacity) in
/-- The shell starts a command. -/
theorem Quiet.start {item : CommandItem} (h : Quiet out first i (item :: rest) y m)
    (idle : m.waiting = none) (operands : m.operands = upcoming (item :: rest)) :
    ∃ m' p, flowStep c capacity m .shell = some m' ∧ p.progress = .start ∧
      Going out capacity first i rest y p m' := by
  obtain ⟨descriptors, pipes⟩ := run_world item m.world m.procs.length (c.ends m.procs.length)
  obtain ⟨prepared, started⟩ := h.prepared.start
  refine ⟨{ m with
    operands := (piped rest).items
    waiting := some item
    world := (item.run m.world m.procs.length (c.ends m.procs.length)).2
    procs := m.procs ++ [processOf item m.world] }, processOf item m.world, ?_, rfl, ?_⟩
  · simp only [flowStep, shellStep, idle, operands]
    rfl
  · refine ⟨⟨m.procs, rfl, h.started, h.finished⟩, rfl, Option.some_ne_none _, rfl,
      prepared.congr descriptors pipes, ⟨?_, started.last, fun more => ?_⟩, ?_,
      fun k later => h.empty k (Nat.le_of_lt later), ?_, ?_, h.awaits.1,
      h.awaits.2.congr descriptors, fun last => ?_⟩
    · rw [descriptors]
      exact started.input
    · rw [descriptors]
      exact started.output more
    · rcases standard_of_prepared h.prepared with ⟨none, outside⟩ | ⟨k, before, piped⟩
      · exact Or.inl ⟨none, outside, h.outside none item rest rfl⟩
      · exact Or.inr ⟨k, before, piped, (h.inside k before (List.cons_ne_nil _ _)).symm⟩
    · exact fun _ => ⟨h.empty _ (Nat.le_refl _), Nat.zero_le _⟩
    · refine h.output.trans ?_
      rw [if_neg (List.cons_ne_nil _ _)]
      simp [processOf, Progress.start, through]
    · rcases standard_of_prepared h.prepared with ⟨none, _⟩ | ⟨k, _, piped⟩
      · exact h.apart none item (by rw [last])
      · simp only [Process.readsOwn, processOf, piped]

/-- Only the last command runs. -/
theorem Going.proc_eq (h : Going out capacity first i rest y p m) {j : Nat} {p' : Process}
    (there : m.procs[j]? = some p') (running : p'.running = true) : j = i ∧ p' = p := by
  obtain ⟨old, split, length, finished⟩ := h.procs
  rw [split] at there
  rcases Nat.lt_trichotomy j old.length with before | same | after
  · rw [List.getElem?_append_left before] at there
    have stopped := finished p' (List.mem_of_getElem? there)
    rw [running] at stopped
    cases stopped
  · rw [same, List.getElem?_concat_length] at there
    exact ⟨same.trans length, (Option.some.inj there).symm⟩
  · rw [List.getElem?_eq_none (by simp; omega)] at there
    cases there

theorem Going.proc (h : Going out capacity first i rest y p m) : m.procs[i]? = some p := by
  obtain ⟨old, split, length, _⟩ := h.procs
  rw [split, ← length, List.getElem?_concat_length]

theorem Going.set (h : Going out capacity first i rest y p m) (p' : Process) :
    ∃ old, (m.setProc i p').procs = old ++ [p'] ∧ old.length = i ∧
      ∀ x ∈ old, x.running = false := by
  obtain ⟨old, split, length, finished⟩ := h.procs
  refine ⟨old, ?_, length, finished⟩
  rw [Flow.setProc, split, ← length, List.set_append_right _ _ (Nat.le_refl _), Nat.sub_self]
  rfl

/-- While a command runs, nothing else happens. -/
theorem Going.only (h : Going out capacity first i rest y p m)
    (taken : flowStep c capacity m a = some m') : a = .move i := by
  cases a with
  | shell =>
      obtain ⟨item, waits⟩ := Option.ne_none_iff_exists'.mp h.waiting
      have running : m.procs.any (·.running) = true :=
        List.any_eq_true.mpr ⟨p, List.mem_of_getElem? h.proc, h.running⟩
      simp only [flowStep, shellStep, waits, running, if_true, reduceCtorEq] at taken
  | move j =>
      simp only [flowStep, Option.bind_eq_bind, Option.bind_eq_some_iff] at taken
      obtain ⟨p', there, taken⟩ := taken
      obtain ⟨running, _⟩ := Option.ite_none_right_eq_some.mp taken
      rw [(h.proc_eq there running).1]

theorem Going.move (h : Going out capacity first i rest y p m) :
    flowStep c capacity m (.move i) = match c.program i p.progress with
      | .read => readStep m i p
      | .write b => writeStep capacity m i p b
      | .exit => some (m.setProc i { p with running := false }) := by
  simp only [flowStep, h.proc, Option.bind_eq_bind, Option.bind_some, h.running, if_true]

/-- The command goes on. -/
theorem Going.update (h : Going out capacity first i rest y p m) (q : Progress UInt8)
    {contents : Nat → List UInt8} {input output : List UInt8}
    (source : Source first i y (p.goOn q)
      { m with contents := contents, input := input })
    (empty : ∀ k, first + i < k → contents k = [])
    (inPipe : rest ≠ [] → contents (first + i) = q.written ∧ q.written.length ≤ capacity)
    (written : output = if rest = [] then through out q.written else []) :
    Going out capacity first i rest y (p.goOn q)
      { m.setProc i (p.goOn q) with
        contents := contents, input := input, output := output } :=
  ⟨h.set _, h.running, h.waiting, h.operands, h.prepared,
    h.started.congr rfl rfl rfl, source, empty, inPipe, written, h.stdout, h.awaits, h.apart⟩

theorem readStep_outside (outside : Outside p.stdin) :
    readStep m i p = match through p.stdin m.input with
    | b :: rest => some { m.setProc i (p.goOn (p.progress.saw b)) with input := rest }
    | [] => some (m.setProc i (p.goOn p.progress.atEnd)) := by
  unfold readStep
  split
  · rename_i k stdin
    exact absurd stdin (outside k false)
  · rename_i closed
    rw [through, if_pos closed]
  · rename_i opened
    rw [through, if_neg opened]

theorem readStep_pipe {k : Nat} (stdin : p.stdin = .redirected (.pipe k false)) :
    readStep m i p = match m.contents k with
      | b :: rest =>
        some { m.setProc i (p.goOn (p.progress.saw b)) with
          contents := Function.update m.contents k rest }
      | [] =>
        if m.held (.pipe k true) then none else some (m.setProc i (p.goOn p.progress.atEnd)) := by
  rw [readStep, stdin]

theorem writeStep_outside (outside : Outside p.stdout) (apart : p.readsOwn = false) :
    writeStep capacity m i p b =
      some { m.setProc i (p.goOn (p.progress.wrote b)) with
        output := m.output ++ through p.stdout [b] } := by
  unfold writeStep
  split
  · rename_i k stdout
    exact absurd stdout (outside k true)
  · rename_i closed
    rw [through, if_pos closed, List.append_nil]
    rfl
  · rename_i opened
    rw [through, if_neg opened, apart]
    rfl

/-- The shell has closed the write end of the pipe that the command reads. -/
theorem Going.writerless (h : Going out capacity first i rest y p m) {k : Nat}
    (stdin : p.stdin = .redirected (.pipe k false)) : ¬ m.held (.pipe k true) := by
  rcases h.started.input with outside | ⟨k', _, _, stdin', closed, unheld⟩
  · exact absurd stdin (outside k false)
  · cases stdin.symm.trans stdin'
    rintro (shell | ⟨x, inside, running, holds⟩)
    · exact closed shell
    · obtain ⟨j, there⟩ := List.mem_iff_getElem?.mp inside
      rw [(h.proc_eq there running).2] at holds
      exact unheld holds

/-- A read finds the next byte of the input, or its end. -/
theorem Going.read (h : Going out capacity first i rest y p m)
    (reads : c.program i p.progress = .read) :
    ∃ q m', (c.program i).alone y p.progress = some q ∧ flowStep c capacity m (.move i) = some m' ∧
      Going out capacity first i rest y (p.goOn q) m' := by
  rw [h.move, reads]
  rcases h.source with ⟨none, outside, split⟩ | ⟨k, before, stdin, split⟩
  · simp only [readStep_outside outside]
    cases left : through p.stdin m.input with
    | nil =>
        rw [left, List.append_nil] at split
        refine ⟨_, _, Program.alone_atEnd reads split, rfl,
          h.update p.progress.atEnd (.inl ⟨none, outside, ?_⟩) h.empty h.inPipe h.output⟩
        show y = _ ++ through p.stdin m.input
        simpa [left] using split
    | cons b input =>
        rw [left] at split
        refine ⟨_, _, Program.alone_next reads split, rfl,
          h.update (p.progress.saw b) (.inl ⟨none, outside, ?_⟩) h.empty h.inPipe h.output⟩
        show y = _ ++ through p.stdin input
        rw [(through_eq_cons left).2]
        simpa using split
  · rw [readStep_pipe stdin]
    cases left : m.contents (first + k) with
    | nil =>
        rw [left, List.append_nil] at split
        refine ⟨_, _, Program.alone_atEnd reads split, if_neg (h.writerless stdin),
          h.update p.progress.atEnd (.inr ⟨k, before, stdin, ?_⟩) h.empty h.inPipe h.output⟩
        simpa [left] using split
    | cons b contents =>
        rw [left] at split
        refine ⟨_, _, Program.alone_next reads split, rfl,
          h.update (p.progress.saw b) (.inr ⟨k, before, stdin, ?_⟩) ?_ ?_ h.output⟩
        · simpa using split
        · intro k' later
          rw [Function.update_of_ne (by omega)]
          exact h.empty k' later
        · rw [Function.update_of_ne (by omega)]
          exact h.inPipe

/-- The shell has the read end of the pipe that the command writes to. -/
theorem Going.held (h : Going out capacity first i rest y p m) (more : rest ≠ []) :
    m.held (.pipe (first + i) false) :=
  Or.inl (h.started.output more).2

/-- A write that finds room goes to the output of the command. -/
theorem Going.write (h : Going out capacity first i rest y p m)
    (writes : c.program i p.progress = .write b)
    (room : rest ≠ [] → p.progress.written.length < capacity) :
    ∃ m', flowStep c capacity m (.move i) = some m' ∧
      Going out capacity first i rest y (p.goOn (p.progress.wrote b)) m' := by
  rw [h.move, writes]
  by_cases last : rest = []
  · refine ⟨_, writeStep_outside (h.started.last last) (h.apart last),
      h.update (p.progress.wrote b) h.source h.empty (fun more => absurd last more) ?_⟩
    rw [h.output, if_pos last, if_pos last, h.stdout last, ← through_append]
    rfl
  · obtain ⟨contents, _⟩ := h.inPipe last
    refine ⟨{ m.setProc i (p.goOn (p.progress.wrote b)) with
        contents := Function.update m.contents (first + i) (m.contents (first + i) ++ [b]) },
      ?_, h.update (p.progress.wrote b) ?_ ?_ ?_ ?_⟩
    · have stdout : p.stdout = .redirected (.pipe (first + i) true) := (h.started.output last).1
      simp only [writeStep, stdout]
      rw [if_neg (not_not.mpr (h.held last)), contents, if_pos (room last)]
    · refine h.source.imp_right ?_
      rintro ⟨k, before, stdin, split⟩
      refine ⟨k, before, stdin, ?_⟩
      exact split.trans (congrArg _ (Function.update_of_ne (by omega) _ _).symm)
    · intro k later
      rw [Function.update_of_ne (by omega)]
      exact h.empty k later
    · intro _
      rw [Function.update_self, contents]
      refine ⟨rfl, ?_⟩
      have := room last
      simp only [Progress.wrote_written, List.length_append, List.length_singleton]
      omega
    · exact h.output.trans (by rw [if_neg last, if_neg last])

/-- Where the pipe is full, nothing happens any more. -/
theorem Going.full (h : Going out capacity first i rest y p m)
    (writes : c.program i p.progress = .write b) (more : rest ≠ [])
    (full : capacity ≤ p.progress.written.length) : flowStep c capacity m (.move i) = none := by
  have stdout : p.stdout = .redirected (.pipe (first + i) true) := (h.started.output more).1
  rw [h.move, writes]
  simp only [writeStep, stdout]
  rw [if_neg (not_not.mpr (h.held more)), (h.inPipe more).1, if_neg (Nat.not_lt.mpr full)]

/-- The command has ended, and its output is the input of the next one. -/
theorem Going.exit (h : Going out capacity first i rest y p m)
    (exits : c.program i p.progress = .exit) :
    ∃ m', flowStep c capacity m (.move i) = some m' ∧
      Quiet out first (i + 1) rest p.progress.written m' ∧ m'.waiting ≠ none ∧
      m'.operands = (piped rest).items := by
  rw [h.move, exits]
  obtain ⟨old, procs, length, finished⟩ := h.set { p with running := false }
  refine ⟨_, rfl, ⟨?_, ?_, h.prepared, fun k later => h.empty k (by omega), nofun, ?_, h.output,
    h.awaits, nofun⟩, h.waiting, h.operands⟩
  · rw [procs, List.length_append, length]
    rfl
  · intro x inside
    rw [procs] at inside
    rcases List.mem_append.mp inside with inside | same
    · exact finished x inside
    · rw [List.mem_singleton.mp same]
  · intro k before more
    cases before
    exact (h.inPipe more).1

/-- While no command runs, only the shell has a step. -/
theorem only_shell (finished : ∀ p ∈ m.procs, p.running = false)
    (taken : flowStep c capacity m a = some m') : a = .shell := by
  cases a with
  | shell => rfl
  | move j =>
      simp only [flowStep, Option.bind_eq_bind, Option.bind_eq_some_iff] at taken
      obtain ⟨p, there, taken⟩ := taken
      obtain ⟨running, _⟩ := Option.ite_none_right_eq_some.mp taken
      rw [finished p (List.mem_of_getElem? there)] at running
      cases running

variable (c capacity) in
/-- The shell goes on behind a command that has ended. -/
theorem Quiet.wait (h : Quiet out first i rest y m) (waits : m.waiting ≠ none)
    (operands : m.operands = (piped rest).items) :
    ∃ m', flowStep c capacity m .shell = some m' ∧ Quiet out first i rest y m' ∧ m'.waiting = none ∧
      m'.operands = (piped rest).items := by
  obtain ⟨item, waiting⟩ := Option.ne_none_iff_exists'.mp waits
  have finished : m.procs.any (·.running) = false := by
    rw [List.any_eq_false]
    exact fun p inside => by simp [h.finished p inside]
  refine ⟨{ m with
    waiting := none
    exitCode := (item.run m.world (m.procs.length - 1)
      (c.ends (m.procs.length - 1))).1.getExitCode }, ?_,
    ⟨h.started, h.finished, h.prepared, h.empty, h.outside, h.inside, h.output, h.awaits,
      h.apart⟩, rfl, operands⟩
  simp only [flowStep, shellStep, waiting, finished]
  rfl

variable (c capacity) in
theorem Quiet.joint (h : Quiet out first i rest y m) (waits : m.waiting = none)
    (operands : m.operands = .op .pipeline :: upcoming rest) :
    ∃ m', flowStep c capacity m .shell = some m' ∧ Quiet out first i rest y m' ∧ m'.waiting = none ∧
      m'.operands = upcoming rest := by
  refine ⟨{ m with operands := upcoming rest }, ?_,
    ⟨h.started, h.finished, h.prepared, h.empty, h.outside, h.inside, h.output, h.awaits,
      h.apart⟩, waits, rfl⟩
  simp [flowStep, shellStep, waits, operands]

/-! ## What a state leads to -/

/-- What the commands from number `i` on make of `y`. -/
def ToCome (c : Commands) (capacity i : Nat) (rest : List CommandItem) (y z : List UInt8) : Prop :=
  Composes capacity (programsFrom c i rest.length) y z

/-- What the running command and the ones behind it make of the input `y`. -/
def UnderWay (c : Commands) (capacity i : Nat) (rest : List CommandItem) (y : List UInt8)
    (q : Progress UInt8) (z : List UInt8) : Prop :=
  ∃ between, (c.program i).Leads y q between ∧ (rest ≠ [] → between.length ≤ capacity) ∧
    ToCome c capacity (i + 1) rest between z

theorem toCome_cons {item : CommandItem} {z : List UInt8} :
    ToCome c capacity i (item :: rest) y z ↔ UnderWay c capacity i rest y .start z := by
  have none : programsFrom c (i + 1) rest.length ≠ [] ↔ rest ≠ [] := by
    cases rest <;> simp [programsFrom]
  show Composes capacity (c.program i :: programsFrom c (i + 1) rest.length) y z ↔ _
  simp only [Composes, none]
  rfl

theorem underWay_of_step {q q' : Progress UInt8} {z : List UInt8}
    (taken : (c.program i).alone y q = some q') :
    UnderWay c capacity i rest y q z ↔ UnderWay c capacity i rest y q' z := by
  simp only [UnderWay, Program.leads_of_step taken]

theorem underWay_of_exit {q : Progress UInt8} {z : List UInt8} (exits : c.program i q = .exit)
    (fits : rest ≠ [] → q.written.length ≤ capacity) :
    UnderWay c capacity i rest y q z ↔ ToCome c capacity (i + 1) rest q.written z := by
  simp only [UnderWay, Program.leads_of_exit exits]
  constructor
  · rintro ⟨_, rfl, _, composes⟩
    exact composes
  · exact fun composes => ⟨_, rfl, fits, composes⟩

/-- A state of a pipeline from which its last command can write the outputs `M`. -/
inductive Stage (c : Commands) (out : Standard) (capacity first : Nat) (M : List UInt8 → Prop) :
    Flow → Prop where
  /-- In front of a command, or at the end. -/
  | ready {i : Nat} {rest : List CommandItem} {y : List UInt8} {m : Flow} :
      Quiet out first i rest y m → m.waiting = none → m.operands = upcoming rest →
      (∀ z, M z ↔ ToCome c capacity i rest y z) → Stage c out capacity first M m
  | going {i : Nat} {rest : List CommandItem} {y : List UInt8} {p : Process} {m : Flow} :
      Going out capacity first i rest y p m →
      (∀ z, M z ↔ UnderWay c capacity i rest y p.progress z) → Stage c out capacity first M m
  /-- The command has ended and the shell still waits. -/
  | done {i : Nat} {rest : List CommandItem} {y : List UInt8} {m : Flow} :
      Quiet out first i rest y m → m.waiting ≠ none →
      m.operands = (piped rest).items → (∀ z, M z ↔ ToCome c capacity i rest y z) →
      Stage c out capacity first M m
  /-- In front of a `|`. -/
  | joint {i : Nat} {rest : List CommandItem} {y : List UInt8} {m : Flow} :
      Quiet out first i rest y m → m.waiting = none →
      m.operands = .op .pipeline :: upcoming rest → (∀ z, M z ↔ ToCome c capacity i rest y z) →
      Stage c out capacity first M m

variable {M : List UInt8 → Prop}

theorem Going.step (h : Going out capacity first i rest y p m)
    (means : ∀ z, M z ↔ UnderWay c capacity i rest y p.progress z)
    (taken : flowStep c capacity m (.move i) = some m') : Stage c out capacity first M m' := by
  cases request : c.program i p.progress with
  | read =>
      obtain ⟨q, m'', alone, went, going⟩ := h.read request
      cases taken.symm.trans went
      exact .going going fun z => (means z).trans (underWay_of_step alone)
  | write b =>
      have room : rest ≠ [] → p.progress.written.length < capacity := by
        intro more
        by_contra full
        rw [h.full request more (Nat.le_of_not_lt full)] at taken
        cases taken
      obtain ⟨m'', went, going⟩ := h.write request room
      cases taken.symm.trans went
      exact .going going fun z => (means z).trans (underWay_of_step (Program.alone_write request))
  | exit =>
      obtain ⟨m'', went, quiet, waits, operands⟩ := h.exit request
      cases taken.symm.trans went
      exact .done quiet waits operands fun z =>
        (means z).trans (underWay_of_exit request fun more => (h.inPipe more).2)

/-- Behind the wait the pipeline is at its end, or in front of a `|`. -/
theorem Quiet.next (h : Quiet out first i rest y m) (waits : m.waiting = none)
    (operands : m.operands = (piped rest).items)
    (means : ∀ z, M z ↔ ToCome c capacity i rest y z) : Stage c out capacity first M m := by
  by_cases last : rest = []
  · subst last
    exact .ready h waits operands means
  · exact .joint h waits (operands.trans (items_piped last)) means

/-- No step changes what the pipeline leads to. -/
theorem Stage.step (h : Stage c out capacity first M m)
    (taken : flowStep c capacity m a = some m') : Stage c out capacity first M m' := by
  cases h with
  | @ready i rest y _ quiet waits operands means =>
      obtain rfl := only_shell quiet.finished taken
      cases rest with
      | nil => simp [flowStep, shellStep, waits, operands, upcoming] at taken
      | cons item rest =>
          obtain ⟨m'', p, went, fresh, going⟩ := quiet.start c capacity waits operands
          cases taken.symm.trans went
          exact .going going fun z => (means z).trans (by rw [fresh, toCome_cons])
  | going going means =>
      obtain rfl := going.only taken
      exact going.step means taken
  | @done i rest _ _ quiet waits operands means =>
      obtain rfl := only_shell quiet.finished taken
      obtain ⟨m'', went, quiet', waits', operands'⟩ := quiet.wait c capacity waits operands
      cases taken.symm.trans went
      exact quiet'.next waits' operands' means
  | joint quiet waits operands means =>
      obtain rfl := only_shell quiet.finished taken
      obtain ⟨m'', went, quiet', waits', operands'⟩ := quiet.joint c capacity waits operands
      cases taken.symm.trans went
      exact .ready quiet' waits' operands' means

theorem Stage.output_of_finished (h : Stage c out capacity first M m) (finished : m.Finished) :
    ∃ z, M z ∧ m.output = through out z := by
  obtain ⟨ended, idle, _⟩ := finished
  cases h with
  | @ready i rest y _ quiet _ operands means =>
      cases rest with
      | nil => exact ⟨y, (means y).mpr rfl, quiet.output⟩
      | cons item rest =>
          rw [operands, upcoming, interleave] at ended
          cases ended
  | going going _ => exact absurd idle going.waiting
  | done _ waits _ _ => exact absurd idle waits
  | joint _ _ operands _ =>
      rw [operands] at ended
      cases ended

/-! ## Running to the end -/

/-- A command that leads to an output, which fits, runs to its end. -/
theorem Going.finish (h : Going out capacity first i rest y p m) {between : List UInt8}
    (leads : (c.program i).Leads y p.progress between)
    (fits : rest ≠ [] → between.length ≤ capacity) :
    ∃ acts m', Run (flowStep c capacity) Always m acts m' ∧
      Quiet out first (i + 1) rest between m' ∧ m'.waiting ≠ none ∧
      m'.operands = (piped rest).items := by
  refine Program.Leads.induct (motive := fun q => ∀ {p m}, p.progress = q →
    Going out capacity first i rest y p m → ∃ acts m', Run (flowStep c capacity) Always m acts m' ∧
      Quiet out first (i + 1) rest between m' ∧ m'.waiting ≠ none ∧
      m'.operands = (piped rest).items) leads ?_ ?_ rfl h
  · rintro _ exits written p m rfl going
    obtain ⟨m', went, quiet, waits, operands⟩ := going.exit exits
    exact ⟨_, m', .single trivial went, written ▸ quiet, waits, operands⟩
  · rintro _ q alone left ih p m rfl going
    obtain ⟨m', went, going'⟩ : ∃ m', flowStep c capacity m (.move i) = some m' ∧
        Going out capacity first i rest y (p.goOn q) m' := by
      cases request : c.program i p.progress with
      | read =>
          obtain ⟨q', m', alone', went, going'⟩ := going.read request
          cases alone.symm.trans alone'
          exact ⟨m', went, going'⟩
      | write b =>
          cases alone.symm.trans (Program.alone_write request)
          refine going.write request fun more => ?_
          -- the byte is one of the output, which fits
          have written := left.written_le
          have most := fits more
          simp only [Progress.wrote_written, List.length_append, List.length_singleton] at written
          omega
      | exit =>
          rw [Program.alone_exit request] at alone
          cases alone
    obtain ⟨acts, m'', ran, ended⟩ := ih rfl going'
    exact ⟨_, m'', .cons trivial went ran, ended⟩

/-- The pipeline can go on to its end and has this output then. -/
def CanYield (c : Commands) (capacity : Nat) (m : Flow) (z : List UInt8) : Prop :=
  ∃ acts m', Run (flowStep c capacity) Always m acts m' ∧ m'.Finished ∧ m'.output = z

variable {z : List UInt8}

theorem CanYield.after {acts : List Act} (ran : Run (flowStep c capacity) Always m acts m')
    (h : CanYield c capacity m' z) : CanYield c capacity m z := by
  obtain ⟨acts', m'', ran', ended⟩ := h
  exact ⟨_, m'', ran.trans ran', ended⟩

/-- The shell has waited for a command, and goes on to the next one, if any. -/
theorem Quiet.resume (h : Quiet out first i rest y m) (waits : m.waiting ≠ none)
    (operands : m.operands = (piped rest).items)
    (go : ∀ {m}, Quiet out first i rest y m → m.waiting = none → m.operands = upcoming rest →
      CanYield c capacity m z) : CanYield c capacity m z := by
  obtain ⟨m₁, went, quiet, idle, operands₁⟩ :=
    h.wait c capacity waits operands
  apply CanYield.after (.single trivial went)
  by_cases last : rest = []
  · subst last
    exact go quiet idle operands₁
  · obtain ⟨m₂, went', quiet', idle', operands₂⟩ :=
      quiet.joint c capacity idle (operands₁.trans (items_piped last))
    exact .after (.single trivial went') (go quiet' idle' operands₂)

theorem Quiet.finish (h : Quiet out first i rest y m) (idle : m.waiting = none)
    (operands : m.operands = upcoming rest) (toCome : ToCome c capacity i rest y z) :
    CanYield c capacity m (through out z) := by
  induction rest generalizing i y m with
  | nil =>
      have same : z = y := toCome
      exact ⟨[], m, .nil, ⟨operands, idle, h.finished⟩, same ▸ h.output⟩
  | cons item rest ih =>
      obtain ⟨between, leads, fits, toCome⟩ := toCome_cons.mp toCome
      obtain ⟨m₁, p, went, fresh, going⟩ := h.start c capacity idle operands
      obtain ⟨acts, m₂, ran, quiet, waits, operands₂⟩ := going.finish (fresh ▸ leads) fits
      apply CanYield.after (.cons trivial went ran)
      exact quiet.resume waits operands₂ fun quiet idle operands => ih quiet idle operands toCome

/-- From every state of a pipeline, an output that it can have is reached. -/
theorem Stage.finish (h : Stage c out capacity first M m) (possible : M z) :
    CanYield c capacity m (through out z) := by
  cases h with
  | ready quiet idle operands means => exact quiet.finish idle operands ((means z).mp possible)
  | going going means =>
      obtain ⟨between, leads, fits, toCome⟩ := (means z).mp possible
      obtain ⟨acts, m', ran, quiet, waits, operands⟩ := going.finish leads fits
      apply CanYield.after ran
      exact quiet.resume waits operands fun quiet idle operands =>
        quiet.finish idle operands toCome
  | done quiet waits operands means =>
      exact quiet.resume waits operands fun quiet idle operands =>
        quiet.finish idle operands ((means z).mp possible)
  | joint quiet idle operands means =>
      obtain ⟨m', went, quiet', idle', operands'⟩ :=
        quiet.joint c capacity idle operands
      exact .after (.single trivial went) (quiet'.finish idle' operands' ((means z).mp possible))

end Steps

/-! ## Pipelines -/

/-- What comes through a descriptor: nothing where `open` has failed. -/
def passed (fd : Option Int) (bytes : List UInt8) : List UInt8 :=
  if fd = some (-1) then [] else bytes

/-- The last command of a pipeline. -/
def lastOf (item : CommandItem) (commands : List CommandItem) : CommandItem :=
  (item :: commands).getLast (List.cons_ne_nil _ _)

/-- What the standard streams at the two ends of a pipeline let through. -/
theorem ends_of_pipeline {l : CommandLine} {w w' : World} {item : CommandItem}
    {commands : List CommandItem} (valid : w.Valid)
    (built : buildCommandSequence l.tokens w = some (upcoming (item :: commands), w')) :
    (∀ bytes, through (w'.standard item.stdinFd) bytes = passed item.stdinFd bytes) ∧
      ∃ out, Awaits out (item :: commands) w' ∧
        ∀ bytes, through out bytes = passed (lastOf item commands).stdoutFd bytes := by
  obtain ⟨items, b⟩ := exists_built built
  have same : items = item :: commands := by
    rw [← b.commands]
    have all := commandItems_interleave item (piped commands) []
    rw [List.map_nil, List.append_nil] at all
    refine all.trans (congrArg (item :: ·) ?_)
    rw [piped, List.map_map]
    exact List.map_id _
  obtain ⟨front, last, split⟩ : ∃ front last, items = front ++ [last] :=
    ⟨items.dropLast, items.getLast (by simp [same]), (List.dropLast_append_getLast _).symm⟩
  have lastIs : lastOf item commands = last := by
    simp only [lastOf, ← same, split, List.getLast_append_singleton]
  have first : items[0]? = some item := by rw [same]; rfl
  have final : items[front.length]? = some last := by
    rw [split, List.getElem?_concat_length]
  have input := b.closed_iff_failed valid first .input
  have output := b.closed_iff_failed valid final .output
  refine ⟨fun bytes => if_congr input rfl rfl, (runAll front 0 w').standard last.stdoutFd, ?_,
    fun bytes => ?_⟩
  · rw [← same, split]
    exact awaits_of_runAll 0 w' rfl
  · rw [split, List.take_left] at output
    rw [lastIs]
    exact if_congr output rfl rfl

/-- The command has its own output for its input: its two redirections name one file. -/
def ReadsOwn (first : CommandText) (w : World) : Prop :=
  ∃ read written file, first.file .input = some read ∧ first.file .output = some written ∧
    w.named read = some file ∧ w.named written = some file

/-- A file that a command has for a standard stream is named by its redirection. -/
theorem named_of_standard {w w' : World} {c : CommandText} {item : CommandItem} {d : Direction}
    {file : Token} (valid : w'.Valid) (files : HasFiles w w' c item)
    (standard : w'.standard (item.fd d) = .redirected (.file file d.writing)) :
    ∃ path, c.file d = some path ∧ w.named path = some file := by
  have own := files d
  cases fd : item.fd d with
  | none =>
      rw [fd] at standard
      cases standard
  | some n =>
      rw [fd, World.standard] at standard
      split at standard
      · rename_i found
        cases standard
        cases named : c.file d with
        | none =>
            rw [named] at own
            obtain ⟨k, piped⟩ := own n fd
            cases found.symm.trans piped
        | some path =>
            rw [named] at own
            obtain ⟨n', same, ⟨file', leads, found'⟩ | ⟨failed, _⟩⟩ := own
            · cases fd.symm.trans same
              cases found.symm.trans found'
              exact ⟨path, rfl, leads⟩
            · cases fd.symm.trans same
              have low : 3 ≤ n := valid.numbers _ (valid.lookup_eq.mp found)
              omega
      · cases standard

theorem readsOwn_of_files {w w' : World} {c : CommandText} {item : CommandItem} (valid : w'.Valid)
    (files : HasFiles w w' c item) (reads : (processOf item w').readsOwn = true) :
    ReadsOwn c w := by
  rw [Process.readsOwn] at reads
  split at reads
  · rename_i read written stdin stdout
    obtain rfl := eq_of_beq reads
    obtain ⟨path, input, leads⟩ := named_of_standard (d := .input) valid files stdin
    obtain ⟨path', output, leads'⟩ := named_of_standard (d := .output) valid files stdout
    exact ⟨path, path', read, input, output, leads, leads'⟩
  · cases reads

/-- A pipeline that comes to its end has computed the composition of its
programs, with streams between them that fit into pipes. Where there is such a
composition, nothing that happens can keep the pipeline from computing it. A single
command must not read the file that it writes to. -/
theorem pipeline_composes (first : CommandText) (rest : List CommandText)
    (w : { w : World // w.Valid }) (c : Commands) (capacity : Nat)
    (apart : rest = [] → ¬ ReadsOwn first w) :
    ∃ item commands w', buildCommandSequence (pipelineLine first rest).tokens w =
        some (upcoming (item :: commands), w') ∧
      ∀ input acts m,
        Run (flowStep c capacity) Always (.start (upcoming (item :: commands)) w' input) acts m →
        (m.Finished → ∃ output,
          Composes capacity (programsFrom c 0 (rest.length + 1)) (passed item.stdinFd input)
              output ∧
            m.output = passed (lastOf item commands).stdoutFd output) ∧
        ∀ output,
          Composes capacity (programsFrom c 0 (rest.length + 1)) (passed item.stdinFd input)
              output →
            CanYield c capacity m (passed (lastOf item commands).stdoutFd output) := by
  obtain ⟨item, commands, w', n, built, length, prepared, files⟩ := build_pipeline first rest w w.2
  have tokens : (pipelineLine first rest).tokens ≠ [] := by
    intro none
    rw [none] at built
    cases built
  obtain ⟨t, ts, cons⟩ := List.exists_cons_of_ne_nil tokens
  obtain ⟨l, cut⟩ := exists_commandLine t ts
  obtain ⟨reads, out, awaits, writes⟩ :=
    ends_of_pipeline (l := l) w.2 (by rw [cut, ← cons]; exact built)
  refine ⟨item, commands, w', built, fun input acts m ran => ?_⟩
  have quiet : Quiet out n 0 (item :: commands) (passed item.stdinFd input)
      (.start (upcoming (item :: commands)) w' input) := by
    refine ⟨rfl, nofun, prepared, fun _ _ => rfl, fun _ item' rest' same => ?_, nofun, rfl, awaits,
      fun _ item' same => ?_⟩
    · cases same
      exact (reads input).symm
    · cases same
      have alone : rest = [] := List.length_eq_zero_iff.mp length.symm
      exact Bool.eq_false_iff.mpr fun reads =>
        apart alone (readsOwn_of_files prepared.valid (files alone) reads)
  have stage : Stage c out capacity n
      (Composes capacity (programsFrom c 0 (rest.length + 1)) (passed item.stdinFd input)) m := by
    apply ran.invariant fun _ m => Stage c out capacity n _ m
    · refine .ready quiet rfl rfl fun z => ?_
      rw [← length]
      rfl
    · exact fun stage _ taken => stage.step taken
  constructor
  · intro finished
    obtain ⟨z, possible, output⟩ := stage.output_of_finished finished
    exact ⟨z, possible, output.trans (writes z)⟩
  · intro z possible
    rw [← writes]
    exact stage.finish possible

theorem plain_files : ∀ r ∈ [(Direction.input, text "f"), (.output, text "g")], IsPlain r.2 := by
  decide

/-- `cat < f > g`. -/
def catInto : CommandText :=
  { catFile with
    redirections := [(.input, text "f"), (.output, text "g")]
    areFiles r inside := Or.inl (plain_files r inside)
    once := by decide }

/-- A program that writes what it reads. -/
def copying : Program UInt8 := fun q =>
  match q.seen[q.written.length]? with
  | some b => .write b
  | none => if q.ended then .exit else .read

/-- `cat < f > g` can copy a file of one byte. -/
theorem pipeline_composes_cat : ∃ operands w',
    buildCommandSequence (pipelineLine catInto []).tokens (.fresh [text "f"]) =
        some (operands, w') ∧
      CanYield ⟨fun _ => copying, fun _ => .exited 0⟩ 65536 (.start operands w' (text "a"))
        (text "a") := by
  have apart : ¬ ReadsOwn catInto (.fresh [text "f"]) := by
    rintro ⟨read, written, file, input, output, leads, leads'⟩
    obtain rfl := Option.some.inj input
    obtain rfl := Option.some.inj output
    exact absurd (leads.trans leads'.symm) (by decide)
  obtain ⟨item, commands, w', built, runs⟩ := pipeline_composes catInto []
    ⟨.fresh [text "f"], valid_fresh _⟩ ⟨fun _ => copying, fun _ => .exited 0⟩ 65536 fun _ => apart
  refine ⟨_, w', built, ?_⟩
  have there : buildCommandSequence (pipelineLine catInto []).tokens (.fresh [text "f"]) =
      some (upcoming [⟨[text "cat"], -1, some 3, some 4, 0⟩], _) := rfl
  obtain ⟨same, rfl⟩ := Prod.mk.inj (Option.some.inj (built.symm.trans there))
  obtain ⟨head, tail⟩ := List.cons.inj same
  cases head
  cases commands with
  | cons next rest => cases tail
  | nil =>
      obtain ⟨_, possible⟩ := runs (text "a") [] _ .nil
      refine possible (text "a") ⟨text "a", ⟨⟨text "a", true, text "a"⟩, ?_, rfl, rfl⟩, nofun, rfl⟩
      -- it reads a byte, writes it, and finds the end
      exact .head rfl (.head rfl (.head rfl .refl))

end Dataflow

end LisonShell
