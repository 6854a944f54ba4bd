import Technosphere.LisonShell.RoundTrip
import Technosphere.LisonShell.Sequence
import Technosphere.Transition

/-!
# Pipelines and the capacity of pipes

`run_sequence` starts the commands of a sequence one after another and waits for
each before it starts the next. While a command runs, nobody reads what it
writes to its pipe, but the shell holds the read end.

The commands here read their input to its end and write a finite number of
bytes; in which order they read and write is left open. `never_blocked_iff` says
that a pipeline cannot block itself exactly when every command but the last
writes at most what a pipe holds.
-/

namespace LisonShell

open Bytes Transition

/-! ## Children with pipes -/

/-- `close` of the other side of a pipe, in the child. -/
def closeOther (w : World) (otherSideOfPipeFd : Int) : World :=
  if otherSideOfPipeFd ≠ 0 then w.close otherSideOfPipeFd else w

/-- The descriptors besides the standard ones that the child has when it
executes its program. The other side is closed by the first redirection. -/
def CommandItem.childWorld (item : CommandItem) (w : World) : World :=
  let (w, otherSideOfPipeFd) :=
    match item.stdinFd with
    | some fd => (closeOther (w.close fd) item.otherSideOfPipeFd, 0)
    | none => (w, item.otherSideOfPipeFd)
  match item.stdoutFd with
  | some fd => closeOther (w.close fd) otherSideOfPipeFd
  | none => w

namespace Pipelines

/-- A child: its descriptors, how many bytes it has read and written, whether
its input has ended, and whether it still runs. -/
structure Proc where
  descriptors : List (Int × Stream)
  stdin : Standard
  stdout : Standard
  seen : Nat
  ended : Bool
  written : Nat
  running : Bool

/-- A descriptor of the child leads to the stream. -/
def Proc.holds (p : Proc) (s : Stream) : Prop :=
  s ∈ p.descriptors.map Prod.snd ∨ p.stdin = .redirected s ∨ p.stdout = .redirected s

instance (p : Proc) (s : Stream) : Decidable (p.holds s) :=
  inferInstanceAs (Decidable (_ ∨ _ ∨ _))

/-- What the commands do: how many bytes each of them writes, and whether it
would rather read next, from what it has read and written. -/
structure Programs where
  amount : Nat → Nat
  readsFirst : Nat → Nat → Nat → Bool
  ends : Nat → Termination

/-- The shell in `run_sequence`: the items that are left, the exit code, the
command that it waits for, and its descriptors. `buffered` counts the bytes in
each pipe. -/
structure Running where
  operands : List Item
  exitCode : Int
  waiting : Option CommandItem
  world : World
  procs : List Proc
  buffered : Nat → Nat

namespace Running

/-- A process that has not ended holds an end of a pipe. -/
def held (m : Running) (s : Stream) : Prop :=
  s ∈ m.world.descriptors.map Prod.snd ∨ ∃ p ∈ m.procs, p.running = true ∧ p.holds s

instance (m : Running) (s : Stream) : Decidable (m.held s) :=
  inferInstanceAs (Decidable (_ ∨ _))

def setProc (m : Running) (i : Nat) (p : Proc) : Running := { m with procs := m.procs.set i p }

end Running

inductive Act where
  /-- The next step of the shell. -/
  | shell
  /-- The command with the given number reads a byte. -/
  | read (i : Nat)
  /-- It finds the end of its input. -/
  | endOfFile (i : Nat)
  /-- It writes a byte. -/
  | write (i : Nat)
  | exit (i : Nat)

/-- The child has its input still to read, and wants to do so next. -/
def Programs.wantsRead (c : Programs) (i : Nat) (p : Proc) : Bool :=
  !p.ended && (p.written == c.amount i || c.readsFirst i p.seen p.written)

/-- The child that `CommandItem::run` starts. -/
def childOf (item : CommandItem) (w : World) : Proc :=
  ⟨(item.childWorld w).descriptors, w.standard item.stdinFd, w.standard item.stdoutFd, 0, false, 0,
    true⟩

/-- One step of `run_sequence`: a command is started, a wait is over, or an
operator is looked at. -/
def shellStep (c : Programs) (m : Running) : Option Running :=
  match m.waiting with
  | some item =>
    if m.procs.any (·.running) then none
    else
      let number := m.procs.length - 1
      some { m with
        waiting := none, exitCode := (item.run m.world number (c.ends number)).1.getExitCode }
  | none =>
    match m.operands with
    | [] => none
    | .cmd item :: operands =>
      let number := m.procs.length
      some { m with
        operands := operands
        waiting := some item
        world := (item.run m.world number (c.ends number)).2
        procs := m.procs ++ [childOf item m.world] }
    | .op nextOp :: operands =>
      if (nextOp = .or ∧ m.exitCode = 0) ∨ (nextOp = .and ∧ m.exitCode ≠ 0) then
        some { m with operands := [] }
      else some { m with operands := operands }

/-- One step of the shell or of a running child, with pipes of a given capacity. -/
def runningStep (c : Programs) (capacity : Nat) (m : Running) : Act → Option Running
  | .shell => shellStep c m
  | .read i => do
    let p ← m.procs[i]?
    if p.running && c.wantsRead i p then
      let m' := m.setProc i { p with seen := p.seen + 1 }
      match p.stdin with
      | .redirected (.pipe k false) =>
        if 0 < m.buffered k then
          some { m' with buffered := Function.update m.buffered k (m.buffered k - 1) }
        else none
      | _ => some m'
    else none
  | .endOfFile i => do
    let p ← m.procs[i]?
    if p.running && c.wantsRead i p then
      let m' := m.setProc i { p with ended := true }
      match p.stdin with
      | .redirected (.pipe k false) =>
        if m.buffered k = 0 ∧ ¬ m.held (.pipe k true) then some m' else none
      | _ => some m'
    else none
  | .write i => do
    let p ← m.procs[i]?
    if p.running && !c.wantsRead i p && decide (p.written < c.amount i) then
      let m' := m.setProc i { p with written := p.written + 1 }
      match p.stdout with
      | .redirected (.pipe k true) =>
        -- without a reader the write ends the child
        if ¬ m.held (.pipe k false) then some (m.setProc i { p with running := false })
        else if m.buffered k < capacity then
          some { m' with buffered := Function.update m.buffered k (m.buffered k + 1) }
        else none
      | _ => some m'
    else none
  | .exit i => do
    let p ← m.procs[i]?
    if p.running && p.ended && p.written == c.amount i then
      some (m.setProc i { p with running := false })
    else none

/-- A command has not been started, or has not ended. -/
def Running.unfinished (m : Running) : Prop :=
  (∃ item, .cmd item ∈ m.operands) ∨ ∃ p ∈ m.procs, p.running = true

def Blocked (c : Programs) (capacity : Nat) (m : Running) : Prop :=
  m.unfinished ∧ ∀ a, runningStep c capacity m a = none

/-- `run_sequence` is called. -/
def Running.start (operands : List Item) (w : World) : Running :=
  ⟨operands, -1, none, w, [], fun _ => 0⟩

/-- No run of the sequence leads to a blocked state. -/
def NeverBlocked (c : Programs) (capacity : Nat) (m : Running) : Prop :=
  ∀ acts m', Run (runningStep c capacity) Always m acts m' → ¬ Blocked c capacity m'

/-! ## The ends of the pipes that the shell has -/

/-- No descriptor with this number leads to a pipe. -/
def Foreign (w : World) (fd : Option Int) : Prop :=
  ∀ n, fd = some n → ∀ k b, (n, .pipe k b) ∉ w.descriptors

/-- The shell has both ends of the pipes behind `item`, which are numbered from
`q` on, and no others with such numbers. -/
def Owns (w : World) : (q : Nat) → CommandItem → List CommandItem → Prop
  | q, item, [] => (∀ n k b, q ≤ k → (n, .pipe k b) ∉ w.descriptors) ∧ Foreign w item.stdoutFd
  | q, item, next :: rest => ∃ read write : Int, item.stdoutFd = some write ∧
      next.stdinFd = some read ∧
      (∀ n b, (n, .pipe q b) ∈ w.descriptors ↔ n = if b then write else read) ∧
      Owns w (q + 1) next rest

/-- The input of `item`: the first command has that of the shell or a file, and
the others the pipe in front of `q`, whose write end the shell has closed. -/
def Input (w : World) (first q : Nat) (item : CommandItem) : Prop :=
  (q = first ∧ Foreign w item.stdinFd) ∨
    ∃ (k : Nat) (read : Int), first ≤ k ∧ q = k + 1 ∧ item.stdinFd = some read ∧
      (read, .pipe k false) ∈ w.descriptors ∧ ∀ n, (n, .pipe k true) ∉ w.descriptors

theorem mem_close {w : World} {fd : Int} {d : Int × Stream} :
    d ∈ (w.close fd).descriptors ↔ d ∈ w.descriptors ∧ d.1 ≠ fd := by
  simp [World.close]

theorem Foreign.close {w : World} {fd : Option Int} (h : Foreign w fd) (n : Int) :
    Foreign (w.close n) fd :=
  fun m same k b inside => h m same k b (mem_close.mp inside).1

/-- Closing a descriptor that leads to none of these pipes. -/
theorem Owns.close {w : World} {q : Nat} {item : CommandItem} {rest : List CommandItem} {fd : Int}
    (h : Owns w q item rest) (other : ∀ k b, q ≤ k → (fd, .pipe k b) ∉ w.descriptors) :
    Owns (w.close fd) q item rest := by
  induction rest generalizing q item with
  | nil => exact ⟨fun n k b later inside => h.1 n k b later (mem_close.mp inside).1, h.2.close fd⟩
  | cons next rest ih =>
      obtain ⟨read, write, output, input, ends, others⟩ := h
      refine ⟨read, write, output, input, ?_, ih others fun k b later => other k b (by omega)⟩
      intro n b
      rw [mem_close, ends n b]
      refine and_iff_left_of_imp fun same closed => ?_
      exact other q b (Nat.le_refl q) ((ends fd b).mpr (closed.symm.trans same))

/-- The descriptor was opened for a file, or opening it has failed. -/
def Filed (w : World) (fd : Option Int) : Prop :=
  ∀ n, fd = some n → n = -1 ∨ ∃ path writing, (n, .file path writing) ∈ w.descriptors

theorem Filed.foreign {w : World} {fd : Option Int} (h : Filed w fd) (valid : w.Valid) :
    Foreign w fd := by
  intro n same k b inside
  rcases h n same with none | ⟨path, writing, file⟩
  · have := valid.numbers _ inside
    simp only [none] at this
    omega
  · cases valid.functional inside file

theorem Filed.pipe {w : World} {fd : Option Int} (h : Filed w fd) : Filed w.pipe.2 fd := by
  intro n same
  refine (h n same).imp_right ?_
  rintro ⟨path, writing, file⟩
  exact ⟨path, writing, List.mem_cons_of_mem _ (List.mem_cons_of_mem _ file)⟩

theorem Made.filed {w w' : World} {c : CommandText} {item : CommandItem} (made : Made w w' c item)
    (valid : w'.Valid) (d : Direction) : Filed w' (item.fd d) := by
  intro n same
  have file := made.files d
  cases named : c.file d with
  | none =>
      rw [made.unnamed d named] at same
      cases same
  | some path =>
      rw [named] at file
      obtain ⟨n', here, leads⟩ := file
      cases same.symm.trans here
      obtain ⟨file, _, found⟩ | ⟨none, _⟩ := leads
      · exact Or.inr ⟨file, d.writing, valid.lookup_eq.mp found⟩
      · exact Or.inl none

/-- Commands behind a `|`. -/
def piped (rest : List CommandItem) : Joined := rest.map (OpType.pipeline, ·)

theorem mem_pipe {w : World} {n : Int} {k : Nat} {b : Bool} :
    (n, .pipe k b) ∈ w.pipe.2.descriptors ↔
      (k = w.pipes ∧ n = if b then w.pipe.1.2 else w.pipe.1.1) ∨
        (n, .pipe k b) ∈ w.descriptors := by
  have ends : w.pipe.2.descriptors = (w.pipe.1.2, .pipe w.pipes true) ::
      (w.pipe.1.1, .pipe w.pipes false) :: w.descriptors := rfl
  rw [ends, List.mem_cons, List.mem_cons]
  cases b <;> simp [and_comm]

/-- After the second loop the shell has the ends of the pipes, each in its place. -/
theorem wire_owns (item : CommandItem) (rest : List CommandItem) (w : World) (valid : w.Valid)
    (filed : ∀ x ∈ item :: rest, Filed w x.stdoutFd) :
    ∃ item' rest' w', wire item (piped rest) w = ((item', piped rest'), w') ∧
      rest'.length = rest.length ∧ item'.stdinFd = item.stdinFd ∧ w'.Valid ∧
      (∀ n k b, k < w.pipes → ((n, .pipe k b) ∈ w'.descriptors ↔ (n, .pipe k b) ∈ w.descriptors)) ∧
      Owns w' w.pipes item' rest' := by
  induction rest generalizing item w with
  | nil =>
      refine ⟨item, [], w, rfl, rfl, rfl, valid, fun _ _ _ _ => Iff.rfl, ?_, ?_⟩
      · exact fun n k b later inside => absurd (valid.pipes n k b inside) (Nat.not_lt.mpr later)
      · exact (filed item List.mem_cons_self).foreign valid
  | cons next rest ih =>
      let next' := next.redirectStdin w.pipe.1.1 w.pipe.1.2
      have filed' : ∀ x ∈ next' :: rest, Filed w.pipe.2 x.stdoutFd := by
        intro x inside
        rcases List.mem_cons.mp inside with rfl | inside
        · exact (filed next (by simp)).pipe
        · exact (filed x (by simp [inside])).pipe
      obtain ⟨item', rest', w', wired, length, stdin, valid', old, owns⟩ :=
        ih next' w.pipe.2 valid.pipe filed'
      refine ⟨item.redirectStdout w.pipe.1.2 w.pipe.1.1, item' :: rest', w', ?_, ?_, rfl, valid',
        ?_, w.pipe.1.1, w.pipe.1.2, rfl, stdin, ?_, owns⟩
      · show wire item ((.pipeline, next) :: piped rest) w = _
        rw [wire, if_pos rfl]
        show ((_, (OpType.pipeline, (wire next' (piped rest) w.pipe.2).1.1) :: _), _) = _
        rw [wired]
        rfl
      · rw [List.length_cons, List.length_cons, length]
      · intro n k b before
        rw [old n k b (Nat.lt_succ_of_lt before), mem_pipe]
        exact or_iff_right fun same => absurd same.1 (Nat.ne_of_lt before)
      · intro n b
        rw [old n w.pipes b (Nat.lt_succ_self _), mem_pipe]
        rw [or_iff_left fun inside => absurd (valid.pipes n _ b inside) (Nat.lt_irrefl _)]
        exact and_iff_right rfl

/-! ## Starting a command -/

/-- Not a pipe. -/
def Outside (s : Standard) : Prop := ∀ k b, s ≠ .redirected (.pipe k b)

theorem Foreign.outside {w : World} {fd : Option Int} (h : Foreign w fd) (valid : w.Valid) :
    Outside (w.standard fd) := by
  intro k b same
  cases fd with
  | none => cases same
  | some n =>
      rw [World.standard] at same
      split at same
      · rename_i found
        cases same
        exact h n rfl k b (valid.lookup_eq.mp found)
      · cases same

theorem standard_eq {w : World} (valid : w.Valid) {n : Int} {s : Stream}
    (inside : (n, s) ∈ w.descriptors) : w.standard (some n) = .redirected s := by
  rw [World.standard, valid.lookup_eq.mpr inside]

theorem mem_closeFd {w : World} {fd : Option Int} {d : Int × Stream} :
    d ∈ (CommandItem.closeFd w fd).descriptors ↔ d ∈ w.descriptors ∧ fd ≠ some d.1 := by
  cases fd with
  | none => simp [CommandItem.closeFd]
  | some n =>
      rw [CommandItem.closeFd, mem_close]
      simp [eq_comm]

theorem Owns.closeFd {w : World} {q : Nat} {item : CommandItem} {rest : List CommandItem}
    {fd : Option Int} (h : Owns w q item rest)
    (other : ∀ n, fd = some n → ∀ k b, q ≤ k → (n, .pipe k b) ∉ w.descriptors) :
    Owns (CommandItem.closeFd w fd) q item rest := by
  cases fd with
  | none => exact h
  | some n => exact h.close (other n rfl)

theorem mem_closeOther {w : World} {n : Int} {d : Int × Stream}
    (inside : d ∈ (closeOther w n).descriptors) : d ∈ w.descriptors := by
  rw [closeOther] at inside
  split at inside
  · exact (mem_close.mp inside).1
  · exact inside

/-- The child opens no descriptor. -/
theorem mem_childWorld {item : CommandItem} {w : World} {d : Int × Stream}
    (inside : d ∈ (item.childWorld w).descriptors) : d ∈ w.descriptors := by
  unfold CommandItem.childWorld at inside
  cases hin : item.stdinFd with
  | none =>
      cases hout : item.stdoutFd with
      | none =>
          simp only [hin, hout] at inside
          exact inside
      | some write =>
          simp only [hin, hout] at inside
          exact (mem_close.mp (mem_closeOther inside)).1
  | some read =>
      cases hout : item.stdoutFd with
      | none =>
          simp only [hin, hout] at inside
          exact (mem_close.mp (mem_closeOther inside)).1
      | some write =>
          simp only [hin, hout] at inside
          have closed := (mem_close.mp (mem_closeOther inside)).1
          exact (mem_close.mp (mem_closeOther closed)).1

/-- What a command with the output pipe `q`, if commands follow, was started with. -/
structure Started (first q : Nat) (rest : List CommandItem) (p : Proc) (w : World) : Prop where
  input : Outside p.stdin ∨ ∃ k, first ≤ k ∧ k < q ∧ p.stdin = .redirected (.pipe k false) ∧
    .pipe k true ∉ w.descriptors.map Prod.snd ∧ ¬ p.holds (.pipe k true)
  last : rest = [] → Outside p.stdout
  output : rest ≠ [] → p.stdout = .redirected (.pipe q true) ∧
    .pipe q false ∈ w.descriptors.map Prod.snd

/-- What the shell has before it starts the commands. -/
structure Prepared (first q : Nat) (rest : List CommandItem) (w : World) : Prop where
  valid : w.Valid
  next : ∀ item rest', rest = item :: rest' → Owns w q item rest' ∧ Input w first q item

theorem Prepared.start {w : World} {first q : Nat} {item : CommandItem} {rest : List CommandItem}
    (h : Prepared first q (item :: rest) w) :
    let w' := CommandItem.closeFd (CommandItem.closeFd w item.stdinFd) item.stdoutFd
    Prepared first (q + 1) rest w' ∧ Started first q rest (childOf item w) w' := by
  intro w'
  obtain ⟨owns, input⟩ := h.next item rest rfl
  have kept : ∀ d, d ∈ w'.descriptors ↔
      d ∈ w.descriptors ∧ item.stdinFd ≠ some d.1 ∧ item.stdoutFd ≠ some d.1 := by
    intro d
    rw [mem_closeFd, mem_closeFd, and_assoc]
  have valid' : w'.Valid := CommandItem.valid_closeFd (CommandItem.valid_closeFd h.valid _) _
  -- the input of the command is no end of a later pipe
  have early : ∀ n, item.stdinFd = some n → ∀ k b, q ≤ k → (n, .pipe k b) ∉ w.descriptors := by
    intro n same k b later inside
    rcases input with ⟨_, foreign⟩ | ⟨k', read, _, before, stdin, there, _⟩
    · exact foreign n same k b inside
    · cases same.symm.trans stdin
      cases h.valid.functional inside there
      omega
  have stdin : Outside (childOf item w).stdin ∨ ∃ k, first ≤ k ∧ k < q ∧
      (childOf item w).stdin = .redirected (.pipe k false) ∧
        ∀ n, (n, .pipe k true) ∉ w.descriptors := by
    rcases input with ⟨_, foreign⟩ | ⟨k, read, least, before, stdin, there, closed⟩
    · exact Or.inl (foreign.outside h.valid)
    · refine Or.inr ⟨k, least, by omega, ?_, closed⟩
      show w.standard item.stdinFd = _
      rw [stdin, standard_eq h.valid there]
  have unheld : ∀ k, k < q → (∀ n, (n, .pipe k true) ∉ w.descriptors) →
      (childOf item w).stdin = .redirected (.pipe k false) →
      (childOf item w).stdout ≠ .redirected (.pipe k true) →
      Stream.pipe k true ∉ w'.descriptors.map Prod.snd ∧
        ¬ (childOf item w).holds (.pipe k true) := by
    intro k _ closed from' to'
    constructor
    · intro inside
      obtain ⟨⟨n, s⟩, there, same⟩ := List.mem_map.mp inside
      cases same
      exact closed n ((kept _).mp there).1
    · rintro (inside | same | same)
      · obtain ⟨⟨n, s⟩, there, same⟩ := List.mem_map.mp inside
        cases same
        exact closed n (mem_childWorld there)
      · rw [from'] at same
        cases same
      · exact to' same
  cases rest with
  | nil =>
      have outside : Outside (childOf item w).stdout := owns.2.outside h.valid
      refine ⟨⟨valid', nofun⟩, ?_, fun _ => outside, fun other => absurd rfl other⟩
      refine stdin.imp_right ?_
      rintro ⟨k, least, before, from', closed⟩
      exact ⟨k, least, before, from', unheld k before closed from' (outside k true)⟩
  | cons next rest =>
      obtain ⟨read, write, output, input', ends, others⟩ := owns
      have there : (write, .pipe q true) ∈ w.descriptors := (ends write true).mpr rfl
      have reading : (read, .pipe q false) ∈ w.descriptors := (ends read false).mpr rfl
      have stdout : (childOf item w).stdout = .redirected (.pipe q true) := by
        show w.standard item.stdoutFd = _
        rw [output, standard_eq h.valid there]
      have reading' : (read, .pipe q false) ∈ w'.descriptors := by
        refine (kept _).mpr ⟨reading, ?_, ?_⟩
        · exact fun same => early read same q false (Nat.le_refl q) reading
        · intro same
          cases output.symm.trans same
          cases h.valid.functional there reading
      have gone : ∀ n, (n, .pipe q true) ∉ w'.descriptors := by
        intro n inside
        obtain ⟨inside, _, open'⟩ := (kept _).mp inside
        rw [(ends n true).mp inside] at open'
        exact open' output
      refine ⟨⟨valid', ?_⟩, ?_, nofun, fun _ => ⟨stdout, List.mem_map.mpr ⟨_, reading', rfl⟩⟩⟩
      · rintro _ _ ⟨rfl, rfl⟩
        refine ⟨?_, Or.inr ⟨q, read, ?_, rfl, input', reading', gone⟩⟩
        · refine (others.closeFd fun n same k b later => early n same k b (by omega)).closeFd ?_
          intro n same k b later inside
          cases output.symm.trans same
          cases h.valid.functional (mem_closeFd.mp inside).1 there
          omega
        · rcases input with ⟨same, _⟩ | ⟨k, _, least, before, _⟩
          · exact Nat.le_of_eq same.symm
          · omega
      · refine stdin.imp_right ?_
        rintro ⟨k, least, before, from', closed⟩
        refine ⟨k, least, before, from', unheld k before closed from' ?_⟩
        rw [stdout]
        rintro ⟨⟩
        exact Nat.lt_irrefl _ before

/-! ## Stages of a pipeline -/

/-- The items of a pipeline of which no command has been started. -/
def upcoming : List CommandItem → List Item
  | [] => []
  | item :: rest => interleave item (piped rest)

theorem items_piped {rest : List CommandItem} (more : rest ≠ []) :
    (piped rest).items = .op .pipeline :: upcoming rest := by
  cases rest with
  | nil => exact absurd rfl more
  | cons item rest => rfl

/-- `i` commands have been started and have ended, and `rest` are to come. -/
structure Quiet (first i : Nat) (rest : List CommandItem) (m : Running) : Prop where
  started : m.procs.length = i
  finished : ∀ p ∈ m.procs, p.running = false
  empty : ∀ k, first + i ≤ k → m.buffered k = 0
  prepared : Prepared first (first + i) rest m.world

/-- The command with number `i` is running and `rest` are to come. -/
structure Going (c : Programs) (capacity first i : Nat) (rest : List CommandItem) (p : Proc)
    (m : Running) : Prop where
  procs : ∃ old, m.procs = old ++ [p] ∧ old.length = i ∧ ∀ x ∈ old, x.running = false
  running : p.running = true
  waiting : m.waiting ≠ none
  operands : m.operands = (piped rest).items
  prepared : Prepared first (first + (i + 1)) rest m.world
  started : Started first (first + i) rest p m.world
  empty : ∀ k, first + i < k → m.buffered k = 0
  output : rest ≠ [] → m.buffered (first + i) = p.written ∧ p.written ≤ capacity
  bound : p.written ≤ c.amount i

inductive Stage (c : Programs) (capacity first : Nat) :
    Nat → List CommandItem → Running → Prop where
  /-- In front of a command, or at the end. -/
  | ready {i rest m} : Quiet first i rest m → m.waiting = none → m.operands = upcoming rest →
      Stage c capacity first i rest m
  | going {i rest p m} : Going c capacity first i rest p m → Stage c capacity first (i + 1) rest m
  /-- The command has ended and the shell still waits. -/
  | done {i rest m} : Quiet first i rest m → m.waiting ≠ none →
      m.operands = (piped rest).items → Stage c capacity first i rest m
  /-- In front of a `|`. -/
  | joint {i rest m} : Quiet first i rest m → m.waiting = none → rest ≠ [] →
      m.operands = .op .pipeline :: upcoming rest → Stage c capacity first i rest m

theorem Owns.congr {w w' : World} (same : w'.descriptors = w.descriptors) {q : Nat}
    {item : CommandItem} {rest : List CommandItem} (h : Owns w q item rest) :
    Owns w' q item rest := by
  induction rest generalizing q item with
  | nil => simpa only [Owns, Foreign, same] using h
  | cons next rest ih =>
      obtain ⟨read, write, output, input, ends, others⟩ := h
      exact ⟨read, write, output, input, same ▸ ends, ih others⟩

theorem Prepared.congr {w w' : World} (same : w'.descriptors = w.descriptors)
    (pipes : w'.pipes = w.pipes) {first q : Nat} {rest : List CommandItem}
    (h : Prepared first q rest w) : Prepared first q rest w' where
  valid := ⟨same ▸ h.valid.distinct, same ▸ h.valid.numbers, by
    rw [same, pipes]
    exact h.valid.pipes⟩
  next item rest' split := by
    obtain ⟨owns, input⟩ := h.next item rest' split
    refine ⟨owns.congr same, ?_⟩
    simpa only [Input, Foreign, same] using input

theorem run_world (item : CommandItem) (w : World) (number : Nat) (ending : Termination) :
    (item.run w number ending).2.descriptors =
        (CommandItem.closeFd (CommandItem.closeFd w item.stdinFd) item.stdoutFd).descriptors ∧
      (item.run w number ending).2.pipes =
        (CommandItem.closeFd (CommandItem.closeFd w item.stdinFd) item.stdoutFd).pipes := by
  cases hin : item.stdinFd <;> cases hout : item.stdoutFd <;>
    simp only [CommandItem.run, CommandItem.closeFd, World.close, hin, hout, and_self]

section Steps

variable {c : Programs} {capacity first i : Nat} {rest : List CommandItem} {p : Proc}
variable {m m' : Running} {a : Act}

/-- The shell starts a command. -/
theorem Quiet.start {item : CommandItem} (h : Quiet first i (item :: rest) m)
    (idle : m.waiting = none) (operands : m.operands = upcoming (item :: rest)) :
    ∃ m' p, runningStep c capacity m .shell = some m' ∧ Going c capacity first i rest p m' := by
  obtain ⟨descriptors, pipes⟩ := run_world item m.world m.procs.length (c.ends m.procs.length)
  obtain ⟨prepared, started⟩ := h.prepared.start
  refine ⟨{ m with
    operands := (piped rest).items
    waiting := some item
    world := (item.run m.world m.procs.length (c.ends m.procs.length)).2
    procs := m.procs ++ [childOf item m.world] }, childOf item m.world, ?_, ?_⟩
  · simp only [runningStep, shellStep, idle, operands]
    rfl
  · refine ⟨⟨m.procs, rfl, h.started, h.finished⟩, rfl, Option.some_ne_none _, rfl,
      prepared.congr descriptors pipes, ⟨?_, started.last, fun more => ?_⟩,
      fun k later => h.empty k (Nat.le_of_lt later), ?_, Nat.zero_le _⟩
    · rw [descriptors]
      exact started.input
    · rw [descriptors]
      exact started.output more
    · exact fun _ => ⟨h.empty _ (Nat.le_refl _), Nat.zero_le _⟩

/-- Only the last command runs. -/
theorem Going.proc_eq (h : Going c capacity first i rest p m) {j : Nat} {p' : Proc}
    (there : m.procs[j]? = some p') (running : p'.running = true) : j = i ∧ p' = p := by
  obtain ⟨old, split, length, finished⟩ := h.procs
  rw [split] at there
  rcases Nat.lt_trichotomy j old.length with before | same | after
  · rw [List.getElem?_append_left before] at there
    have stopped := finished p' (List.mem_of_getElem? there)
    rw [running] at stopped
    cases stopped
  · rw [same, List.getElem?_concat_length] at there
    exact ⟨same.trans length, (Option.some.inj there).symm⟩
  · rw [List.getElem?_eq_none (by simp; omega)] at there
    cases there

theorem Going.proc (h : Going c capacity first i rest p m) : m.procs[i]? = some p := by
  obtain ⟨old, split, length, _⟩ := h.procs
  rw [split, ← length, List.getElem?_concat_length]

theorem Going.set (h : Going c capacity first i rest p m) (p' : Proc) :
    ∃ old, (m.setProc i p').procs = old ++ [p'] ∧ old.length = i ∧
      ∀ x ∈ old, x.running = false := by
  obtain ⟨old, split, length, finished⟩ := h.procs
  refine ⟨old, ?_, length, finished⟩
  rw [Running.setProc, split, ← length, List.set_append_right _ _ (Nat.le_refl _), Nat.sub_self]
  rfl

/-- The shell waits while the command runs. -/
theorem Going.shell (h : Going c capacity first i rest p m) :
    runningStep c capacity m .shell = none := by
  obtain ⟨item, waits⟩ := Option.ne_none_iff_exists'.mp h.waiting
  have running : m.procs.any (·.running) = true :=
    List.any_eq_true.mpr ⟨p, List.mem_of_getElem? h.proc, h.running⟩
  simp only [runningStep, shellStep, waits, running, if_true]

/-- The bytes in the pipe that a child reads from. -/
def inputBytes (m : Running) (p : Proc) : Nat :=
  match p.stdin with
  | .redirected (.pipe k false) => m.buffered k
  | _ => 0

/-- The steps that the command has left at most, if its input does not come from outside. -/
def left (c : Programs) (i : Nat) (m : Running) (p : Proc) : Nat :=
  (c.amount i - p.written) + inputBytes m p + (if p.ended then 0 else 1)

/-- The command has more to write, and its pipe is full. -/
structure Full (c : Programs) (capacity i : Nat) (rest : List CommandItem) (p : Proc) : Prop where
  more : rest ≠ []
  writes : c.wantsRead i p = false
  full : p.written = capacity
  unwritten : capacity < c.amount i

theorem Started.congr {w : World} {q : Nat} {p' : Proc} (h : Started first q rest p w)
    (descriptors : p'.descriptors = p.descriptors) (stdin : p'.stdin = p.stdin)
    (stdout : p'.stdout = p.stdout) : Started first q rest p' w := by
  refine ⟨?_, stdout ▸ h.last, stdout ▸ h.output⟩
  simpa only [Proc.holds, descriptors, stdin, stdout] using h.input

/-- The command goes on with other counters. -/
theorem Going.update (h : Going c capacity first i rest p m) (p' : Proc)
    (descriptors : p'.descriptors = p.descriptors) (stdin : p'.stdin = p.stdin)
    (stdout : p'.stdout = p.stdout) (running : p'.running = true) {buffered : Nat → Nat}
    (empty : ∀ k, first + i < k → buffered k = 0)
    (output : rest ≠ [] → buffered (first + i) = p'.written ∧ p'.written ≤ capacity)
    (bound : p'.written ≤ c.amount i) :
    Going c capacity first i rest p' { m.setProc i p' with buffered := buffered } :=
  ⟨h.set p', running, h.waiting, h.operands, h.prepared, h.started.congr descriptors stdin stdout,
    empty, output, bound⟩

theorem Going.read {j : Nat} (h : Going c capacity first i rest p m)
    (taken : runningStep c capacity m (.read j) = some m') :
    Going c capacity first i rest { p with seen := p.seen + 1 } m' := by
  simp only [runningStep, Option.bind_eq_bind, Option.bind_eq_some_iff] at taken
  obtain ⟨p', there, taken⟩ := taken
  split at taken
  · rename_i may
    rw [Bool.and_eq_true] at may
    obtain ⟨rfl, rfl⟩ := h.proc_eq there may.1
    split at taken
    · rename_i k from'
      split at taken
      · cases taken
        have before : k < first + j := by
          rcases h.started.input with outside | ⟨k', _, before, from'', _⟩
          · exact absurd from' (outside k false)
          · cases from'.symm.trans from''
            exact before
        refine h.update { p' with seen := p'.seen + 1 } rfl rfl rfl h.running ?_ ?_ ?_
        · intro k' later
          rw [Function.update_of_ne (by omega)]
          exact h.empty k' later
        · rw [Function.update_of_ne (by omega)]
          exact h.output
        · exact h.bound
      · cases taken
    · cases taken
      exact h.update { p' with seen := p'.seen + 1 } rfl rfl rfl h.running h.empty h.output h.bound
  · cases taken

theorem Going.endOfFile {j : Nat} (h : Going c capacity first i rest p m)
    (taken : runningStep c capacity m (.endOfFile j) = some m') :
    Going c capacity first i rest { p with ended := true } m' := by
  simp only [runningStep, Option.bind_eq_bind, Option.bind_eq_some_iff] at taken
  obtain ⟨p', there, taken⟩ := taken
  split at taken
  · rename_i may
    rw [Bool.and_eq_true] at may
    obtain ⟨rfl, rfl⟩ := h.proc_eq there may.1
    split at taken
    · split at taken
      · cases taken
        exact h.update { p' with ended := true } rfl rfl rfl h.running h.empty h.output h.bound
      · cases taken
    · cases taken
      exact h.update { p' with ended := true } rfl rfl rfl h.running h.empty h.output h.bound
  · cases taken

/-- The shell has the read end of the pipe that the command writes to. -/
theorem Going.held (h : Going c capacity first i rest p m) (more : rest ≠ []) :
    m.held (.pipe (first + i) false) :=
  Or.inl (h.started.output more).2

theorem Going.write {j : Nat} (h : Going c capacity first i rest p m)
    (taken : runningStep c capacity m (.write j) = some m') :
    Going c capacity first i rest { p with written := p.written + 1 } m' := by
  simp only [runningStep, Option.bind_eq_bind, Option.bind_eq_some_iff] at taken
  obtain ⟨p', there, taken⟩ := taken
  split at taken
  · rename_i may
    simp only [Bool.and_eq_true, decide_eq_true_eq] at may
    obtain ⟨⟨running, _⟩, unwritten⟩ := may
    obtain ⟨rfl, rfl⟩ := h.proc_eq there running
    split at taken
    · rename_i k to'
      have more : rest ≠ [] := fun none => h.started.last none k true to'
      cases to'.symm.trans (h.started.output more).1
      rw [if_neg (not_not.mpr (h.held more))] at taken
      split at taken
      · rename_i room
        cases taken
        obtain ⟨written, _⟩ := h.output more
        refine h.update { p' with written := p'.written + 1 } rfl rfl rfl h.running ?_ ?_ ?_
        · intro k' later
          rw [Function.update_of_ne (by omega)]
          exact h.empty k' later
        · intro _
          rw [Function.update_self, written]
          refine ⟨rfl, ?_⟩
          show p'.written + 1 ≤ capacity
          omega
        · exact unwritten
      · cases taken
    · rename_i outside
      cases taken
      refine h.update { p' with written := p'.written + 1 } rfl rfl rfl h.running h.empty ?_
        unwritten
      exact fun more => absurd (h.started.output more).1 (outside (first + j))
  · cases taken

/-- The command has ended, and has written what it had to. -/
theorem Going.exit {j : Nat} (h : Going c capacity first i rest p m)
    (taken : runningStep c capacity m (.exit j) = some m') :
    Quiet first (i + 1) rest m' ∧ m'.waiting ≠ none ∧ m'.operands = (piped rest).items ∧
      (rest ≠ [] → c.amount i ≤ capacity) := by
  simp only [runningStep, Option.bind_eq_bind, Option.bind_eq_some_iff] at taken
  obtain ⟨p', there, taken⟩ := taken
  split at taken
  · rename_i may
    simp only [Bool.and_eq_true, beq_iff_eq] at may
    obtain ⟨⟨running, _⟩, written⟩ := may
    obtain ⟨rfl, rfl⟩ := h.proc_eq there running
    cases taken
    obtain ⟨old, procs, length, finished⟩ := h.set { p' with running := false }
    refine ⟨⟨?_, ?_, fun k later => h.empty k (by omega), h.prepared⟩, h.waiting, h.operands, ?_⟩
    · rw [procs, List.length_append, length]
      rfl
    · intro x inside
      rw [procs] at inside
      rcases List.mem_append.mp inside with inside | same
      · exact finished x inside
      · rw [List.mem_singleton.mp same]
    · intro more
      rw [← written]
      exact (h.output more).2
  · cases taken

/-- While no command runs, only the shell has a step. -/
theorem only_shell (finished : ∀ p ∈ m.procs, p.running = false) (other : a ≠ .shell) :
    runningStep c capacity m a = none := by
  have stopped : ∀ {j : Nat} {p : Proc}, m.procs[j]? = some p → p.running = false :=
    fun there => finished _ (List.mem_of_getElem? there)
  cases a with
  | shell => exact absurd rfl other
  | read j | endOfFile j | write j | exit j =>
      simp only [runningStep, Option.bind_eq_bind, Option.bind_eq_none_iff]
      intro p there
      simp [stopped there]

/-- The shell goes on behind a command that has ended. -/
theorem Quiet.wait (h : Quiet first i rest m) (waits : m.waiting ≠ none)
    (operands : m.operands = (piped rest).items) :
    ∃ m', runningStep c capacity m .shell = some m' ∧ Quiet first i rest m' ∧ m'.waiting = none ∧
      m'.operands = (piped rest).items := by
  obtain ⟨item, waiting⟩ := Option.ne_none_iff_exists'.mp waits
  have finished : m.procs.any (·.running) = false := by
    rw [List.any_eq_false]
    exact fun p inside => by simp [h.finished p inside]
  refine ⟨{ m with
    waiting := none
    exitCode := (item.run m.world (m.procs.length - 1)
      (c.ends (m.procs.length - 1))).1.getExitCode }, ?_,
    ⟨h.started, h.finished, h.empty, h.prepared⟩, rfl, operands⟩
  simp only [runningStep, shellStep, waiting, finished]
  rfl

theorem Quiet.joint (h : Quiet first i rest m) (waits : m.waiting = none)
    (operands : m.operands = .op .pipeline :: upcoming rest) :
    ∃ m', runningStep c capacity m .shell = some m' ∧ Quiet first i rest m' ∧ m'.waiting = none ∧
      m'.operands = upcoming rest := by
  refine ⟨{ m with operands := upcoming rest }, ?_,
    ⟨h.started, h.finished, h.empty, h.prepared⟩, waits,
    rfl⟩
  simp [runningStep, shellStep, waits, operands]

/-- What the steps of a pipeline keep. -/
theorem Stage.step (h : Stage c capacity first i rest m)
    (taken : runningStep c capacity m a = some m') :
    ∃ i' rest', i' + rest'.length = i + rest.length ∧ Stage c capacity first i' rest' m' := by
  have quiet : (∀ p ∈ m.procs, p.running = false) → a = .shell := by
    intro finished
    by_contra other
    rw [only_shell finished other] at taken
    cases taken
  cases h with
  | ready idle waits operands =>
      obtain rfl := quiet idle.finished
      cases rest with
      | nil => simp [runningStep, shellStep, waits, operands, upcoming] at taken
      | cons item rest =>
          obtain ⟨m'', p, started, going⟩ := idle.start (c := c) waits operands
          cases taken.symm.trans started
          refine ⟨_, _, ?_, .going going⟩
          simp only [List.length_cons]
          omega
  | going going =>
      cases a with
      | shell =>
          rw [going.shell] at taken
          cases taken
      | read j => exact ⟨_, _, rfl, .going (going.read taken)⟩
      | endOfFile j => exact ⟨_, _, rfl, .going (going.endOfFile taken)⟩
      | write j => exact ⟨_, _, rfl, .going (going.write taken)⟩
      | exit j =>
          obtain ⟨finished, waits, operands, _⟩ := going.exit taken
          exact ⟨_, _, rfl, .done finished waits operands⟩
  | done idle waits operands =>
      obtain rfl := quiet idle.finished
      obtain ⟨m'', went, idle', waits', operands'⟩ :
          ∃ m', runningStep c capacity m .shell = some m' ∧
        Quiet first i rest m' ∧ m'.waiting = none ∧ m'.operands = (piped rest).items :=
          idle.wait waits operands
      cases taken.symm.trans went
      by_cases last : rest = []
      · refine ⟨_, _, rfl, .ready idle' waits' ?_⟩
        rw [last] at operands' ⊢
        exact operands'
      · exact ⟨_, _, rfl, .joint idle' waits' last (operands'.trans (items_piped last))⟩
  | joint idle waits more operands =>
      obtain rfl := quiet idle.finished
      obtain ⟨m'', went, idle', waits', operands'⟩ :
          ∃ m', runningStep c capacity m .shell = some m' ∧
        Quiet first i rest m' ∧ m'.waiting = none ∧ m'.operands = upcoming rest :=
          idle.joint waits operands
      cases taken.symm.trans went
      exact ⟨_, _, rfl, .ready idle' waits' operands'⟩

/-! ## When a command can go on -/

/-- The command takes a step that brings it nearer to its end, or its pipe is full. -/
theorem Going.next (h : Going c capacity first i rest p m) :
    (∃ a m' p', runningStep c capacity m a = some m' ∧ Going c capacity first i rest p' m' ∧
      left c i m' p' < left c i m p) ∨
    (∃ m', runningStep c capacity m (.exit i) = some m') ∨ Full c capacity i rest p := by
  have there := h.proc
  cases wants : c.wantsRead i p with
  | true =>
      left
      have unended : p.ended = false := by
        by_contra ended
        simp [Programs.wantsRead, ended] at wants
      have ends : left c i (m.setProc i { p with ended := true }) { p with ended := true } <
          left c i m p := by
        show _ + inputBytes m p + 0 < _ + inputBytes m p + if p.ended = true then 0 else 1
        rw [unended]
        exact Nat.lt_succ_self _
      rcases h.started.input with outside | ⟨k, _, before, from', closed, unheld⟩
      · have taken : runningStep c capacity m (.endOfFile i) =
            some (m.setProc i { p with ended := true }) := by
          simp only [runningStep, there, Option.bind_eq_bind, Option.bind_some, h.running, wants,
            Bool.and_self, if_true]
          split
          · rename_i k from'
            exact absurd from' (outside k false)
          · rfl
        exact ⟨_, _, _, taken, h.endOfFile taken, ends⟩
      · by_cases empty : m.buffered k = 0
        · have writerless : ¬ m.held (.pipe k true) := by
            rintro (shell | ⟨x, inside, running, holds⟩)
            · exact closed shell
            · obtain ⟨j, there⟩ := List.mem_iff_getElem?.mp inside
              rw [(h.proc_eq there running).2] at holds
              exact unheld holds
          have taken : runningStep c capacity m (.endOfFile i) =
              some (m.setProc i { p with ended := true }) := by
            simp only [runningStep, there, Option.bind_eq_bind, Option.bind_some, h.running, wants,
              Bool.and_self, if_true, from', empty, true_and, if_pos writerless]
          exact ⟨_, _, _, taken, h.endOfFile taken, ends⟩
        · have taken : runningStep c capacity m (.read i) =
              some { m.setProc i { p with seen := p.seen + 1 } with
                buffered := Function.update m.buffered k (m.buffered k - 1) } := by
            simp only [runningStep, there, Option.bind_eq_bind, Option.bind_some, h.running, wants,
              Bool.and_self, if_true, from', if_pos (Nat.pos_of_ne_zero empty)]
          refine ⟨_, _, _, taken, h.read taken, ?_⟩
          simp only [left, inputBytes, from', Function.update_self]
          omega
  | false =>
      by_cases unwritten : p.written < c.amount i
      · have writes :
            (p.running && !c.wantsRead i p && decide (p.written < c.amount i)) = true := by
          simp [h.running, wants, unwritten]
        by_cases last : rest = []
        · left
          have taken : runningStep c capacity m (.write i) =
              some (m.setProc i { p with written := p.written + 1 }) := by
            simp only [runningStep, there, Option.bind_eq_bind, Option.bind_some, if_pos writes]
            split
            · rename_i k to'
              exact absurd to' (h.started.last last k true)
            · rfl
          refine ⟨_, _, _, taken, h.write taken, ?_⟩
          show (c.amount i - (p.written + 1)) + inputBytes m p + (if p.ended = true then 0 else 1) <
            (c.amount i - p.written) + inputBytes m p + (if p.ended = true then 0 else 1)
          omega
        · have to' := (h.started.output last).1
          obtain ⟨buffered, most⟩ := h.output last
          by_cases room : m.buffered (first + i) < capacity
          · left
            have taken : runningStep c capacity m (.write i) =
                some { m.setProc i { p with written := p.written + 1 } with
                  buffered := Function.update m.buffered (first + i)
                    (m.buffered (first + i) + 1) } := by
              simp only [runningStep, there, Option.bind_eq_bind, Option.bind_some, if_pos writes,
                to', if_neg (not_not.mpr (h.held last)), if_pos room]
            refine ⟨_, _, _, taken, h.write taken, ?_⟩
            have same : inputBytes { m.setProc i { p with written := p.written + 1 } with
                buffered := Function.update m.buffered (first + i) (m.buffered (first + i) + 1) }
                { p with written := p.written + 1 } = inputBytes m p := by
              rcases h.started.input with outside | ⟨k, _, before, from', _⟩
              · simp only [inputBytes]
                split
                · rename_i k from'
                  exact absurd from' (outside k false)
                · rfl
              · simp only [inputBytes, from']
                exact Function.update_of_ne (Nat.ne_of_lt before) _ _
            rw [left, same, left]
            show (c.amount i - (p.written + 1)) + inputBytes m p +
                (if p.ended = true then 0 else 1) <
              (c.amount i - p.written) + inputBytes m p + (if p.ended = true then 0 else 1)
            omega
          · exact Or.inr (Or.inr ⟨last, wants, by omega, by omega⟩)
      · right; left
        have all : p.written = c.amount i := Nat.le_antisymm h.bound (Nat.le_of_not_lt unwritten)
        have ended : p.ended = true := by
          simpa [Programs.wantsRead, all] using wants
        refine ⟨m.setProc i { p with running := false }, ?_⟩
        simp only [runningStep, there, Option.bind_eq_bind, Option.bind_some, h.running, ended, all,
          Bool.and_self, beq_self_eq_true, if_true]

/-- A command whose pipe is full blocks the pipeline. -/
theorem Going.blocked (h : Going c capacity first i rest p m) (full : Full c capacity i rest p) :
    Blocked c capacity m := by
  have there := h.proc
  refine ⟨Or.inr ⟨p, List.mem_of_getElem? there, h.running⟩, ?_⟩
  obtain ⟨buffered, _⟩ := h.output full.more
  have to' := (h.started.output full.more).1
  have own : ∀ {j p'}, m.procs[j]? = some p' → p'.running = true → j = i ∧ p' = p :=
    fun there running => h.proc_eq there running
  intro a
  cases a with
  | shell => exact h.shell
  | read j | endOfFile j =>
      simp only [runningStep, Option.bind_eq_bind, Option.bind_eq_none_iff]
      intro p' there'
      rw [if_neg]
      rw [Bool.and_eq_true]
      rintro ⟨running, wants⟩
      obtain ⟨rfl, rfl⟩ := h.proc_eq there' running
      rw [full.writes] at wants
      cases wants
  | write j =>
      simp only [runningStep, Option.bind_eq_bind, Option.bind_eq_none_iff]
      intro p' there'
      split
      · rename_i may
        simp only [Bool.and_eq_true] at may
        obtain ⟨rfl, rfl⟩ := h.proc_eq there' may.1.1
        rw [to']
        simp only [if_neg (not_not.mpr (h.held full.more))]
        exact if_neg (by rw [buffered, full.full]; exact Nat.lt_irrefl _)
      · rfl
  | exit j =>
      simp only [runningStep, Option.bind_eq_bind, Option.bind_eq_none_iff]
      intro p' there'
      rw [if_neg]
      simp only [Bool.and_eq_true, beq_iff_eq]
      rintro ⟨⟨running, _⟩, all⟩
      obtain ⟨rfl, rfl⟩ := h.proc_eq there' running
      have := full.unwritten
      have := full.full
      omega

/-- Where every command but the last writes at most what a pipe holds, something
can be done until all commands have ended. -/
theorem Stage.not_blocked (h : Stage c capacity first i rest m)
    (fits : ∀ j, j + 1 < i + rest.length → c.amount j ≤ capacity) : ¬ Blocked c capacity m := by
  rintro ⟨unfinished, none⟩
  have stuck : ∀ {a m'}, runningStep c capacity m a = some m' → False := by
    intro a m' taken
    rw [none a] at taken
    cases taken
  cases h with
  | ready idle waits operands =>
      cases rest with
      | nil =>
          rcases unfinished with ⟨item, inside⟩ | ⟨p, inside, running⟩
          · rw [operands] at inside
            exact List.not_mem_nil inside
          · rw [idle.finished p inside] at running
            cases running
      | cons item rest =>
          obtain ⟨_, _, taken, _⟩ := idle.start (c := c) waits operands
          exact stuck taken
  | @going i _ p _ going =>
      rcases going.next with ⟨_, _, _, taken, _⟩ | ⟨_, taken⟩ | full
      · exact stuck taken
      · exact stuck taken
      · have few := fits i (by have := List.length_pos_iff.mpr full.more; omega)
        have := full.unwritten
        omega
  | done idle waits operands =>
      obtain ⟨_, taken, _⟩ := idle.wait (c := c) waits operands
      exact stuck taken
  | joint idle waits more operands =>
      obtain ⟨_, taken, _⟩ := idle.joint (c := c) waits operands
      exact stuck taken

theorem NeverBlocked.after (h : NeverBlocked c capacity m) {acts : List Act}
    (ran : Run (runningStep c capacity) Always m acts m') : NeverBlocked c capacity m' :=
  fun acts' m'' more => h (acts ++ acts') m'' (ran.trans more)

theorem NeverBlocked.step (h : NeverBlocked c capacity m)
    (taken : runningStep c capacity m a = some m') : NeverBlocked c capacity m' :=
  h.after (.single trivial taken)

/-- A command that is never blocked can be run to its end. -/
theorem Going.finish (h : Going c capacity first i rest p m) (never : NeverBlocked c capacity m) :
    ∃ m', NeverBlocked c capacity m' ∧ Quiet first (i + 1) rest m' ∧ m'.waiting ≠ none ∧
      m'.operands = (piped rest).items ∧ (rest ≠ [] → c.amount i ≤ capacity) := by
  induction steps : left c i m p using Nat.strong_induction_on generalizing m p with
  | _ n ih =>
      rcases h.next with ⟨a, m', p', taken, going, less⟩ | ⟨m', taken⟩ | full
      · exact ih _ (steps ▸ less) going (never.step taken) rfl
      · exact ⟨m', never.step taken, h.exit taken⟩
      · exact absurd (h.blocked full) (never [] m .nil)

/-- In a pipeline that is never blocked every command but the last fits. -/
theorem Quiet.fits (h : Quiet first i rest m) (waits : m.waiting = none)
    (operands : m.operands = upcoming rest) (never : NeverBlocked c capacity m) (j : Nat)
    (least : i ≤ j) (most : j + 1 < i + rest.length) : c.amount j ≤ capacity := by
  induction rest generalizing i m with
  | nil =>
      rw [List.length_nil] at most
      omega
  | cons item rest ih =>
      obtain ⟨m₁, p, started, going⟩ : ∃ m' p, runningStep c capacity m .shell = some m' ∧
        Going c capacity first i rest p m' := h.start waits operands
      obtain ⟨m₂, never₂, idle, waiting, operands₂, fits⟩ := going.finish (never.step started)
      rw [List.length_cons] at most
      by_cases last : rest = []
      · rw [last, List.length_nil] at most
        omega
      by_cases own : j = i
      · rw [own]
        exact fits last
      · obtain ⟨m₃, taken₃, idle₃, waits₃, operands₃⟩ : ∃ m', runningStep c capacity m₂ .shell =
          some m' ∧ Quiet first (i + 1) rest m' ∧ m'.waiting = none ∧
          m'.operands = (piped rest).items := idle.wait waiting operands₂
        obtain ⟨m₄, taken₄, idle₄, waits₄, operands₄⟩ : ∃ m', runningStep c capacity m₃ .shell =
          some m' ∧ Quiet first (i + 1) rest m' ∧ m'.waiting = none ∧
          m'.operands = upcoming rest :=
            idle₃.joint waits₃ (operands₃.trans (items_piped last))
        exact ih idle₄ waits₄ operands₄ ((never₂.step taken₃).step taken₄) (by omega) (by omega)

end Steps

/-! ## Pipelines -/

/-- The line of a pipeline. -/
def pipelineLine (first : CommandText) (rest : List CommandText) : Line where
  first := first
  rest := rest.map (.pipeline, ·)
  background := false
  joined r inside := by
    obtain ⟨c, _, rfl⟩ := List.mem_map.mp inside
    exact OpType.noConfusion

theorem Filed.extends {w w' : World} {fd : Option Int} (h : Filed w fd) (valid : w.Valid)
    (valid' : w'.Valid) (more : w.Extends w') : Filed w' fd := by
  intro n same
  refine (h n same).imp_right ?_
  rintro ⟨path, writing, file⟩
  exact ⟨path, writing, valid'.lookup_eq.mp (more.descriptors _ _ (valid.lookup_eq.mpr file))⟩

/-- Items that were made for the commands of a pipeline are joined by `|`. -/
theorem MadeAll.piped {w w' : World} {rest : List CommandText} {items : Joined}
    (made : MadeAll w w' (rest.map (OpType.pipeline, ·)) items) (valid : w'.Valid) :
    ∃ commands, items = Pipelines.piped commands ∧ commands.length = rest.length ∧
      ∀ x ∈ commands, Filed w' x.stdoutFd := by
  induction rest generalizing items with
  | nil =>
      cases made
      exact ⟨[], rfl, rfl, nofun⟩
  | cons c rest ih =>
      obtain ⟨⟨op, item⟩, items, ⟨same, own⟩, others, rfl⟩ := List.forall₂_cons_left_iff.mp made
      obtain rfl : op = .pipeline := same
      obtain ⟨commands, rfl, length, filed⟩ := ih others
      refine ⟨item :: commands, rfl, ?_, ?_⟩
      · rw [List.length_cons, List.length_cons, length]
      · intro x inside
        rcases List.mem_cons.mp inside with rfl | inside
        · exact Made.filed own valid .output
        · exact filed x inside

/-- The sequence of a pipeline, before its first command is started. Of a single
command no pipe replaces a file. -/
theorem build_pipeline (first : CommandText) (rest : List CommandText) (w : World)
    (valid : w.Valid) :
    ∃ item commands w' n, buildCommandSequence (pipelineLine first rest).tokens w =
        some (upcoming (item :: commands), w') ∧ commands.length = rest.length ∧
      Prepared n n (item :: commands) w' ∧ (rest = [] → HasFiles w w' first item) := by
  obtain ⟨item, items, w₁, read, more, made, madeAll⟩ :=
    firstLoop_line first (rest.map (OpType.pipeline, ·)) (pipelineLine first rest).joined false [] w
  have valid₁ := more.valid valid
  obtain ⟨commands, rfl, length, filed⟩ := MadeAll.piped madeAll valid₁
  have all : ∀ x ∈ item :: commands, Filed w₁ x.stdoutFd := by
    intro x inside
    rcases List.mem_cons.mp inside with rfl | inside
    · exact Made.filed made valid₁ .output
    · exact filed x inside
  obtain ⟨item', commands', w', wired, length', stdin, valid', _, owns⟩ :=
    wire_owns item commands w₁ valid₁ all
  have more' : w₁.Extends w' := by
    have extends' := (wire_shapes item (piped commands) w₁).1
    rw [wired] at extends'
    exact extends'
  refine ⟨item', commands', w', w₁.pipes, ?_, length'.trans length, ⟨valid', ?_⟩, ?_⟩
  · rw [buildCommandSequence]
    refine (congrArg (· >>= secondLoop) read).trans ?_
    have none : NoPipeline [] := List.not_mem_nil
    have second := secondLoop_wire item (piped commands) none w₁
    rw [wired] at second
    simpa [trailingOps, upcoming] using second
  · rintro _ _ ⟨rfl, rfl⟩
    refine ⟨owns, Or.inl ⟨rfl, ?_⟩⟩
    rw [stdin]
    exact ((Made.filed made valid₁ .input).extends valid₁ valid' more').foreign valid'
  · rintro rfl
    obtain rfl := List.length_eq_zero_iff.mp length
    have same : (item, w₁) = (item', w') := congrArg (fun wired => (wired.1.1, wired.2)) wired
    cases same
    exact made.files

theorem neverBlocked_iff (c : Programs) (capacity : Nat) {item : CommandItem}
    {commands : List CommandItem} {w : World} {n : Nat}
    (prepared : Prepared n n (item :: commands) w) :
    NeverBlocked c capacity (.start (upcoming (item :: commands)) w) ↔
      ∀ i < commands.length, c.amount i ≤ capacity := by
  have quiet : Quiet n 0 (item :: commands) (.start (upcoming (item :: commands)) w) :=
    ⟨rfl, nofun, fun _ _ => rfl, prepared⟩
  constructor
  · intro never i few
    apply quiet.fits rfl rfl never i (Nat.zero_le i)
    rw [List.length_cons]
    omega
  · intro fits acts m ran
    have stage : ∃ i rest, i + rest.length = commands.length + 1 ∧ Stage c capacity n i rest m := by
      apply ran.invariant fun _ m =>
        ∃ i rest, i + rest.length = commands.length + 1 ∧ Stage c capacity n i rest m
      · exact ⟨0, item :: commands, Nat.zero_add _, .ready quiet rfl rfl⟩
      · rintro _ _ _ _ ⟨i, rest, total, stage⟩ - taken
        obtain ⟨i', rest', same, stage'⟩ := stage.step taken
        exact ⟨i', rest', same.trans total, stage'⟩
    obtain ⟨i, rest, total, stage⟩ := stage
    exact stage.not_blocked fun j most => fits j (by omega)

/-- A pipeline cannot block itself exactly when every command but the last
writes at most what a pipe holds. -/
theorem never_blocked_iff (first : CommandText) (rest : List CommandText)
    (w : { w : World // w.Valid }) (c : Programs) (capacity : Nat) :
    ∃ operands w', buildCommandSequence (pipelineLine first rest).tokens w = some (operands, w') ∧
      (NeverBlocked c capacity (.start operands w') ↔
        ∀ i < rest.length, c.amount i ≤ capacity) := by
  obtain ⟨item, commands, w', n, built, length, prepared, _⟩ := build_pipeline first rest w w.2
  refine ⟨_, w', built, ?_⟩
  rw [← length]
  exact neverBlocked_iff c capacity prepared

/-- `cat < f` and `wc`. -/
def catFile : CommandText :=
  plainCommand [text "cat"] [(.input, text "f")] (by decide) (by decide) (by decide) (by decide)

theorem no_files : ∀ r ∈ ([] : List (Direction × Token)), IsPlain r.2 := List.forall_mem_nil _

def wc : CommandText :=
  plainCommand [text "wc"] [] (by decide) (by decide) no_files List.nodup_nil

/-- The file has one byte more than a pipe of 64 KiB holds. -/
def longFile : Programs where
  amount i := if i = 0 then 65537 else 6
  readsFirst _ seen written := decide (seen = written)
  ends _ := .exited 0

/-- Not every pipeline can always go on: `cat < f | wc` blocks. -/
theorem not_never_blocked : ¬ ∀ (first : CommandText) (rest : List CommandText)
    (w : { w : World // w.Valid }) (c : Programs) (capacity : Nat) operands w',
    buildCommandSequence (pipelineLine first rest).tokens w = some (operands, w') →
      NeverBlocked c capacity (.start operands w') := by
  intro always
  have clean : (World.fresh [text "f"]).Valid := ⟨List.nodup_nil, nofun, nofun⟩
  obtain ⟨item, commands, w', n, built, length, prepared, _⟩ :=
    build_pipeline catFile [wc] _ clean
  have never := always catFile [wc] ⟨_, clean⟩ longFile 65536 _ _ built
  have fits := (neverBlocked_iff longFile 65536 prepared).mp never 0 (by rw [length]; decide)
  exact absurd fits (by decide)

end Pipelines

end LisonShell
