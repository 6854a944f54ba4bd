import Technosphere.Bytes
import Mathlib.Data.List.Nodup
import Mathlib.Data.List.Perm.Subperm
import Mathlib.Data.List.TakeWhile

/-!
# Commands of the shell

A command item is made of the tokens of one command. Redirections are opened
at once, in the constructor; the ends of pipes are added later. `run` starts a
child and waits for it.

`World` is what the shell process can see and change: files, its descriptors
besides the standard ones, and the children it has started. Which file a path
leads to and which files may be opened is up to the file system, a `Volume`.
The arguments of an item are pointers into strings of the parser, `CharPtr`;
what they lead to when a child is started depends on how strings are copied.
-/

namespace LisonShell

open Bytes

abbrev Token := List UInt8

/-! ## Strings of C -/

/-- What a C function reads of a string with the given bytes: up to the first NUL. -/
def cString (bytes : List UInt8) : List UInt8 := bytes.takeWhile (· ≠ 0)

theorem cString_eq_self_iff {bytes : List UInt8} : cString bytes = bytes ↔ 0 ∉ bytes := by
  rw [cString, List.takeWhile_eq_self_iff]
  constructor
  · intro all inside
    simpa using all 0 inside
  · intro free chr inside
    have other : chr ≠ 0 := fun zero => free (zero ▸ inside)
    exact decide_eq_true other

/-- What a copy of a `std::string` has of its original. -/
inductive StringCopy where
  /-- The bytes, which stay as long as one of the two does. -/
  | shared
  /-- Bytes of its own, which go with the copy. -/
  | own
  deriving DecidableEq, Repr

/-- A pointer that `c_str` gave for a string of `current_command`, known by the
token that this string is a copy of. -/
abbrev CharPtr := Token

/-- What the pointer leads to once `build_command_sequence` has returned. Then
`current_command` has been cleared and destroyed, and the tokens of the line
are still there. Reading bytes that are gone has no meaning. -/
def CharPtr.read (ptr : CharPtr) : StringCopy → Option (List UInt8)
  | .shared => some (cString ptr)
  | .own => none

/-! ## The shell process -/

/-- Which file a path leads to, whether or not it exists, and which files may be
opened. A file is known by one of its names. -/
structure Volume where
  /-- Nothing where a directory is missing. -/
  resolve : List UInt8 → Option Token
  mayRead : Token → Bool
  /-- The file may be written, or created where there is none. -/
  mayWrite : Token → Bool

/-- Every path is the name of a file, which may be opened. -/
def Volume.flat : Volume := ⟨some, fun _ => true, fun _ => true⟩

/-- What a descriptor leads to. -/
inductive Stream where
  | file (name : Token) (writing : Bool)
  | pipe (number : Nat) (writing : Bool)
  deriving DecidableEq, Repr

/-- Standard input or output of a child. -/
inductive Standard where
  /-- That of the shell. -/
  | inherited
  /-- Closed, because the descriptor to take its place does not exist. -/
  | closed
  | redirected (stream : Stream)
  deriving DecidableEq, Repr

/-- A child that was started for the command with the given number. -/
structure Child where
  command : Nat
  args : List CharPtr
  stdin : Standard
  stdout : Standard
  deriving DecidableEq, Repr

structure World where
  volume : Volume
  files : List Token
  descriptors : List (Int × Stream)
  pipes : Nat
  children : List Child

namespace World

/-- A shell that has opened and started nothing, with the given files. -/
def fresh (files : List Token) : World := ⟨.flat, files, [], 0, []⟩

/-- The file that a path leads to. -/
def named (w : World) (path : Token) : Option Token := w.volume.resolve (cString path)

/-- The file that `open` finds at the path, for reading. -/
def readable (w : World) (path : Token) : Option Token :=
  (w.named path).filter fun file => decide (file ∈ w.files) && w.volume.mayRead file

/-- The file that `open` finds at the path or may create there, for writing. -/
def writable (w : World) (path : Token) : Option Token :=
  (w.named path).filter w.volume.mayWrite

/-- The lowest descriptor number that is not in use. -/
def freshFd (w : World) : Int :=
  let numbers := (List.range (w.descriptors.length + 1)).map fun n => (n : Int) + 3
  (numbers.find? fun fd => decide (fd ∉ w.descriptors.map Prod.fst)).getD 3

/-- Open a descriptor on `stream`. -/
def allocate (w : World) (stream : Stream) : Int × World :=
  (w.freshFd, { w with descriptors := (w.freshFd, stream) :: w.descriptors })

/-- `open` for reading, which fails on a file that does not exist or may not be read. -/
def openRead (w : World) (path : Token) : Int × World :=
  match w.readable path with
  | some file => w.allocate (.file file false)
  | none => (-1, w)

theorem openRead_children (w : World) (path : Token) :
    (w.openRead path).2.children = w.children := by
  rw [openRead]
  split <;> rfl

/-- There is such a file from now on. -/
def create (w : World) (file : Token) : World :=
  { w with files := if file ∈ w.files then w.files else file :: w.files }

/-- `open` for writing, which creates the file and truncates it, and fails in a
directory that is missing or where it is not allowed. -/
def openWrite (w : World) (path : Token) : Int × World :=
  match w.writable path with
  | some file => (w.create file).allocate (.file file true)
  | none => (-1, w)

theorem openWrite_children (w : World) (path : Token) :
    (w.openWrite path).2.children = w.children := by
  rw [openWrite]
  split <;> rfl

/-- `pipe`: the read end and the write end. -/
def pipe (w : World) : (Int × Int) × World :=
  let read := w.allocate (.pipe w.pipes false)
  let write := read.2.allocate (.pipe w.pipes true)
  ((read.1, write.1), { write.2 with pipes := w.pipes + 1 })

def close (w : World) (fd : Int) : World :=
  { w with descriptors := w.descriptors.filter fun d => d.1 ≠ fd }

/-- The candidates for the next descriptor, one more than there are descriptors. -/
def candidates (w : World) : List Int :=
  (List.range (w.descriptors.length + 1)).map fun n : Nat => (n : Int) + 3

theorem freshFd_eq (w : World) : w.freshFd =
    (w.candidates.find? fun fd => decide (fd ∉ w.descriptors.map Prod.fst)).getD 3 := by
  simp only [freshFd, candidates, List.bind_eq_flatMap, List.pure_def, ← List.map_eq_flatMap,
    List.map_map]
  rfl

/-- Some of the first numbers after the standard ones is not in use. -/
theorem freshFd_mem (w : World) :
    3 ≤ w.freshFd ∧ w.freshFd ∉ w.descriptors.map Prod.fst := by
  have distinct : w.candidates.Nodup :=
    List.Nodup.map (fun a b same => by omega) List.nodup_range
  have unused : w.candidates.find? (fun fd => decide (fd ∉ w.descriptors.map Prod.fst)) ≠ none := by
    intro none
    have all : ∀ fd ∈ w.candidates, fd ∈ w.descriptors.map Prod.fst := by
      intro fd inside
      have used := List.find?_eq_none.mp none fd inside
      simpa only [decide_eq_true_eq, not_not] using used
    have few := (List.subperm_of_subset distinct all).length_le
    simp only [candidates, List.length_map, List.length_range] at few
    omega
  obtain ⟨fd, found⟩ := Option.ne_none_iff_exists'.mp unused
  rw [freshFd_eq, found, Option.getD_some]
  refine ⟨?_, by simpa using List.find?_some found⟩
  obtain ⟨n, _, rfl⟩ := List.mem_map.mp (List.mem_of_find?_eq_some found)
  omega

/-- Descriptors have different numbers after those of the standard ones, and
the pipes that they lead to have been made. -/
structure Valid (w : World) : Prop where
  distinct : (w.descriptors.map Prod.fst).Nodup
  numbers : ∀ d ∈ w.descriptors, 3 ≤ d.1
  pipes : ∀ fd number writing, (fd, .pipe number writing) ∈ w.descriptors → number < w.pipes

namespace Valid

variable {w : World}

/-- A descriptor leads to one stream. -/
theorem functional (h : w.Valid) {fd : Int} {s s' : Stream} (first : (fd, s) ∈ w.descriptors)
    (second : (fd, s') ∈ w.descriptors) : s = s' :=
  congrArg Prod.snd (List.inj_on_of_nodup_map h.distinct first second rfl)

theorem lookup_eq (h : w.Valid) {fd : Int} {s : Stream} :
    w.descriptors.lookup fd = some s ↔ (fd, s) ∈ w.descriptors := by
  have mem : ∀ {s}, w.descriptors.lookup fd = some s → (fd, s) ∈ w.descriptors := by
    intro s found
    obtain ⟨before, after, split, _⟩ := List.lookup_eq_some_iff.mp found
    rw [split]
    exact List.mem_append_right _ List.mem_cons_self
  refine ⟨mem, fun inside => ?_⟩
  cases found : w.descriptors.lookup fd with
  | some s' => rw [h.functional (mem found) inside]
  | none =>
      have absent := List.lookup_eq_none_iff.mp found (fd, s) inside
      simp at absent

theorem allocate (h : w.Valid) (stream : Stream)
    (made : ∀ number writing, stream = .pipe number writing → number < w.pipes) :
    (w.allocate stream).2.Valid where
  distinct := List.nodup_cons.mpr ⟨w.freshFd_mem.2, h.distinct⟩
  numbers d inside := by
    rcases List.mem_cons.mp inside with same | inside
    · rw [same]
      exact w.freshFd_mem.1
    · exact h.numbers d inside
  pipes fd number writing inside := by
    rcases List.mem_cons.mp inside with same | inside
    · exact made number writing (congrArg Prod.snd same).symm
    · exact h.pipes fd number writing inside

theorem pipe (h : w.Valid) : w.pipe.2.Valid := by
  have more : { w with pipes := w.pipes + 1 }.Valid :=
    ⟨h.distinct, h.numbers, fun fd number writing inside =>
      Nat.lt_succ_of_lt (h.pipes fd number writing inside)⟩
  have ends := (more.allocate (.pipe w.pipes false) ?_).allocate (.pipe w.pipes true) ?_
  · exact ends
  · rintro _ _ same
    cases same
    exact Nat.lt_succ_self _
  · rintro _ _ same
    cases same
    exact Nat.lt_succ_self _

theorem close (h : w.Valid) (fd : Int) : (w.close fd).Valid where
  distinct := (List.filter_sublist.map Prod.fst).nodup h.distinct
  numbers d inside := h.numbers d (List.mem_of_mem_filter inside)
  pipes n number writing inside := h.pipes n number writing (List.mem_of_mem_filter inside)

end Valid

/-- What is open stays open, and no file is removed. -/
structure Extends (w w' : World) : Prop where
  volume : w'.volume = w.volume
  descriptors : ∀ fd stream, w.descriptors.lookup fd = some stream →
    w'.descriptors.lookup fd = some stream
  files : ∀ path ∈ w.files, path ∈ w'.files
  valid : w.Valid → w'.Valid

namespace Extends

variable {w w' w'' : World}

theorem refl (w : World) : Extends w w :=
  ⟨rfl, fun _ _ found => found, fun _ inside => inside, id⟩

theorem trans (h : Extends w w') (h' : Extends w' w'') : Extends w w'' :=
  ⟨h'.volume.trans h.volume,
    fun fd stream found => h'.descriptors fd stream (h.descriptors fd stream found),
    fun path inside => h'.files path (h.files path inside), fun all => h'.valid (h.valid all)⟩

theorem named (h : Extends w w') (path : Token) : w'.named path = w.named path := by
  rw [World.named, World.named, h.volume]

end Extends

@[simp] theorem allocate_lookup (w : World) (stream : Stream) :
    (w.allocate stream).2.descriptors.lookup (w.allocate stream).1 = some stream :=
  List.lookup_cons_self

theorem allocate_keeps (w : World) (stream : Stream) (fd : Int) (stream' : Stream)
    (found : w.descriptors.lookup fd = some stream') :
    (w.allocate stream).2.descriptors.lookup fd = some stream' := by
  have other : fd ≠ w.freshFd := by
    rintro rfl
    obtain ⟨before, after, split, _⟩ := List.lookup_eq_some_iff.mp found
    apply w.freshFd_mem.2
    rw [split]
    simp
  show List.lookup fd ((w.freshFd, stream) :: w.descriptors) = _
  rw [List.lookup_cons, beq_false_of_ne other]
  exact found

theorem allocate_file_extends (w : World) (path : Token) (writing : Bool) :
    Extends w (w.allocate (.file path writing)).2 where
  volume := rfl
  descriptors := w.allocate_keeps _
  files _ inside := inside
  valid all := all.allocate _ nofun

theorem mem_create (w : World) (file other : Token) :
    other ∈ (w.create file).files ↔ other ∈ w.files ∨ other = file := by
  show (other ∈ if file ∈ w.files then w.files else file :: w.files) ↔ _
  split
  · rename_i there
    exact ⟨Or.inl, fun h => h.elim id fun same => same ▸ there⟩
  · rw [List.mem_cons, or_comm]

theorem create_extends (w : World) (file : Token) : Extends w (w.create file) :=
  ⟨rfl, fun _ _ found => found, fun other inside => (w.mem_create file other).mpr (Or.inl inside),
    fun all => ⟨all.distinct, all.numbers, all.pipes⟩⟩

/-- The two ends of a new pipe. -/
theorem pipe_extends (w : World) : Extends w w.pipe.2 ∧
    w.pipe.2.descriptors.lookup w.pipe.1.1 = some (.pipe w.pipes false) ∧
    w.pipe.2.descriptors.lookup w.pipe.1.2 = some (.pipe w.pipes true) := by
  have keeps := (w.allocate (.pipe w.pipes false)).2.allocate_keeps (.pipe w.pipes true)
  refine ⟨⟨rfl, ?_, fun _ inside => inside, Valid.pipe⟩, ?_, ?_⟩
  · exact fun fd stream found => keeps fd stream (w.allocate_keeps _ fd stream found)
  · exact keeps _ _ (allocate_lookup w _)
  · exact allocate_lookup _ _

/-- Where a descriptor that replaces a standard one leads. -/
def standard (w : World) : Option Int → Standard
  | none => .inherited
  | some fd =>
    match w.descriptors.lookup fd with
    | some stream => .redirected stream
    | none => .closed

end World

/-! ## How children end -/

inductive Termination where
  | exited (code : UInt8)
  | signaled (signum : Nat) (known : 0 < signum ∧ signum < 127)
  deriving DecidableEq

/-- The status that `wait` reports. -/
def Termination.status : Termination → Int
  | .exited code => code.toNat * 256
  | .signaled signum _ => signum

def wifexited (status : Int) : Bool := status % 128 == 0

def wexitstatus (status : Int) : Int := status / 256 % 256

/-! ## Command items -/

/-- The fields that a constructed item can be asked for. `stdinFd` is present
when `stdin_redirected` is set, and `stdoutFd` likewise. -/
structure CommandItem where
  args : List CharPtr
  status : Int
  stdinFd : Option Int
  stdoutFd : Option Int
  otherSideOfPipeFd : Int
  deriving DecidableEq, Repr

namespace CommandItem

/-- The loop of the constructor. It has no meaning when a redirection is the
last token, because the token after it is read. -/
def scan : List Token → CommandItem → World → Option (CommandItem × World)
  | [], item, w => some (item, w)
  | token :: rest, item, w =>
    if token = text "<" then
      match rest with
      | [] => none
      | path :: rest =>
        let opened := w.openRead path
        scan rest { item with stdinFd := some opened.1 } opened.2
    else if token = text ">" then
      match rest with
      | [] => none
      | path :: rest =>
        let opened := w.openWrite path
        scan rest { item with stdoutFd := some opened.1 } opened.2
    else
      scan rest { item with args := item.args ++ [token] } w

/-- The constructor. -/
def new (cmdTokens : List Token) (w : World) : Option (CommandItem × World) :=
  scan cmdTokens ⟨[], -1, none, none, 0⟩ w

def redirectStdin (item : CommandItem) (fd otherSideFd : Int) : CommandItem :=
  { item with stdinFd := some fd, otherSideOfPipeFd := otherSideFd }

def redirectStdout (item : CommandItem) (fd otherSideFd : Int) : CommandItem :=
  { item with stdoutFd := some fd, otherSideOfPipeFd := otherSideFd }

/-- `get_exit_code`. -/
def getExitCode (item : CommandItem) : Int :=
  if wifexited item.status then wexitstatus item.status else 0

def closeFd (w : World) : Option Int → World
  | none => w
  | some fd => w.close fd

theorem valid_closeFd {w : World} (valid : w.Valid) (fd : Option Int) : (closeFd w fd).Valid := by
  cases fd with
  | none => exact valid
  | some n => exact valid.close n

/-- The words that `execvp` finds at the pointers in `args`. -/
def argv (copies : StringCopy) (item : CommandItem) : Option (List (List UInt8)) :=
  item.args.mapM fun ptr => CharPtr.read ptr copies

/-- `run` for the command with the given number, when the child executes its
program and ends as given: the item with the status and the shell after it. -/
def run (item : CommandItem) (w : World) (number : Nat) (ending : Termination) :
    CommandItem × World :=
  let child : Child := ⟨number, item.args, w.standard item.stdinFd, w.standard item.stdoutFd⟩
  let w := { w with children := w.children ++ [child] }
  ({ item with status := ending.status }, closeFd (closeFd w item.stdinFd) item.stdoutFd)

theorem run_children (item : CommandItem) (w : World) (number : Nat) (ending : Termination) :
    (item.run w number ending).2.children = w.children ++
      [⟨number, item.args, w.standard item.stdinFd, w.standard item.stdoutFd⟩] := by
  cases hin : item.stdinFd <;> cases hout : item.stdoutFd <;>
    simp only [run, closeFd, World.close, hin, hout]

/-- A child that exits is reported with its code. -/
theorem getExitCode_run (item : CommandItem) (w : World) (number : Nat) (code : UInt8) :
    (item.run w number (.exited code)).1.getExitCode = code.toNat := by
  have small := code.toNat_lt
  have exited : wifexited ((code.toNat : Int) * 256) = true := by
    rw [wifexited, beq_iff_eq]
    omega
  show (if wifexited ((code.toNat : Int) * 256) then wexitstatus (code.toNat * 256) else 0) = _
  rw [if_pos exited, wexitstatus]
  omega

def isRedirection (token : Token) : Bool := token == text "<" || token == text ">"

/-- The words of a command: what is neither a redirection nor its file. -/
def words : List Token → List Token
  | [] => []
  | [token] => if isRedirection token then [] else [token]
  | token :: next :: rest =>
    if isRedirection token then words rest else token :: words (next :: rest)

/-- Every redirection is followed by a file. -/
def complete : List Token → Bool
  | [] => true
  | [token] => !isRedirection token
  | token :: next :: rest =>
    if isRedirection token then complete rest else complete (next :: rest)

theorem scan_word {token : Token} (word : ¬ isRedirection token = true) (rest : List Token)
    (item : CommandItem) (w : World) :
    scan (token :: rest) item w = scan rest { item with args := item.args ++ [token] } w := by
  simp only [isRedirection, Bool.or_eq_true, beq_iff_eq, not_or] at word
  rw [scan.eq_def]
  simp only [if_neg word.1, if_neg word.2]

/-- A redirection changes neither the words nor the children. -/
theorem scan_redirection {token : Token} (redirection : isRedirection token = true) (path : Token)
    (rest : List Token) (item : CommandItem) (w : World) :
    ∃ item' w', scan (token :: path :: rest) item w = scan rest item' w' ∧
      item'.args = item.args ∧ w'.children = w.children := by
  simp only [isRedirection, Bool.or_eq_true, beq_iff_eq] at redirection
  by_cases reading : token = text "<"
  · rw [scan, if_pos reading]
    exact ⟨_, _, rfl, rfl, w.openRead_children path⟩
  · rw [scan, if_neg reading, if_pos (redirection.resolve_left reading)]
    exact ⟨_, _, rfl, rfl, w.openWrite_children path⟩

/-- The constructor makes an item with the words of the command. -/
theorem scan_complete (tokens : List Token) (h : complete tokens = true) (item : CommandItem)
    (w : World) :
    ∃ item' w', scan tokens item w = some (item', w') ∧ item'.args = item.args ++ words tokens ∧
      w'.children = w.children := by
  fun_induction complete tokens generalizing item w with
  | case1 => exact ⟨item, w, rfl, (List.append_nil _).symm, rfl⟩
  | case2 token =>
      have word : ¬ isRedirection token = true := by simpa using h
      rw [scan_word word, words, if_neg word]
      exact ⟨_, w, rfl, rfl, rfl⟩
  | case3 token path rest redirection ih =>
      rw [words, if_pos redirection]
      obtain ⟨item₁, w₁, scanned, args₁, children₁⟩ := scan_redirection redirection path rest item w
      obtain ⟨item', w', made, args, children⟩ := ih h item₁ w₁
      rw [scanned, ← args₁, ← children₁]
      exact ⟨item', w', made, args, children⟩
  | case4 token next rest word ih =>
      rw [words, if_neg word, scan_word word]
      obtain ⟨item', w', made, args, children⟩ := ih h { item with args := item.args ++ [token] } w
      refine ⟨item', w', made, ?_, children⟩
      rw [args, List.append_assoc, List.singleton_append]

theorem new_complete {tokens : List Token} (h : complete tokens = true) (w : World) :
    ∃ item w', new tokens w = some (item, w') ∧ item.args = words tokens ∧
      w'.children = w.children :=
  scan_complete tokens h _ w

end CommandItem

end LisonShell
