import Technosphere.LisonShell.Tokenizer
import Technosphere.LisonShell.Wiring

/-!
# Parsing what was printed

A `Line` is what a user means by a line of the shell: commands with their words
and files, joined by operators. Printed with blanks anywhere between its tokens,
it is split into its tokens again, and the command sequence has its words and
operators. `parsed_iff` says when the commands also have their files, and when
their words can still be read: a pipe replaces a file that was opened before,
and the words are left only to copies that share their bytes.
-/

namespace LisonShell

open Bytes

/-! ## Lines -/

inductive Direction where
  | input
  | output
  deriving DecidableEq, Repr

def Direction.sign : Direction → Token
  | .input => text "<"
  | .output => text ">"

/-- A command: words, then at most one file for each direction. -/
structure CommandText where
  words : List Token
  redirections : List (Direction × Token)
  nonempty : words ≠ []
  areWords : ∀ t ∈ words, IsWord t
  areFiles : ∀ r ∈ redirections, IsWord r.2
  once : (redirections.map Prod.fst).Nodup

namespace CommandText

def tokens (c : CommandText) : List Token :=
  c.words ++ c.redirections.flatMap fun r => [r.1.sign, r.2]

/-- The file that is named for a direction. -/
def file (c : CommandText) (d : Direction) : Option Token := c.redirections.lookup d

end CommandText

namespace OpType

def token : OpType → Token
  | .and => text "&&"
  | .or => text "||"
  | .pipeline => text "|"
  | .runInBackground => text "&"
  | .delimiter => text ";"

theorem operItem_token (op : OpType) : operItem op.token = some op := by
  cases op <;> decide

theorem isOperator_token {op : OpType} (other : op ≠ .delimiter) : isOperator op.token = true := by
  cases op with
  | delimiter => exact absurd rfl other
  | and | or | pipeline | runInBackground => decide

theorem isOperatorRun_token {op : OpType} (other : op ≠ .delimiter) : IsOperatorRun op.token := by
  cases op with
  | delimiter => exact absurd rfl other
  | and | or | pipeline | runInBackground => decide

end OpType

/-- The operators at the end of a line. -/
def trailingOps (background : Bool) : List OpType := if background then [.runInBackground] else []

/-- Commands joined by operators, which may be run in the background. -/
structure Line where
  first : CommandText
  rest : List (OpType × CommandText)
  background : Bool
  joined : ∀ r ∈ rest, r.1 ≠ .delimiter

namespace Line

def commands (line : Line) : List CommandText := line.first :: line.rest.map Prod.snd

/-- The operator at the end. -/
def trailing (line : Line) : List OpType := trailingOps line.background

def tokens (line : Line) : List Token :=
  line.first.tokens ++ (line.rest.flatMap fun (op, c) => op.token :: c.tokens) ++
    line.trailing.map OpType.token

/-- The items that the line stands for. -/
def shapes (line : Line) : List (List Token ⊕ OpType) :=
  .inl line.first.words :: (line.rest.flatMap fun (op, c) => [.inr op, .inl c.words]) ++
    line.trailing.map .inr

/-- No command with a file for its output is in front of a `|`, and none with a
file for its input behind one. -/
def PipesApart (c : CommandText) : List (OpType × CommandText) → Prop
  | [] => True
  | (op, d) :: rest =>
    (op = .pipeline → c.file .output = none ∧ d.file .input = none) ∧ PipesApart d rest

/-- A way to print the line: blanks anywhere between its tokens, and some
between two words. -/
structure Printing (line : Line) where
  pieces : Pieces
  trail : List UInt8
  tokens : pieces.map Prod.snd = line.tokens
  blank : ∀ x ∈ pieces, IsBlank x.1
  blanks : IsBlank trail
  apart : List.IsChain (fun a b => IsWord a.2 → IsWord b.2 → b.1 ≠ []) pieces

def Printing.text {line : Line} (p : line.Printing) : List UInt8 := p.pieces.text ++ p.trail

end Line

/-! ## Splitting a printed line -/

/-- A word has a character without a meaning, or two quotation marks. -/
theorem IsWord.not_redirection {t : Token} (h : IsWord t) :
    ¬ CommandItem.isRedirection t = true := by
  simp only [CommandItem.isRedirection, Bool.or_eq_true, beq_iff_eq]
  rcases h with plain | ⟨q, body, _, _, rfl⟩
  · rintro (rfl | rfl)
    · exact absurd (plain.2 60 (by decide)) (by decide)
    · exact absurd (plain.2 62 (by decide)) (by decide)
  · rintro (same | same)
    · exact absurd (congrArg List.length same) (by simp [text])
    · exact absurd (congrArg List.length same) (by simp [text])

theorem IsWord.not_operatorRun {t : Token} (h : IsWord t) : ¬ IsOperatorRun t := by
  rintro ⟨nonempty, run⟩
  rcases h with plain | ⟨q, body, quote, _, rfl⟩
  · obtain ⟨chr, inside⟩ := List.exists_mem_of_ne_nil t nonempty
    have own := run chr inside
    have meaningless := plain.2 chr inside
    simp [isPlainChar, own] at meaningless
  · have own := run q List.mem_cons_self
    simp only [isQuote, Bool.or_eq_true, beq_iff_eq] at quote
    rcases quote with rfl | rfl
    · exact absurd own (by decide)
    · exact absurd own (by decide)

theorem IsWord.not_operator {t : Token} (h : IsWord t) : isOperator t = false := by
  by_contra operator
  rw [Bool.not_eq_false] at operator
  apply h.not_operatorRun
  simp only [isOperator, Bool.or_eq_true, beq_iff_eq] at operator
  rcases operator with ((rfl | rfl) | rfl) | rfl <;> decide

theorem Direction.isSignToken (d : Direction) : IsSignToken d.sign := by
  cases d with
  | input => exact ⟨60, by decide, by decide⟩
  | output => exact ⟨62, by decide, by decide⟩

/-- The tokens of a command are words and signs. -/
theorem CommandText.mem_tokens {c : CommandText} {t : Token} (inside : t ∈ c.tokens) :
    IsWord t ∨ ∃ d : Direction, t = d.sign := by
  rcases List.mem_append.mp inside with word | redirected
  · exact Or.inl (c.areWords t word)
  · obtain ⟨r, there, inside⟩ := List.mem_flatMap.mp redirected
    rcases List.mem_cons.mp inside with sign | file
    · exact Or.inr ⟨r.1, sign⟩
    · rw [List.mem_singleton.mp file]
      exact Or.inl (c.areFiles r there)

theorem CommandText.not_operatorRun {c : CommandText} {t : Token} (inside : t ∈ c.tokens) :
    ¬ IsOperatorRun t := by
  rcases c.mem_tokens inside with word | ⟨d, rfl⟩
  · exact word.not_operatorRun
  · rintro ⟨_, run⟩
    cases d with
    | input => exact absurd (run 60 (by decide)) (by decide)
    | output => exact absurd (run 62 (by decide)) (by decide)

theorem CommandText.tokens_ne_nil (c : CommandText) : c.tokens ≠ [] :=
  List.append_ne_nil_of_left_ne_nil c.nonempty _

theorem chain_and {α : Type} {R S : α → α → Prop} {l : List α} (h : List.IsChain R l)
    (h' : List.IsChain S l) : List.IsChain (fun a b => R a b ∧ S a b) l := by
  induction l with
  | nil => exact List.isChain_nil
  | cons a l ih =>
      obtain ⟨first, rest⟩ := List.isChain_cons.mp h
      obtain ⟨first', rest'⟩ := List.isChain_cons.mp h'
      exact List.isChain_cons.mpr ⟨fun b head => ⟨first b head, first' b head⟩, ih rest rest'⟩

/-- Not both are operators. -/
def NotBothOperators (a b : Token) : Prop := IsOperatorRun a → IsOperatorRun b → False

theorem chain_command (c : CommandText) {more : List Token}
    (h : List.IsChain NotBothOperators more) :
    List.IsChain NotBothOperators (c.tokens ++ more) := by
  have prepend : ∀ ts : List Token, (∀ t ∈ ts, ¬ IsOperatorRun t) →
      List.IsChain NotBothOperators (ts ++ more) := by
    intro ts none
    induction ts with
    | nil => exact h
    | cons t ts ih =>
        refine List.isChain_cons.mpr ⟨?_, ih fun x inside => none x (List.mem_cons_of_mem _ inside)⟩
        exact fun _ _ operator => absurd operator (none t List.mem_cons_self)
  exact prepend c.tokens fun t inside => c.not_operatorRun inside

theorem Line.chain_tokens (line : Line) : List.IsChain NotBothOperators line.tokens := by
  rw [tokens, List.append_assoc]
  apply chain_command
  induction line.rest with
  | nil =>
      rw [List.flatMap_nil, List.nil_append, trailing, trailingOps]
      split
      · exact List.isChain_singleton _
      · exact List.isChain_nil
  | cons opc rest ih =>
      obtain ⟨op, c⟩ := opc
      rw [List.flatMap_cons, List.append_assoc, List.cons_append]
      refine List.isChain_cons.mpr ⟨?_, chain_command c ih⟩
      intro t head _ operator
      refine c.not_operatorRun (List.mem_of_mem_head? ?_) operator
      rwa [List.head?_append_of_ne_nil _ c.tokens_ne_nil] at head

theorem Line.printable {line : Line} {t : Token} (inside : t ∈ line.tokens) : Printable t := by
  have command : ∀ c : CommandText, t ∈ c.tokens → Printable t := by
    intro c inside
    rcases c.mem_tokens inside with word | ⟨d, rfl⟩
    · exact Or.inl word
    · exact Or.inr (Or.inl d.isSignToken)
  rcases List.mem_append.mp inside with inside | trailing
  · rcases List.mem_append.mp inside with first | inside
    · exact command _ first
    · obtain ⟨⟨op, c⟩, there, inside⟩ := List.mem_flatMap.mp inside
      rcases List.mem_cons.mp inside with rfl | inside
      · exact Or.inr (Or.inr (OpType.isOperatorRun_token (line.joined _ there)))
      · exact command c inside
  · obtain ⟨op, there, rfl⟩ := List.mem_map.mp trailing
    refine Or.inr (Or.inr (OpType.isOperatorRun_token ?_))
    rw [Line.trailing, trailingOps] at there
    split at there
    · rw [List.mem_singleton.mp there]
      exact OpType.noConfusion
    · exact absurd there List.not_mem_nil

/-- A printed line is split into its tokens. -/
theorem Line.Printing.tokenize {line : Line} (p : line.Printing) :
    tokenizeLine p.text = line.tokens := by
  have operators :
      List.IsChain (fun a b : List UInt8 × Token => NotBothOperators a.2 b.2) p.pieces := by
    rw [← List.isChain_map, p.tokens]
    exact line.chain_tokens
  rw [← p.tokens]
  refine tokenize_printed p.pieces p.blank ?_ ?_ p.blanks
  · intro x inside
    apply line.printable
    rw [← p.tokens]
    exact List.mem_map_of_mem inside
  · have both := chain_and p.apart operators
    exact both.imp fun a b apart => ⟨apart.1, fun first second => absurd second (apart.2 first)⟩

/-! ## Files and pipes -/

/-- The descriptor that an item has for a direction. -/
def CommandItem.fd (item : CommandItem) : Direction → Option Int
  | .input => item.stdinFd
  | .output => item.stdoutFd

def Direction.writing : Direction → Bool
  | .input => false
  | .output => true

/-- `open` for a direction. -/
def World.opened (w : World) : Direction → Token → Int × World
  | .input => w.openRead
  | .output => w.openWrite

/-- The file that `open` finds for a direction. -/
def World.target (w : World) : Direction → Token → Option Token
  | .input => w.readable
  | .output => w.writable

/-- The descriptor is the one that opening the file gave, -1 when `open` finds
none. -/
def Leads (w w' : World) (d : Direction) (path : Token) (fd : Int) : Prop :=
  (∃ file, w.named path = some file ∧
      w'.descriptors.lookup fd = some (.file file d.writing)) ∨
    (fd = -1 ∧ w.target d path = none)

/-- The descriptor of a direction leads to the file that is named for it, or to
no file when none is named. -/
def HasFile (w w' : World) (d : Direction) (file : Option Token) (fd : Option Int) : Prop :=
  match file with
  | some path => ∃ n, fd = some n ∧ Leads w w' d path n
  | none => ∀ n, fd = some n → ∃ k, w'.descriptors.lookup n = some (.pipe k d.writing)

def HasFiles (w w' : World) (c : CommandText) (item : CommandItem) : Prop :=
  ∀ d, HasFile w w' d (c.file d) (item.fd d)

/-- A file is opened where its path leads. -/
theorem World.named_of_target {w : World} {d : Direction} {path file : Token}
    (found : w.target d path = some file) : w.named path = some file := by
  cases d with
  | input => exact (Option.filter_eq_some_iff.mp found).1
  | output => exact (Option.filter_eq_some_iff.mp found).1

/-- What is found stays there. -/
theorem World.Extends.target {w w' : World} (h : w.Extends w') {d : Direction} {path : Token}
    (missing : w'.target d path = none) : w.target d path = none := by
  cases d with
  | input =>
      have absent := Option.filter_eq_none_iff.mp missing
      refine Option.filter_eq_none_iff.mpr fun file named allowed => ?_
      refine absent file ((h.named path).trans named) ?_
      rw [Bool.and_eq_true, decide_eq_true_eq] at allowed ⊢
      exact ⟨h.files file allowed.1, h.volume ▸ allowed.2⟩
  | output =>
      have same : w'.writable path = w.writable path := by
        rw [World.writable, World.writable, h.named, h.volume]
      exact same.symm.trans missing

/-- The shell after the file was found: it exists if it is written to. -/
def World.touch (w : World) : Direction → Token → World
  | .input, _ => w
  | .output, file => w.create file

theorem World.opened_of_target (w : World) {d : Direction} {path file : Token}
    (found : w.target d path = some file) :
    w.opened d path = (w.touch d file).allocate (.file file d.writing) := by
  cases d with
  | input =>
      have there : w.readable path = some file := found
      show w.openRead path = _
      rw [World.openRead, there]
      rfl
  | output =>
      have there : w.writable path = some file := found
      show w.openWrite path = _
      rw [World.openWrite, there]
      rfl

theorem World.opened_of_missing (w : World) {d : Direction} {path : Token}
    (missing : w.target d path = none) : w.opened d path = (-1, w) := by
  cases d with
  | input =>
      have none : w.readable path = none := missing
      show w.openRead path = _
      rw [World.openRead, none]
  | output =>
      have none : w.writable path = none := missing
      show w.openWrite path = _
      rw [World.openWrite, none]

theorem World.touch_extends (w : World) (d : Direction) (file : Token) :
    w.Extends (w.touch d file) := by
  cases d with
  | input => exact .refl w
  | output => exact w.create_extends file

theorem World.opened_leads (w : World) (d : Direction) (path : Token) :
    Leads w (w.opened d path).2 d path (w.opened d path).1 ∧ w.Extends (w.opened d path).2 := by
  cases found : w.target d path with
  | some file =>
      rw [w.opened_of_target found]
      refine ⟨Or.inl ⟨file, World.named_of_target found, World.allocate_lookup _ _⟩, ?_⟩
      exact (w.touch_extends d file).trans (World.allocate_file_extends _ file d.writing)
  | none =>
      rw [w.opened_of_missing found]
      exact ⟨Or.inr ⟨rfl, found⟩, .refl w⟩

theorem Leads.mono {w₁ w₂ w₃ w₄ : World} {d : Direction} {path : Token} {fd : Int}
    (h : Leads w₂ w₃ d path fd) (before : w₁.Extends w₂) (after : w₃.Extends w₄) :
    Leads w₁ w₄ d path fd := by
  obtain ⟨file, named, found⟩ | ⟨none, missing⟩ := h
  · exact Or.inl ⟨file, (before.named path).symm.trans named, after.descriptors _ _ found⟩
  · exact Or.inr ⟨none, before.target missing⟩

theorem HasFile.mono {w₁ w₂ w₃ w₄ : World} {d : Direction} {file : Option Token} {fd : Option Int}
    (h : HasFile w₂ w₃ d file fd) (before : w₁.Extends w₂) (after : w₃.Extends w₄) :
    HasFile w₁ w₄ d file fd := by
  cases file with
  | none =>
      intro n same
      obtain ⟨k, found⟩ := h n same
      exact ⟨k, after.descriptors _ _ found⟩
  | some path =>
      obtain ⟨n, same, leads⟩ := h
      exact ⟨n, same, leads.mono before after⟩

/-- The end of a pipe is in order where no file is named. -/
theorem hasFile_pipe {w w' : World} {d : Direction} {file : Option Token} {fd : Int} {k : Nat}
    (piped : w'.descriptors.lookup fd = some (.pipe k d.writing)) (valid : fd ≠ -1) :
    HasFile w w' d file (some fd) ↔ file = none := by
  cases file with
  | none =>
      refine iff_of_true (fun n same => ?_) rfl
      cases same
      exact ⟨k, piped⟩
  | some path =>
      refine iff_of_false ?_ nofun
      rintro ⟨n, same, ⟨_, _, found⟩ | ⟨none, _⟩⟩
      · cases same
        rw [piped] at found
        cases found
      · cases same
        exact valid none

/-! ## Constructing a command -/

/-- An item that was constructed for the command. -/
structure Made (w w' : World) (c : CommandText) (item : CommandItem) : Prop where
  args : item.args = c.words
  files : HasFiles w w' c item
  unnamed : ∀ d, c.file d = none → item.fd d = none

theorem Made.mono {w₁ w₂ w₃ w₄ : World} {c : CommandText} {item : CommandItem}
    (h : Made w₂ w₃ c item) (before : w₁.Extends w₂) (after : w₃.Extends w₄) :
    Made w₁ w₄ c item :=
  ⟨h.args, fun d => (h.files d).mono before after, h.unnamed⟩

/-- A redirection of the item. -/
def CommandItem.redirect (item : CommandItem) (fd : Int) : Direction → CommandItem
  | .input => { item with stdinFd := some fd }
  | .output => { item with stdoutFd := some fd }

@[simp] theorem CommandItem.redirect_args (item : CommandItem) (fd : Int) (d : Direction) :
    (item.redirect fd d).args = item.args := by
  cases d <;> rfl

@[simp] theorem CommandItem.redirect_fd (item : CommandItem) (fd : Int) (d : Direction) :
    (item.redirect fd d).fd d = some fd := by
  cases d <;> rfl

theorem CommandItem.redirect_fd_of_ne {d d' : Direction} (other : d' ≠ d) (item : CommandItem)
    (fd : Int) : (item.redirect fd d).fd d' = item.fd d' := by
  cases d <;> cases d' <;> first | rfl | exact absurd rfl other

theorem scan_redirect (d : Direction) (path : Token) (rest : List Token) (item : CommandItem)
    (w : World) :
    CommandItem.scan (d.sign :: path :: rest) item w =
      CommandItem.scan rest (item.redirect (w.opened d path).1 d) (w.opened d path).2 := by
  cases d with
  | input =>
      rw [CommandItem.scan]
      exact if_pos rfl
  | output =>
      rw [CommandItem.scan]
      exact (if_neg (by decide)).trans (if_pos rfl)

theorem scan_words (words rest : List Token) (areWords : ∀ t ∈ words, IsWord t)
    (item : CommandItem) (w : World) :
    CommandItem.scan (words ++ rest) item w =
      CommandItem.scan rest { item with args := item.args ++ words } w := by
  induction words generalizing item with
  | nil => rw [List.nil_append, List.append_nil]
  | cons t words ih =>
      have word := areWords t List.mem_cons_self
      rw [List.cons_append, CommandItem.scan_word word.not_redirection,
        ih fun x inside => areWords x (List.mem_cons_of_mem _ inside), List.append_assoc,
        List.singleton_append]

/-- The redirections of a command are opened in order. -/
theorem scan_redirections (redirections : List (Direction × Token))
    (once : (redirections.map Prod.fst).Nodup) (item : CommandItem) (w : World) :
    ∃ item' w', CommandItem.scan (redirections.flatMap fun r => [r.1.sign, r.2]) item w =
        some (item', w') ∧ item'.args = item.args ∧ w.Extends w' ∧
      ∀ d, match redirections.lookup d with
        | some path => ∃ n, item'.fd d = some n ∧ Leads w w' d path n
        | none => item'.fd d = item.fd d := by
  induction redirections generalizing item w with
  | nil => exact ⟨item, w, rfl, rfl, .refl w, fun _ => rfl⟩
  | cons r redirections ih =>
      obtain ⟨d, path⟩ := r
      obtain ⟨fresh, once⟩ := List.nodup_cons.mp once
      obtain ⟨leads, opens⟩ := w.opened_leads d path
      obtain ⟨item', w', scanned, args, more, fds⟩ :=
        ih once (item.redirect (w.opened d path).1 d) (w.opened d path).2
      refine ⟨item', w', ?_, args.trans (item.redirect_args _ d), opens.trans more, ?_⟩
      · rw [List.flatMap_cons]
        exact (scan_redirect d path _ item w).trans scanned
      · intro d'
        have own := fds d'
        by_cases same : d' = d
        · subst same
          have unnamed : redirections.lookup d' = none := by
            rw [List.lookup_eq_none_iff]
            intro r inside
            exact bne_iff_ne.mpr fun same => fresh (List.mem_map.mpr ⟨r, inside, same.symm⟩)
          rw [unnamed] at own
          rw [List.lookup_cons_self]
          exact ⟨_, own.trans (item.redirect_fd _ d'), leads.mono (.refl w) more⟩
        · rw [List.lookup_cons, beq_false_of_ne same]
          cases named : redirections.lookup d' with
          | none =>
              rw [named] at own
              exact own.trans (CommandItem.redirect_fd_of_ne same item _)
          | some path' =>
              rw [named] at own
              obtain ⟨n, here, leads'⟩ := own
              exact ⟨n, here, leads'.mono opens (.refl w')⟩

/-- The constructor makes an item with the words and the files of the command. -/
theorem CommandText.new (c : CommandText) (w : World) :
    ∃ item w', CommandItem.new c.tokens w = some (item, w') ∧ w.Extends w' ∧
      Made w w' c item := by
  obtain ⟨item, w', scanned, args, more, fds⟩ :=
    scan_redirections c.redirections c.once ⟨[] ++ c.words, -1, none, none, 0⟩ w
  have unnamed : ∀ d, c.file d = none → item.fd d = none := by
    intro d named
    have own := fds d
    rw [CommandText.file] at named
    rw [named] at own
    cases d <;> exact own
  refine ⟨item, w', ?_, more, args, ?_, unnamed⟩
  · rw [CommandItem.new, CommandText.tokens, scan_words c.words _ c.areWords]
    exact scanned
  · intro d
    have own := fds d
    rw [CommandText.file]
    cases named : c.redirections.lookup d with
    | none =>
        intro n same
        rw [unnamed d named] at same
        cases same
    | some path =>
        rw [named] at own
        exact own

/-! ## The first loop -/

/-- Items and operators that were made for the commands after the first one. -/
def MadeAll (w w' : World) : List (OpType × CommandText) → Joined → Prop :=
  List.Forall₂ fun r x => x.1 = r.1 ∧ Made w w' r.2 x.2

theorem CommandText.not_operator {c : CommandText} {t : Token} (inside : t ∈ c.tokens) :
    isOperator t = false := by
  rcases c.mem_tokens inside with word | ⟨d, rfl⟩
  · exact word.not_operator
  · cases d <;> decide

/-- A command with an operator behind it. -/
theorem firstLoop_command (c : CommandText) {op : OpType} (other : op ≠ .delimiter)
    (tokens : List Token) (resultSequence : List Item) (w : World) :
    ∃ item w', firstLoop (c.tokens ++ op.token :: tokens) [] resultSequence w =
        firstLoop tokens [] (resultSequence ++ [.cmd item, .op op]) w' ∧
      w.Extends w' ∧ Made w w' c item := by
  obtain ⟨item, w', new, more, made⟩ := c.new w
  refine ⟨item, w', ?_, more, made⟩
  rw [firstLoop_words fun t inside => c.not_operator inside, List.nil_append, firstLoop,
    OpType.isOperator_token other, if_neg (by decide), new, op.operItem_token]
  rfl

/-- The command at the end of the line. -/
theorem firstLoop_last (c : CommandText) (background : Bool) (resultSequence : List Item)
    (w : World) :
    ∃ item w', firstLoop (c.tokens ++
          (trailingOps background).map OpType.token) []
        resultSequence w = some (resultSequence ++ (.cmd item ::
          (trailingOps background).map .op), w') ∧
      w.Extends w' ∧ Made w w' c item := by
  cases background with
  | true =>
      have background : OpType.runInBackground ≠ .delimiter := nofun
      obtain ⟨item, w', read, more, made⟩ := firstLoop_command c background [] resultSequence w
      exact ⟨item, w', read, more, made⟩
  | false =>
      obtain ⟨item, w', new, more, made⟩ := c.new w
      refine ⟨item, w', ?_, more, made⟩
      show firstLoop (c.tokens ++ []) [] resultSequence w = some (resultSequence ++ [.cmd item], w')
      rw [firstLoop_words fun t inside => c.not_operator inside, List.nil_append, firstLoop,
        if_pos (List.length_pos_of_ne_nil c.tokens_ne_nil), new]
      rfl

theorem firstLoop_line (c : CommandText) (rest : List (OpType × CommandText))
    (joined : ∀ r ∈ rest, r.1 ≠ .delimiter) (background : Bool) (resultSequence : List Item)
    (w : World) :
    ∃ item items w', firstLoop (c.tokens ++ (rest.flatMap fun (op, d) => op.token :: d.tokens) ++
          (trailingOps background).map OpType.token) []
        resultSequence w = some (resultSequence ++ (interleave item items ++
          (trailingOps background).map .op), w') ∧
      w.Extends w' ∧ Made w w' c item ∧ MadeAll w w' rest items := by
  induction rest generalizing c resultSequence w with
  | nil =>
      obtain ⟨item, w', read, more, made⟩ := firstLoop_last c background resultSequence w
      refine ⟨item, [], w', ?_, more, made, .nil⟩
      rw [List.flatMap_nil, List.append_nil]
      exact read
  | cons r rest ih =>
      obtain ⟨op, d⟩ := r
      have other : op ≠ .delimiter := joined (op, d) List.mem_cons_self
      obtain ⟨item, w₁, read, more₁, made⟩ := firstLoop_command c other (d.tokens ++
        (rest.flatMap fun (op, d) => op.token :: d.tokens) ++
        (trailingOps background).map OpType.token) resultSequence w
      obtain ⟨next, items, w', built, more, madeNext, madeRest⟩ :=
        ih d (fun r inside => joined r (List.mem_cons_of_mem _ inside))
          (resultSequence ++ [.cmd item, .op op]) w₁
      refine ⟨item, (op, next) :: items, w', ?_, more₁.trans more, made.mono (.refl w) more,
        .cons ⟨rfl, madeNext.mono more₁ (.refl w')⟩ ?_⟩
      · rw [built] at read
        rw [List.flatMap_cons, List.append_assoc, List.append_assoc, List.cons_append,
          ← List.append_assoc d.tokens]
        refine (Eq.trans ?_ read).trans ?_
        · rw [List.append_assoc d.tokens]
        · rw [List.append_assoc]
          rfl
      · exact madeRest.imp fun _ _ made => ⟨made.1, made.2.mono more₁ (.refl w')⟩

/-! ## The second loop -/

theorem World.pipe_valid (w : World) : w.pipe.1.1 ≠ -1 ∧ w.pipe.1.2 ≠ -1 := by
  have read := w.freshFd_mem.1
  have write := (w.allocate (.pipe w.pipes false)).2.freshFd_mem.1
  constructor
  · show w.freshFd ≠ -1
    omega
  · show (w.allocate (.pipe w.pipes false)).2.freshFd ≠ -1
    omega

/-- Pipes change neither words nor operators. -/
theorem wire_shapes (item : CommandItem) (items : Joined) (w : World) :
    w.Extends (wire item items w).2 ∧
      (interleave (wire item items w).1.1 (wire item items w).1.2).map Item.shape =
        (interleave item items).map Item.shape := by
  induction items generalizing item w with
  | nil => exact ⟨.refl w, rfl⟩
  | cons x items ih =>
      obtain ⟨op, next⟩ := x
      rw [wire]
      by_cases piped : op = .pipeline
      · rw [if_pos piped]
        obtain ⟨more, shapes⟩ := ih (next.redirectStdin w.pipe.1.1 w.pipe.1.2) w.pipe.2
        exact ⟨w.pipe_extends.1.trans more,
          congrArg (fun x => Sum.inl item.args :: Sum.inr op :: x) shapes⟩
      · rw [if_neg piped]
        obtain ⟨more, shapes⟩ := ih next w
        exact ⟨more, congrArg (fun x => Sum.inl item.args :: Sum.inr op :: x) shapes⟩

theorem hasFiles_iff {w w' : World} {c : CommandText} {item : CommandItem} :
    HasFiles w w' c item ↔ HasFile w w' .input (c.file .input) item.stdinFd ∧
      HasFile w w' .output (c.file .output) item.stdoutFd := by
  constructor
  · exact fun all => ⟨all .input, all .output⟩
  · rintro ⟨input, output⟩ d
    cases d with
    | input => exact input
    | output => exact output

/-- The files of the commands after the second loop. The first command may have
been given the end of a pipe as its input. -/
theorem wire_files (w₀ : World) (c : CommandText) (rest : List (OpType × CommandText))
    (item : CommandItem) (items : Joined) (w : World)
    (output : HasFile w₀ w .output (c.file .output) item.stdoutFd)
    (made : MadeAll w₀ w rest items) :
    List.Forall₂ (HasFiles w₀ (wire item items w).2) (c :: rest.map Prod.snd)
        ((wire item items w).1.1 :: (wire item items w).1.2.map Prod.snd) ↔
      HasFile w₀ (wire item items w).2 .input (c.file .input) item.stdinFd ∧
        Line.PipesApart c rest := by
  induction rest generalizing c item items w with
  | nil =>
      cases made
      rw [List.forall₂_cons, hasFiles_iff]
      constructor
      · exact fun h => ⟨h.1.1, trivial⟩
      · exact fun h => ⟨⟨h.1, output⟩, .nil⟩
  | cons r rest ih =>
      obtain ⟨op, d⟩ := r
      obtain ⟨⟨op', next⟩, items, ⟨same, made'⟩, others, rfl⟩ :=
        List.forall₂_cons_left_iff.mp made
      obtain rfl : op' = op := same
      rw [List.map_cons, List.forall₂_cons, hasFiles_iff, wire, Line.PipesApart]
      by_cases piped : op' = .pipeline
      · rw [if_pos piped]
        obtain ⟨opens, readEnd, writeEnd⟩ := w.pipe_extends
        have more := (wire_shapes (next.redirectStdin w.pipe.1.1 w.pipe.1.2) items w.pipe.2).1
        have next' := ih d (next.redirectStdin w.pipe.1.1 w.pipe.1.2) items w.pipe.2
          ((made'.files .output).mono (.refl w₀) opens)
          (others.imp fun _ _ made => ⟨made.1, made.2.mono (.refl w₀) opens⟩)
        have write : HasFile w₀ _ .output (c.file .output) (some w.pipe.1.2) ↔ _ :=
          hasFile_pipe (more.descriptors _ _ writeEnd) w.pipe_valid.2
        have read : HasFile w₀ _ .input (d.file .input) (some w.pipe.1.1) ↔ _ :=
          hasFile_pipe (more.descriptors _ _ readEnd) w.pipe_valid.1
        refine (and_congr (and_congr Iff.rfl write) (next'.trans (and_congr read Iff.rfl))).trans ?_
        constructor
        · rintro ⟨⟨input, none⟩, none', apart⟩
          exact ⟨input, fun _ => ⟨none, none'⟩, apart⟩
        · rintro ⟨input, both, apart⟩
          exact ⟨⟨input, (both piped).1⟩, (both piped).2, apart⟩
      · rw [if_neg piped]
        have more := (wire_shapes next items w).1
        have next' := ih d next items w (made'.files .output) others
        have outputs := output.mono (.refl w₀) more
        have inputs := (made'.files .input).mono (.refl w₀) more
        refine (and_congr Iff.rfl next').trans ?_
        constructor
        · rintro ⟨⟨input, _⟩, _, apart⟩
          exact ⟨input, fun same => absurd same piped, apart⟩
        · rintro ⟨input, _, apart⟩
          exact ⟨⟨input, outputs⟩, inputs, apart⟩

/-! ## Parsing -/

/-- The commands of a sequence. -/
def commandItems (items : List Item) : List CommandItem :=
  items.filterMap fun item =>
    match item with
    | .cmd c => some c
    | .op _ => none

/-- What can be read of an item that has been built: the words that the pointers of a
command lead to, or the operator. -/
def Item.contents (copies : StringCopy) : Item → Option (List Token ⊕ OpType)
  | .cmd command => (command.argv copies).map .inl
  | .op name => some (.inr name)

/-- The files were opened under their whole names. -/
def CommandText.NamesWhole (c : CommandText) : Prop :=
  ∀ r ∈ c.redirections, cString r.2 = r.2

/-- The sequence has the line's words and operators, and each command its files. -/
def GivesBack (copies : StringCopy) (w w' : World) (line : Line) (items : List Item) : Prop :=
  items.map (Item.contents copies) = line.shapes.map some ∧
    List.Forall₂ (fun c item => c.NamesWhole ∧ HasFiles w w' c item) line.commands
      (commandItems items)

/-- No word and no name of a file has a NUL. -/
def Line.NulFree (line : Line) : Prop :=
  ∀ c ∈ line.commands, (∀ t ∈ c.words, 0 ∉ t) ∧ ∀ r ∈ c.redirections, 0 ∉ r.2

/-- What the pointers to the words of a command lead to. -/
def readShape (copies : StringCopy) : List Token ⊕ OpType → Option (List Token ⊕ OpType)
  | .inl words => (words.mapM fun ptr => CharPtr.read ptr copies).map .inl
  | .inr name => some (.inr name)

theorem Item.contents_eq (copies : StringCopy) (item : Item) :
    item.contents copies = readShape copies item.shape := by
  cases item <;> rfl

theorem mapM_read_shared (words : List Token) :
    (words.mapM fun ptr => CharPtr.read ptr .shared) = some (words.map cString) := by
  induction words with
  | nil => rfl
  | cons t words ih => rw [List.mapM_cons, ih]; rfl

/-- The words of a command can be read exactly if the copies share their bytes
and no NUL ends a word early. -/
theorem readShape_eq_iff {words : List Token} (nonempty : words ≠ []) (copies : StringCopy) :
    readShape copies (.inl words) = some (.inl words) ↔
      copies = .shared ∧ ∀ t ∈ words, 0 ∉ t := by
  cases copies with
  | shared =>
      rw [readShape, mapM_read_shared, and_iff_right rfl, Option.map_some, Option.some_inj,
        Sum.inl.injEq]
      have each : words.map cString = words.map id ↔ ∀ t ∈ words, cString t = t :=
        List.map_eq_map_iff
      rw [List.map_id] at each
      exact each.trans (forall₂_congr fun _ _ => cString_eq_self_iff)
  | own =>
      obtain ⟨t, words, rfl⟩ := List.exists_cons_of_ne_nil nonempty
      exact iff_of_false nofun nofun

theorem Line.words_mem_shapes {line : Line} {words : List Token} :
    .inl words ∈ line.shapes ↔ ∃ c ∈ line.commands, c.words = words := by
  rw [Line.shapes, List.cons_append, List.mem_cons, List.mem_append, Line.commands,
    List.exists_mem_cons_iff, Sum.inl.injEq, eq_comm]
  refine or_congr Iff.rfl ?_
  constructor
  · rintro (inside | inside)
    · obtain ⟨⟨op, c⟩, there, inside⟩ := List.mem_flatMap.mp inside
      have same : words = c.words := by simpa using inside
      exact ⟨c, List.mem_map_of_mem there, same.symm⟩
    · obtain ⟨_, _, same⟩ := List.mem_map.mp inside
      cases same
  · rintro ⟨c, inside, rfl⟩
    obtain ⟨⟨op, c⟩, there, rfl⟩ := List.mem_map.mp inside
    exact Or.inl (List.mem_flatMap.mpr ⟨(op, c), there, by simp⟩)

theorem readShapes_iff (line : Line) (copies : StringCopy) :
    line.shapes.map (readShape copies) = line.shapes.map some ↔
      copies = .shared ∧ ∀ c ∈ line.commands, ∀ t ∈ c.words, 0 ∉ t := by
  rw [List.map_eq_map_iff]
  constructor
  · intro all
    have each : ∀ c ∈ line.commands, copies = .shared ∧ ∀ t ∈ c.words, 0 ∉ t := fun c inside =>
      (readShape_eq_iff c.nonempty copies).mp
        (all _ (Line.words_mem_shapes.mpr ⟨c, inside, rfl⟩))
    exact ⟨(each line.first List.mem_cons_self).1, fun c inside => (each c inside).2⟩
  · rintro ⟨shared, free⟩ shape inside
    cases shape with
    | inl words =>
        obtain ⟨c, there, rfl⟩ := Line.words_mem_shapes.mp inside
        exact (readShape_eq_iff c.nonempty copies).mpr ⟨shared, free c there⟩
    | inr op => rfl

/-- A sequence of the line's words and operators gives the line back exactly if
its words can be read and its files are in order. -/
theorem givesBack_iff {copies : StringCopy} {w w' : World} {line : Line} {items : List Item}
    (shapes : items.map Item.shape = line.shapes) :
    GivesBack copies w w' line items ↔ (copies = .shared ∧ line.NulFree) ∧
      List.Forall₂ (HasFiles w w') line.commands (commandItems items) := by
  have contents : items.map (Item.contents copies) = line.shapes.map (readShape copies) := by
    rw [← shapes, List.map_map]
    exact List.map_congr_left fun item _ => item.contents_eq copies
  have names : (∀ c ∈ line.commands, c.NamesWhole) ↔
      ∀ c ∈ line.commands, ∀ r ∈ c.redirections, 0 ∉ r.2 :=
    forall₂_congr fun _ _ => forall₂_congr fun _ _ => cString_eq_self_iff
  rw [GivesBack, contents, readShapes_iff, List.forall₂_and_left, names, Line.NulFree]
  constructor
  · rintro ⟨⟨shared, words⟩, files, has⟩
    exact ⟨⟨shared, fun c inside => ⟨words c inside, files c inside⟩⟩, has⟩
  · rintro ⟨⟨shared, free⟩, has⟩
    exact ⟨⟨shared, fun c inside => (free c inside).1⟩, fun c inside => (free c inside).2, has⟩

theorem commandItems_interleave (item : CommandItem) (items : Joined) (ops : List OpType) :
    commandItems (interleave item items ++ ops.map Item.op) = item :: items.map Prod.snd := by
  have none : commandItems (ops.map Item.op) = [] := by
    simp [commandItems, List.filterMap_map]
  have joined : commandItems items.items = items.map Prod.snd := by
    induction items with
    | nil => rfl
    | cons x items ih => exact congrArg (x.2 :: ·) ih
  rw [commandItems, List.filterMap_append]
  show item :: commandItems items.items ++ commandItems (ops.map Item.op) = _
  rw [none, joined, List.append_nil]

theorem MadeAll.shapes {w w' : World} {rest : List (OpType × CommandText)} {items : Joined}
    (made : MadeAll w w' rest items) :
    items.items.map Item.shape = rest.flatMap fun (op, c) => [.inr op, .inl c.words] := by
  induction made with
  | nil => rfl
  | @cons r x rest items here _ ih =>
      obtain ⟨op, c⟩ := r
      obtain ⟨op', item⟩ := x
      obtain ⟨same, made⟩ := here
      show Sum.inr op' :: Sum.inl item.args :: (Joined.items items).map Item.shape = _
      rw [ih, show op' = op from same, show item.args = c.words from made.args]
      rfl

theorem shapes_interleave {w w' : World} {line : Line} {item : CommandItem} {items : Joined}
    (made : Made w w' line.first item) (madeAll : MadeAll w w' line.rest items) :
    (interleave item items ++ line.trailing.map Item.op).map Item.shape = line.shapes := by
  rw [List.map_append, List.map_map, interleave, List.map_cons, madeAll.shapes, Line.shapes,
    ← made.args]
  rfl

/-- What a printed line is parsed to: the words and operators are those of the
line, and the files too exactly when no pipe is in the place of a file. -/
theorem Line.Printing.parsed {line : Line} (p : line.Printing) (w : World) :
    ∃ items w', buildCommandSequence (tokenizeLine p.text) w = some (items, w') ∧
      items.map Item.shape = line.shapes ∧
      (List.Forall₂ (HasFiles w w') line.commands (commandItems items) ↔
        Line.PipesApart line.first line.rest) := by
  obtain ⟨item, items, w₁, first, more, made, madeAll⟩ :=
    firstLoop_line line.first line.rest line.joined line.background [] w
  have none : NoPipeline ((trailingOps line.background).map .op) := by
    cases line.background <;> simp [NoPipeline, trailingOps]
  obtain ⟨more', shapes⟩ := wire_shapes item items w₁
  have files := wire_files w line.first line.rest item items w₁ (made.files .output) madeAll
  let wired := wire item items w₁
  refine ⟨interleave wired.1.1 wired.1.2 ++ line.trailing.map Item.op, wired.2, ?_, ?_, ?_⟩
  · rw [p.tokenize, buildCommandSequence]
    exact (congrArg (· >>= secondLoop) first).trans (secondLoop_wire item items none w₁)
  · rw [← shapes_interleave made madeAll, List.map_append, shapes, ← List.map_append]
  · rw [commandItems_interleave]
    apply files.trans
    exact and_iff_right ((made.files .input).mono (.refl w) more')

/-- Parsing gives back exactly the lines without a NUL in which no command with a
file for its output is in front of a `|` and none with a file for its input is
behind one, if copies of a string share their bytes. -/
theorem parsed_iff (copies : StringCopy) {line : Line} (p : line.Printing) (w : World) :
    ∃ items w', buildCommandSequence (tokenizeLine p.text) w = some (items, w') ∧
      (GivesBack copies w w' line items ↔
        (copies = .shared ∧ line.NulFree) ∧ Line.PipesApart line.first line.rest) := by
  obtain ⟨items, w', built, shapes, files⟩ := p.parsed w
  exact ⟨items, w', built, (givesBack_iff shapes).trans (and_congr Iff.rfl files)⟩

/-- A command without quotation marks. -/
def plainCommand (words : List Token) (redirections : List (Direction × Token))
    (nonempty : words ≠ []) (areWords : ∀ t ∈ words, IsPlain t)
    (areFiles : ∀ r ∈ redirections, IsPlain r.2) (once : (redirections.map Prod.fst).Nodup) :
    CommandText where
  words := words
  redirections := redirections
  nonempty := nonempty
  areWords t inside := Or.inl (areWords t inside)
  areFiles r inside := Or.inl (areFiles r inside)
  once := once

/-- `a > f | b`. -/
def outputThenPipe : Line where
  first := plainCommand [text "a"] [(.output, text "f")] (by decide) (by decide) (by decide)
    (by decide)
  rest := [(.pipeline, plainCommand [text "b"] [] (by decide) (by decide) (by decide) (by decide))]
  background := false
  joined := by decide

/-- The line with a blank in front of every token but the first. -/
def outputThenPipeText : outputThenPipe.Printing where
  pieces := [([], text "a"), ([32], text ">"), ([32], text "f"), ([32], text "|"), ([32], text "b")]
  trail := []
  tokens := rfl
  blank := by decide
  blanks := by decide
  apart := by simp

/-- The file of `a` is not given back, even where its words are. -/
theorem not_always_given_back : ¬ ∀ (line : Line) (p : line.Printing) (w : World),
    ∃ items w', buildCommandSequence (tokenizeLine p.text) w = some (items, w') ∧
      GivesBack .shared w w' line items := by
  intro always
  obtain ⟨items, w', built, given⟩ := always outputThenPipe outputThenPipeText (.fresh [])
  obtain ⟨items', w'', built', shapes, files⟩ := outputThenPipeText.parsed (.fresh [])
  cases built.symm.trans built'
  exact absurd ((files.mp ((givesBack_iff shapes).mp given).2).1 rfl).1 (by decide)

end LisonShell
