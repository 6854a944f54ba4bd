import Technosphere.LisonShell.CommandItem
import Mathlib.Data.List.Chain

/-!
# Splitting a line into tokens

`tokenize_line` reads a line with three buffers: one for quoted text, one for a
run of `&` and `|`, and one for other text. Between two characters at most one
of them holds something. `Stands` says which one may, and what the tokens would
be if the line ended here; each kind of token has one lemma about it.

A printed line is its tokens with blanks between them. `tokenize_printed` says
that the tokens come back.
-/

namespace LisonShell

open Bytes

/-- One of the characters that are a token by themselves. -/
def isSign (chr : UInt8) : Bool := chr == 60 || chr == 62 || chr == 59

/-- A character that operators are made of. -/
def isOperatorChar (chr : UInt8) : Bool := chr == 38 || chr == 124

/-- The tokens and buffers of `tokenize_line`. -/
structure Buffers where
  tokens : List Token
  cmdBuffer : List UInt8
  operatorBuffer : List UInt8
  quotedArgBuffer : List UInt8
  deriving DecidableEq, Repr

namespace Buffers

/-- The tokens after `collect_token_from_buffer`. -/
def collectToken (tokens : List Token) (s : List UInt8) : List Token :=
  if 0 < s.length then tokens ++ [s] else tokens

def collectCmd (b : Buffers) : Buffers :=
  { b with tokens := collectToken b.tokens b.cmdBuffer, cmdBuffer := [] }

def collectOperator (b : Buffers) : Buffers :=
  { b with tokens := collectToken b.tokens b.operatorBuffer, operatorBuffer := [] }

def collectQuotedArg (b : Buffers) : Buffers :=
  { b with tokens := collectToken b.tokens b.quotedArgBuffer, quotedArgBuffer := [] }

theorem collectCmd_of_empty {b : Buffers} (h : b.cmdBuffer = []) : b.collectCmd = b := by
  obtain ⟨tokens, cmdBuffer, operatorBuffer, quotedArgBuffer⟩ := b
  cases h
  rfl

theorem collectOperator_of_empty {b : Buffers} (h : b.operatorBuffer = []) :
    b.collectOperator = b := by
  obtain ⟨tokens, cmdBuffer, operatorBuffer, quotedArgBuffer⟩ := b
  cases h
  rfl

/-- The body of the loop over the characters. -/
def readChar (b : Buffers) (chr : UInt8) : Buffers :=
  if 0 < b.quotedArgBuffer.length then
    let b := { b with quotedArgBuffer := b.quotedArgBuffer ++ [chr] }
    if b.quotedArgBuffer.head? = some chr then b.collectQuotedArg else b
  else if isspace chr then b.collectCmd.collectOperator
  else if isSign chr then
    let b := b.collectCmd.collectOperator
    { b with tokens := b.tokens ++ [[chr]] }
  else if isOperatorChar chr then
    let b := b.collectCmd
    { b with operatorBuffer := b.operatorBuffer ++ [chr] }
  else if isQuote chr then
    let b := b.collectCmd.collectOperator
    { b with quotedArgBuffer := b.quotedArgBuffer ++ [chr] }
  else
    let b := b.collectOperator
    { b with cmdBuffer := b.cmdBuffer ++ [chr] }

/-- What is done after the loop. -/
def finish (b : Buffers) : List Token := b.collectCmd.collectOperator.tokens

end Buffers

/-- `tokenize_line`. -/
def tokenizeLine (cmdLine : List UInt8) : List Token :=
  (cmdLine.foldl Buffers.readChar ⟨[], [], [], []⟩).finish

/-! ## Kinds of tokens -/

/-- A character without a meaning of its own. -/
def isPlainChar (chr : UInt8) : Bool :=
  !(isspace chr || isSign chr || isOperatorChar chr || isQuote chr)

/-- A word without quotation marks. -/
def IsPlain (t : Token) : Prop := t ≠ [] ∧ ∀ chr ∈ t, isPlainChar chr = true

instance (t : Token) : Decidable (IsPlain t) :=
  decidable_of_iff (t ≠ [] ∧ t.all isPlainChar = true) (and_congr_right' List.all_eq_true)

/-- A quoted string with its quotation marks. -/
def IsQuoted (t : Token) : Prop :=
  ∃ q body, isQuote q = true ∧ q ∉ body ∧ t = q :: (body ++ [q])

def IsWord (t : Token) : Prop := IsPlain t ∨ IsQuoted t

/-- A run of characters that operators are made of. -/
def IsOperatorRun (t : Token) : Prop := t ≠ [] ∧ ∀ chr ∈ t, isOperatorChar chr = true

instance (t : Token) : Decidable (IsOperatorRun t) :=
  decidable_of_iff (t ≠ [] ∧ t.all isOperatorChar = true) (and_congr_right' List.all_eq_true)

def IsSignToken (t : Token) : Prop := ∃ chr, isSign chr = true ∧ t = [chr]

def IsBlank (s : List UInt8) : Prop := ∀ chr ∈ s, isspace chr = true

instance (s : List UInt8) : Decidable (IsBlank s) :=
  decidable_of_iff (s.all isspace = true) List.all_eq_true

/-! ## Where the loop stands -/

/-- The buffer that may hold a token that is not complete. -/
inductive Pending where
  | nothing
  | word
  | operator
  deriving DecidableEq

/-- The tokens would be `ts` if the line ended here. -/
structure Stands (b : Buffers) (ts : List Token) (p : Pending) : Prop where
  unquoted : b.quotedArgBuffer = []
  finished : b.finish = ts
  cmd : p ≠ .word → b.cmdBuffer = []
  operator : p ≠ .operator → b.operatorBuffer = []

namespace Stands

variable {b : Buffers} {ts : List Token} {p : Pending}

theorem start : Stands ⟨[], [], [], []⟩ [] .nothing := ⟨rfl, rfl, fun _ => rfl, fun _ => rfl⟩

/-- All buffers have been collected. -/
theorem collected (h : Stands b ts p) : b.collectCmd.collectOperator = ⟨ts, [], [], []⟩ := by
  show Buffers.mk b.finish [] [] b.quotedArgBuffer = _
  rw [h.unquoted, h.finished]

theorem of_collected (ts : List Token) (p : Pending) : Stands ⟨ts, [], [], []⟩ ts p :=
  ⟨rfl, rfl, fun _ => rfl, fun _ => rfl⟩

theorem blank (h : Stands b ts p) {s : List UInt8} (blank : IsBlank s) :
    Stands (s.foldl Buffers.readChar b) ts (if s = [] then p else .nothing) := by
  cases s with
  | nil => exact h
  | cons chr s =>
      have space : ∀ {b : Buffers} {p : Pending} {chr : UInt8}, Stands b ts p →
          isspace chr = true → Stands (b.readChar chr) ts .nothing := by
        intro b p chr h space
        rw [Buffers.readChar, h.unquoted, if_neg (by decide), if_pos space, h.collected]
        exact of_collected ts .nothing
      rw [if_neg (List.cons_ne_nil _ _)]
      induction s generalizing b p chr with
      | nil => exact space h (blank chr (List.mem_singleton.mpr rfl))
      | cons next s ih =>
          have first := space h (blank chr List.mem_cons_self)
          exact ih first next fun c inside => blank c (List.mem_cons_of_mem _ inside)

/-- A sign completes what is pending. -/
theorem sign (h : Stands b ts p) {t : Token} (sign : IsSignToken t) :
    Stands (t.foldl Buffers.readChar b) (ts ++ [t]) .nothing := by
  obtain ⟨chr, sign, rfl⟩ := sign
  have notSpace : isspace chr = false := by
    simp only [isSign, Bool.or_eq_true, beq_iff_eq] at sign
    rcases sign with (rfl | rfl) | rfl <;> decide
  rw [List.foldl_cons, List.foldl_nil, Buffers.readChar, h.unquoted, if_neg (by decide), notSpace,
    if_neg (by decide), if_pos sign, h.collected]
  exact of_collected _ .nothing

/-- Without other text pending, collecting the operator is enough. -/
theorem collected_operator (h : Stands b ts p) (none : p ≠ .word) :
    b.collectOperator = ⟨ts, [], [], []⟩ := by
  rw [← h.collected, Buffers.collectCmd_of_empty (h.cmd none)]

/-- Without an operator pending, collecting other text is enough. -/
theorem collected_cmd (h : Stands b ts p) (none : p ≠ .operator) :
    b.collectCmd = ⟨ts, [], [], []⟩ := by
  have empty : b.collectCmd.operatorBuffer = [] := h.operator none
  rw [← h.collected, Buffers.collectOperator_of_empty empty]

theorem foldl_plain (ts : List Token) (s t : List UInt8)
    (plain : ∀ chr ∈ t, isPlainChar chr = true) :
    t.foldl Buffers.readChar ⟨ts, s, [], []⟩ = ⟨ts, s ++ t, [], []⟩ := by
  induction t generalizing s with
  | nil => rw [List.append_nil, List.foldl_nil]
  | cons chr t ih =>
      have own := plain chr List.mem_cons_self
      simp only [isPlainChar, Bool.not_eq_true', Bool.or_eq_false_iff] at own
      have read : Buffers.readChar ⟨ts, s, [], []⟩ chr = ⟨ts, s ++ [chr], [], []⟩ := by
        simp [Buffers.readChar, own, Buffers.collectOperator, Buffers.collectToken]
      rw [List.foldl_cons, read, ih _ fun c inside => plain c (List.mem_cons_of_mem _ inside),
        List.append_assoc, List.singleton_append]

theorem plain (h : Stands b ts p) (apart : p ≠ .word) {t : Token} (plain : IsPlain t) :
    Stands (t.foldl Buffers.readChar b) (ts ++ [t]) .word := by
  obtain ⟨nonempty, plain⟩ := plain
  cases t with
  | nil => exact absurd rfl nonempty
  | cons chr t =>
      have own := plain chr List.mem_cons_self
      simp only [isPlainChar, Bool.not_eq_true', Bool.or_eq_false_iff] at own
      have read : b.readChar chr = ⟨ts, [chr], [], []⟩ := by
        rw [Buffers.readChar, h.unquoted, h.collected_operator apart]
        simp [own]
      rw [List.foldl_cons, read,
        foldl_plain ts [chr] t fun c inside => plain c (List.mem_cons_of_mem _ inside)]
      exact ⟨rfl, rfl, fun other => absurd rfl other, fun _ => rfl⟩

theorem foldl_operatorRun (ts : List Token) (s t : List UInt8)
    (run : ∀ chr ∈ t, isOperatorChar chr = true) :
    t.foldl Buffers.readChar ⟨ts, [], s, []⟩ = ⟨ts, [], s ++ t, []⟩ := by
  induction t generalizing s with
  | nil => rw [List.append_nil, List.foldl_nil]
  | cons chr t ih =>
      have read : Buffers.readChar ⟨ts, [], s, []⟩ chr = ⟨ts, [], s ++ [chr], []⟩ := by
        have own := run chr List.mem_cons_self
        simp only [isOperatorChar, Bool.or_eq_true, beq_iff_eq] at own
        rcases own with rfl | rfl <;> rfl
      rw [List.foldl_cons, read, ih _ fun c inside => run c (List.mem_cons_of_mem _ inside),
        List.append_assoc, List.singleton_append]

theorem operatorRun (h : Stands b ts p) (apart : p ≠ .operator) {t : Token}
    (run : IsOperatorRun t) : Stands (t.foldl Buffers.readChar b) (ts ++ [t]) .operator := by
  obtain ⟨nonempty, run⟩ := run
  cases t with
  | nil => exact absurd rfl nonempty
  | cons chr t =>
      have read : b.readChar chr = ⟨ts, [], [chr], []⟩ := by
        have own := run chr List.mem_cons_self
        simp only [isOperatorChar, Bool.or_eq_true, beq_iff_eq] at own
        rw [Buffers.readChar, h.unquoted, h.collected_cmd apart]
        rcases own with rfl | rfl <;> rfl
      rw [List.foldl_cons, read,
        foldl_operatorRun ts [chr] t fun c inside => run c (List.mem_cons_of_mem _ inside)]
      exact ⟨rfl, rfl, fun _ => rfl, fun other => absurd rfl other⟩

theorem foldl_quoted (ts : List Token) (q : UInt8) (s t : List UInt8) (inside : q ∉ t) :
    t.foldl Buffers.readChar ⟨ts, [], [], q :: s⟩ = ⟨ts, [], [], q :: (s ++ t)⟩ := by
  induction t generalizing s with
  | nil => rw [List.append_nil, List.foldl_nil]
  | cons chr t ih =>
      have other : q ≠ chr := fun same => inside (same ▸ List.mem_cons_self)
      have read : Buffers.readChar ⟨ts, [], [], q :: s⟩ chr =
          ⟨ts, [], [], q :: (s ++ [chr])⟩ := by
        simp [Buffers.readChar, other]
      rw [List.foldl_cons, read, ih _ fun later => inside (List.mem_cons_of_mem _ later),
        List.append_assoc, List.singleton_append]

theorem quoted (h : Stands b ts p) {t : Token} (quoted : IsQuoted t) :
    Stands (t.foldl Buffers.readChar b) (ts ++ [t]) .nothing := by
  obtain ⟨q, body, quote, inside, rfl⟩ := quoted
  have opened : b.readChar q = ⟨ts, [], [], [q]⟩ := by
    have kind : isSign q = false ∧ isOperatorChar q = false ∧ isspace q = false := by
      simp only [isQuote, Bool.or_eq_true, beq_iff_eq] at quote
      rcases quote with rfl | rfl <;> decide
    rw [Buffers.readChar, h.unquoted, h.collected]
    simp [kind, quote]
  have closed : Buffers.readChar ⟨ts, [], [], q :: body⟩ q =
      ⟨ts ++ [q :: (body ++ [q])], [], [], []⟩ := by
    simp [Buffers.readChar, Buffers.collectQuotedArg, Buffers.collectToken]
  rw [List.foldl_cons, opened, List.foldl_append, foldl_quoted ts q [] body inside, List.nil_append,
    List.foldl_cons, closed]
  exact of_collected _ .nothing

end Stands

/-! ## Printed lines -/

/-- Tokens with the blanks in front of them. -/
abbrev Pieces := List (List UInt8 × Token)

def Pieces.text (pieces : Pieces) : List UInt8 := pieces.flatMap fun (gap, t) => gap ++ t

/-- A token that a line can be printed from. -/
def Printable (t : Token) : Prop := IsWord t ∨ IsSignToken t ∨ IsOperatorRun t

/-- The second token is not read as a part of the first one. -/
def Apart (a b : List UInt8 × Token) : Prop :=
  (IsWord a.2 → IsWord b.2 → b.1 ≠ []) ∧ (IsOperatorRun a.2 → IsOperatorRun b.2 → b.1 ≠ [])

/-- What stands in the buffers belongs to the last token. -/
def Ends (p : Pending) (t : Token) : Prop :=
  (p = .word → IsWord t) ∧ (p = .operator → IsOperatorRun t)

theorem Stands.token {b : Buffers} {ts : List Token} {p : Pending} (h : Stands b ts p) {t : Token}
    (printable : Printable t) (word : IsWord t → p ≠ .word)
    (operator : IsOperatorRun t → p ≠ .operator) :
    ∃ p', Stands (t.foldl Buffers.readChar b) (ts ++ [t]) p' ∧ Ends p' t := by
  rcases printable with (plain | quoted) | sign | run
  · exact ⟨.word, h.plain (word (Or.inl plain)) plain, fun _ => Or.inl plain, nofun⟩
  · exact ⟨.nothing, h.quoted quoted, nofun, nofun⟩
  · exact ⟨.nothing, h.sign sign, nofun, nofun⟩
  · exact ⟨.operator, h.operatorRun (operator run) run, nofun, fun _ => run⟩

/-- Reading on after a token. -/
theorem Stands.pieces {b : Buffers} {ts : List Token} {p : Pending} {last : List UInt8 × Token}
    {pieces : Pieces} (h : Stands b ts p) (ends : Ends p last.2)
    (blank : ∀ x ∈ pieces, IsBlank x.1) (printable : ∀ x ∈ pieces, Printable x.2)
    (apart : List.IsChain Apart (last :: pieces)) :
    ∃ p', Stands (pieces.text.foldl Buffers.readChar b) (ts ++ pieces.map Prod.snd) p' := by
  induction pieces generalizing b ts p last with
  | nil =>
      rw [List.map_nil, List.append_nil]
      exact ⟨p, h⟩
  | cons piece pieces ih =>
      obtain ⟨⟨words, operators⟩, rest⟩ := List.isChain_cons_cons.mp apart
      have gap := h.blank (blank piece List.mem_cons_self)
      obtain ⟨p₁, token, ends₁⟩ := gap.token (printable piece List.mem_cons_self)
        (by
          intro word
          split
          · rename_i none
            exact fun same => words (ends.1 same) word none
          · exact nofun)
        (by
          intro run
          split
          · rename_i none
            exact fun same => operators (ends.2 same) run none
          · exact nofun)
      obtain ⟨p', done⟩ := ih token ends₁ (fun x inside => blank x (List.mem_cons_of_mem _ inside))
        (fun x inside => printable x (List.mem_cons_of_mem _ inside)) rest
      refine ⟨p', ?_⟩
      rw [Pieces.text, List.flatMap_cons, List.foldl_append, List.foldl_append, List.map_cons,
        ← List.singleton_append, ← List.append_assoc]
      exact done

/-- The tokens of a printed line come back. -/
theorem tokenize_printed (pieces : Pieces) (blank : ∀ x ∈ pieces, IsBlank x.1)
    (printable : ∀ x ∈ pieces, Printable x.2) (apart : List.IsChain Apart pieces)
    {trail : List UInt8} (blanks : IsBlank trail) :
    tokenizeLine (pieces.text ++ trail) = pieces.map Prod.snd := by
  -- a sign in front of the line would leave nothing pending
  have first : List.IsChain Apart (([], [59]) :: pieces) := by
    cases pieces with
    | nil => exact List.isChain_singleton _
    | cons piece pieces =>
        refine List.isChain_cons_cons.mpr ⟨⟨?_, ?_⟩, apart⟩
        · rintro (⟨_, plain⟩ | ⟨q, body, _, _, same⟩)
          · exact absurd (plain 59 (List.mem_singleton.mpr rfl)) (by decide)
          · have lengths := congrArg List.length same
            simp at lengths
        · rintro ⟨_, run⟩
          exact absurd (run 59 (List.mem_singleton.mpr rfl)) (by decide)
  obtain ⟨p, done⟩ := Stands.start.pieces ⟨nofun, nofun⟩ blank printable first
  rw [tokenizeLine, List.foldl_append]
  exact (done.blank blanks).finished

end LisonShell
