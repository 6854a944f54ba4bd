import Technosphere.LisonShell.Tokenizer

/-!
# The characters that tokens are made of

A character is kept unless it is a blank outside a quotation. `tokenize_line`
keeps all of them in order, but what is still in the buffer for quoted text at
the end of the line is not collected: a quotation that is not ended is lost.
-/

namespace LisonShell

open Bytes

/-! ## What should be kept -/

/-- The quotation mark that is open after `chr` was read. -/
def quoting (opened : Option UInt8) (chr : UInt8) : Option UInt8 :=
  match opened with
  | none => if isQuote chr then some chr else none
  | some q => if chr = q then none else some q

/-- The quotation mark that is never matched, if the line has one. -/
def unmatched (line : List UInt8) : Option UInt8 := line.foldl quoting none

/-- The line without the blanks outside quotations, `opened` being the
quotation mark that is open at its beginning. -/
def keptText (opened : Option UInt8) : List UInt8 → List UInt8
  | [] => []
  | chr :: line =>
    if opened = none ∧ isspace chr = true then keptText (quoting opened chr) line
    else chr :: keptText (quoting opened chr) line

example : keptText none (text "a  'b c'>d") = text "a'b c'>d" := by decide

/-! ## What the buffers hold -/

namespace Buffers

/-- All characters in the tokens and the buffers, in the order in which the
buffers are collected. -/
def held (b : Buffers) : List UInt8 :=
  b.tokens.flatten ++ b.cmdBuffer ++ b.operatorBuffer ++ b.quotedArgBuffer

/-- At most one buffer is in use, and the one for quoted text starts with a
quotation mark. -/
structure Exclusive (b : Buffers) : Prop where
  cmd : b.cmdBuffer = [] ∨ b.operatorBuffer = []
  quoted : b.quotedArgBuffer ≠ [] → b.cmdBuffer = [] ∧ b.operatorBuffer = []

theorem flatten_collectToken (tokens : List Token) (s : List UInt8) :
    (collectToken tokens s).flatten = tokens.flatten ++ s := by
  rw [collectToken]
  split
  · rw [List.flatten_append, List.flatten_singleton]
  · rename_i none
    rw [List.length_eq_zero_iff.mp (Nat.eq_zero_of_not_pos none), List.append_nil]

theorem flatten_finish (b : Buffers) :
    b.finish.flatten = b.tokens.flatten ++ b.cmdBuffer ++ b.operatorBuffer := by
  show (collectToken (collectToken b.tokens b.cmdBuffer) b.operatorBuffer).flatten = _
  rw [flatten_collectToken, flatten_collectToken]

/-- Inside a quotation every character is kept. -/
theorem readChar_quoted {b : Buffers} (h : b.Exclusive) {q : UInt8}
    (opened : b.quotedArgBuffer.head? = some q) (chr : UInt8) :
    (b.readChar chr).Exclusive ∧ (b.readChar chr).held = b.held ++ [chr] ∧
      (b.readChar chr).quotedArgBuffer.head? = quoting (some q) chr := by
  obtain ⟨tokens, cmd, operator, quoted⟩ := b
  obtain ⟨body, rfl⟩ : ∃ body, quoted = q :: body := List.head?_eq_some_iff.mp opened
  obtain ⟨rfl, rfl⟩ : cmd = [] ∧ operator = [] := h.quoted (List.cons_ne_nil q body)
  have step : readChar ⟨tokens, [], [], q :: body⟩ chr =
      if some q = some chr then ⟨tokens ++ [q :: (body ++ [chr])], [], [], []⟩
      else ⟨tokens, [], [], q :: (body ++ [chr])⟩ := rfl
  rw [step, quoting]
  by_cases ends : chr = q
  · rw [if_pos ends, if_pos (congrArg some ends.symm)]
    refine ⟨⟨Or.inl rfl, fun _ => ⟨rfl, rfl⟩⟩, ?_, rfl⟩
    simp [held]
  · rw [if_neg ends, if_neg fun same => ends (Option.some.inj same).symm]
    refine ⟨⟨Or.inl rfl, fun _ => ⟨rfl, rfl⟩⟩, ?_, rfl⟩
    simp [held]

theorem isQuote_eq_false_of {chr : UInt8}
    (h : (isspace chr || isSign chr || isOperatorChar chr) = true) :
    isQuote chr = false := by
  by_contra quote
  rw [Bool.not_eq_false, isQuote, Bool.or_eq_true, beq_iff_eq, beq_iff_eq] at quote
  rcases quote with rfl | rfl <;> exact absurd h (by decide)

/-- Outside every character but a blank is. -/
theorem readChar_unquoted {b : Buffers} (h : b.Exclusive) (unquoted : b.quotedArgBuffer = [])
    (chr : UInt8) :
    (b.readChar chr).Exclusive ∧
      (b.readChar chr).held = b.held ++ (if isspace chr = true then [] else [chr]) ∧
      (b.readChar chr).quotedArgBuffer.head? = quoting none chr := by
  obtain ⟨tokens, cmd, operator, quoted⟩ := b
  obtain rfl : quoted = [] := unquoted
  have exclusive := h.cmd
  have collected : (collectToken (collectToken tokens cmd) operator).flatten =
      tokens.flatten ++ cmd ++ operator := by
    rw [flatten_collectToken, flatten_collectToken]
  have outside : ¬ 0 < (Buffers.mk tokens cmd operator []).quotedArgBuffer.length :=
    Nat.lt_irrefl 0
  rw [readChar, if_neg outside, quoting]
  by_cases blank : isspace chr = true
  · rw [if_pos blank, if_pos blank, isQuote_eq_false_of (by rw [blank]; rfl)]
    refine ⟨⟨Or.inl rfl, fun _ => ⟨rfl, rfl⟩⟩, ?_, rfl⟩
    simp [held, collectCmd, collectOperator, collected]
  rw [if_neg blank, if_neg blank]
  by_cases sign : isSign chr = true
  · rw [if_pos sign, isQuote_eq_false_of (by simp [sign])]
    refine ⟨⟨Or.inl rfl, fun _ => ⟨rfl, rfl⟩⟩, ?_, rfl⟩
    simp [held, collectCmd, collectOperator, collected]
  rw [if_neg sign]
  by_cases oper : isOperatorChar chr = true
  · rw [if_pos oper, isQuote_eq_false_of (by simp [oper])]
    refine ⟨⟨Or.inl rfl, fun some => absurd rfl some⟩, ?_, rfl⟩
    simp [held, collectCmd, flatten_collectToken]
  rw [if_neg oper]
  by_cases quote : isQuote chr = true
  · rw [if_pos quote, if_pos quote]
    refine ⟨⟨Or.inl rfl, fun _ => ⟨rfl, rfl⟩⟩, ?_, rfl⟩
    simp [held, collectCmd, collectOperator, collected]
  · rw [if_neg quote, if_neg quote]
    refine ⟨⟨Or.inr rfl, fun some => absurd rfl some⟩, ?_, rfl⟩
    -- a word does not go on behind an operator
    rcases exclusive with none | none
    · cases none
      simp [held, collectOperator, flatten_collectToken]
    · cases none
      simp [held, collectOperator, flatten_collectToken]

/-- The loop keeps what should be kept. -/
theorem foldl_readChar {b : Buffers} (h : b.Exclusive) (line : List UInt8) :
    (line.foldl readChar b).held = b.held ++ keptText b.quotedArgBuffer.head? line ∧
      (line.foldl readChar b).quotedArgBuffer.head? =
        line.foldl quoting b.quotedArgBuffer.head? := by
  induction line generalizing b with
  | nil => exact ⟨(List.append_nil _).symm, rfl⟩
  | cons chr line ih =>
      rw [List.foldl_cons, List.foldl_cons, keptText]
      cases opened : b.quotedArgBuffer.head? with
      | none =>
          obtain ⟨exclusive, held, now⟩ :=
            readChar_unquoted h (List.head?_eq_none_iff.mp opened) chr
          obtain ⟨later, last⟩ := ih exclusive
          rw [later, last, held, now]
          by_cases blank : isspace chr = true
          · rw [if_pos blank, if_pos ⟨rfl, blank⟩, List.append_nil]
            exact ⟨rfl, rfl⟩
          · rw [if_neg blank, if_neg fun both => blank both.2, List.append_assoc]
            exact ⟨rfl, rfl⟩
      | some q =>
          obtain ⟨exclusive, held, now⟩ := readChar_quoted h opened chr
          obtain ⟨later, last⟩ := ih exclusive
          rw [later, last, held, now, if_neg fun both => Option.some_ne_none q both.1,
            List.append_assoc]
          exact ⟨rfl, rfl⟩

end Buffers

/-- The tokens of a line have exactly its characters without the blanks outside
quotations if and only if every quotation is ended. -/
theorem flatten_tokenizeLine_iff (line : List UInt8) :
    (tokenizeLine line).flatten = keptText none line ↔ unmatched line = none := by
  have start : Buffers.Exclusive ⟨[], [], [], []⟩ := ⟨Or.inl rfl, fun _ => ⟨rfl, rfl⟩⟩
  obtain ⟨held, last⟩ := Buffers.foldl_readChar start line
  have whole : (tokenizeLine line).flatten ++
      (line.foldl Buffers.readChar ⟨[], [], [], []⟩).quotedArgBuffer = keptText none line := by
    rw [tokenizeLine, Buffers.flatten_finish]
    exact held
  rw [← whole, List.self_eq_append_right, ← List.head?_eq_none_iff, last]
  exact Iff.rfl

/-- `a 'b`: the quoted text is lost. -/
theorem not_always_kept :
    ¬ ∀ line : List UInt8, (tokenizeLine line).flatten = keptText none line := by
  intro always
  exact absurd (always (text "a 'b")) (by decide)

end LisonShell
