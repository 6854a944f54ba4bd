import Technosphere.Emrakul.UserCommand
import Mathlib.Data.List.TakeWhile

/-!
# Quoted arguments of a command

Both versions split a line with the same `parse`. It does not remember which
character opened a quotation, so any of the two ends it, and it drops empty
tokens, also quoted ones. Arguments come back as they were exactly if neither
matters.
-/

namespace Emrakul

open Bytes

/-- An argument and the quotation mark that a client puts around it. -/
structure QuotedArg where
  quote : UInt8
  bytes : List UInt8
  isQuote : Bytes.isQuote quote = true
  unused : quote ∉ bytes
  noNul : 0 ∉ bytes
  oneLine : lineFeed ∉ bytes

namespace QuotedArg

def blank : UInt8 := 32

/-- The argument as it is written. -/
def written (a : QuotedArg) : List UInt8 := a.quote :: (a.bytes ++ [a.quote])

/-- The arguments of a line, with single spaces between them. -/
def line (args : List QuotedArg) : List UInt8 := [blank].intercalate (args.map written)

theorem line_cons_cons (a b : QuotedArg) (rest : List QuotedArg) :
    line (a :: b :: rest) = a.written ++ ([blank] ++ line (b :: rest)) := by
  rw [line, List.map_cons, List.map_cons, List.intercalate_cons_cons, List.append_assoc,
    ← List.map_cons]
  rfl

theorem line_singleton (a : QuotedArg) : line [a] = a.written := by
  rw [line, List.map_singleton, List.intercalate_singleton]

/-- `parse` neither ends the quotation early nor drops the token. -/
def Plain (a : QuotedArg) : Prop := a.bytes ≠ [] ∧ ∀ chr ∈ a.bytes, Bytes.isQuote chr = false

end QuotedArg

/-! ## Tokens have no quotation marks -/

/-- What is true of the tokens at any time. -/
structure Parsing.Unquoted (p : Parsing) : Prop where
  tokens : ∀ t ∈ p.tokens, t ≠ [] ∧ ∀ chr ∈ t, isQuote chr = false
  std : ∀ chr ∈ p.stdBuffer, isQuote chr = false
  quoted : ∀ chr ∈ p.quotedArgBuffer, isQuote chr = false

theorem collect_unquoted {tokens : List (List UInt8)} {s : List UInt8}
    (before : ∀ t ∈ tokens, t ≠ [] ∧ ∀ chr ∈ t, isQuote chr = false)
    (buffer : ∀ chr ∈ s, isQuote chr = false) :
    ∀ t ∈ collectTokenFromBuffer tokens s, t ≠ [] ∧ ∀ chr ∈ t, isQuote chr = false := by
  rw [collectTokenFromBuffer]
  split
  · rename_i some
    intro t ht
    rcases List.mem_append.mp ht with ht | ht
    · exact before t ht
    · obtain rfl := List.mem_singleton.mp ht
      exact ⟨List.ne_nil_of_length_pos some, buffer⟩
  · exact before

theorem Parsing.Unquoted.chr {p : Parsing} (h : p.Unquoted) (chr : UInt8) :
    (parseChr p chr).Unquoted := by
  have none : ∀ chr ∈ ([] : List UInt8), isQuote chr = false := by simp
  have append : ∀ {s : List UInt8}, (∀ chr ∈ s, isQuote chr = false) → isQuote chr = false →
      ∀ chr' ∈ s ++ [chr], isQuote chr' = false := by
    intro s before new chr' member
    rcases List.mem_append.mp member with member | member
    · exact before chr' member
    · obtain rfl := List.mem_singleton.mp member
      exact new
  rw [parseChr]
  split
  · split
    · exact ⟨collect_unquoted h.tokens h.quoted, h.std, none⟩
    · exact ⟨h.tokens, h.std, append h.quoted (Bool.eq_false_of_not_eq_true ‹_›)⟩
  · split
    · exact ⟨collect_unquoted h.tokens h.std, none, h.quoted⟩
    · split
      · exact ⟨collect_unquoted h.tokens h.std, none, h.quoted⟩
      · exact ⟨h.tokens, append h.std (Bool.eq_false_of_not_eq_true ‹_›), h.quoted⟩

/-- No token is empty, and none contains a quotation mark. -/
theorem parse_unquoted (cmdstr : List UInt8) :
    ∀ t ∈ parse cmdstr, t ≠ [] ∧ ∀ chr ∈ t, isQuote chr = false := by
  have start : Parsing.Unquoted ⟨[], [], [], false⟩ := ⟨by simp, by simp, by simp⟩
  have all : ∀ (chrs : List UInt8) (p : Parsing), p.Unquoted →
      (chrs.foldl parseChr p).Unquoted := by
    intro chrs
    induction chrs with
    | nil => exact fun p h => h
    | cons chr chrs ih => exact fun p h => ih _ (h.chr chr)
  have h := all (cmdstr.takeWhile (· ≠ 0)) _ start
  exact collect_unquoted h.tokens h.std

/-! ## Reading arguments back -/

section Quoted

variable {tokens : List (List UInt8)}

/-- The characters inside a quotation are kept. -/
theorem foldl_quoted {chrs : List UInt8} (inside : ∀ chr ∈ chrs, isQuote chr = false)
    (quoted : List UInt8) :
    chrs.foldl parseChr ⟨tokens, [], quoted, true⟩ = ⟨tokens, [], quoted ++ chrs, true⟩ := by
  induction chrs generalizing quoted with
  | nil => rw [List.foldl_nil, List.append_nil]
  | cons chr chrs ih =>
      obtain ⟨here, later⟩ := List.forall_mem_cons.mp inside
      have step : parseChr ⟨tokens, [], quoted, true⟩ chr =
          ⟨tokens, [], quoted ++ [chr], true⟩ := by
        rw [parseChr, if_pos rfl, if_neg (by rw [here]; decide)]
      rw [List.foldl_cons, step, ih later, List.append_assoc]
      rfl

theorem not_isspace_of_isQuote {chr : UInt8} (h : isQuote chr = true) : isspace chr = false := by
  rw [isQuote, Bool.or_eq_true, beq_iff_eq, beq_iff_eq] at h
  rcases h with rfl | rfl <;> decide

/-- One argument becomes one token. -/
theorem foldl_written {a : QuotedArg} (plain : a.Plain) :
    a.written.foldl parseChr ⟨tokens, [], [], false⟩ = ⟨tokens ++ [a.bytes], [], [], false⟩ := by
  have opens : parseChr ⟨tokens, [], [], false⟩ a.quote = ⟨tokens, [], [], true⟩ := by
    rw [parseChr, if_neg Bool.false_ne_true,
      if_neg (by rw [not_isspace_of_isQuote a.isQuote]; decide), if_pos a.isQuote]
    rfl
  have closes : parseChr ⟨tokens, [], a.bytes, true⟩ a.quote =
      ⟨tokens ++ [a.bytes], [], [], false⟩ := by
    rw [parseChr, if_pos rfl, if_pos a.isQuote, collectTokenFromBuffer,
      if_pos (List.length_pos_of_ne_nil plain.1)]
  rw [QuotedArg.written, List.foldl_cons, opens, List.foldl_append, foldl_quoted plain.2,
    List.nil_append, List.foldl_cons, List.foldl_nil, closes]

theorem foldl_line {args : List QuotedArg} (plain : ∀ a ∈ args, a.Plain) :
    (QuotedArg.line args).foldl parseChr ⟨tokens, [], [], false⟩ =
      ⟨tokens ++ args.map QuotedArg.bytes, [], [], false⟩ := by
  induction args generalizing tokens with
  | nil => rw [List.map_nil, List.append_nil]; rfl
  | cons a rest ih =>
      obtain ⟨here, later⟩ := List.forall_mem_cons.mp plain
      cases rest with
      | nil => rw [QuotedArg.line_singleton, foldl_written here, List.map_singleton]
      | cons b rest =>
          have gap : parseChr ⟨tokens ++ [a.bytes], [], [], false⟩ QuotedArg.blank =
              ⟨tokens ++ [a.bytes], [], [], false⟩ := rfl
          rw [QuotedArg.line_cons_cons, List.foldl_append, foldl_written here, List.foldl_append,
            List.foldl_cons, List.foldl_nil, gap, ih later, List.append_assoc, List.map_cons,
            List.map_cons, List.map_cons, List.singleton_append]

end Quoted

theorem noNul_written (a : QuotedArg) : ∀ chr ∈ a.written, chr ≠ 0 := by
  have quote : a.quote ≠ 0 := by
    intro zero
    have impossible := a.isQuote
    rw [zero] at impossible
    exact absurd impossible (by decide)
  intro chr member zero
  subst zero
  rcases List.mem_cons.mp member with same | member
  · exact quote same.symm
  · rcases List.mem_append.mp member with member | member
    · exact a.noNul member
    · exact quote (List.mem_singleton.mp member).symm

theorem noNul_line (args : List QuotedArg) : ∀ chr ∈ QuotedArg.line args, chr ≠ 0 := by
  induction args with
  | nil => simp [QuotedArg.line]
  | cons a rest ih =>
      cases rest with
      | nil =>
          rw [QuotedArg.line_singleton]
          exact noNul_written a
      | cons b rest =>
          rw [QuotedArg.line_cons_cons]
          intro chr member
          rcases List.mem_append.mp member with member | member
          · exact noNul_written a chr member
          · rcases List.mem_cons.mp member with rfl | member
            · decide
            · exact ih chr member

/-- The tokens of a line of quoted arguments are the arguments exactly if every
argument has at least one character and no quotation mark. -/
theorem parse_quoted_iff (args : List QuotedArg) :
    parse (QuotedArg.line args) = args.map QuotedArg.bytes ↔ ∀ a ∈ args, a.Plain := by
  constructor
  · intro same a member
    exact parse_unquoted _ _ (same ▸ List.mem_map_of_mem member)
  · intro plain
    have whole : (QuotedArg.line args).takeWhile (· ≠ 0) = QuotedArg.line args := by
      rw [List.takeWhile_eq_self_iff]
      exact fun chr member => decide_eq_true (noNul_line args chr member)
    rw [parse, whole, foldl_line plain]
    exact List.nil_append _

/-- `'it"s'`. -/
def apostrophe : QuotedArg :=
  ⟨39, text "it\"s", by decide, by decide, by decide, by decide⟩

/-- The other quotation mark ends the argument, and the rest of it becomes a second one. -/
theorem not_always_parsed :
    ¬ ∀ args : List QuotedArg, parse (QuotedArg.line args) = args.map QuotedArg.bytes := by
  intro always
  exact absurd (always [apostrophe]) (by decide)

end Emrakul
