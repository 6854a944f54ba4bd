import Technosphere.LisonShell.CommandLine

/-!
# Reads and writes of the parser

The constructor of a command reads the token behind every redirection and
writes its words to an array with one place more than it has tokens. The second
loop of `build_command_sequence` looks at the items on both sides of every `|`.
`parsedInRange_iff` says for which lines all of that exists.
-/

namespace LisonShell

open Bytes

/-- What the constructor accesses by an index, besides the token at which its
loop stands. -/
inductive Access where
  /-- A read of `cmd_tokens[++token_idx]`. -/
  | token (idx : Nat)
  /-- A write of `pArgs[arg_idx]`. -/
  | argument (idx : Nat)
  deriving DecidableEq, Repr

/-- The accesses of the constructor when its loop stands before the given tokens. -/
def accesses : List Token → (tokenIdx argIdx : Nat) → List Access
  | [], _, argIdx => [.argument argIdx]
  | token :: rest, tokenIdx, argIdx =>
    if token = text "<" ∨ token = text ">" then
      match rest with
      -- the loop ends behind a token that does not exist
      | [] => [.token (tokenIdx + 1), .argument argIdx]
      | _ :: rest => .token (tokenIdx + 1) :: accesses rest (tokenIdx + 2) argIdx
    else .argument argIdx :: accesses rest (tokenIdx + 1) (argIdx + 1)

/-- The access stays inside its array, for a command of `size` tokens. -/
def Access.InRange (size : Nat) : Access → Prop
  | .token idx => idx < size
  | .argument idx => idx < size + 1

/-- The commands that the first loop constructs. -/
def constructorCalls : List Token → (currentCommand : List Token) → List (List Token)
  | [], currentCommand => if 0 < currentCommand.length then [currentCommand] else []
  | token :: tokens, currentCommand =>
    if !isOperator token then constructorCalls tokens (currentCommand ++ [token])
    else currentCommand :: constructorCalls tokens []

/-- Every `|` has a command on either side. -/
def PipesBetween (items : List Item) : Prop :=
  ∀ elem, items[elem]? = some (.op .pipeline) →
    0 < elem ∧ (∃ c, items[elem - 1]? = some (.cmd c)) ∧ ∃ c, items[elem + 1]? = some (.cmd c)

/-- Nothing outside of an array is read or written when the line is parsed, and
every `|` has its two commands. -/
def ParsedInRange (line : List UInt8) (w : World) : Prop :=
  (∀ c ∈ constructorCalls (tokenizeLine line) [], ∀ a ∈ accesses c 0 0, a.InRange c.length) ∧
    ∀ items w', firstLoop (tokenizeLine line) [] [] w = some (items, w') → PipesBetween items

/-! ## The constructor -/

theorem isRedirection_iff {token : Token} :
    CommandItem.isRedirection token = true ↔ token = text "<" ∨ token = text ">" := by
  rw [CommandItem.isRedirection, Bool.or_eq_true, beq_iff_eq, beq_iff_eq]

theorem complete_word {token : Token} (word : ¬ CommandItem.isRedirection token = true)
    (rest : List Token) :
    CommandItem.complete (token :: rest) = CommandItem.complete rest := by
  cases rest with
  | nil => simpa [CommandItem.complete] using word
  | cons next rest => rw [CommandItem.complete, if_neg word]

/-- The argument index stays behind the token index, so only the read behind a
redirection can leave its array. -/
theorem accesses_inRange_iff (c : List Token) (tokenIdx argIdx : Nat) (low : argIdx ≤ tokenIdx) :
    (∀ a ∈ accesses c tokenIdx argIdx, a.InRange (tokenIdx + c.length)) ↔
      CommandItem.complete c = true := by
  fun_induction accesses c tokenIdx argIdx with
  | case1 tokenIdx argIdx =>
      refine iff_of_true ?_ rfl
      rw [List.forall_mem_singleton]
      exact Nat.lt_succ_of_le low
  | case2 token tokenIdx argIdx sign =>
      refine iff_of_false (fun all => ?_) ?_
      · have outside : tokenIdx + 1 < tokenIdx + 1 := all _ List.mem_cons_self
        exact Nat.lt_irrefl _ outside
      · rw [CommandItem.complete, isRedirection_iff.mpr sign]
        decide
  | case3 token tokenIdx argIdx sign path rest ih =>
      have inside : Access.InRange (tokenIdx + (token :: path :: rest).length)
          (.token (tokenIdx + 1)) := by
        show tokenIdx + 1 < _
        rw [List.length_cons, List.length_cons]
        omega
      have length : tokenIdx + (token :: path :: rest).length = tokenIdx + 2 + rest.length := by
        rw [List.length_cons, List.length_cons]
        omega
      rw [List.forall_mem_cons, and_iff_right inside, length, ih (by omega), CommandItem.complete,
        if_pos (isRedirection_iff.mpr sign)]
  | case4 token rest tokenIdx argIdx word ih =>
      have inside : Access.InRange (tokenIdx + (token :: rest).length) (.argument argIdx) := by
        show argIdx < _
        omega
      have length : tokenIdx + (token :: rest).length = tokenIdx + 1 + rest.length := by
        rw [List.length_cons]
        omega
      rw [List.forall_mem_cons, and_iff_right inside, length, ih (by omega),
        complete_word (mt isRedirection_iff.mp word)]

/-! ## The second loop -/

theorem constructorCalls_words {words : List Token} (h : ∀ t ∈ words, isOperator t = false)
    (tokens currentCommand : List Token) :
    constructorCalls (words ++ tokens) currentCommand =
      constructorCalls tokens (currentCommand ++ words) := by
  induction words generalizing currentCommand with
  | nil => rw [List.nil_append, List.append_nil]
  | cons t words ih =>
      obtain ⟨word, others⟩ := List.forall_mem_cons.mp h
      rw [List.cons_append, constructorCalls, word, if_pos (by decide), ih others,
        List.append_assoc, List.singleton_append]

/-- The constructor is called for the commands of the line. -/
theorem constructorCalls_tokens (first : List Token) (rest : List (OpType × List Token))
    (trailing : Option OpType)
    (noOperator : ∀ c ∈ first :: rest.map Prod.snd, ∀ t ∈ c, isOperator t = false)
    (operators : ∀ op ∈ rest.map Prod.fst ++ trailing.toList, op ≠ .delimiter)
    (ended : trailing = none → (first :: rest.map Prod.snd).getLast? ≠ some []) :
    constructorCalls (lineTokens first rest trailing) [] = first :: rest.map Prod.snd := by
  have operator : ∀ {c : List Token}, (∀ t ∈ c, isOperator t = false) → ∀ {op : OpType},
      op ≠ .delimiter → ∀ tokens,
        constructorCalls (c ++ op.token :: tokens) [] = c :: constructorCalls tokens [] := by
    intro c words op other tokens
    rw [constructorCalls_words words, List.nil_append, constructorCalls,
      OpType.isOperator_token other, if_neg (by decide)]
  induction rest generalizing first with
  | nil =>
      have words := noOperator first List.mem_cons_self
      cases trailing with
      | none =>
          have some : 0 < first.length := by
            rw [List.length_pos_iff]
            rintro rfl
            exact ended rfl rfl
          have split := constructorCalls_words words [] []
          rw [List.append_nil, List.nil_append] at split
          have whole : lineTokens first [] none = first := by simp [lineTokens]
          rw [whole, split, constructorCalls, if_pos some, List.map_nil]
      | some op =>
          have whole : lineTokens first [] (some op) = first ++ op.token :: [] := by
            simp [lineTokens]
          rw [whole, operator words (operators op (by simp)), List.map_nil]
          rfl
  | cons r rest ih =>
      obtain ⟨op, c⟩ := r
      rw [lineTokens_cons, operator (noOperator first List.mem_cons_self) (operators op (by simp)),
        ih c (fun d inside => noOperator d (List.mem_cons_of_mem _ inside))
          (fun op inside => operators op (List.mem_cons_of_mem _ inside))]
      · rfl
      · intro none
        have last := ended none
        rwa [List.map_cons, List.getLast?_cons_cons] at last

theorem PipesBetween.cons_cons {items : List Item} (h : PipesBetween items) (c : CommandItem)
    (op : OpType) (next : ∃ d, items[0]? = some (.cmd d)) :
    PipesBetween (.cmd c :: .op op :: items) := by
  intro elem here
  match elem with
  | 0 => cases here
  | 1 => exact ⟨Nat.one_pos, ⟨c, rfl⟩, next⟩
  | elem + 2 =>
      obtain ⟨positive, ⟨d, before⟩, after⟩ := h elem here
      obtain ⟨k, rfl⟩ := Nat.exists_eq_succ_of_ne_zero (Nat.ne_of_gt positive)
      exact ⟨Nat.succ_pos _, ⟨d, before⟩, after⟩

theorem pipesBetween_interleave (c : CommandItem) (rest : Joined) {tail : List Item}
    (none : NoPipeline tail) : PipesBetween (interleave c rest ++ tail) := by
  induction rest generalizing c with
  | nil =>
      intro elem here
      cases elem with
      | zero => cases here
      | succ elem =>
          have there : tail[elem]? = some (.op .pipeline) := here
          exact absurd (List.mem_of_getElem? there) none
  | cons opd rest ih =>
      obtain ⟨op, d⟩ := opd
      exact (ih d).cons_cons c op ⟨d, rfl⟩

theorem not_pipesBetween (items : List Item) : ¬ PipesBetween (items ++ [.op .pipeline]) := by
  intro between
  obtain ⟨_, _, c, next⟩ := between items.length (by simp)
  simp at next

theorem pipesBetween_assemble (ops : List OpType) (trailing : Option OpType) (item : CommandItem)
    (items : List CommandItem) :
    PipesBetween (assemble ops trailing (item :: items)) ↔ trailing ≠ some .pipeline := by
  by_cases other : trailing = some .pipeline
  · subst other
    exact iff_of_false (not_pipesBetween _) (not_not.mpr rfl)
  · refine iff_of_true (pipesBetween_interleave item _ fun inside => ?_) other
    obtain ⟨op, there, same⟩ := List.mem_map.mp inside
    cases same
    exact other (Option.mem_toList.mp there)

/-! ## Whole lines -/

/-- A line without an operator at its end ends with a token of its last command. -/
theorem getLast?_lineTokens {first : List Token} {rest : List (OpType × List Token)}
    (noOperator : ∀ c ∈ first :: rest.map Prod.snd, ∀ t ∈ c, isOperator t = false)
    (ended : (first :: rest.map Prod.snd).getLast? ≠ some []) :
    ∃ t, (lineTokens first rest none).getLast? = some t ∧ isOperator t = false := by
  induction rest generalizing first with
  | nil =>
      have some : first ≠ [] := by
        rintro rfl
        exact ended rfl
      have whole : lineTokens first [] none = first := by simp [lineTokens]
      rw [whole, List.getLast?_eq_some_getLast some]
      exact ⟨_, rfl, noOperator first List.mem_cons_self _ (List.getLast_mem some)⟩
  | cons r rest ih =>
      obtain ⟨op, c⟩ := r
      rw [List.map_cons, List.getLast?_cons_cons] at ended
      obtain ⟨t, last, word⟩ := ih (List.forall_mem_cons.mp noOperator).2 ended
      refine ⟨t, ?_, word⟩
      rw [lineTokens_cons, List.getLast?_append, List.getLast?_cons, last]
      rfl

theorem CommandLine.getLast?_tokens (l : CommandLine) :
    l.tokens.getLast? = some (text "|") ↔ l.trailing = some .pipeline := by
  obtain ⟨first, rest, trailing, noOperator, operators, ended⟩ := l
  show (lineTokens first rest trailing).getLast? = _ ↔ trailing = _
  cases trailing with
  | none =>
      obtain ⟨t, last, word⟩ := getLast?_lineTokens noOperator (ended rfl)
      rw [last]
      refine iff_of_false (fun same => ?_) nofun
      rw [Option.some.inj same] at word
      exact absurd word (by decide)
  | some op =>
      have last : (lineTokens first rest (some op)).getLast? = some op.token := by
        simp [lineTokens]
      rw [last, Option.some_inj, Option.some_inj]
      cases op <;> decide

/-- The line is parsed inside its arrays exactly if in every command each `<`
and `>` that is not itself read as a file has a token behind it, and the line
does not end with `|`. -/
theorem parsedInRange_iff (line : List UInt8) (w : World) :
    ParsedInRange line w ↔
      (∀ c ∈ constructorCalls (tokenizeLine line) [], CommandItem.complete c = true) ∧
        (tokenizeLine line).getLast? ≠ some (text "|") := by
  have constructors : ∀ c : List Token,
      (∀ a ∈ accesses c 0 0, a.InRange c.length) ↔ CommandItem.complete c = true := by
    intro c
    have inRange := accesses_inRange_iff c 0 0 (Nat.le_refl 0)
    rwa [Nat.zero_add] at inRange
  simp only [ParsedInRange, constructors]
  refine and_congr_right fun complete => ?_
  cases tokens : tokenizeLine line with
  | nil =>
      refine iff_of_true ?_ nofun
      rintro items w' ⟨⟩ elem here
      cases here
  | cons t ts =>
      obtain ⟨l, cut⟩ := exists_commandLine t ts
      have calls : constructorCalls l.tokens [] = l.commands :=
        constructorCalls_tokens l.first l.rest l.trailing l.noOperator l.operators l.ended
      have first : firstLoop l.tokens [] [] w = _ :=
        firstLoop_lineTokens l.first l.rest l.trailing l.noOperator l.operators l.ended [] w
      rw [tokens, ← cut, calls, ← construct_isSome_iff l.commands w] at complete
      obtain ⟨⟨made, w₁⟩, constructed⟩ := Option.isSome_iff_exists.mp complete
      rw [← cut, Ne, l.getLast?_tokens, first]
      have between : PipesBetween (assemble l.ops l.trailing made) ↔
          l.trailing ≠ some .pipeline := by
        cases made with
        | nil => exact absurd (length_construct constructed) (Nat.succ_ne_zero _).symm
        | cons item items => exact pipesBetween_assemble l.ops l.trailing item items
      refine Iff.trans ⟨fun all => ?_, fun there items w' same => ?_⟩ between
      · exact all _ w₁ (congrArg _ constructed)
      · cases (congrArg (Option.map _) constructed).symm.trans same
        exact there

/-- `a <`. -/
theorem not_always_parsed_inRange : ¬ ∀ (line : List UInt8) (w : World), ParsedInRange line w := by
  intro always
  have read := (always (text "a <") (.fresh [])).1 [text "a", text "<"] (by decide) (.token 2)
    (by decide)
  exact Nat.lt_irrefl 2 read

end LisonShell
