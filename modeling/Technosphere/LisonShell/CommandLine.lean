import Technosphere.LisonShell.RoundTrip

/-!
# Arbitrary token lists

Cutting the tokens of a line at its operators gives a `CommandLine`: commands,
which may be empty or end in `<` or `>`, and operators. `buildCommandSequence`
constructs the commands from left to right and then wires them;
`build_isSome_iff` says for which lines that has a meaning.
-/

namespace LisonShell

open Bytes

/-! ## Cutting at operators -/

/-- The tokens of a command line: a first command, others with the operator in
front of each, and maybe an operator at the end. -/
def lineTokens (first : List Token) (rest : List (OpType × List Token))
    (trailing : Option OpType) : List Token :=
  first ++ (rest.flatMap fun (op, c) => op.token :: c) ++ trailing.toList.map OpType.token

structure CommandLine where
  first : List Token
  rest : List (OpType × List Token)
  trailing : Option OpType
  noOperator : ∀ c ∈ first :: rest.map Prod.snd, ∀ t ∈ c, isOperator t = false
  operators : ∀ op ∈ rest.map Prod.fst ++ trailing.toList, op ≠ .delimiter
  /-- What is behind the last operator is a command only if it has tokens. -/
  ended : trailing = none → (first :: rest.map Prod.snd).getLast? ≠ some []

namespace CommandLine

def commands (l : CommandLine) : List (List Token) := l.first :: l.rest.map Prod.snd

/-- The operators between the commands. -/
def ops (l : CommandLine) : List OpType := l.rest.map Prod.fst

def tokens (l : CommandLine) : List Token := lineTokens l.first l.rest l.trailing

end CommandLine

theorem token_of_isOperator {t : Token} (h : isOperator t = true) :
    ∃ op : OpType, op ≠ .delimiter ∧ op.token = t := by
  simp only [isOperator, Bool.or_eq_true, beq_iff_eq, or_assoc] at h
  rcases h with rfl | rfl | rfl | rfl
  · exact ⟨.or, by decide, rfl⟩
  · exact ⟨.and, by decide, rfl⟩
  · exact ⟨.pipeline, by decide, rfl⟩
  · exact ⟨.runInBackground, by decide, rfl⟩

theorem lineTokens_cons (first : List Token) (op : OpType) (c : List Token)
    (rest : List (OpType × List Token)) (trailing : Option OpType) :
    lineTokens first ((op, c) :: rest) trailing =
      first ++ op.token :: lineTokens c rest trailing := by
  simp only [lineTokens, List.flatMap_cons, List.append_assoc, List.cons_append]

theorem CommandLine.tokens_ne_nil (l : CommandLine) : l.tokens ≠ [] := by
  obtain ⟨first, rest, trailing, _, _, ended⟩ := l
  cases trailing with
  | some op => exact List.append_ne_nil_of_right_ne_nil _ (List.cons_ne_nil _ _)
  | none =>
      cases rest with
      | cons r rest =>
          rw [tokens, lineTokens_cons]
          exact List.append_ne_nil_of_right_ne_nil _ (List.cons_ne_nil _ _)
      | nil =>
          rintro nil
          obtain rfl : first = [] := by simpa [tokens, lineTokens] using nil
          exact ended rfl rfl

/-- Every line with tokens can be cut so. -/
theorem exists_commandLine (t : Token) (tokens : List Token) :
    ∃ l : CommandLine, l.tokens = t :: tokens := by
  induction tokens generalizing t with
  | nil =>
      by_cases operator : isOperator t = true
      · obtain ⟨op, other, rfl⟩ := token_of_isOperator operator
        exact ⟨⟨[], [], some op, by simp, by simpa using other, nofun⟩, rfl⟩
      · exact ⟨⟨[t], [], none, by simpa using operator, by simp, by simp⟩, rfl⟩
  | cons t' tokens ih =>
      obtain ⟨l, cut⟩ := ih t'
      by_cases operator : isOperator t = true
      · obtain ⟨op, other, rfl⟩ := token_of_isOperator operator
        refine ⟨⟨[], (op, l.first) :: l.rest, l.trailing, ?_, ?_, ?_⟩, ?_⟩
        · exact List.forall_mem_cons.mpr ⟨by simp, l.noOperator⟩
        · exact List.forall_mem_cons.mpr ⟨other, l.operators⟩
        · intro none
          rw [List.map_cons, List.getLast?_cons_cons]
          exact l.ended none
        · exact (lineTokens_cons [] op l.first l.rest l.trailing).trans
            (congrArg (op.token :: ·) cut)
      · refine ⟨⟨t :: l.first, l.rest, l.trailing, ?_, l.operators, ?_⟩, congrArg (t :: ·) cut⟩
        · have all := List.forall_mem_cons.mp l.noOperator
          refine List.forall_mem_cons.mpr ⟨List.forall_mem_cons.mpr ⟨?_, all.1⟩, all.2⟩
          simpa using operator
        · intro none
          have last := l.ended none
          cases rest : l.rest with
          | nil => simp
          | cons r rest =>
              rw [rest, List.map_cons, List.getLast?_cons_cons] at last
              rw [List.map_cons, List.getLast?_cons_cons]
              exact last

/-! ## One constructor call -/

namespace CommandItem

/-- The redirections of a command with the token behind each. -/
def redirections : List Token → List (Direction × Token)
  | [] => []
  | [_] => []
  | token :: next :: rest =>
    if token = text "<" then (.input, next) :: redirections rest
    else if token = text ">" then (.output, next) :: redirections rest
    else redirections (next :: rest)

/-- Open files for redirections, one after the other. -/
def openAll : List (Direction × Token) → CommandItem → World → CommandItem × World
  | [], item, w => (item, w)
  | (d, path) :: rest, item, w =>
    openAll rest (item.redirect (w.opened d path).1 d) (w.opened d path).2

theorem scan_sign (token : Token) (h : isRedirection token = true) (next : Token)
    (rest : List Token) (item : CommandItem) (w : World) :
    ∃ d, scan (token :: next :: rest) item w =
        scan rest (item.redirect (w.opened d next).1 d) (w.opened d next).2 ∧
      redirections (token :: next :: rest) = (d, next) :: redirections rest := by
  rw [isRedirection, Bool.or_eq_true, beq_iff_eq, beq_iff_eq] at h
  rcases h with rfl | rfl
  · refine ⟨.input, scan_redirect .input next rest item w, ?_⟩
    rw [redirections, if_pos rfl]
  · refine ⟨.output, scan_redirect .output next rest item w, ?_⟩
    rw [redirections, if_neg (by decide), if_pos rfl]

theorem redirections_word {token : Token} (word : ¬ isRedirection token = true) (next : Token)
    (rest : List Token) :
    redirections (token :: next :: rest) = redirections (next :: rest) := by
  simp only [isRedirection, Bool.or_eq_true, beq_iff_eq, not_or] at word
  rw [redirections, if_neg word.1, if_neg word.2]

/-- The constructor has a meaning when every redirection has a token behind it.
It collects the words and opens the files. -/
theorem scan_eq (tokens : List Token) (item : CommandItem) (w : World) :
    scan tokens item w =
      if complete tokens then
        some (openAll (redirections tokens) { item with args := item.args ++ words tokens } w)
      else none := by
  fun_induction complete tokens generalizing item w with
  | case1 =>
      show some (item, w) = some ({ item with args := item.args ++ [] }, w)
      rw [List.append_nil]
  | case2 token =>
      by_cases sign : isRedirection token = true
      · rw [sign, if_neg (by decide)]
        rw [isRedirection, Bool.or_eq_true, beq_iff_eq, beq_iff_eq] at sign
        rcases sign with rfl | rfl <;> rfl
      · rw [if_pos (by simpa using sign), scan_word sign, words, if_neg sign]
        rfl
  | case3 token path rest sign ih =>
      obtain ⟨d, scanned, opens⟩ := scan_sign token sign path rest item w
      rw [scanned, ih, opens, words, if_pos sign, redirect_args, openAll]
      cases d <;> rfl
  | case4 token next rest word ih =>
      rw [scan_word word, ih, redirections_word word, words, if_neg word, List.append_assoc,
        List.singleton_append]

end CommandItem

/-! ## Constructing the commands -/

/-- The constructor calls of the first loop. -/
def construct : List (List Token) → World → Option (List CommandItem × World)
  | [], w => some ([], w)
  | c :: cs, w => do
    let (item, w) ← CommandItem.new c w
    let (items, w) ← construct cs w
    some (item :: items, w)

/-- The sequence of constructed commands with their operators. -/
def assemble (ops : List OpType) (trailing : Option OpType) : List CommandItem → List Item
  | [] => []
  | c :: cs => interleave c (ops.zip cs) ++ trailing.toList.map .op

theorem length_construct {cs : List (List Token)} {w w' : World} {items : List CommandItem}
    (made : construct cs w = some (items, w')) : items.length = cs.length := by
  induction cs generalizing w items with
  | nil =>
      cases made
      rfl
  | cons c cs ih =>
      rw [construct] at made
      obtain ⟨⟨item, w₁⟩, _, made⟩ := Option.bind_eq_some_iff.mp made
      obtain ⟨⟨items', w₂⟩, rest, made⟩ := Option.bind_eq_some_iff.mp made
      cases made
      rw [List.length_cons, List.length_cons, ih rest]

theorem assemble_cons (op : OpType) (ops : List OpType) (trailing : Option OpType)
    (item : CommandItem) {items : List CommandItem} (some : items ≠ []) :
    assemble (op :: ops) trailing (item :: items) =
      .cmd item :: .op op :: assemble ops trailing items := by
  cases items with
  | nil => exact absurd rfl some
  | cons next items => rfl

theorem firstLoop_operator {c : List Token} (words : ∀ t ∈ c, isOperator t = false) {op : OpType}
    (other : op ≠ .delimiter) (tokens : List Token) (resultSequence : List Item) (w : World) :
    firstLoop (c ++ op.token :: tokens) [] resultSequence w =
      (CommandItem.new c w).bind fun made =>
        firstLoop tokens [] (resultSequence ++ [.cmd made.1, .op op]) made.2 := by
  rw [firstLoop_words words, List.nil_append, firstLoop, OpType.isOperator_token other,
    if_neg (by decide), op.operItem_token]
  rfl

theorem firstLoop_end {c : List Token} (words : ∀ t ∈ c, isOperator t = false) (some : c ≠ [])
    (resultSequence : List Item) (w : World) :
    firstLoop c [] resultSequence w =
      (CommandItem.new c w).map fun made => (resultSequence ++ [.cmd made.1], made.2) := by
  have split := firstLoop_words words [] [] resultSequence w
  rw [List.append_nil, List.nil_append] at split
  rw [split, firstLoop, if_pos (List.length_pos_of_ne_nil some)]
  cases CommandItem.new c w <;> rfl

theorem firstLoop_lineTokens (first : List Token) (rest : List (OpType × List Token))
    (trailing : Option OpType)
    (noOperator : ∀ c ∈ first :: rest.map Prod.snd, ∀ t ∈ c, isOperator t = false)
    (operators : ∀ op ∈ rest.map Prod.fst ++ trailing.toList, op ≠ .delimiter)
    (ended : trailing = none → (first :: rest.map Prod.snd).getLast? ≠ some [])
    (resultSequence : List Item) (w : World) :
    firstLoop (lineTokens first rest trailing) [] resultSequence w =
      (construct (first :: rest.map Prod.snd) w).map fun made =>
        (resultSequence ++ assemble (rest.map Prod.fst) trailing made.1, made.2) := by
  induction rest generalizing first resultSequence w with
  | nil =>
      have words := noOperator first List.mem_cons_self
      cases trailing with
      | none =>
          have some : first ≠ [] := by
            rintro rfl
            exact ended rfl rfl
          have whole : lineTokens first [] none = first := by simp [lineTokens]
          rw [whole, firstLoop_end words some, List.map_nil, construct]
          cases CommandItem.new first w <;> rfl
      | some op =>
          have whole : lineTokens first [] (some op) = first ++ op.token :: [] := by
            simp [lineTokens]
          rw [whole, firstLoop_operator words (operators op (by simp)), List.map_nil, construct]
          cases CommandItem.new first w <;> rfl
  | cons r rest' ih =>
      obtain ⟨op, c⟩ := r
      have words := noOperator first List.mem_cons_self
      have other : op ≠ .delimiter := operators op (by simp)
      rw [lineTokens_cons, firstLoop_operator words other, construct]
      cases CommandItem.new first w with
      | none => rfl
      | some made =>
          have rest := ih c (fun d inside => noOperator d (List.mem_cons_of_mem _ inside))
            (fun op inside => operators op (List.mem_cons_of_mem _ inside))
            (fun none => by
              have last := ended none
              rwa [List.map_cons, List.getLast?_cons_cons] at last)
            (resultSequence ++ [.cmd made.1, .op op]) made.2
          refine Eq.trans rest ?_
          cases following : construct (c :: rest'.map Prod.snd) made.2 with
          | none =>
              show _ = Option.map _ ((construct (c :: rest'.map Prod.snd) made.2).bind _)
              rw [following]
              rfl
          | some made' =>
              have some : made'.1 ≠ [] := by
                rw [← List.length_pos_iff, length_construct following]
                exact Nat.succ_pos _
              show _ = Option.map _ ((construct (c :: rest'.map Prod.snd) made.2).bind _)
              rw [following, Option.map_some, Option.bind_some, Option.map_some, List.map_cons,
                assemble_cons _ _ _ _ some, List.append_assoc]
              rfl

/-! ## Which lines can be parsed -/

theorem construct_isSome_iff (cs : List (List Token)) (w : World) :
    (construct cs w).isSome ↔ ∀ c ∈ cs, CommandItem.complete c = true := by
  induction cs generalizing w with
  | nil => simp [construct]
  | cons c cs ih =>
      rw [List.forall_mem_cons]
      by_cases complete : CommandItem.complete c = true
      · rw [construct, CommandItem.new, CommandItem.scan_eq, if_pos complete,
          and_iff_right complete, ← ih (CommandItem.openAll (CommandItem.redirections c)
            ⟨[] ++ CommandItem.words c, -1, none, none, 0⟩ w).2]
        show Option.isSome ((construct cs _).bind _) ↔ _
        cases construct cs _ <;> rfl
      · rw [construct, CommandItem.new, CommandItem.scan_eq, if_neg complete]
        simp [complete]

/-- The sequence of a line: its constructed commands, wired. -/
theorem build_of_construct {l : CommandLine} {w w₁ : World} {item : CommandItem}
    {items : List CommandItem} (made : construct l.commands w = some (item :: items, w₁))
    (other : l.trailing ≠ some .pipeline) :
    buildCommandSequence l.tokens w =
      some (interleave (wire item (l.ops.zip items) w₁).1.1 (wire item (l.ops.zip items) w₁).1.2 ++
        l.trailing.toList.map .op, (wire item (l.ops.zip items) w₁).2) := by
  have first := firstLoop_lineTokens l.first l.rest l.trailing l.noOperator l.operators l.ended [] w
  have tail : NoPipeline (l.trailing.toList.map .op) := by
    intro inside
    obtain ⟨op, there, same⟩ := List.mem_map.mp inside
    cases same
    exact other (Option.mem_toList.mp there)
  rw [buildCommandSequence]
  refine (congrArg (· >>= secondLoop) (first.trans (congrArg _ made))).trans ?_
  exact secondLoop_wire item (l.ops.zip items) tail w₁

/-- A line has a sequence exactly if every redirection has a token behind it in
its command and the last operator, at the end, is not `|`. -/
theorem build_isSome_iff (l : CommandLine) (w : World) :
    (buildCommandSequence l.tokens w).isSome ↔
      (∀ c ∈ l.commands, CommandItem.complete c = true) ∧ l.trailing ≠ some .pipeline := by
  rw [← construct_isSome_iff l.commands w]
  have first := firstLoop_lineTokens l.first l.rest l.trailing l.noOperator l.operators l.ended [] w
  cases made : construct l.commands w with
  | none =>
      have none : buildCommandSequence l.tokens w = none :=
        congrArg (· >>= secondLoop) (first.trans (congrArg _ made))
      rw [none]
      exact iff_of_false Bool.false_ne_true fun h => Bool.false_ne_true h.1
  | some made' =>
      obtain ⟨items, w₁⟩ := made'
      cases items with
      | nil => exact absurd (length_construct made) (Nat.succ_ne_zero _).symm
      | cons item items =>
          by_cases other : l.trailing = some .pipeline
          · have none : buildCommandSequence l.tokens w = none := by
              refine (congrArg (· >>= secondLoop) (first.trans (congrArg _ made))).trans ?_
              show secondLoop (interleave item (l.ops.zip items) ++ l.trailing.toList.map .op, w₁) =
                _
              rw [other]
              exact secondLoop_pipeline item _ w₁
            rw [none]
            exact iff_of_false Bool.false_ne_true fun h => h.2 other
          · rw [build_of_construct made other]
            exact iff_of_true rfl ⟨rfl, other⟩

end LisonShell
