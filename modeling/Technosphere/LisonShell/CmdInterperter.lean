import Technosphere.LisonShell.CommandItem

/-!
# Building a command sequence

`build_command_sequence` makes commands and operators of the tokens of a line
in a first loop and joins the commands around each `|` with a pipe in a second
one. For a list of commands that are joined by operators, `build_joined` says
which items come out.
-/

namespace LisonShell

open Bytes

inductive OpType where
  | and
  | or
  | pipeline
  | runInBackground
  | delimiter
  deriving DecidableEq, Repr

/-- An element of a command sequence. -/
inductive Item where
  | cmd (command : CommandItem)
  | op (name : OpType)
  deriving DecidableEq, Repr

/-- `is_operator`. -/
def isOperator (s : Token) : Bool :=
  s == text "||" || s == text "&&" || s == text "|" || s == text "&"

/-- The operator that a token stands for; for other tokens no item is made. -/
def operItem (token : Token) : Option OpType :=
  if token = text "|" then some .pipeline
  else if token = text "||" then some .or
  else if token = text "&" then some .runInBackground
  else if token = text "&&" then some .and
  else if token = text ";" then some .delimiter
  else none

/-- The first loop. The token list `currentCommand` has been read since the
last operator. -/
def firstLoop : List Token → (currentCommand : List Token) → (resultSequence : List Item) →
    World → Option (List Item × World)
  | [], currentCommand, resultSequence, w =>
    if 0 < currentCommand.length then do
      let (pCmd, w) ← CommandItem.new currentCommand w
      some (resultSequence ++ [.cmd pCmd], w)
    else some (resultSequence, w)
  | token :: tokens, currentCommand, resultSequence, w =>
    if !isOperator token then
      firstLoop tokens (currentCommand ++ [token]) resultSequence w
    else do
      let (pCmd, w) ← CommandItem.new currentCommand w
      let item ← operItem token
      firstLoop tokens [] (resultSequence ++ [.cmd pCmd, .op item]) w

/-- The body of the second loop at index `elem`. It has no meaning for a `|`
without a command on either side. -/
def secondLoopBody (s : List Item × World) (elem : Nat) : Option (List Item × World) :=
  match s.1[elem]? with
  | some (.op .pipeline) =>
    let piped := s.2.pipe
    match (if elem = 0 then none else s.1[elem - 1]?), s.1[elem + 1]? with
    | some (.cmd prev), some (.cmd next) =>
      some ((s.1.set (elem + 1) (.cmd (next.redirectStdin piped.1.1 piped.1.2))).set (elem - 1)
        (.cmd (prev.redirectStdout piped.1.2 piped.1.1)), piped.2)
    | _, _ => none
  | _ => some s

def secondLoop (s : List Item × World) : Option (List Item × World) :=
  (List.range s.1.length).foldlM secondLoopBody s

/-- `build_command_sequence`: the sequence and the shell after it. -/
def buildCommandSequence (tokens : List Token) (w : World) : Option (List Item × World) :=
  firstLoop tokens [] [] w >>= secondLoop

/-! ## Well-formed commands -/

/-- The tokens of a command that has words and whose redirections have files. -/
structure Command where
  tokens : List Token
  nonempty : 0 < tokens.length
  noOperator : ∀ t ∈ tokens, isOperator t = false
  complete : CommandItem.complete tokens = true

/-- The words of the command. -/
def Command.words (c : Command) : List Token := CommandItem.words c.tokens

/-- An operator that joins two commands. -/
inductive Joint where
  | and
  | or
  | pipeline
  deriving DecidableEq, Repr

namespace Joint

def token : Joint → Token
  | .and => text "&&"
  | .or => text "||"
  | .pipeline => text "|"

def name : Joint → OpType
  | .and => .and
  | .or => .or
  | .pipeline => .pipeline

theorem isOperator_token (j : Joint) : isOperator j.token = true := by
  cases j <;> decide

theorem operItem_token (j : Joint) : operItem j.token = some j.name := by
  cases j <;> decide

end Joint

/-- The tokens of commands that are joined by operators. -/
def joinedTokens (c : Command) : List (Joint × Command) → List Token
  | [] => c.tokens
  | (j, d) :: rest => c.tokens ++ j.token :: joinedTokens d rest

/-- What running a sequence depends on: the words of its commands and its operators. -/
def Item.shape : Item → List Token ⊕ OpType
  | .cmd command => .inl command.args
  | .op name => .inr name

/-- The shapes of commands that are joined by operators. -/
def joinedShapes (c : Command) : List (Joint × Command) → List (List Token ⊕ OpType)
  | [] => [.inl c.words]
  | (j, d) :: rest => .inl c.words :: .inr j.name :: joinedShapes d rest

/-! ## The first loop -/

theorem firstLoop_words {words : List Token} (h : ∀ t ∈ words, isOperator t = false)
    (tokens currentCommand : List Token) (resultSequence : List Item) (w : World) :
    firstLoop (words ++ tokens) currentCommand resultSequence w =
      firstLoop tokens (currentCommand ++ words) resultSequence w := by
  induction words generalizing currentCommand with
  | nil => rw [List.nil_append, List.append_nil]
  | cons t words ih =>
      have word : isOperator t = false := h t (by simp)
      rw [List.cons_append, firstLoop, word, if_pos (by decide), ih fun t ht => h t (by simp [ht]),
        List.append_assoc, List.singleton_append]

theorem firstLoop_joined (c : Command) (rest : List (Joint × Command))
    (resultSequence : List Item) (w : World) :
    ∃ items w', firstLoop (joinedTokens c rest) [] resultSequence w =
        some (resultSequence ++ items, w') ∧
      items.map Item.shape = joinedShapes c rest ∧ w'.children = w.children := by
  induction rest generalizing c resultSequence w with
  | nil =>
      obtain ⟨item, w', made, args, children⟩ := CommandItem.new_complete c.complete w
      refine ⟨[.cmd item], w', ?_, ?_, children⟩
      · rw [joinedTokens, ← List.append_nil c.tokens, firstLoop_words c.noOperator, List.nil_append,
          firstLoop, if_pos c.nonempty, made]
        rfl
      · rw [joinedShapes, Command.words, ← args]
        rfl
  | cons jd rest ih =>
      obtain ⟨j, d⟩ := jd
      obtain ⟨item, w₁, made, args, children₁⟩ := CommandItem.new_complete c.complete w
      obtain ⟨items, w', built, shapes, children⟩ :=
        ih d (resultSequence ++ [.cmd item, .op j.name]) w₁
      refine ⟨.cmd item :: .op j.name :: items, w', ?_, ?_, children.trans children₁⟩
      · rw [joinedTokens, firstLoop_words c.noOperator, List.nil_append, firstLoop,
          j.isOperator_token, if_neg (by decide), made, j.operItem_token]
        simp only [Option.bind_eq_bind, Option.bind_some]
        rw [built, List.append_assoc]
        rfl
      · rw [joinedShapes, Command.words, ← args, ← shapes]
        rfl

/-! ## The second loop -/

/-- Every `|` has a command on either side. -/
def PipesJoin (shapes : List (List Token ⊕ OpType)) : Prop :=
  ∀ i, shapes[i]? = some (.inr .pipeline) →
    0 < i ∧ (∃ a, shapes[i - 1]? = some (.inl a)) ∧ ∃ a, shapes[i + 1]? = some (.inl a)

theorem joinedShapes_head (c : Command) (rest : List (Joint × Command)) :
    (joinedShapes c rest)[0]? = some (.inl c.words) := by
  cases rest <;> rfl

theorem pipesJoin_joined (c : Command) (rest : List (Joint × Command)) :
    PipesJoin (joinedShapes c rest) := by
  induction rest generalizing c with
  | nil =>
      intro i hi
      match i with
      | 0 => cases hi
      | i + 1 => cases hi
  | cons jd rest ih =>
      obtain ⟨j, d⟩ := jd
      intro i hi
      match i with
      | 0 => cases hi
      | 1 => exact ⟨by decide, ⟨c.words, rfl⟩, d.words, joinedShapes_head d rest⟩
      | i + 2 =>
          obtain ⟨positive, before, after⟩ := ih d i hi
          refine ⟨by omega, ?_, after⟩
          obtain ⟨k, rfl⟩ : ∃ k, i = k + 1 := ⟨i - 1, by omega⟩
          exact before

theorem shape_of_getElem? {items : List Item} {i : Nat} {item : Item} (h : items[i]? = some item) :
    (items.map Item.shape)[i]? = some item.shape := by
  rw [List.getElem?_map, h]
  rfl

theorem cmd_of_shape {items : List Item} {i : Nat} {a : List Token}
    (h : (items.map Item.shape)[i]? = some (.inl a)) : ∃ c, items[i]? = some (.cmd c) := by
  rw [List.getElem?_map, Option.map_eq_some_iff] at h
  obtain ⟨item, hi, same⟩ := h
  cases item with
  | cmd c => exact ⟨c, hi⟩
  | op => cases same

/-- Replacing an item by one of the same shape. -/
theorem map_shape_set {items : List Item} {i : Nat} {c c' : CommandItem}
    (h : items[i]? = some (.cmd c)) (same : c'.args = c.args) :
    (items.set i (.cmd c')).map Item.shape = items.map Item.shape := by
  have here : (items.map Item.shape)[i]? = some (.inl c'.args) := by
    rw [shape_of_getElem? h, same]
    rfl
  obtain ⟨hi, at_i⟩ := List.getElem?_eq_some_iff.mp here
  rw [List.map_set, Item.shape, ← at_i, List.set_getElem_self]

theorem pipe_children (w : World) : w.pipe.2.children = w.children := rfl

theorem secondLoopBody_joined {s : List Item × World} (h : PipesJoin (s.1.map Item.shape))
    (elem : Nat) :
    ∃ s', secondLoopBody s elem = some s' ∧ s'.1.map Item.shape = s.1.map Item.shape ∧
      s'.2.children = s.2.children := by
  rw [secondLoopBody]
  split
  · rename_i found
    obtain ⟨positive, ⟨_, before⟩, _, after⟩ := h elem (shape_of_getElem? found)
    obtain ⟨prev, hprev⟩ := cmd_of_shape before
    obtain ⟨next, hnext⟩ := cmd_of_shape after
    rw [if_neg (by omega), hprev, hnext]
    have apart : elem + 1 ≠ elem - 1 := by omega
    have still : ∀ item, (s.1.set (elem + 1) item)[elem - 1]? = some (.cmd prev) := by
      intro item
      rw [List.getElem?_set_ne apart, hprev]
    refine ⟨_, rfl, ?_, pipe_children s.2⟩
    show List.map Item.shape (List.set _ _ _) = _
    rw [map_shape_set (still _) (by rfl), map_shape_set hnext (by rfl)]
  · exact ⟨s, rfl, rfl, rfl⟩

theorem foldlM_secondLoopBody {s : List Item × World} (h : PipesJoin (s.1.map Item.shape))
    (elems : List Nat) :
    ∃ s', elems.foldlM secondLoopBody s = some s' ∧ s'.1.map Item.shape = s.1.map Item.shape ∧
      s'.2.children = s.2.children := by
  induction elems generalizing s with
  | nil => exact ⟨s, rfl, rfl, rfl⟩
  | cons elem elems ih =>
      obtain ⟨s₁, body, shapes₁, children₁⟩ := secondLoopBody_joined h elem
      rw [← shapes₁] at h
      obtain ⟨s', rest, shapes, children⟩ := ih h
      rw [List.foldlM_cons, body]
      exact ⟨s', rest, shapes.trans shapes₁, children.trans children₁⟩

/-- Joined commands become a sequence of their shapes, and no command is started. -/
theorem build_joined (c : Command) (rest : List (Joint × Command)) (w : World) :
    ∃ items w', buildCommandSequence (joinedTokens c rest) w = some (items, w') ∧
      items.map Item.shape = joinedShapes c rest ∧ w'.children = w.children := by
  obtain ⟨items₁, w₁, first, shapes₁, children₁⟩ := firstLoop_joined c rest [] w
  have joins : PipesJoin (items₁.map Item.shape) := by
    rw [shapes₁]
    exact pipesJoin_joined c rest
  obtain ⟨⟨items, w'⟩, second, shapes, children⟩ :=
    foldlM_secondLoopBody (s := (items₁, w₁)) joins (List.range items₁.length)
  refine ⟨items, w', ?_, shapes.trans shapes₁, children.trans children₁⟩
  rw [buildCommandSequence, first]
  exact second

end LisonShell
