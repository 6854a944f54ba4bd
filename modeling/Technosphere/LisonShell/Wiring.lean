import Technosphere.LisonShell.CmdInterperter

/-!
# Pipes in a command sequence

The second loop of `build_command_sequence` visits the items of a sequence by
index. On a sequence of commands with an operator between each two of them it
does what `wire` does along the list: at a `|` the command before it is given
the write end of a new pipe and the command after it the read end.
-/

namespace LisonShell

open Bytes

/-- Commands, each but the first with the operator in front of it. -/
abbrev Joined := List (OpType × CommandItem)

def Joined.items (rest : Joined) : List Item := rest.flatMap fun (op, c) => [.op op, .cmd c]

/-- A first command and those joined to it. -/
def interleave (first : CommandItem) (rest : Joined) : List Item := .cmd first :: rest.items

/-- The second loop on commands that are joined by operators. -/
def wire : CommandItem → Joined → World → (CommandItem × Joined) × World
  | c, [], w => ((c, []), w)
  | c, (op, d) :: rest, w =>
    if op = .pipeline then
      let piped := w.pipe
      let wired := wire (d.redirectStdin piped.1.1 piped.1.2) rest piped.2
      ((c.redirectStdout piped.1.2 piped.1.1, (op, wired.1.1) :: wired.1.2), wired.2)
    else
      let wired := wire d rest w
      ((c, (op, wired.1.1) :: wired.1.2), wired.2)

theorem secondLoopBody_cmd {items : List Item} {elem : Nat} {c : CommandItem}
    (h : items[elem]? = some (.cmd c)) (w : World) :
    secondLoopBody (items, w) elem = some (items, w) := by
  simp only [secondLoopBody, h]

theorem secondLoopBody_next (before after : List Item) (c : CommandItem) (w : World) :
    secondLoopBody (before ++ .cmd c :: after, w) before.length =
      some (before ++ .cmd c :: after, w) := by
  apply secondLoopBody_cmd (c := c)
  simp

theorem secondLoopBody_op {items : List Item} {elem : Nat} {op : OpType}
    (h : items[elem]? = some (.op op)) (other : op ≠ .pipeline) (w : World) :
    secondLoopBody (items, w) elem = some (items, w) := by
  rw [secondLoopBody, h]
  cases op with
  | pipeline => exact absurd rfl other
  | and | or | runInBackground | delimiter => rfl

/-- The body of the loop at a `|`. -/
theorem secondLoopBody_pipeline (before after : List Item) (c d : CommandItem) (w : World) :
    secondLoopBody (before ++ .cmd c :: .op .pipeline :: .cmd d :: after, w) (before.length + 1) =
      some (before ++ .cmd (c.redirectStdout w.pipe.1.2 w.pipe.1.1) :: .op .pipeline ::
        .cmd (d.redirectStdin w.pipe.1.1 w.pipe.1.2) :: after, w.pipe.2) := by
  have here : (before ++ .cmd c :: .op .pipeline :: .cmd d :: after)[before.length + 1]? =
      some (.op .pipeline) := by
    simp
  have prev : (before ++ .cmd c :: .op .pipeline :: .cmd d :: after)[before.length + 1 - 1]? =
      some (.cmd c) := by
    simp
  have next : (before ++ .cmd c :: .op .pipeline :: .cmd d :: after)[before.length + 1 + 1]? =
      some (.cmd d) := by
    rw [Nat.add_assoc, List.getElem?_append_right (Nat.le_add_right _ _)]
    simp
  simp only [secondLoopBody, here, if_neg (Nat.succ_ne_zero before.length), prev, next]
  rw [Nat.add_sub_cancel, Nat.add_assoc, List.set_append_right _ _ (Nat.le_add_right _ _),
    Nat.add_sub_cancel_left, List.set_append_right _ _ (Nat.le_refl _), Nat.sub_self]
  rfl

/-- Items that the second loop leaves alone. -/
def NoPipeline (items : List Item) : Prop := Item.op .pipeline ∉ items

theorem foldlM_noPipeline (before tail : List Item) (none : NoPipeline tail) (w : World) :
    (List.range' before.length tail.length).foldlM secondLoopBody (before ++ tail, w) =
      some (before ++ tail, w) := by
  induction tail generalizing before with
  | nil => rfl
  | cons item tail ih =>
      have here : (before ++ item :: tail)[before.length]? = some item := by simp
      have body : secondLoopBody (before ++ item :: tail, w) before.length =
          some (before ++ item :: tail, w) := by
        cases item with
        | cmd c => exact secondLoopBody_cmd here w
        | op op =>
            apply secondLoopBody_op here
            rintro rfl
            exact none List.mem_cons_self
      rw [List.length_cons, List.range'_succ, List.foldlM_cons, body]
      have rest := ih (before ++ [item]) fun inside => none (List.mem_cons_of_mem _ inside)
      rw [List.append_assoc, List.length_append, List.singleton_append] at rest
      exact rest

/-- The loop over commands that are joined by operators, whatever comes behind them. -/
theorem foldlM_wire (before tail : List Item) (c : CommandItem) (rest : Joined) (w : World) :
    (List.range' before.length (interleave c rest).length).foldlM secondLoopBody
        (before ++ (interleave c rest ++ tail), w) =
      some (before ++ (interleave (wire c rest w).1.1 (wire c rest w).1.2 ++ tail),
        (wire c rest w).2) := by
  induction rest generalizing before c w with
  | nil =>
      show (List.range' before.length 1).foldlM secondLoopBody (before ++ .cmd c :: tail, w) =
        some (before ++ .cmd c :: tail, w)
      rw [List.range'_succ, List.foldlM_cons, secondLoopBody_next]
      rfl
  | cons opd rest ih =>
      obtain ⟨op, d⟩ := opd
      have length : (interleave c ((op, d) :: rest)).length =
          (interleave d rest).length + 1 + 1 := by
        simp only [interleave, Joined.items, List.flatMap_cons, List.length_cons,
          List.length_append, List.length_nil]
        omega
      have items : before ++ (interleave c ((op, d) :: rest) ++ tail) =
          before ++ .cmd c :: .op op :: (interleave d rest ++ tail) := rfl
      rw [length, items, List.range'_succ, List.foldlM_cons, secondLoopBody_next]
      show (List.range' (before.length + 1) _).foldlM _ _ = _
      rw [List.range'_succ, List.foldlM_cons, wire]
      by_cases piped : op = .pipeline
      · subst piped
        have body := secondLoopBody_pipeline before (Joined.items rest ++ tail) c d w
        have rest := ih (before ++ [.cmd (c.redirectStdout w.pipe.1.2 w.pipe.1.1), .op .pipeline])
          (d.redirectStdin w.pipe.1.1 w.pipe.1.2) w.pipe.2
        rw [List.append_assoc, List.append_assoc, List.length_append] at rest
        rw [if_pos rfl]
        exact (congrArg (· >>= _) body).trans rest
      · rw [if_neg piped, secondLoopBody_op (by simp) piped]
        have rest := ih (before ++ [.cmd c, .op op]) d w
        rw [List.append_assoc, List.append_assoc, List.length_append] at rest
        exact rest

theorem length_interleave_wire (c : CommandItem) (rest : Joined) (w : World) :
    (interleave (wire c rest w).1.1 (wire c rest w).1.2).length = (interleave c rest).length := by
  induction rest generalizing c w with
  | nil => rfl
  | cons opd rest ih =>
      obtain ⟨op, d⟩ := opd
      rw [wire]
      split
      · exact congrArg (· + 2) (ih (d.redirectStdin w.pipe.1.1 w.pipe.1.2) w.pipe.2)
      · exact congrArg (· + 2) (ih d w)

/-- The second loop goes on behind the joined commands. -/
theorem secondLoop_interleave (c : CommandItem) (rest : Joined) (tail : List Item) (w : World) :
    secondLoop (interleave c rest ++ tail, w) =
      (List.range' (interleave c rest).length tail.length).foldlM secondLoopBody
        (interleave (wire c rest w).1.1 (wire c rest w).1.2 ++ tail, (wire c rest w).2) := by
  have joined := foldlM_wire [] tail c rest w
  rw [secondLoop, List.length_append, List.range_eq_range', ← List.range'_append_1,
    List.foldlM_append, Nat.zero_add]
  exact (congrArg (· >>= _) joined).trans rfl

/-- The second loop on commands that are joined by operators. -/
theorem secondLoop_wire (c : CommandItem) (rest : Joined) {tail : List Item}
    (none : NoPipeline tail) (w : World) :
    secondLoop (interleave c rest ++ tail, w) =
      some (interleave (wire c rest w).1.1 (wire c rest w).1.2 ++ tail, (wire c rest w).2) := by
  rw [secondLoop_interleave, ← length_interleave_wire c rest w]
  exact foldlM_noPipeline _ tail none _

/-- A `|` at the end has no command behind it. -/
theorem secondLoop_pipeline (c : CommandItem) (rest : Joined) (w : World) :
    secondLoop (interleave c rest ++ [.op .pipeline], w) = none := by
  rw [secondLoop_interleave, ← length_interleave_wire c rest w]
  generalize interleave (wire c rest w).1.1 (wire c rest w).1.2 = before
  have here : (before ++ [Item.op .pipeline])[before.length]? = some (.op .pipeline) := by simp
  have next : (before ++ [Item.op .pipeline])[before.length + 1]? = none := by simp
  show (List.range' before.length 1).foldlM secondLoopBody (before ++ [.op .pipeline], _) = none
  rw [List.range'_succ, List.foldlM_cons, secondLoopBody, here]
  simp only [next]
  split
  · rename_i impossible
    cases impossible
  · rfl

end LisonShell
