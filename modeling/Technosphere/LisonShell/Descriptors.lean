import Technosphere.LisonShell.Ledger

/-!
# Descriptors while a line is run

Running a command closes the descriptors that its fields hold, so of all that a
`Ledger` accounts for, what is closed are the last entries for the fields of the
commands that are run.
-/

namespace LisonShell

open Bytes

/-- A shell that has not opened anything. -/
theorem valid_fresh (files : List Token) : (World.fresh files).Valid :=
  ⟨List.nodup_nil, fun _ held => (List.not_mem_nil held).elim,
    fun _ _ _ held => (List.not_mem_nil held).elim⟩

/-! ## What is closed -/

/-- The descriptors that are closed when commands are run. -/
def closedBy (cs : List CommandItem) : List Int :=
  cs.flatMap fun c => c.stdinFd.toList ++ c.stdoutFd.toList

theorem mem_closedBy {cs : List CommandItem} {fd : Int} :
    fd ∈ closedBy cs ↔ ∃ (i : Nat) (c : CommandItem) (d : Direction),
      cs[i]? = some c ∧ c.fd d = some fd := by
  rw [closedBy, List.mem_flatMap]
  constructor
  · rintro ⟨c, inside, held⟩
    obtain ⟨i, here⟩ := List.mem_iff_getElem?.mp inside
    rcases List.mem_append.mp held with held | held
    · exact ⟨i, c, .input, here, Option.mem_toList.mp held⟩
    · exact ⟨i, c, .output, here, Option.mem_toList.mp held⟩
  · rintro ⟨i, c, d, here, held⟩
    refine ⟨c, List.mem_of_getElem? here, List.mem_append.mpr ?_⟩
    cases d with
    | input => exact Or.inl (Option.mem_toList.mpr held)
    | output => exact Or.inr (Option.mem_toList.mpr held)

theorem closeFd_descriptors (w : World) (fd : Option Int) :
    (CommandItem.closeFd w fd).descriptors =
      w.descriptors.filter fun d => decide (d.1 ∉ fd.toList) := by
  cases fd with
  | none => exact (List.filter_eq_self.mpr fun _ _ => rfl).symm
  | some fd =>
      refine List.filter_congr fun d _ => ?_
      simp only [Option.toList_some, List.mem_singleton, ne_eq]

theorem ran_descriptors (item : CommandItem) (w : World) (number : Nat) :
    (item.ran w number).descriptors =
      w.descriptors.filter fun d => decide (d.1 ∉ item.stdinFd.toList ++ item.stdoutFd.toList) := by
  show (CommandItem.closeFd (CommandItem.closeFd _ item.stdinFd) item.stdoutFd).descriptors = _
  rw [closeFd_descriptors, closeFd_descriptors, List.filter_filter]
  refine List.filter_congr fun d _ => ?_
  simp only [List.mem_append, not_or, Bool.decide_and, Bool.and_comm]

theorem ran_files (item : CommandItem) (w : World) (number : Nat) :
    (item.ran w number).files = w.files := by
  cases hin : item.stdinFd <;> cases hout : item.stdoutFd <;>
    simp only [CommandItem.ran, CommandItem.run, CommandItem.closeFd, World.close, hin, hout]

theorem runAll_descriptors (cs : List CommandItem) (number : Nat) (w : World) :
    (runAll cs number w).descriptors =
      w.descriptors.filter fun d => decide (d.1 ∉ closedBy cs) := by
  induction cs generalizing number w with
  | nil => exact (List.filter_eq_self.mpr fun _ _ => rfl).symm
  | cons c cs ih =>
      rw [runAll, ih, ran_descriptors, List.filter_filter]
      refine List.filter_congr fun d _ => ?_
      rw [Bool.eq_iff_iff, Bool.and_eq_true, decide_eq_true_eq, decide_eq_true_eq,
        decide_eq_true_eq, and_comm, ← not_or]
      exact not_congr List.mem_append.symm

theorem runAll_files (cs : List CommandItem) (number : Nat) (w : World) :
    (runAll cs number w).files = w.files := by
  induction cs generalizing number w with
  | nil => rfl
  | cons c cs ih => rw [runAll, ih, ran_files]

theorem runAll_valid (cs : List CommandItem) (number : Nat) {w : World} (valid : w.Valid) :
    (runAll cs number w).Valid := by
  induction cs generalizing number w with
  | nil => exact valid
  | cons c cs ih =>
      refine ih (number + 1) (CommandItem.valid_closeFd (CommandItem.valid_closeFd ?_ _) _)
      exact ⟨valid.distinct, valid.numbers, valid.pipes⟩

/-- The children that are started. -/
theorem runAll_children (cs : List CommandItem) (number : Nat) (w : World) :
    ∃ started, (runAll cs number w).children = w.children ++ started ∧
      ∀ i : Nat, started[i]? = cs[i]?.map fun c : CommandItem =>
        (⟨number + i, c.args, (runAll (cs.take i) number w).standard c.stdinFd,
          (runAll (cs.take i) number w).standard c.stdoutFd⟩ : Child) := by
  induction cs generalizing number w with
  | nil => exact ⟨[], (List.append_nil _).symm, fun i => rfl⟩
  | cons c cs ih =>
      obtain ⟨started, children, each⟩ := ih (number + 1) (c.ran w number)
      refine ⟨⟨number, c.args, w.standard c.stdinFd, w.standard c.stdoutFd⟩ :: started, ?_, ?_⟩
      · rw [runAll, children, CommandItem.ran, c.run_children, List.append_assoc]
        rfl
      · intro i
        cases i with
        | zero => rfl
        | succ i =>
            rw [List.getElem?_cons_succ, each, Nat.add_assoc, Nat.add_comm 1]
            rfl

/-- The children that `run_sequence` starts. -/
def startedBy (ends : Nat → Termination) (operands : List Item) (w : World) : List Child :=
  (runSequence ends operands w).children.drop w.children.length

/-! ## Entries have different descriptors -/

namespace Ledger.Accounts

variable {E A B : Ledger} {e x : Entry} {w w' : World}

theorem mem_descriptors (h : E.Accounts w w') {d : Int × Stream} :
    d ∈ w'.descriptors ↔ (∃ e ∈ E, e.descriptor = some d) ∨ d ∈ w.descriptors := by
  rw [h.descriptors, List.mem_append, Ledger.mem_opened]

theorem descriptor_mem (h : E.Accounts w w') (inside : e ∈ E) {s : Stream}
    (opened : e.stream = some s) : (e.fd, s) ∈ w'.descriptors :=
  h.mem_descriptors.mpr (Or.inl ⟨e, inside, Entry.descriptor_eq opened⟩)

/-- An entry that was not opened has no descriptor of the shell. -/
theorem fd_of_failed (h : E.Accounts w w') (valid : w'.Valid) (inside : e ∈ E)
    (failed : e.stream = none) {d : Int × Stream} (held : d ∈ w'.descriptors) : e.fd ≠ d.1 := by
  have number := valid.numbers d held
  rw [h.failed e inside failed]
  omega

/-- What was opened has a number that was not in use before. -/
theorem fd_of_opened (h : E.Accounts w w') (valid : w'.Valid) (inside : e ∈ E)
    (opened : e.stream ≠ none) {d : Int × Stream} (held : d ∈ w.descriptors) : e.fd ≠ d.1 := by
  obtain ⟨s, stream⟩ := Option.ne_none_iff_exists'.mp opened
  have distinct := valid.distinct
  rw [h.descriptors, List.map_append, List.nodup_append] at distinct
  refine distinct.2.2 e.fd ?_ d.1 (List.mem_map_of_mem held)
  have new := Ledger.mem_opened.mpr ⟨e, inside, Entry.descriptor_eq stream⟩
  exact List.mem_map.mpr ⟨(e.fd, s), new, rfl⟩

/-- Two entries for what was opened have different numbers. -/
theorem pairwise (h : E.Accounts w w') (valid : w'.Valid) :
    E.Pairwise fun e x => e.stream ≠ none → x.fd ≠ e.fd := by
  have distinct := valid.distinct
  rw [h.descriptors, List.map_append, List.nodup_append, Ledger.opened, List.map_reverse,
    List.nodup_reverse, List.map_filterMap, List.Nodup, List.pairwise_filterMap] at distinct
  refine List.Pairwise.imp_of_mem ?_ distinct.1
  intro e x first second differ opened same
  obtain ⟨s, stream⟩ := Option.ne_none_iff_exists'.mp opened
  have held := h.descriptor_mem first stream
  cases stream' : x.stream with
  | none => exact h.fd_of_failed valid second stream' held same
  | some s' =>
      refine differ e.fd ?_ x.fd ?_ same.symm
      · rw [Entry.descriptor_eq stream]
        rfl
      · rw [Entry.descriptor_eq stream']
        rfl

/-- An entry for what was opened is the last one for its field exactly if no
later one is for this field. -/
theorem last_iff (h : (A ++ e :: B : Ledger).Accounts w w') (valid : w'.Valid)
    (opened : e.stream ≠ none) :
    (A ++ e :: B : Ledger).last e.command e.direction = some e ↔
      ∀ x ∈ B, ¬ (x.command = e.command ∧ x.direction = e.direction) := by
  refine ⟨fun last x inside same => ?_, Ledger.last_of_split⟩
  have differ := (List.pairwise_cons.mp (List.pairwise_append.mp (h.pairwise valid)).2.1).1
  rw [Ledger.last_append, Ledger.last_cons] at last
  cases later : Ledger.last B e.command e.direction with
  | none => exact Ledger.last_eq_none.mp later x inside same
  | some y =>
      rw [later] at last
      obtain rfl : y = e := Option.some.inj last
      exact differ y (Ledger.of_last later).1 opened rfl

theorem eq_of_fd (h : E.Accounts w w') (valid : w'.Valid) (inside : e ∈ E)
    (opened : e.stream ≠ none) (inside' : x ∈ E) (same : x.fd = e.fd) : x = e := by
  obtain ⟨A, B, rfl⟩ := List.append_of_mem inside
  obtain ⟨_, behind, before⟩ := List.pairwise_append.mp (h.pairwise valid)
  rcases List.mem_append.mp inside' with first | second
  · by_cases opened' : x.stream = none
    · obtain ⟨s, stream⟩ := Option.ne_none_iff_exists'.mp opened
      exact absurd same (h.fd_of_failed valid inside' opened' (h.descriptor_mem inside stream))
    · exact absurd same.symm (before x first e List.mem_cons_self opened')
  · rcases List.mem_cons.mp second with rfl | second
    · rfl
    · exact absurd same ((List.pairwise_cons.mp behind).1 x second opened)

end Ledger.Accounts

/-! ## Running the first commands of a line -/

namespace Built

variable {l : CommandLine} {w w' : World} {operands : List Item} {items : List CommandItem}
variable {n : Nat} {e : Entry}

theorem length_items (b : Built l w w' operands items) : items.length = l.ops.length + 1 := by
  have same := congrArg List.length b.args
  rwa [List.length_map, List.length_map, CommandLine.commands, List.length_cons, List.length_map,
    ← List.length_map Prod.fst] at same

theorem fd_eq (b : Built l w w' operands items) {k : Nat} {c : CommandItem}
    (here : items[k]? = some c) (d : Direction) :
    c.fd d = ((l.ledger w).last k d).map Entry.fd := by
  have held := b.holds k c here d
  rwa [Nat.zero_add] at held

/-- What the first commands close. -/
theorem mem_closedBy_take (b : Built l w w' operands items) (few : n ≤ items.length) {fd : Int} :
    fd ∈ closedBy (items.take n) ↔
      ∃ e, (l.ledger w).last e.command e.direction = some e ∧ e.command < n ∧ e.fd = fd := by
  rw [mem_closedBy]
  constructor
  · rintro ⟨i, c, d, here, held⟩
    rw [List.getElem?_take] at here
    split at here
    · rw [b.fd_eq here] at held
      obtain ⟨e, last, same⟩ := Option.map_eq_some_iff.mp held
      obtain ⟨_, rfl, rfl⟩ := Ledger.of_last last
      exact ⟨e, last, ‹_›, same⟩
    · cases here
  · rintro ⟨e, last, low, same⟩
    have here := List.getElem?_eq_getElem (Nat.lt_of_lt_of_le low few)
    refine ⟨e.command, _, e.direction, (List.getElem?_take_of_lt low).trans here, ?_⟩
    rw [b.fd_eq here, last, Option.map_some, same]

/-- An opened descriptor is closed by the command whose field holds it. -/
theorem closed_iff (b : Built l w w' operands items) (valid : w.Valid) (few : n ≤ items.length)
    (inside : e ∈ l.ledger w) (opened : e.stream ≠ none) :
    e.fd ∈ closedBy (items.take n) ↔
      e.command < n ∧ (l.ledger w).last e.command e.direction = some e := by
  rw [b.mem_closedBy_take few]
  constructor
  · rintro ⟨x, last, low, same⟩
    obtain rfl :=
      b.accounts.eq_of_fd (b.more.valid valid) inside opened (Ledger.of_last last).1 same
    exact ⟨low, last⟩
  · rintro ⟨low, last⟩
    exact ⟨e, last, low, rfl⟩

/-- No descriptor from before the line is closed. -/
theorem not_closed (b : Built l w w' operands items) (valid : w.Valid) (few : n ≤ items.length)
    {d : Int × Stream} (held : d ∈ w.descriptors) : d.1 ∉ closedBy (items.take n) := by
  have valid' := b.more.valid valid
  rw [b.mem_closedBy_take few]
  rintro ⟨e, last, _, same⟩
  have inside := (Ledger.of_last last).1
  by_cases opened : e.stream = none
  · exact b.accounts.fd_of_failed valid' inside opened
      (b.accounts.mem_descriptors.mpr (Or.inr held)) same
  · exact b.accounts.fd_of_opened valid' inside opened held same

/-- The shell holds again what it held before the line exactly if every opened
descriptor is the last one for its field and its command was run. -/
theorem descriptors_iff (b : Built l w w' operands items) (valid : w.Valid)
    (few : n ≤ items.length) (number : Nat) :
    (runAll (items.take n) number w').descriptors = w.descriptors ↔
      ∀ e ∈ l.ledger w, e.stream ≠ none →
        e.command < n ∧ (l.ledger w).last e.command e.direction = some e := by
  have kept : w.descriptors.filter (fun d => decide (d.1 ∉ closedBy (items.take n))) =
      w.descriptors :=
    List.filter_eq_self.mpr fun d held => decide_eq_true (b.not_closed valid few held)
  rw [runAll_descriptors, b.accounts.descriptors, List.filter_append, kept,
    List.append_left_eq_self, List.filter_eq_nil_iff]
  constructor
  · intro closed e inside opened
    obtain ⟨s, stream⟩ := Option.ne_none_iff_exists'.mp opened
    refine (b.closed_iff valid few inside opened).mp ?_
    have none := closed (e.fd, s) (Ledger.mem_opened.mpr ⟨e, inside, Entry.descriptor_eq stream⟩)
    rwa [decide_eq_true_eq, not_not] at none
  · intro closed d held
    obtain ⟨e, inside, descriptor⟩ := Ledger.mem_opened.mp held
    obtain ⟨s, stream, rfl⟩ := Option.map_eq_some_iff.mp descriptor
    have opened : e.stream ≠ none := by rw [stream]; exact Option.some_ne_none s
    rw [decide_eq_true_eq, not_not]
    exact (b.closed_iff valid few inside opened).mpr (closed e inside opened)

theorem startedBy_getElem? (b : Built l w w' operands items) (ends : Nat → Termination) (k : Nat) :
    (startedBy ends operands w')[k]? =
      if k < reached ends 0 l.ops + 1 then items[k]?.map fun c : CommandItem =>
        (⟨k, c.args, (runAll (items.take k) 0 w').standard c.stdinFd,
          (runAll (items.take k) 0 w').standard c.stdoutFd⟩ : Child)
      else none := by
  obtain ⟨started, children, each⟩ := runAll_children (items.take (reached ends 0 l.ops + 1)) 0 w'
  rw [startedBy, b.runs, children, List.drop_left, each, List.getElem?_take]
  by_cases low : k < reached ends 0 l.ops + 1
  · rw [if_pos low, if_pos low, List.take_take, Nat.min_eq_left (Nat.le_of_lt low), Nat.zero_add]
  · rw [if_neg low, if_neg low, Option.map_none]

end Built

end LisonShell
