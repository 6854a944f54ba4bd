import Technosphere.LisonShell.CommandLine
import Technosphere.LisonShell.ShortCircuit

/-!
# What is opened for a line

Every descriptor that the shell opens for a line is written to a field of one of
its commands: by the constructor for a redirection, and by the second loop for
an end of a pipe. A `Ledger` lists these writes in order. `CommandLine.ledger`
computes it from the line; `build_ledger` says that it accounts for all new
descriptors of the shell and that each field holds the last entry for it.
-/

namespace LisonShell

open Bytes

/-! ## Ledgers -/

/-- A write to a descriptor field of the command with the given number. -/
structure Entry where
  command : Nat
  direction : Direction
  fd : Int
  /-- What was opened; nothing if `open` failed. -/
  stream : Option Stream
  deriving DecidableEq, Repr

/-- The descriptor that was opened. -/
def Entry.descriptor (e : Entry) : Option (Int × Stream) := e.stream.map (e.fd, ·)

theorem Entry.descriptor_eq {e : Entry} {s : Stream} (h : e.stream = some s) :
    e.descriptor = some (e.fd, s) := by
  rw [descriptor, h]
  rfl

abbrev Ledger := List Entry

namespace Ledger

/-- The last write to a field. -/
def last (E : Ledger) (k : Nat) (d : Direction) : Option Entry :=
  (E.filter fun e => decide (e.command = k ∧ e.direction = d)).getLast?

/-- The descriptors that were opened, the last one first. -/
def opened (E : Ledger) : List (Int × Stream) := (E.filterMap Entry.descriptor).reverse

theorem mem_opened {E : Ledger} {d : Int × Stream} :
    d ∈ E.opened ↔ ∃ e ∈ E, e.descriptor = some d := by
  rw [opened, List.mem_reverse, List.mem_filterMap]

section Last

variable {E F : Ledger} {k : Nat} {d : Direction} {e : Entry}

theorem last_append (E F : Ledger) (k : Nat) (d : Direction) :
    (E ++ F : Ledger).last k d = (F.last k d).or (E.last k d) := by
  rw [last, List.filter_append, List.getLast?_append, last, last]

theorem last_eq_none : E.last k d = none ↔ ∀ e ∈ E, ¬ (e.command = k ∧ e.direction = d) := by
  rw [last, List.getLast?_eq_none_iff, List.filter_eq_nil_iff]
  simp only [decide_eq_true_eq]

theorem last_cons (e : Entry) (E : Ledger) (k : Nat) (d : Direction) :
    last (e :: E) k d =
      (E.last k d).or (if e.command = k ∧ e.direction = d then some e else none) := by
  rw [← List.singleton_append, last_append]
  congr 1
  rw [last, List.filter_singleton]
  by_cases own : e.command = k ∧ e.direction = d <;> simp [own]

theorem of_last (h : E.last k d = some e) : e ∈ E ∧ e.command = k ∧ e.direction = d := by
  have member := List.mem_filter.mp (List.mem_of_getLast? h)
  exact ⟨member.1, decide_eq_true_iff.mp member.2⟩

/-- A write that no later one replaces. -/
theorem last_of_split (none : ∀ x ∈ F, ¬ (x.command = e.command ∧ x.direction = e.direction)) :
    (E ++ e :: F : Ledger).last e.command e.direction = some e := by
  rw [last_append, last_cons, last_eq_none.mpr none, if_pos ⟨rfl, rfl⟩, Option.none_or,
    Option.some_or]

end Last

end Ledger

/-! ## Redirections -/

/-- The redirections of commands, the first of which has the given number. -/
def numbered : (number : Nat) → List (List Token) → List (Nat × Direction × Token)
  | _, [] => []
  | k, c :: cs => (CommandItem.redirections c).map (fun r => (k, r.1, r.2)) ++ numbered (k + 1) cs

/-- The redirections of a line in the order in which they are opened. -/
def CommandLine.redirections (l : CommandLine) : List (Nat × Direction × Token) :=
  numbered 0 l.commands

/-- What `open` finds or creates. -/
def World.found (w : World) (d : Direction) (path : Token) : Option Stream :=
  (w.target d path).map fun file => .file file d.writing

/-- The shell after files were opened for redirections. -/
def openedWorld : List (Nat × Direction × Token) → World → World
  | [], w => w
  | (_, d, path) :: rest, w => openedWorld rest (w.opened d path).2

def openEntries : List (Nat × Direction × Token) → World → Ledger
  | [], _ => []
  | (k, d, path) :: rest, w =>
    ⟨k, d, (w.opened d path).1, w.found d path⟩ :: openEntries rest (w.opened d path).2

theorem openEntries_append (rs rs' : List (Nat × Direction × Token)) (w : World) :
    openEntries (rs ++ rs') w = openEntries rs w ++ openEntries rs' (openedWorld rs w) := by
  induction rs generalizing w with
  | nil => rfl
  | cons r rs ih => exact congrArg (_ :: ·) (ih _)

theorem openedWorld_append (rs rs' : List (Nat × Direction × Token)) (w : World) :
    openedWorld (rs ++ rs') w = openedWorld rs' (openedWorld rs w) := by
  induction rs generalizing w with
  | nil => rfl
  | cons r rs ih => exact ih _

/-! ## Pipes -/

/-- The ends of a new pipe behind the command with the given number. -/
def pipeEnds (k : Nat) (w : World) : Ledger :=
  [⟨k + 1, .input, w.pipe.1.1, some (.pipe w.pipes false)⟩,
    ⟨k, .output, w.pipe.1.2, some (.pipe w.pipes true)⟩]

/-- The pipes for operators, the first of which is behind the command with the
given number. -/
def pipeEntries : (number : Nat) → List OpType → World → Ledger
  | _, [], _ => []
  | k, op :: ops, w =>
    if op = .pipeline then pipeEnds k w ++ pipeEntries (k + 1) ops w.pipe.2
    else pipeEntries (k + 1) ops w

/-- All writes to the descriptor fields of the commands of a line. -/
def CommandLine.ledger (l : CommandLine) (w : World) : Ledger :=
  openEntries l.redirections w ++ pipeEntries 0 l.ops (openedWorld l.redirections w)

/-! ## Ledgers account for descriptors -/

/-- The ledger has all that was opened between two states of the shell. -/
structure Ledger.Accounts (E : Ledger) (w w' : World) : Prop where
  descriptors : w'.descriptors = E.opened ++ w.descriptors
  failed : ∀ e ∈ E, e.stream = none → e.fd = -1

namespace Ledger.Accounts

variable {E F : Ledger} {w w₁ w₂ : World}

theorem append (h : E.Accounts w w₁) (h' : F.Accounts w₁ w₂) : (E ++ F : Ledger).Accounts w w₂ where
  descriptors := by
    rw [h'.descriptors, h.descriptors, Ledger.opened, Ledger.opened, Ledger.opened,
      List.filterMap_append, List.reverse_append, List.append_assoc]
  failed e inside := (List.mem_append.mp inside).elim (h.failed e) (h'.failed e)

end Ledger.Accounts

theorem accounts_opened (w : World) (k : Nat) (d : Direction) (path : Token) :
    Ledger.Accounts [⟨k, d, (w.opened d path).1, w.found d path⟩] w (w.opened d path).2 := by
  cases found : w.target d path with
  | some file =>
      rw [World.found, found, Option.map_some]
      refine ⟨?_, fun e inside none => ?_⟩
      · rw [w.opened_of_target found]
        cases d <;> rfl
      · cases List.mem_singleton.mp inside
        cases none
  | none =>
      rw [World.found, found, Option.map_none, w.opened_of_missing found]
      refine ⟨rfl, fun e inside _ => ?_⟩
      cases List.mem_singleton.mp inside
      rfl

theorem accounts_openEntries (rs : List (Nat × Direction × Token)) (w : World) :
    (openEntries rs w).Accounts w (openedWorld rs w) := by
  induction rs generalizing w with
  | nil => exact ⟨rfl, List.forall_mem_nil _⟩
  | cons r rs ih =>
      obtain ⟨k, d, path⟩ := r
      exact (accounts_opened w k d path).append (ih (w.opened d path).2)

theorem accounts_pipeEntries (c : CommandItem) (rest : Joined) (k : Nat) (w : World) :
    (pipeEntries k (rest.map Prod.fst) w).Accounts w (wire c rest w).2 := by
  induction rest generalizing c k w with
  | nil => exact ⟨rfl, List.forall_mem_nil _⟩
  | cons r rest ih =>
      obtain ⟨op, next⟩ := r
      rw [List.map_cons, pipeEntries, wire]
      by_cases piped : op = .pipeline
      · rw [if_pos piped, if_pos piped]
        have ends : (pipeEnds k w).Accounts w w.pipe.2 := by
          refine ⟨rfl, fun e inside none => ?_⟩
          rcases List.mem_pair.mp inside with rfl | rfl <;> cases none
        exact ends.append (ih (next.redirectStdin w.pipe.1.1 w.pipe.1.2) (k + 1) w.pipe.2)
      · rw [if_neg piped, if_neg piped]
        exact ih next (k + 1) w

/-! ## Fields hold the last entry -/

/-- The descriptor fields of commands, the first of which has the given number,
hold what was written last. -/
def Ledger.Holds (E : Ledger) (k : Nat) (items : List CommandItem) : Prop :=
  ∀ i item, items[i]? = some item → ∀ d, item.fd d = (E.last (k + i) d).map Entry.fd

theorem openAll_eq (rs : List (Direction × Token)) (item : CommandItem) (w : World) (k : Nat) :
    (CommandItem.openAll rs item w).2 = openedWorld (rs.map fun r => (k, r.1, r.2)) w ∧
      (CommandItem.openAll rs item w).1.args = item.args ∧
      ∀ d, (CommandItem.openAll rs item w).1.fd d =
        (((openEntries (rs.map fun r => (k, r.1, r.2)) w).last k d).map Entry.fd).or
          (item.fd d) := by
  induction rs generalizing item w with
  | nil => exact ⟨rfl, rfl, fun d => rfl⟩
  | cons r rs ih =>
      obtain ⟨d', path⟩ := r
      obtain ⟨world, args, fds⟩ := ih (item.redirect (w.opened d' path).1 d') (w.opened d' path).2
      refine ⟨world, args.trans (item.redirect_args _ d'), fun d => (fds d).trans ?_⟩
      rw [List.map_cons, openEntries, Ledger.last_cons, Option.map_or, Option.or_assoc]
      congr 1
      by_cases same : d' = d
      · subst same
        rw [item.redirect_fd, if_pos ⟨rfl, rfl⟩]
        rfl
      · rw [CommandItem.redirect_fd_of_ne (Ne.symm same), if_neg fun own => same own.2]
        rfl

theorem of_openEntries {rs : List (Nat × Direction × Token)} {w : World} {e : Entry}
    (inside : e ∈ openEntries rs w) : ∃ path, (e.command, e.direction, path) ∈ rs := by
  induction rs generalizing w with
  | nil => cases inside
  | cons r rs ih =>
      rcases List.mem_cons.mp inside with rfl | later
      · exact ⟨r.2.2, List.mem_cons_self⟩
      · obtain ⟨path, there⟩ := ih later
        exact ⟨path, List.mem_cons_of_mem r there⟩

theorem le_of_numbered {k : Nat} {cs : List (List Token)} {r : Nat × Direction × Token}
    (inside : r ∈ numbered k cs) : k ≤ r.1 := by
  induction cs generalizing k with
  | nil => cases inside
  | cons c cs ih =>
      rcases List.mem_append.mp inside with here | later
      · obtain ⟨_, _, rfl⟩ := List.mem_map.mp here
        exact Nat.le_refl k
      · exact Nat.le_of_succ_le (ih later)

/-- Later commands do not write to the fields of this one. -/
theorem last_numbered_of_lt {i k : Nat} (earlier : i < k) (cs : List (List Token)) (w : World)
    (d : Direction) : (openEntries (numbered k cs) w).last i d = none := by
  rw [Ledger.last_eq_none]
  rintro e inside ⟨own, _⟩
  obtain ⟨path, there⟩ := of_openEntries inside
  have later : k ≤ e.command := le_of_numbered there
  omega

theorem last_command_of_ne {i k : Nat} (other : i ≠ k) (rs : List (Direction × Token)) (w : World)
    (d : Direction) : (openEntries (rs.map fun r => (k, r.1, r.2)) w).last i d = none := by
  rw [Ledger.last_eq_none]
  rintro e inside ⟨own, _⟩
  obtain ⟨path, there⟩ := of_openEntries inside
  obtain ⟨_, _, same⟩ := List.mem_map.mp there
  exact other (own.symm.trans (congrArg Prod.fst same).symm)

/-- What the constructors of commands write. -/
theorem construct_holds {cs : List (List Token)} {w w' : World} {items : List CommandItem}
    (made : construct cs w = some (items, w')) (k : Nat) :
    w' = openedWorld (numbered k cs) w ∧ (openEntries (numbered k cs) w).Holds k items ∧
      items.map CommandItem.args = cs.map CommandItem.words := by
  induction cs generalizing w items k with
  | nil =>
      cases made
      exact ⟨rfl, nofun, rfl⟩
  | cons c cs ih =>
      rw [construct] at made
      obtain ⟨⟨item, w₁⟩, new, made⟩ := Option.bind_eq_some_iff.mp made
      obtain ⟨⟨items', w₂⟩, rest, made⟩ := Option.bind_eq_some_iff.mp made
      cases made
      rw [CommandItem.new, CommandItem.scan_eq] at new
      split at new
      · obtain ⟨world, args, fds⟩ := openAll_eq (CommandItem.redirections c)
          ⟨[] ++ CommandItem.words c, -1, none, none, 0⟩ w k
        rw [Option.some.inj new] at world args fds
        obtain ⟨last, holds, words⟩ := ih rest (k + 1)
        rw [numbered, openedWorld_append, openEntries_append, ← show w₁ = _ from world]
        refine ⟨last, ?_, by rw [List.map_cons, List.map_cons, words, args]; rfl⟩
        intro i item' here d
        cases i with
        | zero =>
            obtain rfl : item = item' := Option.some.inj here
            have field := fds d
            show item.fd d = (Ledger.last _ k d).map Entry.fd
            rw [Ledger.last_append, last_numbered_of_lt (Nat.lt_succ_self k), Option.none_or]
            cases d <;> exact field.trans Option.or_none
        | succ i =>
            rw [Ledger.last_append, last_command_of_ne (by omega), Option.or_none, ← Nat.add_assoc,
              Nat.add_right_comm]
            exact holds i item' here d
      · cases new

theorem of_pipeEntries {k : Nat} {ops : List OpType} {w : World} {e : Entry}
    (inside : e ∈ pipeEntries k ops w) :
    k ≤ e.command ∧ (e.command = k → e.direction = .output) := by
  induction ops generalizing k w with
  | nil => cases inside
  | cons op ops ih =>
      rw [pipeEntries] at inside
      split at inside
      · rcases List.mem_append.mp inside with inside | inside
        · rcases List.mem_pair.mp inside with rfl | rfl
          · exact ⟨Nat.le_succ k, fun own => absurd own (Nat.succ_ne_self k)⟩
          · exact ⟨Nat.le_refl k, fun _ => rfl⟩
        · have later := (ih inside).1
          exact ⟨Nat.le_of_succ_le later, fun own => by omega⟩
      · have later := (ih inside).1
        exact ⟨Nat.le_of_succ_le later, fun own => by omega⟩

theorem last_pipeEntries_of_lt {i k : Nat} (earlier : i < k) (ops : List OpType) (w : World)
    (d : Direction) : (pipeEntries k ops w).last i d = none := by
  rw [Ledger.last_eq_none]
  rintro e inside ⟨own, _⟩
  have later := (of_pipeEntries inside).1
  omega

theorem last_pipeEnds (k : Nat) (w : World) (i : Nat) (d : Direction) :
    (pipeEnds k w).last i d =
      if i = k + 1 ∧ d = .input then some ⟨k + 1, .input, w.pipe.1.1, some (.pipe w.pipes false)⟩
      else if i = k ∧ d = .output then some ⟨k, .output, w.pipe.1.2, some (.pipe w.pipes true)⟩
      else none := by
  rw [pipeEnds, Ledger.last_cons, Ledger.last_cons]
  show (Option.or none _).or _ = _
  cases d <;> simp [eq_comm]

/-- The first command and the commands after it. -/
theorem holds_cons {E : Ledger} {k : Nat} {c : CommandItem} {items : List CommandItem} :
    E.Holds k (c :: items) ↔
      (∀ d, c.fd d = (E.last k d).map Entry.fd) ∧ E.Holds (k + 1) items := by
  constructor
  · intro holds
    refine ⟨holds 0 c rfl, fun i item here d => ?_⟩
    rw [Nat.add_assoc, Nat.add_comm 1]
    exact holds (i + 1) item here d
  · rintro ⟨first, others⟩ i item here d
    cases i with
    | zero =>
        cases here
        exact first d
    | succ i =>
        rw [Nat.add_comm i, ← Nat.add_assoc]
        exact others i item here d

/-- What the second loop writes. -/
theorem wire_holds {E : Ledger} {k : Nat} {c : CommandItem} {rest : Joined}
    (holds : E.Holds k (c :: rest.map Prod.snd)) (w : World) :
    (E ++ pipeEntries k (rest.map Prod.fst) w : Ledger).Holds k
        ((wire c rest w).1.1 :: (wire c rest w).1.2.map Prod.snd) ∧
      (wire c rest w).1.2.map Prod.fst = rest.map Prod.fst ∧
      ((wire c rest w).1.1 :: (wire c rest w).1.2.map Prod.snd).map CommandItem.args =
        (c :: rest.map Prod.snd).map CommandItem.args := by
  induction rest generalizing E c k w with
  | nil =>
      refine ⟨?_, rfl, rfl⟩
      rw [List.map_nil, pipeEntries, List.append_nil]
      exact holds
  | cons r rest ih =>
      obtain ⟨op, next⟩ := r
      obtain ⟨first, others⟩ := holds_cons.mp holds
      obtain ⟨second, later⟩ := holds_cons.mp others
      rw [List.map_cons, pipeEntries, wire]
      by_cases piped : op = .pipeline
      · rw [if_pos piped, if_pos piped]
        have following : (E ++ pipeEnds k w : Ledger).Holds (k + 1)
            (next.redirectStdin w.pipe.1.1 w.pipe.1.2 :: rest.map Prod.snd) := by
          rw [holds_cons]
          refine ⟨fun d => ?_, fun i item here d => ?_⟩
          · rw [Ledger.last_append, last_pipeEnds]
            cases d with
            | input =>
                rw [if_pos ⟨rfl, rfl⟩]
                rfl
            | output =>
                rw [if_neg (by simp), if_neg (by simp), Option.none_or]
                exact second .output
          · rw [Ledger.last_append, last_pipeEnds, if_neg (by omega), if_neg (by omega),
              Option.none_or]
            exact later i item here d
        obtain ⟨holds', ops, args⟩ := ih following w.pipe.2
        rw [List.append_assoc] at holds'
        refine ⟨holds_cons.mpr ⟨fun d => ?_, holds'⟩, congrArg (op :: ·) ops,
          congrArg (c.args :: ·) args⟩
        rw [Ledger.last_append, Ledger.last_append, last_pipeEntries_of_lt (Nat.lt_succ_self k),
          Option.none_or, last_pipeEnds]
        cases d with
        | input =>
            rw [if_neg (by simp), if_neg (by simp), Option.none_or]
            exact first .input
        | output =>
            rw [if_neg (by simp), if_pos ⟨rfl, rfl⟩]
            rfl
      · rw [if_neg piped, if_neg piped]
        obtain ⟨holds', ops, args⟩ := ih others w
        refine ⟨holds_cons.mpr ⟨fun d => ?_, holds'⟩, congrArg (op :: ·) ops,
          congrArg (c.args :: ·) args⟩
        rw [Ledger.last_append, last_pipeEntries_of_lt (Nat.lt_succ_self k), Option.none_or]
        exact first d

/-! ## Entries for redirections -/

/-- One of these redirections of the line opens the file for writing. -/
def Writes (w : World) (rs : List (Nat × Direction × Token)) (file : Token) : Prop :=
  ∃ k path, (k, .output, path) ∈ rs ∧ w.writable path = some file

/-- The file is opened for a redirection behind these others of the line, one of
which may have created it. -/
def Finds (w : World) (before : List (Nat × Direction × Token)) (d : Direction)
    (path file : Token) : Prop :=
  w.target d path = some file ∨
    (d = .input ∧ w.named path = some file ∧ w.volume.mayRead file = true ∧ Writes w before file)

/-- A file is opened for a redirection behind these others of the line. -/
def Opens (w : World) (before : List (Nat × Direction × Token)) (d : Direction) (path : Token) :
    Prop :=
  ∃ file, Finds w before d path file

theorem World.readable_eq_some_iff {w : World} {path file : Token} :
    w.readable path = some file ↔
      w.named path = some file ∧ file ∈ w.files ∧ w.volume.mayRead file = true := by
  rw [World.readable, Option.filter_eq_some_iff, Bool.and_eq_true, decide_eq_true_eq]

/-- What may be written does not change. -/
theorem World.Extends.writable {w w' : World} (h : w.Extends w') (path : Token) :
    w'.writable path = w.writable path := by
  rw [World.writable, World.writable, h.named, h.volume]

theorem mem_files_opened (w : World) (d : Direction) (path file : Token) :
    file ∈ (w.opened d path).2.files ↔
      file ∈ w.files ∨ (d = .output ∧ w.writable path = some file) := by
  cases found : w.target d path with
  | none =>
      rw [w.opened_of_missing found]
      refine ⟨Or.inl, fun h => h.elim id ?_⟩
      rintro ⟨rfl, writes⟩
      cases found.symm.trans writes
  | some other =>
      rw [w.opened_of_target found]
      cases d with
      | input => exact ⟨Or.inl, fun h => h.elim id fun output => nomatch output.1⟩
      | output =>
          have same : w.writable path = some file ↔ file = other := by
            rw [show w.writable path = some other from found, Option.some_inj, eq_comm]
          refine (w.mem_create other file).trans (or_congr Iff.rfl ?_)
          rw [same, and_iff_right rfl]

theorem mem_files_openedWorld (rs : List (Nat × Direction × Token)) (w : World) (file : Token) :
    file ∈ (openedWorld rs w).files ↔ file ∈ w.files ∨ Writes w rs file := by
  induction rs generalizing w with
  | nil => simp [openedWorld, Writes]
  | cons r rs ih =>
      obtain ⟨k, d, path⟩ := r
      have opens := (w.opened_leads d path).2
      have later : Writes (w.opened d path).2 rs file ↔ Writes w rs file := by
        simp only [Writes, opens.writable]
      rw [openedWorld, ih, mem_files_opened, later, or_assoc]
      refine or_congr Iff.rfl ?_
      constructor
      · rintro (⟨rfl, writes⟩ | ⟨k', path', inside, writes⟩)
        · exact ⟨k, path, List.mem_cons_self, writes⟩
        · exact ⟨k', path', List.mem_cons_of_mem _ inside, writes⟩
      · rintro ⟨k', path', inside, writes⟩
        obtain same | inside := List.mem_cons.mp inside
        · cases same
          exact Or.inl ⟨rfl, writes⟩
        · exact Or.inr ⟨k', path', inside, writes⟩

theorem openedWorld_extends (rs : List (Nat × Direction × Token)) (w : World) :
    w.Extends (openedWorld rs w) := by
  induction rs generalizing w with
  | nil => exact .refl w
  | cons r rs ih => exact (w.opened_leads r.2.1 r.2.2).2.trans (ih _)

/-- What `open` finds behind other redirections of the line. -/
theorem target_openedWorld_iff (before : List (Nat × Direction × Token)) (w : World)
    (d : Direction) (path file : Token) :
    (openedWorld before w).target d path = some file ↔ Finds w before d path file := by
  have opens := openedWorld_extends before w
  cases d with
  | output =>
      show (openedWorld before w).writable path = _ ↔ w.writable path = _ ∨ _
      rw [opens.writable]
      exact ⟨Or.inl, fun h => h.elim id fun input => nomatch input.1⟩
  | input =>
      show (openedWorld before w).readable path = _ ↔ w.readable path = _ ∨ _
      rw [World.readable_eq_some_iff, World.readable_eq_some_iff, opens.named, opens.volume,
        mem_files_openedWorld]
      constructor
      · rintro ⟨named, there | created, allowed⟩
        · exact Or.inl ⟨named, there, allowed⟩
        · exact Or.inr ⟨rfl, named, allowed, created⟩
      · rintro (⟨named, there, allowed⟩ | ⟨_, named, allowed, created⟩)
        · exact ⟨named, Or.inl there, allowed⟩
        · exact ⟨named, Or.inr created, allowed⟩

theorem World.found_of_target {w : World} {d : Direction} {path file : Token}
    (found : w.target d path = some file) : w.found d path = some (.file file d.writing) := by
  rw [World.found, found, Option.map_some]

theorem found_ne_none_iff (before : List (Nat × Direction × Token)) (w : World) (d : Direction)
    (path : Token) : (openedWorld before w).found d path ≠ none ↔ Opens w before d path := by
  rw [World.found, Ne, Option.map_eq_none_iff, ← Ne, Option.ne_none_iff_exists', Opens]
  exact exists_congr fun file => target_openedWorld_iff before w d path file

/-- The entry for a redirection. -/
def redirectionEntry (k : Nat) (d : Direction) (path : Token) (w : World) : Entry :=
  ⟨k, d, (w.opened d path).1, w.found d path⟩

theorem openEntries_split (before after : List (Nat × Direction × Token)) (k : Nat) (d : Direction)
    (path : Token) (w : World) :
    openEntries (before ++ (k, d, path) :: after) w =
      openEntries before w ++ redirectionEntry k d path (openedWorld before w) ::
        openEntries after ((openedWorld before w).opened d path).2 :=
  openEntries_append before _ w

theorem split_of_openEntries {rs : List (Nat × Direction × Token)} {w : World} {e : Entry}
    (inside : e ∈ openEntries rs w) :
    ∃ before k d path after, rs = before ++ (k, d, path) :: after ∧
      e = redirectionEntry k d path (openedWorld before w) := by
  induction rs generalizing w with
  | nil => cases inside
  | cons r rs ih =>
      obtain ⟨k, d, path⟩ := r
      rcases List.mem_cons.mp inside with rfl | later
      · exact ⟨[], k, d, path, rs, rfl, rfl⟩
      · obtain ⟨before, k', d', path', after, split, same⟩ := ih later
        exact ⟨(k, d, path) :: before, k', d', path', after, congrArg (_ :: ·) split, same⟩

/-- A field has an entry for each of its redirections. -/
theorem exists_openEntries_iff (rs : List (Nat × Direction × Token)) (w : World) (k : Nat)
    (d : Direction) :
    (∃ e ∈ openEntries rs w, e.command = k ∧ e.direction = d) ↔ ∃ path, (k, d, path) ∈ rs := by
  constructor
  · rintro ⟨e, inside, rfl, rfl⟩
    exact of_openEntries inside
  · rintro ⟨path, inside⟩
    obtain ⟨before, after, rfl⟩ := List.append_of_mem inside
    rw [openEntries_split]
    exact ⟨_, List.mem_append_right _ List.mem_cons_self, rfl, rfl⟩

/-! ## Entries for pipes -/

/-- The place of the `|` that a command is joined with on this side. -/
def pipeAt (ops : List OpType) (k : Nat) : Direction → Option Nat
  | .output => if ops[k]? = some .pipeline then some k else none
  | .input => if 0 < k ∧ ops[k - 1]? = some .pipeline then some (k - 1) else none

theorem pipeAt_eq_some_iff {ops : List OpType} {k j : Nat} {d : Direction} :
    pipeAt ops k d = some j ↔
      ops[j]? = some .pipeline ∧ (d = .output ∧ k = j ∨ d = .input ∧ k = j + 1) := by
  cases d with
  | output =>
      rw [pipeAt, Option.ite_none_right_eq_some, Option.some.injEq]
      constructor
      · rintro ⟨here, rfl⟩
        exact ⟨here, Or.inl ⟨rfl, rfl⟩⟩
      · rintro ⟨here, ⟨_, rfl⟩ | ⟨input, _⟩⟩
        · exact ⟨here, rfl⟩
        · cases input
  | input =>
      rw [pipeAt, Option.ite_none_right_eq_some, Option.some.injEq]
      constructor
      · rintro ⟨⟨low, here⟩, rfl⟩
        exact ⟨here, Or.inr ⟨rfl, by omega⟩⟩
      · rintro ⟨here, ⟨output, _⟩ | ⟨_, rfl⟩⟩
        · cases output
        · exact ⟨⟨Nat.succ_pos j, here⟩, rfl⟩

theorem pipeAt_zero (op : OpType) (ops : List OpType) (d : Direction) :
    pipeAt (op :: ops) 0 d = if d = .output ∧ op = .pipeline then some 0 else none := by
  cases d <;> simp [pipeAt]

theorem pipeAt_succ (op : OpType) (ops : List OpType) (i : Nat) (d : Direction) :
    pipeAt (op :: ops) (i + 1) d =
      ((pipeAt ops i d).map (· + 1)).or
        (if i = 0 ∧ d = .input ∧ op = .pipeline then some 0 else none) := by
  cases d with
  | output =>
      have other : ¬ (i = 0 ∧ Direction.output = .input ∧ op = .pipeline) := nofun
      rw [if_neg other, Option.or_none]
      simp only [pipeAt, List.getElem?_cons_succ]
      split <;> rfl
  | input =>
      cases i with
      | zero => simp [pipeAt]
      | succ i =>
          rw [if_neg (by simp), Option.or_none]
          simp only [pipeAt, Nat.succ_pos, true_and, Nat.add_sub_cancel, List.getElem?_cons_succ]
          split <;> rfl

/-- The last entry for a field among those for pipes leads to the pipe with the
number of its `|`. -/
theorem last_pipeEntries (k : Nat) (ops : List OpType) (w : World) (i : Nat) (d : Direction) :
    ((pipeEntries k ops w).last (k + i) d).map Entry.stream =
      (pipeAt ops i d).map fun j =>
        some (Stream.pipe (w.pipes + (ops.take j).count .pipeline) d.writing) := by
  induction ops generalizing k w i with
  | nil => cases d <;> simp [pipeAt, pipeEntries, Ledger.last]
  | cons op ops ih =>
      rw [pipeEntries]
      cases i with
      | zero =>
          rw [pipeAt_zero, Nat.add_zero k]
          by_cases piped : op = .pipeline
          · rw [if_pos piped, Ledger.last_append, last_pipeEntries_of_lt (Nat.lt_add_one k),
              Option.none_or, last_pipeEnds, if_neg (by omega)]
            cases d with
            | input => rw [if_neg (by simp), if_neg (by simp)]; rfl
            | output => rw [if_pos ⟨rfl, rfl⟩, if_pos ⟨rfl, piped⟩]; rfl
          · rw [if_neg piped, last_pipeEntries_of_lt (Nat.lt_add_one k),
              if_neg fun both => piped both.2]
            rfl
      | succ i =>
          have number : k + (i + 1) = k + 1 + i := by omega
          rw [pipeAt_succ, Option.map_or, number]
          by_cases piped : op = .pipeline
          · rw [if_pos piped, Ledger.last_append, Option.map_or, ih, Option.map_map]
            congr 1
            · congr 1
              funext j
              rw [Function.comp_apply, List.take_succ_cons, piped, List.count_cons_self]
              show some (Stream.pipe (w.pipes + 1 + _) _) = _
              rw [Nat.add_assoc, Nat.add_comm 1]
            · rw [last_pipeEnds, if_neg (show ¬ (k + 1 + i = k ∧ d = .output) by omega)]
              by_cases next : i = 0 ∧ d = .input
              · obtain ⟨rfl, rfl⟩ := next
                rw [if_pos ⟨rfl, rfl⟩, if_pos ⟨rfl, rfl, piped⟩]
                rfl
              · rw [if_neg fun both => next ⟨by omega, both.2⟩,
                  if_neg fun all => next ⟨all.1, all.2.1⟩]
                rfl
          · rw [if_neg piped, ih, Option.map_map, if_neg fun all => piped all.2.2, Option.map_none,
              Option.or_none]
            congr 1
            funext j
            rw [Function.comp_apply, List.take_succ_cons, List.count_cons_of_ne piped]

/-- No field has two entries for pipes. -/
theorem last_of_pipeEntries {k : Nat} {ops : List OpType} {w : World} {e : Entry}
    (inside : e ∈ pipeEntries k ops w) :
    (pipeEntries k ops w).last e.command e.direction = some e := by
  induction ops generalizing k w with
  | nil => cases inside
  | cons op ops ih =>
      rw [pipeEntries] at inside ⊢
      split at inside
      · rw [if_pos ‹_›, Ledger.last_append]
        rcases List.mem_append.mp inside with first | later
        · have none : (pipeEntries (k + 1) ops w.pipe.2).last e.command e.direction = none := by
            rw [Ledger.last_eq_none]
            rintro x inside' ⟨command, direction⟩
            obtain ⟨low, own⟩ := of_pipeEntries inside'
            rcases List.mem_pair.mp first with rfl | rfl
            · cases direction.symm.trans (own command)
            · rw [command] at low
              exact Nat.not_succ_le_self k low
          rw [none, Option.none_or, last_pipeEnds]
          rcases List.mem_pair.mp first with rfl | rfl
          · exact if_pos ⟨rfl, rfl⟩
          · exact (if_neg fun both => Nat.succ_ne_self k both.1.symm).trans (if_pos ⟨rfl, rfl⟩)
        · rw [ih later, Option.some_or]
      · rw [if_neg ‹_›]
        exact ih inside

theorem pipeAt_of_pipeEntries {ops : List OpType} {w : World} {e : Entry}
    (inside : e ∈ pipeEntries 0 ops w) :
    ∃ j, pipeAt ops e.command e.direction = some j ∧ e.stream =
      some (.pipe (w.pipes + (ops.take j).count .pipeline) e.direction.writing) := by
  have stream := last_pipeEntries 0 ops w e.command e.direction
  rw [Nat.zero_add, last_of_pipeEntries inside, Option.map_some, eq_comm,
    Option.map_eq_some_iff] at stream
  obtain ⟨j, place, same⟩ := stream
  exact ⟨j, place, same.symm⟩

theorem exists_pipeEntries {ops : List OpType} (w : World) {k j : Nat} {d : Direction}
    (place : pipeAt ops k d = some j) :
    ∃ e ∈ pipeEntries 0 ops w, e.command = k ∧ e.direction = d := by
  have stream := last_pipeEntries 0 ops w k d
  rw [Nat.zero_add, place, Option.map_some, Option.map_eq_some_iff] at stream
  obtain ⟨e, last, _⟩ := stream
  exact ⟨e, Ledger.of_last last⟩

/-! ## Whole lines -/

theorem files_of_wire (c : CommandItem) (rest : Joined) (w : World) :
    (wire c rest w).2.files = w.files := by
  induction rest generalizing c w with
  | nil => rfl
  | cons r rest ih =>
      obtain ⟨op, next⟩ := r
      rw [wire]
      split
      · exact ih (next.redirectStdin w.pipe.1.1 w.pipe.1.2) w.pipe.2
      · exact ih next w

theorem lt_of_numbered {k : Nat} {cs : List (List Token)} {r : Nat × Direction × Token}
    (inside : r ∈ numbered k cs) : r.1 < k + cs.length := by
  induction cs generalizing k with
  | nil => cases inside
  | cons c cs ih =>
      rw [List.length_cons]
      rcases List.mem_append.mp inside with here | later
      · obtain ⟨_, _, rfl⟩ := List.mem_map.mp here
        exact Nat.lt_add_of_pos_right (Nat.succ_pos _)
      · have low := ih later
        omega

namespace CommandLine

variable {l : CommandLine} {before after : List (Nat × Direction × Token)} {k : Nat}
variable {d : Direction} {path : Token}

theorem le_of_redirections (inside : (k, d, path) ∈ l.redirections) : k ≤ l.ops.length := by
  have low : k < 0 + l.commands.length := lt_of_numbered inside
  rw [commands, List.length_cons, List.length_map, ← List.length_map Prod.fst, Nat.zero_add] at low
  exact Nat.le_of_lt_succ low

theorem le_of_split (split : l.redirections = before ++ (k, d, path) :: after) :
    k ≤ l.ops.length := by
  have inside : (k, d, path) ∈ l.redirections := by
    rw [split]
    exact List.mem_append_right _ List.mem_cons_self
  exact le_of_redirections inside

/-- The writes to descriptor fields behind a redirection. -/
def laterEntries (l : CommandLine) (before after : List (Nat × Direction × Token))
    (d : Direction) (path : Token) (w : World) : Ledger :=
  openEntries after ((openedWorld before w).opened d path).2 ++
    pipeEntries 0 l.ops (openedWorld l.redirections w)

theorem ledger_split (split : l.redirections = before ++ (k, d, path) :: after) (w : World) :
    l.ledger w = openEntries before w ++
      redirectionEntry k d path (openedWorld before w) :: l.laterEntries before after d path w := by
  rw [ledger, laterEntries, ← List.cons_append, ← List.append_assoc, ← openEntries_split, ← split]

/-- The field of a redirection is written to again by another redirection of
the command in this direction or by a pipe. -/
theorem exists_laterEntries_iff (l : CommandLine)
    (before after : List (Nat × Direction × Token)) (k : Nat) (d : Direction) (path : Token)
    (w : World) :
    (∃ e ∈ l.laterEntries before after d path w, e.command = k ∧ e.direction = d) ↔
      (∃ path', (k, d, path') ∈ after) ∨ pipeAt l.ops k d ≠ none := by
  constructor
  · rintro ⟨e, inside, rfl, rfl⟩
    rcases List.mem_append.mp inside with opened | piped
    · exact Or.inl (of_openEntries opened)
    · obtain ⟨j, place, _⟩ := pipeAt_of_pipeEntries piped
      exact Or.inr (by rw [place]; exact Option.some_ne_none j)
  · rintro (again | piped)
    · obtain ⟨e, inside, own⟩ := (exists_openEntries_iff after _ k d).mpr again
      exact ⟨e, List.mem_append_left _ inside, own⟩
    · obtain ⟨j, place⟩ := Option.ne_none_iff_exists'.mp piped
      obtain ⟨e, inside, own⟩ := exists_pipeEntries (openedWorld l.redirections w) place
      exact ⟨e, List.mem_append_right _ inside, own⟩

end CommandLine

/-- What building the sequence of a line comes to: its commands, how they are
run, and what was opened for them. -/
structure Built (l : CommandLine) (w w' : World) (operands : List Item) (items : List CommandItem) :
    Prop where
  runs : ∀ ends w₁, runSequence ends operands w₁ =
    runAll (items.take (reached ends 0 l.ops + 1)) 0 w₁
  background : operands.getLast? = some (.op .runInBackground) ↔
    l.trailing = some .runInBackground
  commands : commandItems operands = items
  args : items.map CommandItem.args = l.commands.map CommandItem.words
  holds : (l.ledger w).Holds 0 items
  accounts : (l.ledger w).Accounts w w'
  more : w.Extends w'
  files : w'.files = (openedWorld l.redirections w).files

theorem getLast?_interleave (c : CommandItem) (rest : Joined) (trailing : Option OpType)
    (op : OpType) :
    (interleave c rest ++ trailing.toList.map Item.op).getLast? = some (.op op) ↔
      trailing = some op := by
  cases trailing with
  | some op' => simp
  | none =>
      refine iff_of_false ?_ nofun
      rw [Option.toList_none, List.map_nil, List.append_nil]
      induction rest generalizing c with
      | nil => simp [interleave, Joined.items]
      | cons r rest ih =>
          show (Item.cmd c :: Item.op r.1 :: interleave r.2 rest).getLast? ≠ _
          rw [List.getLast?_cons_cons]
          exact ih r.2

theorem exists_built {l : CommandLine} {w w' : World} {operands : List Item}
    (parsed : buildCommandSequence l.tokens w = some (operands, w')) :
    ∃ items, Built l w w' operands items := by
  have some : (buildCommandSequence l.tokens w).isSome := by rw [parsed]; rfl
  obtain ⟨complete, other⟩ := (build_isSome_iff l w).mp some
  obtain ⟨⟨items, w₁⟩, made⟩ :=
    Option.isSome_iff_exists.mp ((construct_isSome_iff l.commands w).mpr complete)
  obtain ⟨world, holds, words⟩ := construct_holds made 0
  have length := length_construct made
  cases items with
  | nil => exact absurd length (Nat.succ_ne_zero _).symm
  | cons item items =>
      have same : l.ops.length = items.length := by
        rw [CommandLine.commands, List.length_cons, List.length_cons, List.length_map] at length
        rw [CommandLine.ops, List.length_map]
        exact (Nat.succ.inj length).symm
      have fst : (l.ops.zip items).map Prod.fst = l.ops := List.map_fst_zip (Nat.le_of_eq same)
      have snd : (l.ops.zip items).map Prod.snd = items := List.map_snd_zip (Nat.le_of_eq same.symm)
      have fields : Ledger.Holds (openEntries (numbered 0 l.commands) w) 0
          (item :: (l.ops.zip items).map Prod.snd) := snd.symm ▸ holds
      have wired := wire_holds fields w₁
      have accounts := accounts_pipeEntries item (l.ops.zip items) 0 w₁
      rw [build_of_construct made other] at parsed
      cases parsed
      rw [fst, snd] at wired
      rw [fst] at accounts
      refine ⟨_, fun ends w₂ => ?_, getLast?_interleave _ _ _ _, commandItems_interleave _ _ _,
        wired.2.2.trans words, ?_, ?_, ?_, ?_⟩
      · rw [runSequence, runFrom_interleave, wired.2.1]
      · rw [CommandLine.ledger, CommandLine.redirections, ← world]
        exact wired.1
      · rw [CommandLine.ledger, CommandLine.redirections, ← world]
        refine Ledger.Accounts.append ?_ accounts
        rw [world]
        exact accounts_openEntries _ w
      · have opened := openedWorld_extends (numbered 0 l.commands) w
        rw [← world] at opened
        exact opened.trans (wire_shapes item (l.ops.zip items) w₁).1
      · rw [files_of_wire, CommandLine.redirections, ← world]

end LisonShell
