import Technosphere.Lines

/-!
# The backend's line reader

`recvMessages` collects lines from what `recv` returns, at most `CHUNK_SIZE`
bytes at a time. It looks for one newline in a chunk, and after a line it keeps
the rest of the chunk only when a comparison of an index with a length comes out
right. `recvMessages_eq_iff` says exactly for which chunks the lines are those
of the stream.
-/

namespace NiServer

open Lines

def newline : UInt8 := 10

def chunkSize : Nat := 16

/-- What `recv` returns before the end of the stream. -/
abbrev Chunk := { data : List UInt8 // 0 < data.length ∧ data.length ≤ chunkSize }

/-- `__recv_messages` for all chunks up to the end of the stream. -/
def recvMessages : List Chunk → List UInt8 → List (List UInt8)
  | [], _ => []
  | data :: chunks, message =>
    if newline ∈ data.val then
      let idx := data.val.idxOf newline
      let message := message ++ data.val.take idx
      message :: recvMessages chunks
        (if (idx : Int) ≠ message.length - 1 then data.val.drop (idx + 1) else [])
    else recvMessages chunks (message ++ data.val)

def stream (chunks : List Chunk) : List UInt8 := chunks.flatMap Subtype.val

@[simp] theorem stream_nil : stream [] = [] := rfl

@[simp] theorem stream_cons (data : Chunk) (chunks : List Chunk) :
    stream (data :: chunks) = data.val ++ stream chunks :=
  rfl

variable {data : Chunk} {chunks : List Chunk} {message line rest : List UInt8}

theorem recvMessages_of_notMem (h : newline ∉ data.val) :
    recvMessages (data :: chunks) message = recvMessages chunks (message ++ data.val) := by
  rw [recvMessages, if_neg h]

/-- The rest of a chunk is dropped when one byte was kept from earlier chunks. -/
theorem recvMessages_of_line (h : newline ∉ line) (split : data.val = line ++ newline :: rest) :
    recvMessages (data :: chunks) message =
      (message ++ line) :: recvMessages chunks (if message.length = 1 then [] else rest) := by
  have idx : data.val.idxOf newline = line.length := by
    rw [split, List.idxOf_append_of_notMem h, List.idxOf_cons_self, Nat.add_zero]
  have before : data.val.take line.length = line := by rw [split, List.take_left]
  have behind : data.val.drop (line.length + 1) = rest := by
    rw [split, ← List.drop_drop, List.drop_left]
    rfl
  have test : (line.length : Int) ≠ ((message ++ line).length : Int) - 1 ↔
      ¬ message.length = 1 := by
    rw [List.length_append]
    omega
  have found : newline ∈ data.val := by
    rw [split]
    exact List.mem_append_right _ List.mem_cons_self
  rw [recvMessages, if_pos found]
  simp only [idx, before, behind, test, ite_not]

/-- One line at most is taken from a chunk. -/
theorem length_recvMessages_le (chunks : List Chunk) (message : List UInt8) :
    (recvMessages chunks message).length ≤ (stream chunks).count newline := by
  induction chunks generalizing message with
  | nil => exact Nat.le_refl 0
  | cons data chunks ih =>
      rw [stream_cons, List.count_append]
      by_cases found : newline ∈ data.val
      · obtain ⟨line, rest, split, before⟩ := List.eq_append_cons_of_mem found
        have one := List.count_pos_iff.mpr found
        rw [recvMessages_of_line before split, List.length_cons]
        have tail := ih (if message.length = 1 then [] else rest)
        omega
      · rw [recvMessages_of_notMem found]
        exact Nat.le_add_left_of_le (ih _)

/-- The first line of the stream comes behind what was kept. -/
theorem head_recvMessages (found : newline ∈ stream chunks) (message : List UInt8) :
    ∃ line tail more, newline ∉ line ∧ stream chunks = line ++ newline :: tail ∧
      recvMessages chunks message = (message ++ line) :: more := by
  induction chunks generalizing message with
  | nil => simp at found
  | cons data chunks ih =>
      by_cases here : newline ∈ data.val
      · obtain ⟨line, rest, split, before⟩ := List.eq_append_cons_of_mem here
        refine ⟨line, rest ++ stream chunks, _, before, ?_, recvMessages_of_line before split⟩
        rw [stream_cons, split, List.append_assoc, List.cons_append]
      · have later : newline ∈ stream chunks := (List.mem_append.mp found).resolve_left here
        obtain ⟨line, tail, more, before, split, read⟩ := ih later (message ++ data.val)
        refine ⟨data.val ++ line, tail, more, ?_, ?_, ?_⟩
        · exact fun mem => (List.mem_append.mp mem).elim here before
        · rw [stream_cons, split, List.append_assoc]
        · rw [recvMessages_of_notMem here, read, List.append_assoc]

theorem recvMessages_of_notMem_stream (h : newline ∉ stream chunks) (message : List UInt8) :
    recvMessages chunks message = [] := by
  have none := length_recvMessages_le chunks message
  rw [List.count_eq_zero.mpr h] at none
  exact List.length_eq_zero_iff.mp (Nat.le_zero.mp none)

/-! ## When the lines are those of the stream -/

/-- Every chunk has one newline at most, and if text stands behind it in the
chunk and a later newline will end that text, then not just one byte has been
kept from the chunks before. -/
structure LinesKept (message : List UInt8) (chunks : List Chunk) : Prop where
  oneNewline : ∀ data ∈ chunks, data.val.count newline ≤ 1
  restKept : ∀ before data after line rest, chunks = before ++ data :: after →
    cut newline data.val = some (line, rest) → rest ≠ [] → newline ∈ stream after →
      (pending newline (message ++ stream before)).length ≠ 1

/-- Nothing is lost of a stream without a complete line. -/
theorem linesKept_of_notMem_stream (h : newline ∉ stream chunks) : LinesKept message chunks where
  oneNewline data mem := by
    rw [List.count_eq_zero.mpr fun found => h (List.mem_flatMap.mpr ⟨data, mem, found⟩)]
    exact Nat.zero_le 1
  restKept before data after _ _ split _ _ later := by
    refine absurd ?_ h
    rw [split, stream, List.flatMap_append]
    exact List.mem_append_right _ (List.mem_append_right _ later)

/-- The conditions on the first chunk and on the others. -/
theorem linesKept_cons : LinesKept message (data :: chunks) ↔
    data.val.count newline ≤ 1 ∧
      (∀ line rest, cut newline data.val = some (line, rest) → rest ≠ [] →
        newline ∈ stream chunks → (pending newline message).length ≠ 1) ∧
      LinesKept (message ++ data.val) chunks := by
  constructor
  · rintro ⟨oneNewline, restKept⟩
    refine ⟨oneNewline _ List.mem_cons_self, fun line rest first some later => ?_, ?_, ?_⟩
    · simpa using restKept [] data chunks line rest rfl first some later
    · exact fun other mem => oneNewline _ (List.mem_cons_of_mem _ mem)
    · intro before other after line rest split
      simpa using restKept (data :: before) other after line rest (by rw [split, List.cons_append])
  · rintro ⟨oneNewline, restKept, others, othersKept⟩
    refine ⟨List.forall_mem_cons.mpr ⟨oneNewline, others⟩, ?_⟩
    rintro (_ | ⟨first, before⟩) other after line rest split
    · obtain ⟨rfl, rfl⟩ := List.cons.inj split
      simpa using restKept line rest
    · obtain ⟨rfl, rfl⟩ := List.cons.inj split
      simpa using othersKept before other after line rest rfl

/-- Of the text before the chunks only what is pending matters. -/
theorem linesKept_congr {message' : List UInt8}
    (same : ∀ s, pending newline (message ++ s) = pending newline (message' ++ s)) :
    LinesKept message chunks ↔ LinesKept message' chunks := by
  constructor
  · rintro ⟨oneNewline, restKept⟩
    exact ⟨oneNewline, fun before => same (stream before) ▸ restKept before⟩
  · rintro ⟨oneNewline, restKept⟩
    exact ⟨oneNewline, fun before => same (stream before) ▸ restKept before⟩

theorem linesKept_cons_of_notMem (h : newline ∉ data.val) :
    LinesKept message (data :: chunks) ↔ LinesKept (message ++ data.val) chunks := by
  rw [linesKept_cons, List.count_eq_zero.mpr h]
  refine ⟨fun kept => kept.2.2, fun kept => ⟨Nat.zero_le 1, fun line rest found => ?_, kept⟩⟩
  rw [cut_of_notMem h] at found
  cases found

theorem linesKept_cons_of_line (h : newline ∉ message) (before : newline ∉ line)
    (split : data.val = line ++ newline :: rest) :
    LinesKept message (data :: chunks) ↔ newline ∉ rest ∧
      (rest ≠ [] → newline ∈ stream chunks → message.length ≠ 1) ∧ LinesKept rest chunks := by
  have once : data.val.count newline ≤ 1 ↔ newline ∉ rest := by
    rw [split, List.count_append, List.count_eq_zero.mpr before, List.count_cons_self,
      ← List.count_eq_zero]
    omega
  have first : cut newline data.val = some (line, rest) := by rw [split, cut_line before]
  have carried : LinesKept (message ++ data.val) chunks ↔ LinesKept rest chunks :=
    linesKept_congr fun s => by
      rw [split, ← List.append_assoc message, List.append_assoc, List.cons_append,
        pending_append_eol]
  rw [linesKept_cons, once, carried, pending_of_notMem h]
  refine and_congr_right' (and_congr_left' ⟨fun kept => kept line rest first, ?_⟩)
  intro kept line' rest' found
  cases first.symm.trans found
  exact kept

/-- A rest that is dropped is missing from the next line. -/
theorem recvMessages_nil_ne (some : rest ≠ []) (single : newline ∉ rest)
    (later : newline ∈ stream chunks) :
    recvMessages chunks [] ≠ lines newline (rest ++ stream chunks) := by
  obtain ⟨line, tail, more, before, split, read⟩ := head_recvMessages later []
  have whole : newline ∉ rest ++ line := fun mem => (List.mem_append.mp mem).elim single before
  rw [read, split, ← List.append_assoc, lines_line whole]
  intro same
  have heads : line = rest ++ line := (List.cons.inj same).1
  exact some (List.self_eq_append_left.mp heads)

/-- From a second newline in a chunk a line is missing. -/
theorem recvMessages_ne_of_mem (again : newline ∈ rest) (kept : List UInt8) :
    recvMessages chunks kept ≠ lines newline (rest ++ stream chunks) := by
  intro same
  have few := length_recvMessages_le chunks kept
  have more := List.count_pos_iff.mpr again
  rw [same, length_lines, List.count_append] at few
  omega

theorem recvMessages_eq_iff_of_notMem (chunks : List Chunk) (h : newline ∉ message) :
    recvMessages chunks message = lines newline (message ++ stream chunks) ↔
      LinesKept message chunks := by
  induction chunks generalizing message with
  | nil =>
      refine iff_of_true ?_ (linesKept_of_notMem_stream List.not_mem_nil)
      rw [stream_nil, List.append_nil, lines_of_notMem h, recvMessages]
  | cons data chunks ih =>
      by_cases found : newline ∈ data.val
      · obtain ⟨line, rest, split, before⟩ := List.eq_append_cons_of_mem found
        have whole : newline ∉ message ++ line := fun mem => (List.mem_append.mp mem).elim h before
        rw [recvMessages_of_line before split, linesKept_cons_of_line h before split, stream_cons,
          split, List.append_assoc, List.cons_append, ← List.append_assoc, lines_line whole,
          List.cons_inj_right]
        by_cases again : newline ∈ rest
        · exact iff_of_false (recvMessages_ne_of_mem again _) fun kept => kept.1 again
        by_cases dropped : rest ≠ [] ∧ message.length = 1
        · rw [if_pos dropped.2]
          by_cases later : newline ∈ stream chunks
          · exact iff_of_false (recvMessages_nil_ne dropped.1 again later)
              fun kept => kept.2.1 dropped.1 later dropped.2
          · refine iff_of_true ?_ ⟨again, fun _ found => absurd found later,
              linesKept_of_notMem_stream later⟩
            rw [recvMessages_of_notMem_stream later, lines_of_notMem]
            exact fun mem => (List.mem_append.mp mem).elim again later
        · have carry : (if message.length = 1 then [] else rest) = rest := by
            split
            · rename_i one
              exact (not_not.mp fun some => dropped ⟨some, one⟩).symm
            · rfl
          rw [carry, ih again]
          exact ⟨fun kept => ⟨again, fun some _ one => dropped ⟨some, one⟩, kept⟩,
            fun kept => kept.2.2⟩
      · have whole : newline ∉ message ++ data.val := fun mem =>
          (List.mem_append.mp mem).elim h found
        rw [recvMessages_of_notMem found, linesKept_cons_of_notMem found, stream_cons,
          ← List.append_assoc, ih whole]

/-- The reader yields exactly the complete lines of a stream that comes in these
chunks if and only if it never meets a second newline in a chunk, nor drops text
of a line that is completed later. -/
theorem recvMessages_eq_iff (chunks : List Chunk) :
    recvMessages chunks [] = lines newline (stream chunks) ↔ LinesKept [] chunks :=
  recvMessages_eq_iff_of_notMem chunks List.not_mem_nil

/-- Of the stream `a`, newline, `b`, newline, cut behind `a` and behind `b`, the
second line comes without its text. -/
theorem recvMessages_drops_text : ¬ ∀ chunks : List Chunk,
    recvMessages chunks [] = lines newline (stream chunks) := by
  intro all
  have lost := all [⟨[97], by decide⟩, ⟨[10, 98], by decide⟩, ⟨[10], by decide⟩]
  exact absurd lost (by decide)

end NiServer
