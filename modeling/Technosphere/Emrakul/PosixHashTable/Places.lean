import Technosphere.Emrakul.PosixHashTable.Sequential
import Technosphere.SharedMemory.Interleaving

/-!
# Where a call on the table of v2.0 can be paused

A call is paused in front of a cell while it looks for its key or for a free
cell, at the cell it has decided to act on, in front of a segment that the
collector has not visited yet, or at its result. `Next` says what one critical
section does from each of these places, and `places` is the proof that the text
of the calls does nothing else.
-/

namespace PosixHashTable

open SharedMemory Prog OpenAddressing Emrakul

/-- The configurations of any number of processes that share the table. -/
abbrev System := Config Call Nat Point Reply

inductive Site where
  /-- In `find_filled`, in front of `cur`. -/
  | filled (cur : Nat) (rest : List Nat)
  /-- In `find_free`, in front of `cur`. -/
  | free (cur : Nat) (rest : List Nat)
  /-- In front of the critical section that acts on `cell`. -/
  | body (cell : Nat)
  /-- In `collect_garbage`, in front of `cur`. -/
  | sweep (cur : Nat) (rest : List Nat) (collected : Int)
  | done (reply : Reply)

/-- The key that a call looks for. -/
def Call.key : Call → Option Key
  | .get key _ => some key
  | .set key _ _ => some key
  | .del key => some key
  | .collectGarbage => none

/-- The cells that are probed after the first one. -/
def orderTail (key : List UInt8) : List Nat :=
  List.range' (hash tableSize key + 1) (tableSize - hash tableSize key - 1) ++
    List.range (hash tableSize key)

theorem order_cons (key : List UInt8) : order key = hash tableSize key :: orderTail key :=
  probeOrder_cons (hash_lt tableSize_pos key)

theorem nodup_order (key : List UInt8) : (order key).Nodup := nodup_probeOrder _ _

/-! ## The text at a place -/

/-- The critical section that acts on a cell, and the rest of the call. -/
def actOn : Call → Nat → Text Reply
  | .get _ _, c => do
    let answer ← getCell c
    pure ⟨answer.1, answer.2⟩
  | .set key value ttl, c => do
    let err ← setCell key.bytes value.bytes ttl c
    pure ⟨err, []⟩
  | .del _, c => do
    let err ← delCell c
    pure ⟨err, []⟩
  | .collectGarbage, _ => pure ⟨0, []⟩

/-- What `set` does with the result of `find_free`. -/
def afterFree (key : Key) (value : Value) (ttl : Int) (cellIdx : Int) : Text Reply :=
  if 0 ≤ cellIdx then actOn (.set key value ttl) cellIdx.toNat else pure ⟨-1, []⟩

/-- What a call does with the result of `find_filled`. -/
def afterFilled : Call → Int → Text Reply
  | .get key value, cellIdx =>
    if 0 ≤ cellIdx then actOn (.get key value) cellIdx.toNat else pure ⟨-1, value⟩
  | .set key value ttl, cellIdx =>
    if cellIdx = -1 then findFree key.bytes >>= afterFree key value ttl
    else afterFree key value ttl cellIdx
  | .del key, cellIdx =>
    if 0 ≤ cellIdx then actOn (.del key) cellIdx.toNat else pure ⟨-1, []⟩
  | .collectGarbage, _ => pure ⟨0, []⟩

/-- `collect_garbage` from the segment of `cur` on. -/
def sweepFrom (cur : Nat) (rest : List Nat) (collected : Int) : Text Reply := do
  lock (cur / hashtableSegmentSize) (.collectGarbage cur)
  let collected ← collectCells (cur :: rest) (cur / hashtableSegmentSize) collected
  pure ⟨collected, []⟩

/-- The text of a call paused at a place. Combinations that do not occur are
given a text that does nothing. -/
def textAt (call : Call) : Site → Text Reply
  | .filled cur rest =>
    match call.key with
    | some key =>
      Scan.resume id hashtableSegmentSize .findFilled (cellFilled key.bytes) (cur :: rest) >>=
        afterFilled call
    | none => pure ⟨0, []⟩
  | .free cur rest =>
    match call with
    | .set key value ttl =>
      Scan.resume id hashtableSegmentSize .findFree cellFree (cur :: rest) >>=
        afterFree key value ttl
    | _ => pure ⟨0, []⟩
  | .body c => actOn call c
  | .sweep cur rest collected =>
    match call with
    | .collectGarbage => sweepFrom cur rest collected
    | _ => pure ⟨0, []⟩
  | .done reply => pure reply

def entry (call : Call) : Site :=
  match call.key with
  | some key => .filled (hash tableSize key.bytes) (orderTail key.bytes)
  | none => .sweep 0 (List.range' 1 (tableSize - 1)) 0

theorem findFilled_eq (key : List UInt8) :
    findFilled key = Scan.resume id hashtableSegmentSize .findFilled (cellFilled key)
      (hash tableSize key :: orderTail key) := by
  rw [← order_cons]
  exact Scan.find_eq_resume (hash_lt tableSize_pos key)

theorem findFree_eq (key : List UInt8) :
    findFree key = Scan.resume id hashtableSegmentSize .findFree cellFree
      (hash tableSize key :: orderTail key) := by
  rw [← order_cons]
  exact Scan.find_eq_resume (hash_lt tableSize_pos key)

theorem set_rest (key : Key) (value : Value) (ttl cellIdx : Int) :
    ((if 0 ≤ cellIdx then setCell key.bytes value.bytes ttl cellIdx.toNat else pure (-1)) >>=
      fun err => pure ⟨err, []⟩) = afterFree key value ttl cellIdx := by
  rw [afterFree]
  split <;> rfl

theorem textAt_entry (call : Call) : textAt call (entry call) = code call := by
  cases call with
  | get key value =>
      rw [code, get, findFilled_eq, bind_assoc]
      apply bind_congr
      intro cellIdx
      rw [afterFilled]
      split <;> rfl
  | set key value ttl =>
      rw [code, set, chooseCell, findFilled_eq, bind_assoc, bind_assoc]
      apply bind_congr
      intro cellIdx
      rw [afterFilled]
      split
      · exact bind_congr fun free => (set_rest key value ttl free).symm
      · rw [pure_bind, set_rest]
  | del key =>
      rw [code, del, findFilled_eq, bind_assoc]
      apply bind_congr
      intro cellIdx
      rw [afterFilled]
      split <;> rfl
  | collectGarbage =>
      have cells : List.range tableSize = 0 :: List.range' 1 (tableSize - 1) := by
        rw [List.range_eq_range']
        obtain ⟨n, hn⟩ : ∃ n, tableSize = n + 1 := ⟨tableSize - 1, rfl⟩
        rw [hn, List.range'_succ]
        rfl
      rw [code, collectGarbage, cells]
      rfl

/-! ## What one critical section does -/

/-- The bytes that `get` copies from cell `c`. -/
def stored (m : Memory) (c : Nat) : List UInt8 :=
  m.cstr (recordSize * c + valueOffset) (tableBytes - (recordSize * c + valueOffset))

section Sections

variable {α : Type} (clk : Nat → Int) (m : Memory) (c : Nat)

theorem enter_getCell (k : Int × List UInt8 → Text α) :
    enter clk (getCell c >>= k) m = some (m, k (0, stored m c)) := by
  simp only [getCell, lock, unlock, bind_assoc, pure_bind]
  rw [enter_acquire, region_plain clk m (Plain.strcpyFrom _ _) _ 0, exec_strcpyFrom,
    region_release, stored]

theorem enter_setCell (key value : List UInt8) (ttl : Int) (k : Int → Text α) :
    enter clk (setCell key value ttl c >>= k) m =
      some (writeRecord m c key value (ttl + clk 0), k 0) := by
  simp only [setCell, lock, unlock, bind_assoc, pure_bind]
  rw [enter_acquire, region_plain clk m (Plain.strcpyTo _ _) _ 0, exec_strcpyTo, region_clock,
    region_plain _ _ (Plain.memcpyTo _ _) _ 0, exec_memcpyTo,
    region_plain _ _ (Plain.strcpyTo _ _) _ 0, exec_strcpyTo, region_put, region_release,
    writeRecord]

theorem enter_delCell (k : Int → Text α) :
    enter clk (delCell c >>= k) m = some (buryCell m c, k 0) := by
  simp only [delCell, lock, unlock, bind_assoc, pure_bind]
  rw [enter_acquire, region_put, region_release, buryCell]

/-- The collector visits a cell at one clock reading. -/
theorem region_collectCell (cur : Nat) (collected : Int) (k : Int → Text α) :
    region clk (collectCell cur collected >>= k) m =
      if collects (clk 0) m cur then
        region (fun i => clk (i + 1)) (k (collected + 1)) (buryCell m cur)
      else
        region (fun i => clk (i + 1)) (k collected) m := by
  have alone : exec (clk 0) (collectCell cur collected) m = _ := exec_collectCell cur collected
  rw [collectCell, exec_clock] at alone
  rw [collectCell, bind_assoc, region_clock, region_plain _ _ (collectAt_plain _ _ _) _ (clk 0),
    alone]
  by_cases h : collects (clk 0) m cur
  · rw [if_pos h, if_pos h]
  · rw [if_neg h, if_neg h]

end Sections

/-- From `m` to `m'` some of the given cells were marked, each one expired. -/
def Swept (cells : List Nat) (m m' : Memory) : Prop :=
  ∀ c, view m' c = view m c ∨
    (c ∈ cells ∧ (∃ now, collects now m c) ∧ view m' c = (view m c).bury)

theorem Swept.refl (cells : List Nat) (m : Memory) : Swept cells m m := fun _ => Or.inl rfl

theorem Swept.cons {cur : Nat} {cells : List Nat} {m m' : Memory} (h : Swept cells m m') :
    Swept (cur :: cells) m m' := by
  intro c
  rcases h c with same | ⟨hc, due, buried⟩
  · exact Or.inl same
  · exact Or.inr ⟨List.mem_cons_of_mem _ hc, due, buried⟩

theorem Swept.bury {cur : Nat} {cells : List Nat} {m m' : Memory} {now : Int}
    (due : collects now m cur) (h : Swept cells (buryCell m cur) m') :
    Swept (cur :: cells) m m' := by
  intro c
  have first := congrFun (view_buryCell m cur) c
  by_cases e : c = cur
  · subst e
    rw [Function.update_self] at first
    refine Or.inr ⟨by simp, ⟨now, due⟩, ?_⟩
    rcases h c with same | ⟨_, ⟨later, again⟩, _⟩
    · rw [same, first]
    · exact absurd again (not_collects_buryCell later m c)
  · rw [Function.update_of_ne e] at first
    rcases h c with same | ⟨hc, ⟨later, due'⟩, buried⟩
    · exact Or.inl (same.trans first)
    · refine Or.inr ⟨List.mem_cons_of_mem _ hc, ⟨later, (collects_buryCell e).mp due'⟩, ?_⟩
      rw [buried, first]

/-- Where a call goes that has not found its key. -/
def missing : Call → Site
  | .get _ value => .done ⟨-1, value⟩
  | .set key _ _ => .free (hash tableSize key.bytes) (orderTail key.bytes)
  | .del _ => .done ⟨-1, []⟩
  | .collectGarbage => .done ⟨0, []⟩

/-- One critical section of a call: from which place and memory to which. -/
inductive Next : Call → Site → Memory → Memory → Site → Prop where
  | passed {call key m cur rest front cur' rest'} : call.key = some key →
      cur :: rest = front ++ cur' :: rest' → front ≠ [] →
      (∀ c ∈ front, ¬ (view m c).Holds key.bytes) →
      Next call (.filled cur rest) m m (.filled cur' rest')
  | found {call key m cur rest front c back} : call.key = some key →
      cur :: rest = front ++ c :: back → (∀ x ∈ front, ¬ (view m x).Holds key.bytes) →
      (view m c).Holds key.bytes →
      Next call (.filled cur rest) m m (.body c)
  | missed {call key m cur rest} : call.key = some key →
      (∀ c ∈ cur :: rest, ¬ (view m c).Holds key.bytes) →
      Next call (.filled cur rest) m m (missing call)
  | crowded {key value ttl m cur rest front cur' rest'} :
      cur :: rest = front ++ cur' :: rest' → front ≠ [] → (∀ c ∈ front, markAt m c ≠ .free) →
      Next (.set key value ttl) (.free cur rest) m m (.free cur' rest')
  | vacant {key value ttl m cur rest front c back} :
      cur :: rest = front ++ c :: back → (∀ x ∈ front, markAt m x ≠ .free) →
      markAt m c = .free →
      Next (.set key value ttl) (.free cur rest) m m (.body c)
  | full {key value ttl m cur rest} : (∀ c ∈ cur :: rest, markAt m c ≠ .free) →
      Next (.set key value ttl) (.free cur rest) m m (.done ⟨-1, []⟩)
  | copied {key value m c} :
      Next (.get key value) (.body c) m m (.done ⟨0, stored m c⟩)
  | written {key value ttl m c} (now : Int) :
      Next (.set key value ttl) (.body c) m
        (writeRecord m c key.bytes value.bytes (ttl + now)) (.done ⟨0, []⟩)
  | buried {key m c} : Next (.del key) (.body c) m (buryCell m c) (.done ⟨0, []⟩)
  | swept {m m' cur rest front cur' rest' n n'} :
      cur :: rest = front ++ cur' :: rest' → front ≠ [] → Swept front m m' →
      Next .collectGarbage (.sweep cur rest n) m m' (.sweep cur' rest' n')
  | finished {m m' cur rest n n'} : Swept (cur :: rest) m m' →
      Next .collectGarbage (.sweep cur rest n) m m' (.done ⟨n', []⟩)

/-! ## The text goes from place to place -/

theorem filledAt_eq_false {m : Memory} {key : List UInt8} {c : Nat} :
    filledAt m key c = false ↔ ¬ (view m c).Holds key := by
  rw [filledAt, decide_eq_false_iff_not, Slot.Holds, view_mark, view_key]

theorem filledAt_eq_true {m : Memory} {key : List UInt8} {c : Nat} :
    filledAt m key c = true ↔ (view m c).Holds key := by
  rw [filledAt, decide_eq_true_iff, Slot.Holds, view_mark, view_key]

theorem freeAt_eq_false {m : Memory} {c : Nat} : freeAt m c = false ↔ markAt m c ≠ .free := by
  rw [freeAt, decide_eq_false_iff_not]

theorem freeAt_eq_true {m : Memory} {c : Nat} : freeAt m c = true ↔ markAt m c = .free := by
  rw [freeAt, decide_eq_true_iff]

theorem afterFilled_found {call : Call} {key : Key} (h : call.key = some key) (c : Nat) :
    afterFilled call (c : Int) = actOn call c := by
  cases call with
  | get => rw [afterFilled, if_pos (Int.natCast_nonneg c), Int.toNat_natCast]
  | set =>
      rw [afterFilled, if_neg (by omega), afterFree, if_pos (Int.natCast_nonneg c),
        Int.toNat_natCast]
  | del => rw [afterFilled, if_pos (Int.natCast_nonneg c), Int.toNat_natCast]
  | collectGarbage => cases h

theorem afterFilled_missing {call : Call} {key : Key} (h : call.key = some key) :
    afterFilled call (-1) = textAt call (missing call) := by
  cases call with
  | get => rw [afterFilled, if_neg (by decide), missing, textAt]
  | set => rw [afterFilled, if_pos rfl, findFree_eq, missing, textAt]
  | del => rw [afterFilled, if_neg (by decide), missing, textAt]
  | collectGarbage => cases h

section Sound

variable (clk : Nat → Int) {call : Call} {m : Memory}

theorem enter_filled {key : Key} (h : call.key = some key) (cur : Nat) (rest : List Nat) :
    ∃ σ', Next call (.filled cur rest) m m σ' ∧
      enter clk (textAt call (.filled cur rest)) m = some (m, textAt call σ') := by
  have entered : enter clk (Scan.resume id hashtableSegmentSize .findFilled
      (cellFilled key.bytes) (cur :: rest) >>= afterFilled call) m = _ :=
    Scan.enter_resume (fun c => cellFilled_plain key.bytes c)
      (fun c => exec_cellFilled 0 m key c) clk (afterFilled call) cur rest
  have seen := Scan.seen_stop hashtableSegmentSize (filledAt m key.bytes) (cur :: rest)
    (cur / hashtableSegmentSize)
  have text : textAt call (.filled cur rest) =
      Scan.resume id hashtableSegmentSize .findFilled (cellFilled key.bytes) (cur :: rest) >>=
        afterFilled call := by
    simp only [textAt, h]
  rw [text, entered]
  cases hs : Scan.stop hashtableSegmentSize (filledAt m key.bytes) (cur :: rest)
      (cur / hashtableSegmentSize) with
  | found c =>
      rw [hs] at seen
      obtain ⟨front, back, split, misses, hit⟩ := seen
      refine ⟨.body c, .found h split (fun x hx => filledAt_eq_false.mp (misses x hx))
        (filledAt_eq_true.mp hit), ?_⟩
      rw [Scan.after, afterFilled_found h, textAt]
  | absent =>
      rw [hs] at seen
      refine ⟨missing call, .missed h fun c hc => filledAt_eq_false.mp (seen c hc), ?_⟩
      rw [Scan.after, afterFilled_missing h]
  | border cells =>
      have shorter := Scan.border_length hs
      rw [hs] at seen
      obtain ⟨front, split, nonempty, misses⟩ := seen
      obtain ⟨cur', rest', rfl⟩ := List.exists_cons_of_ne_nil nonempty
      refine ⟨.filled cur' rest', .passed h split ?_
        (fun c hc => filledAt_eq_false.mp (misses c hc)), ?_⟩
      · rintro rfl
        rw [List.nil_append] at split
        rw [← split] at shorter
        simp at shorter
      · rw [Scan.after]
        simp only [textAt, h]

theorem enter_free (key : Key) (value : Value) (ttl : Int) (cur : Nat) (rest : List Nat) :
    ∃ σ', Next (.set key value ttl) (.free cur rest) m m σ' ∧
      enter clk (textAt (.set key value ttl) (.free cur rest)) m =
        some (m, textAt (.set key value ttl) σ') := by
  have entered : enter clk (Scan.resume id hashtableSegmentSize .findFree cellFree
      (cur :: rest) >>= afterFree key value ttl) m = _ :=
    Scan.enter_resume (fun c => cellFree_plain c) (fun c => exec_cellFree 0 m c) clk
      (afterFree key value ttl) cur rest
  have seen := Scan.seen_stop hashtableSegmentSize (freeAt m) (cur :: rest)
    (cur / hashtableSegmentSize)
  rw [textAt, entered]
  cases hs : Scan.stop hashtableSegmentSize (freeAt m) (cur :: rest)
      (cur / hashtableSegmentSize) with
  | found c =>
      rw [hs] at seen
      obtain ⟨front, back, split, used, hit⟩ := seen
      refine ⟨.body c, .vacant split (fun x hx => freeAt_eq_false.mp (used x hx))
        (freeAt_eq_true.mp hit), ?_⟩
      rw [Scan.after, afterFree, if_pos (Int.natCast_nonneg c), Int.toNat_natCast, textAt]
  | absent =>
      rw [hs] at seen
      refine ⟨.done ⟨-1, []⟩, .full fun c hc => freeAt_eq_false.mp (seen c hc), ?_⟩
      rw [Scan.after, afterFree, if_neg (by decide), textAt]
  | border cells =>
      have shorter := Scan.border_length hs
      rw [hs] at seen
      obtain ⟨front, split, nonempty, used⟩ := seen
      obtain ⟨cur', rest', rfl⟩ := List.exists_cons_of_ne_nil nonempty
      refine ⟨.free cur' rest', .crowded split ?_ (fun c hc => freeAt_eq_false.mp (used c hc)), ?_⟩
      · rintro rfl
        rw [List.nil_append] at split
        rw [← split] at shorter
        simp at shorter
      · rw [Scan.after, textAt]

theorem enter_body {key : Key} (h : call.key = some key) (c : Nat) :
    ∃ m' σ', Next call (.body c) m m' σ' ∧
      enter clk (textAt call (.body c)) m = some (m', textAt call σ') := by
  cases call with
  | get key value =>
      refine ⟨m, .done ⟨0, stored m c⟩, .copied, ?_⟩
      rw [textAt, actOn, enter_getCell, textAt]
  | set key value ttl =>
      refine ⟨_, .done ⟨0, []⟩, .written (clk 0), ?_⟩
      rw [textAt, actOn, enter_setCell, textAt]
  | del key =>
      refine ⟨_, .done ⟨0, []⟩, .buried, ?_⟩
      rw [textAt, actOn, enter_delCell, textAt]
  | collectGarbage => cases h

theorem collectCells_border {cur block : Nat} (rest : List Nat) (n : Int)
    (hb : cur / hashtableSegmentSize ≠ block) :
    collectCells (cur :: rest) block n = (do
      unlock block
      lock (cur / hashtableSegmentSize) (.collectGarbage cur)
      collectCells (cur :: rest) (cur / hashtableSegmentSize) n) := by
  rw [collectCells, if_pos hb, collectCells, if_neg (by simp)]

theorem collectCells_visit (cur : Nat) (rest : List Nat) (n : Int) :
    collectCells (cur :: rest) (cur / hashtableSegmentSize) n = (do
      let n ← collectCell cur n
      collectCells rest (cur / hashtableSegmentSize) n) := by
  rw [collectCells, if_neg (by simp)]

/-- Where a critical section of the collector stops: at its result, or in front
of the first cell of another segment. -/
def SweepStop (cells : List Nat) (block : Nat) (m m' : Memory) (q : Text Reply) : Prop :=
  (∃ n, Swept cells m m' ∧ q = textAt .collectGarbage (.done ⟨n, []⟩)) ∨
  ∃ front cur rest n, cells = front ++ cur :: rest ∧
    (front = [] → cur / hashtableSegmentSize ≠ block) ∧
    Swept front m m' ∧ q = textAt .collectGarbage (.sweep cur rest n)

theorem SweepStop.cons {cur : Nat} {cells : List Nat} {m m' m'' : Memory} {q : Text Reply}
    (h : SweepStop cells (cur / hashtableSegmentSize) m' m'' q)
    (extend : ∀ visited, Swept visited m' m'' → Swept (cur :: visited) m m'') :
    SweepStop (cur :: cells) (cur / hashtableSegmentSize) m m'' q := by
  rcases h with ⟨n, swept, rfl⟩ | ⟨front, cur', rest, n, rfl, _, swept, rfl⟩
  · exact Or.inl ⟨n, extend _ swept, rfl⟩
  · exact Or.inr ⟨cur :: front, cur', rest, n, rfl, by simp, extend _ swept, rfl⟩

theorem region_collectCells (cells : List Nat) (block : Nat) (n : Int) :
    ∃ m' q, region clk (collectCells cells block n >>= fun n => pure ⟨n, []⟩) m = (m', q) ∧
      SweepStop cells block m m' q := by
  induction cells generalizing clk m block n with
  | nil =>
      refine ⟨m, pure ⟨n, []⟩, ?_, Or.inl ⟨n, Swept.refl _ _, rfl⟩⟩
      rw [collectCells, bind_assoc, unlock, region_release, pure_bind]
  | cons cur rest ih =>
      by_cases hb : cur / hashtableSegmentSize ≠ block
      · -- the section ends with the release, before the next acquisition
        refine ⟨m, sweepFrom cur rest n, ?_,
          Or.inr ⟨[], cur, rest, n, rfl, fun _ => hb, Swept.refl _ _, rfl⟩⟩
        rw [collectCells_border rest n hb, unlock, bind_assoc, region_release, sweepFrom,
          bind_assoc]
      · obtain rfl : cur / hashtableSegmentSize = block := by simpa using hb
        rw [collectCells_visit, bind_assoc, region_collectCell]
        by_cases due : collects (clk 0) m cur
        · obtain ⟨m', q, done, stops⟩ := ih (fun i => clk (i + 1)) (m := buryCell m cur)
            (cur / hashtableSegmentSize) (n + 1)
          rw [if_pos due, done]
          exact ⟨m', q, rfl, stops.cons fun _ swept => swept.bury due⟩
        · obtain ⟨m', q, done, stops⟩ := ih (fun i => clk (i + 1)) (m := m)
            (cur / hashtableSegmentSize) n
          rw [if_neg due, done]
          exact ⟨m', q, rfl, stops.cons fun _ swept => swept.cons⟩

theorem enter_sweep (cur : Nat) (rest : List Nat) (n : Int) :
    ∃ m' σ', Next .collectGarbage (.sweep cur rest n) m m' σ' ∧
      enter clk (textAt .collectGarbage (.sweep cur rest n)) m =
        some (m', textAt .collectGarbage σ') := by
  obtain ⟨m', q, done, stops⟩ := region_collectCells clk (m := m) (cur :: rest)
    (cur / hashtableSegmentSize) n
  have entered : enter clk (textAt .collectGarbage (.sweep cur rest n)) m = some (m', q) := by
    rw [textAt, sweepFrom, lock, enter_acquire, done]
  rcases stops with ⟨n', swept, rfl⟩ | ⟨front, cur', rest', n', split, left, swept, rfl⟩
  · exact ⟨m', _, .finished swept, entered⟩
  · refine ⟨m', _, .swept split ?_ swept, entered⟩
    rintro rfl
    cases split
    exact left rfl rfl

end Sound

/-- The text of a call at a place that can be entered. -/
theorem enter_textAt {clk : Nat → Int} {call : Call} {σ : Site} {m m' : Memory} {q : Text Reply}
    (h : enter clk (textAt call σ) m = some (m', q)) :
    ∃ σ', Next call σ m m' σ' ∧ q = textAt call σ' := by
  have conclude : ∀ {m₁ σ'}, Next call σ m m₁ σ' →
      enter clk (textAt call σ) m = some (m₁, textAt call σ') →
      ∃ σ', Next call σ m m' σ' ∧ q = textAt call σ' := by
    intro m₁ σ' next entered
    rw [h] at entered
    cases entered
    exact ⟨σ', next, rfl⟩
  cases σ with
  | filled cur rest =>
      cases hk : call.key with
      | none =>
          simp only [textAt, hk] at h
          cases h
      | some key =>
          obtain ⟨σ', next, entered⟩ := enter_filled clk (m := m) hk cur rest
          exact conclude next entered
  | free cur rest =>
      cases call with
      | set key value ttl =>
          obtain ⟨σ', next, entered⟩ := enter_free clk (m := m) key value ttl cur rest
          exact conclude next entered
      | get | del | collectGarbage => cases h
  | body c =>
      cases hk : call.key with
      | none =>
          cases call with
          | collectGarbage => cases h
          | get | set | del => cases hk
      | some key =>
          obtain ⟨m₁, σ', next, entered⟩ := enter_body clk (m := m) hk c
          exact conclude next entered
  | sweep cur rest n =>
      cases call with
      | collectGarbage =>
          obtain ⟨m₁, σ', next, entered⟩ := enter_sweep clk (m := m) cur rest n
          exact conclude next entered
      | get | set | del => cases h
  | done reply => cases h

/-- The places of the calls on the table. -/
def places : Outline code Site where
  textAt := textAt
  entry := entry
  next := Next
  text_entry := textAt_entry
  sound := enter_textAt

end PosixHashTable
