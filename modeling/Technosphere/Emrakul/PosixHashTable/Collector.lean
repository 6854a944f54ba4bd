import Technosphere.Emrakul.PosixHashTable.Locking
import Technosphere.SharedMemory.Ownership.Alone

/-!
# The collector among other processes

`collect_garbage` reads the clock, reads a death time and marks the cell in
separate accesses, and `set` writes a record byte by byte. What the collector
knows under the semaphore of the cell rules out that it marks a record before
its time: the death time that it compared is still the one in the memory.

No assumption is made about the contents of the table.
-/

namespace PosixHashTable

open SharedMemory Prog Emrakul Transition CInt

/-- The rest of `set` after it has read the clock in its critical section. -/
def setAfterClock (value : List UInt8) (ttl : Int) (cell : Nat) (now : Int) : Text Int := do
  memcpyTo (recordSize * cell + deathOffset) (intBytes (ttl + now))
  strcpyTo (recordSize * cell + valueOffset) value
  put (recordSize * cell + keySize) clFilled
  unlock (cell / hashtableSegmentSize)
  pure 0

theorem setCell_eq (key value : List UInt8) (ttl : Int) (cell : Nat) :
    setCell key value ttl cell = (do
      lock (cell / hashtableSegmentSize) (.set cell)
      strcpyTo (recordSize * cell) key
      let now ← clock
      setAfterClock value ttl cell now) := rfl

/-- Process `p` is in the critical section of a `set` that writes cell `c`, and
has just read `t` on the clock. -/
def WritesAt (s : State) (p c : Nat) (t : Nat) (key : Key) (value : Value) (ttl : Int) : Prop :=
  s.procs p = some (.call (.set key value ttl), do
    let err ← setAfterClock value.bytes ttl c t
    pure ⟨err, []⟩)

/-- The step does not let a call other than `collect_garbage` store into cell
`c`, except one of the allowed processes. -/
def NoOther (allowed : Nat → Prop) (c : Nat) (s : State) (a : Machine.Act Op) : Prop :=
  ∀ q op text addr, a = .run q → s.procs q = some (op, text) → text.stores = some addr →
    Segmented.InCell c addr → op = .call .collectGarbage ∨ allowed q

/-- Until the `set` of process `p` has returned. -/
def WhileSetting (p c : Nat) (s : State) (a : Machine.Act Op) : Prop :=
  NoOther (· = p) c s a ∧ a ≠ .finish p

/-- After it has returned. -/
def Untouched (c : Nat) : State → Machine.Act Op → Prop := NoOther (fun _ => False) c

/-! ## What the collector knows when it marks -/

variable {mem : Memory} {clock : Nat} {acts : List (Machine.Act Op)} {s s' : State} {p q c : Nat}

/-- The collector only stores into state bytes, and only of cells whose death
time is over. -/
theorem collector_store (ran : Run step Always (initial mem clock) acts s) {text : Text Reply}
    (collecting : s.procs q = some (.call .collectGarbage, text)) {a : Nat}
    (stores : text.stores = some a) :
    ∃ c < tableSize, a = recordSize * c + keySize ∧
      ∃ now ≤ s.clock, deathAt s.mem c < toInt32 now := by
  obtain ⟨whole, g, supported⟩ := supported_of_run (fun never : False => never.elim) ran
  have knows := supported.knows q
  have correct := knows.text collecting
  cases text with
  | store b byte next =>
      cases stores
      obtain ⟨_, _, _, _, _, ⟨c, i, m, hc, held, rfl, rfl, old⟩, _⟩ := correct
      have same : deathAt m c = deathAt s.mem c := by
        refine congrArg intOfBytes (Memory.readBytes_congr fun x low high => ?_)
        apply knows.mine held
        refine Segmented.guards_cell (cells_segments ▸ hc) rfl (by omega) ?_
        simp only [deathOffset, keySize, recordSize] at high ⊢
        omega
      exact ⟨c, hc, rfl, _, knows.now, same ▸ old⟩
  | _ => cases stores

/-! ## The death time of a cell -/

/-- An address of the death time of cell `c`. -/
def InDeath (c a : Nat) : Prop :=
  recordSize * c + deathOffset ≤ a ∧ a < recordSize * c + deathOffset + 4

theorem deathAt_congr {m m' : Memory} (same : ∀ a, InDeath c a → m' a = m a) :
    deathAt m' c = deathAt m c :=
  congrArg intOfBytes (Memory.readBytes_congr fun a low high => same a ⟨low, high⟩)

/-- A step of a process that is not allowed to leaves the death time of the cell. -/
theorem death_of_step (ran : Run step Always (initial mem clock) acts s) {allowed : Nat → Prop}
    {a : Machine.Act Op} (met : NoOther allowed c s a) (taken : step s a = some s')
    (barred : ∀ q, allowed q → ¬ a.of q) {x : Nat} (inside : InDeath c x) :
    s'.mem x = s.mem x := by
  rcases Machine.mem_of_step taken with same | ⟨q, op, addr, byte, next, rfl, running, stored⟩
  · rw [same]
  · have ne : x ≠ addr := by
      rintro rfl
      simp only [InDeath, deathOffset, recordSize, keySize] at inside
      have there : Segmented.InCell c x := by
        simp only [Segmented.InCell, recordSize]
        omega
      rcases met q op _ x rfl running rfl there with rfl | allows
      · obtain ⟨c', _, here, _⟩ := collector_store ran running rfl
        simp only [recordSize, keySize] at here
        omega
      · exact barred q allows rfl
    rw [stored, Function.update_of_ne ne]

/-! ## The end of `set` -/

/-- What is left of a critical section consists of stores, and the call is over
after it. -/
def Ends : Text Reply → Prop
  | .ret _ => True
  | .unlock _ next => next.result.isSome
  | .store _ _ next => Ends next
  | _ => False

/-- The bytes that these stores leave depend on the bytes at the same addresses. -/
theorem region_congr {text : Text Reply} (ends : Ends text) {X : Nat → Prop} {m m' : Memory}
    (same : ∀ a, X a → m' a = m a) {x : Nat} (inside : X x) :
    (text.region (fun _ => 0) m').1 x = (text.region (fun _ => 0) m).1 x := by
  induction text generalizing m m' with
  | ret _ => exact same x inside
  | unlock _ _ _ => exact same x inside
  | store a b next ih =>
      refine ih ends fun y hy => ?_
      by_cases e : y = a
      · rw [e, Function.update_self, Function.update_self]
      · rw [Function.update_of_ne e, Function.update_of_ne e]
        exact same y hy
  | _ => exact ends.elim

/-- Process `p` executes `op` and will leave the death time `death` in cell `c`. -/
def Leaves (op : Op) (p c : Nat) (death : Int) (s : State) : Prop :=
  ∃ text, s.procs p = some (op, text) ∧ Ends text ∧
    deathAt (text.region (fun _ => 0) s.mem).1 c = death

/-- One step of process `p` towards the end of its call. -/
theorem Leaves.advance {op : Op} {death : Int} (h : Leaves op p c death s)
    (taken : step s (.run p) = some s') : Leaves op p c death s' := by
  obtain ⟨text, running, ends, leaves⟩ := h
  simp only [step, Machine.step, running] at taken
  cases text with
  | ret r => cases taken
  | unlock i next =>
      cases taken
      cases next with
      | ret r => exact ⟨.ret r, by simp [Machine.goOn], trivial, leaves⟩
      | _ => cases ends
  | store a b next =>
      cases taken
      exact ⟨next, by simp [Machine.goOn], ends, leaves⟩
  | _ => exact ends.elim

/-- The steps up to the return of the call. -/
theorem Leaves.step (ran : Run step Always (initial mem clock) acts s) {op : Op} {death : Int}
    (h : Leaves op p c death s) {a : Machine.Act Op} (met : WhileSetting p c s a)
    (taken : step s a = some s') : Leaves op p c death s' := by
  by_cases own : a.of p
  · cases a with
    | start q op' =>
        obtain ⟨text, running, _⟩ := h
        obtain rfl : q = p := own
        simp [PosixHashTable.step, Machine.step, running] at taken
    | run q =>
        obtain rfl : q = p := own
        exact h.advance taken
    | finish q =>
        obtain rfl : q = p := own
        exact absurd rfl met.2
    | tick now => exact own.elim
  · obtain ⟨text, running, ends, leaves⟩ := h
    refine ⟨text, (Machine.procs_of_step own taken).trans running, ends, ?_⟩
    rw [← leaves]
    apply deathAt_congr
    intro x inside
    refine region_congr ends (fun y => death_of_step ran met.1 taken ?_) inside
    rintro q rfl
    exact own

theorem ends_memcpyTo {a : Nat} {bytes : List UInt8} {f : Unit → Text Reply} (h : Ends (f ())) :
    Ends (memcpyTo a bytes >>= f) := by
  induction bytes generalizing a with
  | nil => exact h
  | cons b bytes ih => exact ih

/-- A `set` that has read the clock will leave its death time. -/
theorem WritesAt.leaves {t : Nat} {key : Key} {value : Value} {ttl : Int}
    (h : WritesAt s p c t key value ttl) (least : 10 ≤ ttl) (fits : t + ttl < 2 ^ 31) :
    Leaves (.call (.set key value ttl)) p c (t + ttl) s := by
  refine ⟨_, h, ?_, ?_⟩
  · rw [setAfterClock, bind_assoc]
    apply ends_memcpyTo
    rw [bind_assoc]
    apply ends_memcpyTo
    show Ends (.store _ _ (.unlock _ (.ret _)))
    rfl
  · rw [setAfterClock, bind_assoc, region_plain _ _ (Plain.memcpyTo _ _) _ 0, exec_memcpyTo,
      bind_assoc, region_plain _ _ (Plain.strcpyTo _ _) _ 0, exec_strcpyTo, bind_assoc, region_put,
      bind_assoc, unlock, region_release, deathAt_writeValue, Int.add_comm ttl,
      toInt32_of_lt (by omega) fits]

/-! ## Records are spared -/

/-- The death time stays in the cell as long as nobody else writes it. -/
theorem deathAt_of_run {death : Int} (before : Run step Always (initial mem clock) acts s)
    (here : deathAt s.mem c = death) {more : List (Machine.Act Op)}
    (ran : Run step (Untouched c) s more s') :
    deathAt s'.mem c = death ∧ ∃ acts, Run step Always (initial mem clock) acts s' := by
  refine ran.invariant (fun _ s => deathAt s.mem c = death ∧
    ∃ acts, Run step Always (initial mem clock) acts s) ⟨here, acts, before⟩ ?_
  rintro _ s a s' ⟨stays, acts, reached⟩ met taken
  refine ⟨?_, acts ++ [a], .snoc reached trivial taken⟩
  rw [← stays]
  exact deathAt_congr fun x => death_of_step reached met taken (fun _ never => never.elim)

/-- If a `set` wrote cell `c` at clock `t` and returned 0, then as long as no
other `set` or `del` writes the cell, no step of `collect_garbage` at a clock
up to `t + ttl` changes the state of the cell. -/
theorem collector_spares {t : Nat} {key : Key} {value : Value} {ttl : Int} {s₁ s₂ : State}
    (before : Run step Always (initial mem clock) acts s) (least : 10 ≤ ttl)
    (fits : t + ttl < 2 ^ 31) (writes : WritesAt s p c t key value ttl)
    {setting after : List (Machine.Act Op)} (ran : Run step (WhileSetting p c) s setting s₁)
    (returns : s₁.procs p = some (.call (.set key value ttl), .ret ⟨0, []⟩))
    (later : Run step (Untouched c) s₁ after s₂) {text : Text Reply}
    (collecting : s₂.procs q = some (.call .collectGarbage, text))
    (early : (s₂.clock : Int) ≤ t + ttl) (taken : step s₂ (.run q) = some s') :
    s'.mem (recordSize * c + keySize) = s₂.mem (recordSize * c + keySize) := by
  have set : Leaves (.call (.set key value ttl)) p c (t + ttl) s₁ ∧
      ∃ acts, Run step Always (initial mem clock) acts s₁ := by
    refine ran.invariant (fun _ s => Leaves (.call (.set key value ttl)) p c (t + ttl) s ∧
      ∃ acts, Run step Always (initial mem clock) acts s)
      ⟨writes.leaves least fits, acts, before⟩ ?_
    rintro _ s a s' ⟨leaves, acts, reached⟩ met taken
    exact ⟨leaves.step reached met taken, acts ++ [a], .snoc reached trivial taken⟩
  obtain ⟨⟨text₁, running, _, left⟩, acts₁, reached₁⟩ := set
  cases running.symm.trans returns
  obtain ⟨stays, acts₂, reached₂⟩ := deathAt_of_run reached₁ left later
  rcases Machine.mem_of_step taken with same | ⟨r, op, addr, byte, next, act, stores, stored⟩
  · rw [same]
  · cases act
    cases collecting.symm.trans stores
    obtain ⟨c', _, rfl, now, past, old⟩ := collector_store reached₂ collecting rfl
    have other : recordSize * c + keySize ≠ recordSize * c' + keySize := by
      intro same
      obtain rfl : c' = c := by
        simp only [recordSize] at same
        omega
      -- a mark would need a reading after the death time
      rw [stays, toInt32_of_lt (by omega) (by omega)] at old
      omega
    rw [stored, Function.update_of_ne other]

/-! ## An undisturbed `set` -/

/-- Nothing is assumed about the table, and any values may be written. -/
abbrev anyProtocol : Protocol Nat := segments.protocol {v | v.length < valueSize} False

abbrev AnyReturns (mem : Memory) : Op → Reply → Ghost Nat → Prop :=
  Returns False (segments.whole {v | v.length < valueSize} mem)

/-- Only process `p` is in an operation. -/
abbrev Solitary (mem : Memory) (p : Nat) (s : State) : Prop :=
  anyProtocol.Undisturbed MayStore (AnyReturns mem) mem p s

theorem wp_any (mem : Memory) (op : Op) (now : Nat) :
    anyProtocol.wp (MayStore op) (textOf op) (.fresh mem now) (AnyReturns mem op) :=
  wp_textOf (fun _ short => short) (fun never => never.elim) op (fun _ value _ _ => value.fits) now

/-- A process starts an operation on a table that nobody uses. -/
theorem Solitary.start {r : Nat} (h : Solitary mem r s) (idle : s.procs p = none)
    (free : ∀ q, Machine.heldBy s.holds q = []) (op : Op) :
    Solitary mem p (s.goOn p op (textOf op)) := by
  obtain ⟨⟨whole, g, supported⟩, _⟩ := h
  exact ⟨⟨_, _, supported.start idle (wp_any mem op s.clock)⟩, fun q _ => free q⟩

theorem solitary_initial : Solitary mem p (initial mem clock) :=
  ⟨⟨_, _, Protocol.supported_initial clock⟩, fun _ _ => rfl⟩

/-- Steps of the process whose `set` is under way meet the condition. -/
theorem whileSetting_of_runs {n : Nat}
    (ran : Run step Always s (List.replicate n (.run p)) s') :
    Run step (WhileSetting p c) s (List.replicate n (.run p)) s' := by
  refine ran.mem_acts.mono fun t a member => ?_
  obtain rfl := List.eq_of_mem_replicate member
  refine ⟨?_, by simp⟩
  rintro q op text addr act - - -
  cases act
  exact Or.inr rfl

theorem runs_part {q : Text Int} {f : Int → Text Reply} (h : Solitary mem p s) {op : Op}
    (running : s.procs p = some (op, q >>= f)) :
    anyProtocol.Runs MayStore (AnyReturns mem) mem textOf p op q f s :=
  Protocol.runs Returns.free q f h running

/-- `set("d", "", 10)`. -/
def setD : Op := .call (.set keyD emptyValue 10)

theorem textOf_setD : textOf setD = chooseCell keyD.bytes >>= fun idx =>
    (if 0 ≤ idx then setCell keyD.bytes emptyValue.bytes 10 idx.toNat else pure (-1)) >>= fun err =>
      pure ⟨err, []⟩ := by
  show (set keyD.bytes emptyValue.bytes 10 >>= fun err => pure (⟨err, []⟩ : Reply)) = _
  rw [set, bind_assoc]

/-- On a zeroed table at clock 0, process 0 comes to the point where it has
read the clock, and to its return. -/
theorem setD_runs : ∃ acts s setting s₁, Run step Always (initial (fun _ => 0) 0) acts s ∧
    WritesAt s 0 115 0 keyD emptyValue 10 ∧ Run step (WhileSetting 0 115) s setting s₁ ∧
    s₁.procs 0 = some (setD, .ret ⟨0, []⟩) ∧ s₁.procs 1 = none ∧ s₁.clock = 0 ∧
    Solitary (fun _ => 0) 0 s₁ := by
  have zeroed : Zeroed fun _ => 0 := fun _ _ => rfl
  have start : hash tableSize keyD.bytes = 115 := by decide +kernel
  have begun : Solitary (fun _ => 0) 0 (initial (fun _ => 0) 0) := solitary_initial
  have h := begun.start (p := 0) rfl (fun _ => rfl) setD
  have running : ((initial (fun _ => 0) 0).goOn 0 setD (textOf setD)).procs 0 = some (setD, _) :=
    congrArg (fun text => some (setD, text)) textOf_setD
  have taken : step (initial (fun _ => 0) 0) (.start 0 setD) = some _ := rfl
  -- the cell is chosen
  obtain ⟨n₁, t₁, ran₁, advanced₁, h₁⟩ := runs_part h running
  have empty : ∀ s : State, s.mem = (fun _ => 0) → exec s.clock (chooseCell keyD.bytes) s.mem =
      (((115 : Nat) : Int), fun _ => 0) := by
    intro s same
    rw [same, exec_chooseCell, zeroed.place, start]
    rfl
  have at₁ : t₁.procs 0 = some (setD, setCell keyD.bytes emptyValue.bytes 10 115 >>= fun err =>
      pure ⟨err, []⟩) := by
    rw [advanced₁.procs, empty _ rfl]
    rfl
  -- the critical section up to the reading of the clock
  have split : setCell keyD.bytes emptyValue.bytes 10 115 = (do
      lock (115 / hashtableSegmentSize) (.set 115)
      strcpyTo (recordSize * 115) keyD.bytes
      clock) >>= setAfterClock emptyValue.bytes 10 115 := rfl
  rw [split, bind_assoc] at at₁
  obtain ⟨n₂, t₂, ran₂, advanced₂, h₂⟩ := runs_part h₁ at₁
  have at₂ := advanced₂.procs
  have clock₂ : t₂.clock = 0 := advanced₂.clock.trans advanced₁.clock
  have reading : (exec t₁.clock (do
      lock (115 / hashtableSegmentSize) (.set 115)
      strcpyTo (recordSize * 115) keyD.bytes
      clock : Text Int) t₁.mem).1 = (0 : Nat) := by
    rw [exec_lock, exec_bind_of _ (exec_strcpyTo _ _ _ _)]
    exact congrArg (fun n : Nat => (n : Int)) advanced₁.clock
  rw [reading] at at₂
  -- the rest of it, and the return
  obtain ⟨n₃, t₃, ran₃, advanced₃, h₃⟩ := runs_part h₂ at₂
  have at₃ := advanced₃.procs
  have code : ∀ m, (exec t₂.clock (setAfterClock emptyValue.bytes 10 115 (0 : Nat)) m).1 = 0 := by
    intro m
    rw [setAfterClock, exec_bind_of _ (exec_memcpyTo _ _ _ _),
      exec_bind_of _ (exec_strcpyTo _ _ _ _), exec_put, exec_unlock, exec_pure]
  rw [code] at at₃
  refine ⟨_, t₂, _, t₃, .cons trivial taken (ran₁.trans ran₂), at₂, whileSetting_of_runs ran₃, at₃,
    ?_, ?_, h₃⟩
  · have others := advanced₃.others 1 (by decide)
    rw [advanced₂.others 1 (by decide), advanced₁.others 1 (by decide)] at others
    rw [others]
    rfl
  · exact advanced₃.clock.trans clock₂

/-! ## The collector comes to a cell -/

/-- The visits of `collect_garbage` to cells of the segment that it holds. -/
def collectWithin : List Nat → (collected : Int) → Text Int
  | [], collected => pure collected
  | cur :: rest, collected => do
    let collected ← collectCell cur collected
    collectWithin rest collected

theorem collectCells_append {walk : List Nat} {block : Nat}
    (within : ∀ cur ∈ walk, cur / hashtableSegmentSize = block) (rest : List Nat)
    (collected : Int) :
    collectCells (walk ++ rest) block collected =
      collectWithin walk collected >>= collectCells rest block := by
  induction walk generalizing collected with
  | nil => rfl
  | cons cur walk ih =>
      obtain rfl := within cur List.mem_cons_self
      have later := ih fun c inside => within c (List.mem_cons_of_mem _ inside)
      rw [List.cons_append, collectCells, if_neg (by simp), collectWithin, bind_assoc]
      exact congrArg _ (funext later)

/-- The text of the collector, from the reading of the clock for cell 115 on. -/
def at115 (collected : Int) : Text Reply := do
  let now ← Prog.clock
  let collected ← collectAt 115 collected now
  let collected ← collectCells ((List.range tableSize).drop 116) 0 collected
  pure ⟨collected, []⟩

theorem textOf_collect : textOf (.call .collectGarbage) =
    (lock 0 (.collectGarbage 0) >>= fun _ => collectWithin (List.range 115) 0) >>= at115 := by
  have split : List.range tableSize =
      List.range 115 ++ 115 :: (List.range tableSize).drop 116 := by
    have inside : 115 < (List.range tableSize).length := by
      rw [List.length_range]
      decide
    calc List.range tableSize
        = (List.range tableSize).take 115 ++ (List.range tableSize).drop 115 :=
          (List.take_append_drop 115 _).symm
      _ = List.range 115 ++ 115 :: (List.range tableSize).drop 116 := by
          rw [List.take_range, List.drop_eq_getElem_cons inside, List.getElem_range,
            show min 115 tableSize = 115 by decide]
  have within : ∀ cur ∈ List.range 115, cur / hashtableSegmentSize = 0 := by
    intro cur inside
    have below := List.mem_range.mp inside
    exact Nat.div_eq_of_lt (below.trans (by decide))
  show (lock 0 (.collectGarbage 0) >>= fun _ => collectCells (List.range tableSize) 0 0) >>=
    (fun n => pure (⟨n, []⟩ : Reply)) = _
  rw [split, collectCells_append within]
  simp only [bind_assoc]
  refine congrArg _ (funext fun _ => congrArg _ (funext fun n => ?_))
  rw [collectCells, if_neg (by decide), collectCell]
  simp only [bind_assoc]
  rfl

/-- An instruction of the collector does not end its call. -/
theorem collecting_of_run {text : Text Reply}
    (collecting : s.procs q = some (.call .collectGarbage, text))
    (taken : step s (.run q) = some s') :
    ∃ text, s'.procs q = some (.call .collectGarbage, text) := by
  simp only [step, Machine.step, collecting] at taken
  cases text with
  | lock i pt next =>
      obtain ⟨_, moved⟩ := Option.ite_none_right_eq_some.mp taken
      cases moved
      exact ⟨next, s.goOn_procs_self q _ next⟩
  | ret r => cases taken
  | unlock i next | load a next | store a b next | time next =>
      cases taken
      exact ⟨_, s.goOn_procs_self q _ _⟩

/-- It may go on when nobody else is to touch the cell. -/
theorem untouched_of_collecting {n : Nat} (ran : Run step Always s (List.replicate n (.run q)) s')
    {text : Text Reply} (collecting : s.procs q = some (.call .collectGarbage, text)) :
    Run step (Untouched c) s (List.replicate n (.run q)) s' := by
  refine (ran.mem_acts.invariant (fun acts t =>
    (∃ text, t.procs q = some (.call .collectGarbage, text)) ∧ Run step (Untouched c) s acts t)
    ⟨⟨text, collecting⟩, .nil⟩ ?_).2
  rintro acts t a u ⟨⟨text, here⟩, untouched⟩ member taken
  obtain rfl := List.eq_of_mem_replicate member
  refine ⟨collecting_of_run here taken, .snoc untouched ?_ taken⟩
  rintro p op text' addr act running - -
  cases act
  cases here.symm.trans running
  exact Or.inl rfl

/-- A collector that nobody disturbs comes to the death time of cell 115. -/
theorem collector_comes (h : Solitary mem q s)
    (collecting : s.procs q = some (.call .collectGarbage, textOf (.call .collectGarbage))) :
    ∃ n s' text, Run step Always s (List.replicate n (.run q)) s' ∧
      s'.procs q = some (.call .collectGarbage, text) ∧
      text.loads = some (recordSize * 115 + deathOffset) ∧ s'.clock = s.clock := by
  have running := collecting
  rw [textOf_collect] at running
  obtain ⟨n₁, t₁, ran₁, advanced₁, h₁⟩ := runs_part h running
  obtain ⟨n₂, t₂, ran₂, advanced₂, _⟩ := runs_part h₁ advanced₁.procs
  refine ⟨n₁ + n₂, t₂, _, ?_, advanced₂.procs, rfl, advanced₂.clock.trans advanced₁.clock⟩
  rw [List.replicate_add]
  exact ran₁.trans ran₂

/-- Time goes on. -/
theorem Solitary.tick (h : Solitary mem p s) {now : Nat} (later : s.clock ≤ now) :
    Solitary mem p { s with clock := now } := by
  obtain ⟨⟨whole, g, supported⟩, others⟩ := h
  have taken : step s (.tick now) = some { s with clock := now } := if_pos later
  exact ⟨supported.step (fun _ _ e => by cases e) Returns.free taken, others⟩

/-- When the operation is over nobody holds a semaphore. -/
theorem Solitary.free (h : Solitary mem p s) {op : Op} {r : Reply}
    (returns : s.procs p = some (op, .ret r)) (q : Nat) : Machine.heldBy s.holds q = [] := by
  obtain ⟨⟨whole, g, supported⟩, others⟩ := h
  by_cases own : q = p
  · have finished : (g p).held = none := Returns.free op r _ ((supported.knows p).text returns)
    rw [own, (supported.knows p).held, finished]
    rfl
  · exact others q own

/-- After that `set` the collector starts in the last second of the record, and
comes to cell 115. -/
theorem collector_spares_setD : ∃ (s s' : State) (text : Text Reply), s.clock = 10 ∧
    s.procs 1 = some (.call .collectGarbage, text) ∧
    text.loads = some (recordSize * 115 + deathOffset) ∧ step s (.run 1) = some s' ∧
    s'.mem (recordSize * 115 + keySize) = s.mem (recordSize * 115 + keySize) := by
  obtain ⟨acts, s, setting, s₁, before, writes, ran, returns, idle, clock, h⟩ := setD_runs
  have later : s₁.clock ≤ 10 := by
    rw [clock]
    decide
  have ticked : step s₁ (.tick 10) = some { s₁ with clock := 10 } := if_pos later
  have started : step { s₁ with clock := 10 } (.start 1 (.call .collectGarbage)) = some
      (Machine.goOn { s₁ with clock := 10 } 1 (.call .collectGarbage)
        (textOf (.call .collectGarbage))) := by
    simp only [step, Machine.step, idle]
  have alone := (h.tick later).start (p := 1) idle (h.free returns) (.call .collectGarbage)
  obtain ⟨n, s₂, text, visits, running, loads, clock₂⟩ :=
    collector_comes alone (Machine.goOn_procs_self _ _ _ _)
  obtain ⟨s', taken⟩ : ∃ s', step s₂ (.run 1) = some s' := by
    simp only [step, Machine.step, running]
    cases text with
    | load a next => exact ⟨_, rfl⟩
    | _ => cases loads
  have untouched : Run step (Untouched 115) s₁
      ([.tick 10] ++ [.start 1 (.call .collectGarbage)] ++ List.replicate n (.run 1)) s₂ := by
    refine ((Run.single ?_ ticked).trans (.single ?_ started)).trans
      (untouched_of_collecting visits (Machine.goOn_procs_self _ _ _ _))
    · rintro _ _ _ _ ⟨⟩
    · rintro _ _ _ _ ⟨⟩
  have early : (s₂.clock : Int) ≤ (0 : Nat) + 10 := by
    rw [clock₂]
    exact Int.le_refl 10
  exact ⟨s₂, s', text, clock₂, running, loads, taken, collector_spares before (by decide)
    (by decide) writes ran returns untouched running early taken⟩

end PosixHashTable
