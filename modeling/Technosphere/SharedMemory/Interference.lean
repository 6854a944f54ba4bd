import Technosphere.SharedMemory.CString

/-!
# Programs among other processes

`Amid env reads p` are the runs of `p` in which, before every load and every
store, other processes change the memory as `env` allows, and in which the
clock gives any values with `reads`. A run alone is one of them.

A `Contract` says what holds at the end of all these runs. Its rules follow the
text, and only loads and stores need an assertion that `env` keeps.
-/

namespace SharedMemory

namespace Prog

variable {ι π α β : Type}

/-- `p` can run from memory `m` to its end with value `a` and memory `m'`. -/
inductive Amid (env : Memory → Memory → Prop) (reads : Int → Prop) :
    Prog ι π α → Memory → α → Memory → Prop where
  | ret (a : α) (m : Memory) : Amid env reads (ret a) m a m
  | lock {sem : ι} {point : π} {next : Prog ι π α} {m m' : Memory} {a : α}
      (rest : Amid env reads next m a m') : Amid env reads (lock sem point next) m a m'
  | unlock {sem : ι} {next : Prog ι π α} {m m' : Memory} {a : α}
      (rest : Amid env reads next m a m') : Amid env reads (unlock sem next) m a m'
  | load {addr : Nat} {next : UInt8 → Prog ι π α} {m m₁ m' : Memory} {a : α} (other : env m m₁)
      (rest : Amid env reads (next (m₁ addr)) m₁ a m') : Amid env reads (load addr next) m a m'
  | store {addr : Nat} {byte : UInt8} {next : Prog ι π α} {m m₁ m' : Memory} {a : α}
      (other : env m m₁) (rest : Amid env reads next (Function.update m₁ addr byte) a m') :
      Amid env reads (store addr byte next) m a m'
  | time {next : Int → Prog ι π α} {t : Int} {m m' : Memory} {a : α} (read : reads t)
      (rest : Amid env reads (next t) m a m') : Amid env reads (time next) m a m'

section Amid

variable {env : Memory → Memory → Prop} {reads : Int → Prop}

/-- A run of two programs in a row is a run of the first and one of the second. -/
theorem Amid.of_bind {p : Prog ι π α} {f : α → Prog ι π β} {m m' : Memory} {b : β}
    (h : Amid env reads (p >>= f) m b m') :
    ∃ a m₁, Amid env reads p m a m₁ ∧ Amid env reads (f a) m₁ b m' := by
  change Amid env reads (p.bind f) m b m' at h
  induction p generalizing m with
  | ret a => exact ⟨a, m, .ret a m, h⟩
  | lock _ _ _ ih =>
      cases h with
      | lock h =>
          obtain ⟨a, m₁, first, rest⟩ := ih h
          exact ⟨a, m₁, first.lock, rest⟩
  | unlock _ _ ih =>
      cases h with
      | unlock h =>
          obtain ⟨a, m₁, first, rest⟩ := ih h
          exact ⟨a, m₁, first.unlock, rest⟩
  | load _ _ ih =>
      cases h with
      | load other h =>
          obtain ⟨a, m₁, first, rest⟩ := ih _ h
          exact ⟨a, m₁, first.load other, rest⟩
  | store _ _ _ ih =>
      cases h with
      | store other h =>
          obtain ⟨a, m₁, first, rest⟩ := ih h
          exact ⟨a, m₁, first.store other, rest⟩
  | time _ ih =>
      cases h with
      | time read h =>
          obtain ⟨a, m₁, first, rest⟩ := ih _ h
          exact ⟨a, m₁, first.time read, rest⟩

/-- A run alone is a run among processes that do nothing. -/
theorem amid_exec (idle : ∀ m, env m m) {now : Int} (read : reads now) (p : Prog ι π α)
    (m : Memory) : Amid env reads p m (exec now p m).1 (exec now p m).2 := by
  induction p generalizing m with
  | ret a => exact .ret a m
  | lock _ _ _ ih => exact (ih m).lock
  | unlock _ _ ih => exact (ih m).unlock
  | load addr _ ih => exact (ih (m addr) m).load (idle m)
  | store addr byte _ ih => exact (ih (Function.update m addr byte)).store (idle m)
  | time _ ih => exact (ih now m).time read

end Amid

/-- From any memory with `P`, a run that ends leaves `Q` of the value and the memory. -/
def Contract (env : Memory → Memory → Prop) (reads : Int → Prop) (P : Memory → Prop)
    (p : Prog ι π α) (Q : α → Memory → Prop) : Prop :=
  ∀ m, P m → ∀ a m', Amid env reads p m a m' → Q a m'

/-- What other processes do does not falsify `P`. -/
def Stable (env : Memory → Memory → Prop) (P : Memory → Prop) : Prop :=
  ∀ m m', P m → env m m' → P m'

namespace Contract

variable {env : Memory → Memory → Prop} {reads : Int → Prop} {P P' : Memory → Prop}
variable {p q : Prog ι π α} {Q Q' : α → Memory → Prop}

theorem consequence (h : Contract env reads P p Q) (pre : ∀ m, P' m → P m)
    (post : ∀ a m, Q a m → Q' a m) : Contract env reads P' p Q' :=
  fun m hm a m' ran => post a m' (h m (pre m hm) a m' ran)

theorem pure {a : α} (h : ∀ m, P m → Q a m) :
    Contract env reads P (Pure.pure a : Prog ι π α) Q := by
  intro m hm b m' ran
  cases ran
  exact h m hm

theorem bind {f : α → Prog ι π β} {R : β → Memory → Prop} (first : Contract env reads P p Q)
    (rest : ∀ a, Contract env reads (Q a) (f a) R) : Contract env reads P (p >>= f) R := by
  intro m hm b m' ran
  obtain ⟨a, m₁, ran, ran'⟩ := ran.of_bind
  exact rest a m₁ (first m hm a m₁ ran) b m' ran'

theorem ite {c : Prop} [Decidable c] (yes : c → Contract env reads P p Q)
    (no : ¬ c → Contract env reads P q Q) : Contract env reads P (if c then p else q) Q := by
  split
  · exact yes ‹_›
  · exact no ‹_›

/-- Semaphores only order the accesses of the processes. -/
theorem acquire (sem : ι) (point : π) :
    Contract env reads P (Prog.acquire sem point) fun _ => P := by
  intro m hm _ _ ran
  cases ran with
  | lock ran =>
      cases ran
      exact hm

theorem release (sem : ι) :
    Contract env reads P (Prog.release sem : Prog ι π Unit) fun _ => P := by
  intro m hm _ _ ran
  cases ran with
  | unlock ran =>
      cases ran
      exact hm

theorem clock {f : Int → Prog ι π β} {R : β → Memory → Prop}
    (h : ∀ t, reads t → Contract env reads P (f t) R) :
    Contract env reads P (Prog.clock >>= f) R := by
  intro m hm b m' ran
  cases ran with
  | time read ran => exact h _ read m hm b m' ran

/-- Whatever is read, the assertion still holds afterwards. -/
theorem fetch (stable : Stable env P) (addr : Nat) :
    Contract env reads P (Prog.fetch addr : Prog ι π UInt8) fun _ => P := by
  intro m hm _ _ ran
  cases ran with
  | load other ran =>
      cases ran
      exact stable _ _ hm other

/-- A byte that the assertion determines is read as it is. -/
theorem fetch_known (stable : Stable env P) {addr : Nat} {byte : UInt8}
    (known : ∀ m, P m → m addr = byte) {f : UInt8 → Prog ι π β} {R : β → Memory → Prop}
    (h : Contract env reads P (f byte) R) : Contract env reads P (Prog.fetch addr >>= f) R := by
  intro m hm b m' ran
  cases ran with
  | @load _ _ _ m₁ _ _ other ran =>
      have hm₁ := stable m m₁ hm other
      rw [known m₁ hm₁] at ran
      exact h m₁ hm₁ b m' ran

theorem put (stable : Stable env P) (addr : Nat) (byte : UInt8) {R : Memory → Prop}
    (h : ∀ m, P m → R (Function.update m addr byte)) :
    Contract env reads P (Prog.put addr byte : Prog ι π Unit) fun _ => R := by
  intro m hm _ _ ran
  cases ran with
  | store other ran =>
      cases ran
      exact h _ (stable _ _ hm other)

theorem memcpyFrom (stable : Stable env P) (a n : Nat) :
    Contract env reads P (Prog.memcpyFrom a n : Prog ι π _) fun _ => P := by
  induction n generalizing a with
  | zero => exact pure fun _ hm => hm
  | succ n ih =>
      exact (fetch stable a).bind fun _ => (ih (a + 1)).bind fun _ => pure fun _ hm => hm

theorem memcpyFrom_known (stable : Stable env P) {a n : Nat} {bytes : List UInt8}
    (known : ∀ m, P m → m.readBytes a n = bytes) {f : List UInt8 → Prog ι π β}
    {R : β → Memory → Prop} (h : Contract env reads P (f bytes) R) :
    Contract env reads P (Prog.memcpyFrom a n >>= f) R := by
  induction n generalizing a bytes f with
  | zero =>
      intro m hm b m' ran
      obtain rfl : [] = bytes := known m hm
      exact h m hm b m' ran
  | succ n ih =>
      intro m hm
      rw [← known m hm] at h
      have head : ∀ m', P m' → m' a = m a := fun m' hm' =>
        List.head_eq_of_cons_eq ((known m' hm').trans (known m hm).symm)
      have tail : ∀ m', P m' → m'.readBytes (a + 1) n = m.readBytes (a + 1) n := fun m' hm' =>
        List.tail_eq_of_cons_eq ((known m' hm').trans (known m hm).symm)
      have whole : Contract env reads P (Prog.memcpyFrom a (n + 1) >>= f) R := by
        rw [Prog.memcpyFrom, bind_assoc]
        refine fetch_known stable head ?_
        rw [bind_assoc]
        exact ih tail h
      exact whole m hm

end Contract

end Prog

end SharedMemory
