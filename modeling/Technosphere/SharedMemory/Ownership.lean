import Technosphere.SharedMemory.CString
import Technosphere.SharedMemory.Semaphores

/-!
# Reasoning about processes that own what their semaphores guard

A `Protocol` says which semaphore guards each byte of a table and how the bytes
of one semaphore may change while it is free: `Rely` is a preorder between the
contents a process saw last and those it finds at its next acquisition.
`wp` is the weakest precondition of a text under a protocol. It works on a
`Ghost`, what one process knows: the semaphore it holds with the bytes as it
has changed them, what it saw last of the others, and its last clock reading.

The rules after it compose such conditions. `wp_confined` is the one for text
inside a critical section, which has there the effect that it has alone.
-/

namespace SharedMemory

variable {C ι π ρ α β : Type}

/-- What a process knows. -/
structure Ghost (ι : Type) where
  held : Option (ι × Memory)
  seen : Nat → Memory
  now : Nat

/-- Semaphores with what they guard. Where `strict` fails, a load need not be
guarded, and then nothing is known about the byte it gives. -/
structure Protocol (ι : Type) extends Semaphores ι where
  guard : Nat → Nat
  size : Nat
  strict : Prop
  Rely : Nat → Memory → Memory → Prop
  rely_refl : ∀ k m, Rely k m m
  rely_trans : ∀ {k m₁ m₂ m₃}, Rely k m₁ m₂ → Rely k m₂ m₃ → Rely k m₁ m₃
  /-- Only the bytes of the semaphore matter. -/
  rely_congr : ∀ {k m m₁ m₂}, (∀ a, a < size → guard a = k → m₁ a = m₂ a) → Rely k m m₁ →
    Rely k m m₂
  weight_pos : ∀ i, 0 < weight i
  weight_le : ∀ i, weight i ≤ permits

namespace Ghost

/-- Before a call: nothing is held, and the table was last seen as `m`. -/
def fresh (m : Memory) (now : Nat) : Ghost ι := ⟨none, fun _ => m, now⟩

/-- After acquiring `i`, which is semaphore `k`, and finding `m`. -/
def acquire (g : Ghost ι) (i : ι) (k : Nat) (m : Memory) : Ghost ι :=
  ⟨some (i, m), Function.update g.seen k m, g.now⟩

/-- With other bytes under the semaphore that is held. -/
def write (g : Ghost ι) (i : ι) (m : Memory) : Ghost ι := { g with held := some (i, m) }

/-- After releasing semaphore `k` with the bytes `m` under it. -/
def release (g : Ghost ι) (k : Nat) (m : Memory) : Ghost ι :=
  ⟨none, Function.update g.seen k m, g.now⟩

def read (g : Ghost ι) (now : Nat) : Ghost ι := { g with now := now }

end Ghost

namespace Protocol

variable (P : Protocol ι)

/-- The byte is guarded by what `i` names. -/
def guards (i : ι) (a : Nat) : Prop := a < P.size ∧ P.guard a = P.index i

/-- The weakest precondition. `S` restricts the stores of the call further. -/
def wp (S : Ghost ι → Nat → Prop) : Prog ι π α → Ghost ι → (α → Ghost ι → Prop) → Prop
  | .ret a, g, Q => Q a g
  | .lock i _ next, g, Q =>
    g.held = none ∧ P.index i < P.count ∧
      ∀ m, P.Rely (P.index i) (g.seen (P.index i)) m → wp S next (g.acquire i (P.index i) m) Q
  | .unlock i next, g, Q =>
    ∃ m, g.held = some (i, m) ∧ P.Rely (P.index i) (g.seen (P.index i)) m ∧
      wp S next (g.release (P.index i) m) Q
  | .load a next, g, Q =>
    ∃ i m, g.held = some (i, m) ∧ (P.strict → P.guards i a) ∧
      ∀ b, (P.guards i a → b = m a) → wp S (next b) g Q
  | .store a b next, g, Q =>
    ∃ i m, g.held = some (i, m) ∧ P.guards i a ∧ P.weight i = P.permits ∧ S g a ∧
      wp S next (g.write i (Function.update m a b)) Q
  | .time next, g, Q => ∀ now, g.now ≤ now → wp S (next now) (g.read now) Q

/-! ## Rules -/

section Rules

variable {P} {S : Ghost ι → Nat → Prop} {g : Ghost ι}

theorem wp_mono {p : Prog ι π α} {Q Q' : α → Ghost ι → Prop} (h : P.wp S p g Q)
    (weaken : ∀ a g', Q a g' → Q' a g') : P.wp S p g Q' := by
  induction p generalizing g with
  | ret a => exact weaken a g h
  | lock i pt next ih =>
      obtain ⟨free, named, rest⟩ := h
      exact ⟨free, named, fun m hm => ih (rest m hm)⟩
  | unlock i next ih =>
      obtain ⟨m, held, rely, rest⟩ := h
      exact ⟨m, held, rely, ih rest⟩
  | load a next ih =>
      obtain ⟨i, m, held, guarded, rest⟩ := h
      exact ⟨i, m, held, guarded, fun b hb => ih b (rest b hb)⟩
  | store a b next ih =>
      obtain ⟨i, m, held, guarded, exclusive, allowed, rest⟩ := h
      exact ⟨i, m, held, guarded, exclusive, allowed, ih rest⟩
  | time next ih =>
      intro now later
      exact ih _ (h now later)

theorem wp_bind {p : Prog ι π α} {f : α → Prog ι π β} {Q : β → Ghost ι → Prop}
    (h : P.wp S p g fun a g' => P.wp S (f a) g' Q) : P.wp S (p >>= f) g Q := by
  show P.wp S (p.bind f) g Q
  induction p generalizing g with
  | ret a => exact h
  | lock i pt next ih =>
      obtain ⟨free, named, rest⟩ := h
      exact ⟨free, named, fun m hm => ih (rest m hm)⟩
  | unlock i next ih =>
      obtain ⟨m, held, rely, rest⟩ := h
      exact ⟨m, held, rely, ih rest⟩
  | load a next ih =>
      obtain ⟨i, m, held, guarded, rest⟩ := h
      exact ⟨i, m, held, guarded, fun b hb => ih b (rest b hb)⟩
  | store a b next ih =>
      obtain ⟨i, m, held, guarded, exclusive, allowed, rest⟩ := h
      exact ⟨i, m, held, guarded, exclusive, allowed, ih rest⟩
  | time next ih =>
      intro now later
      exact ih _ (h now later)

variable {Q : α → Ghost ι → Prop} {i : ι}

theorem wp_acquire {pt : π} {f : Unit → Prog ι π α} (free : g.held = none)
    (named : P.index i < P.count)
    (rest : ∀ m, P.Rely (P.index i) (g.seen (P.index i)) m →
      P.wp S (f ()) (g.acquire i (P.index i) m) Q) :
    P.wp S (Prog.acquire i pt >>= f) g Q :=
  ⟨free, named, rest⟩

/-- What was found at an acquisition is what was seen last. -/
theorem rely_acquire (k : Nat) (m : Memory) : P.Rely k ((g.acquire i k m).seen k) m := by
  show P.Rely k (Function.update g.seen k m k) m
  rw [Function.update_self]
  exact P.rely_refl k m

/-- A release of bytes that were `m₀` when the semaphore was acquired. -/
theorem wp_release {f : Unit → Prog ι π α} {m₀ m : Memory} (held : g.held = some (i, m))
    (entry : g.seen (P.index i) = m₀) (rely : P.Rely (P.index i) m₀ m)
    (rest : P.wp S (f ()) (g.release (P.index i) m) Q) :
    P.wp S (Prog.release i >>= f) g Q :=
  ⟨m, held, entry ▸ rely, rest⟩

theorem wp_clock {f : Int → Prog ι π α}
    (rest : ∀ now : Nat, g.now ≤ now → P.wp S (f now) (g.read now) Q) :
    P.wp S (Prog.clock >>= f) g Q :=
  rest

theorem wp_fetch {a : Nat} {f : UInt8 → Prog ι π α} {m : Memory} (held : g.held = some (i, m))
    (guarded : P.guards i a) (rest : P.wp S (f (m a)) g Q) :
    P.wp S (Prog.fetch a >>= f) g Q := by
  refine ⟨i, m, held, fun _ => guarded, fun b hb => ?_⟩
  rw [hb guarded]
  exact rest

theorem wp_put {a : Nat} {b : UInt8} {f : Unit → Prog ι π α} {m : Memory}
    (held : g.held = some (i, m)) (guarded : P.guards i a) (all : P.weight i = P.permits)
    (allowed : S g a) (rest : P.wp S (f ()) (g.write i (Function.update m a b)) Q) :
    P.wp S (Prog.put a b >>= f) g Q :=
  ⟨i, m, held, guarded, all, allowed, rest⟩

end Rules

/-! ## Text inside a critical section -/

/-- The text loads only from `R` and stores only to `W` when it starts with the
bytes `m`, and it neither waits, releases nor reads the clock. -/
def Confined (R W : Nat → Prop) : Prog ι π α → Memory → Prop
  | .ret _, _ => True
  | .load a next, m => R a ∧ Confined R W (next (m a)) m
  | .store a b next, m => W a ∧ Confined R W next (Function.update m a b)
  | _, _ => False

section Confined

variable {R W : Nat → Prop} {m : Memory}

theorem Confined.bind {p : Prog ι π α} {f : α → Prog ι π β} (hp : Confined R W p m)
    (hf : Confined R W (f (Prog.exec 0 p m).1) (Prog.exec 0 p m).2) :
    Confined R W (p >>= f) m := by
  show Confined R W (p.bind f) m
  induction p generalizing m with
  | ret a => exact hf
  | lock _ _ _ => exact hp.elim
  | unlock _ _ => exact hp.elim
  | load a next ih => exact ⟨hp.1, ih (m a) hp.2 hf⟩
  | store a b next ih => exact ⟨hp.1, ih hp.2 hf⟩
  | time _ => exact hp.elim

theorem Confined.fetch {a : Nat} {f : UInt8 → Prog ι π α} (ha : R a)
    (hf : Confined R W (f (m a)) m) : Confined R W (Prog.fetch a >>= f) m :=
  ⟨ha, hf⟩

theorem Confined.put {a : Nat} {b : UInt8} {f : Unit → Prog ι π α} (ha : W a)
    (hf : Confined R W (f ()) (Function.update m a b)) : Confined R W (Prog.put a b >>= f) m :=
  ⟨ha, hf⟩

theorem confined_memcpyFrom {a n : Nat} (h : ∀ x, a ≤ x → x < a + n → R x) :
    Confined R W (Prog.memcpyFrom a n : Prog ι π _) m := by
  induction n generalizing a with
  | zero => trivial
  | succ n ih =>
      apply Confined.fetch (h a (Nat.le_refl a) (by omega))
      apply Confined.bind (ih fun x hx hx' => h x (by omega) (by omega))
      trivial

theorem confined_memcpyTo {a : Nat} {bs : List UInt8}
    (h : ∀ x, a ≤ x → x < a + bs.length → W x) :
    Confined R W (Prog.memcpyTo a bs : Prog ι π Unit) m := by
  induction bs generalizing a m with
  | nil => trivial
  | cons b bs ih =>
      simp only [List.length_cons] at h
      apply Confined.put (h a (Nat.le_refl a) (by omega))
      exact ih fun x hx hx' => h x (by omega) (by omega)

theorem confined_strcpyTo {a : Nat} {s : List UInt8}
    (h : ∀ x, a ≤ x → x < a + s.length + 1 → W x) :
    Confined R W (Prog.strcpyTo a s : Prog ι π Unit) m := by
  apply confined_memcpyTo
  intro x hx hx'
  simp only [List.length_append, List.length_singleton] at hx'
  exact h x hx (by omega)

/-- A copy of a string that ends within `n` bytes loads these bytes only. -/
theorem confined_strcpyFrom {a n room : Nat} (ends : (m.cstr a n).length < n) (fits : n ≤ room)
    (h : ∀ x, a ≤ x → x < a + n → R x) :
    Confined R W (Prog.strcpyFrom a room : Prog ι π _) m := by
  induction room generalizing a n with
  | zero => trivial
  | succ room ih =>
      obtain ⟨n, rfl⟩ := Nat.exists_eq_succ_of_ne_zero (Nat.ne_of_gt (Nat.zero_lt_of_lt ends))
      apply Confined.fetch (h a (Nat.le_refl a) (by omega))
      split
      · trivial
      · rename_i more
        rw [Memory.cstr, if_neg more, List.length_cons] at ends
        apply Confined.bind
        · exact ih (n := n) (by omega) (by omega) fun x hx hx' => h x (by omega) (by omega)
        · trivial

theorem confined_strcmpEq {a : Nat} {s : List UInt8}
    (h : ∀ x, a ≤ x → x ≤ a + s.length → R x) :
    Confined R W (Prog.strcmpEq a s : Prog ι π Bool) m := by
  induction s generalizing a with
  | nil => exact ⟨h a (Nat.le_refl a) (by simp), trivial⟩
  | cons c cs ih =>
      simp only [List.length_cons] at h
      apply Confined.fetch (h a (Nat.le_refl a) (by omega))
      split
      · exact ih fun x hx hx' => h x (by omega) (by omega)
      · trivial

variable {P} {S : Ghost ι → Nat → Prop} {g : Ghost ι} {Q : α → Ghost ι → Prop} {i : ι}

/-- Inside a critical section, text that stays with what is guarded has the
effect that it has alone. -/
theorem wp_confined {p : Prog ι π α} (confined : Confined R W p m) (held : g.held = some (i, m))
    (reads : ∀ a, R a → P.guards i a)
    (writes : ∀ a, W a → P.guards i a ∧ P.weight i = P.permits ∧ ∀ m', S (g.write i m') a)
    (post : Q (Prog.exec 0 p m).1 (g.write i (Prog.exec 0 p m).2)) : P.wp S p g Q := by
  have same : g.write i m = g := by
    rw [Ghost.write, ← held]
  rw [← same]
  clear same held
  induction p generalizing m with
  | ret a => exact post
  | lock _ _ _ => exact confined.elim
  | unlock _ _ => exact confined.elim
  | load a next ih =>
      obtain ⟨inside, rest⟩ := confined
      refine ⟨i, m, rfl, fun _ => reads a inside, fun b hb => ?_⟩
      rw [hb (reads a inside)]
      exact ih (m a) rest post
  | store a b next ih =>
      obtain ⟨inside, rest⟩ := confined
      obtain ⟨guarded, exclusive, allowed⟩ := writes a inside
      exact ⟨i, m, rfl, guarded, exclusive, allowed m, ih rest post⟩
  | time _ => exact confined.elim

/-- Where loads need not be guarded, a copy may give anything. -/
theorem wp_strcpyFrom_any {a room : Nat} {Q : List UInt8 → Ghost ι → Prop}
    (loose : ¬ P.strict) (held : g.held = some (i, m)) (post : ∀ bs, Q bs g) :
    P.wp S (Prog.strcpyFrom a room : Prog ι π _) g Q := by
  induction room generalizing a Q with
  | zero => exact post []
  | succ room ih =>
      refine ⟨i, m, held, fun strict => absurd strict loose, fun b _ => ?_⟩
      show P.wp S (if b = 0 then pure [] else do
        let bs ← Prog.strcpyFrom (a + 1) room
        pure (b :: bs)) g Q
      split
      · exact post []
      · exact wp_bind (ih fun bs => post (b :: bs))

end Confined

end Protocol

end SharedMemory
