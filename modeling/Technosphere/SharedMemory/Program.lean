import Mathlib.Logic.Function.Basic

/-!
# Programs over one shared byte memory

A `Prog ι π α` is the text of a process: it loads and stores single bytes of
the shared memory, reads the clock, and takes and releases semaphores named by
`ι`. Every acquisition carries a program point in `π`, a label that the
semantics ignores and that assertions about a paused process may mention.

Two semantics are given to the same text. `exec` runs a process alone to its
end. `region` runs it from just after an acquisition up to and including the
next release, the unit that other processes cannot interrupt when semaphores
exclude each other. `region_plain` connects them: a part without acquisitions
and releases does the same in both.
-/

namespace SharedMemory

/-- The shared bytes, by address. -/
abbrev Memory := Nat → UInt8

inductive Prog (ι π α : Type) : Type where
  | ret (value : α)
  | lock (sem : ι) (point : π) (next : Prog ι π α)
  | unlock (sem : ι) (next : Prog ι π α)
  | load (addr : Nat) (next : UInt8 → Prog ι π α)
  | store (addr : Nat) (byte : UInt8) (next : Prog ι π α)
  | time (next : Int → Prog ι π α)

namespace Prog

variable {ι π α β γ : Type}

/-- Sequencing substitutes the continuation at every `ret`. -/
def bind : Prog ι π α → (α → Prog ι π β) → Prog ι π β
  | ret value, f => f value
  | lock sem point next, f => lock sem point (next.bind f)
  | unlock sem next, f => unlock sem (next.bind f)
  | load addr next, f => load addr fun byte => (next byte).bind f
  | store addr byte next, f => store addr byte (next.bind f)
  | time next, f => time fun t => (next t).bind f

instance : Monad (Prog ι π) where
  pure := ret
  bind := bind

theorem bind_ret (p : Prog ι π α) : p.bind ret = p := by
  induction p with
  | ret => rfl
  | lock _ _ _ ih => exact congrArg _ ih
  | unlock _ _ ih => exact congrArg _ ih
  | load _ _ ih => exact congrArg _ (funext ih)
  | store _ _ _ ih => exact congrArg _ ih
  | time _ ih => exact congrArg _ (funext ih)

theorem bind_bind (p : Prog ι π α) (f : α → Prog ι π β) (g : β → Prog ι π γ) :
    (p.bind f).bind g = p.bind fun a => (f a).bind g := by
  induction p with
  | ret => rfl
  | lock _ _ _ ih => exact congrArg _ ih
  | unlock _ _ ih => exact congrArg _ ih
  | load _ _ ih => exact congrArg _ (funext ih)
  | store _ _ _ ih => exact congrArg _ ih
  | time _ ih => exact congrArg _ (funext ih)

instance : LawfulMonad (Prog ι π) :=
  LawfulMonad.mk' (Prog ι π) bind_ret (fun _ _ => rfl) bind_bind

def acquire (sem : ι) (point : π) : Prog ι π Unit := lock sem point (ret ())

def release (sem : ι) : Prog ι π Unit := unlock sem (ret ())

def fetch (addr : Nat) : Prog ι π UInt8 := load addr ret

def put (addr : Nat) (byte : UInt8) : Prog ι π Unit := store addr byte (ret ())

def clock : Prog ι π Int := time ret

/-! ## A process running alone -/

/-- The result and final memory of an uninterrupted run during which every
clock reading is `now`. Semaphores never block a process that runs alone. -/
def exec (now : Int) : Prog ι π α → Memory → α × Memory
  | ret value, m => (value, m)
  | lock _ _ next, m => next.exec now m
  | unlock _ next, m => next.exec now m
  | load addr next, m => (next (m addr)).exec now m
  | store addr byte next, m => next.exec now (Function.update m addr byte)
  | time next, m => (next now).exec now m

section Exec

variable (now : Int) (m : Memory)

@[simp] theorem exec_pure (a : α) : exec now (pure a : Prog ι π α) m = (a, m) := rfl

@[simp low] theorem exec_bind (p : Prog ι π α) (f : α → Prog ι π β) :
    exec now (p >>= f) m = exec now (f (exec now p m).1) (exec now p m).2 := by
  show exec now (p.bind f) m = _
  induction p generalizing m with
  | ret => rfl
  | lock _ _ _ ih => exact ih m
  | unlock _ _ ih => exact ih m
  | load _ _ ih => exact ih _ m
  | store _ _ _ ih => exact ih _
  | time _ ih => exact ih _ m

/-- Continue with a first part whose effect is known. -/
theorem exec_bind_of {m m' : Memory} {p : Prog ι π α} {a : α} (h : exec now p m = (a, m'))
    (f : α → Prog ι π β) : exec now (p >>= f) m = exec now (f a) m' := by
  rw [exec_bind, h]

@[simp] theorem exec_map (f : α → β) (p : Prog ι π α) :
    exec now (f <$> p) m = (f (exec now p m).1, (exec now p m).2) := by
  rw [map_eq_pure_bind, exec_bind, exec_pure]

@[simp] theorem exec_ite (c : Prop) [Decidable c] (p q : Prog ι π α) :
    exec now (if c then p else q) m = if c then exec now p m else exec now q m := by
  split <;> rfl

@[simp] theorem exec_acquire (sem : ι) (point : π) (f : Unit → Prog ι π α) :
    exec now (acquire sem point >>= f) m = exec now (f ()) m := rfl

@[simp] theorem exec_release (sem : ι) (f : Unit → Prog ι π α) :
    exec now (release sem >>= f) m = exec now (f ()) m := rfl

@[simp] theorem exec_fetch (addr : Nat) (f : UInt8 → Prog ι π α) :
    exec now (fetch addr >>= f) m = exec now (f (m addr)) m := rfl

@[simp] theorem exec_put (addr : Nat) (byte : UInt8) (f : Unit → Prog ι π α) :
    exec now (put addr byte >>= f) m = exec now (f ()) (Function.update m addr byte) := rfl

@[simp] theorem exec_clock (f : Int → Prog ι π α) :
    exec now (clock >>= f) m = exec now (f now) m := rfl

end Exec

/-! ## Critical sections -/

/-- Run a process that holds a semaphore until it has released it. The i-th
clock reading in the region is `clk i`. The result is the memory and the rest
of the process, which starts at its next acquisition or is finished. -/
def region (clk : Nat → Int) : Prog ι π α → Memory → Memory × Prog ι π α
  | ret value, m => (m, ret value)
  | lock sem point next, m => (m, lock sem point next)
  | unlock _ next, m => (m, next)
  | load addr next, m => (next (m addr)).region clk m
  | store addr byte next, m => next.region clk (Function.update m addr byte)
  | time next, m => (next (clk 0)).region (fun i => clk (i + 1)) m

/-- The semaphore and the program point of a process waiting to acquire. -/
def waiting : Prog ι π α → Option (ι × π)
  | lock sem point _ => some (sem, point)
  | _ => none

/-- The program point of a process waiting to acquire. -/
def point (p : Prog ι π α) : Option π := p.waiting.map Prod.snd

/-- The value of a finished process. -/
def result : Prog ι π α → Option α
  | ret value => some value
  | _ => none

/-- One whole critical section: acquire, run to the release. -/
def enter (clk : Nat → Int) : Prog ι π α → Memory → Option (Memory × Prog ι π α)
  | lock _ _ next, m => some (next.region clk m)
  | _, _ => none

/-- Text that only loads and stores: it neither waits, releases nor reads the
clock, so it runs inside one region whatever surrounds it. -/
def Plain : Prog ι π α → Prop
  | ret _ => True
  | lock _ _ _ => False
  | unlock _ _ => False
  | load _ next => ∀ byte, (next byte).Plain
  | store _ _ next => next.Plain
  | time _ => False

section Region

variable (clk : Nat → Int) (m : Memory)

@[simp] theorem region_pure (a : α) :
    region clk (pure a : Prog ι π α) m = (m, pure a) := rfl

@[simp] theorem region_release (sem : ι) (f : Unit → Prog ι π α) :
    region clk (release sem >>= f) m = (m, f ()) := rfl

@[simp] theorem region_fetch (addr : Nat) (f : UInt8 → Prog ι π α) :
    region clk (fetch addr >>= f) m = region clk (f (m addr)) m := rfl

@[simp] theorem region_put (addr : Nat) (byte : UInt8) (f : Unit → Prog ι π α) :
    region clk (put addr byte >>= f) m = region clk (f ()) (Function.update m addr byte) := rfl

@[simp] theorem region_clock (f : Int → Prog ι π α) :
    region clk (clock >>= f) m = region (fun i => clk (i + 1)) (f (clk 0)) m := rfl

@[simp] theorem enter_acquire (sem : ι) (pt : π) (f : Unit → Prog ι π α) :
    enter clk (acquire sem pt >>= f) m = some (region clk (f ()) m) := rfl

@[simp] theorem enter_pure (a : α) : enter clk (pure a : Prog ι π α) m = none := rfl

@[simp] theorem point_acquire (sem : ι) (pt : π) (f : Unit → Prog ι π α) :
    point (acquire sem pt >>= f) = some pt := rfl

@[simp] theorem point_pure (a : α) : point (pure a : Prog ι π α) = none := rfl

@[simp] theorem result_acquire (sem : ι) (pt : π) (f : Unit → Prog ι π α) :
    result (acquire sem pt >>= f) = none := rfl

@[simp] theorem result_pure (a : α) : result (pure a : Prog ι π α) = some a := rfl

/-- Plain text inside a region has the effect it has alone. -/
theorem region_plain {p : Prog ι π α} (hp : p.Plain) (f : α → Prog ι π β) (now : Int) :
    region clk (p >>= f) m = region clk (f (exec now p m).1) (exec now p m).2 := by
  show region clk (p.bind f) m = _
  induction p generalizing m with
  | ret => rfl
  | lock _ _ _ => exact hp.elim
  | unlock _ _ => exact hp.elim
  | load addr next ih => exact ih (m addr) m (hp (m addr))
  | store addr byte next ih => exact ih _ hp
  | time _ => exact hp.elim

end Region

theorem Plain.pure (a : α) : (pure a : Prog ι π α).Plain := trivial

theorem Plain.fetch (addr : Nat) : (fetch addr : Prog ι π UInt8).Plain := fun _ => trivial

theorem Plain.put (addr : Nat) (byte : UInt8) : (put addr byte : Prog ι π Unit).Plain := trivial

theorem Plain.bind {p : Prog ι π α} {f : α → Prog ι π β} (hp : p.Plain)
    (hf : ∀ a, (f a).Plain) : (p >>= f).Plain := by
  show (p.bind f).Plain
  induction p with
  | ret value => exact hf value
  | lock _ _ _ => exact hp.elim
  | unlock _ _ => exact hp.elim
  | load _ _ ih => exact fun byte => ih byte (hp byte)
  | store _ _ _ ih => exact ih hp
  | time _ => exact hp.elim

theorem Plain.map {p : Prog ι π α} (f : α → β) (hp : p.Plain) : (f <$> p).Plain := by
  rw [map_eq_pure_bind]
  exact hp.bind fun _ => Plain.pure _

theorem Plain.ite {c : Prop} [Decidable c] {p q : Prog ι π α} (hp : p.Plain) (hq : q.Plain) :
    (if c then p else q).Plain := by
  split
  · exact hp
  · exact hq

end Prog

end SharedMemory
