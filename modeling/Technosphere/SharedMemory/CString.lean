import Technosphere.SharedMemory.Program

/-!
# NUL-terminated strings in a byte memory

The string functions of the C library, one byte access at a time, with their
effect on a process that runs alone. All of them are `Plain`: inside a
critical section they behave as they do alone.

A `CText n` is a string that fits, with its terminator, into `n` bytes. Code
that writes one never leaves a buffer of that size.
-/

namespace SharedMemory

/-- A string without NUL whose copy, terminator included, fits into `n` bytes. -/
structure CText (n : Nat) where
  bytes : List UInt8
  noNul : 0 ∉ bytes
  fits : bytes.length < n
  deriving DecidableEq

namespace Memory

/-- The bytes `bs` stored from address `a` on. -/
def writeBytes (m : Memory) (a : Nat) : List UInt8 → Memory
  | [] => m
  | b :: bs => writeBytes (Function.update m a b) (a + 1) bs

/-- The string at `a`, read up to its terminator or for at most `n` bytes. -/
def cstr (m : Memory) (a : Nat) : Nat → List UInt8
  | 0 => []
  | n + 1 => if m a = 0 then [] else m a :: cstr m (a + 1) n

/-- The `n` bytes from address `a` on. -/
def readBytes (m : Memory) (a : Nat) : Nat → List UInt8
  | 0 => []
  | n + 1 => m a :: readBytes m (a + 1) n

/-- Bytewise comparison of the string at `a` with `s`, terminator included. -/
def strEq (m : Memory) (a : Nat) : List UInt8 → Bool
  | [] => m a == 0
  | b :: bs => if m a == b then strEq m (a + 1) bs else false

theorem writeBytes_outside (m : Memory) (a x : Nat) (bs : List UInt8)
    (h : x < a ∨ a + bs.length ≤ x) : writeBytes m a bs x = m x := by
  induction bs generalizing m a with
  | nil => rfl
  | cons b bs ih =>
      simp only [List.length_cons] at h
      have hne : x ≠ a := by omega
      rw [writeBytes, ih _ _ (by omega), Function.update_of_ne hne]

@[simp] theorem writeBytes_singleton (m : Memory) (a : Nat) (b : UInt8) :
    writeBytes m a [b] = Function.update m a b := rfl

/-- Reads of `n` bytes see only these bytes. -/
theorem cstr_congr {m m' : Memory} {a n : Nat} (h : ∀ x, a ≤ x → x < a + n → m x = m' x) :
    cstr m a n = cstr m' a n := by
  induction n generalizing a with
  | zero => rfl
  | succ n ih =>
      rw [cstr, cstr, h a (Nat.le_refl a) (by omega),
        ih fun x hx hx' => h x (by omega) (by omega)]

theorem cstr_noNul (m : Memory) (a n : Nat) : 0 ∉ cstr m a n := by
  induction n generalizing a with
  | zero => exact List.not_mem_nil
  | succ n ih =>
      rw [cstr]
      split
      · exact List.not_mem_nil
      · rename_i other
        rw [List.mem_cons, not_or]
        exact ⟨fun zero => other zero.symm, ih (a + 1)⟩

theorem readBytes_congr {m m' : Memory} {a n : Nat} (h : ∀ x, a ≤ x → x < a + n → m x = m' x) :
    readBytes m a n = readBytes m' a n := by
  induction n generalizing a with
  | zero => rfl
  | succ n ih =>
      rw [readBytes, readBytes, h a (Nat.le_refl a) (by omega),
        ih fun x hx hx' => h x (by omega) (by omega)]

theorem readBytes_writeBytes (m : Memory) (a : Nat) (bs : List UInt8) :
    readBytes (writeBytes m a bs) a bs.length = bs := by
  induction bs generalizing m a with
  | nil => rfl
  | cons b bs ih =>
      rw [List.length_cons, readBytes, writeBytes, ih,
        writeBytes_outside _ _ _ _ (Or.inl (Nat.lt_succ_self a)), Function.update_self]

/-- Copying a string and its terminator makes it readable from there. -/
theorem cstr_writeBytes (m : Memory) (a n : Nat) (s : List UInt8) (hs : 0 ∉ s)
    (hn : s.length < n) : cstr (writeBytes m a (s ++ [0])) a n = s := by
  induction s generalizing m a n with
  | nil =>
      obtain ⟨n, rfl⟩ := Nat.exists_eq_succ_of_ne_zero (Nat.ne_of_gt hn)
      simp [cstr]
  | cons b s ih =>
      obtain ⟨n, rfl⟩ := Nat.exists_eq_succ_of_ne_zero (Nat.ne_of_gt (Nat.zero_lt_of_lt hn))
      simp only [List.mem_cons, not_or] at hs
      have head : writeBytes (Function.update m a b) (a + 1) (s ++ [0]) a = b := by
        rw [writeBytes_outside _ _ _ _ (Or.inl (Nat.lt_succ_self a)), Function.update_self]
      rw [List.cons_append, writeBytes, cstr, head, if_neg (Ne.symm hs.1),
        ih _ _ _ hs.2 (by simp only [List.length_cons] at hn; omega)]

/-- A wider window shows nothing more once the terminator is inside. -/
theorem cstr_eq_of_lt {m : Memory} {a n k : Nat} (h : (cstr m a n).length < n) (hk : n ≤ k) :
    cstr m a k = cstr m a n := by
  induction n generalizing a k with
  | zero => omega
  | succ n ih =>
      obtain ⟨k, rfl⟩ := Nat.exists_eq_succ_of_ne_zero (show k ≠ 0 by omega)
      by_cases hz : m a = 0
      · rw [cstr, cstr, if_pos hz, if_pos hz]
      · rw [cstr, if_neg hz, List.length_cons] at h
        rw [cstr, cstr, if_neg hz, if_neg hz, ih (by omega) (by omega)]

/-- Comparing with a string that is shorter than the window decides equality. -/
theorem strEq_iff {m : Memory} {a n : Nat} {s : List UInt8} (hs : 0 ∉ s) (hn : s.length < n) :
    strEq m a s = true ↔ cstr m a n = s := by
  induction s generalizing a n with
  | nil =>
      obtain ⟨n, rfl⟩ := Nat.exists_eq_succ_of_ne_zero (Nat.ne_of_gt hn)
      by_cases hz : m a = 0 <;> simp [strEq, cstr, hz]
  | cons b s ih =>
      obtain ⟨n, rfl⟩ := Nat.exists_eq_succ_of_ne_zero (Nat.ne_of_gt (Nat.zero_lt_of_lt hn))
      simp only [List.mem_cons, not_or] at hs
      have hlen : s.length < n := by simp only [List.length_cons] at hn; omega
      by_cases hb : m a = b
      · have hz : m a ≠ 0 := fun h => hs.1 (h.symm.trans hb)
        simp only [strEq, cstr, hb, beq_self_eq_true, if_true, ih hs.2 hlen]
        rw [if_neg (hb ▸ hz)]
        simp
      · rw [strEq, if_neg (by simpa using hb), cstr]
        split <;> simp [hb]

end Memory

namespace Prog

variable {ι π : Type}

/-- `memcpy` into the shared memory. -/
def memcpyTo (a : Nat) : List UInt8 → Prog ι π Unit
  | [] => pure ()
  | b :: bs => do
    put a b
    memcpyTo (a + 1) bs

/-- `memcpy` out of the shared memory. -/
def memcpyFrom (a : Nat) : Nat → Prog ι π (List UInt8)
  | 0 => pure []
  | n + 1 => do
    let b ← fetch a
    let bs ← memcpyFrom (a + 1) n
    pure (b :: bs)

/-- `strcpy(&p[a], s)`: the bytes of `s`, then the terminator. -/
def strcpyTo (a : Nat) (s : List UInt8) : Prog ι π Unit := memcpyTo a (s ++ [0])

/-- `strcpy(dest, &p[a])`. The memory ends `room` bytes after `a`: a string
with no terminator before that is read to the end. -/
def strcpyFrom (a : Nat) : (room : Nat) → Prog ι π (List UInt8)
  | 0 => pure []
  | n + 1 => do
    let b ← fetch a
    if b = 0 then
      pure []
    else
      let bs ← strcpyFrom (a + 1) n
      pure (b :: bs)

/-- `strcmp(s, &p[a]) == 0`. -/
def strcmpEq (a : Nat) : List UInt8 → Prog ι π Bool
  | [] => do
    let b ← fetch a
    pure (b == 0)
  | c :: cs => do
    let b ← fetch a
    if b == c then
      strcmpEq (a + 1) cs
    else
      pure false

variable (now : Int) (m : Memory)

@[simp] theorem exec_memcpyTo (a : Nat) (bs : List UInt8) :
    exec now (memcpyTo a bs : Prog ι π Unit) m = ((), m.writeBytes a bs) := by
  induction bs generalizing m a with
  | nil => rfl
  | cons b bs ih => simp [memcpyTo, Memory.writeBytes, ih]

@[simp] theorem exec_memcpyFrom (a n : Nat) :
    exec now (memcpyFrom a n : Prog ι π _) m = (m.readBytes a n, m) := by
  induction n generalizing a with
  | zero => rfl
  | succ n ih => simp [memcpyFrom, Memory.readBytes, ih]

@[simp] theorem exec_strcpyTo (a : Nat) (s : List UInt8) :
    exec now (strcpyTo a s : Prog ι π Unit) m = ((), m.writeBytes a (s ++ [0])) :=
  exec_memcpyTo now m a _

@[simp] theorem exec_strcpyFrom (a room : Nat) :
    exec now (strcpyFrom a room : Prog ι π _) m = (m.cstr a room, m) := by
  induction room generalizing a with
  | zero => rfl
  | succ n ih =>
      rw [strcpyFrom, Memory.cstr, exec_fetch, exec_ite, exec_bind_of now (ih (a + 1))]
      split <;> rfl

@[simp] theorem exec_strcmpEq (a : Nat) (s : List UInt8) :
    exec now (strcmpEq a s : Prog ι π Bool) m = (m.strEq a s, m) := by
  induction s generalizing a with
  | nil => rfl
  | cons c cs ih =>
      rw [strcmpEq, Memory.strEq, exec_fetch, exec_ite, ih]
      split <;> rfl

theorem Plain.memcpyTo (a : Nat) (bs : List UInt8) : (memcpyTo a bs : Prog ι π Unit).Plain := by
  induction bs generalizing a with
  | nil => exact Plain.pure ()
  | cons b bs ih => exact (Plain.put a b).bind fun _ => ih (a + 1)

theorem Plain.memcpyFrom (a n : Nat) : (memcpyFrom a n : Prog ι π _).Plain := by
  induction n generalizing a with
  | zero => exact Plain.pure []
  | succ n ih => exact (Plain.fetch a).bind fun _ => (ih (a + 1)).bind fun _ => Plain.pure _

theorem Plain.strcpyTo (a : Nat) (s : List UInt8) : (strcpyTo a s : Prog ι π Unit).Plain :=
  Plain.memcpyTo a _

theorem Plain.strcpyFrom (a room : Nat) : (strcpyFrom a room : Prog ι π _).Plain := by
  induction room generalizing a with
  | zero => exact Plain.pure []
  | succ n ih =>
      exact (Plain.fetch a).bind fun _ =>
        .ite (Plain.pure _) ((ih (a + 1)).bind fun _ => Plain.pure _)

theorem Plain.strcmpEq (a : Nat) (s : List UInt8) : (strcmpEq a s : Prog ι π Bool).Plain := by
  induction s generalizing a with
  | nil => exact (Plain.fetch a).bind fun _ => Plain.pure _
  | cons c cs ih => exact (Plain.fetch a).bind fun _ => .ite (ih (a + 1)) (Plain.pure _)

end Prog

end SharedMemory
