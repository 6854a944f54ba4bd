import Technosphere.SharedMemory.CString
import Technosphere.SharedMemory.Scan

/-!
# The stores of a run

`storeTrace` lists what a process that runs alone stores, in order; `exec_eq_foldl`
says that the memory it leaves comes from them. Text that stores nothing is
`Silent`, as all probing is when its test is.
-/

namespace SharedMemory

/-- A byte that is stored, and where. -/
abbrev Store := Nat × UInt8

namespace Memory

def apply (m : Memory) (w : Store) : Memory := Function.update m w.1 w.2

/-- The stores of a copy of `bs` to address `a`. -/
def storesAt (a : Nat) : List UInt8 → List Store
  | [] => []
  | b :: bs => (a, b) :: storesAt (a + 1) bs

theorem mem_storesAt {a : Nat} {bs : List UInt8} {w : Store} (h : w ∈ storesAt a bs) :
    a ≤ w.1 ∧ w.1 < a + bs.length := by
  induction bs generalizing a with
  | nil => cases h
  | cons b bs ih =>
      rw [List.length_cons]
      rcases List.mem_cons.mp h with rfl | h
      · exact ⟨Nat.le_refl a, by omega⟩
      · have := ih h
        omega

theorem foldl_apply_outside {stores : List Store} {x : Nat} (h : ∀ w ∈ stores, w.1 ≠ x)
    (m : Memory) : stores.foldl apply m x = m x := by
  induction stores generalizing m with
  | nil => rfl
  | cons w stores ih =>
      obtain ⟨other, others⟩ := List.forall_mem_cons.mp h
      rw [List.foldl_cons, ih others]
      exact Function.update_of_ne (Ne.symm other) w.2 m

end Memory

namespace Prog

variable {ι π α β : Type}

/-- The stores of an uninterrupted run during which every clock reading is `now`. -/
def storeTrace (now : Int) : Prog ι π α → Memory → List Store
  | ret _, _ => []
  | lock _ _ next, m => next.storeTrace now m
  | unlock _ next, m => next.storeTrace now m
  | load addr next, m => (next (m addr)).storeTrace now m
  | store addr byte next, m => (addr, byte) :: next.storeTrace now (Function.update m addr byte)
  | time next, m => (next now).storeTrace now m

/-- The memory that a run leaves. -/
theorem exec_eq_foldl (now : Int) (p : Prog ι π α) (m : Memory) :
    (exec now p m).2 = (storeTrace now p m).foldl Memory.apply m := by
  induction p generalizing m with
  | ret => rfl
  | lock _ _ _ ih => exact ih m
  | unlock _ _ ih => exact ih m
  | load addr _ ih => exact ih (m addr) m
  | store addr byte _ ih => exact ih (Function.update m addr byte)
  | time _ ih => exact ih now m

section Trace

variable (now : Int) (m : Memory)

theorem storeTrace_bind (p : Prog ι π α) (f : α → Prog ι π β) :
    storeTrace now (p >>= f) m =
      storeTrace now p m ++ storeTrace now (f (exec now p m).1) (exec now p m).2 := by
  show storeTrace now (p.bind f) m = _
  induction p generalizing m with
  | ret => rfl
  | lock _ _ _ ih => exact ih m
  | unlock _ _ ih => exact ih m
  | load addr _ ih => exact ih (m addr) m
  | store addr byte _ ih => exact congrArg ((addr, byte) :: ·) (ih (Function.update m addr byte))
  | time _ ih => exact ih now m

@[simp] theorem storeTrace_pure (a : α) : storeTrace now (pure a : Prog ι π α) m = [] := rfl

@[simp] theorem storeTrace_acquire (sem : ι) (point : π) (f : Unit → Prog ι π α) :
    storeTrace now (acquire sem point >>= f) m = storeTrace now (f ()) m := rfl

@[simp] theorem storeTrace_release (sem : ι) (f : Unit → Prog ι π α) :
    storeTrace now (release sem >>= f) m = storeTrace now (f ()) m := rfl

@[simp] theorem storeTrace_clock (f : Int → Prog ι π α) :
    storeTrace now (clock >>= f) m = storeTrace now (f now) m := rfl

@[simp] theorem storeTrace_put (addr : Nat) (byte : UInt8) (f : Unit → Prog ι π α) :
    storeTrace now (put addr byte >>= f) m =
      (addr, byte) :: storeTrace now (f ()) (Function.update m addr byte) := rfl

@[simp] theorem storeTrace_memcpyTo (a : Nat) (bs : List UInt8) (f : Unit → Prog ι π α) :
    storeTrace now (memcpyTo a bs >>= f) m =
      Memory.storesAt a bs ++ storeTrace now (f ()) (m.writeBytes a bs) := by
  induction bs generalizing m a with
  | nil => rfl
  | cons b bs ih => exact congrArg ((a, b) :: ·) (ih (Function.update m a b) (a + 1))

@[simp] theorem storeTrace_strcpyTo (a : Nat) (s : List UInt8) (f : Unit → Prog ι π α) :
    storeTrace now (strcpyTo a s >>= f) m =
      Memory.storesAt a (s ++ [0]) ++ storeTrace now (f ()) (m.writeBytes a (s ++ [0])) :=
  storeTrace_memcpyTo now m a _ f

end Trace

/-! ## Text that stores nothing -/

def Silent (p : Prog ι π α) : Prop := ∀ now m, storeTrace now p m = []

namespace Silent

theorem pure (a : α) : (pure a : Prog ι π α).Silent := fun _ _ => rfl

theorem acquire (sem : ι) (point : π) : (acquire sem point : Prog ι π Unit).Silent :=
  fun _ _ => rfl

theorem release (sem : ι) : (release sem : Prog ι π Unit).Silent := fun _ _ => rfl

theorem fetch (addr : Nat) : (fetch addr : Prog ι π UInt8).Silent := fun _ _ => rfl

theorem bind {p : Prog ι π α} {f : α → Prog ι π β} (first : p.Silent)
    (rest : ∀ a, (f a).Silent) : (p >>= f).Silent := by
  intro now m
  rw [storeTrace_bind, first now m, rest _ now _, List.nil_append]

theorem ite {c : Prop} [Decidable c] {p q : Prog ι π α} (yes : p.Silent) (no : q.Silent) :
    (if c then p else q).Silent := by
  split
  · exact yes
  · exact no

theorem strcmpEq (a : Nat) (s : List UInt8) : (strcmpEq a s : Prog ι π Bool).Silent := by
  induction s generalizing a with
  | nil => exact (fetch a).bind fun _ => pure _
  | cons c cs ih => exact (fetch a).bind fun _ => .ite (ih (a + 1)) (pure _)

variable {sem : Nat → ι} {seg : Nat} {pt : Nat → π} {test : Nat → Prog ι π Bool}

theorem forCells (tests : ∀ c, (test c).Silent) (cells : List Nat) (block : Nat) :
    (Scan.forCells sem seg pt test cells block).Silent := by
  induction cells generalizing block with
  | nil => exact pure _
  | cons cur rest ih =>
      have visit : (do
          let hit ← test cur
          if hit then
            Prog.release (sem (cur / seg))
            Pure.pure (Scan.Outcome.found cur)
          else
            Scan.forCells sem seg pt test rest (cur / seg) : Prog ι π _).Silent :=
        (tests cur).bind fun _ => .ite ((release _).bind fun _ => pure _) (ih _)
      rw [Scan.forCells]
      exact .ite ((release _).bind fun _ => (acquire _ _).bind fun _ => visit) visit

/-- Probing only reads. -/
theorem find (tests : ∀ c, (test c).Silent) (cells h : Nat) :
    (Scan.find sem seg pt test cells h).Silent := by
  rw [Scan.find]
  refine (acquire _ _).bind fun _ => (forCells tests _ _).bind fun outcome => ?_
  cases outcome with
  | found cell => exact pure _
  | ended block =>
      refine (forCells tests _ _).bind fun outcome => ?_
      cases outcome with
      | found cell => exact pure _
      | ended block => exact (release _).bind fun _ => pure _

end Silent

/-- What comes after silent text. -/
theorem storeTrace_silent_bind {p : Prog ι π α} (h : p.Silent) (now : Int) (m : Memory)
    (f : α → Prog ι π β) :
    storeTrace now (p >>= f) m = storeTrace now (f (exec now p m).1) (exec now p m).2 := by
  rw [storeTrace_bind, h now m, List.nil_append]

end Prog

end SharedMemory
