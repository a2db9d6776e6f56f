import Mathlib.Data.Rat.Defs
import Mathlib.Algebra.Group.Nat.Defs

/-!
# Data types, cells and failures

The eleven data types of `iarray_data_type_t`, the contents of one element of an array and
the ways a call can fail. A cell holds either the bit pattern of an element or, for the
results of floating-point reductions in exact arithmetic, an exact value. What C leaves to
the floating-point hardware is a parameter (`Machine`).
-/

namespace IronArray

/-! ## Data types -/

/-- `iarray_data_type_t`. -/
inductive Dtype
  | double | float
  | int64 | int32 | int16 | int8
  | uint64 | uint32 | uint16 | uint8
  | bool
deriving DecidableEq, Repr

namespace Dtype

/-- `iarray_set_dtype_size`. -/
def size : Dtype → Nat
  | double | int64 | uint64 => 8
  | float | int32 | uint32 => 4
  | int16 | uint16 => 2
  | int8 | uint8 | bool => 1

def isFloating : Dtype → Bool
  | double | float => true
  | _ => false

def isSigned : Dtype → Bool
  | int64 | int32 | int16 | int8 => true
  | _ => false

theorem size_pos (d : Dtype) : 0 < d.size := by cases d <;> decide

/-- The number of bit patterns of one element. -/
def card (d : Dtype) : Nat := 2 ^ (8 * d.size)

end Dtype

/-! ## Values and cells -/

/-- A floating-point value in exact arithmetic. -/
inductive FP
  | nan | ninf | pinf
  | fin (q : ℚ)
deriving DecidableEq

/-- The contents of one element. -/
inductive Cell
  | bits (n : Nat)
  | real (x : FP)
deriving DecidableEq

/-- What C leaves to the hardware: conversions with a floating side, the pattern under which a
floating value lies in memory, square roots, and the double that an exact result is rounded to. -/
structure Machine where
  convert : Dtype → Dtype → Cell → Cell
  pattern : Dtype → FP → Nat
  sqrt : FP → FP
  round : ℚ → FP

namespace Cell

def toBits (m : Machine) (d : Dtype) : Cell → Nat
  | bits n => n
  | real x => m.pattern d x

/-- The value of an integer or boolean element. -/
def toInt (d : Dtype) : Cell → Int
  | bits n =>
    if d = .bool then (if n % d.card = 0 then 0 else 1)
    else if d.isSigned ∧ d.card / 2 ≤ n % d.card then (n % d.card : Nat) - (d.card : Int)
    else (n % d.card : Nat)
  | real _ => 0

/-- Conversion of an integer to an integer or boolean type. -/
def ofInt (d : Dtype) (z : Int) : Cell :=
  if d = .bool then .bits (if z = 0 then 0 else 1) else .bits (z % d.card).toNat

/-- The C conversion `*dst = *src` between two element types. -/
def convert (m : Machine) (src dst : Dtype) (c : Cell) : Cell :=
  if src.isFloating ∨ dst.isFloating then m.convert src dst c else ofInt dst (c.toInt src)

end Cell

/-! ## Memory -/

/-- A little-endian number. -/
def ofBytes (bs : List Nat) : Nat := bs.foldr (fun b n => b + 256 * n) 0

/-- Byte `k` of a memory region that holds elements of type `d`. -/
def byteAt (m : Machine) (d : Dtype) (mem : Nat → Cell) (k : Nat) : Nat :=
  (mem (k / d.size)).toBits m d / 256 ^ (k % d.size) % 256

/-- The element of type `d'` at byte `off` of a region that holds elements of type `d`. -/
def loadAt (m : Machine) (d : Dtype) (mem : Nat → Cell) (off : Nat) (d' : Dtype) : Cell :=
  if d' = d ∧ off % d.size = 0 then mem (off / d.size)
  else .bits (ofBytes ((List.range d'.size).map fun t => byteAt m d mem (off + t)))

theorem loadAt_aligned (m : Machine) (d : Dtype) (mem : Nat → Cell) (i : Nat) :
    loadAt m d mem (i * d.size) d = mem i := by
  simp [loadAt, Nat.mul_div_cancel i d.size_pos]

/-! ## Failures -/

/-- The return codes of the modelled functions. -/
inductive ErrorCode
  | invalidArgument | failed | notSupported
  | invalidDtype | invalidNdim | invalidShape | invalidAxis
  | invalidChunkshape | invalidBlockshape | invalidStorage
  | invalidEvalMethod | invalidEvalEngine | evalEngineFailed | evalEngineNotCompiled
  | invalidItershape | operationInvalid | notComplete
  | tooSmallBuffer | catervaFailed | bloscFailed | endIter | notEndIter | full | assertionFailed
deriving DecidableEq, Repr

/-- Behaviour that C leaves undefined. -/
inductive Undefined
  | divisionByZero | outOfBounds | nullPointer
deriving DecidableEq, Repr

/-- A call that does not succeed returns a code or runs into undefined behaviour. -/
inductive Failure
  | code (e : ErrorCode)
  | undefined (u : Undefined)
deriving DecidableEq, Repr

abbrev Result := Except Failure

/-- `INA_ERROR`. -/
def inaError {α : Type} (e : ErrorCode) : Result α := .error (.code e)

def crash {α : Type} (u : Undefined) : Result α := .error (.undefined u)

/-- The call is refused with an error. -/
def Refused {α : Type} (r : Result α) : Prop := ∃ e, r = .error (.code e)

namespace Result

variable {α β : Type}

@[simp] theorem ok_bind (a : α) (f : α → Result β) : (Except.ok a >>= f) = f a := rfl

@[simp] theorem error_bind (e : Failure) (f : α → Result β) :
    (Except.error e >>= f) = Except.error e := rfl

theorem exists_of_isOk {x : Result α} (h : Except.isOk x) : ∃ a, x = .ok a := by
  cases x with
  | ok a => exact ⟨a, rfl⟩
  | error _ => cases h

theorem bind_eq_ok {x : Result α} {f : α → Result β} {b : β} :
    (x >>= f) = .ok b ↔ ∃ a, x = .ok a ∧ f a = .ok b := by
  cases x with
  | error e => simp
  | ok a => simp

theorem map_eq_ok {x : Result α} {f : α → β} {b : β} :
    x.map f = .ok b ↔ ∃ a, x = .ok a ∧ f a = b := by
  cases x <;> simp [Except.map]

theorem ne_crash_of_ok {x : Result α} {a : α} (h : x = .ok a) (u : Undefined) : x ≠ crash u := by
  intro hCrash
  cases h.symm.trans hCrash

theorem ne_crash_of_refused {x : Result α} (h : Refused x) (u : Undefined) : x ≠ crash u := by
  obtain ⟨e, rfl⟩ := h
  intro hCrash
  cases hCrash

theorem refused_bind {x : Result α} (h : Refused x) (f : α → Result β) : Refused (x >>= f) := by
  obtain ⟨e, rfl⟩ := h
  exact ⟨e, rfl⟩

theorem mapM_ok (xs : List α) (f : α → Result β) (g : α → β)
    (h : ∀ a ∈ xs, f a = .ok (g a)) : xs.mapM f = .ok (xs.map g) := by
  induction xs with
  | nil => rfl
  | cons a as ih =>
    rw [List.mapM_cons, h a List.mem_cons_self, ih fun b hb => h b (List.mem_cons_of_mem _ hb)]
    rfl

theorem mapM_congr {xs : List α} {f g : α → Result β} (h : ∀ a ∈ xs, f a = g a) :
    xs.mapM f = xs.mapM g := by
  induction xs with
  | nil => rfl
  | cons a xs ih =>
    rw [List.mapM_cons, List.mapM_cons, h a List.mem_cons_self,
      ih fun b hb => h b (List.mem_cons_of_mem _ hb)]

theorem mapM_succeeds {xs : List α} {f : α → Result β} (h : ∀ a ∈ xs, ∃ b, f a = .ok b) :
    ∃ bs, xs.mapM f = .ok bs := by
  induction xs with
  | nil => exact ⟨[], rfl⟩
  | cons a xs ih =>
    obtain ⟨b, hb⟩ := h a List.mem_cons_self
    obtain ⟨bs, hbs⟩ := ih fun x hx => h x (List.mem_cons_of_mem _ hx)
    exact ⟨b :: bs, by rw [List.mapM_cons, hb, hbs]; rfl⟩

/-- A loop over entries, each with what is known of it. -/
theorem mapM_forall₂ {γ : Type} {xs : List α} {cs : List γ} {R : α → γ → Prop} {Q : β → γ → Prop}
    {f : α → Result β} (hf : ∀ a c, R a c → ∃ b, f a = .ok b ∧ Q b c)
    (h : List.Forall₂ R xs cs) : ∃ ys, xs.mapM f = .ok ys ∧ List.Forall₂ Q ys cs := by
  induction h with
  | nil => exact ⟨[], rfl, .nil⟩
  | cons hHead _ ih =>
    obtain ⟨b, hb, hQ⟩ := hf _ _ hHead
    obtain ⟨ys, hys, hRest⟩ := ih
    exact ⟨b :: ys, by rw [List.mapM_cons, hb, hys]; rfl, .cons hQ hRest⟩

theorem mapM_eq_ok {xs : List α} {f : α → Result β} {ys : List β} (h : xs.mapM f = .ok ys) :
    List.Forall₂ (fun a b => f a = .ok b) xs ys := by
  induction xs generalizing ys with
  | nil =>
    cases h
    exact List.Forall₂.nil
  | cons a xs ih =>
    rw [List.mapM_cons] at h
    obtain ⟨b, hb, h⟩ := bind_eq_ok.mp h
    obtain ⟨bs, hbs, h⟩ := bind_eq_ok.mp h
    cases h
    exact List.Forall₂.cons hb (ih hbs)

theorem forM_ok {xs : List α} {f : α → Result Unit} (h : ∀ a ∈ xs, f a = .ok ()) :
    forM xs f = .ok () := by
  induction xs with
  | nil => rfl
  | cons a xs ih =>
    rw [List.forM_cons, h a List.mem_cons_self]
    exact ih fun b hb => h b (List.mem_cons_of_mem _ hb)

/-- A loop succeeds exactly if every step does. -/
theorem forM_eq_ok {xs : List α} {f : α → Result Unit} :
    forM xs f = .ok () ↔ ∀ a ∈ xs, f a = .ok () := by
  refine ⟨?_, forM_ok⟩
  induction xs with
  | nil => exact fun _ => nofun
  | cons a xs ih =>
    rw [List.forM_cons]
    intro h
    obtain ⟨_, hHead, hTail⟩ := bind_eq_ok.mp h
    exact List.forall_mem_cons.mpr ⟨hHead, ih hTail⟩

/-- A loop whose steps are refused or succeed is refused or has taken every step. -/
theorem forM_refused_or {xs : List α} {f : α → Result Unit}
    (h : ∀ a ∈ xs, Refused (f a) ∨ f a = .ok ()) :
    Refused (forM xs f) ∨ (forM xs f = .ok () ∧ ∀ a ∈ xs, f a = .ok ()) := by
  induction xs with
  | nil => exact .inr ⟨rfl, nofun⟩
  | cons a xs ih =>
    rw [List.forM_cons]
    rcases h a List.mem_cons_self with hRefused | hOk
    · exact .inl (refused_bind hRefused _)
    · rw [hOk, ok_bind]
      exact (ih fun b hb => h b (List.mem_cons_of_mem _ hb)).imp_right fun hRest =>
        ⟨hRest.1, List.forall_mem_cons.mpr ⟨hOk, hRest.2⟩⟩

end Result

end IronArray
