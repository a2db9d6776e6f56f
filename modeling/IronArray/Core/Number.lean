import IronArray.Core.Value
import Mathlib.Data.Rat.Cast.Order
import Mathlib.Tactic.Linarith

/-!
# Numbers

Values that C computes with: integers, and floating-point values in exact arithmetic (no
rounding, one zero, infinities and NaN as IEEE 754 combines them). `Dtype.decode` is the
value of a stored pattern. `Num` is what a load from an element gives; `Num.cell` stores it.
-/

namespace IronArray

/-! ## Exact floating-point arithmetic -/

namespace FP

def add : FP → FP → FP
  | nan, _ | _, nan => nan
  | pinf, ninf | ninf, pinf => nan
  | pinf, _ | _, pinf => pinf
  | ninf, _ | _, ninf => ninf
  | fin a, fin b => fin (a + b)

/-- An infinity of the sign of `q`; the product of zero and an infinity is NaN. -/
def infOf (q : ℚ) : FP := if q = 0 then nan else if 0 < q then pinf else ninf

def mul : FP → FP → FP
  | nan, _ | _, nan => nan
  | pinf, pinf | ninf, ninf => pinf
  | pinf, ninf | ninf, pinf => ninf
  | pinf, fin b => infOf b
  | ninf, fin b => infOf (-b)
  | fin a, pinf => infOf a
  | fin a, ninf => infOf (-a)
  | fin a, fin b => fin (a * b)

/-- Zero divides to an infinity; an infinity keeps its sign when divided by zero. -/
def div : FP → FP → FP
  | nan, _ | _, nan => nan
  | fin a, fin b => if b = 0 then infOf a else fin (a / b)
  | fin _, _ => fin 0
  | pinf, fin b => if b < 0 then ninf else pinf
  | ninf, fin b => if b < 0 then pinf else ninf
  | _, _ => nan

def sub (x y : FP) : FP := x.add (mul (fin (-1)) y)

/-- `fabs`. -/
def abs : FP → FP
  | nan => nan
  | ninf | pinf => pinf
  | fin a => fin |a|

/-- C's `<`, which is false on NaN. -/
def lt : FP → FP → Bool
  | nan, _ | _, nan => false
  | _, ninf | pinf, _ => false
  | ninf, _ | _, pinf => true
  | fin a, fin b => a < b

def isNan : FP → Bool
  | nan => true
  | _ => false

def isFinite : FP → Bool
  | fin _ => true
  | _ => false

protected theorem add_comm (x y : FP) : x.add y = y.add x := by
  cases x <;> cases y <;> simp [add, add_comm]

protected theorem add_assoc (x y z : FP) : (x.add y).add z = x.add (y.add z) := by
  cases x <;> cases y <;> cases z <;> simp [add, add_assoc]

instance : Add FP := ⟨add⟩

instance : Zero FP := ⟨fin 0⟩

instance : AddCommMonoid FP where
  add_comm := FP.add_comm
  add_assoc := FP.add_assoc
  zero_add x := by
    change (fin 0).add x = x
    cases x <;> simp [add]
  add_zero x := by
    change x.add (fin 0) = x
    cases x <;> simp [add]
  nsmul := nsmulRec

theorem infOf_pos {q : ℚ} (h : 0 < q) : infOf q = pinf := by simp [infOf, h, h.ne']

theorem infOf_neg {q : ℚ} (h : q < 0) : infOf q = ninf := by
  simp [infOf, h.ne, not_lt.mpr h.le]

@[simp] theorem infOf_zero : infOf 0 = nan := rfl

theorem infOf_mul_fin (a b : ℚ) : (infOf a).mul (fin b) = infOf (a * b) := by
  rcases lt_trichotomy a 0 with ha | rfl | ha
  · rw [infOf_neg ha, mul]
    rcases lt_trichotomy b 0 with hb | rfl | hb
    · rw [infOf_pos (mul_pos_of_neg_of_neg ha hb), infOf_pos (neg_pos.mpr hb)]
    · simp
    · rw [infOf_neg (mul_neg_of_neg_of_pos ha hb), infOf_neg (neg_neg_of_pos hb)]
  · simp [mul]
  · rw [infOf_pos ha, mul]
    rcases lt_trichotomy b 0 with hb | rfl | hb
    · rw [infOf_neg (mul_neg_of_pos_of_neg ha hb), infOf_neg hb]
    · simp
    · rw [infOf_pos (mul_pos ha hb), infOf_pos hb]

theorem pinf_mul_infOf (b : ℚ) : pinf.mul (infOf b) = infOf b := by
  rcases lt_trichotomy b 0 with hb | rfl | hb
  · rw [infOf_neg hb, mul]
  · rfl
  · rw [infOf_pos hb, mul]

theorem ninf_mul_infOf (b : ℚ) : ninf.mul (infOf b) = infOf (-b) := by
  rcases lt_trichotomy b 0 with hb | rfl | hb
  · rw [infOf_neg hb, infOf_pos (neg_pos.mpr hb), mul]
  · simp [mul]
  · rw [infOf_pos hb, infOf_neg (neg_neg_of_pos hb), mul]

protected theorem mul_comm (x y : FP) : x.mul y = y.mul x := by
  cases x <;> cases y <;> simp [mul, mul_comm]

theorem fin_mul_infOf (a b : ℚ) : (fin a).mul (infOf b) = infOf (a * b) := by
  rw [FP.mul_comm, infOf_mul_fin, mul_comm]

theorem infOf_mul_pinf (b : ℚ) : (infOf b).mul pinf = infOf b := by
  rw [FP.mul_comm, pinf_mul_infOf]

theorem infOf_mul_ninf (b : ℚ) : (infOf b).mul ninf = infOf (-b) := by
  rw [FP.mul_comm, ninf_mul_infOf]

theorem fin_mul_fin (a b : ℚ) : (fin a).mul (fin b) = fin (a * b) := rfl

theorem pinf_mul_fin (b : ℚ) : pinf.mul (fin b) = infOf b := rfl

theorem ninf_mul_fin (b : ℚ) : ninf.mul (fin b) = infOf (-b) := rfl

theorem fin_mul_pinf (a : ℚ) : (fin a).mul pinf = infOf a := rfl

theorem fin_mul_ninf (a : ℚ) : (fin a).mul ninf = infOf (-a) := rfl

@[simp] theorem nan_mul (x : FP) : nan.mul x = nan := by cases x <;> rfl

@[simp] theorem mul_nan (x : FP) : x.mul nan = nan := by cases x <;> rfl

theorem infinities_mul : pinf.mul pinf = pinf ∧ ninf.mul ninf = pinf ∧ pinf.mul ninf = ninf ∧
    ninf.mul pinf = ninf := ⟨rfl, rfl, rfl, rfl⟩

protected theorem mul_assoc (x y z : FP) : (x.mul y).mul z = x.mul (y.mul z) := by
  cases x <;> cases y <;> cases z <;>
    simp only [fin_mul_fin, pinf_mul_fin, ninf_mul_fin, fin_mul_pinf, fin_mul_ninf, nan_mul,
      mul_nan, infinities_mul, infOf_mul_fin, fin_mul_infOf, pinf_mul_infOf, ninf_mul_infOf,
      infOf_mul_pinf, infOf_mul_ninf, mul_assoc, neg_mul, mul_neg, neg_neg]

/-! ## Stored patterns -/

/-- The value of an IEEE 754 pattern with `e` exponent and `f` fraction bits. -/
def decode (e f n : Nat) : FP :=
  let negative := n / 2 ^ (e + f) % 2 = 1
  let exponent := n / 2 ^ f % 2 ^ e
  let fraction := n % 2 ^ f
  if exponent = 2 ^ e - 1 then
    if fraction = 0 then (if negative then ninf else pinf) else nan
  else
    -- a zero exponent stands for the scale of exponent one without the leading bit
    let significand : Nat := if exponent = 0 then fraction else 2 ^ f + fraction
    let scale : ℚ := (2 ^ max exponent 1 : Nat) / (2 ^ (2 ^ (e - 1) - 1 + f) : Nat)
    fin ((if negative then -1 else 1) * significand * scale)

end FP

/-- The value of a pattern of a floating-point type. -/
def Dtype.decode (d : Dtype) (n : Nat) : FP :=
  if d.size = 4 then FP.decode 8 23 n else FP.decode 11 52 n

/-! ## Doubles -/

namespace Machine

/-- The double for an exact result. -/
def rounded (m : Machine) : FP → FP
  | .fin q => m.round q
  | x => x

section

variable (m : Machine) (x y : FP)

def add : FP := m.rounded (x.add y)

def sub : FP := m.rounded (x.sub y)

def mul : FP := m.rounded (x.mul y)

def div : FP := m.rounded (x.div y)

end

/-- Arithmetic without rounding. -/
def Exact (m : Machine) : Prop := ∀ q, m.round q = .fin q

theorem Exact.rounded {m : Machine} (h : m.Exact) (x : FP) : m.rounded x = x := by
  cases x with
  | fin q => exact h q
  | nan | ninf | pinf => rfl

end Machine

/-! ## Values of C variables -/

/-- A value that C computes with. -/
inductive Num
  | int (z : Int)
  | fp (x : FP)
deriving DecidableEq

namespace Num

def toFP : Num → FP
  | int z => .fin z
  | fp x => x

def add : Num → Num → Num
  | int a, int b => int (a + b)
  | x, y => fp (x.toFP.add y.toFP)

def mul : Num → Num → Num
  | int a, int b => int (a * b)
  | x, y => fp (x.toFP.mul y.toFP)

def lt : Num → Num → Bool
  | int a, int b => a < b
  | x, y => x.toFP.lt y.toFP

def isNan : Num → Bool
  | int _ => false
  | fp x => x.isNan

def isFinite : Num → Bool
  | int _ => true
  | fp x => x.isFinite

/-- The conversion `(bool) x`. -/
def truth : Num → Bool
  | int z => z ≠ 0
  | fp x => x ≠ .fin 0

/-- Store a value into an element of type `d`. -/
def cell (d : Dtype) : Num → Cell
  | int z => if d.isFloating then .real (.fin z) else .ofInt d z
  | fp x => .real x

end Num

/-- Load an element of type `d`. -/
def Cell.num (d : Dtype) (c : Cell) : Num :=
  if d.isFloating then
    match c with
    | .bits n => .fp (d.decode n)
    | .real x => .fp x
  else .int (c.toInt d)

/-- Assign a value to a variable of type `d`. -/
def Num.assign (d : Dtype) (v : Num) : Num := (v.cell d).num d

/-! ## Integers of a type -/

namespace Dtype

variable {d : Dtype}

/-- The integer that a variable of type `d` holds after `z` is assigned to it. -/
def wrap (d : Dtype) (z : Int) : Int := (Cell.ofInt d z).toInt d

theorem card_pos (d : Dtype) : 0 < d.card := Nat.two_pow_pos _

/-- The patterns of a signed type from the middle on stand for negative numbers. -/
theorem wrap_eq (hd : d ≠ .bool) (z : Int) :
    d.wrap z = if d.isSigned ∧ (d.card / 2 : Nat) ≤ z % d.card then z % d.card - d.card
      else z % d.card := by
  have hCard : (0 : Int) < d.card := Int.natCast_pos.mpr d.card_pos
  have hNonneg := Int.emod_nonneg z hCard.ne'
  have hLt := Int.emod_lt_of_pos z hCard
  have hMod : (z % d.card).toNat % d.card = (z % d.card).toNat := Nat.mod_eq_of_lt (by omega)
  have hCast : ((z % d.card).toNat : Int) = z % d.card := Int.toNat_of_nonneg hNonneg
  have hHalf : d.card / 2 ≤ (z % d.card).toNat ↔ ((d.card / 2 : Nat) : Int) ≤ z % d.card := by
    omega
  simp only [wrap, Cell.ofInt, if_neg hd, Cell.toInt, hMod, hCast, hHalf]

theorem wrap_bool (z : Int) : Dtype.bool.wrap z = if z = 0 then 0 else 1 := by
  by_cases hz : z = 0
  · subst hz
    rfl
  · simp only [wrap, Cell.ofInt, hz, ite_true, ite_false, Cell.toInt]
    decide

theorem wrap_emod (hd : d ≠ .bool) (z : Int) : d.wrap z % d.card = z % d.card := by
  rw [wrap_eq hd]
  by_cases h : d.isSigned ∧ (d.card / 2 : Nat) ≤ z % d.card
  · rw [if_pos h, Int.sub_emod_right, Int.emod_emod]
  · rw [if_neg h, Int.emod_emod]

theorem wrap_congr (hd : d ≠ .bool) {y z : Int} (h : y % d.card = z % d.card) :
    d.wrap y = d.wrap z := by
  rw [wrap_eq hd, wrap_eq hd, h]

theorem wrap_add_left (hd : d ≠ .bool) (y z : Int) : d.wrap (d.wrap y + z) = d.wrap (y + z) :=
  wrap_congr hd (by rw [Int.add_emod, wrap_emod hd, ← Int.add_emod])

theorem wrap_mul_left (hd : d ≠ .bool) (y z : Int) : d.wrap (d.wrap y * z) = d.wrap (y * z) :=
  wrap_congr hd (by rw [Int.mul_emod, wrap_emod hd, ← Int.mul_emod])

theorem wrap_wrap (d : Dtype) (z : Int) : d.wrap (d.wrap z) = d.wrap z := by
  by_cases hd : d = .bool
  · subst hd
    by_cases hz : z = 0 <;> simp [wrap_bool, hz]
  · exact wrap_congr hd (wrap_emod hd z)

/-- The bounds of an integer or boolean type. -/
def lower (d : Dtype) : Int := if d.isSigned then -(d.card / 2 : Nat) else 0

def upper (d : Dtype) : Int :=
  if d = .bool then 1 else if d.isSigned then (d.card / 2 : Nat) - 1 else d.card - 1

theorem card_even (d : Dtype) : 2 * (d.card / 2) = d.card := by cases d <;> rfl

theorem wrap_bounds (d : Dtype) (z : Int) : d.lower ≤ d.wrap z ∧ d.wrap z ≤ d.upper := by
  by_cases hd : d = .bool
  · subst hd
    have hLower : Dtype.bool.lower = 0 := rfl
    have hUpper : Dtype.bool.upper = 1 := rfl
    rw [wrap_bool, hLower, hUpper]
    by_cases hz : z = 0 <;> simp [hz]
  · have hCard : (0 : Int) < d.card := Int.natCast_pos.mpr d.card_pos
    have hNonneg := Int.emod_nonneg z hCard.ne'
    have hLt := Int.emod_lt_of_pos z hCard
    have hEven := d.card_even
    rw [wrap_eq hd, lower, upper, if_neg hd]
    cases hSigned : d.isSigned
    · simp
      omega
    · by_cases hHalf : ((d.card / 2 : Nat) : Int) ≤ z % d.card
      · simp only [true_and, if_pos hHalf, ite_true]
        omega
      · simp only [true_and, if_neg hHalf, ite_true]
        omega

theorem wrap_of_bounds {z : Int} (hLower : d.lower ≤ z) (hUpper : z ≤ d.upper) : d.wrap z = z := by
  by_cases hd : d = .bool
  · subst hd
    have h₀ : (0 : Int) ≤ z := hLower
    have h₁ : z ≤ 1 := hUpper
    rw [wrap_bool]
    split <;> omega
  · have hCard : (0 : Int) < d.card := Int.natCast_pos.mpr d.card_pos
    have hEven := d.card_even
    rw [lower] at hLower
    rw [upper, if_neg hd] at hUpper
    rw [wrap_eq hd]
    cases hSigned : d.isSigned
    · simp only [hSigned, Bool.false_eq_true, ite_false] at hLower hUpper
      rw [if_neg (by simp), Int.emod_eq_of_lt hLower (by omega)]
    · simp only [hSigned, ite_true] at hLower hUpper
      rcases Int.lt_or_le z 0 with hz | hz
      · have hMod : z % d.card = z + d.card := by
          rw [← Int.add_emod_right, Int.emod_eq_of_lt (by omega) (by omega)]
        rw [hMod, if_pos ⟨rfl, by omega⟩]
        omega
      · rw [Int.emod_eq_of_lt hz (by omega), if_neg (by omega)]

end Dtype

/-! ## Values of a type -/

/-- A value that a variable of type `d` can hold. -/
def Num.Of (d : Dtype) : Num → Prop
  | int z => d.isFloating = false ∧ d.wrap z = z
  | fp _ => d.isFloating = true

namespace Num

variable {d : Dtype}

theorem of_fp {x : FP} : (fp x).Of d ↔ d.isFloating = true := Iff.rfl

theorem assign_floating (hd : d.isFloating = true) (v : Num) : v.assign d = fp v.toFP := by
  cases v <;> simp [assign, cell, Cell.num, hd, toFP]

theorem assign_int (hd : d.isFloating = false) (z : Int) : (int z).assign d = int (d.wrap z) := by
  simp [assign, cell, Cell.num, hd, Dtype.wrap]

/-- A value of the type survives being stored and loaded. -/
theorem Of.assign {v : Num} (h : v.Of d) : v.assign d = v := by
  cases v with
  | int z => rw [assign_int h.1, h.2]
  | fp x => exact assign_floating h _

theorem of_floating {v : Num} (hd : d.isFloating = true) (h : v.Of d) : ∃ x, v = fp x := by
  cases v with
  | int z => exact absurd h.1 (by simp [hd])
  | fp x => exact ⟨x, rfl⟩

theorem of_integral {v : Num} (hd : d.isFloating = false) (h : v.Of d) :
    ∃ z, v = int z ∧ d.wrap z = z := by
  cases v with
  | int z => exact ⟨z, rfl, h.2⟩
  | fp x => exact absurd (of_fp.mp h) (by simp [hd])

end Num

/-- The pattern of an element, read as an integer, is one of its type. -/
theorem Cell.wrap_toInt {d : Dtype} (hd : d.isFloating = false) (c : Cell) :
    d.wrap (c.toInt d) = c.toInt d := by
  cases c with
  | real x =>
    simp only [Cell.toInt]
    exact Dtype.wrap_of_bounds (by cases d <;> decide) (by cases d <;> decide)
  | bits n =>
    by_cases hBool : d = .bool
    · subst hBool
      rw [Dtype.wrap_bool]
      simp only [Cell.toInt, ite_true]
      split <;> split <;> simp_all
    · have hCell : Cell.toInt d (.bits n) = d.wrap n := by
        rw [Dtype.wrap_eq hBool]
        simp only [Cell.toInt, if_neg hBool]
        norm_cast
      rw [hCell, Dtype.wrap_wrap]

theorem Cell.num_of (d : Dtype) (c : Cell) : (c.num d).Of d := by
  cases hd : d.isFloating
  · have hNum : c.num d = .int (c.toInt d) := by simp [Cell.num, hd]
    rw [hNum]
    exact ⟨hd, Cell.wrap_toInt hd c⟩
  · cases c <;> simp [Cell.num, hd, Num.Of]

end IronArray
