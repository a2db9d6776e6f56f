import IronArray.Grid.Strides
import Mathlib.Algebra.BigOperators.Ring.List

/-!
# Indices in machine words

The positions of a box as signed 64-bit words. Reading a number as a word commutes with sums and
products whatever their size, and with quotients and remainders when the numbers fit.
-/

namespace Grid

/-- The numbers of a list as words. -/
def words (ns : List Nat) : List Int64 := ns.map Int64.ofNat

@[simp] theorem words_nil : words [] = [] := rfl

@[simp] theorem words_cons (n : Nat) (ns : List Nat) :
    words (n :: ns) = Int64.ofNat n :: words ns := rfl

@[simp] theorem length_words (ns : List Nat) : (words ns).length = ns.length := List.length_map _

/-- A list of words that are not negative comes from numbers that fit. -/
theorem exists_words {ws : List Int64} (h : ∀ w ∈ ws, 0 ≤ w) :
    ∃ ns : List Nat, ws = words ns ∧ ∀ n ∈ ns, n < 2 ^ 63 := by
  induction ws with
  | nil => exact ⟨[], rfl, nofun⟩
  | cons w ws ih =>
    rw [List.forall_mem_cons] at h
    obtain ⟨ns, rfl, hn⟩ := ih h.2
    refine ⟨w.toNatClampNeg :: ns, ?_, List.forall_mem_cons.mpr ⟨w.toNatClampNeg_lt, hn⟩⟩
    rw [words_cons, Int64.ofNat_toNatClampNeg w h.1]

theorem ofNat_ne_zero {n : Nat} (hPos : 0 < n) (hFits : n < 2 ^ 63) : Int64.ofNat n ≠ 0 := by
  intro h
  have hNat := congrArg Int64.toNatClampNeg h
  rw [Int64.toNatClampNeg_ofNat_of_lt hFits] at hNat
  exact hPos.ne' hNat

theorem getD_words (parts : List Nat) (i : Nat) :
    (words parts).getD i 0 = Int64.ofNat (parts.getD i 0) := by
  rw [words, List.getD, List.getElem?_map, List.getD]
  cases parts[i]? <;> rfl

theorem words_set (parts : List Nat) (i p : Nat) :
    (words parts).set i (Int64.ofNat p) = words (parts.set i p) := by
  rw [words, words, List.map_set]

theorem ofNat_eq_one {n : Nat} (hn : n < 2 ^ 63) : Int64.ofNat n = 1 ↔ n = 1 := by
  constructor
  · intro h
    have hNat := congrArg Int64.toNatClampNeg h
    rwa [Int64.toNatClampNeg_ofNat_of_lt hn] at hNat
  · rintro rfl
    rfl

theorem ofNat_lt_ofInt {z : Int} (hz : -2 ^ 63 ≤ z ∧ z < 2 ^ 63) {n : Nat} (hn : n < 2 ^ 63) :
    Int64.ofNat n < Int64.ofInt z ↔ (n : Int) < z := by
  rw [Int64.lt_iff_toInt_lt, Int64.toInt_ofNat_of_lt hn, Int64.toInt_ofInt_of_le hz.1 hz.2]

theorem ofNat_le_ofInt {z : Int} (hz : -2 ^ 63 ≤ z ∧ z < 2 ^ 63) {n : Nat} (hn : n < 2 ^ 63) :
    Int64.ofNat n ≤ Int64.ofInt z ↔ (n : Int) ≤ z := by
  rw [Int64.le_iff_toInt_le, Int64.toInt_ofNat_of_lt hn, Int64.toInt_ofInt_of_le hz.1 hz.2]

/-! ## Powers of two -/

theorem toInt_two_pow {k : Nat} (hk : k < 63) : (Int64.ofNat (2 ^ k)).toInt = 2 ^ k := by
  rw [Int64.toInt_ofNat_of_lt (Nat.pow_lt_pow_right (by decide) hk)]
  exact Nat.cast_pow 2 k

theorem ofNat_two_pow_63 : Int64.ofNat (2 ^ 63) = Int64.minValue := by decide

/-- From 2 to the 64th on nothing of a power is left. -/
theorem ofNat_two_pow_of_le {k : Nat} (hk : 64 ≤ k) : Int64.ofNat (2 ^ k) = 0 := by
  obtain ⟨d, rfl⟩ := Nat.exists_eq_add_of_le hk
  have hNone : Int64.ofNat (2 ^ 64) = 0 := by decide
  rw [pow_add, Int64.ofNat_mul, hNone, Int64.zero_mul]

/-- No power of two is above the 62nd. -/
theorem toInt_two_pow_le (k : Nat) : (Int64.ofNat (2 ^ k)).toInt ≤ 2 ^ 62 := by
  rcases Nat.lt_trichotomy k 63 with hk | rfl | hk
  · rw [toInt_two_pow hk]
    exact_mod_cast Nat.pow_le_pow_right (by decide) (Nat.le_of_lt_succ hk)
  · rw [ofNat_two_pow_63]
    decide
  · rw [ofNat_two_pow_of_le hk]
    decide

/-! ## Boxes -/

/-- The product of the numbers that the words stand for. -/
def wordProd (ws : List Int64) : Int := (ws.map Int64.toInt).prod

theorem wordProd_words {ns : List Nat} (h : ∀ n ∈ ns, n < 2 ^ 63) :
    wordProd (words ns) = (ns.prod : Nat) := by
  induction ns with
  | nil => rfl
  | cons n ns ih =>
    rw [List.forall_mem_cons] at h
    rw [wordProd, words_cons, List.map_cons, List.prod_cons, Int64.toInt_ofNat_of_lt h.1,
      List.prod_cons, Nat.cast_mul, ← ih h.2]
    rfl

/-- Every word of the index is below the length of its axis. -/
def WordsInBox (is ns : List Int64) : Prop := List.Forall₂ (fun i n => 0 ≤ i ∧ i < n) is ns

theorem wordsInBox_words {is ns : List Nat} (hi : ∀ i ∈ is, i < 2 ^ 63) (hn : ∀ n ∈ ns, n < 2 ^ 63) :
    WordsInBox (words is) (words ns) ↔ InBox is ns := by
  rw [WordsInBox, words, words, List.forall₂_map_left_iff, List.forall₂_map_right_iff]
  induction is generalizing ns with
  | nil => cases ns <;> simp [InBox]
  | cons i is ih =>
    cases ns with
    | nil => simp
    | cons n ns =>
      rw [List.forall_mem_cons] at hi hn
      rw [List.forall₂_cons, inBox_cons, ih hi.2 hn.2, Int64.ofNat_lt_iff_lt hi.1 hn.1]
      have hZero : (0 : Int64) ≤ Int64.ofNat i :=
        (Int64.ofNat_le_iff_le (by decide) hi.1).mpr i.zero_le
      simp [hZero]

theorem wordsInBox_of_inBox {is ns : List Nat} (h : InBox is ns) (hn : ∀ n ∈ ns, n < 2 ^ 63) :
    WordsInBox (words is) (words ns) := by
  have hLe : List.Forall₂ (· ≤ ·) is ns := List.Forall₂.imp (fun _ _ hLt => Nat.le_of_lt hLt) h
  exact (wordsInBox_words (lt_of_forall₂ hLe hn) hn).mpr h

/-- The indices of a box of words come from indices of the box of numbers. -/
theorem WordsInBox.exists_words {is : List Int64} {ns : List Nat} (hn : ∀ n ∈ ns, n < 2 ^ 63)
    (h : WordsInBox is (words ns)) : ∃ js : List Nat, is = words js ∧ InBox js ns := by
  have hNonneg : ∀ i ∈ is, 0 ≤ i := by
    intro i hi
    obtain ⟨k, hk, rfl⟩ := List.getElem_of_mem hi
    exact (h.get hk (h.length_eq ▸ hk)).1
  obtain ⟨js, rfl, hj⟩ := Grid.exists_words hNonneg
  exact ⟨js, rfl, (wordsInBox_words hj hn).mp h⟩

end Grid
