import IronArray.Settings.Halving
import Mathlib.Algebra.BigOperators.Ring.List
import Mathlib.Algebra.Ring.Nat
import Mathlib.Data.Nat.Find

/-!
# When the advice on partitions is usable

`boxed_optim_partition` in closed form: the size at which its search stops, the axis that the loop
below `out` halves once more, and the quarter that it takes of a single axis for the BTune.
`partitionAdvice_usable_iff` says for which requests every advice keeps inside the shape and the
maxima.
-/

namespace IronArray.Partition

/-! ## The float comparison -/

theorem two_pow_le_toFloat {e n : Nat} (h : 2 ^ e ≤ n) : 2 ^ e ≤ toFloat n := by
  rw [toFloat]
  split
  next => exact h
  next hlarge =>
    have hn : n ≠ 0 := by omega
    have hlog : 2 ^ e ≤ 2 ^ Nat.log2 n :=
      Nat.pow_le_pow_right (by decide) ((Nat.le_log2 hn).mpr h)
    have h24 : 24 ≤ Nat.log2 n := (Nat.le_log2 hn).mpr (by omega)
    have hunit : 2 ^ Nat.log2 n ≤ n / 2 ^ (Nat.log2 n - 23) * 2 ^ (Nat.log2 n - 23) := by
      have hq : 2 ^ 23 ≤ n / 2 ^ (Nat.log2 n - 23) := by
        rw [Nat.le_div_iff_mul_le (Nat.two_pow_pos _), ← pow_add]
        rw [show 23 + (Nat.log2 n - 23) = Nat.log2 n by omega]
        exact Nat.log2_self_le hn
      calc 2 ^ Nat.log2 n = 2 ^ 23 * 2 ^ (Nat.log2 n - 23) := by
            rw [← pow_add, show 23 + (Nat.log2 n - 23) = Nat.log2 n by omega]
        _ ≤ _ := Nat.mul_le_mul_right _ hq
    dsimp only
    split
    next => exact hlog.trans (hunit.trans (Nat.mul_le_mul_right _ (Nat.le_succ _)))
    next => exact hlog.trans hunit

/-- An axis of at least two parts is not too close. -/
theorem tooClose_eq_false {n e : Nat} (h : 2 * 2 ^ e ≤ n) : tooClose n (2 ^ e) = false := by
  have hle := two_pow_le_toFloat (e := e) (n := n - 2 ^ e) (by omega)
  rw [tooClose, decide_eq_false_iff_not, Nat.not_lt]
  have := Nat.mul_le_mul_right (2 ^ 55) hle
  omega

/-! ## The search in closed form -/

/-- The exponents of the nearest powers of two. -/
def exponents (shape : List Nat) : List Nat := shape.map Nat.log2

@[simp] theorem length_exponents (shape : List Nat) : (exponents shape).length = shape.length := by
  simp [exponents]

theorem getD_exponents (shape : List Nat) (i : Nat) :
    (exponents shape).getD i 0 = Nat.log2 (shape.getD i 0) := by
  by_cases h : i < shape.length
  · simp [exponents, List.getD, h]
  · simp [exponents, List.getD, h, Nat.log2_zero]

theorem exponents_powers (es : List Nat) : exponents (powers es) = es := by
  induction es with
  | nil => rfl
  | cons e es ih =>
    rw [powers_cons, exponents, List.map_cons, Nat.log2_two_pow]
    exact congrArg (e :: ·) ih

namespace Limits

variable (L : Limits) (shape : List Nat)

/-- The parts hold the largest power of two that stops the search. -/
def stopExponent : Nat :=
  min (exponents shape).sum (Nat.log2 (L.stopBound.toNat / L.itemsize))

def stopSize : Nat := L.itemsize * 2 ^ L.stopExponent shape

/-- The search neither overflows nor runs on for ever. -/
def Searches : Prop :=
  shape ≠ [] ∧ (∀ n ∈ shape, n < 2 ^ 62) ∧
    L.itemsize * 2 ^ (exponents shape).sum ≤ int64Max ∧ (L.itemsize : Int) ≤ L.stopBound

/-- The search stops at `out` with more than half of the maximum. -/
def Corrects : Prop :=
  L.minsize ≤ L.stopSize shape ∧ L.maxsize.tdiv 2 < L.stopSize shape

instance : Decidable (L.Corrects shape) := inferInstanceAs (Decidable (_ ∧ _))

/-- The search leaves axis `i` alone, and its nearest power of two is too close to the shape. -/
def CloseAt (i : Nat) : Prop :=
  (exponents shape).getD i 0 ≠ 0 ∧
    tooClose (shape.getD i 0) (2 ^ (exponents shape).getD i 0) = true ∧
    (exponents shape).sum ≤ L.stopExponent shape + before (exponents shape) i

instance (i : Nat) : Decidable (L.CloseAt shape i) := inferInstanceAs (Decidable (_ ∧ _))

/-- Whether the loop below `out` halves one of the first axes. -/
def HalvesBefore (ndim : Nat) : Prop := L.Corrects shape ∧ ∃ i, i < ndim ∧ L.CloseAt shape i

instance (ndim : Nat) : Decidable (L.HalvesBefore shape ndim) :=
  inferInstanceAs (Decidable (_ ∧ _))

/-- The size that is compared with two gigabytes: it leaves a halving of the last axis out. -/
def checkedSize : Nat :=
  if L.HalvesBefore shape (shape.length - 1) then L.stopSize shape / 2 else L.stopSize shape

def halvedExponent : Nat :=
  if L.HalvesBefore shape shape.length then L.stopExponent shape - 1 else L.stopExponent shape

/-- A single axis is quartered for the BTune. -/
def Quarters : Prop :=
  L.btune = true ∧ shape.length = 1 ∧ L.Corrects shape ∧ L.stopExponent shape ≠ 0 ∧
    shape.getD 0 0 < 2 ^ L.halvedExponent shape * 4

instance : Decidable (L.Quarters shape) := inferInstanceAs (Decidable (_ ∧ _))

/-- The number of elements of a part. -/
def product : Nat :=
  if L.Quarters shape then 2 ^ L.halvedExponent shape / 4 else 2 ^ L.halvedExponent shape

/-- The search stops below the minimum and above the maximum. -/
def Overshoots : Prop := L.maxsize < L.stopSize shape

variable {L shape}

theorem le_stopBound_iff (hw : 0 < L.itemsize) (hb : (L.itemsize : Int) ≤ L.stopBound) (k : Nat) :
    ((L.itemsize * 2 ^ k : Nat) : Int) ≤ L.stopBound ↔
      k ≤ Nat.log2 (L.stopBound.toNat / L.itemsize) := by
  have hq : L.stopBound.toNat / L.itemsize ≠ 0 := by
    apply Nat.ne_of_gt
    exact Nat.div_pos (by omega) hw
  rw [Nat.le_log2 hq, Nat.le_div_iff_mul_le hw, mul_comm, Int.le_toNat (by omega)]

theorem Stopped.sum_eq {es : List Nat} (h : L.Stopped (exponents shape) es)
    (hw : 0 < L.itemsize) : es.sum = L.stopExponent shape := by
  have hb : (L.itemsize : Int) ≤ L.stopBound := by
    have := Nat.le_mul_of_pos_right L.itemsize (Nat.two_pow_pos es.sum)
    have := h.fits
    omega
  have hfits := (le_stopBound_iff hw hb _).mp h.fits
  rw [stopExponent]
  rcases h.last with hlast | hlast
  · omega
  · have := mt (le_stopBound_iff hw hb _).mpr (Int.not_le.mpr hlast)
    have := h.sum_le
    omega

/-! ## The loop below `out` -/

/-- The axis is halved when the loop comes to it. -/
def Close (shape es : List Nat) (i : Nat) : Prop :=
  es.getD i 0 ≠ 0 ∧ tooClose (shape.getD i 0) (2 ^ es.getD i 0) = true

theorem Stopped.close_iff {es : List Nat} (h : L.Stopped (exponents shape) es)
    (hw : 0 < L.itemsize) (i : Nat) : Close shape es i ↔ L.CloseAt shape i := by
  rw [Close, CloseAt, ← h.sum_eq hw]
  constructor
  · rintro ⟨hz, hclose⟩
    have hle := h.le i
    have hne : (exponents shape).getD i 0 ≠ 0 := by omega
    have heq : es.getD i 0 = (exponents shape).getD i 0 := by
      by_contra hlt
      have hn : shape.getD i 0 ≠ 0 := by
        intro h0
        rw [getD_exponents, h0, Nat.log2_zero] at hne
        exact hne rfl
      have hp : 2 * 2 ^ es.getD i 0 ≤ shape.getD i 0 := by
        rw [mul_comm, ← pow_succ]
        apply (Nat.le_log2 hn).mp
        rw [← getD_exponents]
        omega
      rw [tooClose_eq_false hp] at hclose
      exact Bool.false_ne_true hclose
    exact ⟨hne, heq ▸ hclose, (h.alone i hne).mp heq⟩
  · rintro ⟨hne, hclose, hsum⟩
    have heq := (h.alone i hne).mpr hsum
    rw [heq]
    exact ⟨hne, hclose⟩

variable {es : List Nat} {i left : Nat}

theorem correct_break (hi : i < es.length) (hmax : L.itemsize * 2 ^ es.sum ≤ int64Max)
    (hb : ((L.itemsize * 2 ^ es.sum : Nat) : Int) < L.minsize ∨
      ((L.itemsize * 2 ^ es.sum : Nat) : Int) ≤ L.maxsize.tdiv 2) (size : Nat) :
    L.correct shape (left + 1) i (powers es) size = pure (L.itemsize * 2 ^ es.sum, powers es) := by
  have hne : es ≠ [] := List.ne_nil_of_length_pos (Nat.zero_lt_of_lt hi)
  rw [correct, L.partsize_powers hne, if_pos hmax, pure_bind]
  by_cases hmin : ((L.itemsize * 2 ^ es.sum : Nat) : Int) < L.minsize
  · rw [if_pos hmin]
  · rw [if_neg hmin, if_pos (hb.resolve_left hmin)]

theorem correct_round (hi : i < es.length) (hmax : L.itemsize * 2 ^ es.sum ≤ int64Max)
    (hmin : L.minsize ≤ (L.itemsize * 2 ^ es.sum : Nat))
    (hhalf : L.maxsize.tdiv 2 < (L.itemsize * 2 ^ es.sum : Nat))
    (hq : ¬ (L.btune = true ∧ shape.length = 1)) (size : Nat) :
    (¬ Close shape es i → L.correct shape (left + 1) i (powers es) size =
      L.correct shape left (i + 1) (powers es) (L.itemsize * 2 ^ es.sum)) ∧
    (Close shape es i → L.correct shape (left + 1) i (powers es) size =
      L.correct shape left (i + 1) (powers (lower i es)) (L.itemsize * 2 ^ es.sum)) := by
  have hne : es ≠ [] := List.ne_nil_of_length_pos (Nat.zero_lt_of_lt hi)
  rw [correct, L.partsize_powers hne, if_pos hmax, pure_bind, if_neg (Int.not_lt.mpr hmin),
    if_neg (Int.not_le.mpr hhalf)]
  by_cases hz : es.getD i 0 = 0
  · rw [if_pos (by rw [getD_powers hi, hz]; rfl)]
    exact ⟨fun _ => rfl, fun hc => absurd hz hc.1⟩
  · have h1 : (powers es).getD i 0 ≠ 1 := by
      rw [getD_powers hi]
      exact (Nat.one_lt_two_pow hz).ne'
    rw [if_neg h1, split, if_neg hq, pure_bind]
    constructor
    · intro hc
      have hfar : ¬ tooClose (shape.getD i 0) ((powers es).getD i 0) = true := by
        rw [getD_powers hi]
        exact fun h => hc ⟨hz, h⟩
      rw [if_neg hfar, set_getD]
    · intro hc
      have hclose : tooClose (shape.getD i 0) ((powers es).getD i 0) = true := by
        rw [getD_powers hi]
        exact hc.2
      rw [if_pos hclose, powers_halve hi hz]

/-- No axis is halved. -/
theorem correct_far (hi : i + left = es.length) (hmax : L.itemsize * 2 ^ es.sum ≤ int64Max)
    (hmin : L.minsize ≤ (L.itemsize * 2 ^ es.sum : Nat))
    (hhalf : L.maxsize.tdiv 2 < (L.itemsize * 2 ^ es.sum : Nat))
    (hq : ¬ (L.btune = true ∧ shape.length = 1)) (hfar : ∀ j, i ≤ j → ¬ Close shape es j) :
    L.correct shape left i (powers es) (L.itemsize * 2 ^ es.sum) =
      pure (L.itemsize * 2 ^ es.sum, powers es) := by
  induction left generalizing i with
  | zero => rfl
  | succ left ih =>
    rw [(correct_round (by omega) hmax hmin hhalf hq _).1 (hfar i le_rfl)]
    exact ih (by omega) fun j hj => hfar j (by omega)

/-- The first axis that is too close is halved, and the loop ends. -/
theorem correct_close (hi : i + left = es.length) (hmax : L.itemsize * 2 ^ es.sum ≤ int64Max)
    (hmin : L.minsize ≤ (L.itemsize * 2 ^ es.sum : Nat))
    (hhalf : L.maxsize.tdiv 2 < (L.itemsize * 2 ^ es.sum : Nat))
    (hle : ((L.itemsize * 2 ^ es.sum : Nat) : Int) ≤ L.maxsize)
    (hq : ¬ (L.btune = true ∧ shape.length = 1)) {j : Nat} (hj : i ≤ j) (hclose : Close shape es j)
    (hfirst : ∀ k, i ≤ k → k < j → ¬ Close shape es k) (size : Nat) :
    L.correct shape left i (powers es) size =
      pure (if j + 1 < es.length then L.itemsize * 2 ^ es.sum / 2 else L.itemsize * 2 ^ es.sum,
        powers (lower j es)) := by
  have hlen := lt_of_getD_ne_zero hclose.1
  induction left generalizing i size with
  | zero => omega
  | succ left ih =>
    rcases Nat.lt_or_eq_of_le hj with hlt | rfl
    · rw [(correct_round (by omega) hmax hmin hhalf hq _).1 (hfirst i le_rfl hlt)]
      exact ih (by omega) hlt (fun k hk => hfirst k (by omega)) _
    · rw [(correct_round (by omega) hmax hmin hhalf hq _).2 hclose]
      cases left with
      | zero => rw [if_neg (by omega)]; rfl
      | succ left =>
        have hs := sum_lower hclose.1
        have hhalve : L.itemsize * 2 ^ (lower i es).sum = L.itemsize * 2 ^ es.sum / 2 := by
          rw [← hs, pow_succ, ← mul_assoc, Nat.mul_div_cancel _ (by decide)]
        have hb : ((L.itemsize * 2 ^ (lower i es).sum : Nat) : Int) ≤ L.maxsize.tdiv 2 := by
          rw [hhalve, Int.tdiv_eq_ediv_of_nonneg (by omega)]
          omega
        rw [correct_break (by rw [length_lower]; omega) (by omega) (Or.inr hb), if_pos (by omega),
          hhalve]

/-! ## The parts -/

/-- What one search gives. -/
structure Gives (L : Limits) (shape parts : List Nat) : Prop where
  length : parts.length = shape.length
  le : ∀ j, parts.getD j 0 ≤ max (shape.getD j 0) 1
  prod : parts.prod = L.product shape
  powers : L.product shape ≠ 0 → ∃ es, parts = powers es

theorem gives_powers (hlen : es.length = shape.length)
    (hle : ∀ j, es.getD j 0 ≤ (exponents shape).getD j 0) (hp : L.product shape = 2 ^ es.sum) :
    L.Gives shape (powers es) := by
  refine ⟨by rw [length_powers, hlen], ?_, by rw [prod_powers, hp], fun _ => ⟨es, rfl⟩⟩
  intro j
  by_cases hj : j < es.length
  · rw [getD_powers hj]
    have h := Nat.pow_le_pow_right (n := 2) (by decide) (hle j)
    rw [getD_exponents] at h
    rcases Nat.eq_zero_or_pos (shape.getD j 0) with hz | hpos
    · rw [hz, Nat.log2_zero] at h
      exact h.trans (le_max_right _ _)
    · exact (h.trans (Nat.log2_self_le hpos.ne')).trans (le_max_left _ _)
  · simp [List.getD, hj]

theorem atOut2_eq_pure {size : Nat} (hpos : 0 < size) (parts q : List Nat) :
    atOut2 size parts = pure q ↔ size ≤ int32Max ∧ parts = q := by
  rw [atOut2]
  split
  next h => simp [throw_ne_pure, Nat.not_le.mpr h]
  next h => rw [if_neg hpos.ne', pure_inj, and_iff_right (Nat.le_of_not_lt h)]

theorem not_halvesBefore (h : ¬ L.Corrects shape) (m : Nat) : ¬ L.HalvesBefore shape m :=
  fun hb => h hb.1

theorem Stopped.halvesBefore_iff (h : L.Stopped (exponents shape) es) (hw : 0 < L.itemsize)
    (hc : L.Corrects shape) (m : Nat) :
    L.HalvesBefore shape m ↔ ∃ i, i < m ∧ Close shape es i := by
  rw [HalvesBefore, and_iff_right hc]
  simp only [h.close_iff hw]

/-- The search ends without a correction. -/
theorem product_of_not_corrects (h : ¬ L.Corrects shape) :
    L.product shape = 2 ^ L.stopExponent shape ∧ L.checkedSize shape = L.stopSize shape := by
  have hq : ¬ L.Quarters shape := fun hq => h hq.2.2.1
  rw [product, checkedSize, halvedExponent, if_neg hq, if_neg (not_halvesBefore h _),
    if_neg (not_halvesBefore h _)]
  exact ⟨rfl, rfl⟩

theorem Stopped.stopSize_eq (h : L.Stopped (exponents shape) es) (hw : 0 < L.itemsize) :
    L.stopSize shape = L.itemsize * 2 ^ es.sum := by
  rw [stopSize, h.sum_eq hw]

/-- The loop below `out` where no single axis is quartered. -/
theorem correct_boxed (h : L.Stopped (exponents shape) es) (hw : 0 < L.itemsize)
    (hmax : L.itemsize * 2 ^ es.sum ≤ int64Max) (hc : L.Corrects shape)
    (hle : ((L.itemsize * 2 ^ es.sum : Nat) : Int) ≤ L.maxsize)
    (hq : ¬ (L.btune = true ∧ shape.length = 1)) :
    ∃ ds, L.Gives shape (Partition.powers ds) ∧
      L.correct shape shape.length 0 (Partition.powers es) (L.itemsize * 2 ^ es.sum) =
        pure (L.checkedSize shape, Partition.powers ds) := by
  have hlen : es.length = shape.length := by rw [h.length, length_exponents]
  have hsize := h.stopSize_eq hw
  have hmin : L.minsize ≤ (L.itemsize * 2 ^ es.sum : Nat) := hsize ▸ hc.1
  have hhalf : L.maxsize.tdiv 2 < (L.itemsize * 2 ^ es.sum : Nat) := hsize ▸ hc.2
  have hprod : L.product shape = 2 ^ L.halvedExponent shape :=
    if_neg fun hquarters => hq ⟨hquarters.1, hquarters.2.1⟩
  by_cases hany : ∃ j, Close shape es j
  · classical
    have hclose := Nat.find_spec hany
    have hfirst : ∀ k, 0 ≤ k → k < Nat.find hany → ¬ Close shape es k :=
      fun k _ hk => Nat.find_min hany hk
    have hj := lt_of_getD_ne_zero hclose.1
    have hsum := sum_lower hclose.1
    have hhalves : L.HalvesBefore shape shape.length :=
      (h.halvesBefore_iff hw hc _).mpr ⟨_, hlen ▸ hj, hclose⟩
    have hlast : L.HalvesBefore shape (shape.length - 1) ↔ Nat.find hany + 1 < es.length := by
      rw [h.halvesBefore_iff hw hc]
      constructor
      · rintro ⟨i, hi, hci⟩
        have := Nat.find_min' hany hci
        omega
      · intro hlt
        exact ⟨_, by omega, hclose⟩
    refine ⟨lower (Nat.find hany) es, gives_powers ?_ ?_ ?_, ?_⟩
    · rw [length_lower, hlen]
    · intro j
      have := h.le j
      rw [getD_lower]
      split_ifs <;> omega
    · rw [hprod, halvedExponent, if_pos hhalves, ← h.sum_eq hw, ← hsum, Nat.add_sub_cancel]
    · rw [correct_close (by omega) hmax hmin hhalf hle hq (Nat.zero_le _) hclose hfirst,
        checkedSize, hsize]
      simp only [hlast]
  · have hfar : ∀ m, ¬ L.HalvesBefore shape m := by
      intro m hm
      obtain ⟨j, _, hj⟩ := (h.halvesBefore_iff hw hc m).mp hm
      exact hany ⟨j, hj⟩
    refine ⟨es, gives_powers hlen h.le ?_, ?_⟩
    · rw [hprod, halvedExponent, if_neg (hfar _), h.sum_eq hw]
    · rw [correct_far (by omega) hmax hmin hhalf hq (fun j _ hj => hany ⟨j, hj⟩), checkedSize,
        if_neg (hfar _), hsize]

/-- The loop below `out` for a single axis under the BTune. -/
theorem correct_single {n e : Nat} (h : L.Stopped (exponents [n]) [e]) (hw : 0 < L.itemsize)
    (hmax : L.itemsize * 2 ^ e ≤ int64Max) (hc : L.Corrects [n]) (hb : L.btune = true) :
    (L.correct [n] 1 0 (Partition.powers [e]) (L.itemsize * 2 ^ e) = throw .overflow ∧
        int32Max < L.itemsize * 2 ^ e) ∨
      L.correct [n] 1 0 (Partition.powers [e]) (L.itemsize * 2 ^ e) =
        pure (L.itemsize * 2 ^ e, [L.product [n]]) := by
  have hstop : L.stopExponent [n] = e := by rw [← h.sum_eq hw, List.sum_singleton]
  have hsize : L.stopSize [n] = L.itemsize * 2 ^ e := by rw [stopSize, hstop]
  have hpart : L.partsize (Partition.powers [e]) = pure (L.itemsize * 2 ^ e) := by
    rw [L.partsize_powers (List.cons_ne_nil _ _), List.sum_singleton, if_pos hmax]
  have hclose : L.HalvesBefore [n] [n].length ↔ e ≠ 0 ∧ tooClose n (2 ^ e) = true := by
    rw [h.halvesBefore_iff hw hc]
    constructor
    · rintro ⟨i, hi, hclose⟩
      obtain rfl : i = 0 := Nat.lt_one_iff.mp hi
      exact hclose
    · intro hclose
      exact ⟨0, Nat.zero_lt_one, hclose⟩
  rw [correct, hpart, pure_bind, ← hsize, if_neg (Int.not_lt.mpr hc.1),
    if_neg (Int.not_le.mpr hc.2)]
  by_cases he : e = 0
  · subst he
    have hq : ¬ L.Quarters [n] := fun hq => hq.2.2.2.1 hstop
    right
    rw [product, if_neg hq, halvedExponent, if_neg fun hh => (hclose.mp hh).1 rfl, hstop]
    rfl
  · have hpow : (if tooClose n (2 ^ e) = true then 2 ^ e / 2 else 2 ^ e) =
        2 ^ L.halvedExponent [n] := by
      rw [halvedExponent, hstop]
      by_cases ht : tooClose n (2 ^ e) = true
      · obtain ⟨d, rfl⟩ := Nat.exists_eq_succ_of_ne_zero he
        rw [if_pos ht, if_pos (hclose.mpr ⟨he, ht⟩), Nat.succ_eq_add_one, pow_succ,
          Nat.mul_div_cancel _ (by decide), Nat.add_sub_cancel]
      · rw [if_neg ht, if_neg fun hh => ht (hclose.mp hh).2]
    have h1 : ¬ (Partition.powers [e]).getD 0 0 = 1 := (Nat.one_lt_two_pow he).ne'
    have hget : (Partition.powers [e]).getD 0 0 = 2 ^ e := rfl
    rw [if_neg h1, split, if_pos ⟨hb, rfl⟩, hget, List.getD_cons_zero, hpow, mul64]
    by_cases hover : 2 ^ L.halvedExponent [n] * 4 ≤ int64Max
    · right
      rw [if_pos hover, pure_bind, pure_bind, product]
      by_cases hlt : n < 2 ^ L.halvedExponent [n] * 4
      · rw [if_pos hlt, if_pos ⟨hb, rfl, hc, by rwa [hstop], hlt⟩]
        rfl
      · rw [if_neg hlt, if_neg fun hq => hlt hq.2.2.2.2]
        rfl
    · left
      refine ⟨by rw [if_neg hover]; rfl, ?_⟩
      have hle : 2 ^ L.halvedExponent [n] ≤ 2 ^ e := by
        apply Nat.pow_le_pow_right (by decide)
        rw [halvedExponent, hstop]
        split <;> omega
      have := Nat.le_mul_of_pos_left (2 ^ e) hw
      rw [hsize]
      rw [int64Max] at hover
      rw [int32Max]
      omega

theorem halvedExponent_le (L : Limits) (shape : List Nat) :
    L.halvedExponent shape ≤ L.stopExponent shape := by
  rw [halvedExponent]
  split <;> omega

theorem product_le_pow (L : Limits) (shape : List Nat) :
    L.product shape ≤ 2 ^ L.halvedExponent shape := by
  rw [product]
  split
  next => exact Nat.div_le_self _ _
  next => exact le_rfl

theorem product_pow (h : L.product shape ≠ 0) : ∃ d, L.product shape = 2 ^ d := by
  rw [product] at h ⊢
  split at h
  next hq =>
    rw [if_pos hq]
    have h2 : 2 ≤ L.halvedExponent shape := by
      by_contra hlt
      have h1 : 2 ^ L.halvedExponent shape ≤ 2 ^ 1 := Nat.pow_le_pow_right (by decide) (by omega)
      exact h (Nat.div_eq_of_lt (lt_of_le_of_lt h1 (by decide)))
    obtain ⟨d, hd⟩ := Nat.exists_eq_add_of_le' h2
    refine ⟨d, ?_⟩
    rw [hd, pow_add]
    exact Nat.mul_div_cancel _ (by decide)
  next hq =>
    rw [if_neg hq]
    exact ⟨_, rfl⟩

theorem product_le (L : Limits) (shape : List Nat) :
    L.itemsize * L.product shape ≤ L.checkedSize shape := by
  refine (Nat.mul_le_mul_left _ (L.product_le_pow shape)).trans ?_
  rw [checkedSize]
  split
  next hhalves =>
    obtain ⟨hc, i, hi, hclose⟩ := hhalves
    have hhalves' : L.HalvesBefore shape shape.length := ⟨hc, i, by omega, hclose⟩
    have hpos : L.stopExponent shape ≠ 0 := by
      intro hz
      have hlt := before_lt (Nat.lt_succ_self i) hclose.1
      have hsum := before_le_sum (exponents shape) i.succ
      have := hclose.2.2
      omega
    obtain ⟨d, hd⟩ := Nat.exists_eq_succ_of_ne_zero hpos
    rw [halvedExponent, if_pos hhalves', stopSize, hd, Nat.succ_eq_add_one, pow_succ, ← mul_assoc,
      Nat.mul_div_cancel _ (by decide), Nat.add_sub_cancel]
  next => exact Nat.mul_le_mul_left _ (Nat.pow_le_pow_right (by decide) (L.halvedExponent_le shape))

theorem gives_single {n : Nat} (h : L.stopExponent [n] ≤ Nat.log2 n) :
    L.Gives [n] [L.product [n]] := by
  refine ⟨rfl, ?_, List.prod_singleton, ?_⟩
  · intro j
    cases j with
    | zero =>
      have hle : L.product [n] ≤ 2 ^ Nat.log2 n :=
        (L.product_le_pow [n]).trans
          (Nat.pow_le_pow_right (by decide) ((L.halvedExponent_le [n]).trans h))
      rcases Nat.eq_zero_or_pos n with rfl | hpos
      · exact hle
      · exact (hle.trans (Nat.log2_self_le hpos.ne')).trans (le_max_left _ _)
    | succ j => exact Nat.zero_le _
  · intro hp
    obtain ⟨d, hd⟩ := product_pow hp
    exact ⟨[d], by rw [hd]; rfl⟩

/-- From the label on, the search gives its parts unless they take more than two gigabytes. -/
theorem goto_eq (h : L.Stopped (exponents shape) es) (hw : 0 < L.itemsize)
    (hmax : L.itemsize * 2 ^ es.sum ≤ int64Max) (hne : shape ≠ []) :
    ∃ parts, L.Gives shape parts ∧ ∀ q,
      L.goto shape (L.label (L.itemsize * 2 ^ es.sum), L.itemsize * 2 ^ es.sum,
        Partition.powers es) = pure q ↔ L.checkedSize shape ≤ int32Max ∧ parts = q := by
  have hlen : es.length = shape.length := by rw [h.length, length_exponents]
  have hsize := h.stopSize_eq hw
  have hpos : 0 < L.itemsize * 2 ^ es.sum := Nat.mul_pos hw (Nat.two_pow_pos _)
  have hlength := List.length_pos_of_ne_nil hne
  by_cases hc : L.Corrects shape
  · have hmin : ¬ ((L.itemsize * 2 ^ es.sum : Nat) : Int) < L.minsize :=
      Int.not_lt.mpr (hsize ▸ hc.1)
    have hle := ((L.le_stopBound _).mp h.fits).resolve_left hmin
    rw [label, if_neg hmin]
    by_cases hq : L.btune = true ∧ shape.length = 1
    · obtain ⟨n, rfl⟩ := List.length_eq_one_iff.mp hq.2
      obtain ⟨e, rfl⟩ := List.length_eq_one_iff.mp (hlen.trans hq.2)
      rw [List.sum_singleton] at hmax hpos ⊢
      have hchecked : L.checkedSize [n] = L.itemsize * 2 ^ e := by
        rw [checkedSize, if_neg, hsize, List.sum_singleton]
        rintro ⟨_, i, hi, _⟩
        exact Nat.not_lt_zero i hi
      refine ⟨[L.product [n]], ?_, ?_⟩
      · apply gives_single
        have hle := h.le 0
        rw [getD_exponents] at hle
        rw [← h.sum_eq hw, List.sum_singleton]
        exact hle
      · intro q
        rw [hchecked, goto]
        rcases correct_single h hw hmax hc hq.1 with ⟨hfail, hlarge⟩ | hok
        · rw [List.length_singleton, hfail]
          exact ⟨fun hp => absurd hp throw_ne_pure, fun hp => absurd hp.1 (Nat.not_le.mpr hlarge)⟩
        · rw [List.length_singleton, hok, pure_bind, atOut2_eq_pure hpos]
    · obtain ⟨ds, hds, hcorrect⟩ := correct_boxed h hw hmax hc hle hq
      have hp : 0 < L.checkedSize shape := by
        apply lt_of_lt_of_le (Nat.mul_pos hw ?_) (L.product_le shape)
        rw [← hds.prod, prod_powers]
        exact Nat.two_pow_pos _
      refine ⟨_, hds, fun q => ?_⟩
      rw [goto, hcorrect, pure_bind, atOut2_eq_pure hp]
  · obtain ⟨hproduct, hchecked⟩ := product_of_not_corrects hc
    refine ⟨Partition.powers es, gives_powers hlen h.le (by rw [hproduct, h.sum_eq hw]), ?_⟩
    intro q
    rw [hchecked, hsize, label]
    by_cases hmin : ((L.itemsize * 2 ^ es.sum : Nat) : Int) < L.minsize
    · rw [if_pos hmin, goto, atOut2_eq_pure hpos]
    · have hhalf : ((L.itemsize * 2 ^ es.sum : Nat) : Int) ≤ L.maxsize.tdiv 2 := by
        by_contra hgt
        exact hc ⟨hsize ▸ Int.not_lt.mp hmin, hsize ▸ Int.not_le.mp hgt⟩
      obtain ⟨left, hleft⟩ := Nat.exists_eq_add_of_le' hlength
      rw [if_neg hmin, goto, hleft, correct_break (by omega) hmax (Or.inr hhalf), pure_bind,
        atOut2_eq_pure hpos]

/-! ## One search -/

theorem mapM_nearest {fuel : Nat} {parts : List Nat}
    (h : shape.mapM (getNearestPower2 fuel) = pure parts) :
    (∀ n ∈ shape, n < 2 ^ 62) ∧ parts = Partition.powers (exponents shape) := by
  have hall := mapM_eq_pure.mp h
  clear h
  induction hall with
  | nil => exact ⟨by simp, rfl⟩
  | @cons n p shape parts hn _ ih =>
    obtain ⟨hlt, rfl⟩ := getNearestPower2_ok hn
    obtain ⟨hall, rfl⟩ := ih
    exact ⟨List.forall_mem_cons.mpr ⟨hlt, hall⟩, rfl⟩

theorem mapM_nearest_runs {fuel : Nat} (hf : 62 ≤ fuel) (h : ∀ n ∈ shape, n < 2 ^ 62) :
    shape.mapM (getNearestPower2 fuel) = pure (Partition.powers (exponents shape)) := by
  rw [mapM_eq_pure, Partition.powers, exponents, List.map_map, List.forall₂_map_right_iff,
    List.forall₂_same]
  exact fun n hn => getNearestPower2_runs (h n hn) hf

theorem shrink_stops {fuel : Nat} {r : Label × Nat × List Nat}
    (hmax : L.itemsize * 2 ^ (exponents shape).sum ≤ int64Max)
    (h : L.shrink fuel 0 (Partition.powers (exponents shape)) = pure r) :
    ∃ es, L.Stopped (exponents shape) es ∧ r =
      (L.label (L.itemsize * 2 ^ es.sum), L.itemsize * 2 ^ es.sum, Partition.powers es) :=
  L.shrink_ok rfl (Nat.zero_le _) (fun _ => le_rfl) le_rfl hmax (Or.inl rfl)
    (Passed.start (exponents shape)) h

theorem boxed_eq_pure {fuel : Nat} {q : List Nat} (hw : 0 < L.itemsize)
    (h : L.boxedOptimPartition fuel shape = pure q) :
    L.Searches shape ∧ L.checkedSize shape ≤ int32Max ∧ L.Gives shape q := by
  rw [boxedOptimPartition] at h
  obtain ⟨parts, hparts, h⟩ := bind_eq_pure.mp h
  obtain ⟨r, hr, h⟩ := bind_eq_pure.mp h
  obtain ⟨hlt, rfl⟩ := mapM_nearest hparts
  have hne : shape ≠ [] := by
    rintro rfl
    exact L.shrink_nil _ _ _ hr
  have hmax := L.size_of_shrink (mt List.map_eq_nil_iff.mp hne) hr
  obtain ⟨es, hes, rfl⟩ := shrink_stops hmax hr
  obtain ⟨parts, hgives, hgoto⟩ := goto_eq hes hw (L.size_lower_le hes.sum_le hmax) hne
  obtain ⟨hchecked, rfl⟩ := (hgoto q).mp h
  have hitem : (L.itemsize : Int) ≤ L.stopBound := by
    have := Nat.le_mul_of_pos_right L.itemsize (Nat.two_pow_pos es.sum)
    have := hes.fits
    omega
  exact ⟨⟨hne, hlt, hmax, hitem⟩, hchecked, hgives⟩

theorem boxed_succeeds (hw : 0 < L.itemsize) (hs : L.Searches shape)
    (hc : L.checkedSize shape ≤ int32Max) :
    ∃ rounds q, ∀ fuel, rounds ≤ fuel → L.boxedOptimPartition fuel shape = pure q := by
  obtain ⟨hne, hlt, hmax, hitem⟩ := hs
  obtain ⟨rounds, r, hr⟩ : L.Ends 0 (exponents shape) :=
    L.ends_of_item hitem (mt List.map_eq_nil_iff.mp hne) hmax
  obtain ⟨es, hes, rfl⟩ := shrink_stops hmax (hr rounds le_rfl)
  obtain ⟨parts, _, hgoto⟩ := goto_eq hes hw (L.size_lower_le hes.sum_le hmax) hne
  refine ⟨max 62 rounds, parts, fun fuel hf => ?_⟩
  rw [boxedOptimPartition, mapM_nearest_runs ((le_max_left _ _).trans hf) hlt, pure_bind,
    hr fuel ((le_max_right _ _).trans hf), pure_bind]
  exact (hgoto parts).mpr ⟨hc, rfl⟩

theorem checkedSize_le (L : Limits) (shape : List Nat) :
    L.checkedSize shape ≤ L.stopSize shape := by
  rw [checkedSize]
  split
  next => exact Nat.div_le_self _ _
  next => exact le_rfl

theorem stopSize_le (L : Limits) (shape : List Nat) :
    L.stopSize shape ≤ L.itemsize * 2 ^ (exponents shape).sum :=
  Nat.mul_le_mul_left _ (Nat.pow_le_pow_right (by decide) (min_le_left _ _))

theorem length_of_product (h : L.product shape = 0) : shape.length = 1 := by
  by_contra hlen
  have hq : ¬ L.Quarters shape := fun hq => hlen hq.2.1
  rw [product, if_neg hq] at h
  exact (Nat.two_pow_pos _).ne' h

theorem Gives.size_le {parts : List Nat} (h : L.Gives shape parts) (ho : ¬ L.Overshoots shape) :
    ((L.itemsize * parts.prod : Nat) : Int) ≤ L.maxsize := by
  have hprod := L.product_le shape
  have hchecked := L.checkedSize_le shape
  rw [Overshoots] at ho
  rw [h.prod]
  omega

/-- A search that stops above its maximum corrects nothing. -/
theorem Gives.size_of_overshoots {parts : List Nat} (h : L.Gives shape parts)
    (hw : 0 < L.itemsize) (hs : L.Searches shape) (ho : L.Overshoots shape) :
    L.itemsize * parts.prod = L.stopSize shape := by
  have hfits : (L.stopSize shape : Int) ≤ L.stopBound :=
    (le_stopBound_iff hw hs.2.2.2 _).mpr (min_le_right _ _)
  have hc : ¬ L.Corrects shape := by
    intro hc
    rcases (L.le_stopBound _).mp hfits with hlt | hle
    · exact absurd hc.1 (Int.not_le.mpr hlt)
    · exact absurd ho (Int.not_lt.mpr hle)
  rw [h.prod, (product_of_not_corrects hc).1, stopSize]

theorem not_overshoots (hw : 0 < L.itemsize) (hb : (L.itemsize : Int) ≤ L.stopBound)
    (h : L.minsize ≤ L.maxsize) : ¬ L.Overshoots shape := by
  have hfits : (L.stopSize shape : Int) ≤ L.stopBound :=
    (le_stopBound_iff hw hb _).mpr (min_le_right _ _)
  rw [stopBound] at hfits
  rw [Overshoots]
  omega

theorem product_ne_zero (h : L.btune = false ∨ shape.length ≠ 1) : L.product shape ≠ 0 := by
  intro hp
  have hlen := length_of_product hp
  have hq : ¬ L.Quarters shape := by
    rintro ⟨hb, _⟩
    rcases h with h | h
    · exact Bool.false_ne_true (h.symm.trans hb)
    · exact h hlen
  rw [product, if_neg hq] at hp
  exact (Nat.two_pow_pos _).ne' hp

theorem Gives.single {parts : List Nat} (h : L.Gives shape parts) (hlen : shape.length = 1) :
    parts = [L.product shape] := by
  obtain ⟨p, rfl⟩ := List.length_eq_one_iff.mp (h.length.trans hlen)
  rw [← h.prod, List.prod_singleton]

theorem Gives.exponents_sum {parts : List Nat} (h : L.Gives shape parts) :
    (exponents parts).sum = Nat.log2 (L.product shape) := by
  by_cases hp : L.product shape = 0
  · rw [h.single (length_of_product hp)]
    rfl
  · obtain ⟨es, rfl⟩ := h.powers hp
    rw [exponents_powers, ← h.prod, prod_powers, Nat.log2_two_pow]

theorem stopSize_congr (L : Limits) {shape shape' : List Nat}
    (h : (exponents shape).sum = (exponents shape').sum) : L.stopSize shape = L.stopSize shape' := by
  rw [stopSize, stopSize, stopExponent, stopExponent, h]

end Limits

/-! ## The advice -/

/-- The parts lie inside the shape and take at most the maxima of the request. -/
structure Usable (cfg : Config) (dtype : Dtype) (shape : List Nat) (sizes : Sizes)
    (chunkshape blockshape : List Nat) : Prop where
  ndim : chunkshape.length = shape.length ∧ blockshape.length = shape.length
  axis : ∀ i, i < shape.length → 1 ≤ blockshape.getD i 0 ∧
    blockshape.getD i 0 ≤ chunkshape.getD i 0 ∧ chunkshape.getD i 0 ≤ max (shape.getD i 0) 1
  blocksize : ((dtype.size * blockshape.prod : Nat) : Int) ≤ sizes.maxBlock cfg
  chunksize : ((dtype.size * chunkshape.prod : Nat) : Int) ≤ sizes.maxChunk cfg
  small : dtype.size * chunkshape.prod ≤ int32Max

/-- Neither search fails, and one of them ends with a length of zero or above its maximum. -/
def Misleads (cfg : Config) (dtype : Dtype) (shape : List Nat) (sizes : Sizes) : Prop :=
  let chunk := sizes.chunkLimits cfg dtype
  let block := sizes.blockLimits cfg dtype (dtype.size * chunk.product shape)
  chunk.Searches shape ∧ chunk.checkedSize shape ≤ int32Max ∧
    (dtype.size : Int) ≤ block.stopBound ∧
    (chunk.product shape = 0 ∨ chunk.Overshoots shape ∨
      block.Overshoots [chunk.product shape] ∨
      (shape.length = 1 ∧ block.product [chunk.product shape] = 0))

section Advice

variable {cfg : Config} {dtype : Dtype} {shape : List Nat} {sizes : Sizes}

theorem getD_of_mem {ns : List Nat} {n : Nat} (h : n ∈ ns) : ∃ i < ns.length, ns.getD i 0 = n := by
  obtain ⟨i, hi, rfl⟩ := List.getElem_of_mem h
  exact ⟨i, hi, by simp [List.getD, hi]⟩

theorem getD_of_prod {ns : List Nat} (h : ns.prod = 0) : ∃ i < ns.length, ns.getD i 0 = 0 :=
  getD_of_mem (List.prod_eq_zero_iff.mp h)

/-- The chunks can be searched for blocks. -/
theorem chunk_searches {chunkshape : List Nat} {block : Limits}
    (hg : (sizes.chunkLimits cfg dtype).Gives shape chunkshape)
    (hs : (sizes.chunkLimits cfg dtype).Searches shape)
    (hc : (sizes.chunkLimits cfg dtype).checkedSize shape ≤ int32Max)
    (hw : block.itemsize = dtype.size) (hb : (dtype.size : Int) ≤ block.stopBound) :
    block.Searches chunkshape ∧ block.checkedSize chunkshape ≤ int32Max := by
  have hbytes : dtype.size * 2 ^ (exponents chunkshape).sum ≤ int32Max := by
    rw [hg.exponents_sum]
    by_cases hp : (sizes.chunkLimits cfg dtype).product shape = 0
    · rw [hp, Nat.log2_zero]
      cases dtype <;> decide
    · have hprod := (sizes.chunkLimits cfg dtype).product_le shape
      exact (Nat.mul_le_mul_left _ (Nat.log2_self_le hp)).trans (hprod.trans hc)
  refine ⟨⟨?_, ?_, ?_, hw ▸ hb⟩, ?_⟩
  · apply List.ne_nil_of_length_pos
    rw [hg.length]
    exact List.length_pos_of_ne_nil hs.1
  · intro c hmem
    obtain ⟨i, hi, rfl⟩ := getD_of_mem hmem
    have hle := hg.le i
    have hn : shape.getD i 0 < 2 ^ 62 := by
      have hi' : i < shape.length := hg.length ▸ hi
      apply hs.2.1
      simp [List.getD, hi']
    omega
  · rw [hw]
    exact hbytes.trans (by decide)
  · apply ((block.checkedSize_le _).trans (block.stopSize_le _)).trans
    rw [hw]
    exact hbytes

theorem chunk_partsize {chunkshape : List Nat}
    (hg : (sizes.chunkLimits cfg dtype).Gives shape chunkshape)
    (hs : (sizes.chunkLimits cfg dtype).Searches shape)
    (hc : (sizes.chunkLimits cfg dtype).checkedSize shape ≤ int32Max) :
    (sizes.chunkLimits cfg dtype).partsize chunkshape =
      pure (dtype.size * (sizes.chunkLimits cfg dtype).product shape) := by
  have hprod := ((sizes.chunkLimits cfg dtype).product_le shape).trans hc
  by_cases hp : (sizes.chunkLimits cfg dtype).product shape = 0
  · rw [hg.single (Limits.length_of_product hp), hp]
    rfl
  · obtain ⟨es, rfl⟩ := hg.powers hp
    have hne : es ≠ [] := by
      apply List.ne_nil_of_length_pos
      rw [← length_powers, hg.length]
      exact List.length_pos_of_ne_nil hs.1
    rw [Limits.partsize_powers _ hne, ← prod_powers, hg.prod]
    exact if_pos (hprod.trans (by decide))

theorem advice_eq_pure {fuel : Nat} {chunkshape blockshape : List Nat}
    (h : iarrayPartitionAdvice fuel cfg dtype shape sizes = pure (chunkshape, blockshape)) :
    let chunk := sizes.chunkLimits cfg dtype
    let block := sizes.blockLimits cfg dtype (dtype.size * chunk.product shape)
    chunk.Searches shape ∧ chunk.checkedSize shape ≤ int32Max ∧ chunk.Gives shape chunkshape ∧
      block.Searches chunkshape ∧ block.Gives chunkshape blockshape := by
  obtain ⟨c, hchunk, h⟩ := bind_eq_pure.mp h
  obtain ⟨size, hsize, h⟩ := bind_eq_pure.mp h
  obtain ⟨b, hblock, h⟩ := bind_eq_pure.mp h
  obtain ⟨rfl, rfl⟩ := Prod.mk.inj (pure_inj.mp h)
  obtain ⟨hs, hc, hg⟩ := Limits.boxed_eq_pure dtype.size_pos hchunk
  rw [chunk_partsize hg hs hc] at hsize
  obtain rfl := pure_inj.mp hsize
  obtain ⟨hs', _, hg'⟩ := Limits.boxed_eq_pure dtype.size_pos hblock
  exact ⟨hs, hc, hg, hs', hg'⟩

theorem advice_succeeds (hs : (sizes.chunkLimits cfg dtype).Searches shape)
    (hc : (sizes.chunkLimits cfg dtype).checkedSize shape ≤ int32Max)
    (hb : (dtype.size : Int) ≤ (sizes.blockLimits cfg dtype
      (dtype.size * (sizes.chunkLimits cfg dtype).product shape)).stopBound) :
    ∃ fuel chunkshape blockshape,
      iarrayPartitionAdvice fuel cfg dtype shape sizes = pure (chunkshape, blockshape) := by
  obtain ⟨rounds, chunkshape, hchunk⟩ := Limits.boxed_succeeds dtype.size_pos hs hc
  obtain ⟨_, _, hg⟩ := Limits.boxed_eq_pure dtype.size_pos (hchunk rounds le_rfl)
  obtain ⟨hs', hc'⟩ := chunk_searches hg hs hc rfl hb
  obtain ⟨rounds', blockshape, hblock⟩ := Limits.boxed_succeeds dtype.size_pos hs' hc'
  refine ⟨max rounds rounds', chunkshape, blockshape, ?_⟩
  rw [iarrayPartitionAdvice, hchunk _ (le_max_left _ _), pure_bind, chunk_partsize hg hs hc,
    pure_bind, hblock _ (le_max_right _ _), pure_bind]

theorem prod_ne_zero {ns : List Nat} (h : ∀ i, i < ns.length → 1 ≤ ns.getD i 0) : ns.prod ≠ 0 := by
  intro hz
  obtain ⟨i, hi, hzero⟩ := getD_of_prod hz
  have := h i hi
  omega

theorem one_le_powers (es : List Nat) {i : Nat} (hi : i < es.length) :
    1 ≤ (powers es).getD i 0 := by
  rw [getD_powers hi]
  exact Nat.one_le_two_pow

/-- Where neither search errs the advice is usable. -/
theorem usable_of_gives {chunk block : Limits} {chunkshape blockshape : List Nat}
    (hchunk : chunk = sizes.chunkLimits cfg dtype)
    (hblock : block = sizes.blockLimits cfg dtype (dtype.size * chunk.product shape))
    (hc : chunk.checkedSize shape ≤ int32Max) (hg : chunk.Gives shape chunkshape)
    (hg' : block.Gives chunkshape blockshape) (hp : chunk.product shape ≠ 0)
    (ho : ¬ chunk.Overshoots shape) (hp' : block.product chunkshape ≠ 0)
    (ho' : ¬ block.Overshoots chunkshape) : Usable cfg dtype shape sizes chunkshape blockshape := by
  have hsize := hg.size_le ho
  have hsize' := hg'.size_le ho'
  have hsmall := (chunk.product_le shape).trans hc
  obtain ⟨es, rfl⟩ := hg.powers hp
  obtain ⟨ds, rfl⟩ := hg'.powers hp'
  have hlen := hg.length
  have hlen' := hg'.length
  rw [length_powers] at hlen
  rw [length_powers, length_powers] at hlen'
  refine ⟨by simp [hlen, hlen'], ?_, ?_, ?_, ?_⟩
  · intro i hi
    have h1 := one_le_powers es (hlen ▸ hi)
    have hle := hg'.le i
    exact ⟨one_le_powers ds (hlen' ▸ hlen ▸ hi), by omega, hg.le i⟩
  · subst hblock
    refine le_trans hsize' ?_
    simp only [Sizes.blockLimits]
    split
    next hlt => exact hlt.le
    next => exact le_rfl
  · subst hchunk
    exact hsize
  · subst hchunk
    rw [hg.prod]
    exact hsmall

/-- A part without elements is not usable. -/
theorem Usable.products {chunkshape blockshape : List Nat}
    (h : Usable cfg dtype shape sizes chunkshape blockshape) :
    chunkshape.prod ≠ 0 ∧ blockshape.prod ≠ 0 := by
  constructor
  · apply prod_ne_zero
    intro i hi
    obtain ⟨h1, h2, _⟩ := h.axis i (h.ndim.1 ▸ hi)
    exact h1.trans h2
  · apply prod_ne_zero
    intro i hi
    exact (h.axis i (h.ndim.2 ▸ hi)).1

/-- The block search depends on the chunkshape through its size, and for a single axis through its
length. -/
theorem block_congr (block : Limits) {chunk : Limits} {chunkshape : List Nat}
    (hg : chunk.Gives shape chunkshape) :
    (block.Overshoots chunkshape ↔ block.Overshoots [chunk.product shape]) ∧
      (block.product chunkshape = 0 ↔
        shape.length = 1 ∧ block.product [chunk.product shape] = 0) := by
  constructor
  · have hsum : (exponents chunkshape).sum = (exponents [chunk.product shape]).sum := by
      rw [hg.exponents_sum]
      exact (List.sum_singleton (x := Nat.log2 _)).symm
    rw [Limits.Overshoots, Limits.Overshoots, block.stopSize_congr hsum]
  · constructor
    · intro hp
      have hlen := hg.length ▸ Limits.length_of_product hp
      rw [hg.single hlen] at hp
      exact ⟨hlen, hp⟩
    · rintro ⟨hlen, hp⟩
      rw [hg.single hlen]
      exact hp

theorem not_usable {chunk block : Limits} {chunkshape blockshape : List Nat}
    (hchunk : chunk = sizes.chunkLimits cfg dtype)
    (hblock : block = sizes.blockLimits cfg dtype (dtype.size * chunk.product shape))
    (hs : chunk.Searches shape) (hg : chunk.Gives shape chunkshape)
    (hs' : block.Searches chunkshape) (hg' : block.Gives chunkshape blockshape)
    (h : chunk.product shape = 0 ∨ chunk.Overshoots shape ∨ block.Overshoots chunkshape ∨
      block.product chunkshape = 0) : ¬ Usable cfg dtype shape sizes chunkshape blockshape := by
  intro hu
  have hw : 0 < chunk.itemsize := hchunk ▸ dtype.size_pos
  have hw' : 0 < block.itemsize := hblock ▸ dtype.size_pos
  obtain ⟨hc, hb⟩ := hu.products
  rcases h with hp | ho | ho | hp
  · exact hc (hg.prod.trans hp)
  · have hsize := hg.size_of_overshoots hw hs ho
    have hmax := hu.chunksize
    rw [Limits.Overshoots, ← hsize] at ho
    subst hchunk
    exact absurd ho (Int.not_lt.mpr hmax)
  · have hsize := hg'.size_of_overshoots hw' hs' ho
    have hle := block.stopSize_le chunkshape
    have hmax := hu.blocksize
    have hlog : 2 ^ (exponents chunkshape).sum ≤ chunk.product shape := by
      rw [hg.exponents_sum]
      exact Nat.log2_self_le (hg.prod ▸ hc)
    have hmul := Nat.mul_le_mul_left block.itemsize hlog
    rw [Limits.Overshoots, ← hsize] at ho
    subst hblock
    simp only [Sizes.blockLimits] at ho hle hmul hsize
    split at ho
    next hlt => omega
    next hlt => omega
  · exact hb (hg'.prod.trans hp)

/-- Ordered sizes mislead a search only on a single axis under the BTune. -/
theorem not_misleads (hchunk : sizes.minChunk ≤ sizes.maxChunk cfg)
    (hblock : sizes.minBlock ≤ sizes.maxBlock cfg)
    (h : cfg.btune = false ∨ shape.length ≠ 1) : ¬ Misleads cfg dtype shape sizes := by
  rintro ⟨hs, _, hb, hp | ho | ho | ⟨hlen, hp⟩⟩
  · exact Limits.product_ne_zero h hp
  · exact Limits.not_overshoots dtype.size_pos hs.2.2.2 hchunk ho
  · have hp : (sizes.chunkLimits cfg dtype).product shape ≠ 0 := Limits.product_ne_zero h
    rcases Int.lt_or_le (dtype.size * (sizes.chunkLimits cfg dtype).product shape : Nat)
      (sizes.maxBlock cfg) with hlt | hle
    · have hle := (sizes.blockLimits cfg dtype (dtype.size *
        (sizes.chunkLimits cfg dtype).product shape)).stopSize_le
          [(sizes.chunkLimits cfg dtype).product shape]
      have hsum : (exponents [(sizes.chunkLimits cfg dtype).product shape]).sum =
          Nat.log2 ((sizes.chunkLimits cfg dtype).product shape) := List.sum_singleton
      have hlog := Nat.mul_le_mul_left dtype.size (Nat.log2_self_le hp)
      rw [hsum] at hle
      rw [Limits.Overshoots] at ho
      simp only [Sizes.blockLimits, if_pos hlt] at ho hle
      omega
    · apply Limits.not_overshoots dtype.size_pos hb ?_ ho
      simp only [Sizes.blockLimits, if_neg (Int.not_lt.mpr hle)]
      exact hblock
  · exact Limits.product_ne_zero (h.imp_right fun hne => absurd hlen hne) hp

/-- Every advice is usable exactly when the request does not mislead the searches. -/
theorem partitionAdvice_usable_iff (cfg : Config) (dtype : Dtype) (shape : List Nat)
    (sizes : Sizes) :
    (∀ fuel chunkshape blockshape,
      iarrayPartitionAdvice fuel cfg dtype shape sizes = pure (chunkshape, blockshape) →
        Usable cfg dtype shape sizes chunkshape blockshape) ↔
      ¬ Misleads cfg dtype shape sizes := by
  constructor
  · rintro hall ⟨hs, hc, hb, herr⟩
    obtain ⟨fuel, chunkshape, blockshape, h⟩ := advice_succeeds hs hc hb
    obtain ⟨_, _, hg, hs', hg'⟩ := advice_eq_pure h
    obtain ⟨hover, hzero⟩ := block_congr (sizes.blockLimits cfg dtype
      (dtype.size * (sizes.chunkLimits cfg dtype).product shape)) hg
    apply not_usable rfl rfl hs hg hs' hg' ?_ (hall fuel chunkshape blockshape h)
    rw [hover, hzero]
    exact herr
  · intro hnot fuel chunkshape blockshape h
    obtain ⟨hs, hc, hg, hs', hg'⟩ := advice_eq_pure h
    obtain ⟨hover, hzero⟩ := block_congr (sizes.blockLimits cfg dtype
      (dtype.size * (sizes.chunkLimits cfg dtype).product shape)) hg
    have hok : ¬ ((sizes.chunkLimits cfg dtype).product shape = 0 ∨ _ ∨ _ ∨ _) :=
      fun herr => hnot ⟨hs, hc, hs'.2.2.2, herr⟩
    rw [← hover, ← hzero] at hok
    push Not at hok
    obtain ⟨hp, ho, ho', hp'⟩ := hok
    exact usable_of_gives rfl rfl hc hg hg' hp ho hp' ho'

end Advice

/-- `IARRAY_CONFIG_DEFAULTS`. -/
def configDefaults : Config where
  compressionCodec := .lz4
  compressionLevel := 5
  compressionFavor := .balance
  useDict := 0
  splitmode := 3
  filterFlags := FilterFlag.shuffle.mask
  maxNumThreads := 1
  fpMantissaBits := 0
  btune := true
  compressionMeta := 0

/-- With the default configuration two elements are split into chunks of none. -/
theorem partitionAdvice_usable_fails :
    iarrayPartitionAdvice 8 configDefaults .double [2] ⟨1, 16, 9, 16⟩ = pure ([0], [1]) ∧
      ¬ ∀ (cfg : Config) (dtype : Dtype) (shape : List Nat) (sizes : Sizes),
        shape.length ≤ 8 → (∀ n ∈ shape, n < 2 ^ 63) →
        sizes.minChunksize ≤ sizes.maxChunksize → sizes.minBlocksize ≤ sizes.maxBlocksize →
        ∀ fuel chunkshape blockshape,
          iarrayPartitionAdvice fuel cfg dtype shape sizes = pure (chunkshape, blockshape) →
            Usable cfg dtype shape sizes chunkshape blockshape := by
  have hrun : iarrayPartitionAdvice 8 configDefaults .double [2] ⟨1, 16, 9, 16⟩ =
      pure ([0], [1]) := by rfl
  refine ⟨hrun, fun hall => ?_⟩
  have hu := hall configDefaults .double [2] ⟨1, 16, 9, 16⟩ (by decide) (by decide) (by decide)
    (by decide) 8 [0] [1] hrun
  exact absurd (hu.axis 0 Nat.zero_lt_one).2.1 (by decide)

end IronArray.Partition
