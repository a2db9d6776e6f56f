import IronArray.Settings.Partition
import Mathlib.Algebra.BigOperators.Group.List.Basic
import Mathlib.Algebra.Order.BigOperators.Group.List
import Mathlib.Data.List.Forall2
import Mathlib.Algebra.GroupWithZero.Nat

/-!
# Where the search for a partition stops

`boxed_optim_partition` starts from powers of two and only halves them. On exponents one round of
the search lowers one axis by one, also where the source skips the axis because its length is one
already. `shrink_ok` says at which exponents the search stops, and which axes it has left alone.
-/

namespace IronArray.Partition

/-- The lengths with the given exponents. -/
def powers (es : List Nat) : List Nat := es.map (2 ^ ·)

@[simp] theorem length_powers (es : List Nat) : (powers es).length = es.length := by
  simp [powers]

@[simp] theorem powers_cons (e : Nat) (es : List Nat) :
    powers (e :: es) = 2 ^ e :: powers es := rfl

theorem prod_powers (es : List Nat) : (powers es).prod = 2 ^ es.sum := by
  induction es with
  | nil => rfl
  | cons e es ih => rw [powers_cons, List.prod_cons, ih, List.sum_cons, pow_add]

/-- One round on the exponents: axis `i` is halved unless its length is one. -/
def lower (i : Nat) (es : List Nat) : List Nat := es.set i (es.getD i 0 - 1)

@[simp] theorem length_lower (i : Nat) (es : List Nat) : (lower i es).length = es.length := by
  simp [lower]

theorem getD_powers {es : List Nat} {i : Nat} (h : i < es.length) :
    (powers es).getD i 0 = 2 ^ es.getD i 0 := by
  simp [powers, List.getD, h]

theorem powers_set (es : List Nat) (i e : Nat) : (powers es).set i (2 ^ e) = powers (es.set i e) := by
  simp [powers, List.map_set]

theorem set_getD (es : List Nat) (i : Nat) : es.set i (es.getD i 0) = es := by
  by_cases h : i < es.length
  · simp [List.getD, h]
  · exact List.set_eq_of_length_le (Nat.le_of_not_lt h)

theorem lower_of_zero {i : Nat} {es : List Nat} (h : es.getD i 0 = 0) : lower i es = es := by
  rw [lower, show es.getD i 0 - 1 = es.getD i 0 by omega, set_getD]

theorem sum_lower {i : Nat} {es : List Nat} (h : es.getD i 0 ≠ 0) :
    (lower i es).sum + 1 = es.sum := by
  induction es generalizing i with
  | nil => simp at h
  | cons e es ih =>
    cases i with
    | zero =>
      have h' : e ≠ 0 := h
      simp only [lower, List.getD_cons_zero, List.set_cons_zero, List.sum_cons]
      omega
    | succ i =>
      have hs := ih (i := i) (by simpa using h)
      simp only [lower, List.getD_cons_succ, List.set_cons_succ, List.sum_cons] at hs ⊢
      omega

theorem powers_halve {i : Nat} {es : List Nat} (hi : i < es.length) (h : es.getD i 0 ≠ 0) :
    (powers es).set i ((powers es).getD i 0 / 2) = powers (lower i es) := by
  obtain ⟨e, he⟩ := Nat.exists_eq_succ_of_ne_zero h
  rw [getD_powers hi, he, Nat.succ_eq_add_one, pow_succ, Nat.mul_div_cancel _ (by decide),
    powers_set, lower, he]
  rfl

/-! ## The size of a partition -/

theorem foldlM_mul64 (a : Nat) (es : List Nat) :
    (powers es).foldlM mul64 a =
      if a * 2 ^ es.sum ≤ int64Max ∨ es = [] then pure (a * 2 ^ es.sum) else throw .overflow := by
  induction es generalizing a with
  | nil => simp [powers]
  | cons e es ih =>
    rw [powers_cons, List.foldlM_cons, mul64, List.sum_cons, pow_add, ← mul_assoc]
    split
    next h =>
      rw [pure_bind, ih]
      rcases es.eq_nil_or_concat with rfl | ⟨_, _, rfl⟩
      · simp [h]
      · simp
    next h =>
      have hle : a * 2 ^ e ≤ a * 2 ^ e * 2 ^ es.sum := Nat.le_mul_of_pos_right _ (Nat.two_pow_pos _)
      rw [if_neg (by rintro (h' | h'); exacts [h (hle.trans h'), by simp at h'])]
      rfl

theorem getD_lower (i j : Nat) (es : List Nat) :
    (lower i es).getD j 0 = if j = i then es.getD j 0 - 1 else es.getD j 0 := by
  rw [lower, List.getD, List.getElem?_set]
  by_cases hij : j = i
  · subst hij
    by_cases hj : j < es.length
    · simp [hj, List.getD]
    · simp [hj, List.getD]
  · rw [if_neg hij, if_neg (fun h => hij h.symm), List.getD]

theorem lt_of_getD_ne_zero {es : List Nat} {i : Nat} (h : es.getD i 0 ≠ 0) : i < es.length := by
  by_contra hge
  exact h (by simp [List.getD, List.getElem?_eq_none (Nat.le_of_not_lt hge)])

/-- The number of axes before `i` that can be halved. -/
def before (es : List Nat) (i : Nat) : Nat := (es.take i).countP (· ≠ 0)

theorem before_zero (es : List Nat) : before es 0 = 0 := rfl

theorem before_succ {es : List Nat} {i : Nat} (hi : i < es.length) :
    before es (i + 1) = before es i + if es.getD i 0 = 0 then 0 else 1 := by
  rw [before, List.take_add_one, List.getElem?_eq_getElem hi, List.countP_append, before]
  by_cases h : es[i] = 0
  · simp [List.getD, hi, h]
  · simp [List.getD, hi, h]

theorem before_mono (es : List Nat) {i j : Nat} (h : i ≤ j) : before es i ≤ before es j := by
  have hs : (es.take i).Sublist (es.take j) := by
    rw [show es.take i = (es.take j).take i by rw [List.take_take, Nat.min_eq_left h]]
    exact List.take_sublist i (es.take j)
  exact hs.countP_le

theorem before_lt {es : List Nat} {i j : Nat} (h : i < j) (hi : es.getD i 0 ≠ 0) :
    before es i < before es j := by
  have hs := before_succ (lt_of_getD_ne_zero hi)
  rw [if_neg hi] at hs
  have hm := before_mono es (Nat.succ_le_of_lt h)
  rw [Nat.succ_eq_add_one] at hm
  omega

theorem countP_le_sum (es : List Nat) : es.countP (· ≠ 0) ≤ es.sum := by
  induction es with
  | nil => exact le_rfl
  | cons e es ih =>
    rw [List.countP_cons, List.sum_cons]
    split
    next h =>
      have : e ≠ 0 := by simpa using h
      omega
    next => omega

theorem before_le_sum (es : List Nat) (i : Nat) : before es i ≤ es.sum := by
  have := countP_le_sum (es.take i)
  have := List.sum_take_add_sum_drop es i
  rw [before]
  omega

/-! ## The rounds of the search -/

/-- Where the search stands before it looks at axis `i`: in its first pass it has lowered the axes
before `i` once, and later it has lowered every axis that can be halved. -/
def Passed (as : List Nat) (i : Nat) (es : List Nat) : Prop :=
  (i ≤ as.length ∧ (∀ j, es.getD j 0 = if j < i then as.getD j 0 - 1 else as.getD j 0) ∧
      es.sum + before as i = as.sum) ∨
    ((∀ j, as.getD j 0 ≠ 0 → es.getD j 0 < as.getD j 0) ∧ es.sum + before as as.length ≤ as.sum)

theorem Passed.start (as : List Nat) : Passed as 0 as :=
  Or.inl ⟨Nat.zero_le _, by simp, by simp [before_zero]⟩

theorem sum_lower_le (i : Nat) (es : List Nat) : (lower i es).sum ≤ es.sum := by
  by_cases h : es.getD i 0 = 0
  · rw [lower_of_zero h]
  · have := sum_lower h
    omega

theorem Passed.step {as es : List Nat} {i : Nat} (P : Passed as i es) (hi : i < as.length) :
    Passed as (i + 1) (lower i es) := by
  rcases P with ⟨_, hget, hsum⟩ | ⟨hlt, hsum⟩
  · refine Or.inl ⟨hi, ?_, ?_⟩
    · intro j
      rw [getD_lower, hget j]
      split_ifs <;> first | rfl | omega
    · have hgi := hget i
      rw [if_neg (Nat.lt_irrefl i)] at hgi
      rw [before_succ hi]
      by_cases h : as.getD i 0 = 0
      · rw [lower_of_zero (hgi.trans h), if_pos h]
        exact hsum
      · have hl := sum_lower (hgi.trans_ne h)
        rw [if_neg h]
        omega
  · refine Or.inr ⟨?_, ?_⟩
    · intro j hj
      have := hlt j hj
      rw [getD_lower]
      split_ifs <;> omega
    · have := sum_lower_le i es
      omega

theorem Passed.wrap {as es : List Nat} (P : Passed as as.length es) (i : Nat) :
    Passed as i es := by
  rcases P with ⟨_, hget, hsum⟩ | h
  · refine Or.inr ⟨?_, hsum.le⟩
    intro j hj
    have hlen := lt_of_getD_ne_zero hj
    rw [hget j, if_pos hlen]
    omega
  · exact Or.inr h

/-- The axes that the search has left alone. -/
theorem Passed.alone {as es : List Nat} {i : Nat} (P : Passed as i es) (j : Nat)
    (hj : as.getD j 0 ≠ 0) :
    es.getD j 0 = as.getD j 0 ↔ as.sum ≤ es.sum + before as j := by
  rcases P with ⟨_, hget, hsum⟩ | ⟨hlt, hsum⟩
  · rw [hget j]
    by_cases h : j < i
    · have := before_lt h hj
      rw [if_pos h]
      omega
    · have := before_mono as (Nat.le_of_not_lt h)
      rw [if_neg h]
      omega
  · have hlen := lt_of_getD_ne_zero hj
    have := before_lt hlen hj
    have := hlt j hj
    omega

/-! ## The descent -/

section Descent

variable (stops : Nat → Prop) [DecidablePred stops]

/-- Axis after axis is lowered, over and over, until the sum of the exponents is one to stop at. -/
def descend : Nat → Nat → List Nat → Option (List Nat)
  | 0, _, _ => none
  | fuel + 1, i, es =>
    if i < es.length then
      if stops es.sum then some es else descend fuel (i + 1) (lower i es)
    else descend fuel 0 es

variable {stops}

theorem descend_mono {fuel fuel' i : Nat} {es ds : List Nat} (hf : fuel ≤ fuel')
    (h : descend stops fuel i es = some ds) : descend stops fuel' i es = some ds := by
  induction fuel generalizing fuel' i es with
  | zero => cases h
  | succ fuel ih =>
    obtain ⟨fuel', rfl⟩ := Nat.exists_eq_add_of_le' (Nat.one_le_of_lt hf)
    rw [descend] at h ⊢
    split at h
    next hi =>
      rw [if_pos hi]
      split at h
      next hs => rwa [if_pos hs]
      next hs =>
        rw [if_neg hs]
        exact ih (by omega) h
    next hi =>
      rw [if_neg hi]
      exact ih (by omega) h

theorem descend_nil (fuel i : Nat) : descend stops fuel i [] = none := by
  induction fuel generalizing i with
  | zero => rfl
  | succ fuel ih =>
    rw [descend, List.length_nil, if_neg (Nat.not_lt_zero i)]
    exact ih 0

/-- Where no sum on the way down is one to stop at, the descent goes on for ever. -/
theorem descend_endless {es : List Nat} (h : ∀ k ≤ es.sum, ¬ stops k) (fuel i : Nat) :
    descend stops fuel i es = none := by
  induction fuel generalizing i es with
  | zero => rfl
  | succ fuel ih =>
    rw [descend]
    split
    next =>
      rw [if_neg (h _ le_rfl)]
      exact ih (fun k hk => h k (hk.trans (sum_lower_le i es))) (i + 1)
    next => exact ih h 0

theorem exists_getD_ne_zero {es : List Nat} (h : es.sum ≠ 0) : ∃ j, es.getD j 0 ≠ 0 := by
  by_contra hAll
  push Not at hAll
  apply h
  apply List.sum_eq_zero
  intro e he
  obtain ⟨k, hk, rfl⟩ := List.getElem_of_mem he
  simpa [List.getD, hk] using hAll k

/-- One round at an axis that can be lowered. -/
theorem descend_round {es : List Nat} {i : Nat} (hi : i < es.length)
    (hLower : es.getD i 0 ≠ 0 → ∃ fuel ds, descend stops fuel (i + 1) (lower i es) = some ds)
    (hNext : es.getD i 0 = 0 → ∃ fuel ds, descend stops fuel (i + 1) es = some ds) :
    ∃ fuel ds, descend stops fuel i es = some ds := by
  by_cases hs : stops es.sum
  · refine ⟨1, es, ?_⟩
    rw [descend, if_pos hi, if_pos hs]
  · obtain ⟨fuel, ds, h⟩ : ∃ fuel ds, descend stops fuel (i + 1) (lower i es) = some ds := by
      by_cases hz : es.getD i 0 = 0
      · rw [lower_of_zero hz]
        exact hNext hz
      · exact hLower hz
    refine ⟨fuel + 1, ds, ?_⟩
    rw [descend, if_pos hi, if_neg hs, h]

theorem descend_wrap {es : List Nat} (h : ∃ fuel ds, descend stops fuel 0 es = some ds) :
    ∃ fuel ds, descend stops fuel es.length es = some ds := by
  obtain ⟨fuel, ds, h⟩ := h
  refine ⟨fuel + 1, ds, ?_⟩
  rw [descend, if_neg (Nat.lt_irrefl _), h]

/-- From an axis that can be lowered the descent gets to every other one. -/
theorem descend_reaches {es : List Nat} {j : Nat} (hj : es.getD j 0 ≠ 0)
    (hLower : ∀ i, es.getD i 0 ≠ 0 → ∃ fuel ds, descend stops fuel (i + 1) (lower i es) = some ds)
    {i : Nat} (hi : i ≤ es.length) : ∃ fuel ds, descend stops fuel i es = some ds := by
  have hLt := lt_of_getD_ne_zero hj
  have hAhead : ∀ d i, i + d = j → ∃ fuel ds, descend stops fuel i es = some ds := by
    intro d
    induction d with
    | zero =>
      rintro i rfl
      exact descend_round hLt (hLower i) fun hz => absurd hz hj
    | succ d ih =>
      intro i hd
      exact descend_round (by omega) (hLower i) fun _ => ih (i + 1) (by omega)
  have hBehind : ∀ d i, i + d = es.length → ∃ fuel ds, descend stops fuel i es = some ds := by
    intro d
    induction d with
    | zero =>
      rintro i rfl
      exact descend_wrap (hAhead j 0 (Nat.zero_add j))
    | succ d ih =>
      intro i hd
      exact descend_round (by omega) (hLower i) fun _ => ih (i + 1) (by omega)
  exact hBehind (es.length - i) i (by omega)

theorem descend_stop {es : List Nat} (hs : stops es.sum) (hne : es ≠ []) {i : Nat}
    (hi : i ≤ es.length) : ∃ fuel ds, descend stops fuel i es = some ds := by
  have hStop : ∀ i < es.length, descend stops 1 i es = some es := by
    intro i hi
    rw [descend, if_pos hi, if_pos hs]
  rcases hi.lt_or_eq with hi | rfl
  · exact ⟨1, es, hStop i hi⟩
  · exact descend_wrap ⟨1, es, hStop 0 (List.length_pos_of_ne_nil hne)⟩

/-- The descent ends when it has a sum to stop at on its way. -/
theorem descend_ends {k n : Nat} (hk : stops k) {es : List Nat} (hn : es.sum = n) (hle : k ≤ n)
    (hne : es ≠ []) {i : Nat} (hi : i ≤ es.length) :
    ∃ fuel ds, descend stops fuel i es = some ds := by
  induction n generalizing es i with
  | zero =>
    obtain rfl : k = es.sum := by omega
    exact descend_stop hk hne hi
  | succ n ih =>
    rcases hle.eq_or_lt with rfl | hlt
    · exact descend_stop (hn ▸ hk) hne hi
    · have hPos : es.sum ≠ 0 := by omega
      obtain ⟨j, hj⟩ := exists_getD_ne_zero hPos
      refine descend_reaches hj (fun i hi => ?_) hi
      have hSum := sum_lower hi
      have hLt := lt_of_getD_ne_zero hi
      have hSome : lower i es ≠ [] := List.ne_nil_of_length_pos (by rw [length_lower]; omega)
      exact ih (by omega) (by omega) hSome (by rw [length_lower]; omega)

/-- The descent ends exactly when it has an axis and a sum to stop at on its way. -/
theorem descend_ends_iff {es : List Nat} :
    (∃ fuel ds, descend stops fuel 0 es = some ds) ↔ es ≠ [] ∧ ∃ k ≤ es.sum, stops k := by
  constructor
  · rintro ⟨fuel, ds, h⟩
    refine ⟨?_, ?_⟩
    · rintro rfl
      rw [descend_nil] at h
      cases h
    · by_contra hNone
      push Not at hNone
      rw [descend_endless hNone] at h
      cases h
  · rintro ⟨hne, k, hle, hk⟩
    exact descend_ends hk rfl hle hne (Nat.zero_le _)

end Descent

/-! ## The search -/

namespace Limits

variable (L : Limits)

/-- A partition stops the search when it is below the minimum or at most the maximum. -/
def stopBound : Int := max (L.minsize - 1) L.maxsize

theorem le_stopBound (n : Nat) :
    (n : Int) ≤ L.stopBound ↔ (n : Int) < L.minsize ∨ (n : Int) ≤ L.maxsize := by
  rw [stopBound, le_max_iff]
  omega

theorem partsize_powers {es : List Nat} (h : es ≠ []) :
    L.partsize (powers es) =
      if L.itemsize * 2 ^ es.sum ≤ int64Max then pure (L.itemsize * 2 ^ es.sum)
      else throw .overflow := by
  rw [partsize, foldlM_mul64]
  simp [h]

/-- The label at which a search stops. -/
def label (size : Nat) : Label := if (size : Int) < L.minsize then .out2 else .out

theorem shrink_stop {es : List Nat} {i fuel : Nat} (hi : i < es.length)
    (hmax : L.itemsize * 2 ^ es.sum ≤ int64Max)
    (hfit : ((L.itemsize * 2 ^ es.sum : Nat) : Int) ≤ L.stopBound) :
    L.shrink (fuel + 1) i (powers es) =
      pure (L.label (L.itemsize * 2 ^ es.sum), L.itemsize * 2 ^ es.sum, powers es) := by
  have hne : es ≠ [] := List.ne_nil_of_length_pos (Nat.zero_lt_of_lt hi)
  rw [shrink, length_powers, if_pos hi, L.partsize_powers hne, if_pos hmax, pure_bind, label]
  rcases (L.le_stopBound _).mp hfit with h | h
  · rw [if_pos h, if_pos h]
  · by_cases hmin : ((L.itemsize * 2 ^ es.sum : Nat) : Int) < L.minsize
    · rw [if_pos hmin, if_pos hmin]
    · rw [if_neg hmin, if_pos h, if_neg hmin]

theorem shrink_round {es : List Nat} {i fuel : Nat} (hi : i < es.length)
    (hmax : L.itemsize * 2 ^ es.sum ≤ int64Max)
    (hfit : ¬ ((L.itemsize * 2 ^ es.sum : Nat) : Int) ≤ L.stopBound) :
    L.shrink (fuel + 1) i (powers es) = L.shrink fuel (i + 1) (powers (lower i es)) := by
  have hne : es ≠ [] := List.ne_nil_of_length_pos (Nat.zero_lt_of_lt hi)
  rw [le_stopBound, not_or] at hfit
  rw [shrink, length_powers, if_pos hi, L.partsize_powers hne, if_pos hmax, pure_bind,
    if_neg hfit.1, if_neg hfit.2]
  by_cases h : es.getD i 0 = 0
  · rw [if_pos (by rw [getD_powers hi, h]; rfl), lower_of_zero h]
  · have h1 : (powers es).getD i 0 ≠ 1 := by
      rw [getD_powers hi]
      exact (Nat.one_lt_two_pow h).ne'
    rw [if_neg h1, powers_halve hi h]

theorem shrink_wrap {es : List Nat} {i fuel : Nat} (hi : es.length ≤ i) :
    L.shrink (fuel + 1) i (powers es) = L.shrink fuel 0 (powers es) := by
  rw [shrink, length_powers, if_neg (Nat.not_lt.mpr hi)]

/-- What is known where a search that started from `as` stops. -/
structure Stopped (as es : List Nat) : Prop where
  length : es.length = as.length
  le : ∀ j, es.getD j 0 ≤ as.getD j 0
  sum_le : es.sum ≤ as.sum
  fits : ((L.itemsize * 2 ^ es.sum : Nat) : Int) ≤ L.stopBound
  last : es.sum = as.sum ∨ L.stopBound < ((L.itemsize * 2 ^ (es.sum + 1) : Nat) : Int)
  alone : ∀ j, as.getD j 0 ≠ 0 →
    (es.getD j 0 = as.getD j 0 ↔ as.sum ≤ es.sum + before as j)

theorem size_lower_le {es : List Nat} {d : Nat} (hs : es.sum ≤ d)
    (hmax : L.itemsize * 2 ^ d ≤ int64Max) : L.itemsize * 2 ^ es.sum ≤ int64Max :=
  (Nat.mul_le_mul_left _ (Nat.pow_le_pow_right (by decide) hs)).trans hmax

theorem shrink_ok {as es : List Nat} {i fuel : Nat} {r : Label × Nat × List Nat}
    (hlen : es.length = as.length) (hi : i ≤ as.length) (hle : ∀ j, es.getD j 0 ≤ as.getD j 0)
    (hsum : es.sum ≤ as.sum) (hmax : L.itemsize * 2 ^ as.sum ≤ int64Max)
    (hlast : es.sum = as.sum ∨ L.stopBound < ((L.itemsize * 2 ^ (es.sum + 1) : Nat) : Int))
    (P : Passed as i es) (h : L.shrink fuel i (powers es) = pure r) :
    ∃ ds, L.Stopped as ds ∧
      r = (L.label (L.itemsize * 2 ^ ds.sum), L.itemsize * 2 ^ ds.sum, powers ds) := by
  induction fuel generalizing i es with
  | zero => exact absurd h endless_ne_pure
  | succ fuel ih =>
    rcases Nat.lt_or_ge i es.length with hi' | hi'
    · have hmax' := L.size_lower_le hsum hmax
      by_cases hfit : ((L.itemsize * 2 ^ es.sum : Nat) : Int) ≤ L.stopBound
      · rw [L.shrink_stop hi' hmax' hfit] at h
        exact ⟨es, ⟨hlen, hle, hsum, hfit, hlast, fun j hj => P.alone j hj⟩, (pure_inj.mp h).symm⟩
      · rw [L.shrink_round hi' hmax' hfit] at h
        apply ih (by rw [length_lower, hlen]) (by omega) ?_ ((sum_lower_le i es).trans hsum) ?_
          (P.step (by omega)) h
        · intro j
          have := hle j
          rw [getD_lower]
          split_ifs <;> omega
        · by_cases hz : es.getD i 0 = 0
          · rw [lower_of_zero hz]
            exact hlast
          · rw [sum_lower hz]
            exact Or.inr (Int.lt_of_not_ge hfit)
    · rw [L.shrink_wrap hi'] at h
      obtain rfl : i = as.length := by omega
      exact ih hlen (Nat.zero_le _) hle hsum hlast (P.wrap 0) h

/-- Without an axis the search goes round for ever. -/
theorem shrink_nil (fuel i : Nat) (r : Label × Nat × List Nat) : L.shrink fuel i [] ≠ pure r := by
  induction fuel generalizing i with
  | zero => exact endless_ne_pure
  | succ fuel ih =>
    rw [shrink, List.length_nil, if_neg (Nat.not_lt_zero i)]
    exact ih 0

theorem size_of_shrink {es : List Nat} {fuel : Nat} {r : Label × Nat × List Nat} (hne : es ≠ [])
    (h : L.shrink fuel 0 (powers es) = pure r) : L.itemsize * 2 ^ es.sum ≤ int64Max := by
  cases fuel with
  | zero => exact absurd h endless_ne_pure
  | succ fuel =>
    rw [shrink, length_powers, if_pos (List.length_pos_of_ne_nil hne), L.partsize_powers hne] at h
    obtain ⟨size, hsize, _⟩ := bind_eq_pure.mp h
    by_contra hlt
    rw [if_neg hlt] at hsize
    exact throw_ne_pure hsize

/-- The search ends when it is given rounds enough. -/
def Ends (i : Nat) (es : List Nat) : Prop :=
  ∃ rounds r, ∀ fuel, rounds ≤ fuel → L.shrink fuel i (powers es) = pure r

/-- Without an overflow the search is a descent to the stop bound. -/
theorem shrink_of_descend {fuel i : Nat} {es ds : List Nat}
    (hmax : L.itemsize * 2 ^ es.sum ≤ int64Max)
    (h : descend (fun n => ((L.itemsize * 2 ^ n : Nat) : Int) ≤ L.stopBound) fuel i es = some ds) :
    L.shrink fuel i (powers es) =
      pure (L.label (L.itemsize * 2 ^ ds.sum), L.itemsize * 2 ^ ds.sum, powers ds) := by
  induction fuel generalizing i es with
  | zero => cases h
  | succ fuel ih =>
    rw [descend] at h
    split at h
    next hi =>
      split at h
      next hfit =>
        cases h
        exact L.shrink_stop hi hmax hfit
      next hfit =>
        rw [L.shrink_round hi hmax hfit]
        exact ih (L.size_lower_le (sum_lower_le i es) hmax) h
    next hi =>
      rw [L.shrink_wrap (Nat.le_of_not_lt hi)]
      exact ih hmax h

/-- The search ends when one element would stop it. -/
theorem ends_of_item (hw : (L.itemsize : Int) ≤ L.stopBound) {es : List Nat} (hne : es ≠ [])
    (hmax : L.itemsize * 2 ^ es.sum ≤ int64Max) : L.Ends 0 es := by
  have hItem : ((L.itemsize * 2 ^ 0 : Nat) : Int) ≤ L.stopBound := by simpa using hw
  obtain ⟨rounds, ds, h⟩ : ∃ fuel ds, descend (fun n => ((L.itemsize * 2 ^ n : Nat) : Int) ≤
      L.stopBound) fuel 0 es = some ds := descend_ends_iff.mpr ⟨hne, 0, Nat.zero_le _, hItem⟩
  exact ⟨rounds, _, fun fuel hf => L.shrink_of_descend hmax (descend_mono hf h)⟩

end Limits

end IronArray.Partition
