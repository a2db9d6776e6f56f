import IronArray.Core.Number
import IronArray.Iterators.Elements
import IronArray.Random.Histogram
import Mathlib.Order.Bounds.Basic

/-!
# The test of Kolmogorov and Smirnov

`iarray_random_kstest` reads two containers four times: for the bounds of their elements, and for a
histogram of each. The histograms are added up to the numbers of elements below the edges of the
bins, and the largest difference of these is compared with a threshold
(`iarrayRandomKstest_eq`). So neither the partitions of the containers nor the order of their
elements matters (`iarrayRandomKstest_rearranged`).

All of this is computed in doubles. The edges are rounded, so an element may lie in another bin than
that of exact edges, but they are sorted because rounding is monotone.
-/

namespace IronArray

open Grid Histogram

/-! ## The code -/

/-- C's `<=`, which is false on NaN. -/
def FP.le (x y : FP) : Bool := x.lt y || (!x.isNan && x = y)

/-- `nbins`. -/
def nbins : Nat := 100

/-- The `switch` over the type of the first container: the element behind the pointer. -/
def IterRead.data (m : Machine) (d : Dtype) (itr : IterRead) : Result FP :=
  if d = .double ∨ d = .float ∨ d = .int32 then do
    let x ← itr.load m d
    pure (x.num d).toFP
  else inaError .invalidDtype

/-- A loop over a container with the `switch` in it. -/
def forData (E : Backend) (d : Dtype) {σ : Type} (c : Container) (step : σ → FP → σ) (s : σ) :
    Result σ :=
  forElements E c (fun itr s => do
    let data ← itr.data E.machine d
    pure (step s data)) s

/-- `max` and `min` after one more element. -/
def extremesStep (bounds : FP × FP) (data : FP) : FP × FP :=
  (if bounds.1.lt data then data else bounds.1, if data.lt bounds.2 then data else bounds.2)

/-- The loop that widens `max` and `min`. -/
def extremes (E : Backend) (d : Dtype) (c : Container) (bounds : FP × FP) : Result (FP × FP) :=
  forData E d c extremesStep bounds

section

variable (m : Machine)

/-- An entry of `bins`. -/
def binEdge (max min : FP) (i : Nat) : FP :=
  m.add min (m.mul (m.div (m.sub max min) (.fin nbins)) (.fin (i + 1 : Nat)))

/-- `bins`. -/
def bins (max min : FP) : List FP := (List.range nbins).map (binEdge m max min)

/-- Count an element in the first bin that takes it. -/
def countIn : List FP → List FP → FP → List FP
  | bin :: bins, n :: hist, data =>
    if data.le bin then m.add n (.fin 1) :: hist else n :: countIn bins hist data
  | _, hist, _ => hist

/-- `hist[i] += hist[i - 1]` from the second bin on. -/
def cumulateFrom (previous : FP) : List FP → List FP
  | [] => []
  | n :: hist => m.add n previous :: cumulateFrom (m.add n previous) hist

def cumulate : List FP → List FP
  | [] => []
  | n :: hist => n :: cumulateFrom m n hist

/-- `max_dif`. -/
def maxDif (size : Nat) (hist1 hist2 : List FP) : FP :=
  (List.zip hist1 hist2).foldl (fun max p =>
    if max.lt (m.div (m.sub p.1 p.2).abs (m.round size)) then
      m.div (m.sub p.1 p.2).abs (m.round size)
    else max) .ninf

/-- `threshold`, with the function `log` of the mathematical library. The square of the size is a
64-bit product. -/
def kstestThreshold (log : FP → FP) (size : Nat) : FP :=
  m.mul (m.sqrt (m.div ((FP.fin (-1)).mul (log (m.round (1 / 10000)))) (.fin 2)))
    (m.sqrt (m.div (m.mul (.fin 2) (m.round size)) (m.round (Dtype.int64.wrap (size * size)))))

end

/-- The loop that fills `hist1` or `hist2`. -/
def histogram (E : Backend) (d : Dtype) (c : Container) (bins : List FP) : Result (List FP) :=
  forData E d c (countIn E.machine bins) (List.replicate nbins (.fin 0))

/-- `iarray_random_kstest`. -/
def iarrayRandomKstest (E : Backend) (log : FP → FP) (container1 container2 : Container) :
    Result Bool :=
  if container1.catarr.shape.prod ≠ container2.catarr.shape.prod then inaError .invalidShape
  else do
    let size := container1.catarr.shape.prod
    let dtype := container1.dtshape.dtype
    let bounds ← extremes E dtype container1 (.ninf, .pinf)
    let bounds ← extremes E dtype container2 bounds
    let hist1 ← histogram E dtype container1 (bins E.machine bounds.1 bounds.2)
    let hist2 ← histogram E dtype container2 (bins E.machine bounds.1 bounds.2)
    pure ((maxDif E.machine size (cumulate E.machine hist1) (cumulate E.machine hist2)).lt
      (kstestThreshold E.machine log size))

/-! ## Samples -/

/-- The number of a value that is neither infinite nor NaN. -/
def FP.rat : FP → ℚ
  | .fin q => q
  | _ => 0

/-- The number at an index. -/
def sampleAt (d : Dtype) (A : NdArray Cell) (x : List Nat) : ℚ := ((A.get x).num d).toFP.rat

/-- The numbers of an array. -/
def samples (d : Dtype) (A : NdArray Cell) : List ℚ := (box A.shape).map (sampleAt d A)

/-- A container of numbers that the test takes, not more than a double can count. -/
structure Sampled (c : Container) (d : Dtype) (A : NdArray Cell) : Prop where
  known : Known c A
  dtype : c.dtshape.dtype = d
  supported : d = .double ∨ d = .float ∨ d = .int32
  readable : c.Readable c.storage.chunkshape
  finite : ∀ x, InBox x A.shape → ((A.get x).num d).isFinite = true
  few : A.shape.prod ≤ 2 ^ 53

/-- A number and an edge are compared as doubles. -/
def below (x : ℚ) (b : FP) : Bool := (FP.fin x).le b

/-- How many of the numbers are at most `b`. -/
def notAbove (xs : List ℚ) (b : FP) : Nat := xs.countP (below · b)

section

variable {E : Backend} {c : Container} {d : Dtype} {A : NdArray Cell}

theorem Sampled.number (h : Sampled c d A) {x : List Nat} (hx : InBox x A.shape) :
    ((A.get x).num d).toFP = .fin (sampleAt d A x) := by
  have hFinite := h.finite x hx
  rw [sampleAt]
  cases hNum : (A.get x).num d with
  | int z => rfl
  | fp y =>
    rw [hNum] at hFinite
    cases y with
    | fin q => rfl
    | nan | ninf | pinf => cases hFinite

/-- A loop over a container is a loop over its numbers, in some order. -/
theorem forData_eq (hE : E.Lawful) (h : Sampled c d A) :
    ∃ xs : List ℚ, xs.Perm (samples d A) ∧ ∀ {σ : Type} (step : σ → FP → σ) (s : σ),
      forData E d c step s = .ok (xs.foldl (fun s q => step s (.fin q)) s) := by
  obtain ⟨order, hPerm, hRun⟩ := forElements_eq hE h.known h.readable
  refine ⟨order.map (sampleAt d A), hPerm.map _, fun {σ} step s => ?_⟩
  have hVisit : ∀ (itr : IterRead) (x : List Nat) (s : σ), InBox x A.shape →
      itr.At E.machine c.dtshape.dtype A x →
      (itr.data E.machine d >>= fun data => (.ok (step s data) : Result σ)) =
        .ok (step s (.fin (sampleAt d A x))) := by
    intro itr x s hx hAt
    have hLoad := hAt.load
    rw [h.dtype] at hLoad
    rw [IterRead.data, if_pos h.supported, hLoad, Result.ok_bind]
    exact congrArg (fun data => Except.ok (step s data)) (h.number hx)
  refine (hRun hVisit s).trans ?_
  rw [List.foldl_map]
  exact List.foldlM_pure

end

/-! ## Bounds -/

/-- `max` and `min` of the numbers read so far. -/
def BoundsOf (xs : List ℚ) (bounds : FP × FP) : Prop :=
  (xs = [] ∧ bounds = (.ninf, .pinf)) ∨
    ∃ hi lo, bounds = (.fin hi, .fin lo) ∧ IsGreatest {q | q ∈ xs} hi ∧ IsLeast {q | q ∈ xs} lo

theorem BoundsOf.step {xs : List ℚ} {bounds : FP × FP} (h : BoundsOf xs bounds) (q : ℚ) :
    BoundsOf (xs ++ [q]) (extremesStep bounds (.fin q)) := by
  rcases h with ⟨rfl, rfl⟩ | ⟨hi, lo, rfl, hHi, hLo⟩
  · refine .inr ⟨q, q, rfl, ?_, ?_⟩
    · exact ⟨List.mem_singleton_self q, fun p hp => (List.mem_singleton.mp hp).le⟩
    · exact ⟨List.mem_singleton_self q, fun p hp => (List.mem_singleton.mp hp).ge⟩
  · have hSet : {p | p ∈ xs ++ [q]} = insert q {p | p ∈ xs} := by
      ext p
      simp [or_comm]
    refine .inr ⟨max q hi, min q lo, ?_, ?_, ?_⟩
    · have hMax : (if (FP.fin hi).lt (.fin q) then FP.fin q else .fin hi) = .fin (max q hi) := by
        show (if decide (hi < q) = true then FP.fin q else .fin hi) = _
        by_cases hLt : hi < q
        · rw [if_pos (decide_eq_true hLt), max_eq_left hLt.le]
        · rw [if_neg (by simpa using hLt), max_eq_right (not_lt.mp hLt)]
      have hMin : (if (FP.fin q).lt (.fin lo) then FP.fin q else .fin lo) = .fin (min q lo) := by
        show (if decide (q < lo) = true then FP.fin q else .fin lo) = _
        by_cases hLt : q < lo
        · rw [if_pos (decide_eq_true hLt), min_eq_left hLt.le]
        · rw [if_neg (by simpa using hLt), min_eq_right (not_lt.mp hLt)]
      exact Prod.ext hMax hMin
    · rw [hSet]
      exact hHi.insert q
    · rw [hSet]
      exact hLo.insert q

theorem BoundsOf.foldl {xs : List ℚ} {bounds : FP × FP} (h : BoundsOf xs bounds) (ys : List ℚ) :
    BoundsOf (xs ++ ys) (ys.foldl (fun b q => extremesStep b (.fin q)) bounds) := by
  induction ys generalizing xs bounds with
  | nil =>
    rw [List.append_nil]
    exact h
  | cons y ys ih =>
    rw [List.append_cons]
    exact ih (h.step y)

/-! ## Rounding -/

/-- What doubles are needed to do: rounding keeps the order, and integers of 53 bits are exact. -/
structure Machine.Rounds (m : Machine) : Prop where
  mono : ∀ {p q : ℚ}, p ≤ q → (m.round p).le (m.round q) = true
  exact : ∀ z : Int, |z| ≤ 2 ^ 53 → m.round z = .fin z

theorem FP.le_fin (x y : ℚ) : (FP.fin x).le (.fin y) = decide (x ≤ y) := by
  have hLt : (FP.fin x).lt (.fin y) = decide (x < y) := rfl
  rw [FP.le, hLt]
  by_cases h : x = y
  · simp [h, FP.isNan]
  · have hEq : ¬ FP.fin x = .fin y := fun hFin => h (FP.fin.inj hFin)
    simp [hEq, lt_iff_le_and_ne, h]

theorem FP.fin_le {p : ℚ} {x : FP} (h : (FP.fin p).le x = true) :
    x = .pinf ∨ ∃ q, x = .fin q ∧ p ≤ q := by
  cases x with
  | nan | ninf => cases h
  | pinf => exact .inl rfl
  | fin q =>
    rw [FP.le_fin, decide_eq_true_eq] at h
    exact .inr ⟨q, rfl, h⟩

theorem FP.le_pinf {x : FP} (h : x ≠ .nan) : x.le .pinf = true := by
  cases x with
  | nan => exact absurd rfl h
  | ninf | pinf | fin q => rfl

/-- What does not exceed an edge does not exceed a higher one. -/
theorem below_mono {b b' : FP} (h : b.le b' = true) (x : ℚ) (hx : below x b = true) :
    below x b' = true := by
  rcases FP.fin_le hx with rfl | ⟨q, rfl, hq⟩
  · cases b' with
    | nan | ninf | fin q => cases h
    | pinf => rfl
  · rcases FP.fin_le h with rfl | ⟨r, rfl, hr⟩
    · rfl
    · rw [below, FP.le_fin, decide_eq_true_eq]
      exact hq.trans hr

namespace Machine.Rounds

variable {m : Machine}

theorem natCast (h : m.Rounds) {n : Nat} (hn : n ≤ 2 ^ 53) : m.round n = .fin n := by
  have hExact := h.exact n (by rw [Nat.abs_cast]; exact_mod_cast hn)
  rwa [Int.cast_natCast] at hExact

theorem round_ne_nan (h : m.Rounds) (q : ℚ) : m.round q ≠ .nan := by
  intro hNan
  have hLe := h.mono (le_refl q)
  rw [hNan] at hLe
  cases hLe

theorem zero (h : m.Rounds) : m.round 0 = .fin 0 := by
  have hZero := h.natCast (Nat.zero_le _)
  rwa [Nat.cast_zero] at hZero

theorem nonneg (h : m.Rounds) {q : ℚ} (hq : 0 ≤ q) : (FP.fin 0).le (m.round q) = true := by
  rw [← h.zero]
  exact h.mono hq

theorem add_mono (h : m.Rounds) (p : ℚ) {x y : FP} (hx : (FP.fin 0).le x = true)
    (hy : x.le y = true) : (m.add (.fin p) x).le (m.add (.fin p) y) = true := by
  rcases FP.fin_le hx with rfl | ⟨a, rfl, -⟩
  · cases y with
    | nan | ninf | fin q => cases hy
    | pinf => rfl
  · rcases FP.fin_le hy with rfl | ⟨b, rfl, hab⟩
    · exact FP.le_pinf (h.round_ne_nan _)
    · exact h.mono (add_le_add_right hab p)

theorem add_one (h : m.Rounds) {n : Nat} (hn : n + 1 ≤ 2 ^ 53) :
    m.add (.fin n) (.fin 1) = .fin (n + 1 : Nat) := by
  rw [← h.natCast hn, Nat.cast_succ]
  rfl

theorem add_nat (h : m.Rounds) {n k : Nat} (hn : k + n ≤ 2 ^ 53) :
    m.add (.fin n) (.fin k) = .fin (k + n : Nat) := by
  rw [← h.natCast hn, Nat.add_comm, Nat.cast_add]
  rfl

theorem sub_nat (h : m.Rounds) {n k : Nat} (hn : n ≤ 2 ^ 53) (hk : k ≤ 2 ^ 53) :
    m.sub (.fin n) (.fin k) = .fin ((n : ℚ) - k) := by
  have hExact := h.exact ((n : Int) - k) (abs_le.mpr ⟨by omega, by omega⟩)
  have hSub : (n : ℚ) + -1 * k = ((n - k : Int) : ℚ) := by
    rw [neg_one_mul, ← sub_eq_add_neg, Int.cast_sub, Int.cast_natCast, Int.cast_natCast]
  show m.round (n + -1 * k) = _
  rw [hSub, hExact, Int.cast_sub, Int.cast_natCast, Int.cast_natCast]

end Machine.Rounds

/-! ## Histograms -/

section

variable {m : Machine} {lo hi : ℚ} {xs : List ℚ}

theorem binWidth_nonneg (h : m.Rounds) (hLe : lo ≤ hi) :
    (FP.fin 0).le (m.div (m.sub (.fin hi) (.fin lo)) (.fin nbins)) = true := by
  have hBins : ((nbins : Nat) : ℚ) ≠ 0 := by decide
  have hRange : 0 ≤ hi + -1 * lo := by linarith
  have hSub : m.sub (.fin hi) (.fin lo) = m.round (hi + -1 * lo) := rfl
  rcases FP.fin_le (h.nonneg hRange) with hInf | ⟨w, hFin, hw⟩
  · rw [hSub, hInf]
    rfl
  · have hDiv : m.div (.fin w) (.fin nbins) = m.round (w / nbins) := by
      show m.rounded (if ((nbins : Nat) : ℚ) = 0 then FP.infOf w else .fin (w / nbins)) = _
      rw [if_neg hBins]
      rfl
    rw [hSub, hFin, hDiv]
    exact h.nonneg (div_nonneg hw (Nat.cast_nonneg _))

/-- The edges are sorted. -/
theorem binEdge_mono (h : m.Rounds) (hLe : lo ≤ hi) {i j : Nat} (hij : i ≤ j) :
    (binEdge m (.fin hi) (.fin lo) i).le (binEdge m (.fin hi) (.fin lo) j) = true := by
  unfold binEdge
  have hSteps : ((i + 1 : Nat) : ℚ) ≤ (j + 1 : Nat) := Nat.cast_le.mpr (Nat.succ_le_succ hij)
  have hPos : ∀ k : Nat, 0 < ((k + 1 : Nat) : ℚ) := fun k => Nat.cast_pos.mpr k.succ_pos
  rcases FP.fin_le (binWidth_nonneg h hLe) with hInf | ⟨w, hFin, hw⟩
  · have hMul : ∀ k : Nat, m.mul .pinf (.fin (k + 1 : Nat)) = .pinf := fun k => by
      show m.rounded (FP.infOf _) = _
      rw [FP.infOf_pos (hPos k)]
      rfl
    rw [hInf, hMul, hMul]
    rfl
  · rw [hFin]
    apply h.add_mono lo
    · exact h.nonneg (mul_nonneg hw (hPos i).le)
    · exact h.mono (mul_le_mul_of_nonneg_left hSteps hw)

theorem bins_sorted (h : m.Rounds) (hLe : lo ≤ hi) : Sorted below (bins m (.fin hi) (.fin lo)) := by
  refine List.pairwise_map.mpr (List.pairwise_lt_range.imp fun hij => ?_)
  exact below_mono (binEdge_mono h hLe hij.le)

/-- A count in a histogram. -/
def countFP (n : Nat) : FP := .fin n

theorem countIn_eq (h : m.Rounds) (edges : List FP) {counts : List Nat}
    (hFew : ∀ n ∈ counts, n + 1 ≤ 2 ^ 53) (x : ℚ) :
    countIn m edges (counts.map countFP) (.fin x) = (tally below edges counts x).map countFP := by
  induction edges generalizing counts with
  | nil => rfl
  | cons edge edges ih =>
    cases counts with
    | nil => rfl
    | cons n counts =>
      obtain ⟨hFirst, hRest⟩ := List.forall_mem_cons.mp hFew
      rw [List.map_cons, countIn, tally, ← below]
      by_cases hx : below x edge = true
      · rw [if_pos hx, if_pos hx, List.map_cons]
        exact congrArg (· :: counts.map countFP) (h.add_one hFirst)
      · rw [if_neg hx, if_neg hx, List.map_cons, ih hRest]

theorem foldl_countIn_eq (h : m.Rounds) (edges : List FP) {counts : List Nat} (bound : Nat)
    (hBound : ∀ n ∈ counts, n ≤ bound) (hFew : bound + xs.length ≤ 2 ^ 53) :
    xs.foldl (fun hist q => countIn m edges hist (.fin q)) (counts.map countFP) =
      (xs.foldl (tally below edges) counts).map countFP := by
  induction xs generalizing counts bound with
  | nil => rfl
  | cons x xs ih =>
    rw [List.length_cons] at hFew
    have hNext : ∀ n ∈ counts, n + 1 ≤ 2 ^ 53 := fun n hn => by
      have hLe := hBound n hn
      omega
    rw [List.foldl_cons, List.foldl_cons, countIn_eq h edges hNext]
    exact ih (bound + 1) (tally_le hBound x) (by omega)

theorem cumulateFrom_eq (h : m.Rounds) (total : Nat) {counts : List Nat}
    (hFew : ∀ n ∈ sums total counts, n ≤ 2 ^ 53) :
    cumulateFrom m (countFP total) (counts.map countFP) = (sums total counts).map countFP := by
  induction counts generalizing total with
  | nil => rfl
  | cons n counts ih =>
    rw [sums] at hFew
    obtain ⟨hFirst, hRest⟩ := List.forall_mem_cons.mp hFew
    have hAdd : m.add (countFP n) (countFP total) = countFP (total + n) := h.add_nat hFirst
    rw [List.map_cons, cumulateFrom, hAdd, ih _ hRest, sums, List.map_cons]

theorem cumulate_eq (h : m.Rounds) {counts : List Nat} (hFew : ∀ n ∈ sums 0 counts, n ≤ 2 ^ 53) :
    cumulate m (counts.map countFP) = (sums 0 counts).map countFP := by
  cases counts with
  | nil => rfl
  | cons n counts =>
    rw [sums, Nat.zero_add] at hFew
    obtain ⟨-, hRest⟩ := List.forall_mem_cons.mp hFew
    rw [List.map_cons, cumulate, cumulateFrom_eq h _ hRest, sums, List.map_cons, Nat.zero_add]

theorem notAbove_le {d : Dtype} {A : NdArray Cell} (b : FP) :
    notAbove (samples d A) b ≤ A.shape.prod :=
  List.countP_le_length.trans_eq ((List.length_map _).trans (length_box _))

/-- The histogram, added up, gives the numbers of elements below the edges. -/
theorem cumulate_histogram {E : Backend} {c : Container} {d : Dtype} {A : NdArray Cell}
    (hE : E.Lawful) (hm : E.machine.Rounds) (h : Sampled c d A) (hLe : lo ≤ hi) :
    ∃ hist, histogram E d c (bins E.machine (.fin hi) (.fin lo)) = .ok hist ∧
      cumulate E.machine hist =
        (bins E.machine (.fin hi) (.fin lo)).map fun b => countFP (notAbove (samples d A) b) := by
  obtain ⟨xs, hPerm, hRun⟩ := forData_eq hE h
  have hLength : xs.length = A.shape.prod :=
    hPerm.length_eq.trans ((List.length_map _).trans (length_box _))
  have hStart : List.replicate nbins (.fin 0) =
      ((bins E.machine (.fin hi) (.fin lo)).map fun _ => 0).map countFP := by
    rw [bins, List.map_map, List.map_map, ← Nat.cast_zero]
    show _ = (List.range nbins).map fun _ => countFP 0
    rw [List.map_const', List.length_range]
    rfl
  have hSums := sums_tally (bins_sorted hm hLe) xs
  have hCount : ∀ b, xs.countP (below · b) = notAbove (samples d A) b := fun b => hPerm.countP_eq _
  refine ⟨_, hRun _ _, ?_⟩
  rw [hStart, foldl_countIn_eq hm _ 0 (by simp) (by rw [hLength, Nat.zero_add]; exact h.few),
    cumulate_eq hm, hSums, List.map_map]
  · exact List.map_congr_left fun b _ => congrArg countFP (hCount b)
  · rw [hSums]
    rintro n hn
    obtain ⟨b, -, rfl⟩ := List.mem_map.mp hn
    exact (hCount b).trans_le ((notAbove_le b).trans h.few)

end

/-! ## The largest difference -/

section

variable {m : Machine}

/-- What is compared with the threshold at an edge: a quotient in doubles. -/
def difference (m : Machine) (size : Nat) (xs ys : List ℚ) (b : FP) : FP :=
  m.div (.fin |(notAbove xs b : ℚ) - notAbove ys b|) (m.round size)

theorem difference_eq (h : m.Rounds) (size : Nat) {xs ys : List ℚ} {b : FP}
    (hx : notAbove xs b ≤ 2 ^ 53) (hy : notAbove ys b ≤ 2 ^ 53) :
    m.div (m.sub (countFP (notAbove xs b)) (countFP (notAbove ys b))).abs (m.round size) =
      difference m size xs ys b := by
  rw [countFP, countFP, h.sub_nat hx hy]
  rfl

/-- The size is rounded to a positive number. -/
theorem div_size (h : m.Rounds) {size : Nat} (hSize : size ≠ 0) (q : ℚ) :
    ∃ r, (q = 0 → r = 0) ∧ m.div (.fin q) (m.round size) = m.round r := by
  have hOne : (FP.fin ((1 : Nat) : ℚ)).le (m.round size) = true := by
    rw [← h.natCast (by decide : 1 ≤ 2 ^ 53)]
    exact h.mono (Nat.cast_le.mpr (Nat.one_le_iff_ne_zero.mpr hSize))
  rcases FP.fin_le hOne with hInf | ⟨s, hFin, hs⟩
  · refine ⟨0, fun _ => rfl, ?_⟩
    rw [hInf]
    rfl
  · have hNe : s ≠ 0 := by
      rintro rfl
      norm_num at hs
    refine ⟨q / s, fun hq => by rw [hq, zero_div], ?_⟩
    rw [hFin]
    show m.rounded (if s = 0 then FP.infOf q else .fin (q / s)) = _
    rw [if_neg hNe]
    rfl

theorem difference_ne_nan (h : m.Rounds) {size : Nat} (hSize : size ≠ 0) (xs ys : List ℚ) (b : FP) :
    difference m size xs ys b ≠ .nan := by
  obtain ⟨r, -, hr⟩ := div_size h hSize |(notAbove xs b : ℚ) - notAbove ys b|
  rw [difference, hr]
  exact h.round_ne_nan r

/-- The larger of two values is below a bound if both are. -/
theorem max_lt_iff {x y t : FP} (hx : x ≠ .nan) (hy : y ≠ .nan) :
    (if x.lt y then y else x).lt t = true ↔ x.lt t = true ∧ y.lt t = true := by
  cases x with
  | nan => exact absurd rfl hx
  | ninf => cases y <;> cases t <;> simp_all [FP.lt]
  | pinf => cases y <;> cases t <;> simp_all [FP.lt]
  | fin p =>
    cases y with
    | nan => exact absurd rfl hy
    | ninf | pinf => cases t <;> simp [FP.lt]
    | fin q =>
      cases t with
      | nan | ninf | pinf => by_cases h : p < q <;> simp [h, FP.lt]
      | fin t =>
        by_cases h : p < q
        · simp only [h, decide_true, if_true, FP.lt, decide_eq_true_eq]
          exact ⟨fun hq => ⟨h.trans hq, hq⟩, fun hq => hq.2⟩
        · simp only [h, decide_false, Bool.false_eq_true, if_false, FP.lt, decide_eq_true_eq]
          exact ⟨fun hp => ⟨hp, (not_lt.mp h).trans_lt hp⟩, fun hp => hp.1⟩

theorem foldl_max_lt {α : Type} {dif : α → FP} (hDif : ∀ b, dif b ≠ .nan) (bs : List α) (t : FP)
    {x : FP} (hx : x ≠ .nan) :
    (bs.foldl (fun x b => if x.lt (dif b) then dif b else x) x).lt t = true ↔
      x.lt t = true ∧ ∀ b ∈ bs, (dif b).lt t = true := by
  induction bs generalizing x with
  | nil => simp
  | cons b bs ih =>
    have hNext : (if x.lt (dif b) then dif b else x) ≠ .nan := by
      split
      · exact hDif b
      · exact hx
    rw [List.foldl_cons, ih hNext, max_lt_iff hx (hDif b), and_assoc, List.forall_mem_cons]

/-- The largest difference is below a threshold if the differences at all edges are. -/
theorem maxDif_lt_iff (h : m.Rounds) {size : Nat} (hSize : size ≠ 0) (max min : FP) {xs ys : List ℚ}
    (hx : ∀ b, notAbove xs b ≤ 2 ^ 53) (hy : ∀ b, notAbove ys b ≤ 2 ^ 53) (t : FP) :
    (maxDif m size ((bins m max min).map fun b => countFP (notAbove xs b))
      ((bins m max min).map fun b => countFP (notAbove ys b))).lt t = true ↔
    ∀ i < nbins, (difference m size xs ys (binEdge m max min i)).lt t = true := by
  have hFold : maxDif m size ((bins m max min).map fun b => countFP (notAbove xs b))
      ((bins m max min).map fun b => countFP (notAbove ys b)) =
      (bins m max min).foldl (fun x b => if x.lt (difference m size xs ys b) then
        difference m size xs ys b else x) .ninf := by
    rw [maxDif, List.zip_map', List.foldl_map]
    simp only [difference_eq h size (hx _) (hy _)]
  rw [hFold, foldl_max_lt (difference_ne_nan h hSize xs ys) _ _ (show FP.ninf ≠ .nan from nofun)]
  constructor
  · rintro ⟨-, hAll⟩ i hi
    exact hAll _ (List.mem_map_of_mem (List.mem_range.mpr hi))
  · intro hAll
    refine ⟨?_, ?_⟩
    · -- no difference is below NaN or the least value
      have hFirst := hAll 0 (by decide)
      cases t with
      | nan => cases hDif : difference m size xs ys (binEdge m max min 0) <;>
          rw [hDif] at hFirst <;> cases hFirst
      | ninf => cases hDif : difference m size xs ys (binEdge m max min 0) <;>
          rw [hDif] at hFirst <;> cases hFirst
      | pinf | fin t => rfl
    · rintro b hb
      obtain ⟨i, hi, rfl⟩ := List.mem_map.mp hb
      exact hAll i (List.mem_range.mp hi)

end

/-! ## The test -/

section

variable {E : Backend} {c c' : Container} {d : Dtype} {A A' : NdArray Cell}

/-- The numbers of elements that a container reports, at least as many as it shows. -/
theorem nitems_ne_zero (hKnown : Known c A) (hSome : A.shape.prod ≠ 0) :
    c.catarr.shape.prod ≠ 0 := by
  have hAxes := hKnown.axes_pos (pos_of_lt_prod (Nat.pos_of_ne_zero hSome))
  refine (prod_pos_of_forall fun n hn => ?_).ne'
  obtain ⟨a, ha, rfl⟩ := List.mem_map.mp hn
  exact hAxes a ha

/-- The bounds of two containers. -/
theorem extremes_both (hE : E.Lawful) (h : Sampled c d A) (h' : Sampled c' d A')
    (hSome : A.shape.prod ≠ 0) :
    ∃ hi lo, (extremes E d c (.ninf, .pinf) >>= extremes E d c') = .ok (.fin hi, .fin lo) ∧
      IsGreatest {q | q ∈ samples d A ++ samples d A'} hi ∧
      IsLeast {q | q ∈ samples d A ++ samples d A'} lo := by
  obtain ⟨xs, hPerm, hRun⟩ := forData_eq hE h
  obtain ⟨ys, hPerm', hRun'⟩ := forData_eq hE h'
  have hBounds := ((BoundsOf.foldl (.inl ⟨rfl, rfl⟩ : BoundsOf [] (.ninf, .pinf)) xs)).foldl ys
  have hMem : ∀ q, q ∈ [] ++ xs ++ ys ↔ q ∈ samples d A ++ samples d A' := fun q =>
    (hPerm.append hPerm').mem_iff
  simp only [BoundsOf, hMem] at hBounds
  rcases hBounds with ⟨hNone, -⟩ | ⟨hi, lo, hRead, hHi, hLo⟩
  · have hEmpty : xs = [] := (List.append_eq_nil_iff.mp hNone).1
    have hLength : (samples d A).length = A.shape.prod := (List.length_map _).trans (length_box _)
    rw [← hPerm.length_eq, hEmpty] at hLength
    exact absurd hLength.symm hSome
  · refine ⟨hi, lo, ?_, hHi, hLo⟩
    rw [extremes, hRun, Result.ok_bind, extremes, hRun', hRead]

/-- The test of two containers of numbers of one type, as many in one as in the other: whether at
every edge of a bin the numbers of elements up to it differ by less than the threshold. The edges
cut the range of all elements into equal parts. -/
theorem iarrayRandomKstest_run (hE : E.Lawful) (hm : E.machine.Rounds) (log : FP → FP)
    (h : Sampled c d A) (h' : Sampled c' d A') (hSome : A.shape.prod ≠ 0)
    (hNitems : c.catarr.shape.prod = c'.catarr.shape.prod) {lo hi : ℚ}
    (hLo : IsLeast {q | q ∈ samples d A ++ samples d A'} lo)
    (hHi : IsGreatest {q | q ∈ samples d A ++ samples d A'} hi) :
    iarrayRandomKstest E log c c' = .ok (decide (∀ i < nbins,
      (difference E.machine c.catarr.shape.prod (samples d A) (samples d A')
        (binEdge E.machine (.fin hi) (.fin lo) i)).lt
          (kstestThreshold E.machine log c.catarr.shape.prod) = true)) := by
  obtain ⟨hi', lo', hBounds, hHi', hLo'⟩ := extremes_both hE h h' hSome
  obtain rfl := hHi.unique hHi'
  obtain rfl := hLo.unique hLo'
  obtain ⟨bounds, hFirst, hSecond⟩ := Result.bind_eq_ok.mp hBounds
  obtain ⟨hist1, hRun1, hSums1⟩ := cumulate_histogram hE hm h (hHi.2 hLo.1)
  obtain ⟨hist2, hRun2, hSums2⟩ := cumulate_histogram hE hm h' (hHi.2 hLo.1)
  rw [iarrayRandomKstest, if_neg (not_not.mpr hNitems)]
  simp only [h.dtype, hFirst, hSecond, hRun1, hRun2, Result.ok_bind, hSums1, hSums2]
  refine congrArg Except.ok (Bool.eq_iff_iff.mpr ?_)
  rw [decide_eq_true_eq]
  exact maxDif_lt_iff hm (nitems_ne_zero h.known hSome) _ _
    (fun b => (notAbove_le b).trans h.few) (fun b => (notAbove_le b).trans h'.few) _

theorem difference_comm (m : Machine) (size : Nat) (xs ys : List ℚ) (b : FP) :
    difference m size xs ys b = difference m size ys xs b := by
  rw [difference, difference, abs_sub_comm]

theorem difference_perm {xs xs' : List ℚ} (hPerm : xs.Perm xs') (m : Machine) (size : Nat)
    (ys : List ℚ) (b : FP) : difference m size xs ys b = difference m size xs' ys b := by
  rw [difference, difference, notAbove, notAbove, hPerm.countP_eq]
  rfl

theorem difference_self {m : Machine} (h : m.Rounds) {size : Nat} (hSize : size ≠ 0) (xs : List ℚ)
    (b : FP) : difference m size xs xs b = .fin 0 := by
  obtain ⟨r, hZero, hr⟩ := div_size h hSize 0
  rw [difference, sub_self, abs_zero, hr, hZero rfl, h.zero]

/-- Two tests agree that compare the same sizes, bounds and differences. -/
theorem iarrayRandomKstest_congr (hE : E.Lawful) (hm : E.machine.Rounds) (log : FP → FP)
    {c₁ c₂ c₁' c₂' : Container}
    {A₁ A₂ A₁' A₂' : NdArray Cell} (h₁ : Sampled c₁ d A₁) (h₂ : Sampled c₂ d A₂)
    (h₁' : Sampled c₁' d A₁') (h₂' : Sampled c₂' d A₂') (hSome : A₁.shape.prod ≠ 0)
    (hSome' : A₁'.shape.prod ≠ 0)
    (hSizes : c₁.catarr.shape.prod = c₂.catarr.shape.prod ↔
      c₁'.catarr.shape.prod = c₂'.catarr.shape.prod)
    (hSize : c₁.catarr.shape.prod = c₂.catarr.shape.prod →
      c₁.catarr.shape.prod = c₁'.catarr.shape.prod)
    (hMem : ∀ q, q ∈ samples d A₁ ++ samples d A₂ ↔ q ∈ samples d A₁' ++ samples d A₂')
    (hDifference : ∀ size b, difference E.machine size (samples d A₁) (samples d A₂) b =
      difference E.machine size (samples d A₁') (samples d A₂') b) :
    iarrayRandomKstest E log c₁ c₂ = iarrayRandomKstest E log c₁' c₂' := by
  by_cases hSame : c₁.catarr.shape.prod = c₂.catarr.shape.prod
  · obtain ⟨hi, lo, -, hHi, hLo⟩ := extremes_both hE h₁ h₂ hSome
    rw [iarrayRandomKstest_run hE hm log h₁ h₂ hSome hSame hLo hHi]
    simp only [hMem] at hLo hHi
    rw [iarrayRandomKstest_run hE hm log h₁' h₂' hSome' (hSizes.mp hSame) hLo hHi, hSize hSame]
    simp only [hDifference]
  · rw [iarrayRandomKstest, iarrayRandomKstest, if_pos hSame, if_pos (mt hSizes.mpr hSame)]

end

namespace KstestExample

/-- Six numbers, and the same numbers in another order. -/
def vector : Container := Reference.plain .int32 [.ofCuts 6 4 2] fun x => .bits (flat [6] x)

def matrix : Container :=
  Reference.plain .int32 [.ofCuts 2 1 1, .ofCuts 3 2 1] fun x => .bits (5 - flat [2, 3] x)

def single : Container := Reference.plain .int32 [.ofCuts 1 1 1] fun _ => .bits 7

theorem rounds_machine : Reference.backend.machine.Rounds where
  mono h := (FP.le_fin _ _).trans (decide_eq_true h)
  exact _ _ := rfl

theorem sampled_line : Sampled vector .int32 vector.contents where
  known := .plain (Reference.plain_plain _ _ (by decide) (by decide)) (.refl _)
  dtype := rfl
  supported := .inr (.inr rfl)
  readable := nofun
  finite := fun _ _ => rfl
  few := by decide

theorem sampled_matrix : Sampled matrix .int32 matrix.contents where
  known := .plain (Reference.plain_plain _ _ (by decide) (by decide)) (.refl _)
  dtype := rfl
  supported := .inr (.inr rfl)
  readable := nofun
  finite := fun _ _ => rfl
  few := by decide

theorem sampled_single : Sampled single .int32 single.contents where
  known := .plain (Reference.plain_plain _ _ (by decide) (by decide)) (.refl _)
  dtype := rfl
  supported := .inr (.inr rfl)
  readable := nofun
  finite := fun _ _ => rfl
  few := by decide

end KstestExample

/-- The test of two containers of numbers of one type. With different numbers of elements it is
refused. Otherwise it tells whether at every edge the numbers of elements up to it differ by less
than the threshold, where the edges cut the range of all elements into equal parts, as far as
doubles can. -/
theorem iarrayRandomKstest_eq {E : Backend} (hE : E.Lawful) (hm : E.machine.Rounds) (log : FP → FP)
    {c c' : Container} {d : Dtype} {A A' : NdArray Cell} (h : Sampled c d A) (h' : Sampled c' d A')
    (hSome : A.shape.prod ≠ 0) {lo hi : ℚ}
    (hLo : IsLeast {q | q ∈ samples d A ++ samples d A'} lo)
    (hHi : IsGreatest {q | q ∈ samples d A ++ samples d A'} hi) :
    iarrayRandomKstest E log c c' =
      if c.catarr.shape.prod ≠ c'.catarr.shape.prod then inaError .invalidShape
      else .ok (decide (∀ i < nbins,
        (difference E.machine c.catarr.shape.prod (samples d A) (samples d A')
          (binEdge E.machine (.fin hi) (.fin lo) i)).lt
            (kstestThreshold E.machine log c.catarr.shape.prod) = true)) := by
  split
  · rename_i hNitems
    rw [iarrayRandomKstest, if_pos hNitems]
  · rename_i hNitems
    exact iarrayRandomKstest_run hE hm log h h' hSome (not_not.mp hNitems) hLo hHi

open KstestExample in
theorem iarrayRandomKstest_eq_line :
    iarrayRandomKstest Reference.backend (fun _ => .fin (-9)) vector matrix = .ok true := by
  have hLo : IsLeast {q | q ∈ samples .int32 vector.contents ++ samples .int32 matrix.contents} 0 :=
    ⟨by decide +kernel, show ∀ q ∈ samples .int32 vector.contents ++ samples .int32 matrix.contents,
      0 ≤ q by decide +kernel⟩
  have hHi : IsGreatest {q | q ∈ samples .int32 vector.contents ++ samples .int32 matrix.contents} 5 :=
    ⟨by decide +kernel, show ∀ q ∈ samples .int32 vector.contents ++ samples .int32 matrix.contents,
      q ≤ 5 by decide +kernel⟩
  rw [iarrayRandomKstest_eq Reference.lawful rounds_machine (fun _ => .fin (-9)) sampled_line
    sampled_matrix (by decide) hLo hHi]
  decide +kernel

end IronArray
