import IronArray.Settings.Words

/-!
# When the search for a partition ends

`get_nearest_power2` doubles past the largest 64-bit number for lengths from 2 to the 62nd on, and
`boxed_optim_partition` leaves its outer loop only when a size is small enough.
`partitionSearch_returns_iff` says for which shapes and limits both return.
-/

namespace IronArray.Partition

open Grid

/-- A function that runs in rounds returns. -/
def Returns {α : Type} (run : Nat → Option α) : Prop := ∃ fuel r, run fuel = some r

namespace Word

/-! ## The nearest power of two -/

/-- A doubled power of two never exceeds a length from 2 to the 62nd on: after the 62nd comes the
smallest number and then zero. -/
theorem nearestPower2Loop_endless {value : Int64} (hv : 2 ^ 62 ≤ value.toInt) (fuel k : Nat) :
    nearestPower2Loop value fuel (Int64.ofNat (2 ^ k)) = none := by
  induction fuel generalizing k with
  | zero => rfl
  | succ fuel ih =>
    have hLe := toInt_two_pow_le k
    have hGo : Int64.ofNat (2 ^ k) ≤ value ∧ Int64.ofNat (2 ^ k) < Int64.maxValue := by
      rw [Int64.le_iff_toInt_le, Int64.lt_iff_toInt_lt, Int64.toInt_maxValue]
      omega
    have hNext := ih (k + 1)
    rw [pow_succ, Int64.ofNat_mul] at hNext
    rw [nearestPower2Loop, if_pos hGo]
    exact hNext

theorem getNearestPower2_returns_iff {n : Nat} (hn : n < 2 ^ 63) :
    Returns (fun fuel => getNearestPower2 fuel (Int64.ofNat n)) ↔ n < 2 ^ 62 := by
  constructor
  · rintro ⟨fuel, r, h⟩
    by_contra hLarge
    have hValue : 2 ^ 62 ≤ (Int64.ofNat n).toInt := by
      rw [Int64.toInt_ofNat_of_lt hn]
      exact_mod_cast Nat.le_of_not_lt hLarge
    have hNone := nearestPower2Loop_endless hValue fuel 1
    change (nearestPower2Loop _ fuel (Int64.ofNat (2 ^ 1))).bind _ = _ at h
    rw [hNone] at h
    cases h
  · intro hSmall
    exact ⟨62, _, getNearestPower2_words (getNearestPower2_runs hSmall le_rfl)⟩

theorem nearestPower2Loop_mono {value power2 r : Int64} {fuel fuel' : Nat} (hf : fuel ≤ fuel')
    (h : nearestPower2Loop value fuel power2 = some r) :
    nearestPower2Loop value fuel' power2 = some r := by
  induction fuel generalizing fuel' power2 with
  | zero => cases h
  | succ fuel ih =>
    obtain ⟨fuel', rfl⟩ := Nat.exists_eq_add_of_le' (Nat.one_le_of_lt hf)
    rw [nearestPower2Loop] at h ⊢
    split at h
    next hGo =>
      rw [if_pos hGo]
      exact ih (by omega) h
    next hStop => rwa [if_neg hStop]

/-- What is returned does not depend on the rounds that were allowed. -/
theorem getNearestPower2_eq {fuel n : Nat} (hn : n < 2 ^ 63) {r : Int64}
    (h : getNearestPower2 fuel (Int64.ofNat n) = some r) :
    n < 2 ^ 62 ∧ r = Int64.ofNat (2 ^ Nat.log2 n) := by
  have hSmall := (getNearestPower2_returns_iff hn).mp ⟨fuel, r, h⟩
  refine ⟨hSmall, ?_⟩
  obtain ⟨p, hp, hr⟩ := Option.bind_eq_some_iff.mp h
  have hMore : getNearestPower2 (max fuel 62) (Int64.ofNat n) = some r :=
    Option.bind_eq_some_iff.mpr ⟨p, nearestPower2Loop_mono (le_max_left _ _) hp, hr⟩
  have hRuns := getNearestPower2_words (getNearestPower2_runs hSmall (le_max_right fuel 62))
  rw [hRuns] at hMore
  exact (Option.some.inj hMore).symm

/-! ## The search on exponents -/

namespace Limits

variable (L : Limits) (w : Nat)

/-- A partition of elements of `2 ^ w` bytes with `2 ^ n` elements stops the search. -/
def Stops (n : Nat) : Prop :=
  Int64.ofNat (2 ^ (w + n)) < L.minsize ∨ Int64.ofNat (2 ^ (w + n)) ≤ L.maxsize

instance : DecidablePred (L.Stops w) := fun _ => inferInstanceAs (Decidable (_ ∨ _))

variable {L w}

theorem partsize_powers (hw : L.itemsize = Int64.ofNat (2 ^ w)) (es : List Nat) :
    L.partsize (words (powers es)) = Int64.ofNat (2 ^ (w + es.sum)) := by
  rw [partsize, hw]
  clear hw
  induction es generalizing w with
  | nil => rfl
  | cons e es ih =>
    rw [powers_cons, words_cons, List.foldl_cons, ← Int64.ofNat_mul, ← pow_add, ih, List.sum_cons,
      Nat.add_assoc]

theorem ofNat_two_pow_ne_one {e : Nat} (he : e < 62) (hPos : e ≠ 0) :
    Int64.ofNat (2 ^ e) ≠ 1 := by
  have hFits : 2 ^ e < 2 ^ 63 := Nat.pow_lt_pow_right (by decide) (by omega)
  rw [Ne, ofNat_eq_one hFits]
  exact (Nat.one_lt_two_pow hPos).ne'

/-- The search is a descent on the exponents of the parts. -/
theorem shrink_descend (hw : L.itemsize = Int64.ofNat (2 ^ w)) {fuel i : Nat} {es : List Nat}
    (hes : ∀ j, es.getD j 0 < 62) :
    (L.shrink fuel i (words (powers es))).map (fun r => r.2.2) =
      (descend (L.Stops w) fuel i es).map fun ds => words (powers ds) := by
  induction fuel generalizing i es with
  | zero => rfl
  | succ fuel ih =>
    rw [shrink, descend, length_words, length_powers, partsize_powers hw]
    by_cases hi : i < es.length
    · rw [if_pos hi, if_pos hi]
      by_cases hStops : L.Stops w es.sum
      · rw [if_pos hStops]
        by_cases hMin : Int64.ofNat (2 ^ (w + es.sum)) < L.minsize
        · rw [if_pos hMin]
          rfl
        · rw [if_neg hMin, if_pos (hStops.resolve_left hMin)]
          rfl
      · obtain ⟨hMin, hMax⟩ := not_or.mp hStops
        have hLower : ∀ j, (lower i es).getD j 0 < 62 := by
          intro j
          have hj := hes j
          rw [getD_lower]
          split_ifs <;> omega
        rw [if_neg hStops, if_neg hMin, if_neg hMax, getD_words, getD_powers hi]
        by_cases hz : es.getD i 0 = 0
        · rw [if_pos (by rw [hz]; rfl), lower_of_zero hz]
          exact ih hes
        · have hFits : 2 ^ es.getD i 0 < 2 ^ 63 :=
            Nat.pow_lt_pow_right (by decide) ((hes i).trans (by decide))
          have hHalf : Int64.ofNat (2 ^ es.getD i 0) / 2 = Int64.ofNat (2 ^ es.getD i 0 / 2) :=
            (Int64.ofNat_div hFits (by decide)).symm
          have hNext := powers_halve hi hz
          rw [getD_powers hi] at hNext
          rw [if_neg (ofNat_two_pow_ne_one (hes i) hz), hHalf, words_set, hNext]
          exact ih hLower
    · rw [if_neg hi, if_neg hi]
      exact ih hes

theorem shrink_mono {fuel fuel' i : Nat} {parts : List Int64} {r : Label × Int64 × List Int64}
    (hf : fuel ≤ fuel') (h : L.shrink fuel i parts = some r) : L.shrink fuel' i parts = some r := by
  induction fuel generalizing fuel' i parts with
  | zero => cases h
  | succ fuel ih =>
    obtain ⟨fuel', rfl⟩ := Nat.exists_eq_add_of_le' (Nat.one_le_of_lt hf)
    have hLe : fuel ≤ fuel' := by omega
    rw [shrink] at h ⊢
    split_ifs at h ⊢
    · exact h
    · exact h
    · exact ih hLe h
    · exact ih hLe h
    · exact ih hLe h

/-- Where the search ends. -/
theorem shrink_returns_iff (hw : L.itemsize = Int64.ofNat (2 ^ w)) {es : List Nat}
    (hes : ∀ j, es.getD j 0 < 62) :
    Returns (fun fuel => L.shrink fuel 0 (words (powers es))) ↔
      es ≠ [] ∧ ∃ k ≤ es.sum, L.Stops w k := by
  rw [← descend_ends_iff]
  have hSome : ∀ fuel, (L.shrink fuel 0 (words (powers es))).isSome =
      (descend (L.Stops w) fuel 0 es).isSome := by
    intro fuel
    have hMap : (L.shrink fuel 0 (words (powers es))).map (fun r => r.2.2) = _ :=
      shrink_descend hw hes
    have hBoth := congrArg Option.isSome hMap
    rwa [Option.isSome_map, Option.isSome_map] at hBoth
  simp only [Returns, ← Option.isSome_iff_exists, hSome]

/-- The smallest number is not above any maximum. -/
theorem stops_wrapped (L : Limits) {n : Nat} (h : w + n = 63) : L.Stops w n := by
  right
  rw [h, ofNat_two_pow_63, Int64.le_iff_toInt_le]
  exact L.maxsize.le_toInt

/-- As long as sizes fit, one that stops the search is at least that of a single element. -/
theorem stops_item {n : Nat} (h : L.Stops w n) (hFits : w + n < 63) :
    Int64.ofNat (2 ^ w) < L.minsize ∨ Int64.ofNat (2 ^ w) ≤ L.maxsize := by
  have hLe : Int64.ofNat (2 ^ w) ≤ Int64.ofNat (2 ^ (w + n)) := by
    rw [Int64.ofNat_le_iff_le (Nat.pow_lt_pow_right (by decide) (by omega))
      (Nat.pow_lt_pow_right (by decide) hFits)]
    exact Nat.pow_le_pow_right (by decide) (Nat.le_add_right w n)
  rcases h with hMin | hMax
  · exact Or.inl (Int64.lt_of_le_of_lt hLe hMin)
  · exact Or.inr (Int64.le_trans hLe hMax)

/-- The search meets a size to stop at when a single element is one, or when a size wraps around. -/
theorem exists_stops_iff (hw : w ≤ 63) (m : Nat) : (∃ k ≤ m, L.Stops w k) ↔
    Int64.ofNat (2 ^ w) < L.minsize ∨ Int64.ofNat (2 ^ w) ≤ L.maxsize ∨ 63 ≤ w + m := by
  constructor
  · rintro ⟨k, hk, hStops⟩
    by_cases hFits : w + k < 63
    · rcases stops_item hStops hFits with hMin | hMax
      · exact Or.inl hMin
      · exact Or.inr (Or.inl hMax)
    · exact Or.inr (Or.inr (by omega))
  · rintro (hMin | hMax | hWraps)
    · exact ⟨0, Nat.zero_le _, Or.inl hMin⟩
    · exact ⟨0, Nat.zero_le _, Or.inr hMax⟩
    · exact ⟨63 - w, by omega, stops_wrapped L (by omega)⟩

/-! ## Both functions -/

theorem mapM_nearest_returns {shape : List Nat} {fuel : Nat} {parts : List Int64}
    (hShape : ∀ n ∈ shape, n < 2 ^ 63)
    (h : (words shape).mapM (getNearestPower2 fuel) = some parts) :
    (∀ n ∈ shape, n < 2 ^ 62) ∧ parts = words (powers (exponents shape)) := by
  induction shape generalizing parts with
  | nil =>
    cases h
    exact ⟨nofun, rfl⟩
  | cons n shape ih =>
    rw [List.forall_mem_cons] at hShape ⊢
    rw [words_cons, List.mapM_cons] at h
    obtain ⟨p, hp, h⟩ := Option.bind_eq_some_iff.mp h
    obtain ⟨rest, hRest, h⟩ := Option.bind_eq_some_iff.mp h
    cases h
    obtain ⟨hn, rfl⟩ := getNearestPower2_eq hShape.1 hp
    obtain ⟨hAll, rfl⟩ := ih hShape.2 hRest
    exact ⟨⟨hn, hAll⟩, rfl⟩

theorem mapM_nearest_of_lt {shape : List Nat} (h : ∀ n ∈ shape, n < 2 ^ 62) {fuel : Nat}
    (hf : 62 ≤ fuel) :
    (words shape).mapM (getNearestPower2 fuel) = some (words (powers (exponents shape))) :=
  Partition.Limits.mapM_nearest_words (Partition.Limits.mapM_nearest_runs hf h)

theorem boxedOptimPartition_returns_iff (hw : L.itemsize = Int64.ofNat (2 ^ w)) (hItem : w ≤ 63)
    {shape : List Nat} (hShape : ∀ n ∈ shape, n < 2 ^ 63) :
    Returns (fun fuel => L.boxedOptimPartition fuel (words shape)) ↔
      shape ≠ [] ∧ (∀ n ∈ shape, n < 2 ^ 62) ∧
        (L.itemsize < L.minsize ∨ L.itemsize ≤ L.maxsize ∨ 63 ≤ w + (exponents shape).sum) := by
  have hSearch : (∀ n ∈ shape, n < 2 ^ 62) →
      (Returns (fun fuel => L.shrink fuel 0 (words (powers (exponents shape)))) ↔ shape ≠ [] ∧
        (L.itemsize < L.minsize ∨ L.itemsize ≤ L.maxsize ∨ 63 ≤ w + (exponents shape).sum)) := by
    intro hSmall
    have hExponents : ∀ j, (exponents shape).getD j 0 < 62 := by
      intro j
      rw [getD_exponents]
      exact log2_lt_62 (Partition.Limits.getD_lt (by decide) hSmall j)
    rw [shrink_returns_iff hw hExponents, exists_stops_iff hItem, hw, exponents, Ne, Ne,
      List.map_eq_nil_iff]
  constructor
  · rintro ⟨fuel, r, h⟩
    obtain ⟨parts, hParts, h⟩ := Option.bind_eq_some_iff.mp h
    obtain ⟨found, hFound, -⟩ := Option.bind_eq_some_iff.mp h
    obtain ⟨hSmall, rfl⟩ := mapM_nearest_returns hShape hParts
    obtain ⟨hne, hStops⟩ := (hSearch hSmall).mp ⟨fuel, found, hFound⟩
    exact ⟨hne, hSmall, hStops⟩
  · rintro ⟨hne, hSmall, hStops⟩
    obtain ⟨fuel, found, hFound⟩ := (hSearch hSmall).mpr ⟨hne, hStops⟩
    refine ⟨max 62 fuel, L.goto (words shape) found, ?_⟩
    have hMore := shrink_mono (le_max_right 62 fuel) hFound
    have hNearest := mapM_nearest_of_lt hSmall (le_max_left 62 fuel)
    exact Option.bind_eq_some_iff.mpr
      ⟨_, hNearest, Option.bind_eq_some_iff.mpr ⟨found, hMore, rfl⟩⟩

end Limits

/-- `get_nearest_power2` returns for the lengths of a shape and `boxed_optim_partition` for the
shape exactly when there is an axis, every length is below 2 to the 62nd, and a single element is
small enough or the size of the first parts wraps around. -/
theorem partitionSearch_returns_iff (dtype : Dtype) (minsize maxsize : Int64) (btune : Bool)
    {shape : List Nat} (hShape : ∀ n ∈ shape, n < 2 ^ 63) :
    ((∀ n ∈ shape, Returns fun fuel => getNearestPower2 fuel (Int64.ofNat n)) ∧
      Returns fun fuel => Limits.boxedOptimPartition
        ⟨Int64.ofNat dtype.size, minsize, maxsize, btune⟩ fuel (words shape)) ↔
    shape ≠ [] ∧ (∀ n ∈ shape, n < 2 ^ 62) ∧
      (Int64.ofNat dtype.size < minsize ∨ Int64.ofNat dtype.size ≤ maxsize ∨
        2 ^ 63 ≤ dtype.size * 2 ^ (exponents shape).sum) := by
  obtain ⟨w, hItem, hSize⟩ : ∃ w ≤ 63, dtype.size = 2 ^ w := by
    cases dtype
    all_goals first
      | exact ⟨0, by decide, rfl⟩
      | exact ⟨1, by decide, rfl⟩
      | exact ⟨2, by decide, rfl⟩
      | exact ⟨3, by decide, rfl⟩
  have hWraps : 2 ^ 63 ≤ dtype.size * 2 ^ (exponents shape).sum ↔
      63 ≤ w + (exponents shape).sum := by
    rw [hSize, ← pow_add, Nat.pow_le_pow_iff_right (by decide)]
  rw [hWraps, Limits.boxedOptimPartition_returns_iff (congrArg Int64.ofNat hSize) hItem hShape]
  constructor
  · exact fun h => h.2
  · intro h
    exact ⟨fun n hn => (getNearestPower2_returns_iff (hShape n hn)).mpr (h.2.1 n hn), h⟩

/-- A thousand by a thousand doubles with the default sizes of a chunk. -/
theorem partitionSearch_returns_matrix :
    (∀ n ∈ [1000, 1000], Returns fun fuel => getNearestPower2 fuel (Int64.ofNat n)) ∧
      Returns fun fuel => Limits.boxedOptimPartition
        ⟨Int64.ofNat Dtype.double.size, 262144, 16777216, false⟩ fuel (words [1000, 1000]) :=
  (partitionSearch_returns_iff .double 262144 16777216 false (by decide)).mpr
    ⟨by decide, by decide, Or.inr (Or.inl (by decide))⟩

/-- A single element larger than the maximum, an array without axes and a length of 2 to the 62nd:
the limits are those that the advice passes on for the sizes asked for, or for none. -/
theorem partitionSearch_endless :
    (¬ Returns fun fuel => ((⟨1, 4, 0, 0⟩ : Sizes).chunkLimits configDefaults .double).words
      |>.boxedOptimPartition fuel (words [1])) ∧
    (¬ Returns fun fuel => ((⟨0, 0, 0, 0⟩ : Sizes).chunkLimits configDefaults .double).words
      |>.boxedOptimPartition fuel (words [])) ∧
    ¬ Returns fun fuel => getNearestPower2 fuel (Int64.ofNat (2 ^ 62)) := by
  refine ⟨fun h => ?_, fun h => ?_, fun h => ?_⟩
  · have hEnds := (Limits.boxedOptimPartition_returns_iff (w := 3) rfl (by decide) (by decide)).mp h
    exact absurd hEnds.2.2 (by decide)
  · have hEnds := (Limits.boxedOptimPartition_returns_iff (w := 3) rfl (by decide) (by decide)).mp h
    exact hEnds.1 rfl
  · exact absurd ((getNearestPower2_returns_iff (by decide)).mp h) (by decide)

end Word

end IronArray.Partition
