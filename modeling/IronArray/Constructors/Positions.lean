import IronArray.Constructors.Element
import IronArray.Grid.Words

/-!
# Positions as 64-bit words

The conversions between flat positions and coordinates with the `int64_t` arithmetic of the source.
On strides that fit they compute what the conversions on natural numbers do, and for a box whose
number of items fits they are inverse to each other.
-/

namespace IronArray

open Grid

/-! ## The conversions on words -/

namespace Word

/-- `int64_t` division and remainder. -/
def div (a b : Int64) : Result Int64 := if b = 0 then crash .divisionByZero else .ok (a / b)

def mod (a b : Int64) : Result Int64 := if b = 0 then crash .divisionByZero else .ok (a % b)

/-- `compute_strides`. -/
def computeStrides : List Int64 → List Int64
  | [] => []
  | [_] => [1]
  | _ :: n :: ns =>
    let strides := computeStrides (n :: ns)
    n * strides.headD 1 :: strides

/-- `iarray_index_multidim_to_unidim`. -/
def indexMultidimToUnidim (strides index : List Int64) : Int64 :=
  (List.zipWith (· * ·) index strides).foldl (· + ·) 0

/-- `iarray_index_unidim_to_multidim`. -/
def indexUnidimToMultidim (strides : List Int64) (i : Int64) : Result (List Int64) :=
  match strides with
  | [] => .ok []
  | s :: strides => do
    let first ← div i s
    let rest ← (List.zip (s :: strides) strides).mapM fun p => do
      let rest ← mod i p.1
      div rest p.2
    pure (first :: rest)

/-- `iarray_index_unidim_to_multidim_shape`, with strides of its own. -/
def indexUnidimToMultidimShape (shape : List Int64) (i : Int64) : Result (List Int64) :=
  indexUnidimToMultidim (computeStrides shape) i

end Word

/-! ## Words that fit -/

theorem word_div {a b : Nat} (ha : a < 2 ^ 63) (hb : b < 2 ^ 63) (hPos : 0 < b) :
    Word.div (Int64.ofNat a) (Int64.ofNat b) = .ok (Int64.ofNat (a / b)) := by
  rw [Word.div, if_neg (ofNat_ne_zero hPos hb), Int64.ofNat_div ha hb]

theorem word_mod {a b : Nat} (ha : a < 2 ^ 63) (hb : b < 2 ^ 63) (hPos : 0 < b) :
    Word.mod (Int64.ofNat a) (Int64.ofNat b) = .ok (Int64.ofNat (a % b)) := by
  rw [Word.mod, if_neg (ofNat_ne_zero hPos hb), Int64.ofNat_mod ha hb]

/-- Products may wrap around: the strides as words are the words of the strides. -/
theorem word_computeStrides (ns : List Nat) :
    Word.computeStrides (words ns) = words (computeStrides ns) := by
  fun_induction computeStrides ns with
  | case1 => rfl
  | case2 => rfl
  | case3 m n ns strides ih =>
    have hHead : (words strides).headD 1 = Int64.ofNat (strides.headD 1) := by
      cases strides <;> rfl
    rw [words_cons, words_cons, Word.computeStrides, ← words_cons, ih, hHead, words_cons,
      Int64.ofNat_mul]

theorem foldl_words (z : Nat) (ns : List Nat) :
    (words ns).foldl (· + ·) (Int64.ofNat z) = Int64.ofNat (z + ns.sum) := by
  induction ns generalizing z with
  | nil => rfl
  | cons n ns ih =>
    rw [words_cons, List.foldl_cons, ← Int64.ofNat_add, ih, List.sum_cons, Nat.add_assoc]

theorem word_multidimToUnidim (strides index : List Nat) :
    Word.indexMultidimToUnidim (words strides) (words index) =
      Int64.ofNat (indexMultidimToUnidim strides index) := by
  have hTerms : List.zipWith (· * ·) (words index) (words strides) =
      words (List.zipWith (· * ·) index strides) := by
    rw [words, words, words, List.zipWith_map, List.map_zipWith]
    simp only [Int64.ofNat_mul]
  rw [Word.indexMultidimToUnidim, hTerms, indexMultidimToUnidim]
  exact (foldl_words 0 _).trans (by rw [Nat.zero_add])

/-- The coordinates behind the first one, each from the stride before its own. -/
theorem word_coordinates {i p : Nat} (hi : i < 2 ^ 63) {strides : List Nat}
    (hPos : ∀ s ∈ p :: strides, 0 < s) (hFits : ∀ s ∈ p :: strides, s < 2 ^ 63) :
    ((List.zip (words (p :: strides)) (words strides)).mapM fun q => do
      let rest ← Word.mod (Int64.ofNat i) q.1
      Word.div rest q.2) =
      .ok (words (List.zipWith (fun prev s => i % prev / s) (p :: strides) strides)) := by
  induction strides generalizing p with
  | nil => rfl
  | cons s strides ih =>
    rw [List.forall_mem_cons] at hPos hFits
    have hLt : i % p < 2 ^ 63 := (Nat.mod_le i p).trans_lt hi
    rw [words_cons, words_cons, List.zip_cons_cons, List.mapM_cons, List.zipWith_cons_cons,
      word_mod hi hFits.1 hPos.1, Result.ok_bind,
      word_div hLt (hFits.2 s List.mem_cons_self) (hPos.2 s List.mem_cons_self), Result.ok_bind,
      ← words_cons, ih hPos.2 hFits.2]
    rfl

theorem word_unidimToMultidim {strides : List Nat} (hPos : ∀ s ∈ strides, 0 < s)
    (hFits : ∀ s ∈ strides, s < 2 ^ 63) {i : Nat} (hi : i < 2 ^ 63) :
    Word.indexUnidimToMultidim (words strides) (Int64.ofNat i) =
      .ok (words (indexUnidimToMultidim strides i)) := by
  cases strides with
  | nil => rfl
  | cons s strides =>
    have hFirst := word_div hi (hFits s List.mem_cons_self) (hPos s List.mem_cons_self)
    have hRest := word_coordinates hi hPos hFits
    rw [words_cons] at hRest ⊢
    rw [Word.indexUnidimToMultidim, hFirst, Result.ok_bind, hRest]
    rfl

/-! ## Boxes that fit -/

theorem strides_le_prod {ns : List Nat} (hPos : ∀ n ∈ ns, 0 < n) : ∀ s ∈ strides ns, s ≤ ns.prod := by
  induction ns with
  | nil => nofun
  | cons n ns ih =>
    rw [List.forall_mem_cons] at hPos
    rw [strides, List.forall_mem_cons, List.prod_cons]
    have hLe : ns.prod ≤ n * ns.prod := Nat.le_mul_of_pos_left _ hPos.1
    exact ⟨hLe, fun s hs => (ih hPos.2 s hs).trans hLe⟩

section Fits

variable {ns : List Nat}

/-- On a box that fits a position is taken apart into its coordinates. -/
theorem word_unflat (hFits : ns.prod < 2 ^ 63) (hPos : ∀ n ∈ ns, 0 < n) {i : Nat}
    (hi : i < 2 ^ 63) :
    Word.indexUnidimToMultidim (Word.computeStrides (words ns)) (Int64.ofNat i) =
      .ok (words (unflat ns i)) := by
  rw [word_computeStrides, word_unidimToMultidim ?_ ?_ hi, unidimToMultidim_strides hPos]
  · rw [computeStrides_eq]
    exact strides_pos hPos
  · rw [computeStrides_eq]
    exact fun s hs => (strides_le_prod hPos s hs).trans_lt hFits

theorem word_flat (is ns : List Nat) :
    Word.indexMultidimToUnidim (Word.computeStrides (words ns)) (words is) =
      Int64.ofNat (flat ns is) := by
  rw [word_computeStrides, word_multidimToUnidim, multidimToUnidim_strides]

/-- Positions below the number of items and coordinates inside the box correspond. -/
theorem indexConversion_inverse {shape : List Int64} (hPos : ∀ n ∈ shape, 0 < n)
    (hFits : wordProd shape < 2 ^ 63) :
    (∀ i : Int64, 0 ≤ i → i.toInt < wordProd shape → ∃ index,
      Word.indexUnidimToMultidim (Word.computeStrides shape) i = .ok index ∧
        Word.indexUnidimToMultidimShape shape i = .ok index ∧ WordsInBox index shape ∧
          Word.indexMultidimToUnidim (Word.computeStrides shape) index = i) ∧
    ∀ index, WordsInBox index shape →
      0 ≤ Word.indexMultidimToUnidim (Word.computeStrides shape) index ∧
        (Word.indexMultidimToUnidim (Word.computeStrides shape) index).toInt < wordProd shape ∧
          Word.indexUnidimToMultidim (Word.computeStrides shape)
            (Word.indexMultidimToUnidim (Word.computeStrides shape) index) = .ok index := by
  obtain ⟨ns, rfl, hn⟩ := exists_words fun n hn => Int64.le_of_lt (hPos n hn)
  rw [wordProd_words hn] at hFits ⊢
  have hProd : ns.prod < 2 ^ 63 := by exact_mod_cast hFits
  have hPos : ∀ n ∈ ns, 0 < n := fun n hm =>
    (Int64.ofNat_lt_iff_lt (Nat.two_pow_pos 63) (hn n hm)).mp (hPos _ (List.mem_map_of_mem hm))
  constructor
  · intro i hZero hi
    obtain ⟨k, rfl, hWord⟩ : ∃ k, i = Int64.ofNat k ∧ k < 2 ^ 63 :=
      ⟨_, (Int64.ofNat_toNatClampNeg i hZero).symm, i.toNatClampNeg_lt⟩
    rw [Int64.toInt_ofNat_of_lt hWord] at hi
    have hLt : k < ns.prod := by exact_mod_cast hi
    have hIndex := word_unflat hProd hPos hWord
    refine ⟨words (unflat ns k), hIndex, hIndex, wordsInBox_of_inBox (inBox_unflat hLt) hn, ?_⟩
    rw [word_flat, flat_unflat hLt]
  · intro index hIndex
    obtain ⟨is, rfl, his⟩ := hIndex.exists_words hn
    have hFlat := flat_lt his
    have hWord := hFlat.trans hProd
    rw [word_flat, word_unflat hProd hPos hWord, unflat_flat his, Int64.toInt_ofNat_of_lt hWord]
    exact ⟨(Int64.ofNat_le_iff_le (by decide) hWord).mpr (Nat.zero_le _), by exact_mod_cast hFlat,
      rfl⟩

end Fits

/-- Position 7 of a 3 by 4 box. -/
theorem indexConversion_inverse_matrix : ∃ index,
    Word.indexUnidimToMultidim (Word.computeStrides [3, 4]) 7 = .ok index ∧
      Word.indexUnidimToMultidimShape [3, 4] 7 = .ok index ∧ WordsInBox index [3, 4] ∧
        Word.indexMultidimToUnidim (Word.computeStrides [3, 4]) index = 7 :=
  (indexConversion_inverse (by simp) (by decide)).1 7 (by decide) (by decide)

end IronArray
