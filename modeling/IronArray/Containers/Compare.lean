import IronArray.Core.Limits
import IronArray.Core.Number
import IronArray.Grid.Sums
import IronArray.Iterators.Read
import Mathlib.Tactic.NormNum

/-!
# Comparing two containers

`iarray_container_equal` and `iarray_container_almost_equal` read both containers in blocks of one
shape and compare the buffers item by item. `compareContainers_iff`: a comparison succeeds exactly
if no pair of corresponding elements differs. For integers and booleans this is equality
(`containerEqual_logical`); `almostEqual_iff` says when the relative difference, which is divided by
a signed element, is one.
-/

namespace IronArray

open Grid

/-! ## The functions -/

/-- The block shape: along each axis the longer of the two chunks. -/
def comparedBlocks (a b : Container) : List Nat :=
  (List.range a.dtshape.ndim).map fun i =>
    max (a.storage.chunkshape.getD i 0) (b.storage.chunkshape.getD i 0)

/-- The comparison of two buffers at one item. -/
abbrev Differ := (Nat → Cell) → (Nat → Cell) → Nat → Bool

/-- The loop `while (has_next(iter_a))`. Items of a type without a comparison are refused with the
first block. -/
def compareLoop (E : Backend) (differ : Option Differ) :
    Nat → IterReadBlock → IterReadBlock → Result Unit
  | rounds, iterA, iterB =>
    if iterA.hasNext then
      match rounds with
      | 0 => .ok ()
      | rounds + 1 => do
        let (iterA, valA) ← iterA.next E (fun _ => .bits 0) 0
        let (iterB, valB) ← iterB.next E (fun _ => .bits 0) 0
        match differ with
        | none => inaError .invalidDtype
        | some differ =>
          if (List.range valA.blockSize).any (differ valA.blockPointer valB.blockPointer) then
            inaError .assertionFailed
          else compareLoop E (some differ) rounds iterA iterB
    else .ok ()

/-- What both functions do, up to the comparison of two items. -/
def compareContainers (E : Backend) (a b : Container) (differ : Option Differ) : Result Unit :=
  if a.dtshape.dtype ≠ b.dtshape.dtype then inaError .invalidDtype
  else if a.dtshape.ndim ≠ b.dtshape.ndim then inaError .invalidNdim
  else if a.dtshape.shape ≠ b.dtshape.shape then inaError .invalidShape
  else do
    let iterA ← iarrayIterReadBlockNew E a (comparedBlocks a b) false
    let iterB ← iarrayIterReadBlockNew E b (comparedBlocks a b) false
    compareLoop E differ iterA.totalBlocks iterA iterB

/-- The relative difference of two floating items exceeds the tolerance. -/
def relativeDiffers (d : Dtype) (tol : FP) (x y : Cell) : Bool :=
  let rdiff := ((x.num d).toFP.sub (y.num d).toFP).abs.div (x.num d).toFP
  tol.lt rdiff

/-- `iarray_container_almost_equal`. Items of any type other than `double` are read as `float`. -/
def iarrayContainerAlmostEqual (E : Backend) (a b : Container) (tol : FP) : Result Unit :=
  let d := a.dtshape.dtype
  let t := if d = .double then .double else .float
  compareContainers E a b (some fun p q i =>
    relativeDiffers t tol (loadAt E.machine d p (i * t.size) t) (loadAt E.machine d q (i * t.size) t))

/-- The comparison of items of an integer or boolean type: integers are subtracted in their own
type, where overflow wraps around. -/
def itemsDiffer (d : Dtype) (x y : Cell) : Bool :=
  if d = .bool then x.toInt d ≠ y.toInt d else d.wrap (x.toInt d - y.toInt d) ≠ 0

/-- `iarray_container_equal`. Its switch has no case for floating types. -/
def iarrayContainerEqual (E : Backend) (a b : Container) : Result Unit :=
  let d := a.dtshape.dtype
  compareContainers E a b (if d.isFloating then none else some fun p q i => itemsDiffer d (p i) (q i))

/-! ## The loop -/

section Loop

variable {E : Backend} {a b : Container} {A B : NdArray Cell} {bs : List Nat}
  {iterA iterB : IterReadBlock} {differ : Differ} {differs : Cell → Cell → Bool}

/-- Two blocks at the same place differ where two of their elements do. -/
theorem blocks_differ_iff {k : Nat} {valA valB : IterValue} (hSame : B.shape = A.shape)
    (hDiffer : ∀ p q i, differ p q i = differs (p i) (q i))
    (hA : valA.At A bs false k) (hB : valB.At B bs false k) :
    (List.range valA.blockSize).any (differ valA.blockPointer valB.blockPointer) ↔
      ∃ y, InBox y (tileShape A.shape bs (unflat (tileCounts A.shape bs) k)) ∧
        differs (A.get (addIdx (tileStart bs (unflat (tileCounts A.shape bs) k)) y))
          (B.get (addIdx (tileStart bs (unflat (tileCounts A.shape bs) k)) y)) := by
  have hShapeB := hB.blockShape
  have hStartB := hB.elemIndex
  rw [hSame] at hShapeB hStartB
  have hItem : ∀ y, InBox y valA.blockShape →
      differ valA.blockPointer valB.blockPointer (flat valA.blockShape y) =
        differs (A.get (addIdx valA.elemIndex y)) (B.get (addIdx valB.elemIndex y)) := by
    intro y hy
    have hShape : valB.blockShape = valA.blockShape := hShapeB.trans hA.blockShape.symm
    have hItemB := hB.holds y (hShape ▸ hy)
    have hItemA := hA.holds y hy
    simp only [bufferShape, Bool.false_eq_true, if_false] at hItemA hItemB
    rw [hShape] at hItemB
    rw [hDiffer, hItemA, hItemB]
  rw [← hA.blockShape, ← hA.elemIndex]
  rw [List.any_eq_true]
  constructor
  · rintro ⟨i, hi, hDiff⟩
    rw [List.mem_range, hA.blockSize] at hi
    refine ⟨unflat valA.blockShape i, inBox_unflat hi, ?_⟩
    have hEq := hItem _ (inBox_unflat hi)
    rw [flat_unflat hi, hDiff, hStartB, ← hA.elemIndex] at hEq
    exact hEq.symm
  · rintro ⟨y, hy, hDiff⟩
    refine ⟨flat valA.blockShape y, ?_, ?_⟩
    · rw [List.mem_range, hA.blockSize]
      exact flat_lt hy
    · rw [hItem y hy, hStartB, ← hA.elemIndex]
      exact hDiff

/-- From the current block on no pair of elements differs, or the loop ends with an error. -/
theorem compareLoop_iff (hE : E.Lawful) (hKnownA : Known a A) (hKnownB : Known b B)
    (hSame : B.shape = A.shape) (hDiffer : ∀ p q i, differ p q i = differs (p i) (q i))
    (hLen : A.shape.length = bs.length) (hPos : ∀ d ∈ bs, 0 < d)
    (hReadA : a.Readable (bufferSides A.shape bs false))
    (hReadB : b.Readable (bufferSides A.shape bs false)) {rounds : Nat}
    (hA : Reading a A bs false false iterA)
    (hB : Reading b B bs false false iterB) (hNumber : iterB.nblock = iterA.nblock)
    (hRounds : iterA.nblock + rounds = (tileCounts A.shape bs).prod) :
    compareLoop E (some differ) rounds iterA iterB = .ok () ↔
      ∀ k, iterA.nblock ≤ k → k < (tileCounts A.shape bs).prod →
        ∀ y, InBox y (tileShape A.shape bs (unflat (tileCounts A.shape bs) k)) →
          ¬ differs (A.get (addIdx (tileStart bs (unflat (tileCounts A.shape bs) k)) y))
            (B.get (addIdx (tileStart bs (unflat (tileCounts A.shape bs) k)) y)) := by
  induction rounds generalizing iterA iterB with
  | zero =>
    have hEnd : ¬ iterA.hasNext := by
      rw [IterReadBlock.hasNext, hA.total, decide_eq_true_eq]
      omega
    rw [compareLoop, if_neg hEnd]
    refine iff_of_true rfl fun k hLow hHigh => ?_
    omega
  | succ rounds ih =>
    have hk : iterA.nblock < (tileCounts A.shape bs).prod := by omega
    have hMore : iterA.hasNext := by
      rw [IterReadBlock.hasNext, hA.total, decide_eq_true_eq]
      exact hk
    have hNone : ∀ c : Container, false → bs.prod * c.catarr.itemsize + E.maxOverhead ≤ 0 :=
      fun _ hExternal => absurd hExternal Bool.false_ne_true
    obtain ⟨iterA₁, valA, hNextA, hA₁, hNumberA, hAtA⟩ :=
      readBlock_next hE hKnownA hA hLen hPos hReadA (hNone a) hk fun _ => .bits 0
    obtain ⟨iterB₁, valB, hNextB, hB₁, hNumberB, hAtB⟩ :=
      readBlock_next hE hKnownB hB (hSame ▸ hLen) hPos (hSame ▸ hReadB) (hNone b)
        (by rw [hSame, hNumber]; exact hk) fun _ => .bits 0
    rw [hNumber] at hAtB hNumberB
    rw [compareLoop, if_pos hMore]
    simp only [hNextA, hNextB, Result.ok_bind]
    have hBlocks := blocks_differ_iff hSame hDiffer hAtA hAtB
    split
    · rename_i hFound
      obtain ⟨y, hy, hDiff⟩ := hBlocks.mp hFound
      constructor
      · intro hOk
        cases hOk
      · intro h
        exact absurd hDiff (h _ le_rfl hk y hy)
    · rename_i hFound
      rw [ih hA₁ hB₁ (hNumberB.trans hNumberA.symm) (by omega), hNumberA]
      constructor
      · intro h k hLow hHigh y hy
        rcases Nat.eq_or_lt_of_le hLow with rfl | hLater
        · intro hDiff
          exact hFound (hBlocks.mpr ⟨y, hy, hDiff⟩)
        · exact h k hLater hHigh y hy
      · intro h k hLow
        exact h k (Nat.le_of_succ_le hLow)

end Loop

/-! ## The block shape -/

section Chunks

variable {E : Backend} {a b c : Container} {A B : NdArray Cell}

theorem length_comparedBlocks : (comparedBlocks a b).length = a.dtshape.ndim := by
  rw [comparedBlocks, List.length_map, List.length_range]

theorem comparedBlocks_pos (h : Known a A) (hChunks : ∀ d ∈ a.storage.chunkshape, 0 < d) :
    ∀ d ∈ comparedBlocks a b, 0 < d := by
  intro d hd
  obtain ⟨i, hi, rfl⟩ := List.mem_map.mp hd
  have hIndex : i < a.storage.chunkshape.length := by
    rw [List.mem_range, Dtshape.ndim, h.shape] at hi
    rw [length_stored h.chunkshape, CatArray.chunkshape, chunkshapeOf, List.length_map]
    exact hi.trans_le h.ndim_le
  rw [List.getD_eq_getElem _ _ hIndex]
  exact lt_max_of_lt_left (hChunks _ (List.getElem_mem hIndex))

end Chunks

/-! ## The comparison -/

section Compare

variable {E : Backend} {a b : Container} {A B : NdArray Cell} {differ : Option Differ}

/-- Only containers of one type and shape can be equal. -/
theorem compareContainers_dtshape (h : compareContainers E a b differ = .ok ()) :
    b.dtshape = a.dtshape := by
  unfold compareContainers at h
  split at h
  · cases h
  rename_i hDtype
  split at h
  · cases h
  split at h
  · cases h
  rename_i hShape
  rcases hA : a.dtshape with ⟨d, shape⟩
  rcases hB : b.dtshape with ⟨d', shape'⟩
  rw [hA, hB] at hDtype hShape
  obtain rfl : d = d' := not_not.mp hDtype
  obtain rfl : shape = shape' := not_not.mp hShape
  rfl

/-- The two iterators of containers of one type and shape. -/
theorem compareContainers_eq (hA : Known a A) (hB : Known b B) (hSame : b.dtshape = a.dtshape)
    (hPos : ∀ d ∈ comparedBlocks a b, 0 < d) :
    ∃ iterA iterB, Reading a A (comparedBlocks a b) false false iterA ∧
      Reading b B (comparedBlocks a b) false false iterB ∧ iterA.nblock = 0 ∧ iterB.nblock = 0 ∧
      compareContainers E a b differ =
        compareLoop E differ (tileCounts A.shape (comparedBlocks a b)).prod iterA iterB := by
  have hShape : B.shape = A.shape := by rw [← hB.shape, hSame, hA.shape]
  have hLen : A.shape.length = (comparedBlocks a b).length := by
    rw [length_comparedBlocks, Dtshape.ndim, hA.shape]
  rw [compareContainers, hSame, if_neg (not_not.mpr rfl), if_neg (not_not.mpr rfl),
    if_neg (not_not.mpr rfl), iarrayIterReadBlockNew, iarrayIterReadBlockNew, hSame, hA.shape,
    iterBlocks_mapM hPos hLen]
  refine ⟨_, _, ⟨rfl, rfl, rfl, rfl, rfl, rfl⟩, ⟨rfl, rfl, ?_, ?_, rfl, rfl⟩, rfl, rfl, rfl⟩
  · rw [hShape]
  · rw [hShape]

/-- A comparison succeeds exactly if no pair of corresponding elements differs. -/
theorem compareContainers_iff (hE : E.Lawful) (hA : Known a A) (hB : Known b B)
    (hSame : b.dtshape = a.dtshape) (hPos : ∀ d ∈ comparedBlocks a b, 0 < d)
    (hReadA : a.Readable (bufferSides A.shape (comparedBlocks a b) false))
    (hReadB : b.Readable (bufferSides A.shape (comparedBlocks a b) false))
    {differ : Differ} {differs : Cell → Cell → Bool}
    (hDiffer : ∀ p q i, differ p q i = differs (p i) (q i)) :
    compareContainers E a b (some differ) = .ok () ↔
      ∀ x, InBox x A.shape → ¬ differs (A.get x) (B.get x) := by
  have hShape : B.shape = A.shape := by rw [← hB.shape, hSame, hA.shape]
  have hLen : A.shape.length = (comparedBlocks a b).length := by
    rw [length_comparedBlocks, Dtshape.ndim, hA.shape]
  obtain ⟨iterA, iterB, hReadingA, hReadingB, hFirstA, hFirstB, hRun⟩ :=
    compareContainers_eq (E := E) hA hB hSame hPos
  rw [hRun, compareLoop_iff hE hA hB hShape hDiffer hLen hPos hReadA hReadB hReadingA hReadingB
    (hFirstB.trans hFirstA.symm) (by rw [hFirstA, Nat.zero_add]), hFirstA,
    ← forall_tiles_iff (P := fun x => ¬ differs (A.get x) (B.get x)) hPos hLen]
  exact ⟨fun h k hk => h k (Nat.zero_le k) hk, fun h k _ hk => h k hk⟩

/-- Without elements there is no block to read. -/
theorem compareContainers_empty (hA : Known a A) (hB : Known b B) (hSame : b.dtshape = a.dtshape)
    (hPos : ∀ d ∈ comparedBlocks a b, 0 < d) (hEmpty : A.shape.prod = 0) :
    compareContainers E a b differ = .ok () := by
  have hLen : A.shape.length = (comparedBlocks a b).length := by
    rw [length_comparedBlocks, Dtshape.ndim, hA.shape]
  obtain ⟨iterA, iterB, hReadingA, -, hFirst, -, hRun⟩ :=
    compareContainers_eq (E := E) hA hB hSame hPos
  have hNone : (tileCounts A.shape (comparedBlocks a b)).prod = 0 :=
    tileCounts_zero hLen (List.prod_eq_zero_iff.mp hEmpty)
  have hEnd : ¬ iterA.hasNext := by
    rw [IterReadBlock.hasNext, hReadingA.total, hNone, hFirst]
    decide
  rw [hRun, hNone, compareLoop, if_neg hEnd]

/-- A block length of zero ends the comparison. -/
theorem compareContainers_zero (hSame : b.dtshape = a.dtshape) (hZero : 0 ∈ comparedBlocks a b) :
    compareContainers E a b differ ≠ .ok () := by
  intro h
  rw [compareContainers, hSame, if_neg (not_not.mpr rfl), if_neg (not_not.mpr rfl),
    if_neg (not_not.mpr rfl)] at h
  obtain ⟨iterA, hIter, -⟩ := Result.bind_eq_ok.mp h
  obtain ⟨aux, hAux, -⟩ := Result.bind_eq_ok.mp hIter
  obtain ⟨i, hi, hEq⟩ := List.mem_iff_getElem.mp hZero
  have hShape : i < a.dtshape.shape.length := by rwa [length_comparedBlocks] at hi
  have hPair : i < (List.zip a.dtshape.shape (comparedBlocks a b)).length := by
    rw [List.length_zip]
    exact lt_min hShape hi
  have hAll := Result.mapM_eq_ok hAux
  have hBlocks := hAll.get hPair (hAll.length_eq ▸ hPair)
  rw [List.get_eq_getElem, List.getElem_zip, hEq] at hBlocks
  cases hBlocks

/-- A transposed container of other than floating data is refused with its first block. -/
theorem compareContainers_refused (hE : E.Lawful) (hA : Known a A) (hB : Known b B)
    (hSame : b.dtshape = a.dtshape) (hPos : ∀ d ∈ comparedBlocks a b, 0 < d)
    (hInteger : ¬ a.dtshape.dtype.isFloating) (hTransposed : a.transposed ∨ b.transposed)
    (hSome : A.shape.prod ≠ 0) : compareContainers E a b differ ≠ .ok () := by
  have hShape : B.shape = A.shape := by rw [← hB.shape, hSame, hA.shape]
  have hLen : A.shape.length = (comparedBlocks a b).length := by
    rw [length_comparedBlocks, Dtshape.ndim, hA.shape]
  obtain ⟨iterA, iterB, hReadingA, hReadingB, hFirstA, hFirstB, hRun⟩ :=
    compareContainers_eq (E := E) hA hB hSame hPos
  have hLengths := pos_of_lt_prod (Nat.pos_of_ne_zero hSome)
  have hTotal := prod_tileCounts_pos hPos hLen hLengths
  have hMore : iterA.hasNext := by
    rw [IterReadBlock.hasNext, hReadingA.total, hFirstA, decide_eq_true_eq]
    exact hTotal
  have hNone : ∀ c : Container,
      false → (comparedBlocks a b).prod * c.catarr.itemsize + E.maxOverhead ≤ 0 :=
    fun _ hExternal => absurd hExternal Bool.false_ne_true
  obtain ⟨rounds, hRounds⟩ := Nat.exists_eq_add_one_of_ne_zero hTotal.ne'
  rw [hRun, hRounds, compareLoop, if_pos hMore]
  by_cases hFirst : a.transposed
  · rw [readBlock_refused hE hA hReadingA hLen hPos hFirst hInteger (hNone a)
      (hFirstA.trans_lt hTotal)]
    intro hOk
    cases hOk
  · have hSecond : b.transposed := hTransposed.resolve_left hFirst
    obtain ⟨_, _, hNext, -⟩ := readBlock_next hE hA hReadingA hLen hPos
      (fun hTransposed => absurd hTransposed hFirst) (hNone a) (hFirstA.trans_lt hTotal)
      fun _ => .bits 0
    rw [hNext, Result.ok_bind, readBlock_refused hE hB hReadingB (hShape ▸ hLen) hPos hSecond
      (hSame ▸ hInteger) (hNone b) (by rw [hFirstB, hShape]; exact hTotal)]
    intro hOk
    cases hOk

end Compare

/-! ## Equality of integers and booleans -/

/-- Integers of a type differ exactly if their difference in that type is not zero. -/
theorem itemsDiffer_iff {d : Dtype} (hd : d.isFloating = false) (x y : Cell) :
    itemsDiffer d x y ↔ x.toInt d ≠ y.toInt d := by
  unfold itemsDiffer
  by_cases hBool : d = .bool
  · rw [if_pos hBool, decide_eq_true_eq]
  · rw [if_neg hBool, decide_eq_true_eq, not_iff_not]
    constructor
    · intro hZero
      have hMod := Dtype.wrap_emod hBool (x.toInt d - y.toInt d)
      rw [hZero, Int.zero_emod] at hMod
      have hSame : x.toInt d % d.card = y.toInt d % d.card :=
        Int.emod_eq_emod_iff_emod_sub_eq_zero.mpr hMod.symm
      rw [← Cell.wrap_toInt hd x, ← Cell.wrap_toInt hd y]
      exact Dtype.wrap_congr hBool hSame
    · intro hSame
      rw [hSame, Int.sub_self]
      apply Dtype.wrap_of_bounds
      · cases d <;> decide
      · cases d <;> decide

/-- A container of integers or booleans with the elements of `A`, in chunks of positive lengths. -/
structure Comparable (c : Container) (A : NdArray Cell) : Prop where
  known : Known c A
  integer : c.dtshape.dtype.isFloating = false
  chunks : ∀ d ∈ c.storage.chunkshape, 0 < d

/-- Two containers have the same type, rank, shape and elements. -/
def LogicallyEqual (a b : Container) (A B : NdArray Cell) : Prop :=
  b.dtshape = a.dtshape ∧ ∀ x, InBox x A.shape →
    (A.get x).toInt a.dtshape.dtype = (B.get x).toInt a.dtshape.dtype

section Equal

variable {E : Backend} {a b c : Container} {A B C : NdArray Cell}

/-- Equality is logical equality, except that transposed elements cannot be read. -/
theorem containerEqual_iff (hE : E.Lawful) (hA : Comparable a A) (hB : Comparable b B) :
    iarrayContainerEqual E a b = .ok () ↔
      LogicallyEqual a b A B ∧ (a.transposed ∨ b.transposed → A.shape.prod = 0) := by
  have hSwitch : ¬ a.dtshape.dtype.isFloating := by simp [hA.integer]
  unfold iarrayContainerEqual
  simp only
  rw [if_neg hSwitch]
  by_cases hSame : b.dtshape = a.dtshape
  · have hPos := @comparedBlocks_pos a b A hA.known hA.chunks
    by_cases hEmpty : A.shape.prod = 0
    · refine iff_of_true (compareContainers_empty hA.known hB.known hSame hPos hEmpty) ?_
      refine ⟨⟨hSame, fun x hx => ?_⟩, fun _ => hEmpty⟩
      exact absurd hEmpty (prod_pos_of_forall hx.pos).ne'
    · by_cases hTransposed : a.transposed ∨ b.transposed
      · refine iff_of_false ?_ fun h => hEmpty (h.2 hTransposed)
        exact compareContainers_refused hE hA.known hB.known hSame hPos hSwitch hTransposed hEmpty
      · obtain ⟨hFlatA, hFlatB⟩ := not_or.mp hTransposed
        have hDiffer : ∀ (p q : Nat → Cell) (i : Nat), itemsDiffer a.dtshape.dtype (p i) (q i) =
            itemsDiffer a.dtshape.dtype (p i) (q i) := fun _ _ _ => rfl
        rw [compareContainers_iff hE hA.known hB.known hSame hPos (fun h => absurd h hFlatA)
          (fun h => absurd h hFlatB) hDiffer]
        simp only [itemsDiffer_iff hA.integer, not_not]
        exact ⟨fun h => ⟨⟨hSame, h⟩, fun h => absurd h hTransposed⟩, fun h => h.1.2⟩
  · exact iff_of_false (fun h => hSame (compareContainers_dtshape h)) fun h => hSame h.1.1

end Equal

namespace CompareExample

/-- The same two elements in chunks of one and in one chunk. -/
def single : Axis := .ofCuts 2 1 1

def whole : Axis := .ofCuts 2 2 2

def bytes (x : Axis) : Container := Reference.plain .uint8 [x] fun i => .bits (i.getD 0 0)

theorem comparable_bytes (x : Axis) (hx : 0 < x.shape) (hShort : ShortTiles [x]) :
    Comparable (bytes x) (bytes x).contents where
  known := .plain (Reference.plain_plain _ _ (show 1 ≤ dimensionMax by decide) hShort) (.refl _)
  integer := rfl
  chunks := by
    intro d hd
    obtain rfl := List.mem_singleton.mp hd
    exact x.chunk_pos hx

open ReadExample in
theorem comparable_view : Comparable view matrix.contents.transpose where
  known := by
    apply Known.transposed
    exact transpose_shows Reference.lawful (Reference.plain_plain _ _ (by decide) (by decide)) rfl
  integer := rfl
  chunks := by decide

end CompareExample

/-! ## Relative differences -/

/-- The elements of `A` have the values `u`. -/
def Values (d : Dtype) (A : NdArray Cell) (u : List Nat → ℚ) : Prop :=
  ∀ x, InBox x A.shape → (A.get x).num d = .fp (.fin (u x))

/-- The quotient that is compared has the sign of the first element. -/
theorem relativeDiffers_iff {d : Dtype} {tol u v : ℚ} {x y : Cell} (hTol : 0 ≤ tol)
    (hx : x.num d = .fp (.fin u)) (hy : y.num d = .fp (.fin v)) (hu : u ≠ 0) :
    relativeDiffers d (.fin tol) x y ↔ 0 < u ∧ tol * |u| < |u - v| := by
  have hQuotient : relativeDiffers d (.fin tol) x y = decide (tol < |u - v| / u) := by
    have hSub : (FP.fin u).sub (.fin v) = .fin (u - v) := by
      change FP.fin (u + -1 * v) = _
      rw [neg_one_mul, ← sub_eq_add_neg]
    simp only [relativeDiffers, hx, hy, Num.toFP, hSub, FP.abs, FP.div, if_neg hu, FP.lt]
  rw [hQuotient, decide_eq_true_eq]
  rcases lt_or_gt_of_ne hu with hNeg | hPos
  · -- the quotient is not positive
    have hLow : |u - v| / u ≤ 0 := div_nonpos_of_nonneg_of_nonpos (abs_nonneg _) hNeg.le
    exact iff_of_false (not_lt.mpr (hLow.trans hTol)) fun h => lt_asymm h.1 hNeg
  · rw [abs_of_pos hPos, lt_div_iff₀ hPos]
    exact (and_iff_right hPos).symm

/-- The blocks that are compared have sides that fit an `int`. -/
def ComparedShort (a b : Container) : Prop :=
  ∀ d ∈ List.zipWith min (comparedBlocks a b) a.dtshape.shape, d < 2 ^ 31

section Almost

variable {E : Backend} {a b : Container} {A B : NdArray Cell} {u v : List Nat → ℚ} {tol : ℚ}

/-- Only positive elements are compared. -/
theorem containerAlmostEqual_iff (hE : E.Lawful) (hA : Known a A) (hB : Known b B)
    (hShort : a.transposed ∨ b.transposed → ComparedShort a b)
    (hFloat : a.dtshape.dtype.isFloating) (hSame : b.dtshape = a.dtshape)
    (hu : Values a.dtshape.dtype A u) (hv : Values a.dtshape.dtype B v)
    (hNonzero : ∀ x, InBox x A.shape → u x ≠ 0) (hTol : 0 ≤ tol)
    (hPos : ∀ d ∈ comparedBlocks a b, 0 < d) :
    iarrayContainerAlmostEqual E a b (.fin tol) = .ok () ↔
      ∀ x, InBox x A.shape → 0 < u x → |u x - v x| ≤ tol * |u x| := by
  have hShape : B.shape = A.shape := by rw [← hB.shape, hSame, hA.shape]
  unfold iarrayContainerAlmostEqual
  by_cases hEmpty : A.shape.prod = 0
  · refine iff_of_true (compareContainers_empty hA hB hSame hPos hEmpty) fun x hx => ?_
    exact absurd hEmpty (prod_pos_of_forall hx.pos).ne'
  · have hSides : bufferSides A.shape (comparedBlocks a b) false =
        List.zipWith min (comparedBlocks a b) a.dtshape.shape := by
      rw [hA.shape]
      rfl
    have hType : (if a.dtshape.dtype = .double then Dtype.double else .float) = a.dtshape.dtype := by
      cases hd : a.dtshape.dtype <;> simp_all [Dtype.isFloating]
    have hDiffer : ∀ (p q : Nat → Cell) (i : Nat),
        relativeDiffers a.dtshape.dtype (.fin tol)
          (loadAt E.machine a.dtshape.dtype p (i * a.dtshape.dtype.size) a.dtshape.dtype)
          (loadAt E.machine a.dtshape.dtype q (i * a.dtshape.dtype.size) a.dtshape.dtype) =
        relativeDiffers a.dtshape.dtype (.fin tol) (p i) (q i) := by
      intro p q i
      rw [loadAt_aligned, loadAt_aligned]
    simp only [hType]
    rw [compareContainers_iff hE hA hB hSame hPos
      (fun hFirst => ⟨hFloat, hSides ▸ hShort (.inl hFirst)⟩)
      (fun hSecond => ⟨hSame ▸ hFloat, hSides ▸ hShort (.inr hSecond)⟩) hDiffer]
    refine forall₂_congr fun x hx => ?_
    rw [relativeDiffers_iff hTol (hu x hx) (hv x (hShape ▸ hx)) (hNonzero x hx), not_and, not_lt]

end Almost

namespace CompareExample

/-- The number `q` twice. -/
def twice (q : ℚ) (x : Axis) : Container := Reference.plain .double [x] fun _ => .real (.fin q)

theorem known_twice (q : ℚ) (x : Axis) (hShort : ShortTiles [x]) :
    Known (twice q x) (twice q x).contents :=
  .plain (Reference.plain_plain _ _ (show 1 ≤ dimensionMax by decide) hShort) (.refl _)

theorem values_twice (q : ℚ) (x : Axis) : Values .double (twice q x).contents fun _ => q := by
  intro i hi
  have hItem : (twice q x).contents.get i = .real (.fin q) := contents_plain hi
  rw [hItem]
  rfl

theorem flat_twice (p q : ℚ) (x y : Axis) :
    (twice p x).transposed ∨ (twice q y).transposed → ComparedShort (twice p x) (twice q y) := by
  rintro (h | h) <;> cases h

end CompareExample

end IronArray
