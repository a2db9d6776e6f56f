import IronArray.Core.Limits
import IronArray.Linalg.Product
import IronArray.Views.SqueezeChain

/-!
# The law of the product, for vectors and in all

`matmul_law`: when `iarray_linalg_matmul` succeeds its result is the product of what the operands
read, as long as the shared dimension fits an `int`.
-/

namespace IronArray

open Grid Finset

/-! ## A matrix and a vector -/

section

variable {R : Type} [Ring R] {value : Dtype → Cell → R} {E : Backend} {B : Blas}
  {a b c : Container} {A A' : NdArray Cell} {x : Axis} {k p : Nat}

/-- The operands and the result of a product of a matrix and a vector. -/
structure GemvContext (a b c : Container) (A A' : NdArray Cell) (x : Axis) (k : Nat) : Prop where
  left : MatmulOperand a A [x.shape, k]
  right : MatmulOperand b A' [k]
  dtype : b.dtshape.dtype = a.dtshape.dtype
  result : Plain c
  resultDtype : c.dtshape.dtype = a.dtshape.dtype
  axes : c.catarr.axes = [x]
  inner : 0 < k ∧ k < 2 ^ 31
  rowPanel : x.extchunkshape < 2 ^ 31

/-- The vector is read whole, or its buffer is refused. -/
theorem MatmulOperand.readVector (hE : E.Lawful) (hBounded : E.Bounded)
    (h : MatmulOperand b A' [k]) (hk : 0 < k) {ext : Nat} {buffer cache : Nat → Cell}
    {buflen : Int} (hRead : _iarrayGetSliceBuffer E b (ints [0]) (ints [k]) (ints [ext]) buffer
      buflen = .ok cache) : ∀ l < k, cache l = A'.get [l] := by
  have hShape : A'.shape = [k] := h.known.shape.symm.trans h.shape
  have hTransposed : b.transposed = false := by
    cases hTransposed : b.transposed with
    | false => rfl
    | true =>
      have hNdim := (h.known.showsTransposed hTransposed).ndim
      rw [hShape] at hNdim
      exact absurd hNdim (by simp)
  obtain ⟨mask, off, ws, hShows⟩ := h.known.shows hTransposed
  have hRegion : Region [0] [k] A'.shape := by
    rw [hShape]
    exact ⟨rfl, rfl, .cons (Nat.zero_add k).le .nil⟩
  have hSel := selects_ints hRegion
  have hStop : addIdx [0] [k] = [k] := by simp
  rw [hStop] at hSel
  have hCount : mask.count false = 1 := by rw [← hShows.shape_length, hShape]; rfl
  have hEq := hShows.getSliceBuffer_eq (E := E) (m := [ext]) buffer buflen hSel
    hCount.symm b.containerViewed (a := b.catarr) rfl
  have hLen : ¬ buflen < (([ext] : List Nat).prod * b.dtshape.dtypeSize : Nat) := by
    intro hShort
    rw [if_pos hShort] at hEq
    exact absurd (hEq.symm.trans hRead) (by simp [inaError])
  have hFits : List.Forall₂ (· ≤ ·) [k] [ext] := by
    rw [if_neg hLen] at hEq
    have hRegion' := hShows.storeRegion hSel.region
    have hSpread := hBounded.getSliceBuffer (hRegion'.start_length.trans hRegion'.length.symm)
      (hEq.symm.trans hRead)
    have hKeep := @forall₂_keep _ mask _ _ hSpread
    rwa [@keep_spread Nat 1 mask [k] hCount.symm,
      @keep_spread Nat 1 mask [ext] hCount.symm] at hKeep
  obtain ⟨out, hOut, hGet⟩ := hShows.getSliceBufferInto buffer hE hSel (by simpa using hk) hFits
    (not_lt.mp hLen)
  intro l hl
  rw [hRead, Except.ok.injEq] at hOut
  have hValue := hGet [l] (by simpa using hl)
  rw [← hOut] at hValue
  simpa using hValue

/-- A chunk that holds its part of the product. -/
def GoodRows (value : Dtype → Cell → R) (d : Dtype) (A A' : NdArray Cell) (x : Axis) (k p : Nat)
    (chunk : List Cell) : Prop :=
  ∃ block : Nat → List Cell, chunk = (List.range x.blocks).flatMap block ∧
    (∀ t < x.blocks, (block t).length = x.blockshape) ∧
    ∀ i < x.shape, x.chunkOf i = p →
      value d ((block (x.blockOf i)).getD (x.itemOf i) (.bits 0)) =
        ∑ l ∈ range k, value d (A.get [i, l]) * value d (A'.get [l])

namespace GemvContext

variable (h : GemvContext a b c A A' x k)
include h

theorem itemsize : c.catarr.itemsize = a.dtshape.dtypeSize := by
  rw [h.result.fresh.itemsize, Dtshape.dtypeSize, Dtshape.dtypeSize, h.resultDtype]

theorem blockshape : toInt32 (c.storage.blockshape.getD 0 0 : Nat) = x.blockshape := by
  rw [← h.result.fresh.getD_blockshape, CatArray.blockshape, h.axes]
  rfl

/-- A block of the product. -/
theorem prefilter_block (hB : B.Exact value) (hx : 0 < x.shape) {cacheA cacheB : Nat → Cell}
    (hRows : HoldsRows cacheA A x k p) (hVector : ∀ l < k, cacheB l = A'.get [l]) {nblock : Nat}
    (hn : nblock < x.blocks) :
    ∃ items, gemvBloscPrefilter E B ⟨a, b, c, cacheA, cacheB⟩ nblock = .ok items ∧
      items.length = x.blockshape ∧
      ∀ i < x.shape, x.chunkOf i = p → nblock = x.blockOf i →
        value a.dtshape.dtype (items.getD (x.itemOf i) (.bits 0)) =
          ∑ l ∈ range k, value a.dtshape.dtype (A.get [i, l]) *
            value a.dtshape.dtype (A'.get [l]) := by
  have hPos : ∀ z ∈ c.catarr.axes, 0 < z.shape := by simpa [h.axes] using hx
  have hInfo := prefilterBlockInfo_ok hPos (by simpa [h.axes] using hn :
    nblock < (c.catarr.axes.map Axis.blocks).prod)
  have hStart : List.zipWith (· * ·) (unflat (c.catarr.axes.map Axis.blocks) nblock)
      c.catarr.blockshape = [nblock * x.blockshape] := by
    simp [h.axes, CatArray.blockshape, blockshapeOf]
  have hItems : c.catarr.blockshape.prod = x.blockshape := by
    simp [CatArray.blockshape, blockshapeOf, h.axes]
  have hDtype : ParallelMatmulParams.dtype ⟨a, b, c, cacheA, cacheB⟩ = a.dtshape.dtype := by
    rw [ParallelMatmulParams.dtype_eq (by rw [h.resultDtype]; exact h.left.floating),
      h.resultDtype]
  rw [hStart] at hInfo
  refine ⟨_, by rw [gemvBloscPrefilter, hInfo, Result.ok_bind]; rfl, ?_, ?_⟩
  · simp [ParallelMatmulParams.block, hItems]
  · rintro i hi rfl rfl
    have hItem := x.itemOf_lt hi
    rw [ParallelMatmulParams.block, List.getD_eq_getElem _ _ (by simpa [hItems] using hItem),
      List.getElem_map, List.getElem_range, h.resultDtype, hDtype, pointerAt_same, Nat.zero_add,
      h.blockshape, h.left.shape]
    simp only [List.getD_cons_zero, List.getD_cons_succ]
    rw [toInt32_natCast h.inner.2,
      hB.gemv false h.left.floating (Nat.le_refl _) hItem, if_neg Bool.false_ne_true, zero_add]
    refine sum_congr rfl fun l hl => ?_
    have hl := mem_range.mp hl
    congr 2
    · rw [ParallelMatmulParams.bufferA, hDtype, pointerAt_same, h.left.shape, List.getD_cons_zero,
        List.getD_cons_succ, List.getD_cons_zero]
      exact hRows.get hi hl
    · rw [ParallelMatmulParams.bufferB, hDtype, h.dtype, pointerAt_same]
      simpa using hVector l hl

theorem compress_good (hB : B.Exact value) (hx : 0 < x.shape) {cacheA cacheB : Nat → Cell}
    (hRows : HoldsRows cacheA A x k p) (hVector : ∀ l < k, cacheB l = A'.get [l])
    {chunk : List Cell}
    (hc : c.catarr.compress (gemvBloscPrefilter E B ⟨a, b, c, cacheA, cacheB⟩) = .ok chunk) :
    GoodRows value a.dtshape.dtype A A' x k p chunk := by
  have hPos : ∀ z ∈ c.catarr.axes, 0 < z.shape := by simpa [h.axes] using hx
  have hBlocks : (c.catarr.axes.map Axis.extchunkshape).prod / c.catarr.blockshape.prod =
      x.blocks := by
    rw [CatArray.blockshape, CatArray.prod_extchunkshape hPos, h.axes]
    simp
  obtain ⟨block, hBlock, rfl⟩ := CatArray.compress_eq_ok.mp hc
  rw [hBlocks] at hBlock ⊢
  have hItems : ∀ t < x.blocks, (block t).length = x.blockshape ∧
      ∀ i < x.shape, x.chunkOf i = p → t = x.blockOf i →
        value a.dtshape.dtype ((block t).getD (x.itemOf i) (.bits 0)) =
          ∑ l ∈ range k, value a.dtshape.dtype (A.get [i, l]) *
            value a.dtshape.dtype (A'.get [l]) := by
    intro t ht
    obtain ⟨items, hOk, hLen, hGet⟩ := h.prefilter_block (E := E) hB hx hRows hVector ht
    rw [hBlock t ht, Except.ok.injEq] at hOk
    exact hOk ▸ ⟨hLen, hGet⟩
  refine ⟨block, rfl, fun t ht => (hItems t ht).1, fun i hi hp => ?_⟩
  exact (hItems _ (x.blockOf_lt hi)).2 i hi hp rfl

/-- All chunks, by induction on their number. -/
theorem run (hE : E.Lawful) (hB : B.Exact value) {cacheB : Nat → Cell}
    (hVector : ∀ l < k, cacheB l = A'.get [l]) {n : Nat} (hn : n ≤ x.chunks) {state : GemvState}
    (hc : (List.range n).foldlM (gemvBloscStep E B a b c x cacheB) ⟨E.malloc, c.catarr⟩ =
      .ok state) :
    ∃ chunk : Nat → List Cell, state.c = c.catarr.withChunks n chunk ∧
      ∀ t < n, GoodRows value a.dtshape.dtype A A' x k t (chunk t) := by
  induction n generalizing state with
  | zero =>
    cases hc
    exact ⟨fun _ => [], rfl, by simp⟩
  | succ n ih =>
    rw [List.range_succ, List.foldlM_append] at hc
    obtain ⟨state₀, hInit, hLast⟩ := Result.bind_eq_ok.mp hc
    rw [List.foldlM_cons] at hLast
    obtain ⟨state₁, hStep, hLast⟩ := Result.bind_eq_ok.mp hLast
    cases hLast
    obtain ⟨chunks, hChunks, hGood⟩ := ih (by omega) hInit
    have hPart : (chunkShapeAt c.catarr.axes [n]).getD 0 0 = x.part n := by
      rw [h.axes]
      rfl
    unfold gemvBloscStep at hStep
    dsimp only at hStep
    rw [hPart] at hStep
    obtain ⟨cacheA, hRead, hStep⟩ := Result.bind_eq_ok.mp hStep
    obtain ⟨chunk, hCompress, hStep⟩ := Result.bind_eq_ok.mp hStep
    cases hStep
    have hChunk : n < x.chunks := hn
    have hPos := shape_pos_of_lt_chunks hChunk
    obtain ⟨cacheA', hRead', hRows⟩ := h.left.readRows hE h.inner h.rowPanel hChunk state₀.cacheA
    rw [h.left.shape, h.itemsize] at hRead
    have hSame : cacheA' = cacheA := Except.ok.inj (hRead'.symm.trans hRead)
    subst hSame
    refine ⟨Function.update chunks n chunk, ?_, fun t ht => ?_⟩
    · have hEarlier : c.catarr.withChunks n chunks =
          c.catarr.withChunks n (Function.update chunks n chunk) :=
        CatArray.withChunks_congr _ fun t ht => by rw [Function.update_of_ne ht.ne]
      rw [← CatArray.updateChunk_withChunks, Function.update_self, ← hEarlier, ← hChunks]
    · rcases Nat.lt_or_eq_of_le (Nat.le_of_lt_succ ht) with hlt | rfl
      · rw [Function.update_of_ne hlt.ne]
        exact hGood t hlt
      · rw [Function.update_self]
        exact h.compress_good hB hPos hRows hVector hCompress

/-- The product of a matrix and a vector. -/
theorem law (hE : E.Lawful) (hBounded : E.Bounded) (hB : B.Exact value) {catarr : CatArray}
    (hc : gemvBlosc E B a b c = .ok catarr) :
    Plain { c with catarr := catarr } ∧ ∀ i < x.shape,
      value a.dtshape.dtype (Container.contents { c with catarr := catarr } |>.get [i]) =
        ∑ l ∈ range k, value a.dtshape.dtype (A.get [i, l]) *
          value a.dtshape.dtype (A'.get [l]) := by
  unfold gemvBlosc at hc
  rw [h.axes] at hc
  split at hc
  · rename_i x' inner rest hAxes _
    simp only [List.cons.injEq, and_true] at hAxes
    subst hAxes
    obtain ⟨cacheB, hRead, hc⟩ := Result.bind_eq_ok.mp hc
    obtain ⟨nchunks, hNchunks, hc⟩ := Result.bind_eq_ok.mp hc
    obtain ⟨state, hLoop, hc⟩ := Result.bind_eq_ok.mp hc
    cases hc
    rw [h.right.shape, List.getD_cons_zero] at hRead
    have hVector := h.right.readVector hE hBounded h.inner.1 hRead
    have hCount : (([x] : List Axis).map Axis.extshape).prod = x.extshape := by simp
    have hChunkshape : c.catarr.chunkshape.prod = x.chunkshape := by
      simp [CatArray.chunkshape, chunkshapeOf, h.axes]
    rw [hCount, hChunkshape] at hNchunks
    rw [idiv_extshape (idiv_eq_ok hNchunks), Except.ok.injEq] at hNchunks
    subst hNchunks
    obtain ⟨chunk, hChunk, hGood⟩ := h.run hE hB hVector (Nat.le_refl _) hLoop
    have hFresh := h.result.fresh
    refine ⟨?_, fun i hi => ?_⟩
    · rw [hChunk]
      exact h.result.setArray (hFresh.withChunks _ _)
    choose! block hBlock hLen hGet using hGood
    have hArray : c.catarr.withChunks x.chunks chunk =
        c.catarr.withChunks c.catarr.nchunks fun q =>
          (List.range (c.catarr.axes.map Axis.blocks).prod).flatMap (block q) := by
      have hNchunks : c.catarr.nchunks = x.chunks := by simp [CatArray.nchunks, h.axes]
      have hBlocks : (c.catarr.axes.map Axis.blocks).prod = x.blocks := by simp [h.axes]
      rw [hNchunks, hBlocks]
      exact CatArray.withChunks_congr _ hBlock
    rw [hChunk, hArray, contents_vector hFresh.sized hFresh.postfilter h.axes hLen hi]
    exact hGet _ (x.chunkOf_lt hi) i hi rfl
  · cases hc

end GemvContext

/-! ## The product -/

/-- `C` is the product of the matrix `A` with the matrix or vector `A'`. -/
def IsProduct (value : Cell → R) (A A' C : NdArray Cell) : Prop :=
  (∃ m k n, A.shape = [m, k] ∧ A'.shape = [k, n] ∧ C.shape = [m, n] ∧
    ∀ i < m, ∀ j < n, value (C.get [i, j]) =
      ∑ l ∈ range k, value (A.get [i, l]) * value (A'.get [l, j])) ∨
  ∃ m k, A.shape = [m, k] ∧ A'.shape = [k] ∧ C.shape = [m] ∧
    ∀ i < m, value (C.get [i]) = ∑ l ∈ range k, value (A.get [i, l]) * value (A'.get [l])

/-- The product of two matrices in a new array. -/
theorem gemmBlosc_law {d : Dtshape} {storage : Storage} {m n : Nat} (hE : E.Lawful)
    (hBounded : E.Bounded) (hB : B.Exact value) (hLeft : MatmulOperand a A [m, k])
    (hRight : MatmulOperand b A' [k, n]) (hSame : b.dtshape.dtype = a.dtshape.dtype)
    (hInner : 0 < k ∧ k < 2 ^ 31) (hm : 0 < m) (hn : 0 < n) (hDtype : d.dtype = a.dtshape.dtype)
    (hShape : d.shape = [m, n]) (hEmpty : iarrayEmpty E d storage = .ok c) {catarr : CatArray}
    (hc : gemmBlosc E B a b c = .ok catarr) :
    Plain { c with catarr := catarr } ∧ ∀ i < m, ∀ j < n,
      value a.dtshape.dtype (Container.contents { c with catarr := catarr } |>.get [i, j]) =
        ∑ l ∈ range k, value a.dtshape.dtype (A.get [i, l]) *
          value a.dtshape.dtype (A'.get [l, j]) := by
  have hPlain := iarrayEmpty_plain hE hEmpty
  have hAxes : c.catarr.axes.map Axis.shape = [m, n] := by
    rw [← hShape, ← hPlain.dtshape]
    exact hPlain.plain.fresh.shape
  have hSmall := iarrayEmpty_small hE hBounded (by simpa [hShape] using ⟨hm, hn⟩) hEmpty
  obtain ⟨x, y, hxy⟩ := List.length_eq_two.mp
    (by simpa using congrArg List.length hAxes : c.catarr.axes.length = 2)
  rw [hxy] at hAxes hSmall
  obtain ⟨rfl, rfl⟩ : x.shape = m ∧ y.shape = n := by simpa using hAxes
  have hContext : GemmContext a b c A A' x y k :=
    { left := hLeft
      right := hRight
      dtype := hSame
      result := hPlain.plain
      resultDtype := by rw [hPlain.dtshape, hDtype]
      axes := hxy
      inner := hInner
      rowPanel := hSmall x (by simp)
      columnPanel := hSmall y (by simp) }
  exact hContext.law hE hB hc

/-- The product of a matrix and a vector in a new array. -/
theorem gemvBlosc_law {d : Dtshape} {storage : Storage} {m : Nat} (hE : E.Lawful)
    (hBounded : E.Bounded) (hB : B.Exact value) (hLeft : MatmulOperand a A [m, k])
    (hRight : MatmulOperand b A' [k]) (hSame : b.dtshape.dtype = a.dtshape.dtype)
    (hInner : 0 < k ∧ k < 2 ^ 31) (hm : 0 < m) (hDtype : d.dtype = a.dtshape.dtype)
    (hShape : d.shape = [m]) (hEmpty : iarrayEmpty E d storage = .ok c) {catarr : CatArray}
    (hc : gemvBlosc E B a b c = .ok catarr) :
    Plain { c with catarr := catarr } ∧ ∀ i < m,
      value a.dtshape.dtype (Container.contents { c with catarr := catarr } |>.get [i]) =
        ∑ l ∈ range k, value a.dtshape.dtype (A.get [i, l]) *
          value a.dtshape.dtype (A'.get [l]) := by
  have hPlain := iarrayEmpty_plain hE hEmpty
  have hAxes : c.catarr.axes.map Axis.shape = [m] := by
    rw [← hShape, ← hPlain.dtshape]
    exact hPlain.plain.fresh.shape
  have hSmall := iarrayEmpty_small hE hBounded (by simpa [hShape] using hm) hEmpty
  obtain ⟨x, hx⟩ := List.length_eq_one_iff.mp
    (by simpa using congrArg List.length hAxes : c.catarr.axes.length = 1)
  rw [hx] at hAxes hSmall
  obtain rfl : x.shape = m := by simpa using hAxes
  have hContext : GemvContext a b c A A' x k :=
    { left := hLeft
      right := hRight
      dtype := hSame
      result := hPlain.plain
      resultDtype := by rw [hPlain.dtshape, hDtype]
      axes := hx
      inner := hInner
      rowPanel := hSmall x (by simp) }
  exact hContext.law hE hBounded hB hc

end

namespace MatmulExample

/-- A 2 × 3 matrix of doubles, in chunks of one row and two columns. -/
def axes : List Axis := [.ofCuts 2 1 1, .ofCuts 3 2 1]

def matrix : Container := Reference.plain .double axes fun x => .real (.fin (flat [2, 3] x))

def view : Container :=
  { viewOf Reference.bounded.machine matrix ⟨.double, [3, 2]⟩ [0, 0]
      (.ofFn axes 8 fun _ => .bits 0) with transposed := true }

theorem plain_matrix : Plain matrix := Reference.plain_plain _ _ (by decide) (by decide)

theorem transpose_matrix : iarrayLinalgTranspose Reference.bounded matrix = .ok view := rfl

def product : Result Container :=
  iarrayLinalgMatmul Reference.bounded Reference.blas matrix view ⟨[1, 2], [1, 1]⟩

def cube : Container :=
  Reference.plain .double [.ofCuts 1 1 1, .ofCuts 2 2 2,
    .ofCuts 2 2 2, .ofCuts 2 2 2] fun x =>
    .real (.fin (flat [1, 2, 2, 2] x))

def identity : Container :=
  Reference.plain .double [.ofCuts 2 2 2, .ofCuts 2 2 2]
    fun x => .real (.fin (if x.getD 0 0 = x.getD 1 0 then 1 else 0))

/-- The first square of the cube, its two leading axes removed one after the other. -/
def squeezed : Result Container :=
  iarrayGetSlice Reference.bounded cube [0, 0, 0, 0] [1, 1, 2, 2] true ⟨[], []⟩ >>= fun v =>
    squeezes Reference.bounded v [[true, false, false, false], [true, false, false]]

/-! A row and a column of `2 ^ 32` ones. -/

def long : Axis := .ofCuts (2 ^ 32) (2 ^ 20) (2 ^ 20)

def longRow : Container :=
  Reference.plain .double [.ofCuts 1 1 1, long] fun _ => .real (.fin 1)

def longColumn : Container := Reference.plain .double [long] fun _ => .real (.fin 1)

theorem known_plain {d : Dtype} {axes : List Axis} {f : List Nat → Cell}
    (h : axes.length ≤ dimensionMax) (hShort : ShortTiles axes) :
    Known (Reference.plain d axes f) (Reference.plain d axes f).contents :=
  .plain (Reference.plain_plain _ _ h hShort) (.refl _)

theorem sum_long : ∑ l ∈ range (2 ^ 32), Reference.number .double (longRow.contents.get [0, l]) *
    Reference.number .double (longColumn.contents.get [l]) = 2 ^ 32 := by
  calc ∑ l ∈ range (2 ^ 32), Reference.number .double (longRow.contents.get [0, l]) *
        Reference.number .double (longColumn.contents.get [l])
      = ∑ l ∈ range (2 ^ 32), 1 := sum_congr rfl fun l hl => by
        have hl := mem_range.mp hl
        rw [longRow, longColumn, contents_plain (by simpa [long, Axis.ofCuts] using hl),
          contents_plain (by simpa [long, Axis.ofCuts] using hl), Reference.number, mul_one]
    _ = 2 ^ 32 := by
      rw [sum_const, card_range, nsmul_eq_mul, mul_one]
      norm_num

def empty : Container :=
  newContainer ⟨.double, [1]⟩ ⟨[1], [1]⟩
    (.ofFn [.ofCuts 1 1 1] 8 fun _ => .bits 0)

def zeros : CatArray := empty.catarr.updateChunk 0 (chunkItems [.real (.fin 0)])

/-- The length of the row is zero as an `int`. -/
theorem long_prefilter (cacheA cacheB : Nat → Cell) :
    gemvBloscPrefilter Reference.bounded Reference.blas
      ⟨longRow, longColumn, empty, cacheA, cacheB⟩ 0 = .ok [.real (.fin 0)] := by
  have hInner : toInt32 (longRow.dtshape.shape.getD 1 0 : Nat) = 0 := by decide
  have hRows : toInt32 (empty.storage.blockshape.getD 0 0 : Nat) = 1 := by decide
  have hInfo : prefilterBlockInfo empty.catarr 0 = .ok [0] := rfl
  rw [gemvBloscPrefilter, hInfo, Result.ok_bind]
  simp only [hInner, hRows]
  refine congrArg Except.ok ?_
  simp [ParallelMatmulParams.block, ParallelMatmulParams.dtype, empty, newContainer,
    CatArray.blockshape, blockshapeOf, CatArray.ofFn, Axis.ofCuts, pointerAt_same, Reference.blas]

theorem long_compress (cacheA cacheB : Nat → Cell) :
    empty.catarr.compress (gemvBloscPrefilter Reference.bounded Reference.blas
      ⟨longRow, longColumn, empty, cacheA, cacheB⟩) = .ok [.real (.fin 0)] := by
  rw [CatArray.compress_eq_ok]
  refine ⟨fun _ => [.real (.fin 0)], fun b hb => ?_, rfl⟩
  obtain rfl : b = 0 := Nat.lt_one_iff.mp hb
  exact long_prefilter _ _

theorem gemv_long : gemvBlosc Reference.bounded Reference.blas longRow longColumn empty =
    .ok zeros := by
  obtain ⟨cacheB, hColumn, _⟩ := (known_plain (by decide) (by decide) : Known longColumn _).readInto
    (s := [0]) (n := [2 ^ 32]) (m := [2 ^ 32]) Reference.bounded.malloc Reference.bounded_lawful
    nofun (selects_ints ⟨rfl, rfl, by decide⟩) (by decide) (by decide) (Int.le_refl _)
  obtain ⟨cacheA, hRow, _⟩ := (known_plain (by decide) (by decide) : Known longRow _).readInto
    (s := [0, 0]) (n := [1, 2 ^ 32]) (m := [1, 2 ^ 32]) Reference.bounded.malloc
    Reference.bounded_lawful nofun (selects_ints ⟨rfl, rfl, by decide⟩) (by decide) (by decide)
    (Int.le_refl _)
  have hStep : gemvBloscStep Reference.bounded Reference.blas longRow longColumn empty
      (.ofCuts 1 1 1) cacheB ⟨Reference.bounded.malloc, empty.catarr⟩ 0 =
      .ok ⟨cacheA, zeros⟩ := by
    refine Result.bind_eq_ok.mpr ⟨cacheA, hRow, ?_⟩
    rw [long_compress]
    rfl
  refine Result.bind_eq_ok.mpr ⟨cacheB, hColumn, Result.bind_eq_ok.mpr
    ⟨1, rfl, Result.bind_eq_ok.mpr ⟨⟨cacheA, zeros⟩, ?_, rfl⟩⟩⟩
  change List.foldlM _ _ [0] = _
  rw [List.foldlM_cons, hStep]
  rfl

theorem matmul_long : (iarrayLinalgMatmul Reference.bounded Reference.blas longRow longColumn
    ⟨[1], [1]⟩).map (fun c => c.contents.get [0]) = .ok (.real (.fin 0)) := by
  have hEmpty : iarrayEmpty Reference.bounded (matmulDtshape longRow longColumn) ⟨[1], [1]⟩ =
      .ok empty := rfl
  rw [iarrayLinalgMatmul, if_neg (by decide), if_neg (by decide), if_neg (by decide),
    if_neg (by decide), hEmpty, Result.ok_bind, matmulArray, if_neg (by decide), gemv_long]
  rfl

end MatmulExample

end IronArray
