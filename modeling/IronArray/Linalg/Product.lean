import IronArray.Linalg.Matmul
import IronArray.Linalg.Matrix
import IronArray.Views.Into

/-!
# The law of the matrix product

The operands are containers of a run of view operations. `HoldsRows` and `HoldsColumns` say what the
two caches hold, `GemmInv` is the invariant of the loop of `gemm_blosc` over the chunks.
-/

namespace IronArray

open Grid Finset

/-! ## Memory -/

theorem memcpy_inside {dst src : Nat → Cell} {p q len l : Nat} (hl : l < len) :
    memcpy dst p src q len (p + l) = src (q + l) := by
  rw [memcpy, if_pos (by omega), Nat.add_sub_cancel_left]

theorem memcpy_below {dst src : Nat → Cell} {p q len r : Nat} (hr : r < p) :
    memcpy dst p src q len r = dst r := if_neg (by omega)

theorem pointerAt_same (m : Machine) (d : Dtype) (buffer : Nat → Cell) (start p : Nat) :
    pointerAt m d d buffer start p = buffer (start + p) := by
  rw [pointerAt, ← Nat.add_mul, loadAt_aligned]

/-! ## Repacking -/

/-- The columns from `base` on, `k` of them, of the first `r` rows. -/
theorem repartRows (n base k : Nat) (aux : Nat → Cell) (state : Nat × (Nat → Cell)) (r : Nat) :
    let after := (List.range r).foldl (fun (state : Nat × (Nat → Cell)) i =>
      (state.1 + k, memcpy state.2 state.1 aux (i * n + base) k)) state
    after.1 = state.1 + r * k ∧
      (∀ i < r, ∀ l < k, after.2 (state.1 + i * k + l) = aux (i * n + base + l)) ∧
      ∀ p < state.1, after.2 p = state.2 p := by
  induction r with
  | zero => simp
  | succ r ih =>
    obtain ⟨hPointer, hRows, hBelow⟩ := ih
    simp only [List.range_succ, List.foldl_append, List.foldl_cons, List.foldl_nil]
    refine ⟨?_, ?_, ?_⟩
    · rw [hPointer, Nat.add_one_mul]
      omega
    · intro i hi l hl
      rcases Nat.lt_or_eq_of_le (Nat.le_of_lt_succ hi) with hlt | rfl
      · have hNext : (i + 1) * k ≤ r * k := Nat.mul_le_mul_right k hlt
        rw [Nat.add_one_mul] at hNext
        rw [memcpy_below (by omega), hRows i hlt l hl]
      · rw [← hPointer, memcpy_inside hl]
    · intro p hp
      rw [memcpy_below (by omega), hBelow p hp]

/-- The repacked buffer: block after block, each with its `m` rows of `k` items. -/
theorem gemmRepartCaches_ok {m n k : Nat} (hk : 0 < k) (hm : m < 2 ^ 31) (aux cache : Nat → Cell) :
    ∃ cache', gemmRepartCaches m n k aux cache = .ok cache' ∧
      ∀ t < n / k, ∀ i < m, ∀ l < k, cache' ((t * m + i) * k + l) = aux (i * n + t * k + l) := by
  refine ⟨_, by rw [gemmRepartCaches, idiv, if_neg hk.ne', Result.ok_bind, if_neg (by omega)]; rfl,
    ?_⟩
  -- the blocks before the current one stay as they were copied
  have hRun : ∀ r : Nat,
      let after := (List.range r).foldl (fun state nblock =>
        (List.range m).foldl (fun (state : Nat × (Nat → Cell)) i =>
          (state.1 + k, memcpy state.2 state.1 aux (i * n + nblock * k) k)) state) (0, cache)
      after.1 = r * m * k ∧
        ∀ t < r, ∀ i < m, ∀ l < k, after.2 ((t * m + i) * k + l) = aux (i * n + t * k + l) := by
    intro r
    induction r with
    | zero => simp
    | succ r ih =>
      obtain ⟨hPointer, hBlocks⟩ := ih
      simp only [List.range_succ, List.foldl_append, List.foldl_cons, List.foldl_nil]
      generalize (List.range r).foldl _ (0, cache) = state at hPointer hBlocks ⊢
      obtain ⟨hEnd, hRows, hBelow⟩ := repartRows n (r * k) k aux state m
      refine ⟨?_, fun t ht i hi l hl => ?_⟩
      · rw [hEnd, hPointer, Nat.add_one_mul, Nat.add_mul]
      · rcases Nat.lt_or_eq_of_le (Nat.le_of_lt_succ ht) with hlt | rfl
        · have hPlace : (t * m + i) * k + l < r * m * k :=
            mul_add_lt (mul_add_lt hlt hi) hl
          rw [hBelow _ (hPointer ▸ hPlace), hBlocks t hlt i hi l hl]
        · have hPlace : (t * m + i) * k + l = state.1 + i * k + l := by
            rw [hPointer, Nat.add_mul]
          rw [hPlace, hRows i hi l hl]
  exact (hRun (n / k)).2

/-! ## Operands and caches -/

/-- A floating operand that reads `A`. -/
structure MatmulOperand (a : Container) (A : NdArray Cell) (shape : List Nat) : Prop where
  known : Known a A
  shape : a.dtshape.shape = shape
  floating : a.dtshape.dtype.isFloating

/-- The cache of the rows of chunk `q`. -/
def HoldsRows (cache : Nat → Cell) (A : NdArray Cell) (x : Axis) (k q : Nat) : Prop :=
  ∀ r < x.part q, ∀ l < k, cache (r * k + l) = A.get [q * x.chunkshape + r, l]

/-- The cache of the columns of chunk `q`, block after block. -/
def HoldsColumns (cache : Nat → Cell) (A : NdArray Cell) (y : Axis) (k q : Nat) : Prop :=
  ∀ t o, t < y.blocks → o < y.blockshape → t * y.blockshape + o < y.part q → ∀ l < k,
    cache ((t * k + l) * y.blockshape + o) =
      A.get [l, q * y.chunkshape + (t * y.blockshape + o)]

section

variable {E : Backend} {a b : Container} {A A' : NdArray Cell} {x y : Axis} {k q : Nat}

theorem part_pos (hq : q < x.chunks) : 0 < x.part q := by
  have hPos := shape_pos_of_lt_chunks hq
  have hStart := (lt_numTiles_iff (x.chunk_pos hPos)).mp hq
  have hChunk := x.chunk_pos hPos
  rw [Axis.part_eq_min]
  omega

theorem part_le_ext (hq : q < x.chunks) : x.part q ≤ x.extchunkshape := by
  have hPos := shape_pos_of_lt_chunks hq
  rw [Axis.extchunkshape, if_neg hPos.ne']
  exact (x.part_le q).trans (Axis.chunkshape_le_blocks hPos)

theorem part_inside (hq : q < x.chunks) : q * x.chunkshape + x.part q ≤ x.shape := by
  have hPos := shape_pos_of_lt_chunks hq
  have hStart := (lt_numTiles_iff (x.chunk_pos hPos)).mp hq
  rw [Axis.part_eq_min]
  omega

/-- Reading the rows of chunk `q`. A transposed operand has to hold floating data, and the lengths
of the buffer have to fit an `int`. -/
theorem Known.readRows (hE : E.Lawful) (h : Known a A) (hShape : a.dtshape.shape = [x.shape, k])
    (hInt : a.transposed →
      a.dtshape.dtype.isFloating ∧ ∀ n ∈ [x.extchunkshape, k], n < 2 ^ 31)
    (hk : 0 < k) (hq : q < x.chunks) (buffer : Nat → Cell) :
    ∃ cache, _iarrayGetSliceBuffer E a (ints [q * x.chunkshape, 0])
        (ints [q * x.chunkshape + x.part q, k]) (ints [x.extchunkshape, k]) buffer
        (x.extchunkshape * k * a.dtshape.dtypeSize : Nat) = .ok cache ∧
      HoldsRows cache A x k q := by
  have hRegion : Region [q * x.chunkshape, 0] [x.part q, k] A.shape := by
    rw [← h.shape, hShape]
    exact ⟨rfl, rfl, .cons (part_inside hq) (.cons (Nat.zero_add k).le .nil)⟩
  have hSel := selects_ints hRegion
  have hStop : addIdx [q * x.chunkshape, 0] [x.part q, k] = [q * x.chunkshape + x.part q, k] := by
    simp
  rw [hStop] at hSel
  have hPos : ∀ n ∈ [x.part q, k], 0 < n := by simpa using ⟨part_pos hq, hk⟩
  have hLen : (([x.extchunkshape, k].prod * a.dtshape.dtypeSize : Nat) : Int) ≤
      (x.extchunkshape * k * a.dtshape.dtypeSize : Nat) := by simp
  obtain ⟨cache, hRead, hGet⟩ := h.readInto buffer hE hInt hSel hPos
    (.cons (part_le_ext hq) (.cons (Nat.le_refl _) .nil)) hLen
  refine ⟨cache, hRead, fun r hr l hl => ?_⟩
  have hValue := hGet [r, l] (by simpa using ⟨hr, hl⟩)
  simpa using hValue

theorem MatmulOperand.readRows (hE : E.Lawful) (h : MatmulOperand a A [x.shape, k])
    (hk : 0 < k ∧ k < 2 ^ 31) (hExt : x.extchunkshape < 2 ^ 31) (hq : q < x.chunks)
    (buffer : Nat → Cell) :
    ∃ cache, _iarrayGetSliceBuffer E a (ints [q * x.chunkshape, 0])
        (ints [q * x.chunkshape + x.part q, k]) (ints [x.extchunkshape, k]) buffer
        (x.extchunkshape * k * a.dtshape.dtypeSize : Nat) = .ok cache ∧
      HoldsRows cache A x k q :=
  h.known.readRows hE h.shape (fun _ => ⟨h.floating, by simpa using ⟨hExt, hk.2⟩⟩) hk.1 hq buffer

/-- Reading the columns of chunk `q`. -/
theorem MatmulOperand.readColumns (hE : E.Lawful) (h : MatmulOperand b A' [k, y.shape])
    (hk : 0 < k ∧ k < 2 ^ 31) (hExt : y.extchunkshape < 2 ^ 31) (hq : q < y.chunks)
    (buffer : Nat → Cell) :
    ∃ aux, _iarrayGetSliceBuffer E b (ints [0, q * y.chunkshape])
        (ints [k, q * y.chunkshape + y.part q]) (ints [k, y.extchunkshape]) buffer
        (k * y.extchunkshape * b.dtshape.dtypeSize : Nat) = .ok aux ∧
      ∀ l < k, ∀ o < y.part q,
        aux (l * y.extchunkshape + o) = A'.get [l, q * y.chunkshape + o] := by
  have hShape : A'.shape = [k, y.shape] := h.known.shape.symm.trans h.shape
  have hRegion : Region [0, q * y.chunkshape] [k, y.part q] A'.shape := by
    rw [hShape]
    exact ⟨rfl, rfl, .cons (Nat.zero_add k).le (.cons (part_inside hq) .nil)⟩
  have hSel := selects_ints hRegion
  have hStop : addIdx [0, q * y.chunkshape] [k, y.part q] = [k, q * y.chunkshape + y.part q] := by
    simp
  rw [hStop] at hSel
  have hPos : ∀ n ∈ [k, y.part q], 0 < n := by simpa using ⟨hk.1, part_pos hq⟩
  have hInt : ∀ n ∈ [k, y.extchunkshape], n < 2 ^ 31 := by simpa using ⟨hk.2, hExt⟩
  have hLen : (([k, y.extchunkshape].prod * b.dtshape.dtypeSize : Nat) : Int) ≤
      (k * y.extchunkshape * b.dtshape.dtypeSize : Nat) := by simp
  obtain ⟨aux, hRead, hGet⟩ := h.known.readInto buffer hE (fun _ => ⟨h.floating, hInt⟩) hSel hPos
    (.cons (Nat.le_refl _) (.cons (part_le_ext hq) .nil)) hLen
  refine ⟨aux, hRead, fun l hl o ho => ?_⟩
  have hValue := hGet [l, o] (by simpa using ⟨hl, ho⟩)
  simpa using hValue

/-- An item of a block, `start` rows behind the start of the chunk. -/
theorem HoldsRows.get {cache : Nat → Cell} {i l : Nat} (h : HoldsRows cache A x k (x.chunkOf i))
    (hi : i < x.shape) (hl : l < k) :
    cache (x.blockOf i * x.blockshape * k + (x.itemOf i * k + l)) = A.get [i, l] := by
  have hPart := Axis.item_lt_part hi
  have hRow := h (x.blockOf i * x.blockshape + x.itemOf i) (by omega) l hl
  have hJoin := x.join_split i
  rw [Axis.join, Nat.add_assoc] at hJoin
  rw [hJoin] at hRow
  rw [← hRow, Nat.add_mul, Nat.add_assoc]

/-- An item of a repacked block. -/
theorem HoldsColumns.get {cache : Nat → Cell} {j l : Nat}
    (h : HoldsColumns cache A' y k (y.chunkOf j)) (hj : j < y.shape) (hl : l < k) :
    cache (y.blockOf j * y.blockshape * k + (l * y.blockshape + y.itemOf j)) =
      A'.get [l, j] := by
  have hPart := Axis.item_lt_part hj
  have hColumn := h _ _ (y.blockOf_lt hj) (y.itemOf_lt hj) (by omega) l hl
  have hJoin := y.join_split j
  rw [Axis.join, Nat.add_assoc] at hJoin
  rw [hJoin] at hColumn
  rw [← hColumn]
  congr 1
  ring

/-- Repacking the columns of chunk `q`. -/
theorem repackColumns (hq : q < y.chunks) (hk : k < 2 ^ 31) {aux : Nat → Cell}
    (hAux : ∀ l < k, ∀ o < y.part q,
      aux (l * y.extchunkshape + o) = A'.get [l, q * y.chunkshape + o]) (cache : Nat → Cell) :
    ∃ cache', gemmRepartCaches k y.extchunkshape y.blockshape aux cache = .ok cache' ∧
      HoldsColumns cache' A' y k q := by
  have hPos := shape_pos_of_lt_chunks hq
  have hBlock := y.block_pos hPos
  obtain ⟨cache', hRepart, hCache⟩ :=
    gemmRepartCaches_ok (n := y.extchunkshape) hBlock hk aux cache
  have hBlocks : y.extchunkshape / y.blockshape = y.blocks := by
    rw [Axis.extchunkshape, if_neg hPos.ne', Nat.mul_div_cancel _ hBlock]
  refine ⟨cache', hRepart, fun t o ht ho hPart l hl => ?_⟩
  rw [hCache t (hBlocks ▸ ht) l hl o ho, Nat.add_assoc, hAux l hl _ hPart]

end

/-! ## The blocks of a chunk -/

theorem prefilterBlockInfo_ok {c : CatArray} (hPos : ∀ z ∈ c.axes, 0 < z.shape) {nblock : Nat}
    (h : nblock < (c.axes.map Axis.blocks).prod) : prefilterBlockInfo c nblock =
      .ok (List.zipWith (· * ·) (unflat (c.axes.map Axis.blocks) nblock) c.blockshape) := by
  have hBlocks : idiv (c.axes.map Axis.extchunkshape).prod c.blockshape.prod =
      .ok (c.axes.map Axis.blocks).prod := by
    have hBlock : 0 < c.blockshape.prod :=
      prod_pos_of_forall (forall_map_pos hPos fun z => z.block_pos)
    rw [idiv, if_neg hBlock.ne', CatArray.blockshape, CatArray.prod_extchunkshape hPos]
  rw [prefilterBlockInfo, shapeOfBlocks_ok hPos, Result.ok_bind, hBlocks, Result.ok_bind]
  dsimp only
  rw [computeStrides_eq, zipWith_mod_strides (forall_map_pos hPos fun _ => blocks_pos) rfl,
    Nat.mod_eq_of_lt h]
  rfl

section

variable {R : Type} [Ring R] {value : Dtype → Cell → R} {E : Backend} {B : Blas}
  {a b c : Container} {A A' : NdArray Cell} {x y : Axis} {k p q : Nat}

/-- The operands and the result of a product of two matrices. -/
structure GemmContext (a b c : Container) (A A' : NdArray Cell) (x y : Axis) (k : Nat) : Prop where
  left : MatmulOperand a A [x.shape, k]
  right : MatmulOperand b A' [k, y.shape]
  dtype : b.dtshape.dtype = a.dtshape.dtype
  result : Plain c
  resultDtype : c.dtshape.dtype = a.dtshape.dtype
  axes : c.catarr.axes = [x, y]
  inner : 0 < k ∧ k < 2 ^ 31
  rowPanel : x.extchunkshape < 2 ^ 31
  columnPanel : y.extchunkshape < 2 ^ 31

theorem ParallelMatmulParams.dtype_eq {params : ParallelMatmulParams}
    (h : params.c.dtshape.dtype.isFloating) : params.dtype = params.c.dtshape.dtype := by
  unfold ParallelMatmulParams.dtype
  cases hDtype : params.c.dtshape.dtype <;> simp_all [Dtype.isFloating]

namespace GemmContext

variable (h : GemmContext a b c A A' x y k)
include h

/-- The lengths that go to MKL are those of the blocks of the array. -/
theorem blockshape : toInt32 (c.storage.blockshape.getD 0 0 : Nat) = x.blockshape ∧
    toInt32 (c.storage.blockshape.getD 1 0 : Nat) = y.blockshape := by
  rw [← h.result.fresh.getD_blockshape, ← h.result.fresh.getD_blockshape, CatArray.blockshape,
    h.axes]
  exact ⟨rfl, rfl⟩

/-- A block of the product. -/
theorem prefilter_block (hB : B.Exact value) (hx : 0 < x.shape) (hy : 0 < y.shape)
    {cacheA cacheB : Nat → Cell} (hRows : HoldsRows cacheA A x k p)
    (hCols : HoldsColumns cacheB A' y k q) {nblock : Nat} (hn : nblock < x.blocks * y.blocks) :
    ∃ items, gemmBloscPrefilter E B ⟨a, b, c, cacheA, cacheB⟩ nblock = .ok items ∧
      items.length = x.blockshape * y.blockshape ∧
      ∀ i < x.shape, ∀ j < y.shape, x.chunkOf i = p → y.chunkOf j = q →
        nblock = x.blockOf i * y.blocks + y.blockOf j →
        value a.dtshape.dtype (items.getD (matrixPlace x y i j) (.bits 0)) =
          ∑ l ∈ range k, value a.dtshape.dtype (A.get [i, l]) *
            value a.dtshape.dtype (A'.get [l, j]) := by
  have hPos : ∀ z ∈ c.catarr.axes, 0 < z.shape := by simpa [h.axes] using ⟨hx, hy⟩
  have hInfo := prefilterBlockInfo_ok hPos (by simpa [h.axes] using hn :
    nblock < (c.catarr.axes.map Axis.blocks).prod)
  have hStart : List.zipWith (· * ·) (unflat (c.catarr.axes.map Axis.blocks) nblock)
      c.catarr.blockshape = [nblock / y.blocks * x.blockshape, nblock % y.blocks * y.blockshape] := by
    simp [h.axes, CatArray.blockshape, blockshapeOf]
  have hItems : c.catarr.blockshape.prod = x.blockshape * y.blockshape := by
    simp [CatArray.blockshape, blockshapeOf, h.axes]
  have hDtype : ParallelMatmulParams.dtype ⟨a, b, c, cacheA, cacheB⟩ = a.dtshape.dtype := by
    rw [ParallelMatmulParams.dtype_eq (by rw [h.resultDtype]; exact h.left.floating),
      h.resultDtype]
  rw [hStart] at hInfo
  refine ⟨_, by rw [gemmBloscPrefilter, hInfo, Result.ok_bind]; rfl, ?_, ?_⟩
  · simp [ParallelMatmulParams.block, hItems]
  · rintro i hi j hj rfl rfl rfl
    have hBlock := y.blockOf_lt hj
    have hItem := x.itemOf_lt hi
    have hItem' := y.itemOf_lt hj
    have hPlace := matrixPlace_lt hi hj
    rw [ParallelMatmulParams.block, List.getD_eq_getElem _ _ (by simpa [hItems] using hPlace),
      List.getElem_map, List.getElem_range, h.resultDtype, hDtype, pointerAt_same, Nat.zero_add,
      h.blockshape.1, h.blockshape.2, h.left.shape]
    simp only [List.getD_cons_zero, List.getD_cons_succ]
    rw [toInt32_natCast h.inner.2, matrixPlace,
      hB.gemm false h.left.floating (Nat.le_refl _) (Nat.le_refl _) (Nat.le_refl _) hItem hItem',
      if_neg Bool.false_ne_true, zero_add]
    refine sum_congr rfl fun l hl => ?_
    have hl := mem_range.mp hl
    congr 2
    · rw [ParallelMatmulParams.bufferA, hDtype, pointerAt_same, h.left.shape, List.getD_cons_zero,
        List.getD_cons_succ, List.getD_cons_zero, mul_add_div_of_lt hBlock]
      exact hRows.get hi hl
    · rw [ParallelMatmulParams.bufferB, hDtype, h.dtype, pointerAt_same, h.right.shape,
        List.getD_cons_succ, List.getD_cons_zero, List.getD_cons_zero,
        Nat.mul_add_mod_of_lt hBlock]
      exact hCols.get hj hl

end GemmContext

/-! ## The loop over the chunks -/

/-- A chunk that holds its part of the product. -/
def GoodChunk (value : Dtype → Cell → R) (d : Dtype) (A A' : NdArray Cell) (x y : Axis)
    (k p q : Nat) (chunk : List Cell) : Prop :=
  ∃ block : Nat → List Cell, chunk = (List.range (x.blocks * y.blocks)).flatMap block ∧
    (∀ t < x.blocks * y.blocks, (block t).length = x.blockshape * y.blockshape) ∧
    ∀ i < x.shape, ∀ j < y.shape, x.chunkOf i = p → y.chunkOf j = q →
      value d ((block (x.blockOf i * y.blocks + y.blockOf j)).getD (matrixPlace x y i j) (.bits 0)) =
        ∑ l ∈ range k, value d (A.get [i, l]) * value d (A'.get [l, j])

/-- After `n` chunks: the panel of the column is the one the row number says, the chunks written
are good, and the order sends their position in the grid to them. -/
structure GemmInv (value : Dtype → Cell → R) (a c : Container) (A A' : NdArray Cell) (x y : Axis)
    (k n : Nat) (state : GemmState) : Prop where
  chunkRow : state.chunkRow = -1 ∨
    ∃ q : Nat, state.chunkRow = q ∧ HoldsColumns state.cacheB A' y k q
  chunks : ∃ chunk : Nat → List Cell, state.c = c.catarr.withChunks n chunk ∧
    ∀ t < n, GoodChunk value a.dtshape.dtype A A' x y k (t % x.chunks) (t / x.chunks) (chunk t)
  order : ∀ t < n, state.chunkOrder (t / x.chunks + t % x.chunks * y.chunks) = t

/-- Two chunks have different positions in the grid. -/
theorem position_injective {m n s t : Nat} (hs : s < m * n) (ht : t < m * n)
    (h : s / m + s % m * n = t / m + t % m * n) : s = t := by
  have hColS : s / m < n := Nat.div_lt_of_lt_mul hs
  have hColT : t / m < n := Nat.div_lt_of_lt_mul ht
  rw [Nat.add_comm, Nat.add_comm (t / m)] at h
  have hRow := congrArg (· / n) h
  have hCol := congrArg (· % n) h
  simp only [mul_add_div_of_lt hColS, mul_add_div_of_lt hColT] at hRow
  simp only [Nat.mul_add_mod_of_lt hColS, Nat.mul_add_mod_of_lt hColT] at hCol
  rw [← Nat.div_add_mod s m, hRow, hCol, Nat.div_add_mod]

namespace GemmContext

variable (h : GemmContext a b c A A' x y k)
include h

theorem compress_good (hB : B.Exact value) (hx : 0 < x.shape) (hy : 0 < y.shape)
    {cacheA cacheB : Nat → Cell} (hRows : HoldsRows cacheA A x k p)
    (hCols : HoldsColumns cacheB A' y k q) {chunk : List Cell}
    (hc : c.catarr.compress (gemmBloscPrefilter E B ⟨a, b, c, cacheA, cacheB⟩) = .ok chunk) :
    GoodChunk value a.dtshape.dtype A A' x y k p q chunk := by
  have hPos : ∀ z ∈ c.catarr.axes, 0 < z.shape := by simpa [h.axes] using ⟨hx, hy⟩
  have hBlocks : (c.catarr.axes.map Axis.extchunkshape).prod / c.catarr.blockshape.prod =
      x.blocks * y.blocks := by
    rw [CatArray.blockshape, CatArray.prod_extchunkshape hPos, h.axes]
    simp
  obtain ⟨block, hBlock, rfl⟩ := CatArray.compress_eq_ok.mp hc
  rw [hBlocks] at hBlock ⊢
  have hItems : ∀ t < x.blocks * y.blocks, (block t).length = x.blockshape * y.blockshape ∧
      ∀ i < x.shape, ∀ j < y.shape, x.chunkOf i = p → y.chunkOf j = q →
        t = x.blockOf i * y.blocks + y.blockOf j →
        value a.dtshape.dtype ((block t).getD (matrixPlace x y i j) (.bits 0)) =
          ∑ l ∈ range k, value a.dtshape.dtype (A.get [i, l]) *
            value a.dtshape.dtype (A'.get [l, j]) := by
    intro t ht
    obtain ⟨items, hOk, hLen, hGet⟩ := h.prefilter_block (E := E) hB hx hy hRows hCols ht
    rw [hBlock t ht, Except.ok.injEq] at hOk
    exact hOk ▸ ⟨hLen, hGet⟩
  refine ⟨block, rfl, fun t ht => (hItems t ht).1, fun i hi j hj hp hq => ?_⟩
  exact (hItems _ (mul_add_lt (x.blockOf_lt hi) (y.blockOf_lt hj))).2 i hi j hj hp hq rfl

theorem itemsize : c.catarr.itemsize = a.dtshape.dtypeSize := by
  rw [h.result.fresh.itemsize, Dtshape.dtypeSize, Dtshape.dtypeSize, h.resultDtype]

/-- The panel of `b` for the column of a chunk. -/
theorem cacheColumn_ok (hE : E.Lawful) {n : Nat} {state : GemmState} (hq : q < y.chunks)
    (hInv : GemmInv value a c A A' x y k n state) (start part : List Nat)
    (hStart : start.getD 1 0 = q * y.chunkshape) (hPart : part.getD 1 0 = y.part q) :
    ∃ state', cacheColumn E b c y start part q state = .ok state' ∧
      state'.chunkRow = q ∧ HoldsColumns state'.cacheB A' y k q ∧ state'.c = state.c ∧
      state'.chunkOrder = state.chunkOrder := by
  unfold cacheColumn
  dsimp only
  by_cases hSame : state.chunkRow = q
  · rw [if_pos hSame]
    refine ⟨state, rfl, hSame, ?_, rfl, rfl⟩
    rcases hInv.chunkRow with hNone | ⟨q', hRow, hHolds⟩
    · omega
    · obtain rfl : q' = q := by omega
      exact hHolds
  · rw [if_neg hSame, hStart, hPart, h.right.shape, List.getD_cons_zero]
    have hSize : c.catarr.itemsize = b.dtshape.dtypeSize := by
      rw [h.itemsize, Dtshape.dtypeSize, Dtshape.dtypeSize, h.dtype]
    obtain ⟨aux, hRead, hAux⟩ := h.right.readColumns hE h.inner h.columnPanel hq state.cacheA
    obtain ⟨cacheB, hRepart, hHolds⟩ := repackColumns hq h.inner.2 hAux state.cacheB
    rw [hSize, hRead]
    simp only [ignoreCode, Result.ok_bind, hRepart]
    exact ⟨_, rfl, rfl, hHolds, rfl, rfl⟩

/-- One chunk more. -/
theorem step (hE : E.Lawful) (hB : B.Exact value) {n : Nat} (hn : n < x.chunks * y.chunks)
    {state state' : GemmState} (hInv : GemmInv value a c A A' x y k n state)
    (hc : gemmBloscStep E B a b c x y x.chunks y.chunks state n = .ok state') :
    GemmInv value a c A A' x y k (n + 1) state' := by
  have hRow : n % x.chunks < x.chunks := by
    refine Nat.mod_lt _ (Nat.pos_of_ne_zero fun hNone => ?_)
    rw [hNone, Nat.zero_mul] at hn
    omega
  have hColumn : n / x.chunks < y.chunks := Nat.div_lt_of_lt_mul hn
  have hElem : List.zipWith (· * ·) [n % x.chunks, n / x.chunks] c.catarr.chunkshape =
      [n % x.chunks * x.chunkshape, n / x.chunks * y.chunkshape] := by
    simp [CatArray.chunkshape, chunkshapeOf, h.axes]
  have hPart : chunkShapeAt c.catarr.axes [n % x.chunks, n / x.chunks] =
      [x.part (n % x.chunks), y.part (n / x.chunks)] := by
    rw [h.axes]
    rfl
  unfold gemmBloscStep at hc
  dsimp only at hc
  rw [hElem, hPart] at hc
  obtain ⟨cached, hCached, hc⟩ := Result.bind_eq_ok.mp hc
  obtain ⟨cacheA, hRead, hc⟩ := Result.bind_eq_ok.mp hc
  obtain ⟨chunk, hCompress, hc⟩ := Result.bind_eq_ok.mp hc
  cases hc
  obtain ⟨cached', hCached', hChunkRow, hHolds, hArray, hOrder⟩ :=
    h.cacheColumn_ok hE hColumn hInv [n % x.chunks * x.chunkshape, n / x.chunks * y.chunkshape]
      [x.part (n % x.chunks), y.part (n / x.chunks)] rfl rfl
  rw [hCached, Except.ok.injEq] at hCached'
  subst hCached'
  obtain ⟨cacheA', hRead', hRows⟩ := h.left.readRows hE h.inner h.rowPanel hRow cached.cacheA
  rw [h.left.shape, h.itemsize] at hRead
  have hSame : cacheA' = cacheA := Except.ok.inj (hRead'.symm.trans hRead)
  subst hSame
  obtain ⟨chunks, hChunks, hGood⟩ := hInv.chunks
  refine ⟨.inr ⟨_, hChunkRow, hHolds⟩, ⟨Function.update chunks n chunk, ?_, ?_⟩, ?_⟩
  · have hEarlier : c.catarr.withChunks n chunks =
        c.catarr.withChunks n (Function.update chunks n chunk) :=
      CatArray.withChunks_congr _ fun t ht => by rw [Function.update_of_ne ht.ne]
    rw [← CatArray.updateChunk_withChunks, Function.update_self, ← hEarlier, ← hChunks, ← hArray]
  · intro t ht
    rcases Nat.lt_or_eq_of_le (Nat.le_of_lt_succ ht) with hlt | rfl
    · rw [Function.update_of_ne hlt.ne]
      exact hGood t hlt
    · rw [Function.update_self]
      exact h.compress_good hB (shape_pos_of_lt_chunks hRow) (shape_pos_of_lt_chunks hColumn)
        hRows hHolds hCompress
  · intro t ht
    simp only
    rcases Nat.lt_or_eq_of_le (Nat.le_of_lt_succ ht) with hlt | rfl
    · rw [Function.update_of_ne, hOrder, hInv.order t hlt]
      exact fun hEq => hlt.ne (position_injective (hlt.trans hn) hn hEq)
    · rw [Function.update_self]

/-- All chunks, by induction on their number. -/
theorem run (hE : E.Lawful) (hB : B.Exact value) {n : Nat} (hn : n ≤ x.chunks * y.chunks)
    {state : GemmState}
    (hc : (List.range n).foldlM (gemmBloscStep E B a b c x y x.chunks y.chunks)
      ⟨-1, E.malloc, E.malloc, fun _ => 0, c.catarr⟩ = .ok state) :
    GemmInv value a c A A' x y k n state := by
  induction n generalizing state with
  | zero =>
    cases hc
    exact ⟨.inl rfl, ⟨fun _ => [], rfl, by simp⟩, by simp⟩
  | succ n ih =>
    rw [List.range_succ, List.foldlM_append] at hc
    obtain ⟨state₀, hInit, hLast⟩ := Result.bind_eq_ok.mp hc
    rw [List.foldlM_cons] at hLast
    obtain ⟨state₁, hStep, hLast⟩ := Result.bind_eq_ok.mp hLast
    cases hLast
    exact h.step hE hB (by omega) (ih (by omega) hInit) hStep

end GemmContext

theorem reorderOffsets_withChunks {a : CatArray} {n : Nat} (hn : a.nchunks = n)
    (f : Nat → List Cell) {order : Nat → Nat} (hOrder : ∀ p < n, order p < n) :
    (a.withChunks n f).reorderOffsets order = a.withChunks n fun p => f (order p) := by
  have hNchunks : (a.withChunks n f).nchunks = n := hn
  rw [CatArray.reorderOffsets, hNchunks]
  simp only [CatArray.withChunks, CatArray.mk.injEq, SChunk.mk.injEq, true_and, and_true]
  funext p item
  by_cases hp : p < n
  · rw [if_pos hp, if_pos hp, if_pos (hOrder p hp)]
  · rw [if_neg hp, if_neg hp, if_neg hp]

/-- The array that `gemm_blosc` leaves. -/
theorem GemmContext.gemmBlosc_ok (h : GemmContext a b c A A' x y k) (hE : E.Lawful)
    (hB : B.Exact value) {catarr : CatArray} (hc : gemmBlosc E B a b c = .ok catarr) :
    ∃ chunk : Nat → List Cell, catarr = c.catarr.withChunks (x.chunks * y.chunks) chunk ∧
      ∀ p < x.chunks * y.chunks,
        GoodChunk value a.dtshape.dtype A A' x y k (p / y.chunks) (p % y.chunks) (chunk p) := by
  unfold gemmBlosc at hc
  rw [h.axes] at hc
  obtain ⟨m, hm, hc⟩ := Result.bind_eq_ok.mp hc
  obtain ⟨n, hn, hc⟩ := Result.bind_eq_ok.mp hc
  obtain ⟨nchunks, hNchunks, hc⟩ := Result.bind_eq_ok.mp hc
  obtain ⟨state, hLoop, hc⟩ := Result.bind_eq_ok.mp hc
  cases hc
  have hPos : ∀ z ∈ c.catarr.axes, 0 < z.chunkshape := by
    simpa [h.axes] using ⟨idiv_eq_ok hm, idiv_eq_ok hn⟩
  rw [idiv_extshape (idiv_eq_ok hm), Except.ok.injEq] at hm
  rw [idiv_extshape (idiv_eq_ok hn), Except.ok.injEq] at hn
  have hAll := CatArray.prod_extshape hPos
  have hProd : (c.catarr.axes.map Axis.chunks).prod = x.chunks * y.chunks := by simp [h.axes]
  rw [hProd, h.axes] at hAll
  rw [CatArray.chunkshape, h.axes, hAll, Except.ok.injEq] at hNchunks
  subst hm hn hNchunks
  have hInv := h.run hE hB (Nat.le_refl _) hLoop
  obtain ⟨chunk, hChunk, hGood⟩ := hInv.chunks
  -- the chunk at a position of the grid is the one written for its row and column
  have hOrder : ∀ p < x.chunks * y.chunks, state.chunkOrder p =
      p % y.chunks * x.chunks + p / y.chunks ∧
      p % y.chunks * x.chunks + p / y.chunks < x.chunks * y.chunks := by
    intro p hp
    have hRow : p / y.chunks < x.chunks := Nat.div_lt_of_lt_mul (by rwa [Nat.mul_comm])
    have hCol : p % y.chunks < y.chunks := by
      refine Nat.mod_lt _ (Nat.pos_of_ne_zero fun hNone => ?_)
      rw [hNone, Nat.mul_zero] at hp
      omega
    have hLt : p % y.chunks * x.chunks + p / y.chunks < x.chunks * y.chunks := by
      rw [Nat.mul_comm x.chunks]
      exact mul_add_lt hCol hRow
    have hPlace := hInv.order _ hLt
    rw [mul_add_div_of_lt hRow, Nat.mul_add_mod_of_lt hRow, Nat.add_comm,
      Nat.div_add_mod'] at hPlace
    exact ⟨hPlace, hLt⟩
  refine ⟨fun p => chunk (state.chunkOrder p), ?_, fun p hp => ?_⟩
  · rw [hChunk]
    exact reorderOffsets_withChunks hProd chunk fun p hp => (hOrder p hp).1 ▸ (hOrder p hp).2
  · obtain ⟨hEq, hLt⟩ := hOrder p hp
    have hRow : p / y.chunks < x.chunks := Nat.div_lt_of_lt_mul (by rwa [Nat.mul_comm])
    have hChunkGood := hGood _ hLt
    rw [mul_add_div_of_lt hRow, Nat.mul_add_mod_of_lt hRow] at hChunkGood
    rwa [← hEq] at hChunkGood

/-- The product of two matrices. -/
theorem GemmContext.law (h : GemmContext a b c A A' x y k) (hE : E.Lawful) (hB : B.Exact value)
    {catarr : CatArray} (hc : gemmBlosc E B a b c = .ok catarr) :
    Plain { c with catarr := catarr } ∧ ∀ i < x.shape, ∀ j < y.shape,
      value a.dtshape.dtype (Container.contents { c with catarr := catarr } |>.get [i, j]) =
        ∑ l ∈ range k, value a.dtshape.dtype (A.get [i, l]) *
          value a.dtshape.dtype (A'.get [l, j]) := by
  obtain ⟨chunk, rfl, hGood⟩ := h.gemmBlosc_ok hE hB hc
  have hFresh := h.result.fresh
  refine ⟨h.result.setArray (hFresh.withChunks _ _), fun i hi j hj => ?_⟩
  choose! block hChunk hLen hGet using hGood
  have hNchunks : c.catarr.nchunks = x.chunks * y.chunks := by simp [CatArray.nchunks, h.axes]
  have hBlocks : (c.catarr.axes.map Axis.blocks).prod = x.blocks * y.blocks := by simp [h.axes]
  have hArray : c.catarr.withChunks (x.chunks * y.chunks) chunk =
      c.catarr.withChunks c.catarr.nchunks fun q =>
        (List.range (c.catarr.axes.map Axis.blocks).prod).flatMap (block q) := by
    rw [hNchunks, hBlocks]
    exact CatArray.withChunks_congr _ hChunk
  have hCol := y.chunkOf_lt hj
  rw [hArray, contents_matrix hFresh.sized hFresh.postfilter h.axes hLen hi hj]
  refine hGet _ (mul_add_lt (x.chunkOf_lt hi) hCol) i hi j hj ?_ ?_
  · rw [mul_add_div_of_lt hCol]
  · rw [Nat.mul_add_mod_of_lt hCol]

end

end IronArray
