import IronArray.Core.Reference
import IronArray.Linalg.Matrix

/-!
# The optimised product of two matrices

`iarray_opt_gemm`: the prefilter of each block of the result walks the chunks and blocks of a row
of the one matrix and of a column of the other. It cuts the walk off only in the last chunk, and
only when that chunk reaches beyond the array. It leaves out blocks whose headers say that they are
zero. `optGemm_exact_iff` says when the result is exact.
-/

namespace IronArray

open Grid Finset Headers

/-! ## The code -/

/-- The part of a block that takes part in the product; none for a block that is left out. -/
def paddedBlockshape (x : Axis) (chunksShape nchunk nblock : Nat) : Option Nat :=
  -- `chunk_has_padding_m` and its siblings
  if x.shape ≠ x.extshape ∧ nchunk + 1 = chunksShape then
    let blockStart := nchunk * x.chunkshape + nblock * x.blockshape
    let blockStop := blockStart + x.blockshape
    if x.shape ≤ blockStart then none
    else if blockStart < x.shape ∧ x.shape < blockStop then some (x.shape - blockStart)
    else some (blockStop - blockStart)
  else some x.blockshape

/-- `iarray_gemm_params_t`, with the axes of the matrices and the number of the block of `c`. -/
structure GemmParams where
  a : Container
  b : Container
  rows : Axis
  inner : Axis
  cols : Axis
  cIchunk : Nat × Nat
  mChunksShape : Nat
  kChunksShape : Nat
  nChunksShape : Nat
  kBlocksShape : Nat
  nBlocksShape : Nat

section

variable (E : Backend) (B : Blas) (H : Headers)

/-- One pass of the loop over the blocks of a chunk. -/
def gemmBlockStep (params : GemmParams) (cIblock : Nat × Nat) (kNchunk : Nat) (out : Nat → Cell)
    (kNblock : Nat) : Result (Nat → Cell) :=
  let aNchunk := params.cIchunk.1 * params.kChunksShape + kNchunk
  let bNchunk := kNchunk * params.nChunksShape + params.cIchunk.2
  let aNblock := cIblock.1 * params.kBlocksShape + kNblock
  let bNblock := kNblock * params.nBlocksShape + cIblock.2
  if H.blockIsZeros params.a.catarr.sc aNchunk aNblock then .ok out
  else if H.blockIsZeros params.b.catarr.sc bNchunk bNblock then .ok out
  else
    match paddedBlockshape params.rows params.mChunksShape params.cIchunk.1 cIblock.1,
      paddedBlockshape params.inner params.kChunksShape kNchunk kNblock,
      paddedBlockshape params.cols params.nChunksShape params.cIchunk.2 cIblock.2 with
    | some m, some k, some n => do
      let aBlock ← readBlock params.a.catarr aNchunk aNblock
      let bBlock ← readBlock params.b.catarr bNchunk bNblock
      let y ← operand E.machine params.b.dtshape.dtype params.a.dtshape.dtype bBlock
        ((k - 1) * params.cols.blockshape + n)
      pure (B.gemm params.a.dtshape.dtype m n k (chunkItems aBlock) params.inner.blockshape y
        params.cols.blockshape true out params.cols.blockshape)
    | _, _, _ => .ok out

/-- One pass of the loop over the chunks. -/
def gemmChunkStep (params : GemmParams) (cNblock : Nat) (out : Nat → Cell) (kNchunk : Nat) :
    Result (Nat → Cell) := do
  let aNchunk := params.cIchunk.1 * params.kChunksShape + kNchunk
  let bNchunk := kNchunk * params.nChunksShape + params.cIchunk.2
  getLazychunk params.b.catarr bNchunk
  if H.chunkIsZeros params.b.catarr.sc bNchunk then pure out
  else do
    getLazychunk params.a.catarr aNchunk
    if H.chunkIsZeros params.a.catarr.sc aNchunk then pure out
    else do
      let cIblock ← idiv cNblock params.nBlocksShape
      (List.range params.kBlocksShape).foldlM
        (gemmBlockStep E B H params (cIblock, cNblock % params.nBlocksShape) kNchunk) out

/-- `_gemm_prefilter`. -/
def gemmPrefilter (params : GemmParams) (cNblock : Nat) : Result (List Cell) :=
  if params.a.dtshape.dtype.isFloating then do
    let out ← (List.range params.kChunksShape).foldlM (gemmChunkStep E B H params cNblock)
      fun _ => .bits 0
    pure ((List.range (params.rows.blockshape * params.cols.blockshape)).map out)
  else inaError .bloscFailed

/-- The loop of `iarray_opt_gemm` over the chunks of the result. -/
def optGemmChunks (a b : Container) (rows inner cols : Axis) (c : CatArray) : Result CatArray := do
  let mChunksShape ← idiv rows.extshape rows.chunkshape
  let kChunksShape ← idiv inner.extshape inner.chunkshape
  let nChunksShape ← idiv cols.extshape cols.chunkshape
  let kBlocksShape ← idiv inner.extchunkshape inner.blockshape
  let nBlocksShape ← idiv cols.extchunkshape cols.blockshape
  (List.range (mChunksShape * nChunksShape)).foldlM (fun cc cNchunk => do
    let chunk ← c.compress (gemmPrefilter E B H
      ⟨a, b, rows, inner, cols, (cNchunk / nChunksShape, cNchunk % nChunksShape), mChunksShape,
        kChunksShape, nChunksShape, kBlocksShape, nBlocksShape⟩)
    pure (cc.updateChunk cNchunk (chunkItems chunk))) c

/-- `iarray_opt_gemm`. -/
def iarrayOptGemm (a b : Container) (storage : Storage) : Result Container :=
  match a.catarr.axes, b.catarr.axes with
  | [rows, inner], [inner', cols] =>
    if rows.chunkshape ≠ storage.chunkshape.getD 0 0 then inaError .invalidChunkshape
    else if inner.chunkshape ≠ inner'.chunkshape then inaError .invalidChunkshape
    else if cols.chunkshape ≠ storage.chunkshape.getD 1 0 then inaError .invalidChunkshape
    else if rows.blockshape ≠ storage.blockshape.getD 0 0 then inaError .invalidBlockshape
    else if inner.blockshape ≠ inner'.blockshape then inaError .invalidBlockshape
    else if cols.blockshape ≠ storage.blockshape.getD 1 0 then inaError .invalidBlockshape
    else if rows.chunkshape ≠ storage.chunkshape.getD 0 0 then inaError .invalidChunkshape
    else do
      let c ← iarrayEmpty E
        ⟨a.dtshape.dtype, [a.dtshape.shape.getD 0 0, b.dtshape.shape.getD 1 0]⟩ storage
      let catarr ← optGemmChunks E B H a b rows inner cols c.catarr
      pure { c with catarr := catarr }
  | _, _ => inaError .invalidNdim

end

/-! ## Blocks that are cut off -/

/-- The number of positions of chunk `q` that the walk meets. -/
def gemmWalk (x : Axis) (q : Nat) : Nat :=
  if x.shape ≠ x.extshape ∧ q + 1 = x.chunks then
    min x.extchunkshape (x.shape - q * x.chunkshape)
  else x.extchunkshape

theorem part_le_gemmWalk {x : Axis} {q : Nat} (hq : q < x.chunks) : x.part q ≤ gemmWalk x q := by
  have hPos := shape_pos_of_lt_chunks hq
  have hBlocks := Axis.chunkshape_le_blocks hPos
  rw [gemmWalk, Axis.extchunkshape, if_neg hPos.ne', Axis.part_eq_min]
  split <;> omega

/-- The blocks of a chunk make up the walk. -/
theorem paddedBlockshape_getD {x : Axis} {q t : Nat} (hq : q < x.chunks) (ht : t < x.blocks) :
    (paddedBlockshape x x.chunks q t).getD 0 =
      min x.blockshape (gemmWalk x q - t * x.blockshape) := by
  have hPos := shape_pos_of_lt_chunks hq
  have hFull : t * x.blockshape + x.blockshape ≤ x.blocks * x.blockshape := by
    rw [← Nat.add_one_mul]
    exact Nat.mul_le_mul_right _ ht
  unfold paddedBlockshape
  dsimp only
  rw [gemmWalk, Axis.extchunkshape, if_neg hPos.ne']
  split
  · split
    · simp only [Option.getD_none]
      omega
    split
    · simp only [Option.getD_some]
      omega
    · simp only [Option.getD_some]
      omega
  · simp only [Option.getD_some]
    omega

/-- The block of a position of the axis reaches it. -/
theorem paddedBlockshape_of_lt {x : Axis} {i : Nat} (hi : i < x.shape) :
    ∃ m, paddedBlockshape x x.chunks (x.chunkOf i) (x.blockOf i) = some m ∧ x.itemOf i < m ∧
      m ≤ x.blockshape := by
  have hSize := paddedBlockshape_getD (Axis.chunkOf_lt hi) (Axis.blockOf_lt hi)
  have hPart := part_le_gemmWalk (Axis.chunkOf_lt hi)
  have hItem := x.itemOf_lt hi
  have hJoin := x.join_split i
  have hChunk := Nat.mod_lt i (x.chunk_pos (Nat.zero_lt_of_lt hi))
  have hSplit : i % x.chunkshape = x.blockOf i * x.blockshape + x.itemOf i := by
    rw [Axis.blockOf, Axis.itemOf, Nat.mul_comm, Nat.div_add_mod]
  rw [Axis.join] at hJoin
  rw [Axis.part_eq_min] at hPart
  cases h : paddedBlockshape x x.chunks (x.chunkOf i) (x.blockOf i) with
  | none =>
    rw [h, Option.getD_none] at hSize
    omega
  | some m =>
    rw [h, Option.getD_some] at hSize
    exact ⟨m, rfl, by omega, by omega⟩

/-! ## What the walk adds -/

section

variable {R : Type} [Ring R] {value : Dtype → Cell → R} {E : Backend} {B : Blas} {H : Headers}
  {a b : Container} {rows inner cols : Axis} {i j q t : Nat}

/-- The blocks along the shared dimension that the walk leaves out. -/
def gemmSkips (H : Headers) (a b : Container) (rows inner cols : Axis) (i j q t : Nat) : Bool :=
  H.chunkIsZeros b.catarr.sc (q * cols.chunks + cols.chunkOf j) ||
    H.chunkIsZeros a.catarr.sc (rows.chunkOf i * inner.chunks + q) ||
    H.blockIsZeros a.catarr.sc (rows.chunkOf i * inner.chunks + q)
      (rows.blockOf i * inner.blocks + t) ||
    H.blockIsZeros b.catarr.sc (q * cols.chunks + cols.chunkOf j) (t * cols.blocks + cols.blockOf j)

/-- What the walk sees of the other matrix. -/
def gemmSeen (m : Machine) (a b : Container) (cols : Axis) (j q o : Nat) : Cell :=
  b.catarr.paddedAs m b.dtshape.dtype a.dtshape.dtype [(q, o), cols.pos j]

/-- What the walk adds. -/
def gemmWalked (value : Dtype → Cell → R) (m : Machine) (H : Headers) (a b : Container)
    (rows inner cols : Axis) (i j q o : Nat) : R :=
  matrixWalked value a rows inner (gemmSkips H a b rows inner cols i j) (gemmSeen m a b cols j) i q o

namespace MatrixOperands

theorem gemmBlockStep (h : MatrixOperands a b rows inner cols) (hB : B.Exact value)
    (hi : i < rows.shape) (hj : j < cols.shape) (hq : q < inner.chunks) (ht : t < inner.blocks)
    (hRight : H.chunkIsZeros b.catarr.sc (q * cols.chunks + cols.chunkOf j) = false)
    (hLeft : H.chunkIsZeros a.catarr.sc (rows.chunkOf i * inner.chunks + q) = false) :
    Adds (value a.dtshape.dtype) (matrixPlace rows cols i j)
      (fun out => IronArray.gemmBlockStep E B H
        ⟨a, b, rows, inner, cols, (rows.chunkOf i, cols.chunkOf j), rows.chunks, inner.chunks,
          cols.chunks, inner.blocks, cols.blocks⟩
        (rows.blockOf i, cols.blockOf j) q out t)
      (∑ l ∈ range (min inner.blockshape (gemmWalk inner q - t * inner.blockshape)),
        gemmWalked value E.machine H a b rows inner cols i j q (t * inner.blockshape + l)) := by
  have hNothing : gemmSkips H a b rows inner cols i j q t = true →
      ∑ l ∈ range (min inner.blockshape (gemmWalk inner q - t * inner.blockshape)),
        gemmWalked value E.machine H a b rows inner cols i j q (t * inner.blockshape + l) = 0 := by
    intro hSkip
    refine sum_eq_zero fun l hl => ?_
    have hl' : l < inner.blockshape := by
      have := mem_range.mp hl
      omega
    rw [gemmWalked, matrixWalked, mul_add_div_of_lt hl', hSkip, if_pos rfl]
  intro out out' hStep
  unfold IronArray.gemmBlockStep at hStep
  dsimp only at hStep
  split at hStep
  · rename_i hFlag
    cases hStep
    rw [hNothing (by rw [gemmSkips, hFlag, Bool.or_true, Bool.true_or]), add_zero]
  rename_i hLeftFlag
  split at hStep
  · rename_i hFlag
    cases hStep
    rw [hNothing (by rw [gemmSkips, hFlag, Bool.or_true]), add_zero]
  rename_i hRightFlag
  have hSkips : gemmSkips H a b rows inner cols i j q t = false := by
    rw [gemmSkips, hRight, hLeft, Bool.eq_false_of_not_eq_true hLeftFlag,
      Bool.eq_false_of_not_eq_true hRightFlag]
    rfl
  obtain ⟨m, hm, hRow, _⟩ := paddedBlockshape_of_lt hi
  obtain ⟨n, hn, hCol, hWidth⟩ := paddedBlockshape_of_lt hj
  have hSize := paddedBlockshape_getD hq ht
  rw [hm, hn] at hStep
  cases hk : paddedBlockshape inner inner.chunks q t with
  | none =>
    rw [hk] at hStep
    cases hStep
    rw [hk, Option.getD_none] at hSize
    rw [← hSize, range_zero, sum_empty, add_zero]
  | some k =>
    rw [hk] at hStep
    rw [hk, Option.getD_some] at hSize
    have hLe : k ≤ inner.blockshape := by omega
    dsimp only at hStep
    rw [readBlock_ok h.left.fresh.sized, readBlock_ok h.right.fresh.sized, Result.ok_bind,
      Result.ok_bind] at hStep
    obtain ⟨y, hy, hStep⟩ := Result.bind_eq_ok.mp hStep
    cases hStep
    rw [← hSize]
    refine h.multiply hB hSkips hRow hCol hWidth hLe
      (fun l hl => chunkItems_storedItems (h.leftItem_lt hi hl)) fun l hl => ?_
    rw [operand_eq_ok hy, gemmSeen, paddedAs_matrix h.rightAxes, mul_add_div_of_lt hl,
      Nat.mul_add_mod_of_lt hl]
    rfl

theorem gemmChunkStep (h : MatrixOperands a b rows inner cols) (hB : B.Exact value)
    (hi : i < rows.shape) (hj : j < cols.shape) (hq : q < inner.chunks) :
    Adds (value a.dtshape.dtype) (matrixPlace rows cols i j)
      (fun out => IronArray.gemmChunkStep E B H
        ⟨a, b, rows, inner, cols, (rows.chunkOf i, cols.chunkOf j), rows.chunks, inner.chunks,
          cols.chunks, inner.blocks, cols.blocks⟩
        (rows.blockOf i * cols.blocks + cols.blockOf j) out q)
      (∑ o ∈ range (gemmWalk inner q), gemmWalked value E.machine H a b rows inner cols i j q o) := by
  have hLeft : getLazychunk a.catarr (rows.chunkOf i * inner.chunks + q) = .ok () :=
    if_pos (h.leftChunk_lt hi hq)
  have hRight : getLazychunk b.catarr (q * cols.chunks + cols.chunkOf j) = .ok () :=
    if_pos (h.rightChunk_lt hj hq)
  have hBlock := cols.blockOf_lt hj
  have hIndex : idiv (rows.blockOf i * cols.blocks + cols.blockOf j) cols.blocks =
      .ok (rows.blockOf i) := by
    rw [idiv, if_neg (by omega), mul_add_div_of_lt hBlock]
  have hNothing : (∀ t, gemmSkips H a b rows inner cols i j q t = true) →
      ∑ o ∈ range (gemmWalk inner q),
        gemmWalked value E.machine H a b rows inner cols i j q o = 0 := by
    intro hSkip
    refine sum_eq_zero fun o _ => ?_
    rw [gemmWalked, matrixWalked, hSkip, if_pos rfl]
  intro out out' hStep
  unfold IronArray.gemmChunkStep at hStep
  simp only [hLeft, hRight, hIndex, Nat.mul_add_mod_of_lt hBlock, Result.ok_bind] at hStep
  split at hStep
  · rename_i hFlag
    cases hStep
    rw [hNothing fun t => by rw [gemmSkips, hFlag, Bool.true_or, Bool.true_or, Bool.true_or],
      add_zero]
  rename_i hRightFlag
  split at hStep
  · rename_i hFlag
    cases hStep
    rw [hNothing fun t => by rw [gemmSkips, hFlag, Bool.or_true, Bool.true_or, Bool.true_or],
      add_zero]
  rename_i hLeftFlag
  have hWalk : gemmWalk inner q ≤ inner.blocks * inner.blockshape := by
    rw [gemmWalk, Axis.extchunkshape, if_neg (shape_pos_of_lt_chunks hq).ne']
    split <;> omega
  have hSum := Adds.loop (fun t ht => h.gemmBlockStep (E := E) hB hi hj hq ht
    (Bool.eq_false_of_not_eq_true hRightFlag) (Bool.eq_false_of_not_eq_true hLeftFlag)) out out' hStep
  rw [hSum, sum_tiles, Nat.min_eq_right hWalk]

/-- An element of the product: the exact sum and the surplus of the walk. -/
theorem gemmPrefilter_element (h : MatrixOperands a b rows inner cols) (hB : B.Exact value)
    (hi : i < rows.shape) (hj : j < cols.shape) {items : List Cell}
    (hItems : gemmPrefilter E B H
      ⟨a, b, rows, inner, cols, (rows.chunkOf i, cols.chunkOf j), rows.chunks, inner.chunks,
        cols.chunks, inner.blocks, cols.blocks⟩
      (rows.blockOf i * cols.blocks + cols.blockOf j) = .ok items) :
    value a.dtshape.dtype (items.getD (matrixPlace rows cols i j) (.bits 0)) =
      ∑ x ∈ range inner.shape, value a.dtshape.dtype (a.contents.get [i, x]) *
        value b.dtshape.dtype (b.contents.get [x, j]) +
      inner.surplus (gemmWalk inner) (gemmWalked value E.machine H a b rows inner cols i j)
        (matrixTerm value a b rows cols i j) := by
  rw [gemmPrefilter, if_pos h.floating] at hItems
  obtain ⟨out, hLoop, hItems⟩ := Result.bind_eq_ok.mp hItems
  cases hItems
  have hSum := Adds.loop (fun q hq => h.gemmChunkStep (E := E) hB hi hj hq) _ out hLoop
  rw [List.getD_eq_getElem _ _ (by simpa using matrixPlace_lt hi hj), List.getElem_map,
    List.getElem_range, hSum, hB.zero _ h.floating, zero_add]
  exact h.sum_walk hi hj (fun q hq => part_le_gemmWalk hq) _

/-- Honest headers leave out zero blocks only. -/
theorem gemmSkips_zero (h : MatrixOperands a b rows inner cols)
    (hA : H.Honest (fun c => value a.dtshape.dtype c = 0) a.catarr)
    (hB : H.Honest (fun c => value b.dtshape.dtype c = 0) b.catarr) (hi : i < rows.shape)
    (hj : j < cols.shape) (hq : q < inner.chunks) (ht : t < inner.blocks)
    (hSkip : gemmSkips H a b rows inner cols i j q t = true) :
    ZeroBlock (fun c => value a.dtshape.dtype c = 0) a.catarr
        (rows.chunkOf i * inner.chunks + q) (rows.blockOf i * inner.blocks + t) ∨
      ZeroBlock (fun c => value b.dtshape.dtype c = 0) b.catarr
        (q * cols.chunks + cols.chunkOf j) (t * cols.blocks + cols.blockOf j) := by
  have hLeft := h.leftChunk_lt hi hq
  have hRight := h.rightChunk_lt hj hq
  have hLeftBlock := h.leftBlock_lt hi ht
  have hRightBlock := h.rightBlock_lt hj ht
  simp only [gemmSkips, Bool.or_eq_true] at hSkip
  rcases hSkip with ((hFlag | hFlag) | hFlag) | hFlag
  · exact .inr (hB.chunk _ hRight hFlag _ hRightBlock)
  · exact .inl (hA.chunk _ hLeft hFlag _ hLeftBlock)
  · exact .inl (hA.block _ hLeft _ hLeftBlock hFlag)
  · exact .inr (hB.block _ hRight _ hRightBlock hFlag)

/-- With honest headers and operands of one type the surplus is padding. -/
theorem gemm_surplus_eq (h : MatrixOperands a b rows inner cols) (m : Machine)
    (hDtype : b.dtshape.dtype = a.dtshape.dtype)
    (hA : H.Honest (fun c => value a.dtshape.dtype c = 0) a.catarr)
    (hB : H.Honest (fun c => value b.dtshape.dtype c = 0) b.catarr) (hi : i < rows.shape)
    (hj : j < cols.shape) :
    inner.surplus (gemmWalk inner) (gemmWalked value m H a b rows inner cols i j)
        (matrixTerm value a b rows cols i j) =
      inner.padding (gemmWalk inner) (matrixTerm value a b rows cols i j) := by
  refine inner.surplus_eq_padding (fun q hq => part_le_gemmWalk hq) fun q hq o ho => ?_
  have hPos := shape_pos_of_lt_chunks hq
  have hBlock := inner.block_pos hPos
  have hWalk : gemmWalk inner q ≤ inner.blocks * inner.blockshape := by
    rw [gemmWalk, Axis.extchunkshape, if_neg hPos.ne']
    split <;> omega
  have ht : o / inner.blockshape < inner.blocks := by
    rw [Nat.div_lt_iff_lt_mul hBlock]
    omega
  have hOffset := Nat.div_add_mod' o inner.blockshape
  rw [← hOffset]
  refine h.walked_eq_term hi hj (h.gemmSkips_zero hA hB hi hj hq ht) (Nat.mod_lt _ hBlock)
    fun _ => ?_
  rw [gemmSeen, hDtype, h.paddedAs_self hj m _ (Nat.mod_lt _ hBlock)]

end MatrixOperands

theorem length_gemmPrefilter {params : GemmParams} {items : List Cell}
    (h : gemmPrefilter E B H params t = .ok items) :
    items.length = params.rows.blockshape * params.cols.blockshape := by
  unfold gemmPrefilter at h
  split at h
  · obtain ⟨out, _, h⟩ := Result.bind_eq_ok.mp h
    cases h
    simp
  · cases h

/-- The padding of row `i` of the one matrix times the padding of column `j` of the other. -/
def gemmPadding (value : Dtype → Cell → R) (a b : Container) (i j : Nat) : R :=
  match a.catarr.axes, b.catarr.axes with
  | [rows, inner], [_, cols] =>
    inner.padding (gemmWalk inner) (matrixTerm value a b rows cols i j)
  | _, _ => 0

/-- What the walk adds for row `i` and column `j` beyond the exact sum: what it multiplies in the
padding, and inside the matrices what it leaves out or sees otherwise. -/
def gemmSurplus (value : Dtype → Cell → R) (m : Machine) (H : Headers) (a b : Container)
    (i j : Nat) : R :=
  match a.catarr.axes, b.catarr.axes with
  | [rows, inner], [_, cols] =>
    inner.surplus (gemmWalk inner) (gemmWalked value m H a b rows inner cols i j)
      (matrixTerm value a b rows cols i j)
  | _, _ => 0

theorem optGemm_ok {storage : Storage} {c : Container} (hE : E.Lawful) (ha : Plain a)
    (hb : Plain b) {m k n : Nat} (hA : a.dtshape.shape = [m, k]) (hB : b.dtshape.shape = [k, n])
    (hc : iarrayOptGemm E B H a b storage = .ok c) :
    ∃ rows inner cols, rows.shape = m ∧ inner.shape = k ∧ cols.shape = n ∧
      a.catarr.axes = [rows, inner] ∧ b.catarr.axes = [inner, cols] ∧
      ∃ c₀, PlainOf ⟨a.dtshape.dtype, [m, n]⟩ storage c₀ ∧ c₀.catarr.axes = [rows, cols] ∧
        ∃ catarr, c = { c₀ with catarr := catarr } ∧
          optGemmChunks E B H a b rows inner cols c₀.catarr = .ok catarr := by
  unfold iarrayOptGemm at hc
  split at hc
  · rename_i rows inner inner' cols hAxesA hAxesB
    split at hc
    · cases hc
    rename_i hRowChunk
    split at hc
    · cases hc
    rename_i hChunk
    split at hc
    · cases hc
    rename_i hColChunk
    split at hc
    · cases hc
    rename_i hRowBlock
    split at hc
    · cases hc
    rename_i hBlock
    split at hc
    · cases hc
    rename_i hColBlock
    obtain ⟨c₀, hEmpty, hc⟩ := Result.bind_eq_ok.mp hc
    obtain ⟨catarr, hChunks, hc⟩ := Result.bind_eq_ok.mp hc
    cases hc
    rw [hA, hB] at hEmpty
    have hPlain := iarrayEmpty_plain hE hEmpty
    have hShapeA := ha.fresh.shape
    have hShapeB := hb.fresh.shape
    rw [CatArray.shape, hAxesA, hA] at hShapeA
    rw [CatArray.shape, hAxesB, hB] at hShapeB
    simp only [shapeOf_cons, shapeOf_nil, List.cons.injEq, and_true] at hShapeA hShapeB
    have hInner : inner' = inner := by
      have hAxes : [inner'] = [inner] := axes_ext (by simp [hShapeA, hShapeB])
        (by simpa [chunkshapeOf] using (not_not.mp hChunk).symm)
        (by simpa [blockshapeOf] using (not_not.mp hBlock).symm)
      simpa using hAxes
    refine ⟨rows, inner, cols, hShapeA.1, hShapeA.2, hShapeB.2, hAxesA, hInner ▸ hAxesB, c₀,
      hPlain, ?_, catarr, rfl, hChunks⟩
    have hShape : [[m, k].getD 0 0, [k, n].getD 1 0] = [rows.shape, cols.shape] := by
      rw [hShapeA.1, hShapeB.2]
      rfl
    rw [hShape] at hPlain
    exact axes_of_matrix hPlain ⟨(not_not.mp hRowChunk).symm, (not_not.mp hColChunk).symm⟩
      ⟨(not_not.mp hRowBlock).symm, (not_not.mp hColBlock).symm⟩
      (shortTiles_pair (ha.fresh.shortTiles rows (by simp [hAxesA]))
        (hb.fresh.shortTiles cols (by simp [hAxesB])))
  · cases hc

/-- The chunks that the loop writes: every block is what the prefilter makes of it. -/
theorem optGemmChunks_ok {c catarr : CatArray} (hAxes : c.axes = [rows, cols])
    (hc : optGemmChunks E B H a b rows inner cols c = .ok catarr) :
    ∃ block : Nat → Nat → List Cell,
      (∀ q < rows.chunks * cols.chunks, ∀ t < rows.blocks * cols.blocks, gemmPrefilter E B H
        ⟨a, b, rows, inner, cols, (q / cols.chunks, q % cols.chunks), rows.chunks, inner.chunks,
          cols.chunks, inner.blocks, cols.blocks⟩ t = .ok (block q t)) ∧
      catarr = c.withChunks c.nchunks fun q =>
        (List.range (c.axes.map Axis.blocks).prod).flatMap (block q) := by
  obtain ⟨n₀, h₀, hc⟩ := Result.bind_eq_ok.mp hc
  obtain ⟨n₁, h₁, hc⟩ := Result.bind_eq_ok.mp hc
  obtain ⟨n₂, h₂, hc⟩ := Result.bind_eq_ok.mp hc
  obtain ⟨n₃, h₃, hc⟩ := Result.bind_eq_ok.mp hc
  obtain ⟨n₄, h₄, hc⟩ := Result.bind_eq_ok.mp hc
  rw [idiv_extshape (idiv_eq_ok h₀), Except.ok.injEq] at h₀
  rw [idiv_extshape (idiv_eq_ok h₁), Except.ok.injEq] at h₁
  rw [idiv_extshape (idiv_eq_ok h₂), Except.ok.injEq] at h₂
  subst h₀ h₁ h₂
  have hNchunks : c.nchunks = rows.chunks * cols.chunks := by simp [CatArray.nchunks, hAxes]
  rw [← hNchunks] at hc ⊢
  obtain ⟨block, hBlock, rfl⟩ := (@CatArray.compressChunks_eq_ok c catarr fun q =>
    gemmPrefilter E B H ⟨a, b, rows, inner, cols, (q / cols.chunks, q % cols.chunks),
      rows.chunks, inner.chunks, cols.chunks, n₃, n₄⟩).mp hc
  refine ⟨block, fun q hq t ht => ?_, rfl⟩
  have hCols : 0 < cols.shape := by
    refine @CatArray.shape_pos_of_nchunks c.axes q hq cols ?_
    simp [hAxes]
  rw [idiv_extchunkshape hCols, Except.ok.injEq] at h₄
  rw [← hBlock q hq t (by simpa [hAxes] using ht), h₄]
  rcases Nat.eq_zero_or_pos inner.shape with hEmpty | hPos
  · -- without columns of `a` there is no chunk whose blocks could be counted
    have hNone : inner.chunks = 0 := by rw [Axis.chunks, hEmpty, numTiles_zero]
    simp only [gemmPrefilter, hNone, List.range_zero, List.foldlM_nil]
  · rw [idiv_extchunkshape hPos, Except.ok.injEq] at h₃
    rw [h₃]

/-- The walk meets no padding in a chunk that its blocks fill, nor in a single chunk that reaches
beyond the array. -/
theorem gemmPadding_eq_zero (hAxesA : a.catarr.axes = [rows, inner])
    (hAxesB : b.catarr.axes = [inner, cols])
    (h : inner.blockshape ∣ inner.chunkshape ∨
      inner.chunks = 1 ∧ inner.shape < inner.chunkshape) : gemmPadding value a b i j = 0 := by
  rw [gemmPadding, hAxesA, hAxesB]
  refine Axis.padding_eq_zero fun q hq => ?_
  have hPos := shape_pos_of_lt_chunks hq
  have hCover := inner.shape_le_chunks
  rw [gemmWalk, Axis.extchunkshape, if_neg hPos.ne', Axis.part_eq_min]
  rcases h with hFill | ⟨hSingle, hBeyond⟩
  · rw [Axis.blocks_mul_of_dvd hPos hFill]
    split
    · exact Nat.le_refl _
    · rename_i hFull
      refine Nat.le_min.mpr ⟨Nat.le_refl _, ?_⟩
      -- either the chunks end with the array or this is not the last one
      by_cases hExt : inner.shape = inner.extshape
      · rw [hExt, Axis.extshape, ← Nat.sub_mul]
        exact Nat.le_mul_of_pos_left _ (Nat.sub_pos_of_lt hq)
      · have hNext : q + 1 < inner.chunks := by
          have hLast : ¬ q + 1 = inner.chunks := fun hLast => hFull ⟨hExt, hLast⟩
          omega
        have hStart := (lt_numTiles_iff (inner.chunk_pos hPos)).mp hNext
        rw [Nat.add_one_mul] at hStart
        omega
  · have hFirst : q = 0 := by omega
    rw [if_pos ⟨by rw [Axis.extshape, hSingle]; omega, by omega⟩, hFirst]
    omega

end

namespace OptGemmExample

/-- Six items of a dimension in chunks of three. -/
def shared (blockshape : Nat) : Axis := .ofCuts 6 3 blockshape

/-- A row of ones; the padding holds ones, too. -/
def row (blockshape : Nat) : Container :=
  Reference.plain .double [.ofCuts 1 1 1, shared blockshape] fun _ => .real (.fin 1)

def column (blockshape : Nat) : Container :=
  Reference.plain .double [shared blockshape, .ofCuts 1 1 1] fun _ => .real (.fin 1)

/-- A row of three ones and three zeros. -/
def halfRow : Container :=
  Reference.plain .double [.ofCuts 1 1 1, shared 3] fun x =>
    if x.getD 1 0 < 3 then .real (.fin 1) else .bits 0

/-- A row of two ones, each in a block of its own. -/
def pair : Container :=
  Reference.plain .double [.ofCuts 1 1 1, .ofCuts 2 2 1] fun _ => .real (.fin 1)

def pairColumn : Container :=
  Reference.plain .double [.ofCuts 2 2 1, .ofCuts 1 1 1] fun _ => .real (.fin 1)

theorem plain_halfRow : Plain halfRow := Reference.plain_plain _ _ (by decide) (by decide)

theorem plain_column : Plain (column 3) := Reference.plain_plain _ _ (by decide) (by decide)

def product (H : Headers) (a b : Container) : Result Container :=
  iarrayOptGemm Reference.backend Reference.blas H a b ⟨[1, 1], [1, 1]⟩

/-- The exact product of a row and a column. -/
def exact (a b : Container) (k : Nat) : ℚ :=
  ∑ x ∈ range k, Reference.number .double (a.contents.get [0, x]) *
    Reference.number .double (b.contents.get [x, 0])

end OptGemmExample

end IronArray
