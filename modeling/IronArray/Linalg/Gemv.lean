import IronArray.Core.Reference
import IronArray.Linalg.Matrix

/-!
# The optimised product of a matrix and a vector

`iarray_opt_gemv`: the prefilter of each block of the result walks the chunks and the blocks of a
row of the matrix. It cuts the walk off at the end of the array, not at the end of a chunk, and it
leaves out blocks whose headers say that they are zero. `optGemv_exact_iff` says when the result is
exact.
-/

namespace IronArray

open Grid Finset

/-! ## The code -/

/-- The part of a block in front of the end of the array; none for a block that starts behind the
end. -/
def currentBlockshape (x : Axis) (nchunk nblock : Nat) : Option Nat :=
  let start := x.chunkshape * nchunk + x.blockshape * nblock
  if x.shape < start then none
  else if x.shape < x.chunkshape * nchunk + x.blockshape * (nblock + 1) then some (x.shape - start)
  else some x.blockshape

/-- `iarray_gemv_params_t`, with the axes of the matrix. -/
structure GemvParams where
  a : Container
  b : Container
  rows : Axis
  cols : Axis
  cNchunk : Nat
  chunksShape : Nat
  blocksShape : Nat

section

variable (E : Backend) (B : Blas) (H : Headers)

/-- One pass of the loop over the blocks of a chunk. -/
def gemvBlockStep (params : GemvParams) (cNblock bNchunk : Nat) (out : Nat → Cell)
    (bNblock : Nat) : Result (Nat → Cell) :=
  let aNchunk := params.cNchunk * params.chunksShape + bNchunk
  let aNblock := cNblock * params.blocksShape + bNblock
  if H.blockIsZeros params.a.catarr.sc aNchunk aNblock then .ok out
  else if H.blockIsZeros params.b.catarr.sc bNchunk bNblock then .ok out
  else
    match currentBlockshape params.rows params.cNchunk cNblock,
      currentBlockshape params.cols bNchunk bNblock with
    | some m, some n => do
      let aBlock ← readBlock params.a.catarr aNchunk aNblock
      let bBlock ← readBlock params.b.catarr bNchunk bNblock
      let x ← operand E.machine params.b.dtshape.dtype params.a.dtshape.dtype bBlock n
      pure (B.gemv params.a.dtshape.dtype m n (chunkItems aBlock) params.cols.blockshape x true
        out)
    | _, _ => .ok out

/-- One pass of the loop over the chunks of the row. -/
def gemvChunkStep (params : GemvParams) (cNblock : Nat) (out : Nat → Cell) (bNchunk : Nat) :
    Result (Nat → Cell) := do
  let aNchunk := params.cNchunk * params.chunksShape + bNchunk
  getLazychunk params.b.catarr bNchunk
  if H.chunkIsZeros params.b.catarr.sc bNchunk then pure out
  else do
    getLazychunk params.a.catarr aNchunk
    if H.chunkIsZeros params.a.catarr.sc aNchunk then pure out
    else (List.range params.blocksShape).foldlM (gemvBlockStep E B H params cNblock bNchunk) out

/-- `_gemv_prefilter` of `iarray_gemv.c`. -/
def optGemvPrefilter (params : GemvParams) (cNblock : Nat) : Result (List Cell) :=
  if params.a.dtshape.dtype.isFloating then do
    let out ← (List.range params.chunksShape).foldlM (gemvChunkStep E B H params cNblock)
      fun _ => .bits 0
    pure ((List.range params.rows.blockshape).map out)
  else inaError .bloscFailed

/-- The loop of `iarray_opt_gemv` over the chunks of the result. -/
def optGemvChunks (a b : Container) (rows cols : Axis) (c : CatArray) : Result CatArray := do
  let chunksShape₀ ← idiv rows.extshape rows.chunkshape
  let chunksShape ← idiv cols.extshape cols.chunkshape
  let _ ← idiv rows.extchunkshape rows.blockshape
  let blocksShape ← idiv cols.extchunkshape cols.blockshape
  (List.range chunksShape₀).foldlM (fun cc cNchunk => do
    let chunk ← c.compress (optGemvPrefilter E B H
      ⟨a, b, rows, cols, cNchunk, chunksShape, blocksShape⟩)
    pure (cc.updateChunk cNchunk (chunkItems chunk))) c

/-- `iarray_opt_gemv`. -/
def iarrayOptGemv (a b : Container) (storage : Storage) : Result Container :=
  match a.catarr.axes, b.catarr.axes with
  | [rows, cols], [inner] =>
    if rows.chunkshape ≠ storage.chunkshape.getD 0 0 then inaError .invalidChunkshape
    else if cols.chunkshape ≠ inner.chunkshape then inaError .invalidChunkshape
    else if rows.blockshape ≠ storage.blockshape.getD 0 0 then inaError .invalidBlockshape
    else if cols.blockshape ≠ inner.blockshape then inaError .invalidBlockshape
    else do
      let c ← iarrayEmpty E ⟨a.dtshape.dtype, [a.dtshape.shape.getD 0 0]⟩ storage
      let catarr ← optGemvChunks E B H a b rows cols c.catarr
      pure { c with catarr := catarr }
  | _, _ => inaError .invalidNdim

end

/-! ## Blocks in front of the end -/

theorem currentBlockshape_getD (x : Axis) (q t : Nat) :
    (currentBlockshape x q t).getD 0 =
      min x.blockshape (x.shape - q * x.chunkshape - t * x.blockshape) := by
  have hChunk := Nat.mul_comm x.chunkshape q
  have hBlock := Nat.mul_comm x.blockshape t
  have hNext : x.blockshape * (t + 1) = t * x.blockshape + x.blockshape := by
    rw [Nat.mul_add, Nat.mul_one, hBlock]
  unfold currentBlockshape
  simp only [hChunk, hBlock, hNext]
  split
  · simp only [Option.getD_none]
    omega
  split
  · simp only [Option.getD_some]
    omega
  · simp only [Option.getD_some]
    omega

/-- The block of a position of the axis reaches it. -/
theorem currentBlockshape_of_lt {x : Axis} {i : Nat} (hi : i < x.shape) :
    ∃ m, currentBlockshape x (x.chunkOf i) (x.blockOf i) = some m ∧ x.itemOf i < m := by
  have hJoin := x.join_split i
  have hItem := x.itemOf_lt hi
  rw [Axis.join] at hJoin
  have hSize := currentBlockshape_getD x (x.chunkOf i) (x.blockOf i)
  have hReach : x.itemOf i < (currentBlockshape x (x.chunkOf i) (x.blockOf i)).getD 0 := by
    omega
  cases h : currentBlockshape x (x.chunkOf i) (x.blockOf i) with
  | none => rw [h] at hReach; exact absurd hReach (Nat.not_lt_zero _)
  | some m => exact ⟨m, rfl, by rwa [h] at hReach⟩

/-! ## What the walk adds -/

section

variable {R : Type} [Ring R] {value : Dtype → Cell → R} {E : Backend} {B : Blas} {H : Headers}
  {a b : Container} {rows cols : Axis} {i q : Nat}

/-- The product of the items at offset `o` of chunk `q`, in row `i` of the matrix and in the
vector. -/
def gemvTerm (value : Dtype → Cell → R) (a b : Container) (rows : Axis) (i q o : Nat) : R :=
  value a.dtshape.dtype (a.catarr.padded [rows.pos i, (q, o)]) *
    value b.dtshape.dtype (b.catarr.padded [(q, o)])

/-- The blocks of a row that the walk leaves out. -/
def gemvSkips (H : Headers) (a b : Container) (rows cols : Axis) (i q t : Nat) : Bool :=
  H.chunkIsZeros b.catarr.sc q ||
    H.chunkIsZeros a.catarr.sc (rows.chunkOf i * cols.chunks + q) ||
    H.blockIsZeros a.catarr.sc (rows.chunkOf i * cols.chunks + q)
      (rows.blockOf i * cols.blocks + t) ||
    H.blockIsZeros b.catarr.sc q t

/-- What the walk adds there: it reads the vector under the type of the matrix. -/
def gemvWalked (value : Dtype → Cell → R) (m : Machine) (H : Headers) (a b : Container)
    (rows cols : Axis) (i q o : Nat) : R :=
  matrixWalked value a rows cols (gemvSkips H a b rows cols i)
    (fun q o => b.catarr.paddedAs m b.dtshape.dtype a.dtshape.dtype [(q, o)]) i q o

/-- The number of positions of chunk `q` that the walk meets. -/
def gemvWalk (cols : Axis) (q : Nat) : Nat :=
  min cols.extchunkshape (cols.shape - q * cols.chunkshape)

theorem part_le_gemvWalk (hq : q < cols.chunks) : cols.part q ≤ gemvWalk cols q := by
  have hPos := shape_pos_of_lt_chunks hq
  have hBlocks := Axis.chunkshape_le_blocks hPos
  rw [gemvWalk, Axis.extchunkshape, if_neg hPos.ne', Axis.part_eq_min]
  omega

theorem length_optGemvPrefilter {params : GemvParams} {t : Nat} {items : List Cell}
    (h : optGemvPrefilter E B H params t = .ok items) :
    items.length = params.rows.blockshape := by
  unfold optGemvPrefilter at h
  split at h
  · obtain ⟨out, _, h⟩ := Result.bind_eq_ok.mp h
    cases h
    simp
  · cases h

/-- What both operands need: they are plain and tiled alike, the matrix of a floating type. -/
structure GemvOperands (a b : Container) (rows cols : Axis) : Prop where
  matrix : Plain a
  vector : Plain b
  matrixAxes : a.catarr.axes = [rows, cols]
  vectorAxes : b.catarr.axes = [cols]
  floating : a.dtshape.dtype.isFloating

namespace GemvOperands

theorem matrixItems (h : GemvOperands a b rows cols) :
    a.catarr.blockshape.prod = rows.blockshape * cols.blockshape := by
  simp [CatArray.blockshape, blockshapeOf, h.matrixAxes]

theorem vectorItems (h : GemvOperands a b rows cols) :
    b.catarr.blockshape.prod = cols.blockshape := by
  simp [CatArray.blockshape, blockshapeOf, h.vectorAxes]

theorem matrixChunk_lt (h : GemvOperands a b rows cols) (hi : i < rows.shape)
    (hq : q < cols.chunks) : rows.chunkOf i * cols.chunks + q < a.catarr.nchunks := by
  simp only [CatArray.nchunks, h.matrixAxes, List.map_cons, List.map_nil, List.prod_cons,
    List.prod_nil, Nat.mul_one]
  exact mul_add_lt (Axis.chunkOf_lt hi) hq

theorem vectorChunk_lt (h : GemvOperands a b rows cols) (hq : q < cols.chunks) :
    q < b.catarr.nchunks := by
  simpa [CatArray.nchunks, h.vectorAxes] using hq

/-- The stored item of the matrix behind a term. -/
theorem matrix_padded (h : GemvOperands a b rows cols) {t l : Nat} (hl : l < cols.blockshape) :
    a.catarr.padded [rows.pos i, (q, t * cols.blockshape + l)] =
      a.catarr.sc.chunk (rows.chunkOf i * cols.chunks + q)
        ((rows.blockOf i * cols.blocks + t) * a.catarr.blockshape.prod +
          (rows.itemOf i * cols.blockshape + l)) := by
  rw [padded_matrix h.matrixAxes, mul_add_div_of_lt hl, Nat.mul_add_mod_of_lt hl]
  rfl

/-- The stored item of the vector. -/
theorem vector_padded (h : GemvOperands a b rows cols) {t l : Nat} (hl : l < cols.blockshape) :
    b.catarr.padded [(q, t * cols.blockshape + l)] =
      b.catarr.sc.chunk q (t * b.catarr.blockshape.prod + l) := by
  rw [padded_vector h.vectorAxes, mul_add_div_of_lt hl, Nat.mul_add_mod_of_lt hl]

theorem item_lt (h : GemvOperands a b rows cols) (hi : i < rows.shape) {l : Nat}
    (hl : l < cols.blockshape) :
    rows.itemOf i * cols.blockshape + l < a.catarr.blockshape.prod := by
  rw [h.matrixItems]
  exact mul_add_lt (rows.itemOf_lt hi) hl

/-- One block adds its part in front of the end of the array. -/
theorem blockStep (h : GemvOperands a b rows cols) (hB : B.Exact value) (hi : i < rows.shape)
    (hVector : H.chunkIsZeros b.catarr.sc q = false)
    (hMatrix : H.chunkIsZeros a.catarr.sc (rows.chunkOf i * cols.chunks + q) = false) (t : Nat) :
    Adds (value a.dtshape.dtype) (rows.itemOf i)
      (fun out => gemvBlockStep E B H
        ⟨a, b, rows, cols, rows.chunkOf i, cols.chunks, cols.blocks⟩ (rows.blockOf i) q out t)
      (∑ l ∈ range (min cols.blockshape (cols.shape - q * cols.chunkshape - t * cols.blockshape)),
        gemvWalked value E.machine H a b rows cols i q (t * cols.blockshape + l)) := by
  have hNothing : gemvSkips H a b rows cols i q t = true →
      ∑ l ∈ range (min cols.blockshape
          (cols.shape - q * cols.chunkshape - t * cols.blockshape)),
        gemvWalked value E.machine H a b rows cols i q (t * cols.blockshape + l) = 0 := by
    intro hSkip
    refine sum_eq_zero fun l hl => ?_
    have hl' : l < cols.blockshape := by
      have := mem_range.mp hl
      omega
    rw [gemvWalked, matrixWalked, mul_add_div_of_lt hl', hSkip, if_pos rfl]
  intro out out' hStep
  unfold gemvBlockStep at hStep
  dsimp only at hStep
  split at hStep
  · rename_i hFlag
    cases hStep
    rw [hNothing (by rw [gemvSkips, hFlag, Bool.or_true, Bool.true_or]), add_zero]
  rename_i hMatrixFlag
  split at hStep
  · rename_i hFlag
    cases hStep
    rw [hNothing (by rw [gemvSkips, hFlag, Bool.or_true]), add_zero]
  rename_i hVectorFlag
  have hSkips : gemvSkips H a b rows cols i q t = false := by
    rw [gemvSkips, hVector, hMatrix, Bool.eq_false_of_not_eq_true hMatrixFlag,
      Bool.eq_false_of_not_eq_true hVectorFlag]
    rfl
  obtain ⟨m, hm, hReach⟩ := currentBlockshape_of_lt hi
  have hSize := currentBlockshape_getD cols q t
  rw [hm] at hStep
  cases hn : currentBlockshape cols q t with
  | none =>
    rw [hn] at hStep
    cases hStep
    rw [hn, Option.getD_none] at hSize
    rw [← hSize, range_zero, sum_empty, add_zero]
  | some n =>
    rw [hn] at hStep
    rw [hn, Option.getD_some] at hSize
    have hLe : n ≤ cols.blockshape := by omega
    dsimp only at hStep
    rw [readBlock_ok h.matrix.fresh.sized, readBlock_ok h.vector.fresh.sized, Result.ok_bind,
      Result.ok_bind] at hStep
    obtain ⟨x, hx, hStep⟩ := Result.bind_eq_ok.mp hStep
    cases hStep
    rw [hB.gemv true h.floating hLe hReach, if_pos rfl, ← hSize]
    congr 1
    refine sum_congr rfl fun l hl => ?_
    have hl' : l < cols.blockshape := (mem_range.mp hl).trans_le hLe
    rw [gemvWalked, matrixWalked, mul_add_div_of_lt hl', hSkips, if_neg Bool.false_ne_true,
      h.matrix_padded hl', chunkItems_storedItems (h.item_lt hi hl'), operand_eq_ok hx,
      paddedAs_vector h.vectorAxes, mul_add_div_of_lt hl', Nat.mul_add_mod_of_lt hl']

/-- One chunk adds its part in front of the end of the array. -/
theorem chunkStep (h : GemvOperands a b rows cols) (hB : B.Exact value) (hi : i < rows.shape)
    (hq : q < cols.chunks) :
    Adds (value a.dtshape.dtype) (rows.itemOf i)
      (fun out => gemvChunkStep E B H
        ⟨a, b, rows, cols, rows.chunkOf i, cols.chunks, cols.blocks⟩ (rows.blockOf i) out q)
      (∑ o ∈ range (gemvWalk cols q), gemvWalked value E.machine H a b rows cols i q o) := by
  have hVector : getLazychunk b.catarr q = .ok () := if_pos (h.vectorChunk_lt hq)
  have hMatrix : getLazychunk a.catarr (rows.chunkOf i * cols.chunks + q) = .ok () :=
    if_pos (h.matrixChunk_lt hi hq)
  have hNothing : (∀ t, gemvSkips H a b rows cols i q t = true) →
      ∑ o ∈ range (gemvWalk cols q), gemvWalked value E.machine H a b rows cols i q o = 0 := by
    intro hSkip
    refine sum_eq_zero fun o _ => ?_
    rw [gemvWalked, matrixWalked, hSkip, if_pos rfl]
  intro out out' hStep
  unfold gemvChunkStep at hStep
  simp only [hVector, hMatrix, Result.ok_bind] at hStep
  split at hStep
  · rename_i hFlag
    cases hStep
    rw [hNothing fun t => by rw [gemvSkips, hFlag, Bool.true_or, Bool.true_or, Bool.true_or],
      add_zero]
  rename_i hVectorFlag
  split at hStep
  · rename_i hFlag
    cases hStep
    rw [hNothing fun t => by rw [gemvSkips, hFlag, Bool.or_true, Bool.true_or, Bool.true_or],
      add_zero]
  rename_i hMatrixFlag
  have hSum := Adds.loop (fun t _ => h.blockStep (E := E) hB hi
    (Bool.eq_false_of_not_eq_true hVectorFlag) (Bool.eq_false_of_not_eq_true hMatrixFlag) t)
    out out' hStep
  rw [hSum, sum_tiles, gemvWalk, Axis.extchunkshape, if_neg (shape_pos_of_lt_chunks hq).ne']

/-- The elements behind the terms inside a row. -/
theorem term_inside (h : GemvOperands a b rows cols) (hi : i < rows.shape) {x : Nat}
    (hx : x < cols.shape) :
    gemvTerm value a b rows i (x / cols.chunkshape) (x % cols.chunkshape) =
      value a.dtshape.dtype (a.contents.get [i, x]) *
        value b.dtshape.dtype (b.contents.get [x]) := by
  have hMatrix : InBox [i, x] a.catarr.shape := by
    simpa [CatArray.shape, h.matrixAxes] using ⟨hi, hx⟩
  have hVector : InBox [x] b.catarr.shape := by simpa [CatArray.shape, h.vectorAxes] using hx
  have hGetA : a.contents.get [i, x] = _ :=
    get_eq_padded h.matrix.fresh.sized h.matrix.fresh.postfilter hMatrix
  have hGetB : b.contents.get [x] = _ :=
    get_eq_padded h.vector.fresh.sized h.vector.fresh.postfilter hVector
  rw [hGetA, hGetB, h.matrixAxes, h.vectorAxes]
  rfl

/-- Row `i` of the product: the exact sum and the surplus of the walk. -/
theorem prefilter_row (h : GemvOperands a b rows cols) (hB : B.Exact value)
    (hi : i < rows.shape) {items : List Cell}
    (hItems : optGemvPrefilter E B H
      ⟨a, b, rows, cols, rows.chunkOf i, cols.chunks, cols.blocks⟩ (rows.blockOf i) = .ok items) :
    value a.dtshape.dtype (items.getD (rows.itemOf i) (.bits 0)) =
      ∑ x ∈ range cols.shape, value a.dtshape.dtype (a.contents.get [i, x]) *
        value b.dtshape.dtype (b.contents.get [x]) +
      cols.surplus (gemvWalk cols) (gemvWalked value E.machine H a b rows cols i)
        (gemvTerm value a b rows i) := by
  rw [optGemvPrefilter, if_pos h.floating] at hItems
  obtain ⟨out, hLoop, hItems⟩ := Result.bind_eq_ok.mp hItems
  cases hItems
  have hSum := Adds.loop (fun q hq => h.chunkStep (E := E) hB hi hq) _ out hLoop
  rw [List.getD_eq_getElem _ _ (by simpa using rows.itemOf_lt hi), List.getElem_map,
    List.getElem_range, hSum, hB.zero _ h.floating, zero_add]
  exact cols.sum_walk_surplus (fun q hq => part_le_gemvWalk hq) fun _ hx => h.term_inside hi hx

/-- Honest headers leave out blocks only whose terms are zero. -/
theorem term_eq_zero (h : GemvOperands a b rows cols)
    (hA : H.Honest (fun c => value a.dtshape.dtype c = 0) a.catarr)
    (hB : H.Honest (fun c => value b.dtshape.dtype c = 0) b.catarr) (hi : i < rows.shape)
    (hq : q < cols.chunks) {t l : Nat} (ht : t < cols.blocks) (hl : l < cols.blockshape)
    (hSkip : gemvSkips H a b rows cols i q t = true) :
    gemvTerm value a b rows i q (t * cols.blockshape + l) = 0 := by
  have hMatrix := h.matrixChunk_lt hi hq
  have hVector := h.vectorChunk_lt hq
  have hMatrixBlock : rows.blockOf i * cols.blocks + t < (a.catarr.axes.map Axis.blocks).prod := by
    rw [h.matrixAxes, List.map_cons, List.map_cons, List.map_nil, List.prod_cons, List.prod_cons,
      List.prod_nil, Nat.mul_one]
    exact mul_add_lt (rows.blockOf_lt hi) ht
  have hVectorBlock : t < (b.catarr.axes.map Axis.blocks).prod := by
    rwa [h.vectorAxes, List.map_cons, List.map_nil, List.prod_cons, List.prod_nil, Nat.mul_one]
  have hItem := h.vectorItems ▸ hl
  rw [gemvTerm, h.matrix_padded hl, h.vector_padded hl]
  simp only [gemvSkips, Bool.or_eq_true] at hSkip
  rcases hSkip with ((hFlag | hFlag) | hFlag) | hFlag
  · rw [hB.chunk _ hVector hFlag _ hVectorBlock _ hItem, mul_zero]
  · rw [hA.chunk _ hMatrix hFlag _ hMatrixBlock _ (h.item_lt hi hl), zero_mul]
  · rw [hA.block _ hMatrix _ hMatrixBlock hFlag _ (h.item_lt hi hl), zero_mul]
  · rw [hB.block _ hVector _ hVectorBlock hFlag _ hItem, mul_zero]

/-- With honest headers and operands of one type the surplus is padding. -/
theorem surplus_eq (h : GemvOperands a b rows cols) (m : Machine)
    (hDtype : b.dtshape.dtype = a.dtshape.dtype)
    (hA : H.Honest (fun c => value a.dtshape.dtype c = 0) a.catarr)
    (hB : H.Honest (fun c => value b.dtshape.dtype c = 0) b.catarr) (hi : i < rows.shape) :
    cols.surplus (gemvWalk cols) (gemvWalked value m H a b rows cols i)
        (gemvTerm value a b rows i) =
      cols.padding (gemvWalk cols) (gemvTerm value a b rows i) := by
  refine cols.surplus_eq_padding (fun q hq => part_le_gemvWalk hq) fun q hq o ho => ?_
  have hPos := shape_pos_of_lt_chunks hq
  have hBlock := cols.block_pos hPos
  have ht : o / cols.blockshape < cols.blocks := by
    rw [gemvWalk, Axis.extchunkshape, if_neg hPos.ne'] at ho
    rw [Nat.div_lt_iff_lt_mul hBlock]
    omega
  have hl := Nat.mod_lt o hBlock
  have hOffset := Nat.div_add_mod' o cols.blockshape
  rw [← hOffset, gemvWalked, matrixWalked, mul_add_div_of_lt hl]
  split
  · rename_i hSkip
    exact (h.term_eq_zero hA hB hi hq ht hl hSkip).symm
  · rw [gemvTerm, hDtype, paddedAs_vector h.vectorAxes, loadAt_aligned, h.vector_padded hl,
      mul_add_div_of_lt hl, Nat.mul_add_mod_of_lt hl, chunkItems_storedItems (h.vectorItems ▸ hl)]

end GemvOperands

/-- The padding of row `i` of the matrix times the padding of the vector. -/
def gemvPadding (value : Dtype → Cell → R) (a b : Container) (i : Nat) : R :=
  match a.catarr.axes with
  | [rows, cols] => cols.padding (gemvWalk cols) (gemvTerm value a b rows i)
  | _ => 0

/-- What the walk adds for row `i` beyond the exact sum: what it multiplies in the padding, and
inside the row what it leaves out or reads otherwise. -/
def gemvSurplus (value : Dtype → Cell → R) (m : Machine) (H : Headers) (a b : Container) (i : Nat) :
    R :=
  match a.catarr.axes with
  | [rows, cols] =>
    cols.surplus (gemvWalk cols) (gemvWalked value m H a b rows cols i) (gemvTerm value a b rows i)
  | _ => 0

theorem optGemv_ok {storage : Storage} {c : Container} (hE : E.Lawful) (ha : Plain a)
    (hb : Plain b) {m k : Nat} (hA : a.dtshape.shape = [m, k]) (hB : b.dtshape.shape = [k])
    (hc : iarrayOptGemv E B H a b storage = .ok c) :
    ∃ rows cols, rows.shape = m ∧ cols.shape = k ∧ a.catarr.axes = [rows, cols] ∧
      b.catarr.axes = [cols] ∧ ∃ c₀, PlainOf ⟨a.dtshape.dtype, [m]⟩ storage c₀ ∧
        c₀.catarr.axes = [rows] ∧ ∃ catarr, c = { c₀ with catarr := catarr } ∧
          optGemvChunks E B H a b rows cols c₀.catarr = .ok catarr := by
  unfold iarrayOptGemv at hc
  split at hc
  · rename_i rows cols inner hAxesA hAxesB
    split at hc
    · cases hc
    rename_i hRowChunk
    split at hc
    · cases hc
    rename_i hChunk
    split at hc
    · cases hc
    rename_i hRowBlock
    split at hc
    · cases hc
    rename_i hBlock
    obtain ⟨c₀, hEmpty, hc⟩ := Result.bind_eq_ok.mp hc
    obtain ⟨catarr, hChunks, hc⟩ := Result.bind_eq_ok.mp hc
    cases hc
    rw [hA] at hEmpty
    have hPlain := iarrayEmpty_plain hE hEmpty
    have hShapeA := ha.fresh.shape
    have hShapeB := hb.fresh.shape
    rw [CatArray.shape, hAxesA, hA] at hShapeA
    rw [CatArray.shape, hAxesB, hB] at hShapeB
    simp only [shapeOf_cons, shapeOf_nil, List.cons.injEq, and_true] at hShapeA hShapeB
    have hInner : inner = cols := by
      have hAxes : [inner] = [cols] := axes_ext (by simp [hShapeA, hShapeB])
        (by simpa [chunkshapeOf] using (not_not.mp hChunk).symm)
        (by simpa [blockshapeOf] using (not_not.mp hBlock).symm)
      simpa using hAxes
    refine ⟨rows, cols, hShapeA.1, hShapeA.2, hAxesA, hInner ▸ hAxesB, c₀, hPlain, ?_, catarr,
      rfl, hChunks⟩
    have hShape : [[m, k].getD 0 0] = shapeOf [rows] := by simp [hShapeA.1]
    rw [hShape] at hPlain
    have hShort := ha.fresh.shortTiles
    rw [hAxesA] at hShort
    exact hPlain.axes_eq (by simpa [chunkshapeOf] using (not_not.mp hRowChunk).symm)
      (by simpa [blockshapeOf] using (not_not.mp hRowBlock).symm)
      (List.forall_mem_singleton.mpr (hShort rows List.mem_cons_self))
  · cases hc

/-- The chunks that the loop writes: every block is what the prefilter makes of it. -/
theorem optGemvChunks_ok {c catarr : CatArray} (hAxes : c.axes = [rows])
    (hc : optGemvChunks E B H a b rows cols c = .ok catarr) :
    ∃ block : Nat → Nat → List Cell,
      (∀ q < rows.chunks, ∀ t < rows.blocks, optGemvPrefilter E B H
        ⟨a, b, rows, cols, q, cols.chunks, cols.blocks⟩ t = .ok (block q t)) ∧
      catarr = c.withChunks c.nchunks fun q =>
        (List.range (c.axes.map Axis.blocks).prod).flatMap (block q) := by
  obtain ⟨n₀, h₀, hc⟩ := Result.bind_eq_ok.mp hc
  obtain ⟨n₁, h₁, hc⟩ := Result.bind_eq_ok.mp hc
  obtain ⟨_, _, hc⟩ := Result.bind_eq_ok.mp hc
  obtain ⟨n₂, h₂, hc⟩ := Result.bind_eq_ok.mp hc
  rw [idiv_extshape (idiv_eq_ok h₀), Except.ok.injEq] at h₀
  rw [idiv_extshape (idiv_eq_ok h₁), Except.ok.injEq] at h₁
  subst h₀ h₁
  have hPrefilter : ∀ q t, optGemvPrefilter E B H
      ⟨a, b, rows, cols, q, cols.chunks, n₂⟩ t = optGemvPrefilter E B H
      ⟨a, b, rows, cols, q, cols.chunks, cols.blocks⟩ t := by
    intro q t
    rcases Nat.eq_zero_or_pos cols.shape with hEmpty | hPos
    · -- without columns there is no chunk whose blocks could be counted
      have hNone : cols.chunks = 0 := by rw [Axis.chunks, hEmpty, numTiles_zero]
      simp only [optGemvPrefilter, hNone, List.range_zero, List.foldlM_nil]
    · rw [idiv_extchunkshape hPos, Except.ok.injEq] at h₂
      rw [h₂]
  have hNchunks : c.nchunks = rows.chunks := by simp [CatArray.nchunks, hAxes]
  rw [← hNchunks] at hc ⊢
  obtain ⟨block, hBlock, rfl⟩ := (@CatArray.compressChunks_eq_ok c catarr
    fun q => optGemvPrefilter E B H ⟨a, b, rows, cols, q, cols.chunks, n₂⟩).mp hc
  refine ⟨block, fun q hq t ht => ?_, rfl⟩
  rw [← hPrefilter]
  exact hBlock q hq t (by simpa [hAxes] using ht)

/-- The walk meets no padding in a chunk that its blocks fill, nor in a single chunk. -/
theorem gemvPadding_eq_zero {i : Nat} (hAxes : a.catarr.axes = [rows, cols])
    (h : cols.blockshape ∣ cols.chunkshape ∨ cols.chunks = 1) : gemvPadding value a b i = 0 := by
  rw [gemvPadding, hAxes]
  refine Axis.padding_eq_zero fun q hq => ?_
  have hPos := shape_pos_of_lt_chunks hq
  rw [gemvWalk, Axis.extchunkshape, if_neg hPos.ne', Axis.part_eq_min]
  rcases h with hFill | hSingle
  · rw [Axis.blocks_mul_of_dvd hPos hFill]
  · have hCover := cols.shape_le_chunks
    have hFirst : q = 0 := by omega
    rw [hSingle, Nat.one_mul] at hCover
    rw [hFirst]
    omega

end

namespace OptGemvExample

/-- Six items of a row in chunks of three. -/
def shared (blockshape : Nat) : Axis := .ofCuts 6 3 blockshape

/-- A row of ones; the padding holds ones, too. -/
def row (blockshape : Nat) : Container :=
  Reference.plain .double [.ofCuts 1 1 1, shared blockshape] fun _ => .real (.fin 1)

def ones (blockshape : Nat) : Container :=
  Reference.plain .double [shared blockshape] fun _ => .real (.fin 1)

/-- A row of three ones and three zeros. -/
def halfRow : Container :=
  Reference.plain .double [.ofCuts 1 1 1, shared 3] fun x =>
    if x.getD 1 0 < 3 then .real (.fin 1) else .bits 0

/-- A row of two ones, each in a block of its own. -/
def pair : Container :=
  Reference.plain .double [.ofCuts 1 1 1, .ofCuts 2 2 1] fun _ => .real (.fin 1)

def pairOnes : Container := Reference.plain .double [.ofCuts 2 2 1] fun _ => .real (.fin 1)

theorem plain_halfRow : Plain halfRow := Reference.plain_plain _ _ (by decide) (by decide)

theorem plain_ones : Plain (ones 3) := Reference.plain_plain _ _ (by decide) (by decide)

def product (H : Headers) (a b : Container) : Result Container :=
  iarrayOptGemv Reference.backend Reference.blas H a b ⟨[1], [1]⟩

/-- The exact product of a row and a vector. -/
def exact (a b : Container) (k : Nat) : ℚ :=
  ∑ x ∈ range k, Reference.number .double (a.contents.get [0, x]) *
    Reference.number .double (b.contents.get [x])

end OptGemvExample

end IronArray
