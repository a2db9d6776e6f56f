import IronArray.Linalg.Blas
import IronArray.Views.Code

/-!
# The matrix product

`iarray_linalg_matmul` with `gemm_blosc` and `gemv_blosc`. The product of two matrices is written
column of chunks by column of chunks: the panel of `b` for a column is read once and repacked block
by block, the panel of `a` is read for every chunk, and in the end the chunks are put in row-major
order.
-/

namespace IronArray

open Grid

/-! ## Memory -/

/-- `memcpy` of `len` items. -/
def memcpy (dst : Nat → Cell) (dstStart : Nat) (src : Nat → Cell) (srcStart len : Nat) :
    Nat → Cell :=
  fun p => if dstStart ≤ p ∧ p < dstStart + len then src (srcStart + (p - dstStart)) else dst p

/-- What lies from item `start` on in a buffer of items of type `src`, under the type `dst`. -/
def pointerAt (m : Machine) (src dst : Dtype) (buffer : Nat → Cell) (start : Nat) : Nat → Cell :=
  fun p => loadAt m src buffer (start * src.size + p * dst.size) dst

/-- `blosc2_schunk_reorder_offsets`. -/
def CatArray.reorderOffsets (a : CatArray) (order : Nat → Nat) : CatArray :=
  { a with sc := { a.sc with
    chunk := fun n => if n < a.nchunks then a.sc.chunk (order n) else a.sc.chunk n } }

/-! ## Blocks of the result -/

/-- `_gemm_prefilter_block_info` and `_gemv_prefilter_block_info`: the position of the first element
of a block inside its chunk. -/
def prefilterBlockInfo (c : CatArray) (nblock : Nat) : Result (List Nat) := do
  let shape ← shapeOfBlocks c.axes
  let nblocks ← idiv (c.axes.map Axis.extchunkshape).prod c.blockshape.prod
  let strides := computeStrides shape
  let index := List.zipWith (fun prev s => nblock % prev / s) (nblocks :: strides) strides
  pure (List.zipWith (· * ·) index c.blockshape)

/-- `iarray_parallel_matmul_params_t`. -/
structure ParallelMatmulParams where
  a : Container
  b : Container
  c : Container
  cacheA : Nat → Cell
  cacheB : Nat → Cell

section

variable (E : Backend) (B : Blas)

namespace ParallelMatmulParams

variable (params : ParallelMatmulParams)

/-- Everything but doubles is multiplied as floats. -/
def dtype : Dtype := if params.c.dtshape.dtype = .double then .double else .float

def bufferA (start : List Nat) : Nat → Cell :=
  pointerAt E.machine params.a.dtshape.dtype params.dtype params.cacheA
    (start.getD 0 0 * params.a.dtshape.shape.getD 1 0)

def bufferB (start : List Nat) : Nat → Cell :=
  pointerAt E.machine params.b.dtshape.dtype params.dtype params.cacheB
    (start.getD 1 0 * params.b.dtshape.shape.getD 0 0)

/-- The block that MKL has written to `out`. -/
def block (out : Nat → Cell) : List Cell :=
  (List.range params.c.catarr.blockshape.prod).map
    (pointerAt E.machine params.dtype params.c.dtshape.dtype out 0)

end ParallelMatmulParams

/-- `_gemm_prefilter` of `gemm.c`. -/
def gemmBloscPrefilter (params : ParallelMatmulParams) (nblock : Nat) : Result (List Cell) := do
  let start ← prefilterBlockInfo params.c.catarr nblock
  let m := params.c.storage.blockshape.getD 0 0
  let k := params.a.dtshape.shape.getD 1 0
  let n := params.c.storage.blockshape.getD 1 0
  pure (params.block E (B.gemm params.dtype (toInt32 m) (toInt32 n) (toInt32 k)
    (params.bufferA E start)
    (toInt32 k) (params.bufferB E start) (toInt32 n) false E.malloc (toInt32 n)))

/-- `_gemv_prefilter` of `gemv.c`. -/
def gemvBloscPrefilter (params : ParallelMatmulParams) (nblock : Nat) : Result (List Cell) := do
  let start ← prefilterBlockInfo params.c.catarr nblock
  let m := params.c.storage.blockshape.getD 0 0
  let n := params.a.dtshape.shape.getD 1 0
  pure (params.block E (B.gemv params.dtype (toInt32 m) (toInt32 n) (params.bufferA E start)
    (toInt32 n)
    (params.bufferB E start) false E.malloc))

/-! ## Two matrices -/

/-- `_gemm_repart_caches`: the columns of a row-major buffer, `k` at a time. The counter of the rows
is an `int`; when it overflows the copies leave the buffer. -/
def gemmRepartCaches (m n k : Nat) (cacheAux cache : Nat → Cell) : Result (Nat → Cell) := do
  let nblocks ← idiv n k
  if 2 ^ 31 ≤ m then crash .outOfBounds
  else pure ((List.range nblocks).foldl (fun state nblock =>
    (List.range m).foldl (fun (state : Nat × (Nat → Cell)) i =>
      (state.1 + k, memcpy state.2 state.1 cacheAux (i * n + nblock * k) k)) state)
    (0, cache)).2

/-- A buffer after a call whose code nobody looks at. -/
def ignoreCode (buffer : Nat → Cell) (result : Result (Nat → Cell)) : Result (Nat → Cell) :=
  match result with
  | .ok out => .ok out
  | .error (.code _) => .ok buffer
  | .error (.undefined u) => crash u

/-- The variables of the loop of `gemm_blosc`. `cache_aux_b` is `cache_a`. -/
structure GemmState where
  chunkRow : Int
  cacheA : Nat → Cell
  cacheB : Nat → Cell
  chunkOrder : Nat → Nat
  c : CatArray

/-- Read and repack the panel of `b` for a new column of chunks. -/
def cacheColumn (b c : Container) (y : Axis) (elemIndex chunkShape : List Nat)
    (chunkIndex : Nat) (state : GemmState) : Result GemmState :=
  let k := b.dtshape.shape.getD 0 0
  if state.chunkRow = chunkIndex then .ok state
  else do
    let cacheAuxB ← ignoreCode state.cacheA (_iarrayGetSliceBuffer E b
      (ints [0, elemIndex.getD 1 0]) (ints [k, elemIndex.getD 1 0 + chunkShape.getD 1 0])
      (ints [k, y.extchunkshape]) state.cacheA (k * y.extchunkshape * c.catarr.itemsize : Nat))
    let cacheB ← gemmRepartCaches k y.extchunkshape y.blockshape cacheAuxB state.cacheB
    pure { state with chunkRow := chunkIndex, cacheA := cacheAuxB, cacheB := cacheB }

/-- One pass of the loop of `gemm_blosc`. -/
def gemmBloscStep (a b c : Container) (x y : Axis) (mChunks nChunks : Nat) (state : GemmState)
    (nchunk : Nat) : Result GemmState := do
  let chunkIndex := [nchunk % mChunks, nchunk / mChunks]
  let elemIndex := List.zipWith (· * ·) chunkIndex c.catarr.chunkshape
  let chunkShape := chunkShapeAt c.catarr.axes chunkIndex
  let state ← cacheColumn E b c y elemIndex chunkShape (nchunk / mChunks) state
  let k := a.dtshape.shape.getD 1 0
  let cacheA ← _iarrayGetSliceBuffer E a (ints [elemIndex.getD 0 0, 0])
    (ints [elemIndex.getD 0 0 + chunkShape.getD 0 0, k]) (ints [x.extchunkshape, k]) state.cacheA
    (x.extchunkshape * k * c.catarr.itemsize : Nat)
  let chunk ← c.catarr.compress (gemmBloscPrefilter E B ⟨a, b, c, cacheA, state.cacheB⟩)
  let newPosition := nchunk / mChunks + nchunk % mChunks * nChunks
  pure { state with
    cacheA := cacheA
    chunkOrder := Function.update state.chunkOrder newPosition nchunk
    c := state.c.updateChunk nchunk (chunkItems chunk) }

/-- `gemm_blosc`, the new array of `c`. -/
def gemmBlosc (a b c : Container) : Result CatArray :=
  match c.catarr.axes with
  | [x, y] => do
    let mChunks ← idiv x.extshape x.chunkshape
    let nChunks ← idiv y.extshape y.chunkshape
    let nchunks ← idiv (c.catarr.axes.map Axis.extshape).prod c.catarr.chunkshape.prod
    let state ← (List.range nchunks).foldlM (gemmBloscStep E B a b c x y mChunks nChunks)
      ⟨-1, E.malloc, E.malloc, fun _ => 0, c.catarr⟩
    pure (state.c.reorderOffsets state.chunkOrder)
  | _ => crash .outOfBounds

/-! ## A matrix and a vector -/

/-- The variables of the loop of `gemv_blosc`. -/
structure GemvState where
  cacheA : Nat → Cell
  c : CatArray

/-- One pass of the loop of `gemv_blosc`. -/
def gemvBloscStep (a b c : Container) (x : Axis) (cacheB : Nat → Cell) (state : GemvState)
    (nchunk : Nat) : Result GemvState := do
  let elemIndex := nchunk * x.chunkshape
  let chunkShape := (chunkShapeAt c.catarr.axes [nchunk]).getD 0 0
  let k := a.dtshape.shape.getD 1 0
  let cacheA ← _iarrayGetSliceBuffer E a (ints [elemIndex, 0]) (ints [elemIndex + chunkShape, k])
    (ints [x.extchunkshape, k]) state.cacheA (x.extchunkshape * k * c.catarr.itemsize : Nat)
  let chunk ← c.catarr.compress (gemvBloscPrefilter E B ⟨a, b, c, cacheA, cacheB⟩)
  pure ⟨cacheA, state.c.updateChunk nchunk (chunkItems chunk)⟩

/-- `gemv_blosc`, the new array of `c`. -/
def gemvBlosc (a b c : Container) : Result CatArray :=
  match c.catarr.axes, b.catarr.axes with
  | [x], inner :: _ => do
    let cacheB ← _iarrayGetSliceBuffer E b (ints [0]) (ints [b.dtshape.shape.getD 0 0])
      (ints [inner.extshape]) E.malloc (inner.extshape * b.catarr.itemsize : Nat)
    let nchunks ← idiv (c.catarr.axes.map Axis.extshape).prod c.catarr.chunkshape.prod
    let state ← (List.range nchunks).foldlM (gemvBloscStep E B a b c x cacheB)
      ⟨E.malloc, c.catarr⟩
    pure state.c
  | _, _ => crash .outOfBounds

/-! ## The product -/

/-- The type and shape of the product. -/
def matmulDtshape (a b : Container) : Dtshape where
  dtype := a.dtshape.dtype
  shape :=
    if 1 < b.dtshape.ndim then [a.dtshape.shape.getD 0 0, b.dtshape.shape.getD 1 0]
    else [a.dtshape.shape.getD 0 0]

/-- `iarray_gemm` or `iarray_gemv`. -/
def matmulArray (a b c : Container) : Result CatArray :=
  if b.dtshape.ndim = 2 then gemmBlosc E B a b c else gemvBlosc E B a b c

/-- `iarray_linalg_matmul`. -/
def iarrayLinalgMatmul (a b : Container) (storage : Storage) : Result Container :=
  if a.dtshape.ndim ≠ 2 ∨ (b.dtshape.ndim ≠ 1 ∧ b.dtshape.ndim ≠ 2) then inaError .invalidNdim
  else if a.dtshape.shape.getD 1 0 ≠ b.dtshape.shape.getD 0 0 then inaError .invalidShape
  else if a.dtshape.dtype ≠ b.dtshape.dtype then inaError .invalidDtype
  else if (List.range (matmulDtshape a b).ndim).any fun i =>
      (matmulDtshape a b).shape.getD i 0 < storage.chunkshape.getD i 0 then
    inaError .invalidChunkshape
  else do
    let c ← iarrayEmpty E (matmulDtshape a b) storage
    let catarr ← matmulArray E B a b c
    pure { c with catarr := catarr }

end

end IronArray
