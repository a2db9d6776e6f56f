import IronArray.Core.Chunks
import IronArray.Grid.Blocks

/-!
# Constructors that fill an array

`iarray_constructor_block.c` and `iarray_constructor_element.c`: a prefilter fills the blocks
of a new array and the element constructor fills a block item by item. The callbacks that set
up and tear down an array, a chunk or a block only hand opaque pointers on and are left out.
-/

namespace IronArray

open Grid

/-! ## Positions -/

/-- `iarray_index_unidim_to_multidim`. -/
def indexUnidimToMultidim (strides : List Nat) (i : Nat) : List Nat :=
  match strides with
  | [] => []
  | s :: strides => i / s :: List.zipWith (fun prev s => i % prev / s) (s :: strides) strides

/-- `iarray_index_multidim_to_unidim`. -/
def indexMultidimToUnidim (strides index : List Nat) : Nat :=
  (List.zipWith (· * ·) index strides).sum

/-- `iarray_constructor_array_info_t`. -/
structure ConstructorArrayInfo where
  a : Container
  strides : List Nat
  blockStrides : List Nat

/-- `iarray_constructor_chunk_info_t`. -/
structure ConstructorChunkInfo where
  index : List Nat
  indexFlat : Nat
  start : List Nat
  stop : List Nat
  chunkStridesBlock : List Nat

/-- `iarray_constructor_block_info_t`. -/
structure ConstructorBlockInfo where
  indexInChunk : List Nat
  indexInChunkFlat : Nat
  start : List Nat
  stop : List Nat
  shape : List Nat
  size : Nat
  blockStrides : List Nat

/-- `iarray_constructor_item_info_t`. -/
structure ConstructorItemInfo where
  index : List Nat
  indexFlat : Nat
  indexInBlock : List Nat
  indexInBlockFlat : Nat
  indexInBlock2Flat : Nat

/-- `iarray_constructor_item_fn`: the item, or the code of a failure. -/
abbrev ConstructorItemFn := ConstructorItemInfo → Except ErrorCode Cell

/-- `iarray_constructor_generator_fn`: what it leaves in the block and the code it returns. -/
abbrev ConstructorGeneratorFn := List Cell → ConstructorArrayInfo → ConstructorBlockInfo →
  Result (List Cell × Option ErrorCode)

/-! ## The element constructor -/

namespace ConstructorArrayInfo

/-- The location of item `nitem` of a block. -/
def itemInfo (array : ConstructorArrayInfo) (block : ConstructorBlockInfo) (nitem : Nat) :
    ConstructorItemInfo :=
  let indexInBlock := indexUnidimToMultidim block.blockStrides nitem
  let index := List.zipWith (· + ·) indexInBlock block.start
  { index := index
    indexFlat := indexMultidimToUnidim array.strides index
    indexInBlock := indexInBlock
    indexInBlockFlat := nitem
    indexInBlock2Flat := indexMultidimToUnidim array.blockStrides indexInBlock }

/-- The items of a block, in the order of the loop. -/
def items (array : ConstructorArrayInfo) (block : ConstructorBlockInfo) :
    List ConstructorItemInfo :=
  (List.range block.size).map (array.itemInfo block)

end ConstructorArrayInfo

/-- The loop over the items: it ends at the first item that cannot be made. -/
def writeItems (itemFn : ConstructorItemFn) :
    List ConstructorItemInfo → List Cell → Result (List Cell × Option ErrorCode)
  | [], dest => .ok (dest, none)
  | item :: items, dest =>
    match itemFn item with
    | .error e => .ok (dest, some e)
    | .ok c =>
      if item.indexInBlock2Flat < dest.length then
        writeItems itemFn items (dest.set item.indexInBlock2Flat c)
      else crash .outOfBounds

/-- `iarray_constructor_element_fn`. -/
def iarrayConstructorElementFn (itemFn : ConstructorItemFn) : ConstructorGeneratorFn :=
  fun dest array block => writeItems itemFn (array.items block) dest

/-! ## The block constructor -/

/-- What the block constructor knows of its array. -/
def constructorArrayInfo (c : Container) : ConstructorArrayInfo where
  a := c
  strides := computeStrides c.dtshape.shape
  blockStrides := computeStrides c.storage.blockshape

/-- What it knows of chunk `nchunk`, from the numbers of chunks and of blocks of a chunk. -/
def constructorChunkInfo (axes : List Axis) (chunkInShape blockInChunk : List Nat)
    (nchunk : Nat) : ConstructorChunkInfo :=
  let index := indexUnidimToMultidim (computeStrides chunkInShape) nchunk
  { index := index
    indexFlat := nchunk
    start := List.zipWith (fun (a : Axis) i => i * a.chunkshape) axes index
    stop := List.zipWith (fun (a : Axis) i =>
      if a.shape < i * a.chunkshape + a.chunkshape then a.shape
      else i * a.chunkshape + a.chunkshape) axes index
    chunkStridesBlock := computeStrides blockInChunk }

/-- What the prefilter knows of block `nblock`. A block that starts behind its chunk is left
alone. -/
def constructorBlockInfo (axes : List Axis) (chunk : ConstructorChunkInfo) (nblock : Nat) :
    Option ConstructorBlockInfo :=
  let index := indexUnidimToMultidim chunk.chunkStridesBlock nblock
  let start := List.zipWith (· + ·) chunk.start
    (List.zipWith (fun (a : Axis) i => i * a.blockshape) axes index)
  let stop := List.zipWith (fun (a : Axis) (p : Nat × Nat) =>
    if p.2 < p.1 + a.blockshape then p.2 else p.1 + a.blockshape) axes (List.zip start chunk.stop)
  let shape := List.zipWith (· - ·) stop start
  if (List.zip start chunk.stop).any fun p => p.2 < p.1 then none
  else some
    { indexInChunk := index
      indexInChunkFlat := nblock
      start := start
      stop := stop
      shape := shape
      size := shape.prod
      blockStrides := computeStrides shape }

/-- `iarray_constructor_prefilter`. The code that the generator returns is dropped. -/
def iarrayConstructorPrefilter (E : Backend) (generatorFn : ConstructorGeneratorFn)
    (array : ConstructorArrayInfo) (chunk : ConstructorChunkInfo) (nblock : Nat) :
    Result (List Cell) := do
  let out := (List.range array.a.catarr.blockshape.prod).map E.malloc
  match constructorBlockInfo array.a.catarr.axes chunk nblock with
  | none => pure out
  | some block =>
    let (out, _) ← generatorFn out array block
    pure out

/-- `iarray_constructor_block`. -/
def iarrayConstructorBlock (E : Backend) (dtshape : Dtshape)
    (generatorFn : ConstructorGeneratorFn) (storage : Storage) : Result Container := do
  let c ← iarrayEmpty E dtshape storage
  let blockInChunk ← shapeOfBlocks c.catarr.axes
  let chunkInShape ← shapeOfChunks c.catarr.axes
  let catarr ← (List.range c.catarr.nchunks).foldlM (fun a nchunk => do
    let chunk ← c.catarr.compress (iarrayConstructorPrefilter E generatorFn
      (constructorArrayInfo c) (constructorChunkInfo c.catarr.axes chunkInShape blockInChunk nchunk))
    pure (a.updateChunk nchunk (chunkItems chunk))) c.catarr
  pure { c with catarr := catarr }

/-- `iarray_constructor_element`. -/
def iarrayConstructorElement (E : Backend) (dtshape : Dtshape) (itemFn : ConstructorItemFn)
    (storage : Storage) : Result Container :=
  iarrayConstructorBlock E dtshape (iarrayConstructorElementFn itemFn) storage

end IronArray
