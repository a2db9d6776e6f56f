import IronArray.Core.Container

/-!
# Views

The functions of `iarray_views.c`, `iarray_constructor.h`, `iarray_container.c` and
`transpose.c` that make views and read from them. A view owns an array that stores nothing;
its postfilter fetches each block from the predecessor and casts it when the types differ.
-/

namespace IronArray

open Grid

/-! ## Postfilters -/

/-- The target types of the casts that `iarray_add_view_postfilter` installs. -/
def viewCasts : Dtype → List Dtype
  | .double => [.int64, .uint64]
  | .float => [.double, .int64, .int32, .uint64, .uint32]
  | .int64 => [.double, .uint64]
  | .int32 => [.double, .float, .int64, .uint64, .uint32]
  | .int16 => [.double, .float, .int64, .int32, .uint64, .uint32, .uint16]
  | .int8 => [.double, .float, .int64, .int32, .int16, .uint64, .uint32, .uint16, .uint8, .bool]
  | .uint64 => [.double, .int64]
  | .uint32 => [.double, .float, .int64, .int32, .uint64]
  | .uint16 => [.double, .float, .int64, .int32, .int16, .uint64, .uint32]
  | .uint8 => [.double, .float, .int64, .int32, .int16, .int8, .uint64, .uint32, .uint16, .bool]
  | .bool => [.double, .float, .int64, .int32, .int16, .int8, .uint64, .uint32, .uint16, .uint8]

/-- `slice_view_postfilter`. -/
def sliceViewPostfilter (viewed : SChunk) (params : PostfilterParams) : Result (List Cell) :=
  let blockNitems := viewed.blocksize / params.typesize
  viewed.getitem params.nchunk (params.nblock * blockNitems) blockNitems params.size

/-- One step of the cast loop: read element `j` of `aux`, whose items lie there under the
type `pred`, as an element of type `src`. -/
def castItem (m : Machine) (pred src dst : Dtype) (aux : List Cell) (j : Nat) : Result Cell :=
  if aux.length * pred.size < (j + 1) * src.size then crash .outOfBounds
  else .ok ((loadAt m pred (fun k => aux.getD k (.bits 0)) (j * src.size) src).convert m src dst)

/-- `type_view_postfilter`. The type of the predecessor does not occur in the source: it is
only needed to lay out its items in memory. -/
def typeViewPostfilter (m : Machine) (viewed : SChunk) (pred src dst : Dtype)
    (params : PostfilterParams) : Result (List Cell) :=
  let blockNitems := params.size / params.typesize
  let prop := params.typesize / viewed.typesize
  if prop = 0 then crash .divisionByZero
  else do
    let aux ← viewed.getitem params.nchunk (params.nblock * blockNitems) blockNitems
      (params.size / prop)
    (List.range blockNitems).mapM (castItem m pred src dst aux)

/-- `iarray_add_view_postfilter`: the postfilter it installs, if any. -/
def iarrayAddViewPostfilter (m : Machine) (view pred : Dtshape) (root : Dtype) (viewed : SChunk) :
    Option (PostfilterParams → Result (List Cell)) :=
  if view.dtype = pred.dtype then some (sliceViewPostfilter viewed)
  else if view.dtype ∈ viewCasts root then
    some (typeViewPostfilter m viewed pred.dtype root view.dtype)
  else none

/-! ## Making views -/

/-- The container a view of `c` refers to. -/
def Container.root (c : Container) : Container := c.containerViewed.getD c

/-- The storage of a view: the first `ndim` lengths of the storage of the viewed container. -/
def viewStorage (src : Container) (ndim : Nat) : Storage :=
  ⟨src.storage.chunkshape.take ndim, src.storage.blockshape.take ndim⟩

/-- The array of a view keeps the shape of the viewed array, not the shape of the view. -/
def viewArray (E : Backend) (src : Container) (dtshape : Dtshape) : Result CatArray :=
  E.empty dtshape.dtypeSize (src.catarr.shape.take dtshape.ndim)
    (iarrayCreateCatervaStorage (viewStorage src dtshape.ndim))

/-- The container that `_iarray_view_new` fills in around its array. The code that
`iarray_add_view_postfilter` returns is ignored. -/
def viewOf (m : Machine) (src : Container) (dtshape : Dtshape) (offset : List Int)
    (catarr : CatArray) : Container :=
  let postfilter :=
    iarrayAddViewPostfilter m dtshape src.dtshape src.root.dtshape.dtype src.catarr.sc
  { dtshape := dtshape
    offset := offset.take dtshape.ndim
    index := List.range dtshape.ndim
    catarr := ⟨catarr.axes,
      { catarr.sc with postfilter := postfilter.or catarr.sc.postfilter }⟩
    storage := viewStorage src dtshape.ndim
    containerViewed := some src.root
    transposed := false }

/-- `_iarray_view_new`. -/
def _iarrayViewNew (E : Backend) (src : Container) (dtshape : Dtshape) (offset : List Int) :
    Result Container :=
  if dimensionMax < dtshape.ndim then inaError .invalidNdim
  else do
    let catarr ← viewArray E src dtshape
    pure (viewOf E.machine src dtshape offset catarr)

/-- A start or stop counted from the end when negative. -/
def normIdx (i : Int) (n : Nat) : Int := if i < 0 then i + n else i

/-- Reverse the first `n` entries. -/
def reversePrefix (n : Nat) (l : List Int) : List Int := (l.take n).reverse ++ l.drop n

/-- `start_`: the start of a region in the coordinates of the array. -/
def Container.storeStart (c : Container) (start : List Int) : List Int :=
  let start_ := scatterAdd c.offset c.index (List.zipWith normIdx start c.dtshape.shape)
  if c.transposed then reversePrefix c.dtshape.ndim start_ else start_

/-- `stop_`: the stop of a region in the coordinates of the array. -/
def Container.storeStop (c : Container) (stop : List Int) : List Int :=
  let stop_ := scatterAdd (c.offset.map (1 + ·)) c.index
    (List.zipWith (fun i n => normIdx i n - 1) stop c.dtshape.shape)
  if c.transposed then reversePrefix c.dtshape.ndim stop_ else stop_

/-- The loop that rejects reversed regions and, for copies, chunks larger than the slice. -/
def checkSlice (view : Bool) (start_ stop_ : List Int) (storage : Storage) (ndim : Nat) :
    Result Unit :=
  forM (List.range ndim) fun i =>
    if stop_.getD i 0 < start_.getD i 0 then inaError .invalidArgument
    else if !view ∧ stop_.getD i 0 - start_.getD i 0 < storage.chunkshape.getD i 0 then
      inaError .invalidChunkshape
    else pure ()

/-- The type and shape of a slice: `stop_ - start_` over the first `ndim` axes. -/
def Container.sliceDtshape (src : Container) (start stop : List Int) : Dtshape where
  dtype := src.dtshape.dtype
  shape := (List.range src.dtshape.ndim).map fun i =>
    ((src.storeStop stop).getD i 0 - (src.storeStart start).getD i 0).toNat

/-- `iarray_get_slice`. -/
def iarrayGetSlice (E : Backend) (src : Container) (start stop : List Int) (view : Bool)
    (storage : Storage) : Result Container := do
  checkSlice view (src.storeStart start) (src.storeStop stop) storage src.dtshape.ndim
  if view then _iarrayViewNew E src (src.sliceDtshape start stop) (src.storeStart start)
  else do
    let container ← iarrayContainerNew (src.sliceDtshape start stop) storage
    let catarr ← E.getSlice src.catarr (src.storeStart start) (src.storeStop stop)
      (iarrayCreateCatervaStorage storage)
    pure (container catarr)

/-- `iarray_get_type_view`. -/
def iarrayGetTypeView (E : Backend) (src : Container) (viewDtype : Dtype) : Result Container :=
  _iarrayViewNew E src ⟨viewDtype, src.dtshape.shape⟩ src.offset

/-- `iarray_linalg_transpose`. The source drops the code that `_iarray_view_new` returns; a
view that could not be made is an error here. -/
def iarrayLinalgTranspose (E : Backend) (a : Container) : Result Container :=
  if a.containerViewed.isSome then inaError .notSupported
  else if a.dtshape.ndim ≠ 2 then inaError .invalidNdim
  else do
    let b ← _iarrayViewNew E a ⟨a.dtshape.dtype, a.dtshape.shape.reverse⟩
      (List.replicate a.dtshape.ndim 0)
    pure { b with transposed := true }

/-- One pass of the loop of `iarray_squeeze_index` over the offsets of a plain container. -/
def squeezeOffsetStep (mask : List Bool) (state : Nat × List Int) (i : Nat) : Nat × List Int :=
  let inc := if mask.getD i false then state.1 + 1 else state.1
  (inc, state.2.set i (state.2.getD (i + inc) 0))

/-- One pass of the loop of `iarray_squeeze_index` over a view. -/
def squeezeStep (mask : List Bool) (state : Nat × List Nat × List Nat) (i : Nat) :
    Nat × List Nat × List Nat :=
  let (inc, shape, index) := state
  if mask.getD i false then (inc + 1, shape, index)
  else (inc, shape.set (i - inc) (shape.getD i 0), index.set (i - inc) i)

/-- `iarray_squeeze_index`, the new state of the container. -/
def iarraySqueezeIndex (E : Backend) (c : Container) (mask : List Bool) : Result Container :=
  if c.containerViewed.isNone then do
    let catarr ← E.squeezeIndex c.catarr mask
    if c.dtshape.ndim ≠ catarr.ndim then
      pure { c with
        dtshape := { c.dtshape with shape := catarr.shape }
        offset := ((List.range catarr.ndim).foldl (squeezeOffsetStep mask) (0, c.offset)).2.take
          catarr.ndim
        index := c.index.take catarr.ndim
        catarr := catarr
        storage := ⟨catarr.chunkshape, catarr.blockshape⟩ }
    else pure { c with catarr := catarr }
  else
    let (inc, shape, index) := (List.range c.dtshape.ndim).foldl (squeezeStep mask)
      (0, c.dtshape.shape, c.index)
    let ndim := c.dtshape.ndim - inc
    .ok { c with dtshape := { c.dtshape with shape := shape.take ndim }, index := index.take ndim }

/-! ## Reading -/

/-- `_iarray_get_slice_buffer`. The dimensions `mkl_?omatcopy` receives are `int`s. -/
def _iarrayGetSliceBuffer (E : Backend) (c : Container) (start stop chunkshape : List Int)
    (buffer : Nat → Cell) (buflen : Int) : Result (Nat → Cell) :=
  let start_ := c.storeStart start
  let stop_ := c.storeStop stop
  let chunkshape_ :=
    let scattered := scatterAdd (List.replicate c.catarr.ndim 1) c.index
      (chunkshape.map (· - 1))
    if c.transposed then reversePrefix c.dtshape.ndim scattered else scattered
  if (List.range c.dtshape.ndim).any fun i => stop_.getD i 0 < start_.getD i 0 then
    inaError .invalidArgument
  else if buflen < chunkshape_.prod * c.dtshape.dtypeSize then inaError .tooSmallBuffer
  else if c.transposed then do
    let aux ← E.getSliceBuffer c.catarr start_ stop_ E.malloc chunkshape_
      (chunkshape_.prod * c.catarr.itemsize)
    if c.dtshape.dtype.isFloating then
      pure (E.omatcopy (toInt32 (chunkshape_.getD 0 0)) (toInt32 (chunkshape_.getD 1 0)) aux buffer)
    else inaError .invalidDtype
  else E.getSliceBuffer c.catarr start_ stop_ buffer chunkshape_ buflen

/-- `iarray_get_slice_buffer`. -/
def iarrayGetSliceBuffer (E : Backend) (c : Container) (start stop : List Int)
    (buffer : Nat → Cell) (buflen : Int) : Result (Nat → Cell) :=
  if c.dtshape.shape.prod = 0 then .ok buffer
  else
    let shape_ := List.zipWith (· - ·) (List.zipWith normIdx stop c.dtshape.shape)
      (List.zipWith normIdx start c.dtshape.shape)
    _iarrayGetSliceBuffer E c start stop shape_ buffer buflen

/-- `iarray_to_buffer`. -/
def iarrayToBuffer (E : Backend) (c : Container) (buffer : Nat → Cell) (buflen : Int) :
    Result (Nat → Cell) :=
  if c.dtshape.shape.prod = 0 then .ok buffer
  else if buflen < (c.dtshape.shape.prod * c.dtshape.dtypeSize : Nat) then
    inaError .tooSmallBuffer
  else if c.containerViewed.isSome then
    iarrayGetSliceBuffer E c (List.replicate c.dtshape.ndim 0) (ints c.dtshape.shape) buffer buflen
  else E.toBuffer c.catarr buffer buflen

end IronArray
