import IronArray.Iterators.Block
import IronArray.Constructors.Code

/-!
# Making and changing containers

The constructors of `iarray_constructor.c`, the frames of `iarray_container.c` and the calls that
change a container in place. `Makers` and `Mutators` are the Caterva and Blosc calls below them.
-/

namespace IronArray

open Grid

/-! ## Libraries -/

structure Makers where
  /-- `caterva_zeros`: item size, shape and storage. -/
  zeros : Nat → List Nat → CatervaStorage → Result CatArray
  /-- `caterva_full`. -/
  full : Nat → List Nat → CatervaStorage → Cell → Result CatArray
  /-- `caterva_from_buffer`: buffer, its length, item size, shape and storage. -/
  fromBuffer : (Nat → Cell) → Int → Nat → List Nat → CatervaStorage → Result CatArray
  /-- `caterva_open`. -/
  openFile : String → Result CatArray
  /-- `caterva_from_cframe`: frame, its length and whether to copy it. -/
  fromCframe : (Nat → Nat) → Int → Bool → Result CatArray
  /-- The data type in the metalayer `iarray`. -/
  metaDtype : CatArray → Result Dtype

structure Mutators where
  /-- `caterva_resize`: new shape and, when given, where the array grows or shrinks. -/
  resize : CatArray → List Int → Option (List Int) → Result CatArray
  /-- `caterva_insert`: buffer, its size, axis and start. -/
  insert : CatArray → (Nat → Cell) → Int → Int → Int → Result CatArray
  /-- `caterva_append`: buffer, its size and axis. -/
  append : CatArray → (Nat → Cell) → Int → Int → Result CatArray
  /-- `caterva_delete`: axis, start and length. -/
  delete : CatArray → Int → Int → Int → Result CatArray

/-! ## Constructors -/

/-- What the constructors share: a container around the array that Caterva makes for it. -/
def newAround (dtshape : Dtshape) (storage : Storage)
    (make : Nat → List Nat → CatervaStorage → Result CatArray) : Result Container := do
  let container ← iarrayContainerNew dtshape storage
  let catarr ← make dtshape.dtypeSize dtshape.shape (iarrayCreateCatervaStorage storage)
  pure (container catarr)

/-- `iarray_zeros`. -/
def iarrayZeros (K : Makers) (dtshape : Dtshape) (storage : Storage) : Result Container :=
  newAround dtshape storage K.zeros

/-- `iarray_fill`. -/
def iarrayFill (K : Makers) (dtshape : Dtshape) (value : Cell) (storage : Storage) :
    Result Container :=
  newAround dtshape storage fun itemsize shape st => K.full itemsize shape st value

/-- `iarray_ones`: the value is converted to the type of the array. -/
def iarrayOnes (m : Machine) (K : Makers) (dtshape : Dtshape) (storage : Storage) :
    Result Container :=
  iarrayFill K dtshape (Cell.convert m .int32 dtshape.dtype (.bits 1)) storage

/-- `iarray_from_buffer`. -/
def iarrayFromBuffer (K : Makers) (dtshape : Dtshape) (buffer : Nat → Cell) (buflen : Int)
    (storage : Storage) : Result Container :=
  newAround dtshape storage fun itemsize shape st =>
    if buflen < (shape.prod * itemsize : Nat) then inaError .tooSmallBuffer
    else K.fromBuffer buffer buflen itemsize shape st

/-- The container that `_iarray_container_load` and `iarray_from_cframe` fill in around an array. -/
def containerAround (dtype : Dtype) (catarr : CatArray) : Container :=
  newContainer ⟨dtype, catarr.shape⟩ ⟨catarr.chunkshape, catarr.blockshape⟩ catarr

/-- A contiguous array is copied into memory. -/
def loadedArray (E : Backend) (catarrAux : CatArray) (contiguous : Bool) : Result CatArray :=
  if contiguous then E.copy catarrAux catarrAux.storage
  else .ok catarrAux

/-- `_iarray_container_load`. -/
def _iarrayContainerLoad (E : Backend) (K : Makers) (urlpath : String) (contiguous : Bool) :
    Result Container := do
  let catarrAux ← K.openFile urlpath
  let catarr ← loadedArray E catarrAux contiguous
  let dtype ← K.metaDtype catarr
  pure (containerAround dtype catarr)

/-- `iarray_container_load`. -/
def iarrayContainerLoad (E : Backend) (K : Makers) (urlpath : String) : Result Container :=
  _iarrayContainerLoad E K urlpath true

/-- `iarray_container_open`. -/
def iarrayContainerOpen (E : Backend) (K : Makers) (urlpath : String) : Result Container :=
  _iarrayContainerLoad E K urlpath false

/-- `iarray_from_cframe`. -/
def iarrayFromCframe (K : Makers) (frame : Nat → Nat) (frameLen : Int) (copy : Bool) :
    Result Container := do
  let catarr ← K.fromCframe frame frameLen copy
  let dtype ← K.metaDtype catarr
  pure (containerAround dtype catarr)

/-! ## Writing regions -/

/-- `start_` of `iarray_set_slice_buffer`. -/
def Container.setStart (c : Container) (start : List Int) : List Int :=
  scatterAdd c.offset c.index (List.zipWith normIdx start c.dtshape.shape)

/-- `stop_` of `iarray_set_slice_buffer`. -/
def Container.setStop (c : Container) (stop : List Int) : List Int :=
  scatterAdd (c.offset.map (1 + ·)) c.index
    (List.zipWith (fun i n => normIdx i n - 1) stop c.dtshape.shape)

/-- The loop that rejects regions outside the array. -/
def checkRegion (shape : List Nat) (start_ stop_ : List Int) : Result Unit :=
  forM (List.range shape.length) fun i =>
    if start_.getD i 0 < 0 then inaError .invalidArgument
    else if stop_.getD i 0 < start_.getD i 0 then inaError .invalidArgument
    else if (shape.getD i 0 : Int) < stop_.getD i 0 then inaError .invalidArgument
    else pure ()

/-- `iarray_set_slice_buffer`, the new state of the container. -/
def iarraySetSliceBuffer (E : Backend) (c : Container) (start stop : List Int)
    (buffer : Nat → Cell) (buflen : Int) : Result Container :=
  if c.containerViewed.isSome then inaError .invalidStorage
  else do
    checkRegion c.catarr.shape (c.setStart start) (c.setStop stop)
    let shape_ := List.zipWith (fun a b => (b - a).toNat) (c.setStart start) (c.setStop stop)
    if buflen < (shape_.prod * c.dtshape.dtypeSize : Nat) then inaError .tooSmallBuffer
    else do
      let catarr ← E.setSliceBuffer c.catarr buffer shape_ buflen.toNat
        ((c.setStart start).map Int.toNat) ((c.setStop stop).map Int.toNat)
      pure { c with catarr := catarr }

/-- `iarray_set_slice`. -/
def iarraySetSlice (E : Backend) (c : Container) (start stop : List Int) (slice : Container) :
    Result Container :=
  if c.dtshape.dtype ≠ slice.dtshape.dtype then inaError .invalidDtype
  else if c.dtshape.ndim ≠ slice.dtshape.ndim then inaError .invalidNdim
  else do
    let buflen : Int := (slice.catarr.shape.prod * slice.catarr.itemsize : Nat)
    let buffer ← iarrayToBuffer E slice E.malloc buflen
    iarraySetSliceBuffer E c start stop buffer buflen

/-! ## Changing the shape -/

/-- What `iarray_container_insert`, `append` and `delete` share: the call of Caterva and then the
new shape, read off the array. -/
def changeAxis (c : Container) (call : CatArray → Result CatArray) : Result Container :=
  if c.containerViewed.isSome then inaError .invalidStorage
  else do
    let catarr ← call c.catarr
    pure { c with
      dtshape := { c.dtshape with shape := catarr.shape.take c.dtshape.ndim }, catarr := catarr }

/-- `iarray_container_insert`. -/
def iarrayContainerInsert (M : Mutators) (c : Container) (buffer : Nat → Cell)
    (buffersize axis insertStart : Int) : Result Container :=
  changeAxis c fun a => M.insert a buffer buffersize axis insertStart

/-- `iarray_container_append`. -/
def iarrayContainerAppend (M : Mutators) (c : Container) (buffer : Nat → Cell)
    (buffersize axis : Int) : Result Container :=
  changeAxis c fun a => M.append a buffer buffersize axis

/-- `iarray_container_delete`. -/
def iarrayContainerDelete (M : Mutators) (c : Container) (axis deleteStart deleteLen : Int) :
    Result Container :=
  changeAxis c fun a => M.delete a axis deleteStart deleteLen

/-- `iarray_container_resize`. The new shape is taken from the argument, not from the array. -/
def iarrayContainerResize (M : Mutators) (c : Container) (newShape : List Int)
    (start : Option (List Int)) : Result Container :=
  if c.containerViewed.isSome then inaError .invalidStorage
  else do
    let catarr ← M.resize c.catarr newShape start
    pure { c with
      dtshape := { c.dtshape with shape := (newShape.map Int.toNat).take c.dtshape.ndim }
      catarr := catarr }

/-! ## Sequences of changes -/

/-- A call that changes a container. The mask of a squeeze is read once for every axis. -/
inductive Change
  | resize (newShape : List Int) (start : Option (List Int))
  | insert (buffer : Nat → Cell) (buffersize axis insertStart : Int)
  | append (buffer : Nat → Cell) (buffersize axis : Int)
  | delete (axis deleteStart deleteLen : Int)
  | squeezeIndex (mask : Nat → Bool)
  | setSlice (start stop : List Int) (slice : Container)
  | setSliceBuffer (start stop : List Int) (buffer : Nat → Cell) (buflen : Int)

/-- The call itself. -/
def Change.call (E : Backend) (M : Mutators) (c : Container) : Change → Result Container
  | resize newShape start => iarrayContainerResize M c newShape start
  | insert buffer buffersize axis start => iarrayContainerInsert M c buffer buffersize axis start
  | append buffer buffersize axis => iarrayContainerAppend M c buffer buffersize axis
  | delete axis start len => iarrayContainerDelete M c axis start len
  | squeezeIndex mask => iarraySqueezeIndex E c ((List.range c.dtshape.ndim).map mask)
  | setSlice start stop slice => iarraySetSlice E c start stop slice
  | setSliceBuffer start stop buffer buflen => iarraySetSliceBuffer E c start stop buffer buflen

/-- The container after a call. A call that fails leaves it as it was. -/
def Container.after (E : Backend) (M : Mutators) (c : Container) (change : Change) : Container :=
  match change.call E M c with
  | .ok c' => c'
  | .error _ => c

end IronArray
