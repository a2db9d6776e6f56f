import IronArray.Iterators.Block
import IronArray.Grid.Slab
import IronArray.Reduce.Functions

/-!
# Reductions

The functions of `iarray_reduce.c` and `iarray_reduce_oneshot.c`. The first removes one axis
after the other, each time writing an intermediate array through `_reduce_prefilter`; the
second removes all axes at once through `_reduce_general_prefilter`.
-/

namespace IronArray

open Grid

/-! ## Tables

The tables of shapes have eight entries. Caterva fills its own behind the rank with ones; those
of the other structures keep what was there. -/

/-- The entry of the shape of a container at a position of the table. -/
def Container.tableLength (E : Backend) (c : Container) (axis : Nat) : Nat :=
  c.dtshape.shape.getD axis E.spareLength

theorem tableLength_of_lt {E : Backend} {c : Container} {axis : Nat} (h : axis < c.dtshape.ndim) :
    c.tableLength E axis = c.dtshape.shape.getD axis 0 := by
  have hLen : axis < c.dtshape.shape.length := h
  rw [Container.tableLength, List.getD_eq_getElem _ _ hLen, List.getD_eq_getElem _ _ hLen]

/-- What an array with fewer axes takes of a storage. -/
def Storage.take (st : Storage) (ndim : Nat) : Storage :=
  ⟨st.chunkshape.take ndim, st.blockshape.take ndim⟩

/-! ## Removing one axis -/

/-- The type through which a block of the input is addressed: for most results the type of the
result. The function itself always reads elements of the type of the input. -/
def blockPointer (otype itype : Dtype) : Dtype :=
  match otype with
  | .double | .int64 | .uint64 => itype
  | d => d

/-- Element `k` of the vector that starts at item `elemIndex` of a block. -/
def vectorElem (m : Machine) (otype itype : Dtype) (block : List Cell)
    (elemIndex stride k : Nat) : Num :=
  (loadAt m itype (chunkItems block)
    (elemIndex * (blockPointer otype itype).size + k * stride * itype.size) itype).num itype

/-- What the result of an item holds before the first assignment to it. -/
def uninit (E : Backend) (otype : Dtype) (ind : Nat) : Acc := .start ((E.malloc ind).num otype)

/-- `nchunk` and `nblock`: position `i` along the axis, the offsets along the others. -/
def numberAt (strides : List Nat) (axis i : Nat) (offset : List Nat) : Nat :=
  i * strides.getD axis 0 + dot offset (strides.eraseIdx axis)

/-- `_reduce_prefilter` for chunk `nchunk`, of which `outChunkshape` lies inside the result. -/
def reducePrefilter (E : Backend) (ufunc : ReduceFunction) (input result : Container)
    (axis nchunk : Nat) (outChunkshape : List Nat) (nblock : Nat) : Result (List Cell) := do
  let userData : UserData := ⟨invNelem (input.tableLength E axis), .fin 0, .int 0⟩
  let resultChunks ← shapeOfChunks result.catarr.axes
  let chunkOffset := indexUnidimToMultidimShape resultChunks nchunk
  let resultBlocks ← shapeOfBlocks result.catarr.axes
  let blockOffset := indexUnidimToMultidimShape resultBlocks nblock
  let strides := computeStrides input.storage.blockshape
  let inputBlocks ← shapeOfBlocks input.catarr.axes
  let blockStrides := computeStrides inputBlocks
  let inputChunks ← shapeOfChunks input.catarr.axes
  let chunkStrides := computeStrides inputChunks
  let items := List.range result.catarr.blockshape.prod
  let elemIndex := indexUnidimToMultidimShape result.storage.blockshape
  let padding := fun ind =>
    checkPadding result.catarr.axes outChunkshape blockOffset (elemIndex ind)
  let out := items.map fun ind =>
    if padding ind then uninit E ufunc.otype ind else ufunc.init
  let out := (List.range (inputChunks.getD axis 1)).foldl (fun out chunkInd =>
    let nchunk := numberAt chunkStrides axis chunkInd chunkOffset
    (List.range (inputBlocks.getD axis 1)).foldl (fun out blockInd =>
      let nblock := numberAt blockStrides axis blockInd
        (List.zipWith (· % ·) blockOffset resultBlocks)
      -- the block is decompressed without the postfilter
      let block := input.catarr.sc.rawBlock nchunk nblock
      let nelems := (input.catarr.axes[axis]?.map fun a => a.nitems chunkInd blockInd).getD 1
      out.mapIdx fun ind acc =>
        if padding ind then acc
        else ufunc.reduction userData acc ((List.range nelems).map
          (vectorElem E.machine ufunc.otype ufunc.itype block
            (dot ((elemIndex ind).insertIdx axis 0) strides) (strides.getD axis 0)))) out) out
  items.mapM fun ind =>
    if padding ind then .ok (ufunc.otype.zero.cell ufunc.otype)
    else do
      let res ← ufunc.finish userData (out.getD ind (uninit E ufunc.otype ind))
      pure (res.cell ufunc.otype)

/-- `_iarray_reduce_udf`. -/
def _iarrayReduceUdf (E : Backend) (a : Container) (ufunc : ReduceFunction) (axis : Nat)
    (storage : Storage) : Result Container :=
  if a.dtshape.ndim < 1 then inaError .invalidNdim
  else do
    let ndim := a.dtshape.ndim - 1
    let c ← iarrayEmpty E ⟨ufunc.otype, (a.dtshape.shape.eraseIdx axis).take ndim⟩
      (storage.take ndim)
    let catarr ← c.catarr.writeChunks (reducePrefilter E ufunc a c axis)
    pure { c with catarr := catarr }

/-- `_iarray_reduce`. -/
def _iarrayReduce (E : Backend) (a : Container) (func : ReduceFunc) (axis : Nat)
    (storage : Storage) : Result Container := do
  let ufunc ← reduceFunction E.machine func a.dtshape.dtype
  _iarrayReduceUdf E a ufunc axis storage

/-- The loop over the axes. Each step removes an axis and renumbers those behind it. -/
def reduceAxes (E : Backend) (func : ReduceFunc) : Nat → Container → List Nat → Result Container
  | steps + 1, aa, axis :: axes => do
    let storageRed : Storage :=
      ⟨aa.storage.chunkshape.eraseIdx axis, aa.storage.blockshape.eraseIdx axis⟩
    let c ← _iarrayReduce E aa func axis storageRed
    reduceAxes E func steps c (axes.map fun j => if axis < j then j - 1 else j)
  | _, c, _ => .ok c

/-! ## Removing all axes at once -/

/-- The positions along the axes where an iteration stops: behind the last one along a reduced
axis, behind the position of the result along the others. Positions behind the rank of the result
are 0. -/
def iterStop : List Bool → List Nat → List Nat → List Nat
  | true :: reduced, n :: ns, offset => n :: iterStop reduced ns offset
  | false :: reduced, _ :: ns, offset =>
    (offset.headD 0 + 1) :: iterStop reduced ns offset.tail
  | _, _, _ => []

def iterStart (reduced : List Bool) (stop : List Nat) : List Nat :=
  List.zipWith (fun r n => if r then 0 else n - 1) reduced stop

/-- The recursion over the axes that the three iterations share. -/
def iterNest {σ : Type} (visit : List Nat → σ → σ) :
    List Nat → List Nat → List Nat → σ → σ
  | start :: starts, stop :: stops, index, s =>
    (List.range' start (stop - start)).foldl
      (fun s i => iterNest visit starts stops (index ++ [i]) s) s
  | _, _, index, s => visit index s

/-- `iarray_reduce_item_iter`. -/
def reduceItemIter (ufunc : ReduceFunction) (userData : UserData) (axes : List Axis)
    (block : List Cell) (inputChunkshape blockIndex itemStart itemStop itemStrides : List Nat)
    (acc : Acc) : Acc :=
  iterNest (fun itemIndex acc =>
    if checkPadding axes inputChunkshape blockIndex itemIndex then acc
    else ufunc.step userData acc
      ((chunkItems block (dot itemIndex itemStrides)).num ufunc.itype))
    itemStart itemStop [] acc

/-- What the iterations know about one item of the result. -/
structure OutItem where
  userData : UserData
  isPadding : Bool
  itemStart : List Nat
  itemStop : List Nat

/-- `iarray_reduce_block_iter`. -/
def reduceBlockIter (ufunc : ReduceFunction) (input : CatArray) (nchunk : Nat)
    (inputChunkshape blockStart blockStop blockStrides itemStrides : List Nat)
    (items : List OutItem) (out : List Acc) : List Acc :=
  iterNest (fun blockIndex out =>
    let block := input.sc.rawBlock nchunk (dot blockIndex blockStrides)
    List.zipWith (fun (item : OutItem) acc =>
      if item.isPadding then acc
      else reduceItemIter ufunc item.userData input.axes block inputChunkshape blockIndex
        item.itemStart item.itemStop itemStrides acc) items out)
    blockStart blockStop [] out

/-- `iarray_reduce_chunk_iter`. -/
def reduceChunkIter (ufunc : ReduceFunction) (input : CatArray)
    (chunkStart chunkStop chunkStrides blockStart blockStop blockStrides itemStrides : List Nat)
    (items : List OutItem) (out : List Acc) : List Acc :=
  iterNest (fun chunkIndex out =>
    reduceBlockIter ufunc input (dot chunkIndex chunkStrides)
      (chunkShapeAt input.axes chunkIndex) blockStart blockStop blockStrides itemStrides items out)
    chunkStart chunkStop [] out

/-- `inv_nelem`: one over the product of the numbers of elements, each corrected. -/
def invNelems (correction : FP) (ns : List Nat) : FP :=
  ns.foldl (fun inv n =>
    let nelem := (FP.fin n).sub correction
    if nelem.lt (.fin 0) then inv.div (.fin 0) else inv.div nelem) (.fin 1)

/-- `reduced_axis`. -/
def reducedAxis (ndim : Nat) (axis : List Nat) : List Bool :=
  (List.range ndim).map fun i => decide (i ∈ axis)

/-- `_reduce_general_prefilter`. The array `aux` holds the means for variances. -/
def reduceGeneralPrefilter (E : Backend) (ufunc : ReduceFunction) (input result : Container)
    (axis : List Nat) (correction : FP) (aux : Option CatArray) (nchunk : Nat)
    (outChunkshape : List Nat) (nblock : Nat) : Result (List Cell) := do
  let inv := invNelems correction (axis.map (input.tableLength E))
  let reduced := reducedAxis input.dtshape.ndim axis
  let auxBlock := (aux.map fun aux => aux.sc.rawBlock nchunk nblock).getD []
  let outChunks ← shapeOfChunks result.catarr.axes
  let outChunkOffset := indexUnidimToMultidimShape outChunks nchunk
  let inChunks ← shapeOfChunks input.catarr.axes
  let chunksStop := iterStop reduced inChunks outChunkOffset
  let outBlocks ← shapeOfBlocks result.catarr.axes
  let outBlockOffset := indexUnidimToMultidimShape outBlocks nblock
  let inBlocks ← shapeOfBlocks input.catarr.axes
  let blocksStop := iterStop reduced inBlocks outBlockOffset
  let nitems := List.range result.catarr.blockshape.prod
  let items := nitems.map fun ind =>
    let itemOffset := indexUnidimToMultidimShape result.catarr.blockshape ind
    let itemStop := iterStop reduced input.catarr.blockshape itemOffset
    { userData := ⟨inv, correction, (chunkItems auxBlock ind).num ufunc.otype⟩
      isPadding := checkPadding result.catarr.axes outChunkshape outBlockOffset itemOffset
      itemStart := iterStart reduced itemStop
      itemStop := itemStop : OutItem }
  let out := reduceChunkIter ufunc input.catarr (iterStart reduced chunksStop) chunksStop
    (computeStrides inChunks) (iterStart reduced blocksStop) blocksStop (computeStrides inBlocks)
    (computeStrides input.catarr.blockshape) items (items.map fun _ => ufunc.init)
  (List.zip items out).mapM fun p => do
    let res ← ufunc.finish p.1.userData p.2
    pure (res.cell ufunc.otype)

/-- `_iarray_reduce2_udf`. -/
def _iarrayReduce2Udf (E : Backend) (a : Container) (ufunc : ReduceFunction) (axis : List Nat)
    (storage : Storage) (aux : Option CatArray) (correction : FP) : Result Container :=
  if a.dtshape.ndim < 1 then inaError .invalidNdim
  else do
    let reduced := reducedAxis a.dtshape.ndim axis
    let ndim := a.dtshape.ndim - axis.length
    let c ← iarrayEmpty E ⟨ufunc.otype, (keep reduced a.dtshape.shape).take ndim⟩
      (storage.take ndim)
    let catarr ← c.catarr.writeChunks (reduceGeneralPrefilter E ufunc a c axis correction aux)
    pure { c with catarr := catarr }

/-- The loop that checks the axes of the one-shot reduction. -/
def checkAxes (ndim : Nat) : List Int → List Nat → Result (List Nat)
  | [], used => .ok used
  | i :: axis, used =>
    if (ndim : Int) < i then inaError .invalidAxis
    else if i < 0 ∨ (dimensionMax : Int) ≤ i then crash .outOfBounds
    else if i.toNat ∈ used then inaError .invalidAxis
    else checkAxes ndim axis (used ++ [i.toNat])

/-- The storage differs from that of the container along its axes. -/
def Container.needsCopy (c : Container) (storage : Storage) : Bool :=
  (List.range c.dtshape.ndim).any fun i =>
    storage.chunkshape.getD i 0 ≠ c.storage.chunkshape.getD i 0 ∨
      storage.blockshape.getD i 0 ≠ c.storage.blockshape.getD i 0

/-- The end of both reductions: the result is copied when its storage is not the wanted one. -/
def copyResult (E : Backend) (c : Container) (storage : Storage) : Result Container :=
  if c.needsCopy storage then iarrayCopy E c false storage else .ok c

/-- The container whose elements are reduced: a view is copied first, and the reduction goes on with
what the copy has left even if it failed. -/
def copySource (E : Backend) (a : Container) : Result Container :=
  if a.containerViewed.isSome then iarrayCopyUnchecked E a a.storage else .ok a

/-- `_iarray_reduce_oneshot` around a call of `_iarray_reduce2`. -/
def oneshotAround (E : Backend) (reduce2 : Container → List Nat → Storage → Result Container)
    (a : Container) (axis : List Int) (storage : Storage) : Result Container :=
  if a.dtshape.ndim < axis.length then inaError .invalidAxis
  else do
    let axis ← checkAxes a.dtshape.ndim axis []
    let aa ← copySource E a
    let reduced := reducedAxis aa.dtshape.ndim axis
    let c ← reduce2 aa axis ⟨keep reduced aa.storage.chunkshape, keep reduced aa.storage.blockshape⟩
    copyResult E c storage

/-- The reduction whose result a variance needs. -/
def ReduceFunc.auxiliary : ReduceFunc → Option ReduceFunc
  | .var | .std => some .mean
  | .nanVar | .nanStd => some .nanMean
  | _ => none

/-- `_iarray_reduce_oneshot` for a reduction without auxiliary array. -/
def oneshotSimple (E : Backend) (a : Container) (func : ReduceFunc) (axis : List Int)
    (storage : Storage) (correction : FP) : Result Container :=
  oneshotAround E (fun aa axis storageRed => do
    let ufunc ← reduceFunction E.machine func aa.dtshape.dtype
    _iarrayReduce2Udf E aa ufunc axis storageRed none correction) a axis storage

/-- `_iarray_reduce2`. -/
def _iarrayReduce2 (E : Backend) (a : Container) (func : ReduceFunc) (axis : List Nat)
    (storage : Storage) (correction : FP) : Result Container := do
  let ufunc ← reduceFunction E.machine func a.dtshape.dtype
  match func.auxiliary with
  | none => _iarrayReduce2Udf E a ufunc axis storage none correction
  | some meanFunc => do
    let mean ← oneshotSimple E a meanFunc (ints axis) storage (.fin 0)
    _iarrayReduce2Udf E a ufunc axis storage (some mean.catarr) correction

/-- `_iarray_reduce_oneshot`. -/
def _iarrayReduceOneshot (E : Backend) (a : Container) (func : ReduceFunc) (axis : List Int)
    (storage : Storage) (correction : FP) : Result Container :=
  oneshotAround E (fun aa axis storageRed => _iarrayReduce2 E aa func axis storageRed correction)
    a axis storage

/-! ## The entry point -/

/-- The loop that collects the axes of the axis-by-axis reduction, skipping repeated ones. -/
def collectAxes (ndim : Nat) : List Int → List Nat → Result (List Nat)
  | [], used => .ok used
  | i :: axis, used =>
    if (ndim : Int) < i then inaError .invalidAxis
    else if i < 0 ∨ (dimensionMax : Int) ≤ i then crash .outOfBounds
    else if i.toNat ∈ used then collectAxes ndim axis used
    else collectAxes ndim axis (used ++ [i.toNat])

/-- `iarray_reduce_multi`. -/
def iarrayReduceMulti (E : Backend) (a : Container) (func : ReduceFunc) (axis : List Int)
    (storage : Storage) (oneshot : Bool) (correction : FP) : Result Container :=
  if !func.hasCorrection ∧ correction ≠ .fin 0 then inaError .invalidArgument
  else if oneshot then _iarrayReduceOneshot E a func axis storage correction
  else if !func.isMulti then inaError .operationInvalid
  else if a.dtshape.ndim < axis.length then inaError .invalidAxis
  else do
    let axisNew ← collectAxes a.dtshape.ndim axis []
    let aa ← copySource E a
    -- without axes there is no result to look at
    if axisNew = [] then crash .nullPointer
    else do
      let c ← reduceAxes E func axisNew.length aa axisNew
      copyResult E c storage

end IronArray
