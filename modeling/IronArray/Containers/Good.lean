import IronArray.Containers.Code
import IronArray.Core.Reference
import IronArray.Iterators.Copy
import IronArray.Views.Squeeze

/-!
# The geometry of plain containers

A container keeps the geometry of its array a second time: the shape, the storage, the offsets
and the index map. `Good` says that the two agree. `Reached` collects the plain containers that
the constructors make and every sequence of calls that change them, as long as the storage fits
Caterva's integers and a slice is copied from a container with as many axes as its array.
`Reached.good` is the invariant; only the effects of the Caterva calls on the geometry are
assumed.
-/

namespace IronArray

open Grid

/-! ## What Caterva is asked for -/

/-- An array of the shape and storage that Caterva receives. -/
structure Asked (a : CatArray) (shape : List Nat) (st : CatervaStorage) : Prop where
  shape : a.shape = shape
  storage : a.storage = st

theorem Asked.rank {a : CatArray} {shape : List Nat} {st : CatervaStorage} (h : Asked a shape st) :
    a.ndim = shape.length := by
  rw [← h.shape, CatArray.shape, length_shapeOf, CatArray.ndim]

theorem Asked.storage_eq {a : CatArray} {shape : List Nat} {st : Storage}
    (h : Asked a shape (iarrayCreateCatervaStorage st)) (hFits : st.Fits) :
    st = ⟨a.chunkshape, a.blockshape⟩ := by
  have hStorage := h.storage
  rw [iarrayCreateCatervaStorage_fits hFits] at hStorage
  rw [ints_injective (congrArg CatervaStorage.chunkshape hStorage),
    ints_injective (congrArg CatervaStorage.blockshape hStorage)]

theorem Fresh.asked {a : CatArray} {itemsize : Nat} {shape : List Nat} {st : CatervaStorage}
    (h : Fresh a itemsize shape st) : Asked a shape st :=
  ⟨h.shape, h.storage⟩

/-- The effects of the Caterva calls on the geometry. -/
structure Backend.Effects (E : Backend) : Prop where
  empty : ∀ {itemsize : Nat} {shape : List Nat} {st : CatervaStorage} {a : CatArray},
    E.empty itemsize shape st = .ok a → Asked a shape st
  copy : ∀ {a b : CatArray} {st : CatervaStorage}, E.copy a st = .ok b → Asked b a.shape st
  getSlice : ∀ {a b : CatArray} {start stop : List Int} {st : CatervaStorage},
    E.getSlice a start stop st = .ok b →
    Asked b ((List.range a.ndim).map fun i => (stop.getD i 0 - start.getD i 0).toNat) st
  squeezeIndex : ∀ {a b : CatArray} {mask : List Bool}, mask.length = a.ndim →
    E.squeezeIndex a mask = .ok b →
    b.shape = keep mask a.shape ∧ b.chunkshape = keep mask a.chunkshape ∧
      b.blockshape = keep mask a.blockshape
  setSliceBuffer : ∀ {a b : CatArray} {buffer : Nat → Cell} {m : List Nat} {buflen : Nat}
    {s t : List Nat}, E.setSliceBuffer a buffer m buflen s t = .ok b → b.axes = a.axes

structure Makers.Effects (K : Makers) : Prop where
  zeros : ∀ {itemsize : Nat} {shape : List Nat} {st : CatervaStorage} {a : CatArray},
    K.zeros itemsize shape st = .ok a → Asked a shape st
  full : ∀ {itemsize : Nat} {shape : List Nat} {st : CatervaStorage} {value : Cell} {a : CatArray},
    K.full itemsize shape st value = .ok a → Asked a shape st
  fromBuffer : ∀ {buffer : Nat → Cell} {buflen : Int} {itemsize : Nat} {shape : List Nat}
    {st : CatervaStorage} {a : CatArray},
    K.fromBuffer buffer buflen itemsize shape st = .ok a → Asked a shape st

/-- A changed array keeps its tiles, its items and its postfilter. -/
structure Resized (a b : CatArray) : Prop where
  chunkshape : b.chunkshape = a.chunkshape
  blockshape : b.blockshape = a.blockshape
  itemsize : b.itemsize = a.itemsize
  sized : a.Sized → b.Sized
  postfilter : b.sc.postfilter = a.sc.postfilter

structure Mutators.Effects (M : Mutators) : Prop where
  resize : ∀ {a b : CatArray} {newShape : List Int} {start : Option (List Int)},
    M.resize a newShape start = .ok b → Resized a b ∧ ints b.shape = newShape
  insert : ∀ {a b : CatArray} {buffer : Nat → Cell} {size axis start : Int},
    M.insert a buffer size axis start = .ok b → Resized a b
  append : ∀ {a b : CatArray} {buffer : Nat → Cell} {size axis : Int},
    M.append a buffer size axis = .ok b → Resized a b
  delete : ∀ {a b : CatArray} {axis start len : Int},
    M.delete a axis start len = .ok b → Resized a b

/-! ## The invariant -/

/-- The fields of a container that is not a view agree with its array. -/
structure Good (c : Container) : Prop where
  containerViewed : c.containerViewed = none
  ndim : c.dtshape.ndim = c.catarr.ndim
  shape : c.dtshape.shape = c.catarr.shape
  storage : c.storage = ⟨c.catarr.chunkshape, c.catarr.blockshape⟩
  offset : c.offset = List.replicate c.dtshape.ndim 0
  index : c.index = List.range c.dtshape.ndim

theorem ndim_of_shape {a : CatArray} {d : Dtshape} (h : d.shape = a.shape) : d.ndim = a.ndim := by
  rw [Dtshape.ndim, h, CatArray.shape, length_shapeOf, CatArray.ndim]

theorem ndim_of_chunkshape {a b : CatArray} (h : b.chunkshape = a.chunkshape) :
    b.ndim = a.ndim := by
  have hLen := congrArg List.length h
  rwa [CatArray.chunkshape, CatArray.chunkshape, chunkshapeOf, chunkshapeOf, List.length_map,
    List.length_map] at hLen

theorem Resized.rank {a b : CatArray} (h : Resized a b) {n : Nat} (hNdim : a.ndim = n) :
    b.shape.length = n := by
  rw [← hNdim, ← ndim_of_chunkshape h.chunkshape]
  exact length_shapeOf b.axes

theorem good_newContainer {d : Dtshape} {st : Storage} {a : CatArray} (hShape : d.shape = a.shape)
    (hStorage : st = ⟨a.chunkshape, a.blockshape⟩) : Good (newContainer d st a) :=
  ⟨rfl, ndim_of_shape hShape, hShape, hStorage, rfl, rfl⟩

/-- An array with the same axes takes the place of the old one. -/
theorem Good.setArray {c : Container} {a : CatArray} (h : Good c) (hAxes : a.axes = c.catarr.axes) :
    Good { c with catarr := a } := by
  refine ⟨h.containerViewed, ?_, ?_, ?_, h.offset, h.index⟩
  · rw [h.ndim, CatArray.ndim, CatArray.ndim, hAxes]
  · rw [h.shape, CatArray.shape, CatArray.shape, hAxes]
  · rw [h.storage, CatArray.chunkshape, CatArray.chunkshape, CatArray.blockshape,
      CatArray.blockshape, hAxes]

/-! ## Constructors -/

variable {E : Backend} {M : Mutators} {K : Makers}

theorem newAround_good {d : Dtshape} {st : Storage} {c : Container} (hFits : st.Fits)
    {make : Nat → List Nat → CatervaStorage → Result CatArray}
    (hMake : ∀ {a}, make d.dtypeSize d.shape (iarrayCreateCatervaStorage st) = .ok a →
      Asked a d.shape (iarrayCreateCatervaStorage st))
    (h : newAround d st make = .ok c) : Good c := by
  obtain ⟨container, hNew, h⟩ := Result.bind_eq_ok.mp h
  obtain ⟨a, ha, h⟩ := Result.bind_eq_ok.mp h
  obtain ⟨-, rfl⟩ := containerNew_ok hNew
  cases h
  exact good_newContainer (hMake ha).shape.symm ((hMake ha).storage_eq hFits)

theorem iarrayEmpty_good (hE : E.Effects) {d : Dtshape} {st : Storage} {c : Container}
    (hFits : st.Fits) (h : iarrayEmpty E d st = .ok c) : Good c :=
  newAround_good hFits hE.empty h

theorem iarrayFill_good (hK : K.Effects) {d : Dtshape} {st : Storage} {value : Cell}
    {c : Container} (hFits : st.Fits) (h : iarrayFill K d value st = .ok c) : Good c :=
  newAround_good hFits hK.full h

theorem containerAround_good (dtype : Dtype) (a : CatArray) : Good (containerAround dtype a) :=
  good_newContainer rfl rfl

theorem load_good {path : String} {contiguous : Bool} {c : Container}
    (h : _iarrayContainerLoad E K path contiguous = .ok c) : Good c := by
  obtain ⟨_, _, h⟩ := Result.bind_eq_ok.mp h
  obtain ⟨a, _, h⟩ := Result.bind_eq_ok.mp h
  obtain ⟨dtype, _, h⟩ := Result.bind_eq_ok.mp h
  cases h
  exact containerAround_good dtype a

theorem fromCframe_good {frame : Nat → Nat} {len : Int} {copy : Bool} {c : Container}
    (h : iarrayFromCframe K frame len copy = .ok c) : Good c := by
  obtain ⟨a, _, h⟩ := Result.bind_eq_ok.mp h
  obtain ⟨dtype, _, h⟩ := Result.bind_eq_ok.mp h
  cases h
  exact containerAround_good dtype a

theorem constructorBlock_good (hE : E.Effects) {d : Dtshape} {st : Storage}
    {generatorFn : ConstructorGeneratorFn} {c : Container} (hFits : st.Fits)
    (h : iarrayConstructorBlock E d generatorFn st = .ok c) : Good c := by
  obtain ⟨a, ha, h⟩ := Result.bind_eq_ok.mp h
  obtain ⟨_, _, h⟩ := Result.bind_eq_ok.mp h
  obtain ⟨_, _, h⟩ := Result.bind_eq_ok.mp h
  obtain ⟨catarr, hLoop, h⟩ := Result.bind_eq_ok.mp h
  obtain ⟨chunk, -, rfl⟩ := CatArray.foldlM_updateChunk.mp hLoop
  cases h
  exact (iarrayEmpty_good hE hFits ha).setArray rfl

theorem Good.stable (hE : E.Effects) : StoreStable E Good where
  updateChunk _ _ h := h.setArray rfl
  setSliceBuffer h hSet := h.setArray (hE.setSliceBuffer hSet)

theorem copyView_good (hE : E.Effects) {src c : Container} {view : Bool} {st : Storage}
    (hFits : st.Fits) (hView : src.containerViewed.isSome)
    (h : iarrayCopy E src view st = .ok c) : Good c :=
  iarrayCopy_inv (Good.stable hE) hView (fun _ hDest => iarrayEmpty_good hE hFits hDest) h

theorem Good.copy (hE : E.Effects) {src c : Container} {view : Bool} {st : Storage}
    (hSrc : Good src) (hFits : st.Fits) (h : iarrayCopy E src view st = .ok c) : Good c := by
  unfold iarrayCopy at h
  rw [hSrc.containerViewed] at h
  refine @newAround_good _ _ _ hFits (fun _ _ st => E.copy src.catarr st) ?_ h
  intro a ha
  rw [hSrc.shape]
  exact hE.copy ha

/-- The copy of a slice has the rank of its source and an array of the rank of its array. -/
theorem getSlice_copy_ok (hE : E.Effects) {src c : Container} {start stop : List Int}
    {st : Storage} (h : iarrayGetSlice E src start stop false st = .ok c) :
    ∃ a, c = newContainer (src.sliceDtshape start stop) st a ∧ a.ndim = src.catarr.ndim ∧
      Asked a ((List.range src.catarr.ndim).map fun i =>
        ((src.storeStop stop).getD i 0 - (src.storeStart start).getD i 0).toNat)
        (iarrayCreateCatervaStorage st) := by
  obtain ⟨_, _, h⟩ := Result.bind_eq_ok.mp h
  obtain ⟨container, hNew, h⟩ := Result.bind_eq_ok.mp h
  obtain ⟨a, ha, h⟩ := Result.bind_eq_ok.mp h
  obtain ⟨-, rfl⟩ := containerNew_ok hNew
  cases h
  have hAsked := hE.getSlice ha
  refine ⟨a, rfl, ?_, hAsked⟩
  rw [hAsked.rank, List.length_map, List.length_range]

theorem getSlice_copy_good (hE : E.Effects) {src c : Container} {start stop : List Int}
    {st : Storage} (hFits : st.Fits) (hRank : src.dtshape.ndim = src.catarr.ndim)
    (h : iarrayGetSlice E src start stop false st = .ok c) : Good c := by
  obtain ⟨a, rfl, -, hAsked⟩ := getSlice_copy_ok hE h
  refine good_newContainer ?_ (hAsked.storage_eq hFits)
  rw [hAsked.shape, ← hRank]
  rfl

/-! ## Changes -/

theorem squeezeIndex_rank (hE : E.Effects) {a b : CatArray} {mask : List Bool}
    (hMask : mask.length = a.ndim) (hb : E.squeezeIndex a mask = .ok b) :
    b.ndim = mask.count false := by
  have hLen := congrArg List.length (hE.squeezeIndex hMask hb).1
  rwa [CatArray.shape, length_shapeOf, length_keep (by
    rw [hMask, CatArray.shape, length_shapeOf, CatArray.ndim])] at hLen

theorem Good.squeezeIndex (hE : E.Effects) {c c' : Container} {mask : List Bool} (h : Good c)
    (hMask : mask.length = c.dtshape.ndim) (hc : iarraySqueezeIndex E c mask = .ok c') :
    Good c' := by
  rw [iarraySqueezeIndex, if_pos (by rw [h.containerViewed]; rfl)] at hc
  obtain ⟨b, hb, hc⟩ := Result.bind_eq_ok.mp hc
  obtain ⟨hShape, hChunk, hBlock⟩ := hE.squeezeIndex (hMask.trans h.ndim) hb
  have hRank : b.ndim = mask.count false := squeezeIndex_rank hE (hMask.trans h.ndim) hb
  split at hc
  · cases hc
    have hLe : b.ndim ≤ c.dtshape.ndim := by
      rw [hRank, ← hMask]
      exact List.count_le_length
    have hShapeLen : b.shape.length = b.ndim := length_shapeOf b.axes
    refine ⟨h.containerViewed, hShapeLen, rfl, rfl, ?_, ?_⟩
    · change ((List.range b.ndim).foldl (squeezeOffsetStep mask) (0, c.offset)).2.take b.ndim =
        List.replicate b.shape.length 0
      rw [h.offset, squeezeOffset_zero, List.take_replicate, Nat.min_eq_left hLe, hShapeLen]
    · change c.index.take b.ndim = List.range b.shape.length
      rw [h.index, List.take_range, Nat.min_eq_left hLe, hShapeLen]
  · rename_i hEq
    cases hc
    have hAll : mask = List.replicate c.dtshape.ndim false := by
      rw [List.eq_replicate_iff]
      refine ⟨hMask, fun m hm => ?_⟩
      have hFull : mask.count false = mask.length := by omega
      exact (List.count_eq_length.mp hFull m hm).symm
    have hKeep : ∀ f : Axis → Nat, keep mask (c.catarr.axes.map f) = c.catarr.axes.map f := by
      intro f
      rw [hAll, h.ndim]
      exact keep_replicate_false (by rw [List.length_map, CatArray.ndim])
    refine h.setArray (axes_ext (hShape.trans (hKeep _)) (hChunk.trans (hKeep _))
      (hBlock.trans (hKeep _)))

/-- A resized array takes the place of the old one, and the container copies its shape. -/
theorem Good.setResized {c : Container} {b : CatArray} (h : Good c)
    (hResized : Resized c.catarr b) :
    Good { c with dtshape := { c.dtshape with shape := b.shape }, catarr := b } := by
  have hRank := hResized.rank h.ndim.symm
  refine ⟨h.containerViewed, length_shapeOf b.axes, rfl, ?_, ?_, ?_⟩
  · change c.storage = _
    rw [h.storage, hResized.chunkshape, hResized.blockshape]
  · change c.offset = List.replicate b.shape.length 0
    rw [hRank, h.offset]
  · change c.index = List.range b.shape.length
    rw [hRank, h.index]

/-! ## What a change does -/

theorem changeAxis_ok {c c' : Container} {call : CatArray → Result CatArray}
    (hView : c.containerViewed = none) (hNdim : c.dtshape.ndim = c.catarr.ndim)
    (hCall : ∀ {b}, call c.catarr = .ok b → Resized c.catarr b)
    (hc : changeAxis c call = .ok c') :
    ∃ b, Resized c.catarr b ∧
      c' = { c with dtshape := { c.dtshape with shape := b.shape }, catarr := b } := by
  rw [changeAxis, if_neg (by rw [hView]; decide)] at hc
  obtain ⟨b, hb, hc⟩ := Result.bind_eq_ok.mp hc
  cases hc
  have hResized := hCall hb
  have hShape : b.shape.take c.dtshape.ndim = b.shape :=
    List.take_of_length_le (hResized.rank hNdim.symm).le
  exact ⟨b, hResized, by rw [hShape]⟩

theorem containerResize_ok (hM : M.Effects) {c c' : Container} {newShape : List Int}
    {start : Option (List Int)} (hView : c.containerViewed = none)
    (hNdim : c.dtshape.ndim = c.catarr.ndim)
    (hc : iarrayContainerResize M c newShape start = .ok c') :
    ∃ b, Resized c.catarr b ∧
      c' = { c with dtshape := { c.dtshape with shape := b.shape }, catarr := b } := by
  rw [iarrayContainerResize, if_neg (by rw [hView]; decide)] at hc
  obtain ⟨b, hb, hc⟩ := Result.bind_eq_ok.mp hc
  cases hc
  obtain ⟨hResized, rfl⟩ := hM.resize hb
  have hInts : (ints b.shape).map Int.toNat = b.shape := by
    simp [ints, Function.comp_def]
  have hShape : b.shape.take c.dtshape.ndim = b.shape :=
    List.take_of_length_le (hResized.rank hNdim.symm).le
  exact ⟨b, hResized, by rw [hInts, hShape]⟩

/-- The container has an array that `caterva_set_slice_buffer` has written to. -/
def Overwritten (E : Backend) (c c' : Container) : Prop :=
  ∃ b buffer m buflen s t, E.setSliceBuffer c.catarr buffer m buflen s t = .ok b ∧
    c' = { c with catarr := b }

theorem setSliceBuffer_ok {c c' : Container} {start stop : List Int} {buffer : Nat → Cell}
    {buflen : Int} (hc : iarraySetSliceBuffer E c start stop buffer buflen = .ok c') :
    Overwritten E c c' := by
  unfold iarraySetSliceBuffer at hc
  split at hc
  · cases hc
  obtain ⟨_, _, hc⟩ := Result.bind_eq_ok.mp hc
  simp only at hc
  split at hc
  · cases hc
  · obtain ⟨a, ha, hc⟩ := Result.bind_eq_ok.mp hc
    cases hc
    exact ⟨a, _, _, _, _, _, ha, rfl⟩

theorem setSlice_ok {c c' slice : Container} {start stop : List Int}
    (hc : iarraySetSlice E c start stop slice = .ok c') : Overwritten E c c' := by
  unfold iarraySetSlice at hc
  split at hc
  · cases hc
  split at hc
  · cases hc
  · obtain ⟨buffer, _, hc⟩ := Result.bind_eq_ok.mp hc
    exact setSliceBuffer_ok hc

/-- A call that succeeds squeezes the container, gives it a resized array, or writes to its
array. -/
theorem Change.call_ok (hM : M.Effects) {c c' : Container} {change : Change}
    (hView : c.containerViewed = none) (hNdim : c.dtshape.ndim = c.catarr.ndim)
    (h : change.call E M c = .ok c') :
    (∃ mask, change = .squeezeIndex mask ∧
      iarraySqueezeIndex E c ((List.range c.dtshape.ndim).map mask) = .ok c') ∨
    (∃ b, Resized c.catarr b ∧
      c' = { c with dtshape := { c.dtshape with shape := b.shape }, catarr := b }) ∨
    Overwritten E c c' := by
  cases change with
  | resize newShape start => exact .inr (.inl (containerResize_ok hM hView hNdim h))
  | insert buffer size axis start =>
    exact .inr (.inl (@changeAxis_ok c c' (fun a => M.insert a buffer size axis start) hView hNdim
      hM.insert h))
  | append buffer size axis =>
    exact .inr (.inl (@changeAxis_ok c c' (fun a => M.append a buffer size axis) hView hNdim
      hM.append h))
  | delete axis start len =>
    exact .inr (.inl (@changeAxis_ok c c' (fun a => M.delete a axis start len) hView hNdim
      hM.delete h))
  | squeezeIndex mask => exact .inl ⟨mask, rfl, h⟩
  | setSlice start stop slice => exact .inr (.inr (setSlice_ok h))
  | setSliceBuffer start stop buffer buflen => exact .inr (.inr (setSliceBuffer_ok h))

/-- Every call that changes a container keeps the invariant, whether it succeeds or fails. -/
theorem Good.after (hE : E.Effects) (hM : M.Effects) {c : Container} (h : Good c)
    (change : Change) : Good (c.after E M change) := by
  unfold Container.after
  split
  · rename_i c' hc
    obtain ⟨mask, -, hSqueeze⟩ | ⟨b, hResized, rfl⟩ | ⟨b, _, _, _, _, _, hSet, rfl⟩ :=
      Change.call_ok hM h.containerViewed h.ndim hc
    · exact h.squeezeIndex hE (by simp) hSqueeze
    · exact h.setResized hResized
    · exact h.setArray (hE.setSliceBuffer hSet)
  · exact h

/-! ## All runs -/

/-- The plain containers that are made and then changed by any sequence of calls. Storages fit
Caterva's integers and a slice is copied from a container of the rank of its array. -/
inductive Reached (E : Backend) (M : Mutators) (K : Makers) : Container → Prop
  | empty {d : Dtshape} {st : Storage} {c : Container} (hFits : st.Fits)
      (h : iarrayEmpty E d st = .ok c) : Reached E M K c
  | zeros {d : Dtshape} {st : Storage} {c : Container} (hFits : st.Fits)
      (h : iarrayZeros K d st = .ok c) : Reached E M K c
  | fill {d : Dtshape} {st : Storage} {value : Cell} {c : Container} (hFits : st.Fits)
      (h : iarrayFill K d value st = .ok c) : Reached E M K c
  | ones {d : Dtshape} {st : Storage} {c : Container} (hFits : st.Fits)
      (h : iarrayOnes E.machine K d st = .ok c) : Reached E M K c
  | fromBuffer {d : Dtshape} {st : Storage} {buffer : Nat → Cell} {buflen : Int} {c : Container}
      (hFits : st.Fits) (h : iarrayFromBuffer K d buffer buflen st = .ok c) : Reached E M K c
  | constructorBlock {d : Dtshape} {st : Storage} {generatorFn : ConstructorGeneratorFn}
      {c : Container} (hFits : st.Fits) (h : iarrayConstructorBlock E d generatorFn st = .ok c) :
      Reached E M K c
  | load {path : String} {c : Container} (h : iarrayContainerLoad E K path = .ok c) :
      Reached E M K c
  | openFile {path : String} {c : Container} (h : iarrayContainerOpen E K path = .ok c) :
      Reached E M K c
  | fromCframe {frame : Nat → Nat} {len : Int} {copy : Bool} {c : Container}
      (h : iarrayFromCframe K frame len copy = .ok c) : Reached E M K c
  | copy {src c : Container} {view : Bool} {st : Storage} (hSrc : Reached E M K src)
      (hFits : st.Fits) (h : iarrayCopy E src view st = .ok c) : Reached E M K c
  | copyView {src c : Container} {view : Bool} {st : Storage}
      (hView : src.containerViewed.isSome) (hFits : st.Fits)
      (h : iarrayCopy E src view st = .ok c) : Reached E M K c
  | slice {src c : Container} {start stop : List Int} {st : Storage}
      (hRank : src.dtshape.ndim = src.catarr.ndim) (hFits : st.Fits)
      (h : iarrayGetSlice E src start stop false st = .ok c) : Reached E M K c
  | change {c : Container} (hRun : Reached E M K c) (change : Change) :
      Reached E M K (c.after E M change)

/-- The geometry of every container of a run agrees with its array. -/
theorem containers_good (hE : E.Effects) (hM : M.Effects) (hK : K.Effects) {c : Container}
    (h : Reached E M K c) : Good c := by
  induction h with
  | empty hFits h => exact iarrayEmpty_good hE hFits h
  | zeros hFits h => exact newAround_good hFits hK.zeros h
  | fill hFits h => exact iarrayFill_good hK hFits h
  | ones hFits h => exact iarrayFill_good hK hFits h
  | @fromBuffer d st buffer buflen c hFits h =>
    refine newAround_good hFits ?_ h
    intro a ha
    split at ha
    · cases ha
    · exact hK.fromBuffer ha
  | constructorBlock hFits h => exact constructorBlock_good hE hFits h
  | load h => exact load_good h
  | openFile h => exact load_good h
  | fromCframe h => exact fromCframe_good h
  | copy _ hFits h ih => exact ih.copy hE hFits h
  | copyView hView hFits h => exact copyView_good hE hFits hView h
  | slice hRank hFits h => exact getSlice_copy_good hE hFits hRank h
  | change _ change ih => exact ih.after hE hM change

/-! ## Libraries that keep these promises -/

namespace Reference

def makers : Makers where
  zeros itemsize shape st := create itemsize shape st fun _ => .bits 0
  full itemsize shape st value := create itemsize shape st fun _ => value
  fromBuffer buffer _ itemsize shape st := create itemsize shape st fun x => buffer (flat shape x)
  openFile _ := inaError .catervaFailed
  fromCframe _ _ _ := inaError .catervaFailed
  metaDtype _ := .ok .int32

/-- Arrays that grow or shrink at the end of their axes. -/
def resize (a : CatArray) (newShape : List Int) (_ : Option (List Int)) : Result CatArray :=
  if a.sc.postfilter.isNone ∧ newShape.length = a.ndim ∧ newShape.all (0 ≤ ·) then
    create a.itemsize (newShape.map Int.toNat) a.storage fun x =>
      if InBox x a.shape then value (a.cell x) else .bits 0
  else inaError .catervaFailed

def mutators : Mutators where
  resize := resize
  insert _ _ _ _ _ := inaError .catervaFailed
  append _ _ _ _ := inaError .catervaFailed
  delete _ _ _ _ := inaError .catervaFailed

theorem create_asked {itemsize : Nat} {shape : List Nat} {st : CatervaStorage}
    {f : List Nat → Cell} {a : CatArray} (h : create itemsize shape st f = .ok a) :
    Asked a shape st :=
  (create_ok h).1.asked

theorem backend_effects : backend.Effects where
  empty := create_asked
  copy := create_asked
  getSlice := by
    intro a b start stop st h
    obtain ⟨_, _, h⟩ := Result.bind_eq_ok.mp h
    exact create_asked h
  squeezeIndex := by
    intro a b mask _ h
    have hFresh := (create_ok h).1
    exact ⟨hFresh.shape, ints_injective hFresh.chunkshape, ints_injective hFresh.blockshape⟩
  setSliceBuffer := by
    intro a b buffer m buflen s t h
    cases h
    rfl

theorem makers_effects : makers.Effects where
  zeros := create_asked
  full := create_asked
  fromBuffer := create_asked

theorem mutators_effects : mutators.Effects where
  resize := by
    intro a b newShape start h
    change resize a newShape start = _ at h
    unfold resize at h
    split at h
    · rename_i hOk
      have hFresh := (create_ok h).1
      refine ⟨⟨ints_injective hFresh.chunkshape, ints_injective hFresh.blockshape, hFresh.itemsize,
        fun _ => hFresh.sized, ?_⟩, ?_⟩
      · rw [hFresh.postfilter, Option.isNone_iff_eq_none.mp hOk.1]
      · rw [hFresh.shape, ints, List.map_map]
        refine (List.map_congr_left fun n hn => ?_).trans (List.map_id newShape)
        exact Int.toNat_of_nonneg (of_decide_eq_true (List.all_eq_true.mp hOk.2.2 n hn))
    · cases h
  insert := nofun
  append := nofun
  delete := nofun

end Reference

/-- An empty matrix, grown by one row. -/
theorem containers_good_matrix : ∃ c,
    iarrayEmpty Reference.backend ⟨.int32, [3, 5]⟩ ⟨[2, 3], [2, 2]⟩ = .ok c ∧
    Good (c.after Reference.backend Reference.mutators (.resize [4, 5] none)) ∧
    (c.after Reference.backend Reference.mutators (.resize [4, 5] none)).dtshape.shape =
      [4, 5] :=
  ⟨_, rfl, containers_good Reference.backend_effects Reference.mutators_effects
    Reference.makers_effects (.change (@Reached.empty _ _ _ ⟨.int32, [3, 5]⟩ ⟨[2, 3], [2, 2]⟩ _
      ⟨by decide, by decide⟩ rfl) _), rfl⟩

/-- A matrix of one row as a view, squeezed to a vector. -/
def squeezedRow : Result Container := do
  let c ← iarrayEmpty Reference.backend ⟨.int32, [1, 4]⟩ ⟨[1, 2], [1, 2]⟩
  let v ← iarrayGetSlice Reference.backend c [0, 0] [1, 4] true ⟨[], []⟩
  iarraySqueezeIndex Reference.backend v [true, false]

/-- Two containers whose fields disagree with their arrays: an empty vector whose chunks have a
length beyond `int32_t`, and a copied slice without elements of a squeezed view. -/
theorem containers_good_fails :
    (∃ c, iarrayEmpty Reference.backend ⟨.int32, [5]⟩ ⟨[2 ^ 32 + 5], [5]⟩ = .ok c ∧
      ¬ Good c) ∧
    ∃ v c, squeezedRow = .ok v ∧
      iarrayGetSlice Reference.backend v [2] [2] false ⟨[1, 0], [1, 0]⟩ = .ok c ∧
      c.dtshape.shape = [1] ∧ c.catarr.shape = [1, 0] ∧ ¬ Good c := by
  refine ⟨⟨_, rfl, fun h => ?_⟩, _, _, rfl, rfl, rfl, rfl, fun h => ?_⟩
  · exact absurd h.storage (by decide)
  · exact absurd h.ndim (by decide)

end IronArray
