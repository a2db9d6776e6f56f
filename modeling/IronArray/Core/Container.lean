import IronArray.Core.Store
import IronArray.Grid.NdArray

/-!
# Containers and the libraries below them

`Backend` collects the calls of Caterva and MKL that the code uses, the contents of
uninitialised memory and the floating-point hardware. `Backend.Lawful` states what the code
relies on: an array reads back what it holds, through the installed postfilter. A container
is an `iarray_container_t`; `Plain` says that it is not a view and that its fields agree
with its array.
-/

namespace IronArray

open Grid

/-- `CATERVA_MAX_DIM` and `IARRAY_DIMENSION_MAX`. -/
def dimensionMax : Nat := 8

/-! ## Regions -/

def ints (ns : List Nat) : List Int := ns.map Int.ofNat

@[simp] theorem length_ints (ns : List Nat) : (ints ns).length = ns.length := by simp [ints]

@[simp] theorem ints_cons (n : Nat) (ns : List Nat) : ints (n :: ns) = (n : Int) :: ints ns := rfl

@[simp] theorem ints_nil : ints [] = [] := rfl

theorem ints_take (n : Nat) (ns : List Nat) : ints (ns.take n) = (ints ns).take n := List.map_take

theorem prod_ints (s : List Nat) : (ints s).prod = (s.prod : Int) := by
  induction s with
  | nil => rfl
  | cons j s ih => simp [ih]

/-! ## Storage -/

/-- The cast from `int64_t` to `int32_t` or `int`. -/
def toInt32 (z : Int) : Int := (z + 2 ^ 31) % 2 ^ 32 - 2 ^ 31

theorem toInt32_natCast {n : Nat} (h : n < 2 ^ 31) : toInt32 n = n := by
  rw [toInt32]
  omega

theorem toInt32_le (n : Nat) : toInt32 n ≤ n := by
  rw [toInt32]
  omega

/-- A length that is not passed on as it is loses at least `2 ^ 32`. -/
theorem toInt32_of_le {n : Nat} (h : 2 ^ 31 ≤ n) : toInt32 n + 2 ^ 32 ≤ n := by
  rw [toInt32]
  omega

theorem toInt32_lt (z : Int) : toInt32 z < 2 ^ 31 := by
  rw [toInt32]
  omega

theorem ints_injective : Function.Injective ints :=
  List.map_injective_iff.mpr fun _ _ h => Int.ofNat.inj h

/-- `iarray_storage_t`, for arrays in memory. -/
structure Storage where
  chunkshape : List Nat
  blockshape : List Nat
deriving DecidableEq

/-- `caterva_storage_t`, whose lengths are `int32_t`. -/
structure CatervaStorage where
  chunkshape : List Int
  blockshape : List Int
deriving DecidableEq

/-- `iarray_create_caterva_storage`. -/
def iarrayCreateCatervaStorage (storage : Storage) : CatervaStorage where
  chunkshape := storage.chunkshape.map fun n : Nat => toInt32 n
  blockshape := storage.blockshape.map fun n : Nat => toInt32 n

/-- The lengths survive the conversion to `int32_t` in `iarray_create_caterva_storage`. -/
structure Storage.Fits (st : Storage) : Prop where
  chunkshape : ∀ n ∈ st.chunkshape, n < 2 ^ 31
  blockshape : ∀ n ∈ st.blockshape, n < 2 ^ 31

instance (st : Storage) : Decidable st.Fits :=
  decidable_of_iff ((∀ n ∈ st.chunkshape, n < 2 ^ 31) ∧ ∀ n ∈ st.blockshape, n < 2 ^ 31)
    ⟨fun h => ⟨h.1, h.2⟩, fun h => ⟨h.chunkshape, h.blockshape⟩⟩

theorem map_toInt32 {ns : List Nat} (h : ∀ n ∈ ns, n < 2 ^ 31) :
    (ns.map fun n : Nat => toInt32 n) = ints ns :=
  List.map_congr_left fun n hn => toInt32_natCast (h n hn)

theorem iarrayCreateCatervaStorage_fits {st : Storage} (h : st.Fits) :
    iarrayCreateCatervaStorage st = ⟨ints st.chunkshape, ints st.blockshape⟩ := by
  rw [iarrayCreateCatervaStorage, map_toInt32 h.chunkshape, map_toInt32 h.blockshape]

theorem getD_stored {bs ns : List Nat} (h : ints bs = ns.map fun n : Nat => toInt32 n) (i : Nat) :
    ((bs.getD i 0 : Nat) : Int) = toInt32 (ns.getD i 0 : Nat) := by
  have hZero : toInt32 ((0 : Nat) : Int) = 0 := rfl
  have hGet : (ints bs).getD i (Int.ofNat 0) = (ns.map fun n : Nat => toInt32 n).getD i
      (toInt32 ((0 : Nat) : Int)) := by
    rw [h, hZero]
    rfl
  rwa [ints, List.getD_map, List.getD_map] at hGet

theorem length_stored {bs ns : List Nat} (h : ints bs = ns.map fun n : Nat => toInt32 n) :
    ns.length = bs.length := by
  simpa using congrArg List.length h.symm

/-- The tiles of the axes have lengths that an `int32_t` holds. -/
def ShortTiles (axes : List Axis) : Prop :=
  ∀ a ∈ axes, a.chunkshape < 2 ^ 31 ∧ a.blockshape < 2 ^ 31

instance (axes : List Axis) : Decidable (ShortTiles axes) := List.decidableBAll _ axes

theorem ShortTiles.fits {axes : List Axis} (h : ShortTiles axes) :
    Storage.Fits ⟨chunkshapeOf axes, blockshapeOf axes⟩ :=
  ⟨List.forall_mem_map.mpr fun a ha => (h a ha).1, List.forall_mem_map.mpr fun a ha => (h a ha).2⟩

/-- The storage of an array, as the code fills it in from the array. -/
def CatArray.storage (a : CatArray) : CatervaStorage := ⟨ints a.chunkshape, ints a.blockshape⟩

/-! ## Libraries -/

structure Backend where
  /-- `caterva_empty` and `caterva_uninit`: item size, shape and storage. -/
  empty : Nat → List Nat → CatervaStorage → Result CatArray
  /-- `caterva_get_slice_buffer`: start, stop, buffer, shape and length of the buffer. -/
  getSliceBuffer : CatArray → List Int → List Int → (Nat → Cell) → List Int → Int →
    Result (Nat → Cell)
  /-- `caterva_to_buffer`. -/
  toBuffer : CatArray → (Nat → Cell) → Int → Result (Nat → Cell)
  /-- `caterva_get_slice`. -/
  getSlice : CatArray → List Int → List Int → CatervaStorage → Result CatArray
  /-- `caterva_squeeze_index`. -/
  squeezeIndex : CatArray → List Bool → Result CatArray
  /-- `caterva_copy`. -/
  copy : CatArray → CatervaStorage → Result CatArray
  /-- `caterva_set_slice_buffer`: buffer, shape and length of the buffer, start, stop. -/
  setSliceBuffer : CatArray → (Nat → Cell) → List Nat → Nat → List Nat → List Nat →
    Result CatArray
  /-- `mkl_domatcopy` and `mkl_somatcopy` with `'R'`, `'T'` and factor one. -/
  omatcopy : Int → Int → (Nat → Cell) → (Nat → Cell) → Nat → Cell
  /-- What `malloc` returns. -/
  malloc : Nat → Cell
  /-- What the table of a shape holds behind the rank. -/
  spareLength : Nat
  /-- `BLOSC2_MAX_OVERHEAD`. -/
  maxOverhead : Nat
  machine : Machine

/-- A freshly created array of the given geometry. -/
structure Fresh (a : CatArray) (itemsize : Nat) (shape : List Nat) (st : CatervaStorage) : Prop where
  shape : a.shape = shape
  storage : a.storage = st
  itemsize : a.itemsize = itemsize
  sized : a.Sized
  postfilter : a.sc.postfilter = none

namespace Fresh

variable {a b : CatArray} {s t : Nat} {shape : List Nat} {st : CatervaStorage}

theorem chunkshape (h : Fresh a s shape st) : ints a.chunkshape = st.chunkshape :=
  congrArg CatervaStorage.chunkshape h.storage

theorem blockshape (h : Fresh a s shape st) : ints a.blockshape = st.blockshape :=
  congrArg CatervaStorage.blockshape h.storage

theorem axes_eq (ha : Fresh a s shape st) (hb : Fresh b t shape st) : a.axes = b.axes :=
  axes_ext (ha.shape.trans hb.shape.symm)
    (ints_injective (ha.chunkshape.trans hb.chunkshape.symm))
    (ints_injective (ha.blockshape.trans hb.blockshape.symm))

/-- An array of the storage that the code asked for. -/
theorem storage_eq {storage : Storage}
    (h : Fresh a s shape (iarrayCreateCatervaStorage storage)) (hFits : storage.Fits) :
    storage = ⟨a.chunkshape, a.blockshape⟩ := by
  rw [iarrayCreateCatervaStorage_fits hFits] at h
  rw [ints_injective h.chunkshape, ints_injective h.blockshape]

/-- Each length of the array is the length asked for, as an `int32_t`. -/
theorem getD_chunkshape {storage : Storage}
    (h : Fresh a s shape (iarrayCreateCatervaStorage storage)) (i : Nat) :
    ((a.chunkshape.getD i 0 : Nat) : Int) = toInt32 (storage.chunkshape.getD i 0 : Nat) :=
  getD_stored h.chunkshape i

theorem getD_blockshape {storage : Storage}
    (h : Fresh a s shape (iarrayCreateCatervaStorage storage)) (i : Nat) :
    ((a.blockshape.getD i 0 : Nat) : Int) = toInt32 (storage.blockshape.getD i 0 : Nat) :=
  getD_stored h.blockshape i

theorem chunkshape_lt {storage : Storage}
    (h : Fresh a s shape (iarrayCreateCatervaStorage storage)) : ∀ n ∈ a.chunkshape, n < 2 ^ 31 := by
  intro n hn
  have hMem : (n : Int) ∈ ints a.chunkshape := List.mem_map_of_mem hn
  rw [h.chunkshape] at hMem
  obtain ⟨m, -, hm⟩ := List.mem_map.mp hMem
  have := toInt32_lt m
  omega

theorem blockshape_lt {storage : Storage}
    (h : Fresh a s shape (iarrayCreateCatervaStorage storage)) : ∀ n ∈ a.blockshape, n < 2 ^ 31 := by
  intro n hn
  have hMem : (n : Int) ∈ ints a.blockshape := List.mem_map_of_mem hn
  rw [h.blockshape] at hMem
  obtain ⟨m, -, hm⟩ := List.mem_map.mp hMem
  have := toInt32_lt m
  omega

theorem shortTiles {storage : Storage}
    (h : Fresh a s shape (iarrayCreateCatervaStorage storage)) : ShortTiles a.axes :=
  fun x hx => ⟨h.chunkshape_lt _ (List.mem_map_of_mem hx), h.blockshape_lt _ (List.mem_map_of_mem hx)⟩

end Fresh

/-- What the code relies on. Arrays are read exactly and through their postfilter. -/
structure Backend.Lawful (E : Backend) : Prop where
  empty : ∀ {itemsize shape st a}, E.empty itemsize shape st = .ok a →
    Fresh a itemsize shape st
  getSliceBuffer : ∀ {a : CatArray} {s n m : List Nat} (buffer : Nat → Cell) {buflen : Int}
    {f : List Nat → Cell}, Region s n a.shape → (∀ k ∈ n, 0 < k) →
    List.Forall₂ (· ≤ ·) n m → (m.prod * a.itemsize : Nat) ≤ buflen →
    (∀ x, InBox x n → a.cell (addIdx s x) = .ok (f x)) →
    ∃ out, E.getSliceBuffer a (ints s) (ints (addIdx s n)) buffer (ints m) buflen = .ok out ∧
      ∀ x, InBox x n → out (flat m x) = f x
  toBuffer : ∀ {a : CatArray} (buffer : Nat → Cell) {buflen : Int} {f : List Nat → Cell},
    (∀ k ∈ a.shape, 0 < k) → (a.shape.prod * a.itemsize : Nat) ≤ buflen →
    (∀ x, InBox x a.shape → a.cell x = .ok (f x)) →
    ∃ out, E.toBuffer a buffer buflen = .ok out ∧
      ∀ x, InBox x a.shape → out (flat a.shape x) = f x
  getSlice : ∀ {a b : CatArray} {s n : List Nat} {st : CatervaStorage}, Region s n a.shape →
    E.getSlice a (ints s) (ints (addIdx s n)) st = .ok b →
    Fresh b a.itemsize n st ∧
      ∀ x c, InBox x n → a.cell (addIdx s x) = .ok c → b.cell x = .ok c
  squeezeIndex : ∀ {a b : CatArray} {mask : List Bool}, mask.length = a.ndim →
    UnitOn mask a.shape → a.Sized → a.sc.postfilter = none →
    E.squeezeIndex a mask = .ok b →
    Fresh b a.itemsize (keep mask a.shape)
      ⟨ints (keep mask a.chunkshape), ints (keep mask a.blockshape)⟩ ∧
      ∀ x c, InBox x a.shape → a.cell x = .ok c → b.cell (keep mask x) = .ok c
  copy : ∀ {a b : CatArray} {st : CatervaStorage}, a.Sized → a.sc.postfilter = none →
    E.copy a st = .ok b →
    Fresh b a.itemsize a.shape st ∧ ∀ x c, InBox x a.shape → a.cell x = .ok c → b.cell x = .ok c
  copy_accepts : ∀ {a : CatArray} {st : CatervaStorage}, a.Sized → a.sc.postfilter = none →
    ((∃ b, E.copy a st = .ok b) ↔ ∃ e, E.empty a.itemsize a.shape st = .ok e)
  setSliceBuffer_fresh : ∀ {a b : CatArray} {itemsize : Nat} {shape m s t : List Nat}
    {st : CatervaStorage} {buffer : Nat → Cell} {buflen : Nat}, Fresh a itemsize shape st →
    E.setSliceBuffer a buffer m buflen s t = .ok b → Fresh b itemsize shape st
  setSliceBuffer : ∀ {a : CatArray} {s n : List Nat} (buffer : Nat → Cell) {buflen : Nat},
    a.Sized → a.sc.postfilter = none → Region s n a.shape → (∀ k ∈ n, 0 < k) →
    n.prod * a.itemsize ≤ buflen →
    ∃ b, E.setSliceBuffer a buffer n buflen s (addIdx s n) = .ok b ∧
      (∀ x, InBox x n → b.cell (addIdx s x) = .ok (buffer (flat n x))) ∧
      ∀ x c, InBox x a.shape → (∀ y, InBox y n → addIdx s y ≠ x) → a.cell x = .ok c →
        b.cell x = .ok c
  omatcopy : ∀ (rows cols : Nat) (src dst : Nat → Cell) (i j : Nat), i < rows → j < cols →
    E.omatcopy rows cols src dst (j * rows + i) = src (i * cols + j)

/-! ## Containers -/

/-- `iarray_dtshape_t`; the number of dimensions is the length of the shape. -/
structure Dtshape where
  dtype : Dtype
  shape : List Nat
deriving DecidableEq

namespace Dtshape

def ndim (d : Dtshape) : Nat := d.shape.length

def dtypeSize (d : Dtshape) : Nat := d.dtype.size

end Dtshape

/-- `iarray_container_t`, with the two fields of `auxshape` that the code reads. -/
structure Container where
  dtshape : Dtshape
  offset : List Int
  index : List Nat
  catarr : CatArray
  storage : Storage
  containerViewed : Option Container
  transposed : Bool

/-- The fields that `iarray_container_new` sets, around an array. -/
def newContainer (dtshape : Dtshape) (storage : Storage) (catarr : CatArray) : Container where
  dtshape := dtshape
  offset := List.replicate dtshape.ndim 0
  index := List.range dtshape.ndim
  catarr := catarr
  storage := storage
  containerViewed := none
  transposed := false

/-- `iarray_container_new`: everything but the array, which the caller puts in. -/
def iarrayContainerNew (dtshape : Dtshape) (storage : Storage) : Result (CatArray → Container) :=
  if dimensionMax < dtshape.ndim then inaError .invalidNdim
  else .ok (newContainer dtshape storage)

theorem containerNew_ok {dtshape : Dtshape} {storage : Storage} {f : CatArray → Container}
    (h : iarrayContainerNew dtshape storage = .ok f) :
    dtshape.ndim ≤ dimensionMax ∧ f = newContainer dtshape storage := by
  unfold iarrayContainerNew at h
  split at h
  · cases h
  · cases h
    exact ⟨by omega, rfl⟩

/-- `iarray_empty` and `iarray_uninit`. -/
def iarrayEmpty (E : Backend) (dtshape : Dtshape) (storage : Storage) : Result Container := do
  let container ← iarrayContainerNew dtshape storage
  let catarr ← E.empty dtshape.dtypeSize dtshape.shape (iarrayCreateCatervaStorage storage)
  pure (container catarr)

/-- A container that is not a view and whose fields agree with its array. The array has the
lengths of the storage as Caterva received them. -/
structure Plain (c : Container) : Prop where
  containerViewed : c.containerViewed = none
  transposed : c.transposed = false
  ndim : c.dtshape.ndim ≤ dimensionMax
  offset : c.offset = List.replicate c.dtshape.ndim 0
  index : c.index = List.range c.dtshape.ndim
  fresh : Fresh c.catarr c.dtshape.dtypeSize c.dtshape.shape
    (iarrayCreateCatervaStorage c.storage)

theorem Plain.not_transposed {c : Container} (h : Plain c) : ¬ c.transposed :=
  Bool.not_eq_true _ ▸ h.transposed

theorem plain_newContainer {dtshape : Dtshape} {storage : Storage} {a : CatArray}
    (hNdim : dtshape.ndim ≤ dimensionMax)
    (hFresh : Fresh a dtshape.dtypeSize dtshape.shape (iarrayCreateCatervaStorage storage)) :
    Plain (newContainer dtshape storage a) :=
  ⟨rfl, rfl, hNdim, rfl, rfl, hFresh⟩

theorem Plain.catarr_ndim {c : Container} (h : Plain c) : c.catarr.ndim = c.dtshape.ndim := by
  rw [Dtshape.ndim, ← h.fresh.shape, CatArray.shape, length_shapeOf, CatArray.ndim]

theorem Plain.storage_eq {c : Container} (h : Plain c) (hFits : c.storage.Fits) :
    c.storage = ⟨c.catarr.chunkshape, c.catarr.blockshape⟩ :=
  h.fresh.storage_eq hFits

theorem Plain.chunkshape {c : Container} (h : Plain c)
    (hShort : ∀ n ∈ c.storage.chunkshape, n < 2 ^ 31) :
    c.catarr.chunkshape = c.storage.chunkshape :=
  ints_injective (h.fresh.chunkshape.trans (map_toInt32 hShort))

theorem Plain.blockshape {c : Container} (h : Plain c)
    (hShort : ∀ n ∈ c.storage.blockshape, n < 2 ^ 31) :
    c.catarr.blockshape = c.storage.blockshape :=
  ints_injective (h.fresh.blockshape.trans (map_toInt32 hShort))

theorem Plain.length_chunkshape {a : Container} (hPlain : Plain a) :
    a.catarr.chunkshape.length = a.dtshape.ndim := by
  rw [← hPlain.catarr_ndim, CatArray.chunkshape, chunkshapeOf, List.length_map, CatArray.ndim]

/-- A plain container without an axis of length zero. -/
theorem Plain.axes_pos {a : Container} (hPlain : Plain a) (hPos : ∀ n ∈ a.dtshape.shape, 0 < n) :
    ∀ x ∈ a.catarr.axes, 0 < x.shape := by
  intro x hx
  refine hPos _ ?_
  rw [← hPlain.fresh.shape]
  exact List.mem_map_of_mem hx

theorem Plain.setArray {c : Container} {a : CatArray} (h : Plain c)
    (hFresh : Fresh a c.dtshape.dtypeSize c.dtshape.shape (iarrayCreateCatervaStorage c.storage)) :
    Plain { c with catarr := a } :=
  ⟨h.containerViewed, h.transposed, h.ndim, h.offset, h.index, hFresh⟩

/-- A plain container of a given geometry. -/
structure PlainOf (dtshape : Dtshape) (storage : Storage) (c : Container) : Prop where
  plain : Plain c
  dtshape : c.dtshape = dtshape
  storage : c.storage = storage

theorem PlainOf.same_axes {c c' : Container} (h : PlainOf c.dtshape c.storage c')
    (hPlain : Plain c) : c'.catarr.axes = c.catarr.axes := by
  have hFresh := h.plain.fresh
  rw [h.dtshape, h.storage] at hFresh
  exact hFresh.axes_eq hPlain.fresh

theorem iarrayEmpty_plain {E : Backend} (hE : E.Lawful) {d : Dtshape} {st : Storage}
    {c : Container} (h : iarrayEmpty E d st = .ok c) : PlainOf d st c := by
  obtain ⟨container, hNew, h⟩ := Result.bind_eq_ok.mp h
  obtain ⟨catarr, hEmpty, h⟩ := Result.bind_eq_ok.mp h
  cases h
  obtain ⟨hMax, rfl⟩ := containerNew_ok hNew
  exact ⟨plain_newContainer hMax (hE.empty hEmpty), rfl, rfl⟩

/-- Caterva makes arrays of the geometry of the container. It holds of every container whose
array Caterva made. -/
def Made (E : Backend) (c : Container) : Prop :=
  ∃ a, E.empty c.dtshape.dtypeSize c.catarr.shape (iarrayCreateCatervaStorage c.storage) = .ok a

end IronArray
