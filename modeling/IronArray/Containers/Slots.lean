import IronArray.Containers.Good
import IronArray.Views.Window

/-!
# The slots of a shape

An `iarray_dtshape_t` has a slot for each of `CATERVA_MAX_DIM` axes, and
`iarray_container_dtshape_equal` compares them all. `Held` is a container with its `dtshape` as it
lies in memory, and `Call` the calls that make or change one: what they leave in the slots behind
the last axis is whatever the memory held, or the lengths from before a squeeze.

`Held.Coherent` is the invariant of all runs: the slots of the axes hold the shape of the
container. `dtshapeEqual_logical` is about the runs that leave zeros in the other slots.
-/

namespace IronArray

open Grid

/-! ## Memory -/

/-- The array `shape` of an `iarray_dtshape_t`. -/
abbrev Slots := Fin dimensionMax → Int

namespace Slots

def get (slots : Slots) (i : Nat) : Int := if h : i < dimensionMax then slots ⟨i, h⟩ else 0

/-- A loop over the first `n` axes that writes their slots. -/
def write (slots : Slots) (n : Nat) (f : Nat → Int) : Slots :=
  fun i => if i.val < n then f i else slots i

/-- The slots from `n` on hold zero. -/
def ClearFrom (slots : Slots) (n : Nat) : Prop := ∀ i : Fin dimensionMax, n ≤ i.val → slots i = 0

end Slots

/-- `iarray_dtshape_t` with every slot of `shape`. -/
structure DtshapeSlots where
  dtype : Dtype
  ndim : Nat
  shape : Slots
  ndim_le : ndim ≤ dimensionMax

/-- `iarray_container_dtshape_equal`. -/
def iarrayContainerDtshapeEqual (a b : DtshapeSlots) : Result Unit :=
  if a.dtype ≠ b.dtype then inaError .invalidDtype
  else if a.ndim ≠ b.ndim then inaError .invalidNdim
  else forM (List.finRange dimensionMax) fun i =>
    if a.shape i ≠ b.shape i then inaError .invalidShape else pure ()

/-- A structure in which only the slots of the axes are written. Axes without a slot are written
out of bounds. -/
def fillDtshape (memory : Slots) (dtype : Dtype) (ndim : Nat) (f : Nat → Int) :
    Result DtshapeSlots :=
  if h : ndim ≤ dimensionMax then .ok ⟨dtype, ndim, memory.write ndim f, h⟩
  else crash .outOfBounds

/-- One pass of the loop of `iarray_squeeze_index` over the slots of a view. -/
def squeezeSlotStep (mask : Nat → Bool) (state : Nat × Slots) (i : Nat) : Nat × Slots :=
  if mask i then (state.1 + 1, state.2)
  else (state.1, fun k => if k.val = i - state.1 then state.2.get i else state.2 k)

def DtshapeSlots.squeezeView (d : DtshapeSlots) (mask : Nat → Bool) : DtshapeSlots :=
  let state := (List.range d.ndim).foldl (squeezeSlotStep mask) (0, d.shape)
  { d with
    ndim := d.ndim - state.1
    shape := state.2
    ndim_le := (Nat.sub_le _ _).trans d.ndim_le }

/-! ## Calls -/

/-- A container with its `dtshape` as it lies in memory. -/
structure Held where
  container : Container
  dtshape : DtshapeSlots

/-- The constructors that take a `dtshape` and a storage. -/
inductive Constructor
  | empty | zeros | fill (value : Cell) | ones
  | fromBuffer (buffer : Nat → Cell) (buflen : Int)
  | block (generatorFn : ConstructorGeneratorFn)

def Constructor.call (E : Backend) (K : Makers) (d : Dtshape) (st : Storage) :
    Constructor → Result Container
  | empty => iarrayEmpty E d st
  | zeros => iarrayZeros K d st
  | fill value => iarrayFill K d value st
  | ones => iarrayOnes E.machine K d st
  | fromBuffer buffer buflen => iarrayFromBuffer K d buffer buflen st
  | block generatorFn => iarrayConstructorBlock E d generatorFn st

namespace Held

/-- The calls that begin a run, with what the memory of the structure held before: the caller's
for a constructor, which copies it whole, and that of `ina_mem_alloc` for a frame. -/
inductive Origin
  | construct (how : Constructor) (d : Dtshape) (st : Storage) (memory : Slots)
  | load (path : String) (contiguous : Bool) (memory : Slots)
  | fromCframe (frame : Nat → Nat) (frameLen : Int) (copy : Bool) (memory : Slots)

/-- A container made around an array, with the lengths of the array. -/
def around (memory : Slots) (c : Container) : Result Held := do
  let dtshape ← fillDtshape memory c.dtshape.dtype c.catarr.ndim fun i => c.catarr.shape.getD i 0
  pure ⟨c, dtshape⟩

def Origin.call (E : Backend) (K : Makers) : Origin → Result Held
  | construct how d st memory => do
    let c ← how.call E K d st
    let dtshape ← fillDtshape memory d.dtype d.ndim fun i => d.shape.getD i 0
    pure ⟨c, dtshape⟩
  | load path contiguous memory => do
    let c ← _iarrayContainerLoad E K path contiguous
    around memory c
  | fromCframe frame frameLen copy memory => do
    let c ← iarrayFromCframe K frame frameLen copy
    around memory c

/-- A call on a container. Slices and type views fill a structure on the stack; arrays of lengths
and masks are read for as many axes as there are. -/
inductive Call
  | copy (view : Bool) (st : Storage)
  | slice (start stop : List Int) (view : Bool) (st : Storage) (stack : Slots)
  | typeView (dtype : Dtype) (stack : Slots)
  | transpose
  | resize (newShape : Nat → Int) (start : Option (List Int))
  | insert (buffer : Nat → Cell) (buffersize axis insertStart : Int)
  | append (buffer : Nat → Cell) (buffersize axis : Int)
  | delete (axis deleteStart deleteLen : Int)
  | squeezeIndex (mask : Nat → Bool)
  | squeeze
  | setSlice (start stop : List Int) (src : Container)
  | setSliceBuffer (start stop : List Int) (buffer : Nat → Cell) (buflen : Int)

/-- The mask, as Caterva reads it for an array and the loop for a view. -/
def maskOf (h : Held) (mask : Nat → Bool) : List Bool :=
  (List.range (if h.container.containerViewed.isNone then h.container.catarr.ndim
    else h.container.dtshape.ndim)).map mask

/-- `iarray_squeeze_index`. -/
def squeezeAt (E : Backend) (h : Held) (mask : Nat → Bool) : Result Held := do
  let c ← iarraySqueezeIndex E h.container (h.maskOf mask)
  if h.container.containerViewed.isNone then
    if h.dtshape.ndim ≠ c.catarr.ndim then do
      let dtshape ← fillDtshape h.dtshape.shape h.dtshape.dtype c.catarr.ndim
        fun i => c.catarr.shape.getD i 0
      pure ⟨c, dtshape⟩
    else pure ⟨c, h.dtshape⟩
  else pure ⟨c, h.dtshape.squeezeView mask⟩

/-- The mask of `iarray_squeeze`. -/
def unitMask (h : Held) (i : Nat) : Bool := i < h.dtshape.ndim && h.dtshape.shape.get i == 1

/-- The lengths are written over the old ones. -/
def resized (h : Held) (c : Container) (f : Nat → Int) : Held :=
  ⟨c, { h.dtshape with shape := h.dtshape.shape.write h.dtshape.ndim f }⟩

def Call.call (E : Backend) (M : Mutators) (h : Held) : Call → Result Held
  | copy view st => do
    let c ← iarrayCopy E h.container view st
    pure ⟨c, h.dtshape⟩
  | slice start stop view st stack => do
    let c ← iarrayGetSlice E h.container start stop view st
    let dtshape ← fillDtshape stack h.dtshape.dtype h.dtshape.ndim fun i =>
      (h.container.storeStop stop).getD i 0 - (h.container.storeStart start).getD i 0
    pure ⟨c, dtshape⟩
  | typeView dtype stack => do
    let c ← iarrayGetTypeView E h.container dtype
    let dtshape ← fillDtshape stack dtype h.dtshape.ndim h.dtshape.shape.get
    pure ⟨c, dtshape⟩
  | transpose => do
    let c ← iarrayLinalgTranspose E h.container
    let dtshape ← fillDtshape (fun _ => 0) h.dtshape.dtype h.dtshape.ndim fun i =>
      h.dtshape.shape.get (h.dtshape.ndim - 1 - i)
    pure ⟨c, dtshape⟩
  | resize newShape start => do
    let c ← iarrayContainerResize M h.container
      ((List.range h.container.catarr.ndim).map newShape) start
    pure (h.resized c newShape)
  | insert buffer buffersize axis insertStart => do
    let c ← iarrayContainerInsert M h.container buffer buffersize axis insertStart
    pure (h.resized c fun i => c.catarr.shape.getD i 0)
  | append buffer buffersize axis => do
    let c ← iarrayContainerAppend M h.container buffer buffersize axis
    pure (h.resized c fun i => c.catarr.shape.getD i 0)
  | delete axis deleteStart deleteLen => do
    let c ← iarrayContainerDelete M h.container axis deleteStart deleteLen
    pure (h.resized c fun i => c.catarr.shape.getD i 0)
  | squeezeIndex mask => h.squeezeAt E mask
  | squeeze => h.squeezeAt E h.unitMask
  | setSlice start stop src => do
    let c ← iarraySetSlice E h.container start stop src
    pure ⟨c, h.dtshape⟩
  | setSliceBuffer start stop buffer buflen => do
    let c ← iarraySetSliceBuffer E h.container start stop buffer buflen
    pure ⟨c, h.dtshape⟩

/-- The containers that runs reach whose calls meet the conditions `P` and `Q`. -/
inductive Reached (E : Backend) (M : Mutators) (K : Makers) (P : Origin → Prop)
    (Q : Held → Call → Prop) : Held → Prop
  | origin {o : Origin} {h : Held} (hMeets : P o) (ho : o.call E K = .ok h) : Reached E M K P Q h
  | call {c : Call} {h h' : Held} (hRun : Reached E M K P Q h) (hMeets : Q h c)
      (hc : c.call E M h = .ok h') : Reached E M K P Q h'

/-! ## Runs that leave zeros -/

/-- How many of the first `n` axes the mask keeps. -/
def keptAxes (mask : Nat → Bool) (n : Nat) : Nat := ((List.range n).map mask).count false

/-- The memory holds zeros behind the axes of the new container. -/
def Origin.Tidy (K : Makers) : Origin → Prop
  | construct _ d _ memory => memory.ClearFrom d.ndim
  | load path _ memory => ∀ a, K.openFile path = .ok a → memory.ClearFrom a.ndim
  | fromCframe frame frameLen copy memory =>
    ∀ a, K.fromCframe frame frameLen copy = .ok a → memory.ClearFrom a.ndim

/-- The stack holds zeros behind the axes, and so do the slots that a squeeze gives up. -/
def Call.Tidy (h : Held) : Call → Prop
  | slice _ _ _ _ stack => stack.ClearFrom h.dtshape.ndim
  | typeView _ stack => stack.ClearFrom h.dtshape.ndim
  | squeezeIndex mask => h.dtshape.shape.ClearFrom (keptAxes mask h.dtshape.ndim)
  | squeeze => h.dtshape.shape.ClearFrom (keptAxes h.unitMask h.dtshape.ndim)
  | _ => True

end Held

/-! ## Slots -/

namespace Slots

theorem get_of_lt {slots : Slots} {i : Nat} (hi : i < dimensionMax) :
    slots.get i = slots ⟨i, hi⟩ := dif_pos hi

theorem get_write {slots : Slots} {n i : Nat} {f : Nat → Int} (hi : i < n)
    (hn : n ≤ dimensionMax) : (slots.write n f).get i = f i := by
  rw [get_of_lt (by omega)]
  exact if_pos hi

theorem ClearFrom.mono {slots : Slots} {m n : Nat} (h : slots.ClearFrom n) (hLe : n ≤ m) :
    slots.ClearFrom m := fun i hi => h i (hLe.trans hi)

theorem ClearFrom.write {slots : Slots} {n : Nat} (h : slots.ClearFrom n) (f : Nat → Int) :
    (slots.write n f).ClearFrom n := by
  intro i hi
  show (if i.val < n then f i else slots i) = 0
  rw [if_neg (by omega)]
  exact h i hi

end Slots

theorem fillDtshape_ok {memory : Slots} {dtype : Dtype} {n : Nat} {f : Nat → Int}
    {d : DtshapeSlots} (h : fillDtshape memory dtype n f = .ok d) :
    ∃ hn, d = ⟨dtype, n, memory.write n f, hn⟩ := by
  unfold fillDtshape at h
  split at h
  · cases h
    exact ⟨_, rfl⟩
  · cases h

/-! ## The comparison -/

namespace DtshapeSlots

/-- Types and ranks agree, and so do the lengths of the axes. -/
structure SameAxes (a b : DtshapeSlots) : Prop where
  dtype : a.dtype = b.dtype
  ndim : a.ndim = b.ndim
  shape : ∀ i < a.ndim, a.shape.get i = b.shape.get i

end DtshapeSlots

theorem dtshapeEqual_iff {a b : DtshapeSlots} : iarrayContainerDtshapeEqual a b = .ok () ↔
    a.dtype = b.dtype ∧ a.ndim = b.ndim ∧ a.shape = b.shape := by
  unfold iarrayContainerDtshapeEqual
  by_cases hDtype : a.dtype = b.dtype
  · by_cases hNdim : a.ndim = b.ndim
    · rw [if_neg (not_not.mpr hDtype), if_neg (not_not.mpr hNdim), Result.forM_eq_ok]
      refine ⟨fun h => ⟨hDtype, hNdim, funext fun i => ?_⟩, fun h i _ => ?_⟩
      · by_contra hne
        have hStep := h i (List.mem_finRange i)
        rw [if_pos hne] at hStep
        cases hStep
      · rw [if_neg (not_not.mpr (congrFun h.2.2 i))]
        rfl
    · rw [if_neg (not_not.mpr hDtype), if_pos hNdim]
      exact ⟨nofun, fun h => absurd h.2.1 hNdim⟩
  · rw [if_pos hDtype]
    exact ⟨nofun, fun h => absurd h.1 hDtype⟩

/-- For one pair the comparison is right unless the axes agree and some slot behind them does
not. -/
theorem dtshapeEqual_right_iff {a b : DtshapeSlots} :
    (iarrayContainerDtshapeEqual a b = .ok () ↔ a.SameAxes b) ↔
      (a.SameAxes b → ∀ i : Fin dimensionMax, a.ndim ≤ i.val → a.shape i = b.shape i) := by
  rw [dtshapeEqual_iff]
  constructor
  · intro h hSame i _
    exact congrFun (h.mpr hSame).2.2 i
  · intro h
    constructor
    · rintro ⟨hDtype, hNdim, hShape⟩
      exact ⟨hDtype, hNdim, fun i _ => by rw [hShape]⟩
    · intro hSame
      refine ⟨hSame.dtype, hSame.ndim, funext fun i => ?_⟩
      by_cases hi : i.val < a.ndim
      · have hAxis := hSame.shape i hi
        rwa [Slots.get_of_lt i.isLt, Slots.get_of_lt i.isLt] at hAxis
      · exact h hSame i (by omega)

/-! ## The loop over the slots of a view -/

namespace Held

theorem keptAxes_succ (mask : Nat → Bool) (n : Nat) :
    keptAxes mask (n + 1) = keptAxes mask n + if mask n then 0 else 1 := by
  rw [keptAxes, List.range_succ, List.map_append, List.count_append]
  cases hMask : mask n <;> simp [keptAxes, hMask]

theorem keptAxes_mono (mask : Nat → Bool) {m n : Nat} (h : m ≤ n) :
    keptAxes mask m ≤ keptAxes mask n :=
  ((List.range_sublist.mpr h).map mask).count_le false

/-- After `n` passes the slots behind the kept axes are untouched. -/
theorem squeezeSlots_frame (mask : Nat → Bool) (slots : Slots) (n : Nat) :
    ((List.range n).foldl (squeezeSlotStep mask) (0, slots)).1 + keptAxes mask n = n ∧
      ∀ k : Fin dimensionMax, keptAxes mask n ≤ k.val →
        ((List.range n).foldl (squeezeSlotStep mask) (0, slots)).2 k = slots k := by
  induction n with
  | zero => exact ⟨rfl, fun _ _ => rfl⟩
  | succ n ih =>
    obtain ⟨hCount, hFrame⟩ := ih
    rw [List.range_succ, List.foldl_append, List.foldl_cons, List.foldl_nil, keptAxes_succ,
      squeezeSlotStep]
    cases hMask : mask n with
    | true => exact ⟨by simp; omega, fun k hk => hFrame k (by simpa using hk)⟩
    | false =>
      simp only [Bool.false_eq_true, if_false]
      refine ⟨by omega, fun k hk => ?_⟩
      rw [if_neg (by omega)]
      exact hFrame k (by omega)

/-- The loop over the slots does what the loop over the lists does. -/
theorem squeezeSlots_shape (mask : Nat → Bool) {slots : Slots} {shape : List Nat}
    (index : List Nat) (hLe : shape.length ≤ dimensionMax)
    (hShape : ∀ i < shape.length, slots.get i = shape.getD i 0) {n : Nat}
    (hn : n ≤ shape.length) :
    let lists := (List.range n).foldl (squeezeStep ((List.range shape.length).map mask))
      (0, shape, index)
    let state := (List.range n).foldl (squeezeSlotStep mask) (0, slots)
    lists.1 = state.1 ∧ lists.2.1.length = shape.length ∧
      ∀ i < shape.length, state.2.get i = lists.2.1.getD i 0 := by
  induction n with
  | zero => exact ⟨rfl, rfl, hShape⟩
  | succ n ih =>
    obtain ⟨hInc, hLen, hGet⟩ := ih (by omega)
    intro lists state
    have hMaskAt : ((List.range shape.length).map mask).getD n false = mask n := by
      rw [List.getD_eq_getElem _ _ (by simp; omega), List.getElem_map, List.getElem_range]
    simp only [lists, state]
    rw [List.range_succ, List.foldl_append, List.foldl_append, List.foldl_cons, List.foldl_nil,
      List.foldl_cons, List.foldl_nil, squeezeStep, squeezeSlotStep, hMaskAt]
    cases hMask : mask n with
    | true => exact ⟨congrArg (· + 1) hInc, hLen, hGet⟩
    | false =>
      simp only [Bool.false_eq_true, if_false]
      refine ⟨hInc, by rw [List.length_set, hLen], fun i hi => ?_⟩
      rw [Slots.get_of_lt (by omega), List.getD_eq_getElem?_getD, List.getElem?_set, hLen, hInc]
      show (if i = _ then _ else _) = _
      by_cases hEq : i = n - ((List.range n).foldl (squeezeSlotStep mask) (0, slots)).1
      · rw [if_pos hEq, if_pos hEq.symm, if_pos (by omega), hGet n (by omega)]
        rfl
      · rw [if_neg hEq, if_neg (Ne.symm hEq), ← List.getD_eq_getElem?_getD, ← hGet i hi]
        exact (Slots.get_of_lt (by omega)).symm

end Held

/-! ## The invariant of all runs -/

section Coherent

variable {E : Backend} {M : Mutators} {K : Makers}

theorem newAround_rank {d : Dtshape} {st : Storage} {c : Container}
    {make : Nat → List Nat → CatervaStorage → Result CatArray}
    (hMake : ∀ {a}, make d.dtypeSize d.shape (iarrayCreateCatervaStorage st) = .ok a →
      Asked a d.shape (iarrayCreateCatervaStorage st))
    (h : newAround d st make = .ok c) : c.dtshape = d ∧ c.catarr.ndim = d.ndim := by
  obtain ⟨container, hNew, h⟩ := Result.bind_eq_ok.mp h
  obtain ⟨a, ha, h⟩ := Result.bind_eq_ok.mp h
  obtain ⟨-, rfl⟩ := containerNew_ok hNew
  cases h
  exact ⟨rfl, (hMake ha).rank⟩

theorem iarrayEmpty_rank (hE : E.Effects) {d : Dtshape} {st : Storage} {c : Container}
    (h : iarrayEmpty E d st = .ok c) : c.dtshape = d ∧ c.catarr.ndim = d.ndim :=
  newAround_rank hE.empty h

theorem iarrayFill_rank (hK : K.Effects) {d : Dtshape} {st : Storage} {value : Cell}
    {c : Container} (h : iarrayFill K d value st = .ok c) :
    c.dtshape = d ∧ c.catarr.ndim = d.ndim :=
  newAround_rank hK.full h

theorem Constructor.call_rank (hE : E.Effects) (hK : K.Effects) {how : Constructor} {d : Dtshape}
    {st : Storage} {c : Container} (h : how.call E K d st = .ok c) :
    c.dtshape = d ∧ c.catarr.ndim = d.ndim := by
  cases how with
  | empty => exact iarrayEmpty_rank hE h
  | zeros => exact newAround_rank hK.zeros h
  | fill value => exact iarrayFill_rank hK h
  | ones => exact iarrayFill_rank hK h
  | fromBuffer buffer buflen =>
    change iarrayFromBuffer K d buffer buflen st = .ok c at h
    refine newAround_rank ?_ h
    intro a ha
    split at ha
    · cases ha
    · exact hK.fromBuffer ha
  | block generatorFn =>
    obtain ⟨a, ha, h⟩ := Result.bind_eq_ok.mp h
    obtain ⟨_, _, h⟩ := Result.bind_eq_ok.mp h
    obtain ⟨_, _, h⟩ := Result.bind_eq_ok.mp h
    obtain ⟨catarr, hLoop, h⟩ := Result.bind_eq_ok.mp h
    obtain ⟨chunk, -, rfl⟩ := CatArray.foldlM_updateChunk.mp hLoop
    cases h
    have hRank := iarrayEmpty_rank hE ha
    exact ⟨hRank.1, hRank.2⟩

theorem copy_rank (hE : E.Effects) {src c : Container} {view : Bool} {st : Storage}
    (hRank : src.dtshape.ndim ≤ src.catarr.ndim) (h : iarrayCopy E src view st = .ok c) :
    c.dtshape = src.dtshape ∧ src.dtshape.ndim ≤ c.catarr.ndim := by
  by_cases hView : src.containerViewed.isSome
  · have hInv : StoreStable E fun c => c.dtshape = src.dtshape ∧
        src.dtshape.ndim ≤ c.catarr.ndim := by
      constructor
      · exact fun _ _ h => h
      · intro c buffer m buflen s t a h hSet
        refine ⟨h.1, h.2.trans ?_⟩
        rw [CatArray.ndim, CatArray.ndim, hE.setSliceBuffer hSet]
    refine iarrayCopy_inv hInv hView (fun dest hDest => ?_) h
    have hNew := iarrayEmpty_rank hE hDest
    exact ⟨hNew.1, hNew.2.ge⟩
  · unfold iarrayCopy at h
    rw [if_neg (by simp [hView]), if_neg hView] at h
    obtain ⟨container, hNew, h⟩ := Result.bind_eq_ok.mp h
    obtain ⟨a, ha, h⟩ := Result.bind_eq_ok.mp h
    obtain ⟨-, rfl⟩ := containerNew_ok hNew
    cases h
    refine ⟨rfl, hRank.trans ?_⟩
    show src.catarr.ndim ≤ a.ndim
    rw [(hE.copy ha).rank, CatArray.shape, length_shapeOf, CatArray.ndim]

theorem viewNew_rank (hE : E.Effects) {src v : Container} {d : Dtshape} {offset : List Int}
    (hRank : d.ndim ≤ src.catarr.ndim) (h : _iarrayViewNew E src d offset = .ok v) :
    v.dtshape = d ∧ d.ndim ≤ v.catarr.ndim := by
  obtain ⟨a, ha, rfl⟩ := viewNew_ok h
  refine ⟨rfl, ?_⟩
  show d.ndim ≤ a.ndim
  rw [(hE.empty ha).rank, List.length_take, CatArray.shape, length_shapeOf]
  exact le_min le_rfl hRank

theorem getSlice_rank (hE : E.Effects) {src c : Container} {start stop : List Int} {view : Bool}
    {st : Storage} (hRank : src.dtshape.ndim ≤ src.catarr.ndim)
    (h : iarrayGetSlice E src start stop view st = .ok c) :
    c.dtshape = src.sliceDtshape start stop ∧ src.dtshape.ndim ≤ c.catarr.ndim ∧
      ¬ src.Reversed start stop := by
  have hNdim : (src.sliceDtshape start stop).ndim = src.dtshape.ndim := by
    rw [Dtshape.ndim, Container.sliceDtshape, List.length_map, List.length_range]
  obtain ⟨_, hCheck, hv⟩ := Result.bind_eq_ok.mp h
  have hForward := checkSlice_reversed hCheck
  cases view with
  | true =>
    have hView := viewNew_rank hE (hNdim.le.trans hRank) hv
    exact ⟨hView.1, hNdim ▸ hView.2, hForward⟩
  | false =>
    obtain ⟨a, rfl, ha, -⟩ := getSlice_copy_ok hE h
    exact ⟨rfl, hRank.trans ha.ge, hForward⟩

theorem changeAxis_rank {c c' : Container} {call : CatArray → Result CatArray}
    (hCall : ∀ {b}, call c.catarr = .ok b → Resized c.catarr b) (h : changeAxis c call = .ok c') :
    c'.dtshape = ⟨c.dtshape.dtype, c'.catarr.shape.take c.dtshape.ndim⟩ ∧
      c'.catarr.ndim = c.catarr.ndim := by
  unfold changeAxis at h
  split at h
  · cases h
  · obtain ⟨b, hb, h⟩ := Result.bind_eq_ok.mp h
    cases h
    exact ⟨rfl, ndim_of_chunkshape (hCall hb).chunkshape⟩

theorem containerResize_rank (hM : M.Effects) {c c' : Container} {newShape : List Int}
    {start : Option (List Int)} (h : iarrayContainerResize M c newShape start = .ok c') :
    c'.dtshape = ⟨c.dtshape.dtype, c'.catarr.shape.take c.dtshape.ndim⟩ ∧
      c'.catarr.ndim = c.catarr.ndim ∧ newShape = ints c'.catarr.shape := by
  unfold iarrayContainerResize at h
  split at h
  · cases h
  · obtain ⟨b, hb, h⟩ := Result.bind_eq_ok.mp h
    cases h
    obtain ⟨hResized, rfl⟩ := hM.resize hb
    have hInts : (ints b.shape).map Int.toNat = b.shape := by
      simp [ints, Function.comp_def]
    exact ⟨by rw [hInts], ndim_of_chunkshape hResized.chunkshape, rfl⟩

end Coherent

/-- The slots of the axes hold a shape. -/
structure DtshapeSlots.Holds (d : DtshapeSlots) (s : Dtshape) : Prop where
  dtype : d.dtype = s.dtype
  ndim : d.ndim = s.ndim
  shape : ∀ i < d.ndim, d.shape.get i = s.shape.getD i 0

theorem holds_fill {memory : Slots} {dtype : Dtype} {n : Nat} {f : Nat → Int} {d : DtshapeSlots}
    {s : Dtshape} (h : fillDtshape memory dtype n f = .ok d) (hDtype : dtype = s.dtype)
    (hNdim : n = s.ndim) (hShape : ∀ i < n, f i = s.shape.getD i 0) : d.Holds s := by
  obtain ⟨hn, rfl⟩ := fillDtshape_ok h
  refine ⟨hDtype, hNdim, fun i hi => ?_⟩
  rw [Slots.get_write hi hn]
  exact hShape i hi

namespace Held

variable {E : Backend} {M : Mutators} {K : Makers}

/-- The structure holds the shape of the container, whose array has no fewer axes. -/
structure Coherent (h : Held) : Prop where
  holds : h.dtshape.Holds h.container.dtshape
  rank : h.container.dtshape.ndim ≤ h.container.catarr.ndim

theorem around_coherent {dtype : Dtype} {a : CatArray} {memory : Slots} {h : Held}
    (ho : around memory (containerAround dtype a) = .ok h) : h.Coherent := by
  obtain ⟨d, hd, ho⟩ := Result.bind_eq_ok.mp ho
  cases ho
  have hNdim : a.ndim = (containerAround dtype a).dtshape.ndim := (length_shapeOf a.axes).symm
  exact ⟨holds_fill hd rfl hNdim fun _ _ => rfl, hNdim.ge⟩

theorem Origin.coherent (hE : E.Effects) (hK : K.Effects) {o : Origin} {h : Held}
    (ho : o.call E K = .ok h) : h.Coherent := by
  cases o with
  | construct how d st memory =>
    obtain ⟨c, hc, ho⟩ := Result.bind_eq_ok.mp ho
    obtain ⟨dtshape, hd, ho⟩ := Result.bind_eq_ok.mp ho
    cases ho
    obtain ⟨hDtshape, hRank⟩ := Constructor.call_rank hE hK hc
    constructor
    · rw [hDtshape]
      exact holds_fill hd rfl rfl fun _ _ => rfl
    · rw [hDtshape, hRank]
  | load path contiguous memory =>
    obtain ⟨c, hc, ho⟩ := Result.bind_eq_ok.mp ho
    obtain ⟨_, _, hc⟩ := Result.bind_eq_ok.mp hc
    obtain ⟨a, _, hc⟩ := Result.bind_eq_ok.mp hc
    obtain ⟨dtype, _, hc⟩ := Result.bind_eq_ok.mp hc
    cases hc
    exact around_coherent ho
  | fromCframe frame frameLen copy memory =>
    obtain ⟨c, hc, ho⟩ := Result.bind_eq_ok.mp ho
    obtain ⟨a, _, hc⟩ := Result.bind_eq_ok.mp hc
    obtain ⟨dtype, _, hc⟩ := Result.bind_eq_ok.mp hc
    cases hc
    exact around_coherent ho

/-- The shape is read off the array again, for the axes that the structure has. -/
theorem Coherent.resized {h : Held} {c : Container} {f : Nat → Int} (hc : h.Coherent)
    (hDtshape : c.dtshape =
      ⟨h.container.dtshape.dtype, c.catarr.shape.take h.container.dtshape.ndim⟩)
    (hRank : c.catarr.ndim = h.container.catarr.ndim)
    (hf : ∀ i < h.container.dtshape.ndim, f i = c.catarr.shape.getD i 0) :
    (h.resized c f).Coherent := by
  have hNdim : c.dtshape.ndim = h.container.dtshape.ndim := by
    rw [Dtshape.ndim, hDtshape, List.length_take, CatArray.shape, length_shapeOf]
    exact min_eq_left (hc.rank.trans hRank.ge)
  have hSame : h.dtshape.ndim = h.container.dtshape.ndim := hc.holds.ndim
  constructor
  · refine ⟨?_, hSame.trans hNdim.symm, fun i hi => ?_⟩
    · show h.dtshape.dtype = c.dtshape.dtype
      rw [hDtshape]
      exact hc.holds.dtype
    · change i < h.dtshape.ndim at hi
      show (h.dtshape.shape.write h.dtshape.ndim f).get i = ((c.dtshape.shape.getD i 0 : Nat) : Int)
      rw [Slots.get_write hi h.dtshape.ndim_le, hf i (by omega), hDtshape,
        List.getD_eq_getElem?_getD, List.getD_eq_getElem?_getD, List.getElem?_take,
        if_pos (by omega)]
  · show c.dtshape.ndim ≤ c.catarr.ndim
    rw [hNdim, hRank]
    exact hc.rank

theorem maskOf_plain {h : Held} (mask : Nat → Bool)
    (hPlain : h.container.containerViewed.isNone) :
    h.maskOf mask = (List.range h.container.catarr.ndim).map mask := by
  rw [maskOf, if_pos hPlain]

theorem maskOf_view {h : Held} (mask : Nat → Bool)
    (hView : ¬ h.container.containerViewed.isNone) :
    h.maskOf mask = (List.range h.container.dtshape.ndim).map mask := by
  rw [maskOf, if_neg hView]

/-- A squeeze of a plain container, by the rank of the array that Caterva leaves. -/
theorem squeezeAt_plain {h h' : Held} {mask : Nat → Bool} (hc : h.Coherent)
    (hPlain : h.container.containerViewed.isNone) (hs : h.squeezeAt E mask = .ok h') :
    ∃ b, E.squeezeIndex h.container.catarr (h.maskOf mask) = .ok b ∧ h'.container.catarr = b ∧
      ((h.dtshape.ndim = b.ndim ∧ h'.dtshape = h.dtshape ∧
          h'.container.dtshape = h.container.dtshape) ∨
        (h'.container.dtshape = ⟨h.container.dtshape.dtype, b.shape⟩ ∧
          fillDtshape h.dtshape.shape h.dtshape.dtype b.ndim (fun i => b.shape.getD i 0) =
            .ok h'.dtshape)) := by
  obtain ⟨c, hSqueeze, hs⟩ := Result.bind_eq_ok.mp hs
  rw [iarraySqueezeIndex, if_pos hPlain] at hSqueeze
  obtain ⟨b, hb, hSqueeze⟩ := Result.bind_eq_ok.mp hSqueeze
  rw [if_pos hPlain] at hs
  by_cases hSame : h.container.dtshape.ndim = b.ndim
  · rw [if_neg (not_not.mpr hSame)] at hSqueeze
    cases hSqueeze
    rw [if_neg (not_not.mpr (hc.holds.ndim.trans hSame))] at hs
    cases hs
    exact ⟨b, hb, rfl, .inl ⟨hc.holds.ndim.trans hSame, rfl, rfl⟩⟩
  · rw [if_pos hSame] at hSqueeze
    cases hSqueeze
    rw [if_pos (show h.dtshape.ndim ≠ b.ndim by rw [hc.holds.ndim]; exact hSame)] at hs
    obtain ⟨d, hd, hs⟩ := Result.bind_eq_ok.mp hs
    cases hs
    exact ⟨b, hb, rfl, .inr ⟨rfl, hd⟩⟩

theorem squeezeAt_view {h h' : Held} {mask : Nat → Bool}
    (hView : ¬ h.container.containerViewed.isNone) (hs : h.squeezeAt E mask = .ok h') :
    iarraySqueezeIndex E h.container (h.maskOf mask) = .ok h'.container ∧
      h'.dtshape = h.dtshape.squeezeView mask := by
  obtain ⟨c, hSqueeze, hs⟩ := Result.bind_eq_ok.mp hs
  rw [if_neg hView] at hs
  cases hs
  exact ⟨hSqueeze, rfl⟩

theorem squeezeView_ndim (d : DtshapeSlots) (mask : Nat → Bool) : (d.squeezeView mask).ndim =
    d.ndim - ((List.range d.ndim).foldl (squeezeSlotStep mask) (0, d.shape)).1 := rfl

theorem squeezeView_shape (d : DtshapeSlots) (mask : Nat → Bool) : (d.squeezeView mask).shape =
    ((List.range d.ndim).foldl (squeezeSlotStep mask) (0, d.shape)).2 := rfl

/-- The compacted slots hold the compacted shape. -/
theorem holds_squeezeView {d : DtshapeSlots} {s : Dtshape} (mask : Nat → Bool) (index : List Nat)
    (h : d.Holds s) :
    let lists := (List.range s.ndim).foldl (squeezeStep ((List.range s.ndim).map mask))
      (0, s.shape, index)
    (d.squeezeView mask).Holds ⟨s.dtype, lists.2.1.take (s.ndim - lists.1)⟩ := by
  intro lists
  have hNdim : d.ndim = s.shape.length := h.ndim
  obtain ⟨hInc, hLen, hGet⟩ := squeezeSlots_shape mask index (hNdim ▸ d.ndim_le)
    (hNdim ▸ h.shape) (le_refl _)
  change lists.1 = _ at hInc
  change lists.2.1.length = s.ndim at hLen
  change ∀ i < s.ndim, _ = ((lists.2.1.getD i 0 : Nat) : Int) at hGet
  have hRank : (d.squeezeView mask).ndim = s.ndim - lists.1 := by
    rw [squeezeView_ndim, hInc, h.ndim]
    rfl
  refine ⟨h.dtype, ?_, fun i hi => ?_⟩
  · show _ = (lists.2.1.take (s.ndim - lists.1)).length
    rw [hRank, List.length_take, hLen]
    exact (min_eq_left (Nat.sub_le _ _)).symm
  · rw [hRank] at hi
    rw [squeezeView_shape, h.ndim]
    refine (hGet i (by omega)).trans ?_
    rw [List.getD_eq_getElem?_getD, List.getD_eq_getElem?_getD, List.getElem?_take, if_pos hi]

theorem Coherent.squeezeView {h : Held} {c : Container} {mask : Nat → Bool} (hc : h.Coherent)
    (hView : ¬ h.container.containerViewed.isNone)
    (hs : iarraySqueezeIndex E h.container (h.maskOf mask) = .ok c) :
    Coherent ⟨c, h.dtshape.squeezeView mask⟩ := by
  have hLe := squeezeIndex_ndim (by simpa [Option.isSome_iff_ne_none] using hView) hs
  rw [maskOf_view mask hView, iarraySqueezeIndex, if_neg hView] at hs
  cases hs
  exact ⟨holds_squeezeView mask h.container.index hc.holds, hLe.trans hc.rank⟩

/-- Caterva's mask keeps no fewer axes than the structure has of them. -/
theorem squeezeAt_rank (hE : E.Effects) {h : Held} {mask : Nat → Bool} {b : CatArray}
    (hc : h.Coherent) (hPlain : h.container.containerViewed.isNone)
    (hb : E.squeezeIndex h.container.catarr (h.maskOf mask) = .ok b) :
    keptAxes mask h.dtshape.ndim ≤ b.ndim := by
  rw [maskOf_plain mask hPlain] at hb
  rw [squeezeIndex_rank hE (by simp) hb]
  exact keptAxes_mono mask (hc.holds.ndim.le.trans hc.rank)

theorem Coherent.squeezeAt {h h' : Held} {mask : Nat → Bool} (hc : h.Coherent)
    (hs : h.squeezeAt E mask = .ok h') : h'.Coherent := by
  by_cases hPlain : h.container.containerViewed.isNone
  · obtain ⟨b, -, hArray, ⟨hSame, hSlots, hDtshape⟩ | ⟨hDtshape, hFill⟩⟩ :=
      squeezeAt_plain hc hPlain hs
    · refine ⟨by rw [hSlots, hDtshape]; exact hc.holds, ?_⟩
      rw [hArray, hDtshape, ← hc.holds.ndim, hSame]
    · have hRank : (⟨h.container.dtshape.dtype, b.shape⟩ : Dtshape).ndim = b.ndim :=
        length_shapeOf b.axes
      rw [← hDtshape] at hRank
      refine ⟨?_, by rw [hRank, hArray]⟩
      rw [hDtshape]
      exact holds_fill hFill hc.holds.dtype (length_shapeOf b.axes).symm fun _ _ => rfl
  · obtain ⟨hSqueeze, hSlots⟩ := squeezeAt_view hPlain hs
    have hView := hc.squeezeView hPlain hSqueeze
    rw [← hSlots] at hView
    exact hView

theorem setArray_coherent (hE : E.Effects) {h : Held} {c : Container} (hc : h.Coherent)
    (hWrite : Overwritten E h.container c) : Coherent ⟨c, h.dtshape⟩ := by
  obtain ⟨b, _, _, _, _, _, hb, rfl⟩ := hWrite
  refine ⟨hc.holds, ?_⟩
  show h.container.dtshape.ndim ≤ b.ndim
  rw [CatArray.ndim, hE.setSliceBuffer hb]
  exact hc.rank

/-- A slice, as a view or as a copy. -/
theorem Coherent.slice (hE : E.Effects) {h : Held} {v : Container} {start stop : List Int}
    {view : Bool} {st : Storage} {stack : Slots} {d : DtshapeSlots} (hc : h.Coherent)
    (hv : iarrayGetSlice E h.container start stop view st = .ok v)
    (hd : fillDtshape stack h.dtshape.dtype h.dtshape.ndim (fun i =>
      (h.container.storeStop stop).getD i 0 - (h.container.storeStart start).getD i 0) = .ok d) :
    Coherent ⟨v, d⟩ := by
  obtain ⟨hDtshape, hRank, hForward⟩ := getSlice_rank hE hc.rank hv
  have hNdim : (h.container.sliceDtshape start stop).ndim = h.container.dtshape.ndim := by
    rw [Dtshape.ndim, Container.sliceDtshape, List.length_map, List.length_range]
  constructor
  · show d.Holds v.dtshape
    rw [hDtshape]
    refine holds_fill hd hc.holds.dtype (hc.holds.ndim.trans hNdim.symm) fun i hi => ?_
    rw [hc.holds.ndim] at hi
    have hAt : (h.container.sliceDtshape start stop).shape.getD i 0 =
        ((h.container.storeStop stop).getD i 0 - (h.container.storeStart start).getD i 0).toNat := by
      simp [Container.sliceDtshape, List.getD_eq_getElem?_getD, hi]
    have hLe := not_lt.mp fun hlt => hForward ⟨i, hi, hlt⟩
    rw [hAt]
    omega
  · show v.dtshape.ndim ≤ v.catarr.ndim
    rw [hDtshape, hNdim]
    exact hRank

theorem Coherent.typeView (hE : E.Effects) {h : Held} {v : Container} {dtype : Dtype}
    {stack : Slots} {d : DtshapeSlots} (hc : h.Coherent)
    (hv : iarrayGetTypeView E h.container dtype = .ok v)
    (hd : fillDtshape stack dtype h.dtshape.ndim h.dtshape.shape.get = .ok d) :
    Coherent ⟨v, d⟩ := by
  have hView : v.dtshape = ⟨dtype, h.container.dtshape.shape⟩ ∧ _ :=
    viewNew_rank hE (d := ⟨dtype, h.container.dtshape.shape⟩) hc.rank hv
  constructor
  · show d.Holds v.dtshape
    rw [hView.1]
    exact holds_fill hd rfl hc.holds.ndim hc.holds.shape
  · show v.dtshape.ndim ≤ v.catarr.ndim
    rw [hView.1]
    exact hView.2

theorem Coherent.transpose (hE : E.Effects) {h : Held} {v : Container} {memory : Slots}
    {d : DtshapeSlots} (hc : h.Coherent) (hv : iarrayLinalgTranspose E h.container = .ok v)
    (hd : fillDtshape memory h.dtshape.dtype h.dtshape.ndim
      (fun i => h.dtshape.shape.get (h.dtshape.ndim - 1 - i)) = .ok d) : Coherent ⟨v, d⟩ := by
  obtain ⟨-, -, b, hb, rfl⟩ := transpose_ok hv
  have hNdim : (⟨h.container.dtshape.dtype, h.container.dtshape.shape.reverse⟩ : Dtshape).ndim =
      h.container.dtshape.ndim := List.length_reverse
  have hLen : h.dtshape.ndim = h.container.dtshape.shape.length := hc.holds.ndim
  obtain ⟨hDtshape, hRank⟩ := viewNew_rank hE (hNdim.le.trans hc.rank) hb
  rw [← hDtshape] at hRank
  refine ⟨?_, hRank⟩
  show d.Holds b.dtshape
  rw [hDtshape]
  refine holds_fill hd hc.holds.dtype (hc.holds.ndim.trans hNdim.symm) fun i hi => ?_
  rw [hc.holds.shape _ (by omega), List.getD_eq_getElem _ _ (by omega),
    List.getD_eq_getElem _ _ (by rw [List.length_reverse]; omega), List.getElem_reverse]
  simp only [hLen]

theorem Coherent.resize (hM : M.Effects) {h : Held} {v : Container} {newShape : Nat → Int}
    {start : Option (List Int)} (hc : h.Coherent)
    (hv : iarrayContainerResize M h.container
      ((List.range h.container.catarr.ndim).map newShape) start = .ok v) :
    (h.resized v newShape).Coherent := by
  obtain ⟨hDtshape, hRank, hInts⟩ := containerResize_rank hM hv
  apply hc.resized hDtshape hRank
  intro i hi
  have hAt := congrArg (·.getD i 0) hInts
  simp only [getD_ints] at hAt
  rw [← hAt, List.getD_eq_getElem _ _ (by simpa using hi.trans_le hc.rank), List.getElem_map,
    List.getElem_range]

theorem Coherent.changeAxis {h : Held} {v : Container} {call : CatArray → Result CatArray}
    (hc : h.Coherent) (hCall : ∀ {b}, call h.container.catarr = .ok b → Resized h.container.catarr b)
    (hv : changeAxis h.container call = .ok v) :
    (h.resized v fun i => v.catarr.shape.getD i 0).Coherent := by
  obtain ⟨hDtshape, hRank⟩ := changeAxis_rank hCall hv
  exact hc.resized hDtshape hRank fun _ _ => rfl

/-- Every call keeps the invariant. -/
theorem Call.coherent (hE : E.Effects) (hM : M.Effects) {c : Call} {h h' : Held} (hc : h.Coherent)
    (hCall : c.call E M h = .ok h') : h'.Coherent := by
  cases c with
  | copy view st =>
    obtain ⟨v, hv, hCall⟩ := Result.bind_eq_ok.mp hCall
    cases hCall
    obtain ⟨hDtshape, hRank⟩ := copy_rank hE hc.rank hv
    exact ⟨by rw [hDtshape]; exact hc.holds, by rw [hDtshape]; exact hRank⟩
  | slice start stop view st stack =>
    obtain ⟨v, hv, hCall⟩ := Result.bind_eq_ok.mp hCall
    obtain ⟨d, hd, hCall⟩ := Result.bind_eq_ok.mp hCall
    cases hCall
    exact hc.slice hE hv hd
  | typeView dtype stack =>
    obtain ⟨v, hv, hCall⟩ := Result.bind_eq_ok.mp hCall
    obtain ⟨d, hd, hCall⟩ := Result.bind_eq_ok.mp hCall
    cases hCall
    exact hc.typeView hE hv hd
  | transpose =>
    obtain ⟨v, hv, hCall⟩ := Result.bind_eq_ok.mp hCall
    obtain ⟨d, hd, hCall⟩ := Result.bind_eq_ok.mp hCall
    cases hCall
    exact hc.transpose hE hv hd
  | resize newShape start =>
    obtain ⟨v, hv, hCall⟩ := Result.bind_eq_ok.mp hCall
    cases hCall
    exact hc.resize hM hv
  | insert buffer buffersize axis insertStart =>
    obtain ⟨v, hv, hCall⟩ := Result.bind_eq_ok.mp hCall
    cases hCall
    exact hc.changeAxis hM.insert hv
  | append buffer buffersize axis =>
    obtain ⟨v, hv, hCall⟩ := Result.bind_eq_ok.mp hCall
    cases hCall
    exact hc.changeAxis hM.append hv
  | delete axis deleteStart deleteLen =>
    obtain ⟨v, hv, hCall⟩ := Result.bind_eq_ok.mp hCall
    cases hCall
    exact hc.changeAxis hM.delete hv
  | squeezeIndex mask => exact hc.squeezeAt hCall
  | squeeze => exact hc.squeezeAt hCall
  | setSlice start stop src =>
    obtain ⟨v, hv, hCall⟩ := Result.bind_eq_ok.mp hCall
    cases hCall
    exact setArray_coherent hE hc (setSlice_ok hv)
  | setSliceBuffer start stop buffer buflen =>
    obtain ⟨v, hv, hCall⟩ := Result.bind_eq_ok.mp hCall
    cases hCall
    exact setArray_coherent hE hc (setSliceBuffer_ok hv)

theorem Reached.coherent {P : Origin → Prop} {Q : Held → Call → Prop} {h : Held} (hE : E.Effects)
    (hM : M.Effects) (hK : K.Effects) (hRun : Reached E M K P Q h) : h.Coherent := by
  induction hRun with
  | origin _ ho => exact Origin.coherent hE hK ho
  | call _ _ hc ih => exact Call.coherent hE hM ih hc

/-! ## The invariant of the runs that leave zeros -/

theorem clear_fill {memory : Slots} {dtype : Dtype} {n : Nat} {f : Nat → Int} {d : DtshapeSlots}
    (h : fillDtshape memory dtype n f = .ok d) (hClear : memory.ClearFrom n) :
    d.shape.ClearFrom d.ndim := by
  obtain ⟨_, rfl⟩ := fillDtshape_ok h
  exact hClear.write f

theorem around_clear {c : Container} {memory : Slots} {h : Held} (ho : around memory c = .ok h)
    (hClear : memory.ClearFrom c.catarr.ndim) : h.dtshape.shape.ClearFrom h.dtshape.ndim := by
  obtain ⟨d, hd, ho⟩ := Result.bind_eq_ok.mp ho
  cases ho
  exact clear_fill hd hClear

theorem loadedArray_rank (hE : E.Effects) {a b : CatArray} {contiguous : Bool}
    (h : loadedArray E a contiguous = .ok b) : b.ndim = a.ndim := by
  unfold loadedArray at h
  split at h
  · rw [(hE.copy h).rank, CatArray.shape, length_shapeOf, CatArray.ndim]
  · cases h
    rfl

theorem Origin.clear (hE : E.Effects) {o : Origin} {h : Held} (hTidy : o.Tidy K)
    (ho : o.call E K = .ok h) : h.dtshape.shape.ClearFrom h.dtshape.ndim := by
  cases o with
  | construct how d st memory =>
    obtain ⟨c, _, ho⟩ := Result.bind_eq_ok.mp ho
    obtain ⟨dtshape, hd, ho⟩ := Result.bind_eq_ok.mp ho
    cases ho
    exact clear_fill hd hTidy
  | load path contiguous memory =>
    obtain ⟨c, hc, ho⟩ := Result.bind_eq_ok.mp ho
    obtain ⟨aux, hOpen, hc⟩ := Result.bind_eq_ok.mp hc
    obtain ⟨a, hLoaded, hc⟩ := Result.bind_eq_ok.mp hc
    obtain ⟨dtype, _, hc⟩ := Result.bind_eq_ok.mp hc
    cases hc
    refine around_clear ho ?_
    show memory.ClearFrom a.ndim
    rw [loadedArray_rank hE hLoaded]
    exact hTidy aux hOpen
  | fromCframe frame frameLen copy memory =>
    obtain ⟨c, hc, ho⟩ := Result.bind_eq_ok.mp ho
    obtain ⟨a, hFrame, hc⟩ := Result.bind_eq_ok.mp hc
    obtain ⟨dtype, _, hc⟩ := Result.bind_eq_ok.mp hc
    cases hc
    exact around_clear ho (hTidy a hFrame)

theorem squeezeAt_clear (hE : E.Effects) {h h' : Held} {mask : Nat → Bool} (hc : h.Coherent)
    (hUnused : h.dtshape.shape.ClearFrom h.dtshape.ndim)
    (hClear : h.dtshape.shape.ClearFrom (keptAxes mask h.dtshape.ndim))
    (hs : h.squeezeAt E mask = .ok h') : h'.dtshape.shape.ClearFrom h'.dtshape.ndim := by
  by_cases hPlain : h.container.containerViewed.isNone
  · obtain ⟨b, hb, -, ⟨-, hSlots, -⟩ | ⟨-, hFill⟩⟩ := squeezeAt_plain hc hPlain hs
    · rw [hSlots]
      exact hUnused
    · exact clear_fill hFill (hClear.mono (squeezeAt_rank hE hc hPlain hb))
  · obtain ⟨hCount, hFrame⟩ := squeezeSlots_frame mask h.dtshape.shape h.dtshape.ndim
    rw [(squeezeAt_view hPlain hs).2]
    intro i hi
    rw [squeezeView_ndim] at hi
    rw [squeezeView_shape, hFrame i (by omega)]
    exact hClear i (by omega)

theorem resized_clear {h : Held} (c : Container) (f : Nat → Int)
    (hClear : h.dtshape.shape.ClearFrom h.dtshape.ndim) :
    (h.resized c f).dtshape.shape.ClearFrom (h.resized c f).dtshape.ndim := hClear.write f

theorem Call.clear (hE : E.Effects) {c : Call} {h h' : Held} (hc : h.Coherent)
    (hClear : h.dtshape.shape.ClearFrom h.dtshape.ndim) (hTidy : c.Tidy h)
    (hCall : c.call E M h = .ok h') : h'.dtshape.shape.ClearFrom h'.dtshape.ndim := by
  cases c with
  | copy view st =>
    obtain ⟨v, _, hCall⟩ := Result.bind_eq_ok.mp hCall
    cases hCall
    exact hClear
  | slice start stop view st stack =>
    obtain ⟨v, _, hCall⟩ := Result.bind_eq_ok.mp hCall
    obtain ⟨d, hd, hCall⟩ := Result.bind_eq_ok.mp hCall
    cases hCall
    exact clear_fill hd hTidy
  | typeView dtype stack =>
    obtain ⟨v, _, hCall⟩ := Result.bind_eq_ok.mp hCall
    obtain ⟨d, hd, hCall⟩ := Result.bind_eq_ok.mp hCall
    cases hCall
    exact clear_fill hd hTidy
  | transpose =>
    obtain ⟨v, _, hCall⟩ := Result.bind_eq_ok.mp hCall
    obtain ⟨d, hd, hCall⟩ := Result.bind_eq_ok.mp hCall
    cases hCall
    exact clear_fill hd fun _ _ => rfl
  | resize newShape start =>
    obtain ⟨v, _, hCall⟩ := Result.bind_eq_ok.mp hCall
    cases hCall
    exact resized_clear _ _ hClear
  | insert buffer buffersize axis insertStart =>
    obtain ⟨v, _, hCall⟩ := Result.bind_eq_ok.mp hCall
    cases hCall
    exact resized_clear _ _ hClear
  | append buffer buffersize axis =>
    obtain ⟨v, _, hCall⟩ := Result.bind_eq_ok.mp hCall
    cases hCall
    exact resized_clear _ _ hClear
  | delete axis deleteStart deleteLen =>
    obtain ⟨v, _, hCall⟩ := Result.bind_eq_ok.mp hCall
    cases hCall
    exact resized_clear _ _ hClear
  | squeezeIndex mask => exact squeezeAt_clear hE hc hClear hTidy hCall
  | squeeze => exact squeezeAt_clear hE hc hClear hTidy hCall
  | setSlice start stop src =>
    obtain ⟨v, _, hCall⟩ := Result.bind_eq_ok.mp hCall
    cases hCall
    exact hClear
  | setSliceBuffer start stop buffer buflen =>
    obtain ⟨v, _, hCall⟩ := Result.bind_eq_ok.mp hCall
    cases hCall
    exact hClear

theorem Reached.clear {h : Held} (hE : E.Effects) (hM : M.Effects) (hK : K.Effects)
    (hRun : Reached E M K (Origin.Tidy K) Call.Tidy h) :
    h.dtshape.shape.ClearFrom h.dtshape.ndim := by
  induction hRun with
  | origin hTidy ho => exact Origin.clear hE hTidy ho
  | call hRun hTidy hc ih => exact Call.clear hE (hRun.coherent hE hM hK) ih hTidy hc

/-- In runs that leave zeros in the slots without an axis, the comparison of any two containers
compares their types, their ranks and the lengths of their axes. -/
theorem dtshapeEqual_logical (hE : E.Effects) (hM : M.Effects) (hK : K.Effects) {a b : Held}
    (ha : Reached E M K (Origin.Tidy K) Call.Tidy a)
    (hb : Reached E M K (Origin.Tidy K) Call.Tidy b) :
    iarrayContainerDtshapeEqual a.dtshape b.dtshape = .ok () ↔ a.dtshape.SameAxes b.dtshape := by
  apply dtshapeEqual_right_iff.mpr
  intro hSame i hi
  rw [ha.clear hE hM hK i hi, hb.clear hE hM hK i (hSame.ndim ▸ hi)]

/-- The slots that are compared are the shapes of the two containers. -/
theorem Reached.sameAxes_iff {P : Origin → Prop} {Q : Held → Call → Prop} {a b : Held}
    (hE : E.Effects) (hM : M.Effects) (hK : K.Effects) (ha : Reached E M K P Q a)
    (hb : Reached E M K P Q b) :
    a.dtshape.SameAxes b.dtshape ↔ a.container.dtshape = b.container.dtshape := by
  have hA := (ha.coherent hE hM hK).holds
  have hB := (hb.coherent hE hM hK).holds
  constructor
  · intro h
    have hLen : a.container.dtshape.shape.length = b.container.dtshape.shape.length :=
      hA.ndim.symm.trans (h.ndim.trans hB.ndim)
    have hDtype := hA.dtype.symm.trans (h.dtype.trans hB.dtype)
    have hShape : a.container.dtshape.shape = b.container.dtshape.shape := by
      refine List.ext_getElem hLen fun i hi hi' => ?_
      have hAxis : i < a.dtshape.ndim := hA.ndim.symm ▸ hi
      have hSame := h.shape i hAxis
      rw [hA.shape i hAxis, hB.shape i (h.ndim ▸ hAxis), List.getD_eq_getElem _ _ hi,
        List.getD_eq_getElem _ _ hi'] at hSame
      exact Int.ofNat.inj hSame
    calc a.container.dtshape = ⟨a.container.dtshape.dtype, a.container.dtshape.shape⟩ := rfl
      _ = ⟨b.container.dtshape.dtype, b.container.dtshape.shape⟩ := by rw [hDtype, hShape]
      _ = b.container.dtshape := rfl
  · intro h
    rw [h] at hA
    refine ⟨hA.dtype.trans hB.dtype.symm, hA.ndim.trans hB.ndim.symm, fun i hi => ?_⟩
    rw [hA.shape i hi, hB.shape i (hB.ndim ▸ hA.ndim ▸ hi)]

/-! ## Three elements -/

section Examples

open Reference

/-- A vector, made over memory that holds zeros. -/
def vector (n : Nat) : Origin := .construct .empty ⟨.int32, [n]⟩ ⟨[2], [2]⟩ fun _ => 0

/-- A slice of a vector of five elements and a vector of three. -/
theorem dtshapeEqual_logical_slice : ∃ v a b, (vector 5).call backend makers = .ok v ∧
    (Call.slice [1] [4] true ⟨[], []⟩ fun _ => 0).call backend mutators v = .ok a ∧
    (vector 3).call backend makers = .ok b ∧
    iarrayContainerDtshapeEqual a.dtshape b.dtshape = .ok () := by
  refine ⟨_, _, _, rfl, rfl, rfl, ?_⟩
  have hTidy : ∀ n, (vector n).Tidy makers := fun n _ _ => rfl
  have hSlice : ∀ h, (Call.slice [1] [4] true ⟨[], []⟩ fun _ => 0).Tidy h := fun h _ _ => rfl
  refine (dtshapeEqual_logical backend_effects mutators_effects makers_effects
    (.call (.origin (hTidy 5) rfl) (hSlice _) rfl) (.origin (hTidy 3) rfl)).mpr ?_
  exact ⟨rfl, rfl, by decide⟩

/-- A matrix of one column squeezed to a vector keeps the length of its second axis in a slot,
and is not found equal to the vector of the same length. -/
theorem dtshapeEqual_squeezed : ∃ a b,
    Reached backend mutators makers (fun _ => True) (fun _ _ => True) a ∧
    Reached backend mutators makers (fun _ => True) (fun _ _ => True) b ∧
    a.container.dtshape = ⟨.int32, [3]⟩ ∧ b.container.dtshape = ⟨.int32, [3]⟩ ∧
    a.dtshape.SameAxes b.dtshape ∧
    iarrayContainerDtshapeEqual a.dtshape b.dtshape = inaError .invalidShape := by
  have hColumn : (Origin.construct .empty ⟨.int32, [3, 1]⟩ ⟨[2, 1], [2, 1]⟩ fun _ => 0).call
      backend makers = .ok _ := rfl
  refine ⟨_, _, .call (c := .squeeze) (.origin trivial hColumn) trivial rfl,
    .origin (o := vector 3) trivial rfl, rfl, rfl, ⟨rfl, rfl, by decide⟩, by decide⟩

end Examples

end Held

end IronArray
