import IronArray.Containers.Code
import IronArray.Containers.Session
import IronArray.Views.Making
import IronArray.Core.Reference

/-!
# Writing to views

Every entry point that writes refuses a view, except the element write iterator, which stores
into the array that the view owns. That array is never read: `session_hidden` shows that a view
reads the same after every script. `view_respects_iff` states what follows for every call.
-/

namespace IronArray

open Grid

/-! ## What Caterva does -/

/-- Caterva reads an array through its blocks. -/
def Backend.ReadsBlocks (E : Backend) : Prop :=
  ∀ {a b : CatArray}, a.axes = b.axes → a.sc.typesize = b.sc.typesize →
    a.sc.blocksize = b.sc.blocksize → a.sc.block = b.sc.block →
    E.getSliceBuffer a = E.getSliceBuffer b

/-! ## Calls that write -/

/-- The entry points that write to a container, with their arguments. -/
inductive WriteCall
  | setSlice (start stop : List Int) (slice : Container)
  | setSliceBuffer (start stop : List Int) (buffer : Nat → Cell) (buflen : Int)
  | resize (newShape : List Int) (start : Option (List Int))
  | insert (buffer : Nat → Cell) (buffersize axis insertStart : Int)
  | append (buffer : Nat → Cell) (buffersize axis : Int)
  | delete (axis deleteStart deleteLen : Int)
  | writeBlocks (iterBlockshape : List Nat) (externalBuffer : Bool)
  | writeElements (script : List WriteAction)

/-- The element of a container at an index, read as a region of one element. -/
def readElement (E : Backend) (c : Container) (x : List Nat) : Result Cell :=
  (iarrayGetSliceBuffer E c (ints x) (ints (x.map (· + 1))) E.malloc c.dtshape.dtypeSize).map (· 0)

/-- The value that was last written at an index. -/
def lastWritten (log : List (List Nat × Cell)) (x : List Nat) : Option Cell :=
  (log.reverse.find? fun w => w.1 = x).map Prod.snd

/-- After the writes of `log` the container reads what was written, and elsewhere as before. -/
structure WriteThrough (E : Backend) (before after : Container) (log : List (List Nat × Cell)) :
    Prop where
  containerViewed : after.containerViewed = before.containerViewed
  written : ∀ x c, lastWritten log x = some c → readElement E after x = .ok c
  frame : ∀ x, lastWritten log x = none → readElement E after x = readElement E before x

/-- The container refuses the call, or lets the writes through in calls that are all defined. -/
def Respects (E : Backend) (M : Mutators) (v : Container) : WriteCall → Prop
  | .setSlice start stop slice => Refused (iarraySetSlice E v start stop slice)
  | .setSliceBuffer start stop buffer buflen =>
    Refused (iarraySetSliceBuffer E v start stop buffer buflen)
  | .resize newShape start => Refused (iarrayContainerResize M v newShape start)
  | .insert buffer size axis start => Refused (iarrayContainerInsert M v buffer size axis start)
  | .append buffer size axis => Refused (iarrayContainerAppend M v buffer size axis)
  | .delete axis start len => Refused (iarrayContainerDelete M v axis start len)
  | .writeBlocks bs external => Refused (iarrayIterWriteBlockNew E v bs external)
  | .writeElements script => (WriteSession.start v).Defined E script ∧
    WriteThrough E v ((WriteSession.start v).run E script).itr.container
      ((WriteSession.start v).run E script).accepted

/-- The slice of `iarray_set_slice` can be read, the calls of the iterator are in order, and every
element stored by it is set to the value that the view has there. -/
def Harmless (E : Backend) (v : Container) : WriteCall → Prop
  | .setSlice _ _ slice => v.dtshape.dtype = slice.dtshape.dtype →
    v.dtshape.ndim = slice.dtshape.ndim →
    ∀ u, iarrayToBuffer E slice E.malloc (slice.catarr.shape.prod * slice.catarr.itemsize : Nat) ≠
      crash u
  | .writeElements script => Orderly v 0 script ∧ ∀ x c,
    lastWritten ((WriteSession.start v).run E script).accepted x = some c →
    readElement E v x = .ok c
  | _ => True

variable {E : Backend} {M : Mutators} {v : Container}

/-! ## Refusals -/

theorem setSliceBuffer_refused (hView : v.containerViewed.isSome) (start stop : List Int)
    (buffer : Nat → Cell) (buflen : Int) :
    Refused (iarraySetSliceBuffer E v start stop buffer buflen) :=
  ⟨_, if_pos hView⟩

theorem changeAxis_refused (hView : v.containerViewed.isSome)
    (call : CatArray → Result CatArray) : Refused (changeAxis v call) :=
  ⟨_, if_pos hView⟩

/-- The region is refused once the slice has been read. -/
theorem setSlice_refused_iff (hView : v.containerViewed.isSome) (start stop : List Int)
    (slice : Container) :
    Refused (iarraySetSlice E v start stop slice) ↔ Harmless E v (.setSlice start stop slice) := by
  unfold iarraySetSlice Harmless
  by_cases hDtype : v.dtshape.dtype = slice.dtshape.dtype
  · by_cases hNdim : v.dtshape.ndim = slice.dtshape.ndim
    · rw [if_neg (not_not.mpr hDtype), if_neg (not_not.mpr hNdim)]
      simp only [hDtype, hNdim, forall_const]
      generalize iarrayToBuffer E slice E.malloc _ = read
      match read with
      | .ok buffer =>
        refine ⟨fun _ u h => ?_, fun _ => setSliceBuffer_refused hView _ _ _ _⟩
        cases h
      | .error (.code e) =>
        refine ⟨fun _ u h => ?_, fun _ => ⟨e, rfl⟩⟩
        cases h
      | .error (.undefined u) =>
        refine ⟨fun ⟨e, he⟩ => ?_, fun h => absurd rfl (h u)⟩
        cases he
    · rw [if_neg (not_not.mpr hDtype), if_pos hNdim]
      exact ⟨fun _ _ h => absurd h hNdim, fun _ => ⟨_, rfl⟩⟩
  · rw [if_pos hDtype]
    exact ⟨fun _ h => absurd h hDtype, fun _ => ⟨_, rfl⟩⟩

/-! ## Views hide what is stored -/

/-- A view reads through its postfilter, whatever its array stores. -/
theorem ItemsOnly.getSliceBuffer (hR : E.ReadsBlocks) {c : Container} (h : ItemsOnly v c)
    (hFilter : v.catarr.sc.postfilter.isSome) :
    E.getSliceBuffer c.catarr = E.getSliceBuffer v.catarr := by
  refine hR h.axes ?_ ?_ ?_
  · rw [h.sc]
  · rw [h.sc]
  · obtain ⟨filter, hSome⟩ := Option.isSome_iff_exists.mp hFilter
    funext nchunk nblock
    rw [SChunk.block, SChunk.block, h.sc, hSome]

theorem ItemsOnly.readElement (hR : E.ReadsBlocks) {c : Container} (h : ItemsOnly v c)
    (hFilter : v.catarr.sc.postfilter.isSome) (x : List Nat) :
    IronArray.readElement E c x = IronArray.readElement E v x := by
  have hRead := h.getSliceBuffer hR hFilter
  have hNdim : c.catarr.ndim = v.catarr.ndim := congrArg List.length h.axes
  have hSize : c.catarr.itemsize = v.catarr.itemsize := by
    rw [CatArray.itemsize, CatArray.itemsize, h.sc]
  obtain ⟨d, offset, index, catarr, storage, viewed, transposed⟩ := c
  have hFields := h.fields
  simp only [Container.mk.injEq] at hFields
  obtain ⟨rfl, rfl, rfl, -, rfl, rfl, rfl⟩ := hFields
  simp only [IronArray.readElement, iarrayGetSliceBuffer, _iarrayGetSliceBuffer, hRead, hNdim,
    hSize]
  rfl

/-- A view reads the same after every script of the element write iterator. -/
theorem session_hidden (hR : E.ReadsBlocks) (hW : E.WritesItems)
    (hFilter : v.catarr.sc.postfilter.isSome) (script : List WriteAction) (x : List Nat) :
    readElement E ((WriteSession.start v).run E script).itr.container x = readElement E v x :=
  (WriteSession.run_itemsOnly hW (WriteSession.start_itemsOnly v) script).readElement hR hFilter x

theorem writeElements_respects_iff (hR : E.ReadsBlocks) (hW : E.WritesItems)
    (hS : E.StoresRegions) (hFilter : v.catarr.sc.postfilter.isSome) (script : List WriteAction) :
    Respects E M v (.writeElements script) ↔ Harmless E v (.writeElements script) := by
  have hHidden := session_hidden hR hW hFilter script
  have hItems := WriteSession.run_itemsOnly hW (WriteSession.start_itemsOnly v) script
  refine and_congr ((sessionAt_start v).defined_iff hS hW script) ⟨fun h x c hc => ?_, fun h => ?_⟩
  · rw [← hHidden x]
    exact h.written x c hc
  · refine ⟨?_, fun x c hc => ?_, fun x _ => hHidden x⟩
    · rw [hItems.fields]
    · rw [hHidden x]
      exact h x c hc

/-- A view refuses every call that writes, or lets the writes through, exactly when the call is
harmless: only the element write iterator loses what it stores, or stores a region of which it has
not set all axes. -/
theorem view_respects_iff (hR : E.ReadsBlocks) (hW : E.WritesItems) (hS : E.StoresRegions)
    (hView : v.containerViewed.isSome) (hFilter : v.catarr.sc.postfilter.isSome)
    (call : WriteCall) : Respects E M v call ↔ Harmless E v call := by
  cases call with
  | setSlice start stop slice => exact setSlice_refused_iff hView start stop slice
  | setSliceBuffer start stop buffer buflen =>
    exact iff_of_true (setSliceBuffer_refused hView start stop buffer buflen) trivial
  | resize newShape start => exact iff_of_true ⟨_, if_pos hView⟩ trivial
  | insert buffer size axis start => exact iff_of_true (changeAxis_refused hView _) trivial
  | append buffer size axis => exact iff_of_true (changeAxis_refused hView _) trivial
  | delete axis start len => exact iff_of_true (changeAxis_refused hView _) trivial
  | writeBlocks bs external => exact iff_of_true ⟨_, if_pos hView⟩ trivial
  | writeElements script => exact writeElements_respects_iff hR hW hS hFilter script

/-! ## A vector and its view -/

namespace Reference

/-- The reference backend with writes that touch the stored items only. -/
def inPlace : Backend :=
  { backend with
    setSliceBuffer := fun a buffer m _ start stop => .ok
      { a with sc := { a.sc with chunk := (CatArray.ofFn a.axes a.itemsize fun x =>
          if addIdx start (within start x) = x ∧
              InBox (within start x) (List.zipWith (· - ·) stop start) then
            buffer (flat m (within start x))
          else value (a.cell x)).sc.chunk } } }

/-- Mutators that refuse every array. -/
def mutatorsNone : Mutators where
  resize _ _ _ := inaError .catervaFailed
  insert _ _ _ _ _ := inaError .catervaFailed
  append _ _ _ _ := inaError .catervaFailed
  delete _ _ _ _ := inaError .catervaFailed

theorem inPlace_readsBlocks : inPlace.ReadsBlocks := by
  intro a b hAxes _ _ hBlock
  have hCell : a.cell = b.cell := by
    funext x
    rw [CatArray.cell, CatArray.cell, hAxes, hBlock]
  funext start stop buffer m buflen
  change getSliceBuffer a start stop buffer m buflen = getSliceBuffer b start stop buffer m buflen
  simp only [getSliceBuffer, readable, hCell]

theorem inPlace_writesItems : inPlace.WritesItems := by
  intro a b buffer m buflen s t h
  cases h
  exact ⟨rfl, rfl⟩

theorem inPlace_storesRegions : inPlace.StoresRegions :=
  fun _ _ _ _ => ⟨nofun, fun _ => ⟨_, rfl⟩⟩

end Reference

/-- The axis of a vector of two elements in one block. -/
def pairAxis : Axis := .ofCuts 2 2 2

/-- The vector 7, 8. -/
def pairVector : Container :=
  Reference.plain .int32 [pairAxis] fun x => .bits (x.getD 0 0 + 7)

/-- A view of the whole vector. -/
def pairView : Container :=
  viewOf Reference.inPlace.machine pairVector ⟨.int32, [2]⟩ [0]
    (.ofFn [pairAxis] 4 fun _ => .bits 0)

/-- Set both elements of the view. -/
def pairScript : List WriteAction := [.next, .set (.bits 1), .next, .set (.bits 2), .hasNext]

/-- The view refuses to be resized, and setting its elements to what they are loses nothing. -/
theorem view_respects_pair :
    Respects Reference.inPlace Reference.mutatorsNone pairView (.resize [3] none) ∧
    Respects Reference.inPlace Reference.mutatorsNone pairView
      (.writeElements [.next, .set (.bits 7), .next, .set (.bits 8), .hasNext]) := by
  refine ⟨(view_respects_iff Reference.inPlace_readsBlocks Reference.inPlace_writesItems
    Reference.inPlace_storesRegions rfl rfl _).mpr trivial, (view_respects_iff
    Reference.inPlace_readsBlocks Reference.inPlace_writesItems Reference.inPlace_storesRegions
    rfl rfl _).mpr ⟨by decide, fun x c hc => ?_⟩⟩
  change lastWritten [([0], .bits 7), ([1], .bits 8)] x = some c at hc
  simp only [lastWritten, List.reverse_cons, List.reverse_nil, List.nil_append, List.cons_append,
    List.find?_cons, List.find?_nil] at hc
  by_cases hOne : [1] = x
  · subst hOne
    cases hc
    rfl
  by_cases hZero : [0] = x
  · subst hZero
    cases hc
    rfl
  · simp [hOne, hZero] at hc

/-- Both elements are accepted, and the view still reads the old ones. -/
theorem view_respects_fails :
    iarrayGetSlice Reference.inPlace pairVector [0] [2] true ⟨[], []⟩ = .ok pairView ∧
    ((WriteSession.start pairView).run Reference.inPlace pairScript).accepted =
      [([0], .bits 1), ([1], .bits 2)] ∧
    readElement Reference.inPlace
      ((WriteSession.start pairView).run Reference.inPlace pairScript).itr.container [0] =
      .ok (.bits 7) ∧
    ¬ Respects Reference.inPlace Reference.mutatorsNone pairView (.writeElements pairScript) := by
  refine ⟨rfl, rfl, rfl, fun h => ?_⟩
  have hRead := h.2.written [0] (.bits 1) rfl
  cases hRead

end IronArray
