import IronArray.Containers.Regions
import IronArray.Views.Into

/-!
# Assigning a container to a region

`iarray_set_slice` reads the slice into a buffer as large as the array behind it and passes the
buffer on; the shape of the slice is forgotten. `setSlice_assigns_iff` says when the region ends
up with the elements of the slice.
-/

namespace IronArray

open Grid

/-! ## The step -/

/-- The size of the buffer that `iarray_set_slice` allocates: that of the array of the slice. -/
def sliceBytes (slice : Container) : Int := (slice.catarr.shape.prod * slice.catarr.itemsize : Nat)

/-- `iarray_set_slice` as a step. -/
def setSliceStep (E : Backend) (left : CatArray → CatArray) (c : Container)
    (start stop : List Int) (slice : Container) : Container × Result Unit :=
  if c.dtshape.dtype ≠ slice.dtshape.dtype then (c, inaError .invalidDtype)
  else if c.dtshape.ndim ≠ slice.dtshape.ndim then (c, inaError .invalidNdim)
  else
    match iarrayToBuffer E slice E.malloc (sliceBytes slice) with
    | .error e => (c, .error e)
    | .ok buffer => setSliceBufferStep E left c start stop buffer (sliceBytes slice)

theorem setSliceStep_eq (E : Backend) (left : CatArray → CatArray) (c : Container)
    (start stop : List Int) (slice : Container) :
    iarraySetSlice E c start stop slice =
      (setSliceStep E left c start stop slice).2.map fun _ =>
        (setSliceStep E left c start stop slice).1 := by
  unfold iarraySetSlice setSliceStep
  split
  · rfl
  · split
    · rfl
    · show (iarrayToBuffer E slice E.malloc (sliceBytes slice) >>= _) = _
      cases iarrayToBuffer E slice E.malloc (sliceBytes slice) with
      | error e => rfl
      | ok buffer => exact setSliceBufferStep_eq E left c start stop buffer (sliceBytes slice)

/-- `A` is the array that `iarray_to_buffer` reads of the slice. -/
structure SliceReads (E : Backend) (slice : Container) (A : NdArray Cell) : Prop where
  shape : slice.dtshape.shape = A.shape
  get : ∀ {out : Nat → Cell}, iarrayToBuffer E slice E.malloc (sliceBytes slice) = .ok out →
    ∀ i, InBox i A.shape → out (flat A.shape i) = A.get i

/-- The region that `start` and `stop` select has the shape of `A` and holds its elements, and
the rest is as before. -/
structure Assigned (c c' : Container) (start stop : List Int) (A : NdArray Cell) (s : List Nat) :
    Prop where
  selects : Selects start stop c.dtshape.shape s A.shape
  inside : ∀ i, InBox i A.shape → c'.catarr.get (addIdx s i) = A.get i
  outside : ∀ x, InBox x c.catarr.shape → (∀ i, InBox i A.shape → addIdx s i ≠ x) →
    c'.catarr.get x = c.catarr.get x

/-- What `iarray_set_slice` is to do. -/
def SliceAssigned (E : Backend) (left : CatArray → CatArray) (c : Container)
    (start stop : List Int) (slice : Container) (A : NdArray Cell) : Prop :=
  ((setSliceStep E left c start stop slice).2 = .ok () →
    ∃ s, Assigned c (setSliceStep E left c start stop slice).1 start stop A s) ∧
  ((setSliceStep E left c start stop slice).2 ≠ .ok () →
    (setSliceStep E left c start stop slice).1 = c)

/-- The checks of `iarray_set_slice` and the functions that it calls. -/
structure SliceAccepted (E : Backend) (c : Container) (start stop : List Int)
    (slice : Container) : Prop where
  containerViewed : c.containerViewed = none
  dtype : c.dtshape.dtype = slice.dtshape.dtype
  ndim : c.dtshape.ndim = slice.dtshape.ndim
  readable : ∃ out, iarrayToBuffer E slice E.malloc (sliceBytes slice) = .ok out
  inWindow : InWindow start stop c.dtshape.shape
  large : ((regionExtent start stop c.dtshape.shape).prod * c.dtshape.dtypeSize : Nat) ≤
    sliceBytes slice

/-- A call that does not pass the checks leaves the container as it was. -/
theorem sliceAssigned_of_error {E : Backend} {left : CatArray → CatArray} {c slice : Container}
    {start stop : List Int} {A : NdArray Cell} {e : Failure}
    (h : setSliceStep E left c start stop slice = (c, .error e)) :
    SliceAssigned E left c start stop slice A := by
  rw [SliceAssigned, h]
  exact ⟨nofun, fun _ => rfl⟩

theorem setSliceStep_refused {E : Backend} (hE : E.Lawful) (hEmpty : E.EmptyRegions)
    {c slice : Container} {start stop : List Int} (left : CatArray → CatArray)
    (hc : Plain c ∨ c.containerViewed.isSome)
    (hStart : start.length = c.dtshape.ndim) (hStop : stop.length = c.dtshape.ndim)
    (h : ¬ SliceAccepted E c start stop slice) :
    ∃ e, setSliceStep E left c start stop slice = (c, .error e) := by
  unfold setSliceStep
  split
  · exact ⟨_, rfl⟩
  · rename_i hDtype
    split
    · exact ⟨_, rfl⟩
    · rename_i hNdim
      cases hRead : iarrayToBuffer E slice E.malloc (sliceBytes slice) with
      | error e => exact ⟨e, rfl⟩
      | ok buffer =>
        rcases hc with hPlain | hView
        · by_cases hWindow : InWindow start stop c.dtshape.shape
          · have hStep := hPlain.step_inside hE hEmpty left hStart hStop hWindow buffer
              (sliceBytes slice)
            simp only at hStep
            split at hStep
            · exact ⟨_, hStep⟩
            · rename_i hLarge
              exact absurd ⟨hPlain.containerViewed, not_not.mp hDtype, not_not.mp hNdim,
                ⟨buffer, hRead⟩, hWindow, not_lt.mp hLarge⟩ h
          · exact hPlain.step_outside left hStart hStop hWindow buffer _
        · exact ⟨_, if_pos hView⟩

/-- A call that passes the checks writes the buffer with the elements of the slice to the region,
in the order of the region. -/
theorem setSliceStep_accepted {E : Backend} (hE : E.Lawful) (hEmpty : E.EmptyRegions)
    {c slice : Container} {start stop : List Int} (left : CatArray → CatArray) (hPlain : Plain c)
    (hStart : start.length = c.dtshape.ndim) (hStop : stop.length = c.dtshape.ndim)
    (h : SliceAccepted E c start stop slice) :
    ∃ buffer b, iarrayToBuffer E slice E.malloc (sliceBytes slice) = .ok buffer ∧
      setSliceStep E left c start stop slice = ({ c with catarr := b }, .ok ()) ∧
      Replaced c.catarr b (regionStart start c.dtshape.shape)
        (regionExtent start stop c.dtshape.shape) buffer := by
  obtain ⟨buffer, hRead⟩ := h.readable
  have hStep := hPlain.step_inside hE hEmpty left hStart hStop h.inWindow buffer (sliceBytes slice)
  simp only at hStep
  rw [if_neg (not_lt.mpr h.large)] at hStep
  obtain ⟨b, hStep, _, hReplaced⟩ := hStep
  refine ⟨buffer, b, hRead, ?_, hReplaced⟩
  rw [setSliceStep, if_neg (not_not.mpr h.dtype), if_neg (not_not.mpr h.ndim), hRead]
  exact hStep

/-! ## What can be read -/

theorem region_prod_le {s n shape : List Nat} (h : Region s n shape) : n.prod ≤ shape.prod := by
  induction shape generalizing s n with
  | nil =>
    obtain rfl := List.length_eq_zero_iff.mp h.length
    exact le_rfl
  | cons t shape ih =>
    obtain ⟨k, n, rfl⟩ := List.exists_cons_of_length_eq_add_one h.length
    obtain ⟨j, s, rfl⟩ := List.exists_cons_of_length_eq_add_one h.start_length
    obtain ⟨hFits, hRest⟩ := Region.cons_iff.mp h
    rw [List.prod_cons, List.prod_cons]
    exact Nat.mul_le_mul (by omega) (ih hRest)

theorem Shows.prod_le {c : Container} {A : NdArray Cell} {mask : List Bool} {off ws : List Nat}
    (h : Shows c A mask off ws) : A.shape.prod ≤ c.catarr.shape.prod := by
  have hProd : (spread 1 mask A.shape).prod = A.shape.prod := prod_spread h.shape_length
  rw [h.shape_eq, h.unit, ← h.shape_eq] at hProd
  rw [← hProd]
  exact region_prod_le h.region

namespace Known

variable {E : Backend} {c : Container} {A : NdArray Cell}

/-- The buffer that `iarray_set_slice` allocates holds the slice. -/
theorem bytes_le (h : Known c A) :
    (A.shape.prod * c.dtshape.dtypeSize : Nat) ≤ sliceBytes c := by
  have hProd : A.shape.prod ≤ c.catarr.shape.prod := by
    cases hTransposed : c.transposed with
    | false =>
      obtain ⟨mask, off, ws, hShows⟩ := h.shows hTransposed
      exact hShows.prod_le
    | true =>
      have hBase := (h.showsTransposed hTransposed).base.prod_le
      rwa [NdArray.transpose, List.prod_reverse] at hBase
  rw [sliceBytes, h.itemsize]
  exact Nat.cast_le.mpr (Nat.mul_le_mul_right _ hProd)

/-- A container of a run reads as its array. The lengths of a transposed one fit an `int`. -/
theorem toBuffer (hE : E.Lawful) (h : Known c A)
    (hInt : c.transposed → c.dtshape.dtype.isFloating ∧ ∀ k ∈ A.shape, k < 2 ^ 31)
    (hPos : ∀ k ∈ A.shape, 0 < k) (buffer : Nat → Cell) {buflen : Int}
    (hLen : (A.shape.prod * c.dtshape.dtypeSize : Nat) ≤ buflen) :
    ∃ out, iarrayToBuffer E c buffer buflen = .ok out ∧
      ∀ x, InBox x A.shape → out (flat A.shape x) = A.get x := by
  cases hTransposed : c.transposed with
  | false =>
    obtain ⟨mask, off, ws, hShows⟩ := h.shows hTransposed
    exact (hShows.reads hE).toBuffer buffer hPos hLen
  | true =>
    have hViewed := (h.showsTransposed hTransposed).viewed
    have hSize : c.dtshape.shape.prod ≠ 0 := h.shape ▸ (prod_pos_of_forall hPos).ne'
    have hFits : ¬ buflen < (c.dtshape.shape.prod * c.dtshape.dtypeSize : Nat) := by
      rw [h.shape]
      exact not_lt.mpr hLen
    have hSel := selects_whole A.shape
    obtain ⟨out, hOut, hGet⟩ :=
      h.readInto buffer hE hInt hSel hPos (forall₂_le_refl A.shape) hLen
    refine ⟨out, ?_, fun x hx => by rw [hGet x hx, addIdx_replicate_zero hx.length_eq]⟩
    rw [iarrayToBuffer, if_neg hSize, if_neg hFits, if_pos hViewed, Dtshape.ndim, h.shape,
      iarrayGetSliceBuffer_eq buffer buflen h.shape hSel hPos, hOut]

/-- Of a transposed container of integers no element is read. -/
theorem toBuffer_refused (hE : E.Lawful) (h : Known c A) (hTransposed : c.transposed)
    (hInteger : ¬ c.dtshape.dtype.isFloating) (hPos : ∀ k ∈ A.shape, 0 < k) (buffer : Nat → Cell)
    {buflen : Int} (hLen : (A.shape.prod * c.dtshape.dtypeSize : Nat) ≤ buflen) :
    iarrayToBuffer E c buffer buflen = inaError .invalidDtype := by
  have hViewed := (h.showsTransposed hTransposed).viewed
  have hSize : c.dtshape.shape.prod ≠ 0 := h.shape ▸ (prod_pos_of_forall hPos).ne'
  have hFits : ¬ buflen < (c.dtshape.shape.prod * c.dtshape.dtypeSize : Nat) := by
    rw [h.shape]
    exact not_lt.mpr hLen
  have hSel := selects_whole A.shape
  rw [iarrayToBuffer, if_neg hSize, if_neg hFits, if_pos hViewed, Dtshape.ndim, h.shape,
    iarrayGetSliceBuffer_eq buffer buflen h.shape hSel hPos,
    h.refused buffer hE hTransposed hInteger hSel hPos (forall₂_le_refl A.shape) hLen]

/-- The array of a run is what `iarray_set_slice` reads of its container, and it reads it unless
that is a transposed matrix of integers with elements. -/
theorem sliceReads (hE : E.Lawful) (h : Known c A)
    (hInt : c.transposed → ∀ k ∈ A.shape, k < 2 ^ 31) :
    SliceReads E c A ∧
      ((∃ out, iarrayToBuffer E c E.malloc (sliceBytes c) = .ok out) ↔
        (c.transposed → c.dtshape.dtype.isFloating ∨ A.shape.prod = 0)) := by
  by_cases hZero : A.shape.prod = 0
  · have hRead : iarrayToBuffer E c E.malloc (sliceBytes c) = .ok E.malloc :=
      if_pos (h.shape ▸ hZero)
    refine ⟨⟨h.shape, fun _ i hi => ?_⟩, iff_of_true ⟨_, hRead⟩ fun _ => .inr hZero⟩
    exact absurd hi (not_inBox_of_zero (List.prod_eq_zero_iff.mp hZero))
  · have hPos := pos_of_lt_prod (Nat.pos_of_ne_zero hZero)
    by_cases hFloat : c.transposed → c.dtshape.dtype.isFloating
    · obtain ⟨out, hOut, hGet⟩ := h.toBuffer hE
        (fun hTransposed => ⟨hFloat hTransposed, hInt hTransposed⟩) hPos E.malloc h.bytes_le
      refine ⟨⟨h.shape, ?_⟩, iff_of_true ⟨out, hOut⟩ fun hTransposed =>
        .inl (hFloat hTransposed)⟩
      intro out' hOut'
      rw [hOut, Except.ok.injEq] at hOut'
      rw [← hOut']
      exact hGet
    · obtain ⟨hTransposed, hInteger⟩ := Classical.not_imp.mp hFloat
      have hRead := h.toBuffer_refused hE hTransposed hInteger hPos E.malloc h.bytes_le
      constructor
      · refine ⟨h.shape, fun hOut => ?_⟩
        rw [hRead] at hOut
        cases hOut
      · refine iff_of_false ?_ fun hAll => ?_
        · rintro ⟨out, hOut⟩
          rw [hRead] at hOut
          cases hOut
        · exact (hAll hTransposed).elim hInteger hZero

end Known

end IronArray
