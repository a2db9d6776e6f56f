import IronArray.Core.Places
import IronArray.Grid.Tiles
import IronArray.Views.Squeeze

/-!
# Runs of view operations

`Run` collects the containers reached from plain ones by slice views, type views, transposes
and squeezes, as long as every step respects the index map and the types, together with the
array each of them reads. `Run.known` is the invariant: a plain container, a view that shows
the array, or a transposed view.
-/

namespace IronArray

open Grid

/-! ## Steps -/

/-- The containers reached by view operations whose conditions hold, with what they read. A
slice of a transposed view is the region of the store, read untransposed. -/
inductive Run (E : Backend) : Container → NdArray Cell → Prop
  | plain {c : Container} (hPlain : Plain c) : Run E c c.contents
  | slice {c v : Container} {A : NdArray Cell} {start stop : List Int} {storage : Storage}
      {s n : List Nat} (hRun : Run E c A) (hFlat : c.Flat)
      (hSel : Selects start stop A.shape s n)
      (hv : iarrayGetSlice E c start stop true storage = .ok v) : Run E v (A.slice s n)
  | sliceTransposed {c v : Container} {A : NdArray Cell} {start stop : List Int}
      {storage : Storage} {s n : List Nat} (hRun : Run E c A) (hTransposed : c.transposed = true)
      (hSel : Selects start stop A.shape s n)
      (hv : iarrayGetSlice E c start stop true storage = .ok v) :
      Run E v (A.slice s n).transpose
  | typeView {c v : Container} {A : NdArray Cell} {dtype : Dtype} (hRun : Run E c A)
      (hFlat : c.Flat) (hCast : c.HasCast dtype) (hv : iarrayGetTypeView E c dtype = .ok v) :
      Run E v (A.map (elementCast E.machine c.dtshape.dtype dtype))
  | transpose {c v : Container} {A : NdArray Cell} (hRun : Run E c A)
      (hv : iarrayLinalgTranspose E c = .ok v) : Run E v A.transpose
  | squeeze {c v : Container} {A : NdArray Cell} {mask : List Bool} (hRun : Run E c A)
      (hTransposed : c.transposed = false) (hMask : mask.length = A.shape.length)
      (hUnit : UnitOn mask A.shape)
      (hKeeps : c.containerViewed.isSome → c.KeepsNumbers mask)
      (hv : iarraySqueezeIndex E c mask = .ok v) : Run E v (A.squeeze mask)

/-! ## The invariant -/

/-- What is known of a reached container. -/
inductive Known (c : Container) (A : NdArray Cell) : Prop
  | plain (hPlain : Plain c) (hSame : c.contents.Same A)
  | view (hViewed : c.containerViewed.isSome) {mask : List Bool} {off ws : List Nat}
      (hShows : Shows c A mask off ws)
  | transposed (hShows : ShowsTransposed c A)

theorem ShowsTransposed.congr {c : Container} {A B : NdArray Cell} (h : ShowsTransposed c A)
    (hSame : A.Same B) : ShowsTransposed c B where
  transposed := h.transposed
  viewed := h.viewed
  ndim := hSame.shape ▸ h.ndim
  base := hSame.shape ▸ h.base.congr hSame.transpose

/-- An untransposed container shows the array it is known to read. -/
theorem Known.shows {c : Container} {A : NdArray Cell} (h : Known c A)
    (hTransposed : c.transposed = false) : ∃ mask off ws, Shows c A mask off ws := by
  cases h with
  | plain hPlain hSame => exact ⟨_, _, _, hPlain.shows.congr hSame⟩
  | view _ hShows => exact ⟨_, _, _, hShows⟩
  | transposed hShows => exact absurd hShows.transposed (by simp [hTransposed])

theorem Known.showsTransposed {c : Container} {A : NdArray Cell} (h : Known c A)
    (hTransposed : c.transposed = true) : ShowsTransposed c A := by
  cases h with
  | plain hPlain _ => exact absurd hPlain.transposed (by simp [hTransposed])
  | view _ hShows => exact absurd hShows.transposed (by simp [hTransposed])
  | transposed hShows => exact hShows

/-- The array of a known container has the lengths that the container was asked for. -/
theorem Known.stored {c : Container} {A : NdArray Cell} (h : Known c A) :
    c.catarr.storage = iarrayCreateCatervaStorage c.storage := by
  cases h with
  | plain hPlain _ => exact hPlain.fresh.storage
  | view _ hShows => exact hShows.storage
  | transposed hShows => exact hShows.base.storage

theorem Known.chunkshape {c : Container} {A : NdArray Cell} (h : Known c A) :
    ints c.catarr.chunkshape = c.storage.chunkshape.map fun n : Nat => toInt32 n :=
  congrArg CatervaStorage.chunkshape h.stored

/-- An array with elements lies in an array with elements. -/
theorem Shows.axes_pos {c : Container} {A : NdArray Cell} {mask : List Bool} {off ws : List Nat}
    (h : Shows c A mask off ws) (hPos : ∀ n ∈ A.shape, 0 < n) :
    ∀ x ∈ c.catarr.axes, 0 < x.shape := by
  have hZeros := inBox_replicate_zero hPos
  have hLength : (List.replicate A.shape.length 0).length = mask.count false := by
    rw [List.length_replicate, h.shape_length]
  have hWindow : InBox (spread 0 mask (List.replicate A.shape.length 0)) ws := by
    rw [← show spread 1 mask A.shape = ws by rw [h.shape_eq, h.unit]]
    exact (inBox_spread hLength h.shape_length).mpr hZeros
  intro x hx
  exact (h.region.inBox hWindow).pos _ (List.mem_map_of_mem hx)

theorem Known.axes_pos {c : Container} {A : NdArray Cell} (h : Known c A)
    (hPos : ∀ n ∈ A.shape, 0 < n) : ∀ x ∈ c.catarr.axes, 0 < x.shape := by
  cases hTransposed : c.transposed with
  | false =>
    obtain ⟨mask, off, ws, hShows⟩ := h.shows hTransposed
    exact hShows.axes_pos hPos
  | true =>
    exact (h.showsTransposed hTransposed).base.axes_pos fun n hn =>
      hPos n (List.mem_reverse.mp hn)

/-- A container has no more axes than its array. -/
theorem Known.ndim_le {c : Container} {A : NdArray Cell} (h : Known c A) :
    A.shape.length ≤ c.catarr.ndim := by
  cases hTransposed : c.transposed with
  | false =>
    obtain ⟨mask, off, ws, hShows⟩ := h.shows hTransposed
    exact (hShows.shape_length.trans_le List.count_le_length).trans_eq hShows.mask_length
  | true =>
    have hShows := h.showsTransposed hTransposed
    exact (hShows.ndim.trans hShows.base.mask_length).le

/-- The chunk lengths that a container with elements was asked for are positive. -/
theorem Known.chunks_pos {c : Container} {A : NdArray Cell} (h : Known c A)
    (hPos : ∀ n ∈ A.shape, 0 < n) : ∀ d ∈ c.storage.chunkshape, 0 < d :=
  stored_pos h.chunkshape (chunkshapeOf_pos (h.axes_pos hPos))

theorem viewNew_viewed {E : Backend} {c v : Container} {dtshape : Dtshape} {offset : List Int}
    (h : _iarrayViewNew E c dtshape offset = .ok v) : v.containerViewed.isSome := by
  obtain ⟨a, _, rfl⟩ := viewNew_ok h
  rfl

theorem getSlice_viewed {E : Backend} {c v : Container} {start stop : List Int}
    {storage : Storage} (h : iarrayGetSlice E c start stop true storage = .ok v) :
    v.containerViewed.isSome := by
  obtain ⟨_, _, h⟩ := Result.bind_eq_ok.mp h
  exact viewNew_viewed h

/-- A type view of a flat container shows the cast elements. -/
theorem Shows.typeView {E : Backend} {c v : Container} {A : NdArray Cell} {mask : List Bool}
    {off ws : List Nat} {dtype : Dtype} {g : Cell → Cell} (hE : E.Lawful)
    (h : Shows c A mask off ws) (hFlat : c.Flat) (hCast : CastOf E.machine c dtype g)
    (hv : iarrayGetTypeView E c dtype = .ok v) :
    Shows v (A.map g) (List.replicate A.shape.length false) (off.take c.dtshape.ndim)
      A.shape := by
  obtain ⟨a, ha, rfl⟩ := viewNew_ok hv
  have hLen : A.shape.length = c.dtshape.ndim := by rw [h.shape_length, h.dtshape_ndim]
  have hZero : addIdx (off.take c.dtshape.ndim) (List.replicate A.shape.length 0) =
      off.take c.dtshape.ndim :=
    addIdx_replicate_zero_right (h.take_off_length.trans hLen.symm)
  have hShows := h.viewOf hE hFlat _ c.offset ha (Region.whole A.shape)
    (h.shape.trans h.shape_eq.symm) hCast (by rw [hZero, h.offset, ints, ints, List.map_take])
  rw [hZero] at hShows
  refine hShows.congr ⟨rfl, fun x hx => ?_⟩
  have hx' : x.length = A.shape.length := hx.length_eq
  simp only [NdArray.map, NdArray.slice, addIdx_replicate_zero hx']

theorem Run.known {E : Backend} {c : Container} {A : NdArray Cell} (hE : E.Lawful)
    (h : Run E c A) : Known c A := by
  induction h with
  | plain hPlain => exact .plain hPlain (.refl _)
  | slice _ hFlat hSel hv ih =>
    obtain ⟨mask, off, ws, hShows⟩ := ih.shows hFlat.transposed
    exact .view (getSlice_viewed hv) (hShows.getSlice_view hE hFlat hSel hv)
  | sliceTransposed _ hTransposed hSel hv ih =>
    exact .view (getSlice_viewed hv)
      ((ih.showsTransposed hTransposed).getSlice_view hE hSel hv)
  | typeView _ hFlat hCast hv ih =>
    obtain ⟨mask, off, ws, hShows⟩ := ih.shows hFlat.transposed
    exact .view (viewNew_viewed hv) (hShows.typeView hE hFlat (castOf_elementCast hCast) hv)
  | @transpose c v A _ hv ih =>
    -- only a container that is not a view is transposed
    have hNone : c.containerViewed = none := (transpose_ok hv).1
    cases ih with
    | plain hPlain hSame =>
      exact .transposed ((transpose_shows hE hPlain hv).congr hSame.transpose)
    | view hViewed _ => exact absurd hViewed (by simp [hNone])
    | transposed hShows => exact absurd hShows.viewed (by simp [hNone])
  | @squeeze c v A mask _ hTransposed hMask hUnit hKeeps hv ih =>
    cases ih with
    | plain hPlain hSame =>
      have hShape : c.dtshape.shape = A.shape := hSame.shape
      rw [← hShape] at hMask hUnit
      obtain ⟨hPlain', hSame'⟩ := hPlain.squeeze hE hMask hUnit hv
      exact .plain hPlain' (hSame'.trans (hSame.squeeze hMask hUnit))
    | view hViewed hShows =>
      obtain ⟨w, hw, hEq, hShows'⟩ := hShows.squeeze_view (E := E) hViewed hMask hUnit
        (hKeeps hViewed)
      obtain rfl : w = v := by
        rw [hw, Except.ok.injEq] at hv
        exact hv
      exact .view (by rw [hEq]; exact hViewed) hShows'
    | transposed hShows => exact absurd hShows.transposed (by simp [hTransposed])

/-- An untransposed container of a run reads its array. -/
theorem Run.reads {E : Backend} {c : Container} {A : NdArray Cell} (hE : E.Lawful)
    (h : Run E c A) (hTransposed : c.transposed = false) : ReadsAs E c A := by
  obtain ⟨mask, off, ws, hShows⟩ := (h.known hE).shows hTransposed
  exact hShows.reads hE

end IronArray
