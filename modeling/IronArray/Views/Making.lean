import IronArray.Views.Reading

/-!
# Views of a container

A view made by `_iarray_view_new` from a container with the identity index map shows a slice
of what the container shows, cast element by element when the types differ and the type of
the container is the type of its root. The argument goes through the postfilters: each
fetches the block with the same number from the predecessor, and single-item store axes
behind the logical ones do not change those numbers.
-/

namespace IronArray

open Grid

/-! ## Blocks through a postfilter -/

/-- Every block of `view` is the block of `viewed` with `g` applied to its items. -/
def BlocksVia (view viewed : SChunk) (g : Cell → Cell) : Prop :=
  ∀ nchunk nblock b, viewed.block nchunk nblock = .ok b →
    view.block nchunk nblock = .ok (b.map g)

theorem blocksVia_slice {view viewed : SChunk} {k size : Nat} (hSize : 0 < size)
    (hFilter : view.postfilter = some (sliceViewPostfilter viewed))
    (hView : view.typesize = size ∧ view.blocksize = k * size)
    (hViewed : viewed.typesize = size ∧ viewed.blocksize = k * size) (hWhole : viewed.Whole) :
    BlocksVia view viewed id := by
  intro nchunk nblock b hb
  have hLen := hWhole nchunk nblock b hb
  have hItems : viewed.blockitems = k := by
    rw [SChunk.blockitems, hViewed.1, hViewed.2, Nat.mul_div_cancel _ hSize]
  simp only [SChunk.block, hFilter, sliceViewPostfilter, hView.1, hView.2, hViewed.2]
  rw [Nat.mul_div_cancel _ hSize, ← hItems, SChunk.getitem_block hb hLen (by
    rw [hViewed.1])]
  simp

theorem viewCasts_dvd {src dst : Dtype} (h : dst ∈ viewCasts src) : src.size ∣ dst.size := by
  cases src <;> cases dst <;> revert h <;> decide

theorem castItem_ok (m : Machine) (src dst : Dtype) {aux : List Cell} {j : Nat}
    (hj : j < aux.length) : castItem m src src dst aux j = .ok (aux[j].convert m src dst) := by
  have hFits : ¬ aux.length * src.size < (j + 1) * src.size :=
    Nat.not_lt.mpr (Nat.mul_le_mul_right _ hj)
  rw [castItem, if_neg hFits, loadAt_aligned, List.getD_eq_getElem _ _ hj]

theorem blocksVia_type {view viewed : SChunk} {k : Nat} {m : Machine} {src dst : Dtype}
    (hCast : dst ∈ viewCasts src)
    (hFilter : view.postfilter = some (typeViewPostfilter m viewed src src dst))
    (hView : view.typesize = dst.size ∧ view.blocksize = k * dst.size)
    (hViewed : viewed.typesize = src.size ∧ viewed.blocksize = k * src.size)
    (hWhole : viewed.Whole) : BlocksVia view viewed (Cell.convert m src dst) := by
  intro nchunk nblock b hb
  have hLen := hWhole nchunk nblock b hb
  obtain ⟨p, hp⟩ := viewCasts_dvd hCast
  have hSrc := src.size_pos
  have hDst := dst.size_pos
  have hpPos : 0 < p := by
    rcases Nat.eq_zero_or_pos p with rfl | h
    · omega
    · exact h
  have hItems : viewed.blockitems = k := by
    rw [SChunk.blockitems, hViewed.1, hViewed.2, Nat.mul_div_cancel _ hSrc]
  have hProp : dst.size / src.size = p := by rw [hp, Nat.mul_div_cancel_left _ hSrc]
  have hAux : k * dst.size / p = k * src.size := by
    rw [hp, ← Nat.mul_assoc, Nat.mul_div_cancel _ hpPos]
  simp only [SChunk.block, hFilter, typeViewPostfilter, hView.1, hView.2, hViewed.1, hProp, hAux]
  rw [if_neg hpPos.ne', Nat.mul_div_cancel _ hDst, ← hItems,
    SChunk.getitem_block hb hLen (by rw [hViewed.1])]
  change (List.range _).mapM (castItem m src src dst b) = _
  rw [Result.mapM_ok _ _ fun j => (b.getD j (.bits 0)).convert m src dst]
  · congr 1
    refine List.ext_getElem (by simp [hLen]) ?_
    intro j _ hj
    rw [List.length_map] at hj
    simp [List.getElem?_eq_getElem hj]
  · intro j hj
    have hj' : j < b.length := by
      rw [hLen]
      exact List.mem_range.mp hj
    rw [castItem_ok m src dst hj', List.getD_eq_getElem _ _ hj']

theorem BlocksVia.total {view viewed : SChunk} {g : Cell → Cell} (h : BlocksVia view viewed g)
    (hItems : view.blockitems = viewed.blockitems) (hTotal : viewed.Total) : view.Total := by
  intro nchunk nblock
  obtain ⟨b, hb, hLen⟩ := hTotal nchunk nblock
  exact ⟨b.map g, h nchunk nblock b hb, by rw [List.length_map, hLen, hItems]⟩

theorem BlocksVia.cell {a b : CatArray} {g : Cell → Cell} {x y : List Nat} {c : Cell}
    (h : BlocksVia b.sc a.sc g) (hLocate : locate b.axes y = locate a.axes x)
    (hc : a.cell x = .ok c) : b.cell y = .ok (g c) := by
  unfold CatArray.cell at hc ⊢
  rw [hLocate]
  cases hBlock : a.sc.block (locate a.axes x).nchunk (locate a.axes x).nblock with
  | error e => rw [hBlock] at hc; cases hc
  | ok items =>
    rw [hBlock] at hc
    rw [h _ _ _ hBlock]
    change SChunk.itemOfBlock items _ = _ at hc
    change SChunk.itemOfBlock (items.map g) _ = _
    unfold SChunk.itemOfBlock at hc ⊢
    rw [List.getElem?_map]
    cases hItem : items[(locate a.axes x).nitem]? with
    | none => rw [hItem] at hc; cases hc
    | some c' =>
      rw [hItem] at hc
      cases hc
      rfl

/-! ## The result of `_iarray_view_new` -/

theorem viewNew_eq {E : Backend} {src : Container} {dtshape : Dtshape} (offset : List Int)
    {a : CatArray} (hNdim : dtshape.ndim ≤ dimensionMax)
    (ha : viewArray E src dtshape = .ok a) :
    _iarrayViewNew E src dtshape offset = .ok (viewOf E.machine src dtshape offset a) := by
  rw [_iarrayViewNew, if_neg (by omega), ha]
  rfl

theorem viewNew_ok {E : Backend} {src v : Container} {dtshape : Dtshape} {offset : List Int}
    (h : _iarrayViewNew E src dtshape offset = .ok v) :
    ∃ a, viewArray E src dtshape = .ok a ∧ v = viewOf E.machine src dtshape offset a := by
  unfold _iarrayViewNew at h
  split at h
  · cases h
  · cases ha : viewArray E src dtshape with
    | error e => rw [ha] at h; cases h
    | ok a =>
      rw [ha] at h
      cases h
      exact ⟨a, rfl, rfl⟩

/-- A transpose is a view of a matrix that is not a view itself. -/
theorem transpose_ok {E : Backend} {a t : Container} (h : iarrayLinalgTranspose E a = .ok t) :
    a.containerViewed = none ∧ a.dtshape.ndim = 2 ∧
      ∃ b, _iarrayViewNew E a ⟨a.dtshape.dtype, a.dtshape.shape.reverse⟩
        (List.replicate a.dtshape.ndim 0) = .ok b ∧ t = { b with transposed := true } := by
  unfold iarrayLinalgTranspose at h
  split at h
  · cases h
  rename_i hViewed
  split at h
  · cases h
  rename_i hNdim
  obtain ⟨b, hb, h⟩ := Result.bind_eq_ok.mp h
  cases h
  exact ⟨Option.not_isSome_iff_eq_none.mp hViewed, not_not.mp hNdim, b, hb, rfl⟩

/-! ## What the view shows -/

/-- Nothing before a logical axis has been squeezed away, and what has been squeezed away
behind the logical axes is a single item. -/
structure Container.Flat (c : Container) : Prop where
  transposed : c.transposed = false
  index : c.index = List.range c.dtshape.ndim
  single : ∀ a ∈ c.catarr.axes.drop c.dtshape.ndim, a.Single

/-- The types are equal, or the cast is selected by the type the items really have. -/
def CastOf (m : Machine) (src : Container) (dst : Dtype) (g : Cell → Cell) : Prop :=
  (dst = src.dtshape.dtype ∧ g = id) ∨
    (dst ≠ src.dtshape.dtype ∧ src.dtshape.dtype = src.root.dtshape.dtype ∧
      dst ∈ viewCasts src.dtshape.dtype ∧ g = Cell.convert m src.dtshape.dtype dst)

/-- The cast a type view stands for. -/
def elementCast (m : Machine) (src dst : Dtype) : Cell → Cell :=
  if dst = src then id else Cell.convert m src dst

/-- The type view to `dst` casts from the type of the container itself: it keeps the type, or
the container has the type of its root and the cast is in the table. -/
def Container.HasCast (c : Container) (dst : Dtype) : Prop :=
  dst = c.dtshape.dtype ∨
    (c.dtshape.dtype = c.root.dtshape.dtype ∧ dst ∈ viewCasts c.dtshape.dtype)

theorem castOf_elementCast {m : Machine} {src : Container} {dst : Dtype} (h : src.HasCast dst) :
    CastOf m src dst (elementCast m src.dtshape.dtype dst) := by
  unfold elementCast
  by_cases hSame : dst = src.dtshape.dtype
  · exact Or.inl ⟨hSame, if_pos hSame⟩
  · obtain ⟨hRoot, hCast⟩ := h.resolve_left hSame
    exact Or.inr ⟨hSame, hRoot, hCast, if_neg hSame⟩

theorem blocksVia_viewOf {m : Machine} {src : Container} {dtshape : Dtshape} {offset : List Int}
    {a : CatArray} {k : Nat} {g : Cell → Cell} (hg : CastOf m src dtshape.dtype g)
    (hView : a.sc.typesize = dtshape.dtypeSize ∧ a.sc.blocksize = k * dtshape.dtypeSize)
    (hViewed : src.catarr.sc.typesize = src.dtshape.dtypeSize ∧
      src.catarr.sc.blocksize = k * src.dtshape.dtypeSize) (hWhole : src.catarr.sc.Whole) :
    BlocksVia (viewOf m src dtshape offset a).catarr.sc src.catarr.sc g := by
  rcases hg with ⟨hSame, rfl⟩ | ⟨hNe, hRoot, hCast, rfl⟩
  · refine blocksVia_slice src.dtshape.dtype.size_pos ?_ ?_ hViewed hWhole
    · simp [viewOf, iarrayAddViewPostfilter, hSame]
    · simpa [viewOf, Dtshape.dtypeSize, hSame] using hView
  · refine blocksVia_type hCast ?_ hView hViewed hWhole
    simp [viewOf, iarrayAddViewPostfilter, hNe, hCast, ← hRoot]

namespace Shows

variable {E : Backend} {c : Container} {A : NdArray Cell} {mask : List Bool}
  {off ws s n : List Nat}

/-- In a flat container the removed axes are the last ones. -/
theorem mask_of_flat (h : Shows c A mask off ws) (hFlat : c.Flat) :
    mask = tailMask c.dtshape.ndim (mask.length - c.dtshape.ndim) :=
  eq_tailMask_of_keptIdx (h.index ▸ hFlat.index)

theorem ndim_le (h : Shows c A mask off ws) : c.dtshape.ndim ≤ mask.length := by
  rw [h.dtshape_ndim]
  exact List.count_le_length

/-- The window of a flat container has one item behind the logical axes. -/
theorem ws_of_flat (h : Shows c A mask off ws) (hFlat : c.Flat) :
    ws = A.shape ++ List.replicate (mask.length - c.dtshape.ndim) 1 := by
  have hUnit := h.unit
  have hLen : A.shape.length = c.dtshape.ndim := by rw [h.shape_length, h.dtshape_ndim]
  rw [UnitOn, ← h.shape_eq, h.mask_of_flat hFlat, spread_tailMask 1 _ hLen] at hUnit
  exact hUnit.symm

/-- The offsets of a flat container vanish behind the logical axes. -/
theorem off_of_flat (h : Shows c A mask off ws) (hFlat : c.Flat) :
    off = off.take c.dtshape.ndim ++ List.replicate (mask.length - c.dtshape.ndim) 0 := by
  have hLen := h.off_length
  have hAxes : c.catarr.axes.length = mask.length := h.mask_length.symm
  conv_lhs => rw [← List.take_append_drop c.dtshape.ndim off]
  congr 1
  rw [List.eq_replicate_iff, List.length_drop, hLen]
  refine ⟨rfl, ?_⟩
  intro o ho
  obtain ⟨i, hi, rfl⟩ := List.mem_iff_getElem.mp ho
  rw [List.length_drop, hLen] at hi
  have hShape : c.catarr.shape.getD (c.dtshape.ndim + i) 0 = 1 := by
    have hlt : i < (c.catarr.axes.drop c.dtshape.ndim).length := by
      rw [List.length_drop]
      omega
    have hSingle := hFlat.single _ (List.getElem_mem hlt)
    rw [List.getElem_drop] at hSingle
    rw [CatArray.shape, shapeOf, List.getD_eq_getElem _ _ (by rw [List.length_map]; omega),
      List.getElem_map, hSingle.1]
  have hWs : ws.getD (c.dtshape.ndim + i) 0 = 1 := by
    have hLen' : A.shape.length = c.dtshape.ndim := by rw [h.shape_length, h.dtshape_ndim]
    rw [h.ws_of_flat hFlat, List.getD_append_right _ _ _ _ (by omega), hLen',
      Nat.add_sub_cancel_left, List.getD_replicate _ (by omega)]
  have hBound := h.region.getD_le (c.dtshape.ndim + i)
  rw [hShape, hWs, List.getD_eq_getElem _ _ (by omega)] at hBound
  rw [List.getElem_drop]
  omega

theorem take_axes_length (h : Shows c A mask off ws) :
    (c.catarr.axes.take c.dtshape.ndim).length = c.dtshape.ndim := by
  have hLe := h.ndim_le
  rw [h.mask_length, CatArray.ndim] at hLe
  rw [List.length_take, Nat.min_eq_left hLe]

theorem take_off_length (h : Shows c A mask off ws) :
    (off.take c.dtshape.ndim).length = c.dtshape.ndim := by
  rw [List.length_take, h.off_length, Nat.min_eq_left h.ndim_le]

/-- Translating along the logical axes leaves the axes behind them at zero. -/
theorem translate_of_flat (h : Shows c A mask off ws) (hFlat : c.Flat) {x : List Nat}
    (hx : x.length = c.dtshape.ndim) :
    addIdx off (spread 0 mask x) = addIdx (off.take c.dtshape.ndim) x ++
      List.replicate (c.catarr.axes.drop c.dtshape.ndim).length 0 := by
  have hTail : mask.length - c.dtshape.ndim = (c.catarr.axes.drop c.dtshape.ndim).length := by
    rw [List.length_drop, h.mask_length, CatArray.ndim]
  conv_lhs => rw [h.off_of_flat hFlat, h.mask_of_flat hFlat]
  rw [spread_tailMask 0 _ hx, addIdx_append (h.take_off_length.trans hx.symm),
    addIdx_replicate_zero (by simp), hTail]

theorem region_of_flat (h : Shows c A mask off ws) (hFlat : c.Flat)
    (hRegion : Region s n A.shape) :
    Region (addIdx (off.take c.dtshape.ndim) s) n
      (shapeOf (c.catarr.axes.take c.dtshape.ndim)) := by
  have hA : A.shape.length = c.dtshape.ndim := by rw [h.shape_length, h.dtshape_ndim]
  have hs := hRegion.start_length.trans hA
  have hn := hRegion.length.trans hA
  have hWhole := h.storeRegion hRegion
  have hSplit : c.catarr.shape = shapeOf (c.catarr.axes.take c.dtshape.ndim) ++
      shapeOf (c.catarr.axes.drop c.dtshape.ndim) := by
    rw [CatArray.shape, shapeOf, shapeOf, shapeOf, ← List.map_append, List.take_append_drop]
  rw [h.translate_of_flat hFlat hs, hSplit] at hWhole
  rw [h.mask_of_flat hFlat, spread_tailMask 1 _ hn] at hWhole
  exact Region.of_append
    (by rw [length_addIdx (h.take_off_length.trans hs.symm), hs, length_shapeOf,
      h.take_axes_length])
    (by rw [hn, length_shapeOf, h.take_axes_length]) hWhole

theorem locate_of_flat (h : Shows c A mask off ws) (hFlat : c.Flat) {x : List Nat}
    (hs : s.length = c.dtshape.ndim) (hx : x.length = c.dtshape.ndim) :
    locate (c.catarr.axes.take c.dtshape.ndim) (addIdx (addIdx (off.take c.dtshape.ndim) s) x) =
      locate c.catarr.axes (addIdx (addIdx off (spread 0 mask s)) (spread 0 mask x)) := by
  have hLen : (addIdx (off.take c.dtshape.ndim) s).length = c.dtshape.ndim := by
    rw [length_addIdx (h.take_off_length.trans hs.symm), hs]
  have hAppend : addIdx (addIdx off (spread 0 mask s)) (spread 0 mask x) =
      addIdx (addIdx (off.take c.dtshape.ndim) s) x ++
        List.replicate (c.catarr.axes.drop c.dtshape.ndim).length 0 := by
    have hTail : mask.length - c.dtshape.ndim = (c.catarr.axes.drop c.dtshape.ndim).length := by
      rw [List.length_drop, h.mask_length, CatArray.ndim]
    rw [h.translate_of_flat hFlat hs]
    conv_lhs => rw [h.mask_of_flat hFlat]
    rw [spread_tailMask 0 _ hx, addIdx_append (hLen.trans hx.symm),
      addIdx_replicate_zero (by simp [hTail]), hTail]
  have hLocate := @locate_append_single (c.catarr.axes.take c.dtshape.ndim)
    (c.catarr.axes.drop c.dtshape.ndim) (addIdx (addIdx (off.take c.dtshape.ndim) s) x)
    (by rw [length_addIdx (hLen.trans hx.symm), hx, h.take_axes_length]) hFlat.single
  rw [List.take_append_drop] at hLocate
  rw [hAppend, hLocate]

theorem blockshape_of_flat (hFlat : c.Flat) :
    c.catarr.blockshape.prod = (blockshapeOf (c.catarr.axes.take c.dtshape.ndim)).prod := by
  conv_lhs => rw [CatArray.blockshape, ← List.take_append_drop c.dtshape.ndim c.catarr.axes]
  rw [blockshapeOf, List.map_append, map_single (fun _ ha => ha.2.2) hFlat.single,
    List.prod_append, List.prod_replicate, one_pow, Nat.mul_one]
  rfl

theorem viewStorage_caterva (src : Container) (ndim : Nat) :
    iarrayCreateCatervaStorage (viewStorage src ndim) =
      ⟨(iarrayCreateCatervaStorage src.storage).chunkshape.take ndim,
        (iarrayCreateCatervaStorage src.storage).blockshape.take ndim⟩ := by
  simp only [iarrayCreateCatervaStorage, viewStorage, List.map_take]

/-- The array of the view is tiled like the logical axes of the container. -/
theorem axes_viewArray (h : Shows c A mask off ws) {dtshape : Dtshape} {a : CatArray}
    (hFresh : Fresh a dtshape.dtypeSize (c.catarr.shape.take dtshape.ndim)
      (iarrayCreateCatervaStorage (viewStorage c dtshape.ndim)))
    (hNdim : dtshape.ndim = c.dtshape.ndim) :
    a.axes = c.catarr.axes.take c.dtshape.ndim := by
  refine axes_ext ?_ ?_ ?_
  · have hShape := hFresh.shape
    rw [CatArray.shape, CatArray.shape, hNdim] at hShape
    rw [hShape, shapeOf, shapeOf, List.map_take]
  · have hShape : ints a.chunkshape = ints (c.catarr.chunkshape.take c.dtshape.ndim) := by
      rw [hFresh.chunkshape, viewStorage_caterva, ← h.storage, hNdim, ints_take]
      rfl
    have hShape := ints_injective hShape
    rw [CatArray.chunkshape, CatArray.chunkshape] at hShape
    rw [hShape, chunkshapeOf, chunkshapeOf, List.map_take]
  · have hShape : ints a.blockshape = ints (c.catarr.blockshape.take c.dtshape.ndim) := by
      rw [hFresh.blockshape, viewStorage_caterva, ← h.storage, hNdim, ints_take]
      rfl
    have hShape := ints_injective hShape
    rw [CatArray.blockshape, CatArray.blockshape] at hShape
    rw [hShape, blockshapeOf, blockshapeOf, List.map_take]

/-- The main step: the view of a flat container shows the slice, cast. -/
theorem viewOf (hE : E.Lawful) (h : Shows c A mask off ws) (hFlat : c.Flat)
    (dtshape : Dtshape) (offset : List Int) {a : CatArray} {g : Cell → Cell}
    (ha : viewArray E c dtshape = .ok a) (hRegion : Region s n A.shape)
    (hShape : dtshape.shape = n) (hg : CastOf E.machine c dtshape.dtype g)
    (hOffset : offset.take c.dtshape.ndim = ints (addIdx (off.take c.dtshape.ndim) s)) :
    Shows (viewOf E.machine c dtshape offset a) ((A.slice s n).map g)
      (List.replicate n.length false) (addIdx (off.take c.dtshape.ndim) s) n := by
  have hFresh := hE.empty ha
  have hA : A.shape.length = c.dtshape.ndim := by rw [h.shape_length, h.dtshape_ndim]
  have hs := hRegion.start_length.trans hA
  have hn := hRegion.length.trans hA
  have hNdim : dtshape.ndim = c.dtshape.ndim := by rw [Dtshape.ndim, hShape, hn]
  have hAxes := h.axes_viewArray hFresh hNdim
  have hBlock : c.catarr.blockshape.prod = a.blockshape.prod := by
    rw [blockshape_of_flat hFlat, ← hAxes]
    rfl
  have hVia : BlocksVia (IronArray.viewOf E.machine c dtshape offset a).catarr.sc
      c.catarr.sc g := by
    refine blocksVia_viewOf (k := a.blockshape.prod) hg ?_ ?_ h.total.whole
    · exact ⟨hFresh.itemsize, by rw [hFresh.sized.2, hFresh.itemsize]⟩
    · exact ⟨h.itemsize, by rw [h.sized.2, h.itemsize, hBlock]⟩
  have hItems : (IronArray.viewOf E.machine c dtshape offset a).catarr.sc.blockitems =
      c.catarr.sc.blockitems := by
    rw [h.sized.blockitems, hBlock]
    exact hFresh.sized.blockitems
  refine
    { transposed := rfl
      ndim := ?_
      mask_length := ?_
      offset := ?_
      region := ?_
      unit := unitOn_replicate_false rfl
      index := ?_
      shape := ?_
      shape_eq := (keep_replicate_false rfl).symm
      sized := hFresh.sized
      itemsize := hFresh.itemsize
      total := hVia.total hItems h.total
      storage := hFresh.storage
      whole := fun hNone => absurd hNone (Option.some_ne_none _)
      cells := ?_ }
  · change a.axes.length ≤ _
    rw [hAxes, h.take_axes_length]
    exact h.ndim_le.trans (h.mask_length.trans_le h.ndim)
  · change _ = a.axes.length
    rw [List.length_replicate, hAxes, h.take_axes_length, hn]
  · change offset.take dtshape.ndim = _
    rw [hNdim, hOffset]
  · change Region _ _ (shapeOf a.axes)
    rw [hAxes]
    exact h.region_of_flat hFlat hRegion
  · rw [keptIdx_replicate_false, ← hShape]
    rfl
  · rw [keep_replicate_false rfl]
    exact hShape
  · intro x hx
    have hx' : x.length = c.dtshape.ndim := hx.length_eq.trans hn
    have hCount := h.dtshape_ndim
    have hCell := h.storeCells hRegion (spread 0 mask x)
      (by rwa [inBox_spread (hx'.trans hCount) (hn.trans hCount)])
    rw [keep_spread (hx'.trans hCount)] at hCell
    rw [keep_replicate_false hx.length_eq]
    refine hVia.cell ?_ hCell
    change locate a.axes _ = _
    rw [hAxes]
    exact h.locate_of_flat hFlat hs hx'

end Shows

end IronArray
