import IronArray.Core.Reference
import IronArray.Views.Making

/-!
# The operations on containers, against the arrays they show

One lemma for each operation of the chain: what the container it returns shows. A plain
container shows its contents; a slice or type view of a flat container shows the slice or
the cast; a slice copied from a container that has lost no axis shows the slice; a squeezed
view shows the squeezed array as long as every kept axis still has its own number in the
index map.
-/

namespace IronArray

open Grid

/-! ## Plain containers -/

/-- The element at an index; any value where the array cannot be read. -/
def CatArray.get (a : CatArray) (x : List Nat) : Cell :=
  match a.cell x with
  | .ok c => c
  | .error _ => .bits 0

theorem get_of_cell {a : CatArray} {x : List Nat} {c : Cell} (h : a.cell x = .ok c) :
    a.get x = c := by
  rw [CatArray.get, h]

/-- The elements a plain container holds. -/
def Container.contents (c : Container) : NdArray Cell := ⟨c.dtshape.shape, c.catarr.get⟩

theorem contents_plain {d : Dtype} {axes : List Axis} {f : List Nat → Cell} {x : List Nat}
    (hx : InBox x (shapeOf axes)) : (Reference.plain d axes f).contents.get x = f x :=
  get_of_cell (CatArray.cell_ofFn d.size_pos hx)

/-- An array whose blocks can all be read has an element at every index. -/
theorem cell_of_total {a : CatArray} {x : List Nat} (hTotal : a.sc.Total) (hSized : a.Sized)
    (hx : InBox x a.shape) : a.cell x = .ok (a.get x) := by
  obtain ⟨b, hb, hLen⟩ := hTotal (locate a.axes x).nchunk (locate a.axes x).nblock
  have hItem : (locate a.axes x).nitem < b.length := by
    rw [hLen, hSized.blockitems]
    exact nitem_lt hx
  have hCell : a.cell x = .ok b[(locate a.axes x).nitem] := by
    rw [CatArray.cell, hb]
    exact SChunk.itemOfBlock_ok hItem
  rw [CatArray.get, hCell]

/-- A plain container shows its contents. -/
theorem Plain.shows {c : Container} (h : Plain c) :
    Shows c c.contents (List.replicate c.dtshape.ndim false) (List.replicate c.dtshape.ndim 0)
      c.dtshape.shape := by
  have hTotal := SChunk.total_of_postfilter_none h.fresh.postfilter
  have hKeep : keep (List.replicate c.dtshape.ndim false) c.dtshape.shape = c.dtshape.shape :=
    keep_replicate_false rfl
  refine
    { transposed := h.transposed
      ndim := h.catarr_ndim ▸ h.ndim
      mask_length := by rw [List.length_replicate, h.catarr_ndim]
      offset := by rw [h.offset, ints_replicate_zero]
      region := ?_
      unit := unitOn_replicate_false rfl
      index := by rw [h.index, keptIdx_replicate_false]
      shape := hKeep.symm
      shape_eq := hKeep.symm
      sized := h.fresh.sized
      itemsize := h.fresh.itemsize
      total := hTotal
      storage := h.fresh.storage
      whole := fun _ => ⟨by rw [h.catarr_ndim], h.fresh.shape.symm, by rw [h.catarr_ndim]⟩
      cells := ?_ }
  · rw [h.fresh.shape]
    exact Region.whole _
  · intro x hx
    have hx' : x.length = c.dtshape.ndim := hx.length_eq
    rw [addIdx_replicate_zero hx', keep_replicate_false hx']
    rw [← h.fresh.shape] at hx
    exact cell_of_total hTotal h.fresh.sized hx

theorem Plain.reads {E : Backend} {c : Container} (hE : E.Lawful) (h : Plain c) :
    ReadsAs E c c.contents := h.shows.reads hE

/-! ## Slices -/

namespace Shows

variable {E : Backend} {c v : Container} {A : NdArray Cell} {mask : List Bool}
  {off ws s n : List Nat} {start stop : List Int} {storage : Storage}

/-- A container that has lost no axis is flat. -/
theorem flat_of_ndim (h : Shows c A mask off ws) (hNdim : c.catarr.ndim = c.dtshape.ndim) :
    c.Flat := by
  have hCount : mask.count false = mask.length := by
    rw [← h.dtshape_ndim, h.mask_length, hNdim]
  have hMask : mask = List.replicate c.dtshape.ndim false := by
    rw [List.eq_replicate_iff]
    refine ⟨by rw [h.mask_length, hNdim], fun b hb => ?_⟩
    exact (List.count_eq_length.mp hCount b hb).symm
  refine ⟨h.transposed, ?_, ?_⟩
  · rw [h.index, hMask, keptIdx_replicate_false]
  · intro a ha
    rw [List.drop_of_length_le (by rw [← hNdim, CatArray.ndim])] at ha
    cases ha

/-- In a flat container the region handed to the store starts with the selected one. -/
theorem extent_of_flat (h : Shows c A mask off ws) (hFlat : c.Flat)
    (hSel : Selects start stop A.shape s n) {i : Nat} (hi : i < c.dtshape.ndim) :
    (c.storeStop stop).getD i 0 - (c.storeStart start).getD i 0 = (n.getD i 0 : Nat) := by
  have hA : A.shape.length = c.dtshape.ndim := by rw [h.shape_length, h.dtshape_ndim]
  have hn := hSel.region.length.trans hA
  have hRegion := h.storeRegion hSel.region
  rw [h.storeStart hSel, h.storeStop hSel, getD_ints, getD_ints,
    getD_addIdx (hRegion.start_length.trans hRegion.length.symm)]
  have hSpread : (spread 1 mask n).getD i 0 = n.getD i 0 := by
    rw [h.mask_of_flat hFlat, spread_tailMask 1 _ hn, List.getD_append _ _ _ _ (by omega)]
  rw [hSpread]
  push_cast
  omega

theorem sliceDtshape_of_flat (h : Shows c A mask off ws) (hFlat : c.Flat)
    (hSel : Selects start stop A.shape s n) :
    c.sliceDtshape start stop = ⟨c.dtshape.dtype, n⟩ := by
  have hA : A.shape.length = c.dtshape.ndim := by rw [h.shape_length, h.dtshape_ndim]
  have hn := hSel.region.length.trans hA
  simp only [Container.sliceDtshape, Dtshape.mk.injEq, true_and]
  refine List.ext_getElem (by simp [hn]) ?_
  intro i hi hi'
  rw [List.getElem_map, List.getElem_range, h.extent_of_flat hFlat hSel (by simpa using hi),
    Int.toNat_natCast, List.getD_eq_getElem _ _ hi']

/-- A slice view of a flat container. -/
theorem getSlice_view_eq (storage : Storage) (h : Shows c A mask off ws) (hFlat : c.Flat)
    (hSel : Selects start stop A.shape s n) :
    iarrayGetSlice E c start stop true storage =
      _iarrayViewNew E c ⟨c.dtshape.dtype, n⟩ (c.storeStart start) := by
  have hCheck : checkSlice true (c.storeStart start) (c.storeStop stop) storage c.dtshape.ndim =
      .ok () := by
    refine Result.forM_ok fun i hi => ?_
    have hExtent := h.extent_of_flat hFlat hSel (List.mem_range.mp hi)
    rw [if_neg (by omega)]
    rfl
  rw [iarrayGetSlice, hCheck, h.sliceDtshape_of_flat hFlat hSel]
  rfl

theorem offset_of_flat (h : Shows c A mask off ws) (hFlat : c.Flat)
    (hSel : Selects start stop A.shape s n) :
    (c.storeStart start).take c.dtshape.ndim = ints (addIdx (off.take c.dtshape.ndim) s) := by
  have hA : A.shape.length = c.dtshape.ndim := by rw [h.shape_length, h.dtshape_ndim]
  have hs := hSel.region.start_length.trans hA
  rw [h.storeStart hSel, h.translate_of_flat hFlat hs, ints, ints, ← List.map_take]
  congr 1
  exact List.take_left' (by rw [length_addIdx (h.take_off_length.trans hs.symm), hs])

theorem getSlice_view (hE : E.Lawful) (h : Shows c A mask off ws) (hFlat : c.Flat)
    (hSel : Selects start stop A.shape s n)
    (hv : iarrayGetSlice E c start stop true storage = .ok v) :
    Shows v (A.slice s n) (List.replicate n.length false) (addIdx (off.take c.dtshape.ndim) s)
      n := by
  rw [h.getSlice_view_eq storage hFlat hSel] at hv
  obtain ⟨a, ha, rfl⟩ := viewNew_ok hv
  exact h.viewOf hE hFlat _ _ ha hSel.region rfl (Or.inl ⟨rfl, rfl⟩) (h.offset_of_flat hFlat hSel)

/-- A slice copied from a container that has lost no axis. -/
theorem getSlice_copy (hE : E.Lawful) (h : Shows c A mask off ws)
    (hNdim : c.catarr.ndim = c.dtshape.ndim) (hSel : Selects start stop A.shape s n)
    (hv : iarrayGetSlice E c start stop false storage = .ok v) :
    ReadsAs E v (A.slice s n) := by
  have hFlat := h.flat_of_ndim hNdim
  have hA : A.shape.length = c.dtshape.ndim := by rw [h.shape_length, h.dtshape_ndim]
  have hn := hSel.region.length.trans hA
  have hs := hSel.region.start_length.trans hA
  have hMask : mask = List.replicate c.dtshape.ndim false := by
    have := h.mask_of_flat hFlat
    rwa [h.mask_length, hNdim, Nat.sub_self, tailMask, List.replicate_zero, List.append_nil]
      at this
  have hSpread : ∀ (d : Nat) (l : List Nat), l.length = c.dtshape.ndim → spread d mask l = l := by
    intro d l hl
    rw [hMask, spread_replicate_false d hl]
  obtain ⟨_, _, hv⟩ := Result.bind_eq_ok.mp hv
  rw [if_neg Bool.false_ne_true, h.sliceDtshape_of_flat hFlat hSel] at hv
  obtain ⟨container, hNew, hv⟩ := Result.bind_eq_ok.mp hv
  obtain ⟨b, hSlice, hv⟩ := Result.bind_eq_ok.mp hv
  cases hv
  obtain ⟨hMax, rfl⟩ := containerNew_ok hNew
  rw [h.storeStart hSel, h.storeStop hSel, hSpread 0 s hs, hSpread 1 n hn] at hSlice
  have hRegion := h.storeRegion hSel.region
  rw [hSpread 0 s hs, hSpread 1 n hn] at hRegion
  obtain ⟨hFresh, hCells⟩ := hE.getSlice hRegion hSlice
  rw [h.itemsize] at hFresh
  refine ((plain_newContainer hMax hFresh).reads hE).congr ?_
  refine ⟨rfl, fun x hx => ?_⟩
  have hx' : x.length = c.dtshape.ndim := hx.length_eq.trans hn
  have hCell := h.storeCells hSel.region x (by rwa [hSpread 1 n hn])
  rw [hSpread 0 s hs] at hCell
  have hCopy := hCells x _ hx hCell
  simp only [Container.contents, newContainer, CatArray.get, hCopy, NdArray.slice]
  rw [hMask, keep_replicate_false hx']

end Shows

end IronArray
