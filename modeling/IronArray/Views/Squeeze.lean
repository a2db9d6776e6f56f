import IronArray.Views.Transposed

/-!
# Squeezing

`iarray_squeeze_index` compacts the shape and the index map of a view in place. The loop
writes into the index map the position a kept axis has in the current view, so the new map is
the old one with entries removed only as long as those two numbers agree
(`Container.KeepsNumbers`).
-/

namespace IronArray

open Grid

/-! ## The loop -/

theorem set_append_drop {p : Nat} {front l : List Nat} (hFront : front.length = p)
    (hp : p < l.length) (v : Nat) :
    (front ++ l.drop p).set p v = front ++ [v] ++ l.drop (p + 1) := by
  rw [List.set_append_right _ _ hFront.le, hFront, Nat.sub_self, List.drop_eq_getElem_cons hp,
    List.set_cons_zero, List.append_assoc]
  rfl

theorem getD_append_drop {p i : Nat} {front l : List Nat} (hFront : front.length = p)
    (hp : p ≤ i) (hi : i < l.length) : (front ++ l.drop p).getD i 0 = l[i] := by
  rw [List.getD_append_right _ _ _ _ (by omega), hFront,
    List.getD_eq_getElem _ _ (by rw [List.length_drop]; omega), List.getElem_drop]
  congr 1
  omega

/-- After `i` passes the kept entries are in front and the rest is untouched. -/
theorem foldl_squeezeStep {mask : List Bool} {shape index : List Nat}
    (hShape : shape.length = mask.length) (hIndex : index.length = mask.length) {i : Nat}
    (hi : i ≤ mask.length) :
    (List.range i).foldl (squeezeStep mask) (0, shape, index) =
      (i - (mask.take i).count false,
        keep (mask.take i) (shape.take i) ++ shape.drop ((mask.take i).count false),
        keep (mask.take i) ((List.range mask.length).take i) ++
          index.drop ((mask.take i).count false)) := by
  induction i with
  | zero => simp
  | succ i ih =>
    have hlt : i < mask.length := hi
    have hCount : (mask.take i).count false ≤ i := by
      refine List.count_le_length.trans ?_
      rw [List.length_take]
      exact Nat.min_le_left _ _
    have hLen : ∀ l : List Nat, l.length = mask.length →
        (keep (mask.take i) (l.take i)).length = (mask.take i).count false := by
      intro l hl
      rw [length_keep (by simp [hl])]
    rw [List.range_succ, List.foldl_append, ih (by omega), List.foldl_cons, List.foldl_nil,
      keep_take_succ hShape hlt, keep_take_succ (by simp) hlt, List.getElem_range]
    have hTake : (mask.take (i + 1)).count false =
        (mask.take i).count false + if mask[i] then 0 else 1 := by
      rw [List.take_add_one, List.getElem?_eq_getElem hlt, Option.toList_some, List.count_append]
      cases mask[i] <;> simp
    have hGet : mask.getD i false = mask[i] := List.getD_eq_getElem _ _ hlt
    unfold squeezeStep
    dsimp only
    rw [hGet, hTake]
    cases hb : mask[i] with
    | true => simp only [if_true, List.append_nil, Nat.add_zero]; congr 1; omega
    | false =>
      have hSub : i - (i - (mask.take i).count false) = (mask.take i).count false := by omega
      have hShapeLen := hLen shape hShape
      have hRangeLen := hLen (List.range mask.length) (by simp)
      simp only [Bool.false_eq_true, if_false]
      rw [hSub, getD_append_drop hShapeLen hCount (by omega),
        set_append_drop hShapeLen (by omega), set_append_drop hRangeLen (by omega),
        Nat.add_sub_add_right]

theorem squeeze_loop {mask : List Bool} {shape index : List Nat}
    (hShape : shape.length = mask.length) (hIndex : index.length = mask.length) :
    let state := (List.range mask.length).foldl (squeezeStep mask) (0, shape, index)
    state.2.1.take (mask.length - state.1) = keep mask shape ∧
      state.2.2.take (mask.length - state.1) = keep mask (List.range mask.length) := by
  have hCount : mask.count false ≤ mask.length := List.count_le_length
  have hSub : mask.length - (mask.length - mask.count false) = mask.count false := by omega
  have hRange : (List.range mask.length).length = mask.length := List.length_range
  rw [foldl_squeezeStep hShape hIndex le_rfl]
  simp only [List.take_length, hSub]
  rw [List.take_of_length_le hShape.le, List.take_of_length_le hRange.le]
  exact ⟨List.take_left' (length_keep hShape), List.take_left' (length_keep hRange)⟩

/-! ## Squeezing a view -/

/-- Every axis that the mask keeps has its own number in the index map. -/
def Container.KeepsNumbers (c : Container) (mask : List Bool) : Prop :=
  keep mask c.index = keep mask (List.range c.dtshape.ndim)

/-- The view that `iarray_squeeze_index` leaves. -/
def Container.squeezed (c : Container) (mask : List Bool) : Container :=
  { c with
    dtshape := ⟨c.dtshape.dtype, keep mask c.dtshape.shape⟩
    index := keep mask (List.range c.dtshape.ndim) }

theorem squeezeIndex_view_eq {E : Backend} {c : Container} {mask : List Bool}
    (hViewed : c.containerViewed.isSome) (hMask : mask.length = c.dtshape.ndim)
    (hIndex : c.index.length = c.dtshape.ndim) :
    iarraySqueezeIndex E c mask = .ok (c.squeezed mask) := by
  obtain ⟨root, hRoot⟩ := Option.isSome_iff_exists.mp hViewed
  have hLoop := @squeeze_loop mask c.dtshape.shape c.index hMask.symm (hIndex.trans hMask.symm)
  rw [hMask] at hLoop
  unfold iarraySqueezeIndex
  rw [hRoot, if_neg (by simp)]
  simp only [hLoop.1, hLoop.2]
  simp [Container.squeezed, hRoot]

theorem Shows.squeeze_view {E : Backend} {c : Container} {A : NdArray Cell}
    {mask₀ mask : List Bool} {off ws : List Nat} (h : Shows c A mask₀ off ws)
    (hViewed : c.containerViewed.isSome) (hMask : mask.length = A.shape.length)
    (hUnit : UnitOn mask A.shape) (hKeeps : c.KeepsNumbers mask) :
    ∃ v, iarraySqueezeIndex E c mask = .ok v ∧ v.containerViewed = c.containerViewed ∧
      Shows v (A.squeeze mask) (compose mask₀ mask) off ws := by
  have hCount : mask.length = mask₀.count false := hMask.trans h.shape_length
  have hIndex : c.index.length = c.dtshape.ndim := by
    rw [h.index, length_keptIdx, h.dtshape_ndim]
  refine ⟨_, squeezeIndex_view_eq hViewed (hCount.trans h.dtshape_ndim.symm) hIndex, rfl, ?_⟩
  refine
    { transposed := h.transposed
      ndim := h.ndim
      mask_length := by rw [length_compose, h.mask_length]; rfl
      offset := h.offset
      region := h.region
      unit := unitOn_compose h.ws_length hCount h.unit (h.shape_eq ▸ hUnit)
      index := ?_
      shape := ?_
      shape_eq := ?_
      sized := h.sized
      itemsize := h.itemsize
      total := h.total
      storage := h.storage
      whole := fun hNone => absurd hViewed (by
        rw [show c.containerViewed = none from hNone]
        exact Bool.false_ne_true)
      cells := ?_ }
  · rw [keptIdx_compose hCount, ← h.index]
    exact hKeeps.symm
  · rw [keep_compose hCount, ← h.shape]
    rfl
  · rw [keep_compose hCount, ← h.shape_eq]
    rfl
  · intro x hx
    have hKeep := @inBox_keep mask₀ _ _ hx
    rw [← h.shape_eq] at hKeep
    have hCell := h.cells x hx
    rw [← spread_keep_of_inBox hMask.symm hUnit hKeep, ← keep_compose hCount] at hCell
    exact hCell

/-! ## Squeezing a plain container -/

theorem squeezeOffset_zero (mask : List Bool) (N n inc : Nat) :
    ((List.range n).foldl (squeezeOffsetStep mask) (inc, List.replicate N 0)).2 =
      List.replicate N 0 := by
  generalize List.range n = is
  induction is generalizing inc with
  | nil => rfl
  | cons i is ih =>
    have hStep : squeezeOffsetStep mask (inc, List.replicate N 0) i =
        (if mask.getD i false then inc + 1 else inc, List.replicate N 0) := by
      simp only [squeezeOffsetStep, List.getD_eq_getElem?_getD,
        List.getElem?_getD_replicate_default_eq, List.set_replicate_self]
    rw [List.foldl_cons, hStep]
    exact ih _

/-- A plain container stays plain and loses the marked axes. -/
theorem Plain.squeeze {E : Backend} {c v : Container} {mask : List Bool} (hE : E.Lawful)
    (h : Plain c) (hMask : mask.length = c.dtshape.ndim) (hUnit : UnitOn mask c.dtshape.shape)
    (hv : iarraySqueezeIndex E c mask = .ok v) :
    Plain v ∧ v.contents.Same (c.contents.squeeze mask) := by
  rw [iarraySqueezeIndex, h.containerViewed, if_pos (by simp)] at hv
  obtain ⟨b, hb, hv⟩ := Result.bind_eq_ok.mp hv
  obtain ⟨hFresh, hCells⟩ := hE.squeezeIndex (hMask.trans h.catarr_ndim.symm)
    (h.fresh.shape.symm ▸ hUnit) h.fresh.sized h.fresh.postfilter hb
  have hCount : (keep mask c.dtshape.shape).length = mask.count false := length_keep hMask.symm
  have hNdim : b.ndim = mask.count false := by
    rw [CatArray.ndim, ← length_shapeOf, ← CatArray.shape, hFresh.shape, h.fresh.shape, hCount]
  have hLe : b.ndim ≤ c.dtshape.ndim := by
    rw [hNdim, ← hMask]
    exact List.count_le_length
  have hItemsize : c.catarr.itemsize = c.dtshape.dtypeSize := h.fresh.itemsize
  have hSame : ∀ w : Container, w.dtshape.shape = keep mask c.dtshape.shape → w.catarr = b →
      w.contents.Same (c.contents.squeeze mask) := by
    intro w hShape hArr
    refine ⟨hShape, fun x hx => ?_⟩
    change InBox x w.dtshape.shape at hx
    rw [hShape] at hx
    have hx' : x.length = mask.count false := hx.length_eq.trans hCount
    have hSpread : InBox (spread 0 mask x) c.dtshape.shape := by
      rw [← hUnit]
      exact (inBox_spread hx' hCount).mpr hx
    rw [← h.fresh.shape] at hSpread
    have hTotal := SChunk.total_of_postfilter_none h.fresh.postfilter
    have hCell := hCells _ _ hSpread (cell_of_total hTotal h.fresh.sized hSpread)
    rw [keep_spread hx'] at hCell
    change w.catarr.get x = c.catarr.get (spread 0 mask x)
    rw [hArr, CatArray.get, hCell]
  rw [hItemsize, h.fresh.shape] at hFresh
  split at hv
  · cases hv
    refine ⟨⟨rfl, h.transposed, ?_, ?_, ?_, ?_⟩, hSame _ hFresh.shape rfl⟩
    · change b.shape.length ≤ _
      rw [CatArray.shape, length_shapeOf]
      exact hLe.trans h.ndim
    · change List.take b.ndim _ = List.replicate b.shape.length 0
      rw [h.offset, squeezeOffset_zero, List.take_replicate, Nat.min_eq_left hLe, CatArray.shape,
        length_shapeOf, CatArray.ndim]
    · change c.index.take b.ndim = List.range b.shape.length
      rw [h.index, List.take_range, Nat.min_eq_left hLe, CatArray.shape, length_shapeOf,
        CatArray.ndim]
    · have hFits : Storage.Fits ⟨b.chunkshape, b.blockshape⟩ := by
        rw [ints_injective hFresh.chunkshape, ints_injective hFresh.blockshape]
        exact ⟨fun n hn => h.fresh.chunkshape_lt n (mem_of_mem_keep hn),
          fun n hn => h.fresh.blockshape_lt n (mem_of_mem_keep hn)⟩
      exact ⟨rfl, (iarrayCreateCatervaStorage_fits hFits).symm, hFresh.itemsize, hFresh.sized,
        hFresh.postfilter⟩
  · rename_i hEq
    cases hv
    have hAll : mask = List.replicate c.dtshape.ndim false := by
      rw [List.eq_replicate_iff]
      refine ⟨hMask, fun m hm => ?_⟩
      have hFull : mask.count false = mask.length := by omega
      exact (List.count_eq_length.mp hFull m hm).symm
    have hKeep : ∀ l : List Nat, l.length = c.dtshape.ndim → keep mask l = l := by
      intro l hl
      rw [hAll, keep_replicate_false hl]
    have hShape : keep mask c.dtshape.shape = c.dtshape.shape := hKeep _ rfl
    refine ⟨⟨rfl, h.transposed, h.ndim, h.offset, h.index, ?_⟩,
      hSame _ hShape.symm rfl⟩
    refine ⟨hFresh.shape.trans hShape, ?_, hFresh.itemsize, hFresh.sized, hFresh.postfilter⟩
    rw [← h.fresh.storage]
    refine hFresh.storage.trans ?_
    rw [hKeep _ (by rw [← h.catarr_ndim]; simp [CatArray.chunkshape, chunkshapeOf, CatArray.ndim]),
      hKeep _ (by rw [← h.catarr_ndim]; simp [CatArray.blockshape, blockshapeOf, CatArray.ndim])]
    rfl

/-- Squeezing twice is squeezing once with the combined mask. -/
theorem squeezeIndex_twice {E : Backend} {c v : Container} {mask mask' : List Bool}
    (hViewed : c.containerViewed.isSome) (hIndex : c.index.length = c.dtshape.ndim)
    (hMask : mask.length = c.dtshape.ndim) (hMask' : mask'.length = mask.count false)
    (hv : iarraySqueezeIndex E c mask = .ok v) (hKeeps : v.KeepsNumbers mask') :
    iarraySqueezeIndex E v mask' = iarraySqueezeIndex E c (compose mask mask') := by
  rw [squeezeIndex_view_eq hViewed hMask hIndex] at hv
  cases hv
  have hShape : (c.squeezed mask).dtshape.ndim = mask.count false := length_keep hMask.symm
  have hLen : (c.squeezed mask).index.length = mask.count false :=
    length_keep (by rw [List.length_range, hMask])
  have hViewed' : (c.squeezed mask).containerViewed.isSome := hViewed
  rw [squeezeIndex_view_eq hViewed (by rw [length_compose, hMask]) hIndex,
    squeezeIndex_view_eq hViewed' (hMask'.trans hShape.symm) (hLen.trans hShape.symm)]
  unfold Container.KeepsNumbers at hKeeps
  rw [Container.squeezed, ← hKeeps]
  simp only [Container.squeezed, keep_compose hMask']

end IronArray
