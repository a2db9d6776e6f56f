import IronArray.Core.Places
import IronArray.Iterators.Copy
import IronArray.Reduce.Code
import IronArray.Reduce.Laws

/-!
# Removing one axis

`reducePrefilter_item` gives an item of the result of `_reduce_prefilter` as the value of the
elements that the loops over chunks, blocks and items see. Where the elements are addressed
in units of their own size these are the elements of the line of the input that projects onto
the item, each taken once and in order.
-/

namespace IronArray

open Grid CatArray

/-! ## Blocks and lines -/

theorem CatArray.rawBlock_locate {a : CatArray} (hSized : a.Sized) (hPost : a.sc.postfilter = none)
    {x : List Nat} (hx : InBox x a.shape) :
    chunkItems (a.sc.rawBlock (locate a.axes x).nchunk (locate a.axes x).nblock)
      (locate a.axes x).nitem = a.get x := by
  have hItem : (locate a.axes x).nitem <
      (a.sc.rawBlock (locate a.axes x).nchunk (locate a.axes x).nblock).length := by
    rw [SChunk.rawBlock, List.length_map, List.length_range, hSized.blockitems]
    exact nitem_lt hx
  rw [get, cell, SChunk.block, hPost, Result.ok_bind, SChunk.itemOfBlock_ok hItem, chunkItems,
    List.getD_eq_getElem _ _ hItem]

/-- The place inside its block of the first element of a line. -/
def lineStart (axes : List Axis) (k : Nat) (y : List Nat) : Nat :=
  dot ((List.zipWith Axis.itemOf (axes.eraseIdx k) y).insertIdx k 0) (strides (blockshapeOf axes))

/-- The numbers of an index of the array whose coordinate along axis `k` is given by its
chunk, block and item. -/
theorem locate_insertIdx {axes : List Axis} {k : Nat} (hk : k < axes.length) {y : List Nat}
    (hLen : axes.length = y.length + 1) {p : Nat × Nat × Nat} (hp : p ∈ axes[k].walk) :
    locate axes (y.insertIdx k (axes[k].join p.1 p.2.1 p.2.2)) =
      ⟨numberAt (strides (axes.map Axis.chunks)) k p.1
          (List.zipWith Axis.chunkOf (axes.eraseIdx k) y),
        numberAt (strides (axes.map Axis.blocks)) k p.2.1
          (List.zipWith Axis.blockOf (axes.eraseIdx k) y),
        lineStart axes k y + p.2.2 * (strides (blockshapeOf axes)).getD k 0⟩ := by
  obtain ⟨hChunk, hBlock, hItem⟩ := Axis.split_of_mem_walk hp
  have hErase : (axes.eraseIdx k).length = y.length := by
    rw [List.length_eraseIdx_of_lt hk]
    omega
  have hZip : ∀ pos : Axis → Nat → Nat, (List.zipWith pos (axes.eraseIdx k) y).length = y.length :=
    fun pos => by simp [hErase]
  simp only [locate, Place.mk.injEq, numberAt, zipWith_insertIdx _ _ hk hLen, hChunk, hBlock, hItem]
  refine ⟨flat_insertIdx _ (by simpa using hk) (by simp [hZip, hLen]),
    flat_insertIdx _ (by simpa using hk) (by simp [hZip, hLen]), ?_⟩
  have hk' : k < (blockshapeOf axes).length := by simpa [blockshapeOf] using hk
  have hLen' : (blockshapeOf axes).length =
      (List.zipWith Axis.itemOf (axes.eraseIdx k) y).length + 1 := by
    simp [blockshapeOf, hZip, hLen]
  rw [lineStart, dot_strides, flat_insertIdx _ hk' hLen', flat_insertIdx _ hk' hLen', Nat.zero_mul,
    Nat.zero_add, Nat.add_comm]

/-- The positions of an element in its block. -/
theorem inBox_reach {axes : List Axis} {y : List Nat} (hy : InBox y (shapeOf axes)) :
    InBox (List.zipWith Axis.itemOf axes y) (axes.map Axis.reach) :=
  inBox_zipWith (fun _ _ => Axis.itemOf_lt_reach) hy

/-- The block lengths asked for give the places of the elements of a line. -/
theorem line_places {axes : List Axis} {ns is : List Nat} {k i : Nat} (hFit : PlacesFit axes ns)
    (hStored : ints (blockshapeOf axes) = ns.map fun n : Nat => toInt32 n) (hk : k < axes.length)
    (his : InBox is ((axes.eraseIdx k).map Axis.reach)) (hi : i < axes[k].reach) :
    dot (is.insertIdx k 0) (strides ns) = dot (is.insertIdx k 0) (strides (blockshapeOf axes)) ∧
      i * (strides ns).getD k 0 = i * (strides (blockshapeOf axes)).getD k 0 := by
  have hErase := his.length_eq
  rw [List.length_map, List.length_eraseIdx_of_lt hk] at hErase
  have hLen : (blockshapeOf axes).length = is.length + 1 := by
    rw [blockshapeOf, List.length_map]
    omega
  have hLen' : ns.length = is.length + 1 := (length_stored hStored).trans hLen
  have hAt : ∀ j ≤ i, flat ns (is.insertIdx k j) = flat (blockshapeOf axes) (is.insertIdx k j) := by
    intro j hj
    refine flat_places hFit hStored ((inBox_insertIdx (by rwa [List.length_map])).mpr ⟨?_, ?_⟩)
    · rw [List.getElem_map]
      omega
    · rwa [List.eraseIdx_map]
  have hLine : ∀ {ms : List Nat}, ms.length = is.length + 1 → ∀ j,
      flat ms (is.insertIdx k j) = j * (strides ms).getD k 0 + dot is ((strides ms).eraseIdx k) :=
    fun hms j => flat_insertIdx _ (by omega) hms
  have hFirst := hAt 0 (Nat.zero_le i)
  have hLast := hAt i le_rfl
  rw [dot_strides, dot_strides]
  refine ⟨hFirst, ?_⟩
  rw [hLine hLen', hLine hLen] at hFirst hLast
  omega

/-- The elements that the loops see for the item of the result at `y`. -/
def seen (m : Machine) (f : ReduceFunction) (a : CatArray) (k : Nat) (y : List Nat) : List Num :=
  match a.axes[k]? with
  | none => []
  | some axis => axis.walk.map fun p =>
    vectorElem m f.otype f.itype
      (a.sc.rawBlock
        (numberAt (strides (a.axes.map Axis.chunks)) k p.1
          (List.zipWith Axis.chunkOf (a.axes.eraseIdx k) y))
        (numberAt (strides (a.axes.map Axis.blocks)) k p.2.1
          (List.zipWith Axis.blockOf (a.axes.eraseIdx k) y)))
      (lineStart a.axes k y) ((strides (blockshapeOf a.axes)).getD k 0) p.2.2

/-- The elements seen, by the block lengths that the container was asked for. -/
theorem seen_stored {m : Machine} {f : ReduceFunction} {a : Container} {k : Nat} (ha : Plain a)
    (hPlaced : a.WellPlaced) (hk : k < a.catarr.axes.length) {y : List Nat}
    (hy : InBox y (shapeOf (a.catarr.axes.eraseIdx k))) :
    seen m f a.catarr k y = a.catarr.axes[k].walk.map fun p =>
      vectorElem m f.otype f.itype
        (a.catarr.sc.rawBlock
          (numberAt (strides (a.catarr.axes.map Axis.chunks)) k p.1
            (List.zipWith Axis.chunkOf (a.catarr.axes.eraseIdx k) y))
          (numberAt (strides (a.catarr.axes.map Axis.blocks)) k p.2.1
            (List.zipWith Axis.blockOf (a.catarr.axes.eraseIdx k) y)))
        (dot ((List.zipWith Axis.itemOf (a.catarr.axes.eraseIdx k) y).insertIdx k 0)
          (strides a.storage.blockshape))
        ((strides a.storage.blockshape).getD k 0) p.2.2 := by
  rw [seen, List.getElem?_eq_getElem hk]
  refine List.map_congr_left ?_
  rintro ⟨c, b, i⟩ hp
  have hItem : i < a.catarr.axes[k].reach :=
    Axis.item_lt_reach hp
  obtain ⟨hStart, hStride⟩ := line_places hPlaced ha.fresh.blockshape hk (inBox_reach hy) hItem
  simp only [vectorElem, lineStart, hStart, hStride]

theorem length_seen (m : Machine) (f : ReduceFunction) {a : CatArray} {k : Nat}
    (hk : k < a.axes.length) (y : List Nat) : (seen m f a k y).length = a.axes[k].shape := by
  have hWalk := congrArg List.length a.axes[k].walk_join
  rw [List.length_map, List.length_range] at hWalk
  rw [seen, List.getElem?_eq_getElem hk, List.length_map, hWalk]

/-! ## One item of the result -/

theorem zipWith_mod_of_inBox {is ns : List Nat} (h : InBox is ns) :
    List.zipWith (· % ·) is ns = is := by
  induction h with
  | nil => rfl
  | cons hi _ ih => rw [List.zipWith_cons_cons, ih, Nat.mod_eq_of_lt hi]

/-- The loops over chunks and blocks at one item fold over the walk along the axis. -/
theorem foldl_walk {σ : Type} (axis : Axis) (step : σ → Num → σ) (elem : Nat → Nat → Nat → Num)
    (s : σ) :
    (List.range axis.chunks).foldl (fun s c => (List.range axis.blocks).foldl (fun s b =>
      ((List.range (axis.nitems c b)).map (elem c b)).foldl step s) s) s =
      (axis.walk.map fun p => elem p.1 p.2.1 p.2.2).foldl step s := by
  rw [Axis.walk, List.map_flatMap, List.foldl_flatMap]
  congr 1
  funext s c
  rw [List.map_flatMap, List.foldl_flatMap]
  congr 1
  funext s b
  rw [List.map_map]
  rfl

/-- The loops over chunks and blocks act on the items of the result one by one. -/
theorem getD_loops {α : Type} {i : Nat} {d : α} {out : List α} (hi : i < out.length)
    (nchunks nblocks : Nat) (visit : Nat → Nat → Nat → α → α) :
    ((List.range nchunks).foldl (fun out c => (List.range nblocks).foldl (fun out b =>
        out.mapIdx (visit c b)) out) out).getD i d =
      (List.range nchunks).foldl (fun acc c => (List.range nblocks).foldl (fun acc b =>
        visit c b i acc) acc) (out.getD i d) :=
  (ActsAt.foldl (fun _ _ => ActsAt.foldl fun _ _ => actsAt_mapIdx hi _) rfl).2

theorem getD_map_range {α : Type} {n i : Nat} (g : Nat → α) (d : α) (hi : i < n) :
    ((List.range n).map g).getD i d = g i := by
  rw [List.getD_eq_getElem _ _ (by simpa using hi), List.getElem_map, List.getElem_range]

/-- What holds of one axis and of the others holds of all. -/
theorem forall_of_eraseIdx {α : Type} {P : α → Prop} {as : List α} {k : Nat} (hk : k < as.length)
    (hOne : P as[k]) (hRest : ∀ a ∈ as.eraseIdx k, P a) : ∀ a ∈ as, P a := by
  intro a ha
  obtain ⟨i, hi, rfl⟩ := List.getElem_of_mem ha
  by_cases hik : i = k
  · subst hik
    exact hOne
  · exact hRest _ (List.mem_eraseIdx_iff_getElem.mpr ⟨i, hi, hik, rfl⟩)

section Item

variable {E : Backend} {f : ReduceFunction} {a c : Container} {k : Nat}

theorem reducePrefilter_item (ha : Plain a) (hc : Plain c) (hPlaced : a.WellPlaced)
    (hStorage : c.storage.blockshape = a.storage.blockshape.eraseIdx k)
    (hAxes : c.catarr.axes = a.catarr.axes.eraseIdx k) (hk : k < a.catarr.axes.length)
    (hLoop : ∀ u acc xs, f.reduction u acc xs = xs.foldl (f.step u) acc) {y : List Nat}
    (hy : InBox y (shapeOf c.catarr.axes)) {out : List Cell}
    (h : reducePrefilter E f a c k (locate c.catarr.axes y).nchunk
      (partShape c.catarr.axes (locate c.catarr.axes y).nchunk)
      (locate c.catarr.axes y).nblock = .ok out) :
    ∃ v, f.value (seen E.machine f a.catarr k y) = .ok v ∧
      out.getD (locate c.catarr.axes y).nitem (.bits 0) = v.cell f.otype := by
  have hPos := shape_pos_of_inBox hy
  obtain ⟨hChunkPos, hBlockPos, -⟩ := positions_of_inBox hy
  have hItem : (locate c.catarr.axes y).nitem < c.catarr.blockshape.prod := nitem_lt hy
  have hPlacedResult : c.WellPlaced := by
    rw [Container.WellPlaced, hAxes, hStorage]
    exact hPlaced.eraseIdx k
  -- the place of the item in a block of the lengths asked for
  have hItemPos : indexUnidimToMultidimShape c.storage.blockshape (locate c.catarr.axes y).nitem =
      List.zipWith Axis.itemOf c.catarr.axes y := by
    have hReach := inBox_reach hy
    have hIn : InBox (List.zipWith Axis.itemOf c.catarr.axes y) c.storage.blockshape :=
      inBox_mono (inBox_zipWith (fun _ _ => Axis.itemOf_lt) hy) (stored_le hc.fresh.blockshape)
    rw [locate, ← flat_places hPlacedResult hc.fresh.blockshape hReach]
    exact indexUnidimToMultidimShape_flat hIn
  have hPadding := checkPadding_of_inBox hy
  rw [← hChunkPos] at hPadding
  unfold reducePrefilter at h
  rw [shapeOfChunks_ok fun x hx => x.chunk_pos (hPos x hx), Result.ok_bind,
    shapeOfBlocks_ok hPos, Result.ok_bind] at h
  obtain ⟨inputBlocks, hBlocks, h⟩ := Result.bind_eq_ok.mp h
  obtain ⟨inputChunks, hChunks, h⟩ := Result.bind_eq_ok.mp h
  rw [shapeOfChunks_ok (mapM_idiv_eq_ok hChunks), Except.ok.injEq] at hChunks
  subst hChunks
  simp only [hBlockPos, computeStrides_eq] at h
  have hLen := (Result.mapM_eq_ok h).length_eq
  rw [List.length_range] at hLen
  have hOut := (List.forall₂_iff_get.mp (Result.mapM_eq_ok h)).2 (locate c.catarr.axes y).nitem
    (by simpa using hItem) (by omega)
  simp only [List.get_eq_getElem, List.getElem_range, hItemPos] at hOut
  have hInside : ¬ checkPadding c.catarr.axes (partShape c.catarr.axes (locate c.catarr.axes y).nchunk)
      (List.zipWith Axis.blockOf c.catarr.axes y)
      (List.zipWith Axis.itemOf c.catarr.axes y) = true := by
    rw [partShape, hPadding]
    exact Bool.false_ne_true
  rw [if_neg hInside, getD_loops (by simpa using hItem),
    getD_map_range _ _ hItem] at hOut
  have hMod := zipWith_mod_of_inBox (inBox_zipWith (fun _ _ => Axis.blockOf_lt) hy)
  simp only [hItemPos, if_neg hInside, hLoop, hChunkPos, hMod] at hOut
  obtain ⟨v, hFinish, hCell⟩ := Result.bind_eq_ok.mp hOut
  refine ⟨v, ?_, (List.getD_eq_getElem _ _ (by omega)).trans (Except.ok.inj hCell).symm⟩
  rw [← hFinish, ReduceFunction.value]
  have hShape : a.tableLength E k = a.catarr.axes[k].shape := by
    rw [tableLength_of_lt (by rwa [← ha.catarr_ndim]), ← ha.fresh.shape, CatArray.shape, shapeOf,
      List.getD_eq_getElem _ _ (by simpa using hk),
      List.getElem_map]
  have hChunks : (a.catarr.axes.map Axis.chunks).getD k 1 = a.catarr.axes[k].chunks := by
    rw [List.getD_eq_getElem _ _ (by simpa using hk), List.getElem_map]
  rw [length_seen _ _ hk, ← hShape, hChunks]
  change f.finish (slabData _) _ = f.finish (slabData _) _
  congr 1
  rcases Nat.eq_zero_or_pos a.catarr.axes[k].shape with hZero | hLine
  · have hSeen : seen E.machine f a.catarr k y = [] := List.length_eq_zero_iff.mp (by
      rw [length_seen _ _ hk, hZero])
    have hNone : a.catarr.axes[k].chunks = 0 := by rw [Axis.chunks, hZero, numTiles_zero]
    rw [hSeen, hNone]
    rfl
  · have hAll : ∀ x ∈ a.catarr.axes, 0 < x.shape := forall_of_eraseIdx hk hLine (hAxes ▸ hPos)
    rw [shapeOfBlocks_ok hAll, Except.ok.injEq] at hBlocks
    subst hBlocks
    have hBlockCount : (a.catarr.axes.map Axis.blocks).getD k 1 = a.catarr.axes[k].blocks := by
      rw [List.getD_eq_getElem _ _ (by simpa using hk), List.getElem_map]
    rw [hBlockCount, seen_stored ha hPlaced hk (hAxes ▸ hy)]
    simp only [List.getElem?_eq_getElem hk, Option.map_some, Option.getD_some, hAxes]
    exact (foldl_walk _ _ (fun b c => vectorElem _ _ _ (a.catarr.sc.rawBlock (numberAt _ k b _)
      (numberAt _ k c _)) _ _) _).symm

theorem length_reducePrefilter {nchunk nblock : Nat} {part : List Nat} {out : List Cell}
    (h : reducePrefilter E f a c k nchunk part nblock = .ok out) :
    out.length = c.catarr.blockshape.prod := by
  obtain ⟨_, _, h⟩ := Result.bind_eq_ok.mp h
  obtain ⟨_, _, h⟩ := Result.bind_eq_ok.mp h
  obtain ⟨_, _, h⟩ := Result.bind_eq_ok.mp h
  obtain ⟨_, _, h⟩ := Result.bind_eq_ok.mp h
  rw [← (Result.mapM_eq_ok h).length_eq, List.length_range]

end Item

/-! ## The whole result -/

/-- The storage of a container without axis `k`. -/
def Storage.eraseIdx (st : Storage) (k : Nat) : Storage :=
  ⟨st.chunkshape.eraseIdx k, st.blockshape.eraseIdx k⟩

theorem Storage.Fits.eraseIdx {st : Storage} (h : st.Fits) (k : Nat) : (st.eraseIdx k).Fits :=
  ⟨fun n hn => h.chunkshape n (List.mem_of_mem_eraseIdx hn),
    fun n hn => h.blockshape n (List.mem_of_mem_eraseIdx hn)⟩

/-- The tiling of a fresh array follows from its shape and storage. -/
theorem Fresh.axes_eraseIdx {a c : CatArray} {s t : Nat} {shape : List Nat} {st : Storage} {k : Nat}
    (ha : Fresh a s shape (iarrayCreateCatervaStorage st))
    (hc : Fresh c t (shape.eraseIdx k) (iarrayCreateCatervaStorage (st.eraseIdx k))) :
    c.axes = a.axes.eraseIdx k := by
  refine axes_ext ?_ ?_ ?_
  · rw [shapeOf, shapeOf, ← List.eraseIdx_map]
    exact hc.shape.trans (congrArg (·.eraseIdx k) ha.shape.symm)
  · rw [chunkshapeOf, chunkshapeOf, ← List.eraseIdx_map]
    refine ints_injective (hc.chunkshape.trans ?_)
    rw [ints, ← List.eraseIdx_map]
    exact (List.eraseIdx_map ..).symm.trans (congrArg (·.eraseIdx k) ha.chunkshape.symm)
  · rw [blockshapeOf, blockshapeOf, ← List.eraseIdx_map]
    refine ints_injective (hc.blockshape.trans ?_)
    rw [ints, ← List.eraseIdx_map]
    exact (List.eraseIdx_map ..).symm.trans (congrArg (·.eraseIdx k) ha.blockshape.symm)

theorem Plain.storage_length {c : Container} (h : Plain c) :
    c.storage.chunkshape.length = c.dtshape.ndim ∧ c.storage.blockshape.length = c.dtshape.ndim := by
  have hNdim := h.catarr_ndim
  rw [length_stored h.fresh.chunkshape, length_stored h.fresh.blockshape, CatArray.chunkshape,
    CatArray.blockshape, chunkshapeOf, blockshapeOf, List.length_map, List.length_map]
  exact ⟨hNdim, hNdim⟩

/-- Along an axis the tables are cut off behind their last entry. -/
theorem reduceUdf_eq {E : Backend} {f : ReduceFunction} {a : Container} {k : Nat} (ha : Plain a)
    (hk : k < a.dtshape.ndim) :
    _iarrayReduceUdf E a f k (a.storage.eraseIdx k) = (do
      let c ← iarrayEmpty E ⟨f.otype, a.dtshape.shape.eraseIdx k⟩ (a.storage.eraseIdx k)
      let catarr ← c.catarr.writeChunks (reducePrefilter E f a c k)
      pure { c with catarr := catarr }) := by
  have hTake : ∀ {l : List Nat}, l.length = a.dtshape.ndim →
      (l.eraseIdx k).take (a.dtshape.ndim - 1) = l.eraseIdx k := by
    intro l hLen
    exact List.take_of_length_le (by rw [List.length_eraseIdx_of_lt (by omega), hLen])
  obtain ⟨hChunk, hBlock⟩ := ha.storage_length
  have hStorage : (a.storage.eraseIdx k).take (a.dtshape.ndim - 1) = a.storage.eraseIdx k := by
    rw [Storage.take, Storage.eraseIdx, hTake hChunk, hTake hBlock]
  rw [_iarrayReduceUdf, if_neg (by omega)]
  simp only [hTake (rfl : a.dtshape.shape.length = a.dtshape.ndim), hStorage]

/-- One step of the axis-by-axis reduction. -/
theorem reduceUdf_ok {E : Backend} (hE : E.Lawful) {f : ReduceFunction} {a b : Container} {k : Nat}
    (ha : Plain a) (hk : k < a.dtshape.ndim)
    (hLoop : ∀ u acc xs, f.reduction u acc xs = xs.foldl (f.step u) acc)
    (h : _iarrayReduceUdf E a f k (a.storage.eraseIdx k) = .ok b) :
    PlainOf ⟨f.otype, a.dtshape.shape.eraseIdx k⟩ (a.storage.eraseIdx k) b ∧
      (a.WellPlaced → b.WellPlaced ∧ ∀ y, InBox y (a.dtshape.shape.eraseIdx k) →
        ∃ v, f.value (seen E.machine f a.catarr k y) = .ok v ∧
          b.catarr.get y = v.cell f.otype) := by
  rw [reduceUdf_eq ha hk] at h
  obtain ⟨c, hEmpty, h⟩ := Result.bind_eq_ok.mp h
  obtain ⟨catarr, hWrite, h⟩ := Result.bind_eq_ok.mp h
  cases h
  obtain ⟨hc, hDtshape, hStorage⟩ := iarrayEmpty_plain hE hEmpty
  have hFresh := hc.fresh
  rw [hDtshape, hStorage] at hFresh
  have hAxes := ha.fresh.axes_eraseIdx hFresh
  obtain ⟨_, block, hBlock, rfl⟩ := writeChunks_eq_ok.mp hWrite
  refine ⟨⟨hc.setArray (hc.fresh.withChunks _ _), hDtshape, hStorage⟩, fun hPlaced => ⟨?_, ?_⟩⟩
  · change PlacesFit c.catarr.axes c.storage.blockshape
    rw [hAxes, hStorage]
    exact PlacesFit.eraseIdx hPlaced k
  intro y hy
  have hy' : InBox y (shapeOf c.catarr.axes) := by
    change InBox y c.catarr.shape
    rwa [hFresh.shape]
  obtain ⟨v, hv, hCell⟩ := reducePrefilter_item ha hc hPlaced (by rw [hStorage]; rfl) hAxes
    (by rwa [← ha.catarr_ndim] at hk) hLoop hy' (hBlock _ (nchunk_lt hy') _ (nblock_lt hy'))
  refine ⟨v, hv, ?_⟩
  rw [CatArray.get, cell_withChunks hc.fresh.sized hc.fresh.postfilter
    (fun n hn m hm => length_reducePrefilter (hBlock n hn m hm)) hy', ← hCell]

/-! ## Elements addressed in units of their own size -/

/-- The elements of the input that project onto `y` along axis `k`. -/
def line (d : Dtype) (a : CatArray) (k : Nat) (y : List Nat) : List Num :=
  (List.range (a.shape.getD k 0)).map fun i => (a.get (y.insertIdx k i)).num d

/-- Every line starts where the type of the input says, although the block is addressed through
the type that `blockPointer` chooses. -/
def Addressed (f : ReduceFunction) (axes : List Axis) (k : Nat) : Prop :=
  ∀ y, InBox y ((shapeOf axes).eraseIdx k) → 0 < (shapeOf axes).getD k 0 →
    lineStart axes k y * (blockPointer f.otype f.itype).size = lineStart axes k y * f.itype.size

theorem addressed_of_size {f : ReduceFunction}
    (h : (blockPointer f.otype f.itype).size = f.itype.size) (axes : List Axis) (k : Nat) :
    Addressed f axes k := fun _ _ _ => by rw [h]

theorem seen_eq_line {m : Machine} {f : ReduceFunction} {a : CatArray} {k : Nat}
    (hSized : a.Sized) (hPost : a.sc.postfilter = none) (hk : k < a.axes.length)
    (hAddr : Addressed f a.axes k) {y : List Nat} (hy : InBox y (a.shape.eraseIdx k)) :
    seen m f a k y = line f.itype a k y := by
  have hLen : a.axes.length = y.length + 1 := by
    have hLength := hy.length_eq
    rw [List.length_eraseIdx_of_lt (by simpa [CatArray.shape] using hk), CatArray.shape,
      length_shapeOf] at hLength
    omega
  have hShape : a.shape.getD k 0 = a.axes[k].shape := by
    rw [CatArray.shape, shapeOf, List.getD_eq_getElem _ _ (by simpa using hk), List.getElem_map]
  rw [seen, List.getElem?_eq_getElem hk, line, hShape, ← Axis.walk_join, List.map_map]
  refine List.map_congr_left ?_
  rintro ⟨c, b, i⟩ hp
  have hPlace := locate_insertIdx hk hLen hp
  have hCoord : a.axes[k].join c b i < a.axes[k].shape := (Axis.mem_walk hp).2.2.2.2
  have hx : InBox (y.insertIdx k (a.axes[k].join c b i)) a.shape :=
    (inBox_insertIdx (by simpa [CatArray.shape] using hk)).mpr
      ⟨by simpa [CatArray.shape, shapeOf] using hCoord, hy⟩
  have hGet := CatArray.rawBlock_locate hSized hPost hx
  rw [hPlace] at hGet
  simp only [Function.comp_apply, vectorElem]
  rw [hAddr y hy (by
    change 0 < a.shape.getD k 0
    omega), ← Nat.add_mul, loadAt_aligned, hGet]

end IronArray
