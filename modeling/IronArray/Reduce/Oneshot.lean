import IronArray.Reduce.Accepts
import IronArray.Reduce.Nest

/-!
# Removing all axes at once

`reduceMulti_oneshot`: on success each element of the result of the one-shot reduction is the
finish of the fold of the step over the elements of the source that project onto it, each taken
once, in some order. For variances the step also sees the mean of the same elements, which the
reduction has computed the same way.
-/

namespace IronArray

open Grid CatArray ReduceFunction

/-- The functions read elements of the type of the container. -/
theorem reduceFunction_itype {m : Machine} {func : ReduceFunc} {d : Dtype} {f : ReduceFunction}
    (h : reduceFunction m func d = .ok f) : f.itype = d := by
  cases func
  case max =>
    cases h
    exact (types_max d).1
  case min =>
    cases h
    exact (types_min d).1
  case nanMax | nanMin | nanSum | nanProd | nanMean | nanVar | nanStd | nanMedian =>
    obtain ⟨_, rfl⟩ := nanReduction_eq_ok h
    rfl
  all_goals
    cases h
    rfl

/-- The state after the step has seen the elements at the given indices. -/
def Container.foldAt (a : Container) (f : ReduceFunction) (u : UserData)
    (order : List (List Nat)) : Acc :=
  order.foldl (fun acc x => f.step u acc ((a.catarr.get x).num f.itype)) f.init

/-- The values at the given indices, as the step sees them. -/
def Container.valuesAt (a : Container) (order : List (List Nat)) : List Num :=
  order.map fun x => (a.catarr.get x).num a.dtshape.dtype

theorem foldAt_eq (a : Container) {f : ReduceFunction} (hType : f.itype = a.dtshape.dtype)
    (u : UserData) (order : List (List Nat)) :
    a.foldAt f u order = (a.valuesAt order).foldl (f.step u) f.init := by
  rw [Container.foldAt, Container.valuesAt, List.foldl_map, hType]

/-- `v` is the finish of the fold over the elements that project onto `y`, each taken once. -/
def Folded (a : Container) (f : ReduceFunction) (mask : List Bool) (u : UserData) (y : List Nat)
    (v : Num) : Prop :=
  ∃ order, order.Perm (slab mask a.dtshape.shape y) ∧ f.finish u (a.foldAt f u order) = .ok v

/-- The mean that the step finds at `y`. -/
def auxMean (aux : Option CatArray) (otype : Dtype) (y : List Nat) : Num :=
  ((aux.map fun m : CatArray => m.get y).getD (.bits 0)).num otype

section Item

variable {f : ReduceFunction} {a c : Container} {axis : List Nat} {correction : FP}
  {aux : Option CatArray}

/-- The data that the functions find for the element at `y`. -/
def oneshotData (f : ReduceFunction) (a : Container) (axis : List Nat) (correction : FP)
    (aux : Option CatArray) (y : List Nat) : UserData :=
  ⟨invNelems correction (axis.map fun i => a.dtshape.shape.getD i 0), correction,
    auxMean aux f.otype y⟩

/-- The array of means is laid out like the result. -/
def AuxLike (aux : Option CatArray) (c : CatArray) : Prop :=
  ∀ m, aux = some m → m.axes = c.axes ∧ m.Sized ∧ m.sc.postfilter = none

theorem chunkItems_aux {c : CatArray} (hAux : AuxLike aux c) {y : List Nat} (hy : InBox y c.shape) :
    chunkItems ((aux.map fun m => m.sc.rawBlock (locate c.axes y).nchunk
      (locate c.axes y).nblock).getD []) (locate c.axes y).nitem =
      (aux.map fun m => m.get y).getD (.bits 0) := by
  cases haux : aux with
  | none => rfl
  | some m =>
    obtain ⟨hAxes, hSized, hPost⟩ := hAux m haux
    rw [← hAxes]
    exact rawBlock_locate hSized hPost (by rwa [CatArray.shape, hAxes])

/-- The items of a block of the result with the state of each before the finish. -/
def blockCells (f : ReduceFunction) (input result : Container) (axis : List Nat) (correction : FP)
    (aux : Option CatArray) (nchunk : Nat) (outChunkshape : List Nat) (nblock : Nat) :
    Result (List (OutItem × Acc)) := do
  let inv := invNelems correction (axis.map fun i => input.dtshape.shape.getD i 0)
  let reduced := reducedAxis input.dtshape.ndim axis
  let auxBlock := (aux.map fun aux => aux.sc.rawBlock nchunk nblock).getD []
  let outChunks ← shapeOfChunks result.catarr.axes
  let outChunkOffset := indexUnidimToMultidimShape outChunks nchunk
  let inChunks ← shapeOfChunks input.catarr.axes
  let chunksStop := iterStop reduced inChunks outChunkOffset
  let outBlocks ← shapeOfBlocks result.catarr.axes
  let outBlockOffset := indexUnidimToMultidimShape outBlocks nblock
  let inBlocks ← shapeOfBlocks input.catarr.axes
  let blocksStop := iterStop reduced inBlocks outBlockOffset
  let items := (List.range result.catarr.blockshape.prod).map fun ind =>
    let itemOffset := indexUnidimToMultidimShape result.catarr.blockshape ind
    let itemStop := iterStop reduced input.catarr.blockshape itemOffset
    { userData := ⟨inv, correction, (chunkItems auxBlock ind).num f.otype⟩
      isPadding := checkPadding result.catarr.axes outChunkshape outBlockOffset itemOffset
      itemStart := iterStart reduced itemStop
      itemStop := itemStop : OutItem }
  pure (List.zip items (reduceChunkIter f input.catarr (iterStart reduced chunksStop) chunksStop
    (computeStrides inChunks) (iterStart reduced blocksStop) blocksStop (computeStrides inBlocks)
    (computeStrides input.catarr.blockshape) items (items.map fun _ => f.init)))

/-- The end of `_reduce_general_prefilter` for one item. -/
def finishCell (f : ReduceFunction) (p : OutItem × Acc) : Result Cell := do
  let res ← f.finish p.1.userData p.2
  pure (res.cell f.otype)

theorem reduceGeneralPrefilter_eq (hRange : ∀ k ∈ axis, k < a.dtshape.ndim) (nchunk : Nat)
    (part : List Nat) (nblock : Nat) :
    reduceGeneralPrefilter E f a c axis correction aux nchunk part nblock =
      blockCells f a c axis correction aux nchunk part nblock >>= fun cells =>
        cells.mapM (finishCell f) := by
  have hLengths : axis.map (a.tableLength E) = axis.map fun i => a.dtshape.shape.getD i 0 :=
    List.map_congr_left fun k hk => tableLength_of_lt (hRange k hk)
  unfold reduceGeneralPrefilter blockCells
  rw [hLengths]
  simp only [bind_assoc, pure_bind]
  rfl

/-- The items of the block `b` of the result, in the order in which they are stored. -/
def outItems (f : ReduceFunction) (input result : Container) (axis : List Nat) (correction : FP)
    (aux : Option CatArray) (nchunk nblock : Nat) (part b : List Nat) : List OutItem :=
  (List.range result.catarr.blockshape.prod).map fun ind =>
    let itemOffset := indexUnidimToMultidimShape result.catarr.blockshape ind
    let itemStop := iterStop (reducedAxis input.dtshape.ndim axis) input.catarr.blockshape itemOffset
    { userData := ⟨invNelems correction (axis.map fun i => input.dtshape.shape.getD i 0), correction,
        (chunkItems ((aux.map fun aux => aux.sc.rawBlock nchunk nblock).getD []) ind).num f.otype⟩
      isPadding := checkPadding result.catarr.axes part b itemOffset
      itemStart := iterStart (reducedAxis input.dtshape.ndim axis) itemStop
      itemStop := itemStop }

section Block

variable {nchunk nblock : Nat} {part b : List Nat}

@[simp] theorem length_outItems :
    (outItems f a c axis correction aux nchunk nblock part b).length =
      c.catarr.blockshape.prod := by
  rw [outItems, List.length_map, List.length_range]

/-- The item at `i` is the one that the block stores there. -/
theorem getElem_outItems {i : List Nat} (hi : InBox i c.catarr.blockshape)
    (h : flat c.catarr.blockshape i <
      (outItems f a c axis correction aux nchunk nblock part b).length) :
    (outItems f a c axis correction aux nchunk nblock part b)[flat c.catarr.blockshape i] =
      ⟨⟨invNelems correction (axis.map fun i => a.dtshape.shape.getD i 0), correction,
          (chunkItems ((aux.map fun aux => aux.sc.rawBlock nchunk nblock).getD [])
            (flat c.catarr.blockshape i)).num f.otype⟩,
        checkPadding c.catarr.axes part b i,
        iterStart (reducedAxis a.dtshape.ndim axis)
          (iterStop (reducedAxis a.dtshape.ndim axis) a.catarr.blockshape i),
        iterStop (reducedAxis a.dtshape.ndim axis) a.catarr.blockshape i⟩ := by
  simp only [outItems, List.getElem_map, List.getElem_range, indexUnidimToMultidimShape_flat hi]

/-- The block `b` of the chunk `k`: its items, and the states in which the traversal of the chunks
and blocks of the source leaves them. -/
theorem blockCells_eq_ok {k : List Nat} (hk : InBox k (c.catarr.axes.map Axis.chunks))
    (hb : InBox b (c.catarr.axes.map Axis.blocks)) {cells : List (OutItem × Acc)}
    (h : blockCells f a c axis correction aux (flat (c.catarr.axes.map Axis.chunks) k) part
      (flat (c.catarr.axes.map Axis.blocks) b) = .ok cells) :
    ∃ inBlocks items, shapeOfBlocks a.catarr.axes = .ok inBlocks ∧
      items = outItems f a c axis correction aux (flat (c.catarr.axes.map Axis.chunks) k)
        (flat (c.catarr.axes.map Axis.blocks) b) part b ∧
      cells = items.zip (reduceChunkIter f a.catarr
        (iterStart (reducedAxis a.dtshape.ndim axis)
          (iterStop (reducedAxis a.dtshape.ndim axis) (a.catarr.axes.map Axis.chunks) k))
        (iterStop (reducedAxis a.dtshape.ndim axis) (a.catarr.axes.map Axis.chunks) k)
        (computeStrides (a.catarr.axes.map Axis.chunks))
        (iterStart (reducedAxis a.dtshape.ndim axis)
          (iterStop (reducedAxis a.dtshape.ndim axis) inBlocks b))
        (iterStop (reducedAxis a.dtshape.ndim axis) inBlocks b) (computeStrides inBlocks)
        (computeStrides a.catarr.blockshape) items (items.map fun _ => f.init)) := by
  have hPos : ∀ x ∈ c.catarr.axes, 0 < x.shape := shape_pos_of_nchunks (flat_lt hk)
  unfold blockCells at h
  rw [shapeOfChunks_ok fun x hx => x.chunk_pos (hPos x hx), Result.ok_bind] at h
  obtain ⟨inChunks, hChunks, h⟩ := Result.bind_eq_ok.mp h
  rw [shapeOfChunks_ok (mapM_idiv_eq_ok hChunks), Except.ok.injEq] at hChunks
  subst hChunks
  rw [shapeOfBlocks_ok hPos, Result.ok_bind] at h
  obtain ⟨inBlocks, hBlocks, h⟩ := Result.bind_eq_ok.mp h
  simp only [indexUnidimToMultidimShape_flat hk, indexUnidimToMultidimShape_flat hb] at h
  exact ⟨inBlocks, _, hBlocks, rfl, (Except.ok.inj h).symm⟩

end Block

/-- The state of the item at `y`: the fold over the elements that project onto it. -/
theorem blockCells_item (ha : Plain a)
    (hAxes : c.catarr.axes = keep (reducedAxis a.dtshape.ndim axis) a.catarr.axes)
    (hAux : AuxLike aux c.catarr) {y : List Nat} (hy : InBox y (shapeOf c.catarr.axes))
    {cells : List (OutItem × Acc)}
    (h : blockCells f a c axis correction aux (locate c.catarr.axes y).nchunk
      (partShape c.catarr.axes (locate c.catarr.axes y).nchunk)
      (locate c.catarr.axes y).nblock = .ok cells) :
    ∃ order item, order.Perm (slab (reducedAxis a.dtshape.ndim axis) a.dtshape.shape y) ∧
      item.userData = oneshotData f a axis correction aux y ∧ item.isPadding = false ∧
      cells[(locate c.catarr.axes y).nitem]? =
        some (item, a.foldAt f (oneshotData f a axis correction aux y) order) := by
  have hItem : (locate c.catarr.axes y).nitem < c.catarr.blockshape.prod := nitem_lt hy
  have hMask : (reducedAxis a.dtshape.ndim axis).length = a.catarr.axes.length := by
    rw [length_reducedAxis, ← ha.catarr_ndim, CatArray.ndim]
  obtain ⟨inBlocks, items, hBlocks, hItems, hCells⟩ := blockCells_eq_ok
    (inBox_zipWith (fun _ _ => Axis.chunkOf_lt) hy) (inBox_zipWith (fun _ _ => Axis.blockOf_lt) hy) h
  have hLenBlocks : inBlocks.length = a.catarr.axes.length :=
    (Result.mapM_eq_ok hBlocks).length_eq.symm
  have hItem' : (locate c.catarr.axes y).nitem < items.length := by
    rw [hItems, length_outItems]
    exact hItem
  generalize hAccs : reduceChunkIter _ _ _ _ _ _ _ _ _ _ _ = accs at hCells
  have hLenAccs : accs.length = items.length := by
    rw [← hAccs]
    exact (actsAt_reduceChunkIter hItem' f.init (by simp)).1
  have hData : items[(locate c.catarr.axes y).nitem] =
      ⟨oneshotData f a axis correction aux y, false,
        iterStart (reducedAxis a.dtshape.ndim axis) (iterStop (reducedAxis a.dtshape.ndim axis)
          a.catarr.blockshape (List.zipWith Axis.itemOf
            (keep (reducedAxis a.dtshape.ndim axis) a.catarr.axes) y)),
        iterStop (reducedAxis a.dtshape.ndim axis) a.catarr.blockshape (List.zipWith Axis.itemOf
          (keep (reducedAxis a.dtshape.ndim axis) a.catarr.axes) y)⟩ := by
    have hPadding : checkPadding c.catarr.axes
        (partShape c.catarr.axes (locate c.catarr.axes y).nchunk)
        (List.zipWith Axis.blockOf c.catarr.axes y)
        (List.zipWith Axis.itemOf c.catarr.axes y) = false := by
      rw [partShape, (positions_of_inBox hy).1]
      exact checkPadding_of_inBox hy
    subst hItems
    refine (getElem_outItems (inBox_zipWith (fun _ _ => Axis.itemOf_lt) hy) hItem').trans ?_
    rw [hPadding, ← hAxes, oneshotData, auxMean, ← chunkItems_aux hAux hy]
    rfl
  have hEnd : accs[(locate c.catarr.axes y).nitem] =
      (presentedPlaces a.catarr.axes (reducedAxis a.dtshape.ndim axis) inBlocks y).foldl
        (fun acc p => f.step (oneshotData f a axis correction aux y) acc
          ((chunkItems (a.catarr.sc.rawBlock (flat (a.catarr.axes.map Axis.chunks) p.1)
            (flat inBlocks p.2.1)) (flat a.catarr.blockshape p.2.2)).num f.itype)) f.init := by
    have hy' : InBox y (shapeOf (keep (reducedAxis a.dtshape.ndim axis) a.catarr.axes)) := by
      rwa [← hAxes]
    have hState := @reduceChunkIter_item f _ _ _ _ _ _ _ hMask hLenBlocks hy' hItem' hData f.init
    rw [← hAxes] at hState
    rw [← List.getD_eq_getElem accs f.init (by omega), ← hAccs]
    exact hState
  have hCounted : (∀ x ∈ a.catarr.axes, 0 < x.shape) →
      inBlocks = a.catarr.axes.map Axis.blocks := by
    intro hAll
    rw [shapeOfBlocks_ok hAll, Except.ok.injEq] at hBlocks
    exact hBlocks.symm
  rw [hAxes] at hy
  refine ⟨(presentedPlaces a.catarr.axes (reducedAxis a.dtshape.ndim axis) inBlocks y).map
    (indexOf a.catarr.axes), _, ?_, congrArg OutItem.userData hData,
    congrArg OutItem.isPadding hData, ?_⟩
  · have hPerm := presented_perm_slab hMask hy hCounted
    rwa [show shapeOf a.catarr.axes = a.dtshape.shape from ha.fresh.shape] at hPerm
  · rw [hCells, List.getElem?_eq_getElem (by simpa [hLenAccs] using hItem'), List.getElem_zip,
      hEnd, Container.foldAt, List.foldl_map]
    congr 2
    refine List.foldl_ext _ _ _ fun acc p hp => ?_
    obtain ⟨hIn, hPlace⟩ := locate_of_mem_presented hMask hy hCounted hp
    have hGet := rawBlock_locate ha.fresh.sized ha.fresh.postfilter hIn
    rw [hPlace] at hGet
    rw [← hGet]
    rfl

theorem reduceGeneralPrefilter_item (ha : Plain a) (hRange : ∀ k ∈ axis, k < a.dtshape.ndim)
    (hAxes : c.catarr.axes = keep (reducedAxis a.dtshape.ndim axis) a.catarr.axes)
    (hAux : AuxLike aux c.catarr) {y : List Nat} (hy : InBox y (shapeOf c.catarr.axes))
    {out : List Cell}
    (h : reduceGeneralPrefilter E f a c axis correction aux (locate c.catarr.axes y).nchunk
      (partShape c.catarr.axes (locate c.catarr.axes y).nchunk)
      (locate c.catarr.axes y).nblock = .ok out) :
    ∃ v, Folded a f (reducedAxis a.dtshape.ndim axis) (oneshotData f a axis correction aux y) y v ∧
      out.getD (locate c.catarr.axes y).nitem (.bits 0) = v.cell f.otype := by
  rw [reduceGeneralPrefilter_eq hRange] at h
  obtain ⟨cells, hCells, h⟩ := Result.bind_eq_ok.mp h
  obtain ⟨order, item, hPerm, hData, _, hState⟩ := blockCells_item ha hAxes hAux hy hCells
  obtain ⟨hItem, hGet⟩ := List.getElem?_eq_some_iff.mp hState
  have hAll := Result.mapM_eq_ok h
  have hOut := (List.forall₂_iff_get.mp hAll).2 (locate c.catarr.axes y).nitem hItem
    (hAll.length_eq ▸ hItem)
  rw [List.get_eq_getElem, hGet] at hOut
  obtain ⟨v, hFinish, hCell⟩ := Result.bind_eq_ok.mp hOut
  refine ⟨v, ⟨order, hPerm, hData ▸ hFinish⟩, ?_⟩
  rw [List.getD_eq_getElem _ _ (hAll.length_eq ▸ hItem)]
  exact (Except.ok.inj hCell).symm

theorem length_blockCells {nchunk nblock : Nat} {part : List Nat} {cells : List (OutItem × Acc)}
    (h : blockCells f a c axis correction aux nchunk part nblock = .ok cells) :
    cells.length = c.catarr.blockshape.prod := by
  obtain ⟨_, _, h⟩ := Result.bind_eq_ok.mp h
  obtain ⟨_, _, h⟩ := Result.bind_eq_ok.mp h
  obtain ⟨_, _, h⟩ := Result.bind_eq_ok.mp h
  obtain ⟨_, _, h⟩ := Result.bind_eq_ok.mp h
  rw [← Except.ok.inj h, List.length_zip]
  rcases Nat.eq_zero_or_pos c.catarr.blockshape.prod with hZero | hItems
  · simp [hZero]
  · rw [(actsAt_reduceChunkIter (i := 0) (by simpa using hItems) f.init (by simp)).1]
    simp

theorem length_reduceGeneralPrefilter (hRange : ∀ k ∈ axis, k < a.dtshape.ndim)
    {nchunk nblock : Nat} {part : List Nat} {out : List Cell}
    (h : reduceGeneralPrefilter E f a c axis correction aux nchunk part nblock = .ok out) :
    out.length = c.catarr.blockshape.prod := by
  rw [reduceGeneralPrefilter_eq hRange] at h
  obtain ⟨cells, hCells, h⟩ := Result.bind_eq_ok.mp h
  rw [← (Result.mapM_eq_ok h).length_eq, length_blockCells hCells]

end Item

/-! ## The whole result -/

section Result

variable {E : Backend} {f : ReduceFunction} {a b : Container} {axis : List Nat} {correction : FP}
  {aux : Option CatArray}

/-- The storage of a container without the reduced axes. -/
def Storage.keep (st : Storage) (mask : List Bool) : Storage :=
  ⟨Grid.keep mask st.chunkshape, Grid.keep mask st.blockshape⟩

/-- Distinct axes leave as many entries as there are others. -/
theorem length_keep_reducedAxis {α : Type} {ndim : Nat} {axes : List Nat} {l : List α}
    (hLen : l.length = ndim) (hNodup : axes.Nodup) (hRange : ∀ k ∈ axes, k < ndim) :
    (Grid.keep (reducedAxis ndim axes) l).length = ndim - axes.length := by
  rw [length_keep (by rw [length_reducedAxis, hLen]), reducedAxis, List.count, List.countP_map]
  have hReduced : (List.range ndim).countP (fun i => decide (i ∈ axes)) = axes.length := by
    rw [List.countP_eq_length_filter]
    refine List.Perm.length_eq ?_
    rw [List.perm_ext_iff_of_nodup (List.nodup_range.filter _) hNodup]
    intro k
    rw [List.mem_filter, List.mem_range, decide_eq_true_iff]
    exact ⟨fun h => h.2, fun h => ⟨hRange k h, h⟩⟩
  have hAll := List.length_eq_countP_add_countP (fun i => decide (i ∈ axes)) (l := List.range ndim)
  rw [List.length_range, hReduced] at hAll
  refine Eq.trans ?_ (Nat.sub_eq_of_eq_add' hAll).symm
  refine List.countP_congr fun i _ => ?_
  simp

/-- For distinct axes the tables are cut off behind their last entry. -/
theorem reduce2Udf_eq (ha : Plain a) (hNodup : axis.Nodup) (hRange : ∀ k ∈ axis, k < a.dtshape.ndim) :
    _iarrayReduce2Udf E a f axis (a.storage.keep (reducedAxis a.dtshape.ndim axis)) aux correction =
      if a.dtshape.ndim < 1 then inaError .invalidNdim
      else (do
        let c ← iarrayEmpty E ⟨f.otype, Grid.keep (reducedAxis a.dtshape.ndim axis) a.dtshape.shape⟩
          (a.storage.keep (reducedAxis a.dtshape.ndim axis))
        let catarr ← c.catarr.writeChunks
          (reduceGeneralPrefilter E f a c axis correction aux)
        pure { c with catarr := catarr }) := by
  have hTake : ∀ {l : List Nat}, l.length = a.dtshape.ndim →
      (Grid.keep (reducedAxis a.dtshape.ndim axis) l).take (a.dtshape.ndim - axis.length) =
        Grid.keep (reducedAxis a.dtshape.ndim axis) l := fun hLen =>
    List.take_of_length_le (length_keep_reducedAxis hLen hNodup hRange).le
  obtain ⟨hChunk, hBlock⟩ := ha.storage_length
  have hStorage : (a.storage.keep (reducedAxis a.dtshape.ndim axis)).take
      (a.dtshape.ndim - axis.length) = a.storage.keep (reducedAxis a.dtshape.ndim axis) := by
    rw [Storage.take, Storage.keep, hTake hChunk, hTake hBlock]
  rw [_iarrayReduce2Udf]
  simp only [hTake (rfl : a.dtshape.shape.length = a.dtshape.ndim), hStorage]

theorem reduce2Udf_ok (hE : E.Lawful) (ha : Plain a) (hNodup : axis.Nodup)
    (hRange : ∀ k ∈ axis, k < a.dtshape.ndim)
    (hAux : ∀ m, aux = some m → m.axes = Grid.keep (reducedAxis a.dtshape.ndim axis) a.catarr.axes ∧
      m.Sized ∧ m.sc.postfilter = none)
    (h : _iarrayReduce2Udf E a f axis (a.storage.keep (reducedAxis a.dtshape.ndim axis)) aux
      correction = .ok b) :
    PlainOf ⟨f.otype, Grid.keep (reducedAxis a.dtshape.ndim axis) a.dtshape.shape⟩
      (a.storage.keep (reducedAxis a.dtshape.ndim axis)) b ∧
      b.catarr.axes = Grid.keep (reducedAxis a.dtshape.ndim axis) a.catarr.axes ∧
      ∀ y, InBox y (Grid.keep (reducedAxis a.dtshape.ndim axis) a.dtshape.shape) →
        ∃ v, Folded a f (reducedAxis a.dtshape.ndim axis)
            (oneshotData f a axis correction aux y) y v ∧
          b.catarr.get y = v.cell f.otype := by
  rw [reduce2Udf_eq ha hNodup hRange] at h
  split at h
  · cases h
  obtain ⟨c, hEmpty, h⟩ := Result.bind_eq_ok.mp h
  obtain ⟨catarr, hWrite, h⟩ := Result.bind_eq_ok.mp h
  cases h
  obtain ⟨hc, hDtshape, hStorage⟩ := iarrayEmpty_plain hE hEmpty
  have hFresh := hc.fresh
  rw [hDtshape, hStorage] at hFresh
  have hAxes := ha.fresh.axes_keep hFresh
  obtain ⟨_, block, hBlock, rfl⟩ := writeChunks_eq_ok.mp hWrite
  refine ⟨⟨hc.setArray (hc.fresh.withChunks _ _), hDtshape, hStorage⟩, hAxes, ?_⟩
  intro y hy
  have hy' : InBox y (shapeOf c.catarr.axes) := by
    change InBox y c.catarr.shape
    rwa [hFresh.shape]
  obtain ⟨v, hFolded, hCell⟩ := reduceGeneralPrefilter_item ha hRange hAxes
    (fun m hm => hAxes ▸ hAux m hm) hy' (hBlock _ (nchunk_lt hy') _ (nblock_lt hy'))
  refine ⟨v, hFolded, ?_⟩
  rw [CatArray.get, cell_withChunks hc.fresh.sized hc.fresh.postfilter
    (fun n hn m hm => length_reduceGeneralPrefilter hRange (hBlock n hn m hm)) hy', ← hCell]

end Result

/-! ## The whole call -/

/-- A container of the wanted storage is not copied. -/
theorem copyResult_self (E : Backend) {c : Container} {storage : Storage}
    (h : c.storage = storage) : copyResult E c storage = .ok c := by
  have hNeeds : c.needsCopy storage = false := by simp [Container.needsCopy, h]
  rw [copyResult, hNeeds]
  rfl

section Call

variable {E : Backend} {a b : Container} {axes : List Nat} {storage : Storage}

/-- What a successful one-shot reduction of distinct axes did. -/
theorem oneshotAround_eq_ok {reduce2 : Container → List Nat → Storage → Result Container}
    (ha : Plain a) (hNodup : axes.Nodup) (hRange : ∀ k ∈ axes, k < a.dtshape.ndim)
    (h : oneshotAround E reduce2 a (ints axes) storage = .ok b) :
    ∃ c, reduce2 a axes (a.storage.keep (reducedAxis a.dtshape.ndim axes)) = .ok c ∧
      copyResult E c storage = .ok b := by
  unfold oneshotAround at h
  split at h
  · cases h
  rw [checkAxes_ok ha.ndim (by simpa using hNodup) hRange, ha.copySource] at h
  exact Result.bind_eq_ok.mp h

/-- The mean that the step of a variance finds at `y`, as an element of the array of means. -/
def IsMean (m : Machine) (a : Container) (func : ReduceFunc) (axes : List Nat) (otype : Dtype)
    (mean : List Nat → Num) : Prop :=
  ∀ meanFunc, func.auxiliary = some meanFunc →
    ∃ g, reduceFunction m meanFunc a.dtshape.dtype = .ok g ∧
      ∀ y, InBox y (keep (reducedAxis a.dtshape.ndim axes) a.dtshape.shape) →
        ∃ w, Folded a g (reducedAxis a.dtshape.ndim axes)
            (oneshotData g a axes (.fin 0) none y) y w ∧
          mean y = (w.cell g.otype).num otype

/-- The array of means is computed like any other result. -/
theorem oneshotSimple_ok (hE : E.Lawful) (ha : Plain a) (hNodup : axes.Nodup)
    (hRange : ∀ k ∈ axes, k < a.dtshape.ndim) {meanFunc : ReduceFunc}
    (h : oneshotSimple E a meanFunc (ints axes)
      (a.storage.keep (reducedAxis a.dtshape.ndim axes)) (.fin 0) = .ok b) :
    ∃ g, reduceFunction E.machine meanFunc a.dtshape.dtype = .ok g ∧ Plain b ∧
      b.catarr.axes = keep (reducedAxis a.dtshape.ndim axes) a.catarr.axes ∧
      ∀ y, InBox y (keep (reducedAxis a.dtshape.ndim axes) a.dtshape.shape) →
        ∃ w, Folded a g (reducedAxis a.dtshape.ndim axes)
            (oneshotData g a axes (.fin 0) none y) y w ∧
          b.catarr.get y = w.cell g.otype := by
  obtain ⟨c, hReduce, hCopy⟩ := oneshotAround_eq_ok ha hNodup hRange h
  obtain ⟨g, hg, hReduce⟩ := Result.bind_eq_ok.mp hReduce
  obtain ⟨hc, hAxes, hElems⟩ := reduce2Udf_ok hE ha hNodup hRange (fun _ h => by cases h) hReduce
  rw [copyResult_self E hc.storage, Except.ok.injEq] at hCopy
  subst hCopy
  exact ⟨g, hg, hc.plain, hAxes, hElems⟩

theorem reduce2_ok (hE : E.Lawful) (ha : Plain a) (hNodup : axes.Nodup)
    (hRange : ∀ k ∈ axes, k < a.dtshape.ndim) {func : ReduceFunc} {correction : FP}
    (h : _iarrayReduce2 E a func axes (a.storage.keep (reducedAxis a.dtshape.ndim axes))
      correction = .ok b) :
    ∃ f, reduceFunction E.machine func a.dtshape.dtype = .ok f ∧
      PlainOf ⟨f.otype, keep (reducedAxis a.dtshape.ndim axes) a.dtshape.shape⟩
        (a.storage.keep (reducedAxis a.dtshape.ndim axes)) b ∧
      ∃ mean, IsMean E.machine a func axes f.otype mean ∧
        ∀ y, InBox y (keep (reducedAxis a.dtshape.ndim axes) a.dtshape.shape) →
          ∃ v, Folded a f (reducedAxis a.dtshape.ndim axes)
              ⟨invNelems correction (axes.map fun i => a.dtshape.shape.getD i 0), correction,
                mean y⟩ y v ∧
            b.catarr.get y = v.cell f.otype := by
  obtain ⟨f, hf, h⟩ := Result.bind_eq_ok.mp h
  refine ⟨f, hf, ?_⟩
  cases hAux : func.auxiliary with
  | none =>
    rw [hAux] at h
    obtain ⟨hb, _, hElems⟩ := reduce2Udf_ok hE ha hNodup hRange (fun _ h => by cases h) h
    refine ⟨hb, auxMean none f.otype, ?_, hElems⟩
    intro meanFunc hMean
    rw [hAux] at hMean
    cases hMean
  | some meanFunc =>
    rw [hAux] at h
    obtain ⟨m, hSimple, h⟩ := Result.bind_eq_ok.mp h
    obtain ⟨g, hg, hm, hAxes, hMeans⟩ := oneshotSimple_ok hE ha hNodup hRange hSimple
    obtain ⟨hb, _, hElems⟩ :=
      @reduce2Udf_ok E f a b axes correction (some m.catarr) hE ha hNodup hRange (by
      rintro _ ⟨⟩
      exact ⟨hAxes, hm.fresh.sized, hm.fresh.postfilter⟩) h
    refine ⟨hb, auxMean (some m.catarr) f.otype, ?_, hElems⟩
    intro meanFunc' hMean
    rw [hAux, Option.some.injEq] at hMean
    subst hMean
    refine ⟨g, hg, fun y hy => ?_⟩
    obtain ⟨w, hw, hGet⟩ := hMeans y hy
    exact ⟨w, hw, congrArg (Cell.num f.otype) hGet⟩

end Call

/-- Each element of the result of the one-shot reduction is the finish of the fold over the
elements that project onto it, each taken once. -/
theorem reduceMulti_oneshot {E : Backend} (hE : E.Lawful) {a b : Container} {func : ReduceFunc}
    {axes : List Nat} {storage : Storage} {correction : FP} (ha : Plain a) (hNodup : axes.Nodup)
    (hRange : ∀ k ∈ axes, k < a.dtshape.ndim)
    (h : iarrayReduceMulti E a func (ints axes) storage true correction = .ok b) :
    ∃ f, reduceFunction E.machine func a.dtshape.dtype = .ok f ∧
      b.dtshape = ⟨f.otype, keep (reducedAxis a.dtshape.ndim axes) a.dtshape.shape⟩ ∧
      ∃ mean, IsMean E.machine a func axes f.otype mean ∧
        ∀ y, InBox y b.dtshape.shape →
          ∃ v, Folded a f (reducedAxis a.dtshape.ndim axes)
              ⟨invNelems correction (axes.map fun i => a.dtshape.shape.getD i 0), correction,
                mean y⟩ y v ∧
            b.catarr.get y = v.cell f.otype := by
  unfold iarrayReduceMulti at h
  split at h
  · cases h
  rw [if_pos rfl] at h
  obtain ⟨c, hReduce, hCopy⟩ := oneshotAround_eq_ok ha hNodup hRange h
  obtain ⟨f, hf, hc, mean, hMean, hElems⟩ := reduce2_ok hE ha hNodup hRange hReduce
  obtain ⟨hb, hDtshape, hSame⟩ := copyResult_ok hE hc.plain hCopy
  rw [hc.dtshape] at hDtshape
  refine ⟨f, hf, hDtshape, mean, hMean, fun y hy => ?_⟩
  rw [hDtshape] at hy
  obtain ⟨v, hv, hGet⟩ := hElems y hy
  refine ⟨v, hv, ?_⟩
  rw [← hGet]
  refine (hSame.get y ?_).symm
  change InBox y c.dtshape.shape
  rwa [hc.dtshape]

theorem reduceMulti_oneshot_matrix :
    ∃ b, iarrayReduceMulti Reference.backend MultiExample.matrix .var [0] ⟨[3], [2]⟩ true (.fin 1)
        = .ok b ∧
      ∃ f, reduceFunction Reference.backend.machine .var .int16 = .ok f ∧
        b.dtshape = ⟨f.otype, [3]⟩ ∧
        ∃ mean, IsMean Reference.backend.machine MultiExample.matrix .var [0] f.otype mean ∧
          ∀ y, InBox y b.dtshape.shape →
            ∃ v, Folded MultiExample.matrix f [true, false]
                ⟨invNelems (.fin 1) [5], .fin 1, mean y⟩ y v ∧
              b.catarr.get y = v.cell f.otype :=
  ⟨_, rfl, @reduceMulti_oneshot _ Reference.lawful _ _ .var [0] ⟨[3], [2]⟩ (.fin 1)
    MultiExample.plain_matrix (by decide) (by decide) rfl⟩

end IronArray
