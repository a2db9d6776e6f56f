import IronArray.Grid.Blocks
import IronArray.Reduce.Median

/-!
# The buffers of the medians

Each item of a block of the result has a buffer for `reduced_items` elements.
`medianBuffers_safe_iff`: the traversal never fills a buffer beyond its end, and the finish reads
only collected elements exactly if the function skips NaN, or no item of the block is padding and
no reduced axis has length zero. Without elements `MEDIAN_F` reads the positions −1 and 0.
-/

namespace IronArray

open Grid CatArray ReduceFunction

/-! ## The states of a block -/

/-- `reduced_items`, the number of elements for which a buffer has room. -/
def reducedItems (a : Container) (axis : List Nat) : Nat :=
  (removed (reducedAxis a.dtshape.ndim axis) a.catarr.shape).prod

section Cells

variable {f : ReduceFunction} {a c : Container} {axis : List Nat} {correction : FP}
  {aux : Option CatArray}

/-- The traversal skips padding. -/
theorem reduceChunkIter_padding {input : CatArray} {chunkStart chunkStop chunkStrides blockStart
    blockStop blockStrides itemStrides : List Nat} {items : List OutItem} {i : Nat}
    (hi : i < items.length) (hPadding : items[i].isPadding = true) :
    (reduceChunkIter f input chunkStart chunkStop chunkStrides blockStart blockStop blockStrides
      itemStrides items (items.map fun _ => f.init))[i]? = some f.init := by
  have hKeep : ∀ {α : Type} (l : List α) (acc : Acc), l.foldl (fun acc _ => acc) acc = acc := by
    intro α l acc
    induction l with
    | nil => rfl
    | cons _ l ih => exact ih
  have hActs := @actsAt_reduceChunkIter f input chunkStart chunkStop chunkStrides blockStart
    blockStop blockStrides itemStrides items i hi f.init (items.map fun _ => f.init) (by simp)
  simp only [hPadding, if_true, hKeep] at hActs
  have hLen := hi.trans_eq hActs.1.symm
  rw [List.getElem?_eq_getElem hLen, ← List.getD_eq_getElem _ f.init hLen, hActs.2,
    List.getD_eq_getElem _ _ (by simpa using hi), List.getElem_map]

/-- The state of an item of a block: the fold over `reduced_items` elements, for padding over
none. -/
theorem blockCells_at (ha : Plain a)
    (hAxes : c.catarr.axes = keep (reducedAxis a.dtshape.ndim axis) a.catarr.axes)
    (hAux : AuxLike aux c.catarr) {k b i : List Nat}
    (hk : InBox k (c.catarr.axes.map Axis.chunks)) (hb : InBox b (c.catarr.axes.map Axis.blocks))
    (hi : InBox i (blockshapeOf c.catarr.axes)) {cells : List (OutItem × Acc)}
    (h : blockCells f a c axis correction aux (flat (c.catarr.axes.map Axis.chunks) k)
      (partShape c.catarr.axes (flat (c.catarr.axes.map Axis.chunks) k))
      (flat (c.catarr.axes.map Axis.blocks) b) = .ok cells) :
    ∃ p u order, cells[flat (blockshapeOf c.catarr.axes) i]? = some p ∧
      p.2 = a.foldAt f u order ∧
      order.length = if inside c.catarr.axes k b i then reducedItems a axis else 0 := by
  cases hInside : inside c.catarr.axes k b i with
  | true =>
    obtain ⟨hy, hChunk, hBlock, hItem⟩ := split_of_inside hk hb hi hInside
    have hPlace : locate c.catarr.axes (joinAll c.catarr.axes k b i) =
        ⟨flat (c.catarr.axes.map Axis.chunks) k, flat (c.catarr.axes.map Axis.blocks) b,
          flat (blockshapeOf c.catarr.axes) i⟩ := by
      simp only [locate, hChunk, hBlock, hItem]
    obtain ⟨order, item, hPerm, _, _, hState⟩ := @blockCells_item f a c axis correction aux ha
      hAxes hAux _ hy cells (by rwa [hPlace])
    rw [hPlace] at hState
    have hShape : a.catarr.shape = a.dtshape.shape := ha.fresh.shape
    have hMask : a.dtshape.shape.length = (reducedAxis a.dtshape.ndim axis).length := by
      rw [length_reducedAxis]
      rfl
    have hKept : shapeOf c.catarr.axes =
        keep (reducedAxis a.dtshape.ndim axis) a.dtshape.shape := by
      rw [hAxes, shapeOf, ← keep_map, ← shapeOf, ← CatArray.shape, hShape]
    refine ⟨_, _, order, hState, rfl, ?_⟩
    rw [hPerm.length_eq, length_slab hMask (hKept ▸ hy), if_pos rfl, reducedItems, hShape]
  | false =>
    obtain ⟨inBlocks, items, _, hItems, rfl⟩ := blockCells_eq_ok hk hb h
    have hItem' : flat (blockshapeOf c.catarr.axes) i < items.length := by
      rw [hItems, length_outItems]
      exact flat_lt hi
    have hPadding : items[flat (blockshapeOf c.catarr.axes) i].isPadding = true := by
      subst hItems
      refine (congrArg OutItem.isPadding (getElem_outItems hi hItem')).trans ?_
      show checkPadding _ _ _ i = true
      rw [partShape, indexUnidimToMultidimShape_flat hk, checkPadding_eq (by simpa using hk.length_eq)
        (by simpa using hb.length_eq) (by simpa [blockshapeOf] using hi.length_eq), hInside]
      rfl
    exact ⟨(items[flat (blockshapeOf c.catarr.axes) i], f.init), items[0].userData, [],
      List.getElem?_zip_eq_some.mpr ⟨List.getElem?_eq_getElem hItem',
        reduceChunkIter_padding hItem' hPadding⟩, rfl, rfl⟩

end Cells

/-! ## The positions that the finish reads -/

/-- `MEDIAN` and `nanMEDIAN`. -/
def medianFunction (skipsNan : Bool) (d : Dtype) : ReduceFunction :=
  if skipsNan then nanMedian d else median d

/-- The positions of the one or two middle elements of `nelem` sorted ones. -/
def middlePositions (nelem : Nat) : List Int :=
  if nelem % 2 = 0 then [Int.ofNat (nelem / 2) - 1, Int.ofNat (nelem / 2)]
  else [Int.ofNat (nelem / 2)]

/-- The positions of the buffer that `MEDIAN_F` and `nanMEDIAN_F` read: first `qsort` those of the
elements that are no NaN, then the middle. -/
def medianReads (skipsNan : Bool) (acc : Acc) : List Int :=
  let nelem := acc.notNanNelems
  if (if skipsNan then nelem ≠ 0 else acc.nanNelems = 0) then
    ints (List.range nelem) ++ middlePositions nelem
  else []

/-- The buffer of a cell had room for what was collected, and only that is read. -/
def CellInBounds (skipsNan : Bool) (room : Nat) (acc : Acc) : Prop :=
  acc.medians.length ≤ room ∧ ∀ i ∈ medianReads skipsNan acc, 0 ≤ i ∧ i < acc.medians.length

/-- The middle of `n` elements lies among them unless there are none. -/
theorem reads_inBounds_iff {n : Nat} :
    (∀ i ∈ ints (List.range n) ++ middlePositions n, 0 ≤ i ∧ i < n) ↔ 0 < n := by
  constructor
  · intro h
    by_contra hZero
    obtain rfl : n = 0 := by omega
    have := h (-1) (by decide)
    omega
  · intro hPos i hi
    rcases List.mem_append.mp hi with hi | hi
    · obtain ⟨k, hk, rfl⟩ := List.mem_map.mp hi
      exact ⟨Int.natCast_nonneg k, Int.ofNat_lt.mpr (List.mem_range.mp hk)⟩
    · unfold middlePositions at hi
      split at hi <;>
        simp only [List.mem_cons, List.not_mem_nil, or_false, Int.ofNat_eq_natCast] at hi <;> omega

theorem foldl_nanMedian (d : Dtype) (u : UserData) (vs : List Num) (acc : Acc) :
    vs.foldl ((nanMedian d).step u) acc = { acc with
      medians := acc.medians ++ vs.filter fun v => !v.isNan
      nanNelems := acc.nanNelems + vs.countP Num.isNan
      notNanNelems := acc.notNanNelems + vs.countP fun v => !v.isNan } := by
  induction vs generalizing acc with
  | nil => simp
  | cons v vs ih =>
    rw [List.foldl_cons, ih]
    cases hNan : v.isNan <;> simp [nanMedian, hNan, Nat.add_assoc, Nat.add_comm 1]

/-- `MEDIAN` stays inside its buffer unless it has collected nothing. -/
theorem median_inBounds_iff {d : Dtype} {u : UserData} {vs : List Num} {room : Nat}
    (hRoom : vs.length ≤ room) :
    CellInBounds false room (vs.foldl ((median d).step u) (median d).init) ↔ vs ≠ [] := by
  have hMedians : (vs.foldl ((median d).step u) (median d).init).medians = vs := by
    rw [foldl_median]
    exact List.nil_append vs
  rw [CellInBounds, hMedians, ← List.length_pos_iff]
  refine (and_iff_right hRoom).trans ?_
  have hNan : (vs.foldl ((median d).step u) (median d).init).nanNelems = vs.countP Num.isNan := by
    rw [foldl_median]
    exact Nat.zero_add _
  have hNelem : (vs.foldl ((median d).step u) (median d).init).notNanNelems =
      vs.countP fun v => !v.isNan := by
    rw [foldl_median]
    exact Nat.zero_add _
  rw [medianReads, hNan, hNelem]
  by_cases hNone : vs.countP Num.isNan = 0
  · have hAll : (vs.countP fun v => !v.isNan) = vs.length := by
      have := List.length_eq_countP_add_countP Num.isNan (l := vs)
      simp only [Bool.not_eq_true, Bool.decide_eq_false] at this
      omega
    simp only [Bool.false_eq_true, if_false, hNone, if_true, hAll]
    exact reads_inBounds_iff
  · simp only [Bool.false_eq_true, if_false, hNone, List.not_mem_nil, IsEmpty.forall_iff,
      implies_true, true_iff]
    have := List.countP_le_length (p := Num.isNan) (l := vs)
    omega

/-- `nanMEDIAN` stays inside its buffer. -/
theorem nanMedian_inBounds {d : Dtype} {u : UserData} {vs : List Num} {room : Nat}
    (hRoom : vs.length ≤ room) :
    CellInBounds true room (vs.foldl ((nanMedian d).step u) (nanMedian d).init) := by
  have hMedians : (vs.foldl ((nanMedian d).step u) (nanMedian d).init).medians =
      vs.filter fun v => !v.isNan := by
    rw [foldl_nanMedian]
    exact List.nil_append _
  have hNelem : (vs.foldl ((nanMedian d).step u) (nanMedian d).init).notNanNelems =
      vs.countP fun v => !v.isNan := by
    rw [foldl_nanMedian]
    exact Nat.zero_add _
  rw [CellInBounds, hMedians, medianReads, hNelem, ← List.countP_eq_length_filter]
  refine ⟨List.countP_le_length.trans hRoom, ?_⟩
  by_cases hNone : (vs.countP fun v => !v.isNan) = 0
  · simp [hNone]
  · simp only [if_true, ne_eq, hNone, not_false_eq_true]
    exact reads_inBounds_iff.mpr (Nat.pos_of_ne_zero hNone)

theorem cellInBounds_iff {skipsNan : Bool} {d : Dtype} {u : UserData} {vs : List Num} {room : Nat}
    (hRoom : vs.length ≤ room) :
    CellInBounds skipsNan room (vs.foldl ((medianFunction skipsNan d).step u)
      (medianFunction skipsNan d).init) ↔ skipsNan = true ∨ vs ≠ [] := by
  cases skipsNan with
  | true => exact iff_of_true (nanMedian_inBounds hRoom) (.inl rfl)
  | false => exact (median_inBounds_iff hRoom).trans (or_iff_right Bool.false_ne_true).symm

/-- The entry of the sorted buffer at a position. -/
def sortedAt (medians : List Num) (i : Int) : Result Num :=
  if 0 ≤ i then
    match (medians.mergeSort fun a b => !b.lt a)[i.toNat]? with
    | some a => .ok a
    | none => crash .outOfBounds
  else crash .outOfBounds

theorem sortedAt_natCast {medians : List Num} {k : Nat} (hk : k < medians.length) :
    ∃ a, (medians.mergeSort fun a b => !b.lt a)[k]? = some a ∧ sortedAt medians k = .ok a := by
  rw [← List.length_mergeSort medians] at hk
  refine ⟨_, List.getElem?_eq_getElem hk, ?_⟩
  rw [sortedAt, if_pos (Int.natCast_nonneg k), Int.toNat_natCast, List.getElem?_eq_getElem hk]

/-- The finish computes the middle from the entries at `middlePositions`. -/
theorem middle_eq (itype : Dtype) (medians : List Num) :
    middle itype medians = ((middlePositions medians.length).mapM (sortedAt medians) >>= fun
      | [a] => .ok (.fp a.toFP)
      | [a, b] => .ok (.fp (((a.add b).assign (promote itype)).toFP.mul (.fin (1 / 2))))
      | _ => crash .outOfBounds) := by
  unfold middle middlePositions
  by_cases hEven : medians.length % 2 = 0
  · simp only [hEven, if_true]
    rcases Nat.eq_zero_or_pos medians.length with hNone | hSome
    · obtain rfl := List.length_eq_zero_iff.mp hNone
      rfl
    · obtain ⟨a, ha, hLeft⟩ := @sortedAt_natCast medians (medians.length / 2 - 1) (by omega)
      obtain ⟨b, hb, hRight⟩ := @sortedAt_natCast medians (medians.length / 2) (by omega)
      have hPred : Int.ofNat (medians.length / 2) - 1 = ((medians.length / 2 - 1 : Nat) : Int) := by
        rw [Int.ofNat_eq_natCast]
        omega
      obtain ⟨n, hn⟩ := Nat.exists_eq_add_one_of_ne_zero hSome.ne'
      rw [List.mapM_cons, hPred, hLeft, List.mapM_cons, Int.ofNat_eq_natCast, hRight, ha, hb]
      rw [hn]
      rfl
  · simp only [hEven, if_false]
    obtain ⟨a, ha, hMiddle⟩ := @sortedAt_natCast medians (medians.length / 2) (by omega)
    rw [List.mapM_cons, Int.ofNat_eq_natCast, hMiddle, ha]
    rfl

theorem middle_ok (itype : Dtype) {medians : List Num} (h : medians ≠ []) :
    ∃ v, middle itype medians = .ok v := by
  have hIn := reads_inBounds_iff.mpr (List.length_pos_iff.mpr h)
  have hAt : ∀ i ∈ middlePositions medians.length, ∃ a, sortedAt medians i = .ok a := by
    intro i hi
    obtain ⟨hNonneg, hLt⟩ := hIn i (List.mem_append_right _ hi)
    obtain ⟨k, rfl⟩ := Int.eq_ofNat_of_zero_le hNonneg
    obtain ⟨a, -, ha⟩ := sortedAt_natCast (Int.ofNat_lt.mp hLt)
    exact ⟨a, ha⟩
  rw [middle_eq]
  unfold middlePositions at hAt ⊢
  by_cases hEven : medians.length % 2 = 0
  · rw [if_pos hEven] at hAt ⊢
    obtain ⟨a, ha⟩ := hAt _ List.mem_cons_self
    obtain ⟨b, hb⟩ := hAt _ (List.mem_cons_of_mem _ List.mem_cons_self)
    rw [List.mapM_cons, ha, List.mapM_cons, hb]
    exact ⟨_, rfl⟩
  · rw [if_neg hEven] at hAt ⊢
    obtain ⟨a, ha⟩ := hAt _ List.mem_cons_self
    rw [List.mapM_cons, ha]
    exact ⟨_, rfl⟩

/-- The finish of what a traversal leaves has undefined behaviour exactly if it reads outside of it. -/
theorem finish_crash_iff {skipsNan : Bool} {d : Dtype} {u u' : UserData} {vs : List Num} {room : Nat}
    (hRoom : vs.length ≤ room) :
    (medianFunction skipsNan d).finish u' (vs.foldl ((medianFunction skipsNan d).step u)
        (medianFunction skipsNan d).init) = crash .outOfBounds ↔
      ¬ CellInBounds skipsNan room (vs.foldl ((medianFunction skipsNan d).step u)
        (medianFunction skipsNan d).init) := by
  have hOk : ∀ {r : Result Num}, (∃ v, r = .ok v) → r ≠ crash .outOfBounds := by
    rintro _ ⟨v, rfl⟩ h
    cases h
  rw [cellInBounds_iff hRoom]
  cases skipsNan with
  | true =>
    refine iff_of_false (hOk ?_) (not_not.mpr (.inl rfl))
    show ∃ v, (nanMedian d).finish u' (vs.foldl ((nanMedian d).step u) (nanMedian d).init) = .ok v
    rw [foldl_nanMedian]
    simp only [nanMedian]
    split
    · exact ⟨_, rfl⟩
    · rename_i hSome
      refine middle_ok d fun hNil => hSome ?_
      rw [Acc.start] at hNil ⊢
      rw [List.nil_append] at hNil
      rw [Nat.zero_add, List.countP_eq_length_filter, hNil, List.length_nil]
  | false =>
    show (median d).finish u' (vs.foldl ((median d).step u) (median d).init) = _ ↔ _
    rw [foldl_median]
    by_cases hNil : vs = []
    · subst hNil
      exact iff_of_true rfl (by simp)
    · refine iff_of_false (hOk ?_) (not_not.mpr (.inr hNil))
      simp only [median]
      split
      · exact middle_ok d (by simpa [Acc.start] using hNil)
      · exact ⟨_, rfl⟩

/-! ## Cut blocks -/

/-- Nothing is cut off a block exactly if its last item lies inside. -/
theorem partOf_eq_blockshape_iff {as : List Axis} {k b : List Nat} (hk : k.length = as.length)
    (hb : b.length = as.length) (hPos : ∀ n ∈ blockshapeOf as, 0 < n) :
    partOf as k b = blockshapeOf as ↔ inside as k b ((blockshapeOf as).map (· - 1)) = true := by
  induction as generalizing k b with
  | nil => simp [partOf, blockshapeOf, inside]
  | cons a as ih =>
    obtain ⟨k₀, k, rfl⟩ := List.exists_cons_of_length_eq_add_one hk
    obtain ⟨b₀, b, rfl⟩ := List.exists_cons_of_length_eq_add_one hb
    have hRest := @ih k b (by simpa using hk) (by simpa using hb)
      fun n hn => hPos n (List.mem_cons_of_mem _ hn)
    have hBlock : 0 < a.blockshape := hPos a.blockshape List.mem_cons_self
    rw [partOf, blockshapeOf_cons, List.map_cons, inside, List.cons.injEq, hRest,
      Bool.and_eq_true, decide_eq_true_eq, Axis.nitems_eq]
    apply and_congr_left'
    omega

/-- The blocks of the result in which every item collects something. -/
def FullBlock (a c : Container) (axis : List Nat) (nchunk nblock : Nat) : Prop :=
  partOf c.catarr.axes (unflat (c.catarr.axes.map Axis.chunks) nchunk)
    (unflat (c.catarr.axes.map Axis.blocks) nblock) = c.catarr.blockshape ∧
  0 < reducedItems a axis

section Medians

variable {a c : Container} {axis : List Nat} {skipsNan : Bool} {cells : List (OutItem × Acc)}

/-- A cell stays inside its buffer unless its item is padding or a reduced axis is empty. -/
theorem medianCells_at (ha : Plain a)
    (hAxes : c.catarr.axes = keep (reducedAxis a.dtshape.ndim axis) a.catarr.axes) {k b i : List Nat}
    (hk : InBox k (c.catarr.axes.map Axis.chunks)) (hb : InBox b (c.catarr.axes.map Axis.blocks))
    (hi : InBox i (blockshapeOf c.catarr.axes))
    (h : blockCells (medianFunction skipsNan a.dtshape.dtype) a c axis (.fin 0) none
      (flat (c.catarr.axes.map Axis.chunks) k)
      (partShape c.catarr.axes (flat (c.catarr.axes.map Axis.chunks) k))
      (flat (c.catarr.axes.map Axis.blocks) b) = .ok cells) :
    ∃ p, cells[flat (blockshapeOf c.catarr.axes) i]? = some p ∧
      (CellInBounds skipsNan (reducedItems a axis) p.2 ↔
        skipsNan = true ∨ inside c.catarr.axes k b i = true ∧ 0 < reducedItems a axis) := by
  have hType : (medianFunction skipsNan a.dtshape.dtype).itype = a.dtshape.dtype := by
    cases skipsNan <;> rfl
  obtain ⟨p, u, order, hp, hFold, hLength⟩ :=
    blockCells_at ha hAxes (fun _ h => by cases h) hk hb hi h
  have hValues : (a.valuesAt order).length = order.length := List.length_map _
  refine ⟨p, hp, ?_⟩
  rw [hFold, foldAt_eq a hType]
  refine (cellInBounds_iff (by rw [hValues, hLength]; split <;> omega)).trans (or_congr_right ?_)
  rw [← List.length_pos_iff, hValues, hLength]
  cases inside c.catarr.axes k b i <;> simp

/-- The buffers of a block are never filled beyond their end. Finishing reads collected elements
only exactly if the function skips NaN, or no item of the block is padding and no reduced axis has
length zero. -/
theorem medianBuffers_safe_iff (ha : Plain a)
    (hAxes : c.catarr.axes = keep (reducedAxis a.dtshape.ndim axis) a.catarr.axes)
    {nchunk nblock : Nat} (hChunk : nchunk < (c.catarr.axes.map Axis.chunks).prod)
    (hBlock : nblock < (c.catarr.axes.map Axis.blocks).prod)
    (h : blockCells (medianFunction skipsNan a.dtshape.dtype) a c axis (.fin 0) none nchunk
      (partShape c.catarr.axes nchunk) nblock = .ok cells) :
    (∀ p ∈ cells, CellInBounds skipsNan (reducedItems a axis) p.2) ↔
      skipsNan = true ∨ FullBlock a c axis nchunk nblock := by
  have hPos : ∀ x ∈ c.catarr.axes, 0 < x.shape := shape_pos_of_nchunks hChunk
  have hItems : ∀ n ∈ blockshapeOf c.catarr.axes, 0 < n := forall_map_pos hPos fun x => x.block_pos
  have hLength := length_blockCells h
  have hk := inBox_unflat hChunk
  have hb := inBox_unflat hBlock
  have hAt := fun {i} (hi : InBox i (blockshapeOf c.catarr.axes)) =>
    @medianCells_at a c axis skipsNan cells ha hAxes _ _ i hk hb hi
      (by rwa [flat_unflat hChunk, flat_unflat hBlock])
  have hFull : FullBlock a c axis nchunk nblock ↔
      partOf c.catarr.axes (unflat (c.catarr.axes.map Axis.chunks) nchunk)
        (unflat (c.catarr.axes.map Axis.blocks) nblock) = blockshapeOf c.catarr.axes ∧
      0 < reducedItems a axis := Iff.rfl
  rw [hFull, partOf_eq_blockshape_iff (by simp) (by simp) hItems]
  constructor
  · intro hAll
    -- the last item of the block is padding if any is
    have hLast : InBox ((blockshapeOf c.catarr.axes).map (· - 1)) (blockshapeOf c.catarr.axes) := by
      refine List.forall₂_map_left_iff.mpr (List.forall₂_same.mpr fun n hn => ?_)
      exact Nat.sub_lt (hItems n hn) Nat.one_pos
    obtain ⟨p, hp, hIff⟩ := hAt hLast
    exact hIff.mp (hAll p (List.mem_of_getElem? hp))
  · intro hCond p hp
    obtain ⟨n, hn, rfl⟩ := List.getElem_of_mem hp
    have hn' : n < (blockshapeOf c.catarr.axes).prod := hn.trans_eq hLength
    obtain ⟨p, hp, hIff⟩ := hAt (inBox_unflat hn')
    rw [flat_unflat hn', List.getElem?_eq_getElem hn, Option.some.injEq] at hp
    subst hp
    rw [hIff]
    refine hCond.imp_right fun hFull => ⟨?_, hFull.2⟩
    rw [← partOf_eq_blockshape_iff (by simp) (by simp) hItems] at hFull
    have hIn : InBox (unflat (blockshapeOf c.catarr.axes) n) (partOf c.catarr.axes
        (unflat (c.catarr.axes.map Axis.chunks) nchunk)
        (unflat (c.catarr.axes.map Axis.blocks) nblock)) := by
      rw [hFull.1]
      exact inBox_unflat hn'
    exact ((inBox_partOf (by simp) (by simp)).mp hIn).2

end Medians

namespace MedianExample

/-- Two rows of three elements, in one chunk of blocks of 2 × 2. -/
def rows : Container :=
  Reference.plain .int32 [.ofCuts 2 2 2, .ofCuts 3 3 2]
    fun _ => .bits 1

theorem plain_rows : Plain rows := Reference.plain_plain _ _ (by decide) (by decide)

/-- The array of the medians of the columns. -/
def columns : Container :=
  Reference.plain .double [.ofCuts 3 3 2] fun _ => .bits 0

end MedianExample

open MedianExample in
/-- The first block of the result is full, and all of its medians stay in their buffers. -/
theorem medianBuffers_safe_iff_rows :
    ∃ cells, blockCells (medianFunction false .int32) rows columns [0] (.fin 0) none 0
        (partShape columns.catarr.axes 0) 0 = .ok cells ∧
      ∀ p ∈ cells, CellInBounds false (reducedItems rows [0]) p.2 := by
  refine ⟨_, rfl, (@medianBuffers_safe_iff rows columns [0] false _ plain_rows rfl 0 0 (by decide)
    (by decide) rfl).mpr (.inr ⟨rfl, by decide⟩)⟩

open MedianExample in
/-- The second item of the second block is padding: nothing is collected for it, and its finish
reads the positions −1 and 0. -/
theorem median_reads_padding :
    ∃ cells p, blockCells (medianFunction false .int32) rows columns [0] (.fin 0) none 0
        (partShape columns.catarr.axes 0) 1 = .ok cells ∧
      p ∈ cells ∧ p.2.medians = [] ∧ medianReads false p.2 = [-1, 0] ∧
      ¬ CellInBounds false (reducedItems rows [0]) p.2 := by
  refine ⟨_, _, rfl, List.mem_of_getElem? (i := 1) rfl, rfl, rfl, ?_⟩
  intro hBounds
  have := (hBounds.2 (-1) (by decide)).1
  omega

end IronArray
