import IronArray.Constructors.Element
import IronArray.Grid.Tiles

/-!
# The geometry that the constructor hands to its callbacks

The chunks and the blocks that `iarray_constructor_block` visits tile the array, and a block lies
in its chunk. The field `shape` of a chunk is not the shape of the chunk: the loop subtracts from
`stop` what the field held before instead of `start` (`constructorVisits_consistent_iff`).
-/

namespace IronArray

open Grid

/-! ## The loop over the chunks -/

/-- `chunk_info` as the callbacks see it: its fields and what its `shape` holds. -/
structure ConstructorChunkVisit where
  info : ConstructorChunkInfo
  shape : List Int

/-- The values of `chunk_info` in the loop over the chunks. `held` is what `shape` holds before
the first pass: the variable lives on the stack and nothing sets it. -/
def constructorChunkVisits (held : List Int) :
    List ConstructorChunkInfo → List ConstructorChunkVisit
  | [] => []
  | info :: infos =>
    let shape := List.zipWith (fun (stop : Nat) s => (stop : Int) - s) info.stop held
    ⟨info, shape⟩ :: constructorChunkVisits shape infos

/-- The array that `iarray_constructor_block` makes and what it hands to the callbacks of the
chunks. -/
def iarrayConstructorVisits (E : Backend) (dtshape : Dtshape) (storage : Storage)
    (held : List Int) : Result (Container × List ConstructorChunkVisit) := do
  let c ← iarrayEmpty E dtshape storage
  let blockInChunk ← shapeOfBlocks c.catarr.axes
  let chunkInShape ← shapeOfChunks c.catarr.axes
  pure (c, constructorChunkVisits held ((List.range c.catarr.nchunks).map
    (constructorChunkInfo c.catarr.axes chunkInShape blockInChunk)))

/-- What the prefilter hands to the callbacks of the blocks of a chunk. -/
def constructorBlocks (a : CatArray) (chunk : ConstructorChunkInfo) : List ConstructorBlockInfo :=
  (List.range ((a.axes.map Axis.extchunkshape).prod / a.blockshape.prod)).filterMap
    (constructorBlockInfo a.axes chunk)

@[simp] theorem constructorChunkVisits_info (held : List Int)
    (infos : List ConstructorChunkInfo) :
    (constructorChunkVisits held infos).map ConstructorChunkVisit.info = infos := by
  induction infos generalizing held with
  | nil => rfl
  | cons info infos ih => rw [constructorChunkVisits, List.map_cons, ih]

/-- The constructor fills the chunks that it visits, whatever `shape` holds. -/
theorem iarrayConstructorBlock_eq_visits (E : Backend) (dtshape : Dtshape)
    (generatorFn : ConstructorGeneratorFn) (storage : Storage) (held : List Int) :
    iarrayConstructorBlock E dtshape generatorFn storage =
      (iarrayConstructorVisits E dtshape storage held >>= fun r => do
        let catarr ← (r.2.map ConstructorChunkVisit.info).foldlM (fun a info => do
          let chunk ← r.1.catarr.compress (iarrayConstructorPrefilter E generatorFn
            (constructorArrayInfo r.1) info)
          pure (a.updateChunk info.indexFlat (chunkItems chunk))) r.1.catarr
        pure { r.1 with catarr := catarr }) := by
  simp only [iarrayConstructorBlock, iarrayConstructorVisits, bind_assoc, pure_bind,
    constructorChunkVisits_info]
  simp only [List.foldlM_map]
  rfl

/-! ## Consistent geometry -/

/-- `stop - start` on every axis. -/
def extentOf (start stop : List Nat) : List Int :=
  List.zipWith (fun (p q : Nat) => (q : Int) - p) start stop

/-- The indices from `start` to `stop`. -/
def indicesOf (start stop : List Nat) : List (List Nat) :=
  (box (List.zipWith (· - ·) stop start)).map (addIdx start)

/-- A region between `low` and `high` with its shape. -/
structure Located (start stop : List Nat) (shape : List Int) (low high : List Nat) : Prop where
  shape : shape = extentOf start stop
  low : List.Forall₂ (· ≤ ·) low start
  order : List.Forall₂ (· ≤ ·) start stop
  high : List.Forall₂ (· ≤ ·) stop high

/-- What the callbacks rely on. -/
structure ConsistentGeometry (c : Container) (visits : List ConstructorChunkVisit) : Prop where
  chunk : ∀ v ∈ visits, Located v.info.start v.info.stop v.shape
    (List.replicate c.dtshape.ndim 0) c.dtshape.shape
  block : ∀ v ∈ visits, ∀ b ∈ constructorBlocks c.catarr v.info,
    Located b.start b.stop (ints b.shape) v.info.start v.info.stop ∧ b.size = b.shape.prod
  chunks_tile : (visits.flatMap fun v => indicesOf v.info.start v.info.stop).Perm
    (box c.dtshape.shape)
  blocks_tile : (visits.flatMap fun v => (constructorBlocks c.catarr v.info).flatMap fun b =>
    indicesOf b.start b.stop).Perm (box c.dtshape.shape)

theorem extentOf_addIdx {s n : List Nat} (h : s.length = n.length) :
    extentOf s (addIdx s n) = ints n := by
  induction s generalizing n with
  | nil =>
    obtain rfl := List.length_eq_zero_iff.mp h.symm
    rfl
  | cons i s ih =>
    obtain ⟨j, n, rfl⟩ := List.exists_cons_of_length_eq_add_one h.symm
    have hRest := @ih n (by simpa using h)
    rw [extentOf] at hRest ⊢
    rw [addIdx_cons, List.zipWith_cons_cons, hRest, ints_cons]
    congr 1
    omega

theorem indicesOf_addIdx {s n : List Nat} (h : s.length = n.length) :
    indicesOf s (addIdx s n) = (box n).map (addIdx s) := by
  have hShape : List.zipWith (· - ·) (addIdx s n) s = n := within_addIdx h
  rw [indicesOf, hShape]

/-- A region of a box is located in it. -/
theorem located_region {s n shape : List Nat} (h : Region s n shape) :
    Located s (addIdx s n) (ints n) (List.replicate shape.length 0) shape := by
  have hLen := h.start_length.trans h.length.symm
  refine ⟨(extentOf_addIdx hLen).symm, ?_, ?_, h.inside⟩
  · rw [← h.start_length]
    exact List.forall₂_iff_get.mpr ⟨by simp, by simp⟩
  · refine List.forall₂_iff_get.mpr ⟨hLen.trans (length_addIdx hLen).symm, fun i hi _ => ?_⟩
    simp only [addIdx, List.get_eq_getElem, List.getElem_zipWith]
    omega

/-! ## Chunks -/

section Chunks

variable {axes : List Axis} {ch bl : List Nat} {nchunk : Nat}

theorem chunkStop_eq {t : List Nat} (ht : InBox t (axes.map Axis.chunks)) :
    chunkStop axes t = addIdx (tileStart (chunkshapeOf axes) t)
      (tileShape (shapeOf axes) (chunkshapeOf axes) t) := by
  induction axes generalizing t with
  | nil => cases ht; rfl
  | cons a axes ih =>
    obtain ⟨i, t, rfl, hi, ht⟩ := InBox.cons_iff.mp ht
    have hPos : 0 < a.shape := by
      by_contra hZero
      rw [Axis.chunks, show a.shape = 0 by omega, numTiles_zero] at hi
      omega
    have hInside := (lt_numTiles_iff (a.chunk_pos hPos)).mp hi
    have hRest := ih ht
    simp only [chunkStop, chunkshapeOf, List.map_cons, List.zipWith_cons_cons, shapeOf_cons,
      tileStart_cons, tileShape_cons, addIdx_cons] at hRest ⊢
    rw [hRest]
    congr 1
    split <;> omega

/-- The chunk information describes the part of the chunk inside the array. -/
theorem constructorChunkInfo_eq (bl : List Nat) (hk : nchunk < (axes.map Axis.chunks).prod) :
    (constructorChunkInfo axes (axes.map Axis.chunks) bl nchunk).start = chunkStart axes nchunk ∧
      (constructorChunkInfo axes (axes.map Axis.chunks) bl nchunk).stop =
        addIdx (chunkStart axes nchunk) (chunkExtent axes nchunk) := by
  simp only [constructorChunkInfo, unidimToMultidim_strides (pos_of_lt_prod hk)]
  constructor
  · rw [chunkStart, tileStart, chunkshapeOf, List.zipWith_map_right, List.zipWith_comm]
  · exact chunkStop_eq (inBox_unflat hk)

end Chunks

/-! ## Blocks -/

theorem length_unidimToMultidim (strides : List Nat) (i : Nat) :
    (indexUnidimToMultidim strides i).length = strides.length := by
  cases strides with
  | nil => rfl
  | cons s strides => simp [indexUnidimToMultidim]

/-- A block that does not start behind its chunk, cut off at the end of the chunk, is located in
the chunk. -/
theorem located_cut {axes : List Axis} {start stop index : List Nat}
    (hStart : start.length = axes.length) (hStop : stop.length = axes.length)
    (hIndex : index.length = axes.length)
    (h : (List.zip (List.zipWith (· + ·) start (List.zipWith (fun (a : Axis) i =>
      i * a.blockshape) axes index)) stop).any (fun p => p.2 < p.1) = false) :
    let first := List.zipWith (· + ·) start
      (List.zipWith (fun (a : Axis) i => i * a.blockshape) axes index)
    let last := List.zipWith (fun (a : Axis) (p : Nat × Nat) =>
      if p.2 < p.1 + a.blockshape then p.2 else p.1 + a.blockshape) axes (List.zip first stop)
    Located first last (ints (List.zipWith (· - ·) last first)) start stop := by
  induction axes generalizing start stop index with
  | nil =>
    obtain rfl := List.length_eq_zero_iff.mp hStart
    obtain rfl := List.length_eq_zero_iff.mp hStop
    exact ⟨rfl, .nil, .nil, .nil⟩
  | cons a axes ih =>
    obtain ⟨s, start, rfl⟩ := List.exists_cons_of_length_eq_add_one hStart
    obtain ⟨t, stop, rfl⟩ := List.exists_cons_of_length_eq_add_one hStop
    obtain ⟨i, index, rfl⟩ := List.exists_cons_of_length_eq_add_one hIndex
    simp only [List.zipWith_cons_cons, List.zip_cons_cons, List.any_cons, Bool.or_eq_false_iff,
      decide_eq_false_iff_not] at h
    obtain ⟨hShape, hLow, hOrder, hHigh⟩ := ih (by simpa using hStart) (by simpa using hStop)
      (by simpa using hIndex) h.2
    simp only [List.zipWith_cons_cons, List.zip_cons_cons, ints_cons]
    refine ⟨?_, .cons (by omega) hLow, .cons ?_ hOrder, .cons ?_ hHigh⟩
    · rw [extentOf, List.zipWith_cons_cons, hShape, extentOf]
      congr 1
      split <;> omega
    · split <;> omega
    · split <;> omega

theorem constructorBlockInfo_located {axes : List Axis} {chunk : ConstructorChunkInfo}
    {nblock : Nat} {b : ConstructorBlockInfo} (hStart : chunk.start.length = axes.length)
    (hStop : chunk.stop.length = axes.length)
    (hStrides : chunk.chunkStridesBlock.length = axes.length)
    (h : constructorBlockInfo axes chunk nblock = some b) :
    Located b.start b.stop (ints b.shape) chunk.start chunk.stop ∧ b.size = b.shape.prod := by
  rw [constructorBlockInfo] at h
  split at h
  · cases h
  · rename_i hInside
    cases h
    exact ⟨located_cut hStart hStop ((length_unidimToMultidim _ _).trans hStrides)
      (Bool.eq_false_iff.mpr hInside), rfl⟩

theorem flatMap_filterMap {α β γ : Type} (f : α → Option β) (g : β → List γ) (xs : List α) :
    (xs.filterMap f).flatMap g = xs.flatMap fun x => (f x).elim [] g := by
  induction xs with
  | nil => rfl
  | cons x xs ih =>
    rw [List.flatMap_cons, ← ih, List.filterMap_cons]
    cases f x <;> rfl

/-- The blocks that are visited in a chunk hold the parts of its blocks inside the array. -/
theorem flatMap_constructorBlocks {a : CatArray} {nchunk : Nat} (hk : nchunk < a.nchunks) :
    ((constructorBlocks a (constructorChunkInfo a.axes (a.axes.map Axis.chunks)
        (a.axes.map Axis.blocks) nchunk)).flatMap fun b => indicesOf b.start b.stop) =
      (List.range (a.axes.map Axis.blocks).prod).flatMap fun nblock =>
        (box (partOf a.axes (unflat (a.axes.map Axis.chunks) nchunk)
          (unflat (a.axes.map Axis.blocks) nblock))).map
            (joinAll a.axes (unflat (a.axes.map Axis.chunks) nchunk)
              (unflat (a.axes.map Axis.blocks) nblock)) := by
  rw [constructorBlocks, flatMap_filterMap, CatArray.blockshape,
    CatArray.prod_extchunkshape (CatArray.shape_pos_of_nchunks hk)]
  refine List.flatMap_congr fun nblock hb => ?_
  rcases constructorBlockInfo_eq hk (List.mem_range.mp hb) with ⟨hNone, hEmpty⟩ | ⟨stop, hStop, hSome⟩
  · have hBox : box (partOf a.axes (unflat (a.axes.map Axis.chunks) nchunk)
        (unflat (a.axes.map Axis.blocks) nblock)) = [] :=
      List.length_eq_zero_iff.mp ((length_box _).trans hEmpty)
    rw [hNone, hBox]
    rfl
  · rw [hSome]
    show (box _).map _ = _
    rw [hStop]
    refine List.map_congr_left fun i hi => ?_
    have hItem := ((inBox_partOf (by simp) (by simp)).mp (mem_box.mp hi)).1
    rw [← blockStart_add (by simp) (by simp) (by simpa [blockshapeOf] using hItem.length_eq)]
    exact List.zipWith_comm_of_comm fun i j => Nat.add_comm i j

/-! ## The shapes of the chunks -/

/-- `shape` is right in every pass if it held the start of each chunk before. -/
def HeldStarts : List Int → List ConstructorChunkInfo → Prop
  | _, [] => True
  | held, info :: infos => held = ints info.start ∧ HeldStarts (extentOf info.start info.stop) infos

theorem sub_held_eq_iff {stop start : List Nat} {held : List Int}
    (hStart : start.length = stop.length) (hHeld : held.length = stop.length) :
    List.zipWith (fun (p : Nat) s => (p : Int) - s) stop held = extentOf start stop ↔
      held = ints start := by
  induction stop generalizing start held with
  | nil =>
    obtain rfl := List.length_eq_zero_iff.mp hStart
    obtain rfl := List.length_eq_zero_iff.mp hHeld
    exact iff_of_true rfl rfl
  | cons q stop ih =>
    obtain ⟨p, start, rfl⟩ := List.exists_cons_of_length_eq_add_one hStart
    obtain ⟨s, held, rfl⟩ := List.exists_cons_of_length_eq_add_one hHeld
    have hRest := @ih start held (by simpa using hStart) (by simpa using hHeld)
    simp only [extentOf, List.zipWith_cons_cons, ints_cons, List.cons.injEq] at hRest ⊢
    rw [hRest]
    exact and_congr_left fun _ => by omega

theorem visits_shape_iff {infos : List ConstructorChunkInfo} {n : Nat} {held : List Int}
    (hHeld : held.length = n) (h : ∀ info ∈ infos, info.start.length = n ∧ info.stop.length = n) :
    (∀ v ∈ constructorChunkVisits held infos, v.shape = extentOf v.info.start v.info.stop) ↔
      HeldStarts held infos := by
  induction infos generalizing held with
  | nil => exact iff_of_true (by simp [constructorChunkVisits]) trivial
  | cons info infos ih =>
    obtain ⟨hStart, hStop⟩ := h info List.mem_cons_self
    have hFirst := sub_held_eq_iff (hStart.trans hStop.symm) (hHeld.trans hStop.symm)
    have hLen : (extentOf info.start info.stop).length = n := by
      rw [extentOf, List.length_zipWith, hStart, hStop, Nat.min_self]
    rw [constructorChunkVisits, List.forall_mem_cons, HeldStarts, hFirst]
    refine and_congr_right fun hEq => ?_
    rw [hFirst.mpr hEq]
    exact ih hLen fun i hi => h i (List.mem_cons_of_mem _ hi)

/-- The chunks of an array from its first on, as the callbacks see them. -/
def chunkInfos (axes : List Axis) : List ConstructorChunkInfo :=
  (List.range (axes.map Axis.chunks).prod).map
    (constructorChunkInfo axes (axes.map Axis.chunks) (axes.map Axis.blocks))

section Held

variable {axes : List Axis}

theorem mem_chunkInfos {info : ConstructorChunkInfo} (h : info ∈ chunkInfos axes) :
    ∃ k < (axes.map Axis.chunks).prod, info = constructorChunkInfo axes (axes.map Axis.chunks)
      (axes.map Axis.blocks) k ∧ Region info.start (chunkExtent axes k) (shapeOf axes) ∧
      info.stop = addIdx info.start (chunkExtent axes k) := by
  obtain ⟨k, hk, rfl⟩ := List.mem_map.mp h
  have hLt := List.mem_range.mp hk
  obtain ⟨hStart, hStop⟩ := constructorChunkInfo_eq (axes.map Axis.blocks) hLt
  rw [hStop, hStart]
  exact ⟨k, hLt, rfl, region_chunk (CatArray.shape_pos_of_nchunks hLt) hLt, rfl⟩

theorem chunkStart_zero (axes : List Axis) :
    chunkStart axes 0 = List.replicate axes.length 0 := by
  rw [chunkStart, unflat_zero, List.length_map, tileStart]
  refine List.ext_getElem (by simp [chunkshapeOf]) fun i hi hi' => ?_
  simp

/-- Two chunks of which the second starts at the extent of the first lie on one axis. -/
theorem rank_one_of_second (h : 1 < (axes.map Axis.chunks).prod)
    (hSecond : chunkStart axes 1 = chunkExtent axes 0) : ∃ a, axes = [a] := by
  have hPos : ∀ n ∈ chunkStart axes 1, 0 < n := by
    rw [hSecond]
    have hFirst := Nat.zero_lt_of_lt h
    exact chunkExtent_pos (CatArray.shape_pos_of_nchunks hFirst) hFirst
  rcases axes with _ | ⟨a, _ | ⟨b, rest⟩⟩
  · simp at h
  · exact ⟨a, rfl⟩
  · exfalso
    simp only [chunkStart, chunkshapeOf, List.map_cons, unflat_cons, tileStart_cons,
      List.forall_mem_cons] at hPos
    obtain ⟨hRow, hColumn, -⟩ := hPos
    -- the first axis is past its first chunk, so the other axes have one chunk in all
    have hOne : (b.chunks :: rest.map Axis.chunks).prod = 1 := by
      have hDiv := Nat.pos_of_mul_pos_right hRow
      have hLe := Nat.div_pos_iff.mp hDiv
      omega
    rw [hOne] at hColumn
    simp at hColumn

theorem chunkStart_one (a : Axis) (k : Nat) : chunkStart [a] k = [k * a.chunkshape] := by
  simp [chunkStart, chunkshapeOf, tileStart]

theorem chunkExtent_one (a : Axis) (k : Nat) :
    chunkExtent [a] k = [min a.chunkshape (a.shape - k * a.chunkshape)] := by
  simp [chunkExtent, chunkshapeOf, shapeOf, tileShape]

/-- When the field `shape` is right in all chunks. -/
theorem heldStarts_chunks {held : List Int} :
    HeldStarts held (chunkInfos axes) ↔ (axes.map Axis.chunks).prod = 0 ∨
      held = List.replicate axes.length 0 ∧ ((axes.map Axis.chunks).prod = 1 ∨
        axes.length = 1 ∧ (axes.map Axis.chunks).prod = 2) := by
  have hInfo : ∀ k < (axes.map Axis.chunks).prod, ∀ held : List Int, ∀ infos,
      HeldStarts held (constructorChunkInfo axes (axes.map Axis.chunks) (axes.map Axis.blocks) k ::
        infos) ↔ held = ints (chunkStart axes k) ∧ HeldStarts (ints (chunkExtent axes k)) infos := by
    intro k hk held infos
    obtain ⟨hStart, hStop⟩ := constructorChunkInfo_eq (axes.map Axis.blocks) hk
    have hRegion := region_chunk (CatArray.shape_pos_of_nchunks hk) hk
    rw [HeldStarts, hStop, hStart,
      extentOf_addIdx (hRegion.start_length.trans hRegion.length.symm)]
  have hZeros : ints (chunkStart axes 0) = List.replicate axes.length 0 := by
    rw [chunkStart_zero, ints, List.map_replicate]
    rfl
  rw [chunkInfos]
  generalize hn : (axes.map Axis.chunks).prod = n
  rw [hn] at hInfo
  rcases n with _ | _ | n
  · exact iff_of_true trivial (.inl rfl)
  · show HeldStarts held [_] ↔ _
    rw [hInfo 0 (by omega), hZeros]
    simp [HeldStarts]
  · rw [List.range_succ_eq_map, List.range_succ_eq_map, List.map_cons, List.map_cons, List.map_cons,
      hInfo 0 (by omega), hInfo 1 (by omega), hZeros]
    simp only [Nat.add_eq_zero_iff, and_false, false_or, Nat.reduceEqDiff]
    refine and_congr_right fun _ => ?_
    constructor
    · rintro ⟨hSecond, hRest⟩
      obtain ⟨a, rfl⟩ := rank_one_of_second (by rw [hn]; omega) (ints_injective hSecond).symm
      refine ⟨rfl, ?_⟩
      by_contra hMore
      obtain ⟨m, rfl⟩ := Nat.exists_eq_succ_of_ne_zero hMore
      -- the third chunk starts two lengths behind the first, the second has one at most
      rw [List.range_succ_eq_map] at hRest
      have hThird := ints_injective ((hInfo 2 (by omega) _ _).mp hRest).1
      rw [chunkStart_one, chunkExtent_one] at hThird
      have hLengths := List.head_eq_of_cons_eq hThird
      have hPos := a.chunk_pos (CatArray.shape_pos_of_nchunks (c := 0) (by rw [hn]; omega) a
        List.mem_cons_self)
      omega
    · rintro ⟨hOne, rfl⟩
      obtain ⟨a, rfl⟩ := List.length_eq_one_iff.mp hOne
      have hShape := CatArray.shape_pos_of_nchunks (c := 0) (by rw [hn]; omega) a List.mem_cons_self
      have hLast : 1 * a.chunkshape < a.shape := by
        apply (lt_numTiles_iff (a.chunk_pos hShape)).mp
        rw [← Axis.chunks]
        simp only [List.map_cons, List.map_nil, List.prod_cons, List.prod_nil] at hn
        omega
      refine ⟨?_, trivial⟩
      rw [chunkExtent_one, chunkStart_one]
      congr 2
      omega

end Held

/-! ## The constructor -/

theorem iarrayConstructorVisits_ok {E : Backend} (hE : E.Lawful) {dtshape : Dtshape}
    {storage : Storage} {held : List Int} {c : Container} {visits : List ConstructorChunkVisit}
    (h : iarrayConstructorVisits E dtshape storage held = .ok (c, visits)) :
    PlainOf dtshape storage c ∧
      visits = constructorChunkVisits held (chunkInfos c.catarr.axes) := by
  obtain ⟨a, hEmpty, h⟩ := Result.bind_eq_ok.mp h
  obtain ⟨bl, hBl, h⟩ := Result.bind_eq_ok.mp h
  obtain ⟨ch, hCh, h⟩ := Result.bind_eq_ok.mp h
  cases h
  refine ⟨iarrayEmpty_plain hE hEmpty, ?_⟩
  rw [chunkInfos, CatArray.nchunks]
  rcases Nat.eq_zero_or_pos (c.catarr.axes.map Axis.chunks).prod with hNone | hSome
  · rw [hNone]
    rfl
  · have hShape := CatArray.shape_pos_of_nchunks hSome
    rw [shapeOfBlocks_ok hShape, Except.ok.injEq] at hBl
    rw [shapeOfChunks_ok fun x hx => x.chunk_pos (hShape x hx), Except.ok.injEq] at hCh
    rw [hBl, hCh]

section Visits

variable {c : Container} {held : List Int}

/-- The chunks that are visited cover the array, every index once. -/
theorem visited_chunks_perm (axes : List Axis) :
    ((chunkInfos axes).flatMap fun info => indicesOf info.start info.stop).Perm
      (box (shapeOf axes)) := by
  rcases Nat.eq_zero_or_pos (axes.map Axis.chunks).prod with hNone | hSome
  · have hEmpty : (shapeOf axes).prod = 0 := by
      by_contra hne
      have hPos := pos_of_lt_prod (Nat.pos_of_ne_zero hne)
      have := (nchunks_pos fun a ha => hPos _ (List.mem_map_of_mem ha)).1
      omega
    rw [chunkInfos, hNone, List.length_eq_zero_iff.mp ((length_box _).trans hEmpty)]
    rfl
  · refine List.Perm.trans (List.Perm.of_eq ?_) (chunks_perm (CatArray.shape_pos_of_nchunks hSome))
    rw [chunkInfos, List.flatMap_map]
    refine List.flatMap_congr fun k hk => ?_
    have hLt := List.mem_range.mp hk
    obtain ⟨hStart, hStop⟩ := constructorChunkInfo_eq (axes.map Axis.blocks) hLt
    have hRegion := region_chunk (CatArray.shape_pos_of_nchunks hLt) hLt
    rw [hStop, hStart, indicesOf_addIdx (hRegion.start_length.trans hRegion.length.symm)]
    rfl

/-- The blocks that are visited cover the array, every index once. -/
theorem visited_blocks_perm (a : CatArray) :
    ((chunkInfos a.axes).flatMap fun info => (constructorBlocks a info).flatMap fun b =>
      indicesOf b.start b.stop).Perm (box a.shape) := by
  refine List.Perm.trans ?_ (joinAll_blocks_perm a.axes)
  refine List.Perm.trans ?_ ((box_perm_unflat _).flatMap_right _)
  rw [List.flatMap_map, chunkInfos, List.flatMap_map]
  refine List.Perm.flatMap_left _ fun nchunk hc => ?_
  refine List.Perm.trans ?_ ((box_perm_unflat _).flatMap_right _)
  rw [List.flatMap_map]
  exact List.Perm.of_eq (flatMap_constructorBlocks (List.mem_range.mp hc))

/-- What the callbacks get is consistent but for the shapes of the chunks. -/
theorem consistentGeometry_iff_shape (hPlain : Plain c) :
    ConsistentGeometry c (constructorChunkVisits held (chunkInfos c.catarr.axes)) ↔
      ∀ v ∈ constructorChunkVisits held (chunkInfos c.catarr.axes),
        v.shape = extentOf v.info.start v.info.stop := by
  have hShape : shapeOf c.catarr.axes = c.dtshape.shape := hPlain.fresh.shape
  have hInfo : ∀ v ∈ constructorChunkVisits held (chunkInfos c.catarr.axes),
      v.info ∈ chunkInfos c.catarr.axes := by
    intro v hv
    have := List.mem_map_of_mem (f := ConstructorChunkVisit.info) hv
    rwa [constructorChunkVisits_info] at this
  refine ⟨fun h v hv => (h.chunk v hv).shape, fun h => ⟨fun v hv => ?_, fun v hv b hb => ?_, ?_, ?_⟩⟩
  · obtain ⟨k, -, -, hRegion, hStop⟩ := mem_chunkInfos (hInfo v hv)
    have hLocated := located_region hRegion
    rw [← hStop, hShape] at hLocated
    exact ⟨h v hv, hLocated.low, hLocated.order, hLocated.high⟩
  · obtain ⟨nblock, -, hb⟩ := List.mem_filterMap.mp hb
    obtain ⟨k, -, hk, hRegion, hStop⟩ := mem_chunkInfos (hInfo v hv)
    have hStart : v.info.start.length = c.catarr.axes.length :=
      hRegion.start_length.trans (length_shapeOf _)
    refine constructorBlockInfo_located hStart ?_ ?_ hb
    · rw [hStop, length_addIdx (hRegion.start_length.trans hRegion.length.symm), hRegion.length,
        length_shapeOf]
    · rw [hk]
      simp [constructorChunkInfo, computeStrides_eq, length_strides]
  · have hPerm := visited_chunks_perm c.catarr.axes
    rw [hShape, ← constructorChunkVisits_info held (chunkInfos c.catarr.axes),
      List.flatMap_map] at hPerm
    exact hPerm
  · have hPerm := visited_blocks_perm c.catarr
    rw [hPlain.fresh.shape, ← constructorChunkVisits_info held (chunkInfos c.catarr.axes),
      List.flatMap_map] at hPerm
    exact hPerm

end Visits

/-- The callbacks get consistent geometry exactly if there is no chunk, or the field `shape`
happens to hold zeros and there is one chunk or there are two on the only axis. -/
theorem constructorVisits_consistent_iff {E : Backend} (hE : E.Lawful) {dtshape : Dtshape}
    {storage : Storage} {held : List Int} {c : Container} {visits : List ConstructorChunkVisit}
    (h : iarrayConstructorVisits E dtshape storage held = .ok (c, visits))
    (hHeld : held.length = dtshape.ndim) :
    ConsistentGeometry c visits ↔ c.catarr.nchunks = 0 ∨
      held = List.replicate dtshape.ndim 0 ∧ (c.catarr.nchunks = 1 ∨
        dtshape.ndim = 1 ∧ c.catarr.nchunks = 2) := by
  obtain ⟨⟨hPlain, rfl, rfl⟩, rfl⟩ := iarrayConstructorVisits_ok hE h
  have hCount : c.catarr.nchunks = (c.catarr.axes.map Axis.chunks).prod := rfl
  have hNdim : c.catarr.axes.length = c.dtshape.ndim := hPlain.catarr_ndim
  rw [consistentGeometry_iff_shape hPlain, visits_shape_iff hHeld, heldStarts_chunks, hCount, hNdim]
  intro info hInfo
  obtain ⟨k, -, -, hRegion, hStop⟩ := mem_chunkInfos hInfo
  have hStart := hRegion.start_length.trans ((length_shapeOf _).trans hNdim)
  refine ⟨hStart, ?_⟩
  rw [hStop, length_addIdx (hRegion.start_length.trans hRegion.length.symm), hRegion.length,
    length_shapeOf, hNdim]

/-- Six elements in two chunks, with zeros in the field `shape`. -/
theorem constructorVisits_consistent_pair : ∃ c visits,
    iarrayConstructorVisits Reference.backend ⟨.int32, [6]⟩ ⟨[4], [2]⟩ [0] = .ok (c, visits) ∧
      ConsistentGeometry c visits := by
  have hVisits : ∃ c visits, iarrayConstructorVisits Reference.backend ⟨.int32, [6]⟩
      ⟨[4], [2]⟩ [0] = .ok (c, visits) := ⟨_, _, rfl⟩
  obtain ⟨c, visits, h⟩ := hVisits
  refine ⟨c, visits, h, (constructorVisits_consistent_iff Reference.lawful h rfl).mpr ?_⟩
  cases h
  decide

/-- A 2 by 4 matrix in two chunks of 2 by 2: the second chunk has no row for the callbacks, even
with zeros in the field `shape`. -/
theorem constructorVisits_second_chunk : ∃ c visits,
    iarrayConstructorVisits Reference.backend ⟨.int32, [2, 4]⟩ ⟨[2, 2], [1, 2]⟩ [0, 0] =
      .ok (c, visits) ∧ ¬ ConsistentGeometry c visits := by
  refine ⟨_, _, rfl, fun h => ?_⟩
  have hSecond := (h.chunk _ (List.mem_cons_of_mem _ List.mem_cons_self)).shape
  revert hSecond
  decide

end IronArray
