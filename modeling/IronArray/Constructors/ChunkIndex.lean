import IronArray.Constructors.Pieces

/-!
# Gathering chunks by their numbers

`iarray_from_chunk_index` puts chunks of one array, chosen by their numbers, into a new array of
the same partition and of any shape. Chunks are moved compressed, with their padding: a chunk that
is cut off at the end of the source can lie inside the result, and the other way round.
-/

namespace IronArray

open Grid

/-! ## The call -/

/-- `blosc2_schunk_get_chunk` with an `int64_t` number. It compares the number with the number of
chunks only, and a negative one leaves the table of the chunks. -/
def CatArray.getChunkAt (a : CatArray) (nchunk : Int) : Result (Nat → Cell) :=
  if nchunk < 0 then crash .outOfBounds else a.getChunk nchunk.toNat

/-- `iarray_from_chunk_index`. `shape` and the fields of the storage have an entry for each axis. -/
def iarrayFromChunkIndex (E : Backend) (src : Container) (shape : List Nat)
    (chunkIndexes : List Int) : Result Container :=
  if shape.length < src.dtshape.ndim then crash .outOfBounds
  else do
    let dest ← derefContainer (iarrayEmpty E
      ⟨src.dtshape.dtype, shape.take src.dtshape.ndim⟩
      ⟨src.storage.chunkshape.take src.dtshape.ndim, src.storage.blockshape.take src.dtshape.ndim⟩)
    if chunkIndexes.length ≠ dest.catarr.nchunks then inaError .invalidChunkshape
    else do
      let catarr ← (List.range dest.catarr.nchunks).foldlM (fun a i => do
        let chunk ← src.catarr.getChunkAt (chunkIndexes.getD i 0)
        pure (a.updateChunk i chunk)) dest.catarr
      pure { dest with catarr := catarr }

theorem derefContainer_ok {r : Result Container} {c : Container}
    (h : derefContainer r = .ok c) : r = .ok c := by
  rcases r with (_ | _) | c'
  · cases h
  · cases h
  · exact h

theorem getChunkAt_ok {a : CatArray} {nchunk : Int} {items : Nat → Cell} :
    a.getChunkAt nchunk = .ok items ↔
      ∃ q < a.nchunks, nchunk = (q : Int) ∧ items = a.sc.chunk q := by
  unfold CatArray.getChunkAt
  constructor
  · intro h
    split at h
    · cases h
    · rename_i hSign
      rw [CatArray.getChunk] at h
      split at h
      · rename_i hLt
        cases h
        exact ⟨nchunk.toNat, hLt, by omega, rfl⟩
      · cases h
  · rintro ⟨q, hq, rfl, rfl⟩
    rw [if_neg (by omega), Int.toNat_natCast, CatArray.getChunk, if_pos hq]

/-! ## What the result holds -/

/-- The result has the shape asked for and the partition of the source, one number for each of its
chunks, each number that of a chunk of the source, and in chunk `i` the items of that chunk. -/
structure Gathers (src : Container) (shape : List Nat) (chunkIndexes : List Int)
    (c : Container) : Prop where
  made : PlainOf ⟨src.dtshape.dtype, shape.take src.dtshape.ndim⟩ src.storage c
  length : chunkIndexes.length = c.catarr.nchunks
  chunk : ∀ i < c.catarr.nchunks, ∃ q < src.catarr.nchunks, chunkIndexes[i]? = some (q : Int) ∧
    ∀ x, InBox x (chunkExtent c.catarr.axes i) →
      c.catarr.cell (addIdx (chunkStart c.catarr.axes i) x) = .ok (src.catarr.chunkItem q x) ∧
        (InBox x (chunkExtent src.catarr.axes q) →
          src.catarr.cell (addIdx (chunkStart src.catarr.axes q) x) =
            .ok (src.catarr.chunkItem q x))

section Gather

variable {E : Backend} {src : Container} {shape : List Nat} {chunkIndexes : List Int}

/-- The storage that is copied entry by entry is that of the source. -/
theorem Plain.take_storage (h : Plain src) :
    (⟨src.storage.chunkshape.take src.dtshape.ndim,
      src.storage.blockshape.take src.dtshape.ndim⟩ : Storage) = src.storage := by
  have hChunk : src.storage.chunkshape.length = src.dtshape.ndim := by
    rw [length_stored h.fresh.chunkshape, h.length_chunkshape]
  have hBlock : src.storage.blockshape.length = src.dtshape.ndim := by
    rw [length_stored h.fresh.blockshape, ← h.catarr_ndim, CatArray.blockshape, blockshapeOf,
      List.length_map,
      CatArray.ndim]
  rw [List.take_of_length_le hChunk.le, List.take_of_length_le hBlock.le]

/-- What a call that succeeds has done. -/
theorem fromChunkIndex_ok (hPlain : Plain src) {c : Container}
    (h : iarrayFromChunkIndex E src shape chunkIndexes = .ok c) :
    ∃ dest items, iarrayEmpty E ⟨src.dtshape.dtype, shape.take src.dtshape.ndim⟩ src.storage =
        .ok dest ∧ chunkIndexes.length = dest.catarr.nchunks ∧
      (∀ i < dest.catarr.nchunks,
        src.catarr.getChunkAt (chunkIndexes.getD i 0) = .ok (items i)) ∧
      c = { dest with catarr := dest.catarr.withItems dest.catarr.nchunks items } := by
  unfold iarrayFromChunkIndex at h
  split at h
  · cases h
  obtain ⟨dest, hDest, h⟩ := Result.bind_eq_ok.mp h
  split at h
  · cases h
  rename_i hLength
  obtain ⟨catarr, hLoop, h⟩ := Result.bind_eq_ok.mp h
  cases h
  rw [hPlain.take_storage] at hDest
  obtain ⟨items, hItems⟩ := CatArray.exists_of_foldlM_chunk hLoop
  rw [CatArray.foldlM_withItems hItems, Except.ok.injEq] at hLoop
  subst hLoop
  exact ⟨dest, items, derefContainer_ok hDest, not_not.mp hLength, hItems, rfl⟩

theorem fromChunkIndex_gathers (hE : E.Lawful) (hPlain : Plain src) {c : Container}
    (h : iarrayFromChunkIndex E src shape chunkIndexes = .ok c) :
    Gathers src shape chunkIndexes c := by
  obtain ⟨dest, items, hEmpty, hLength, hItems, rfl⟩ := fromChunkIndex_ok hPlain h
  have hDest := iarrayEmpty_plain hE hEmpty
  have hFresh := hDest.plain.fresh
  refine ⟨⟨hDest.plain.setArray (hFresh.withItems _ _), hDest.dtshape, hDest.storage⟩, hLength,
    fun i hi => ?_⟩
  obtain ⟨q, hq, hIndex, hChunk⟩ := getChunkAt_ok.mp (hItems i hi)
  have hListed : i < chunkIndexes.length := hi.trans_eq hLength.symm
  rw [List.getD_eq_getElem _ _ hListed] at hIndex
  refine ⟨q, hq, by rw [List.getElem?_eq_getElem hListed, hIndex], fun x hx => ⟨?_, fun hxs =>
    CatArray.cell_chunkItem hPlain.fresh.sized hPlain.fresh.postfilter hq hxs⟩⟩
  have hMoved := hFresh.withItems dest.catarr.nchunks items
  have hSame : (dest.catarr.withItems dest.catarr.nchunks items).chunkItem i x =
      src.catarr.chunkItem q x := by
    have hChunkshape : (dest.catarr.withItems dest.catarr.nchunks items).chunkshape =
        src.catarr.chunkshape :=
      ints_injective (hMoved.chunkshape.trans (hDest.storage ▸ hPlain.fresh.chunkshape.symm))
    have hBlockshape : (dest.catarr.withItems dest.catarr.nchunks items).blockshape =
        src.catarr.blockshape :=
      ints_injective (hMoved.blockshape.trans (hDest.storage ▸ hPlain.fresh.blockshape.symm))
    rw [CatArray.chunkItem, CatArray.chunkItem, hChunkshape, hBlockshape, ← hChunk]
    generalize chunkPlace src.catarr.chunkshape src.catarr.blockshape x = p
    show (if i < dest.catarr.nchunks then items i p else _) = items i p
    exact if_pos hi
  rw [← hSame]
  exact CatArray.cell_chunkItem hMoved.sized hMoved.postfilter hi hx

/-! ## Every chunk in its own place -/

/-- The numbers of the chunks of an array, in order. -/
def CatArray.chunkNumbers (a : CatArray) : List Int :=
  (List.range a.nchunks).map Int.ofNat

theorem CatArray.getD_chunkNumbers (a : CatArray) {i : Nat} (hi : i < a.nchunks) :
    a.chunkNumbers.getD i 0 = (i : Int) := by
  rw [chunkNumbers, List.getD_eq_getElem _ _ (by simpa using hi), List.getElem_map,
    List.getElem_range]
  rfl

theorem Plain.take_shape (src : Container) :
    (⟨src.dtshape.dtype, src.dtshape.shape.take src.dtshape.ndim⟩ : Dtshape) = src.dtshape := by
  rw [Dtshape.ndim, List.take_length]

/-- The whole list gives an array of the elements of the source. -/
theorem fromChunkIndex_whole (hE : E.Lawful) (hPlain : Plain src) {c : Container}
    (h : iarrayFromChunkIndex E src src.dtshape.shape src.catarr.chunkNumbers = .ok c) :
    PlainOf src.dtshape src.storage c ∧
      ∀ x, InBox x src.dtshape.shape → c.catarr.cell x = src.catarr.cell x := by
  obtain ⟨dest, items, hEmpty, hLength, hItems, rfl⟩ := fromChunkIndex_ok hPlain h
  rw [Plain.take_shape] at hEmpty
  have hDest := iarrayEmpty_plain hE hEmpty
  have hFresh : Fresh dest.catarr src.dtshape.dtypeSize src.dtshape.shape
      (iarrayCreateCatervaStorage src.storage) := by
    have hFresh := hDest.plain.fresh
    rwa [hDest.dtshape, hDest.storage] at hFresh
  have hCount : dest.catarr.nchunks = src.catarr.nchunks := by
    rw [← hLength, CatArray.chunkNumbers, List.length_map, List.length_range]
  refine ⟨⟨hDest.plain.setArray (hDest.plain.fresh.withItems _ _), hDest.dtshape, hDest.storage⟩,
    fun x hx => ?_⟩
  have hSame : dest.catarr.withItems dest.catarr.nchunks items =
      dest.catarr.withItems src.catarr.nchunks src.catarr.sc.chunk := by
    rw [hCount]
    refine CatArray.withItems_congr _ fun i hi => ?_
    have hGet := hItems i (hi.trans_eq hCount.symm)
    rw [CatArray.getD_chunkNumbers _ hi] at hGet
    obtain ⟨q, -, hIndex, hChunk⟩ := getChunkAt_ok.mp hGet
    obtain rfl : i = q := Int.ofNat_inj.mp hIndex
    exact hChunk
  show CatArray.cell (dest.catarr.withItems dest.catarr.nchunks items) x = _
  rw [hSame]
  exact cell_withItems hPlain.fresh hFresh hx

/-- No chunk of the source is missed. -/
theorem fromChunkIndex_returns (hE : E.Lawful) (hPlain : Plain src) (hMade : Made E src) :
    ∃ c, iarrayFromChunkIndex E src src.dtshape.shape src.catarr.chunkNumbers = .ok c := by
  obtain ⟨d, hd⟩ := hMade
  rw [hPlain.fresh.shape] at hd
  have hCount : d.nchunks = src.catarr.nchunks :=
    congrArg List.prod (congrArg _ ((hE.empty hd).axes_eq hPlain.fresh))
  have hLength : src.catarr.chunkNumbers.length = d.nchunks := by
    rw [hCount, CatArray.chunkNumbers, List.length_map, List.length_range]
  have hLoop : (List.range d.nchunks).foldlM (fun a i => do
      let chunk ← src.catarr.getChunkAt (src.catarr.chunkNumbers.getD i 0)
      pure (a.updateChunk i chunk)) d = .ok (d.withItems d.nchunks src.catarr.sc.chunk) := by
    refine CatArray.foldlM_withItems fun i hi => ?_
    have hSource := hi.trans_eq hCount
    rw [CatArray.getD_chunkNumbers _ hSource]
    exact getChunkAt_ok.mpr ⟨i, hSource, rfl, rfl⟩
  have hNdim : ¬ src.dtshape.shape.length < src.dtshape.ndim := Nat.lt_irrefl _
  refine ⟨{ newContainer src.dtshape src.storage d with
    catarr := d.withItems d.nchunks src.catarr.sc.chunk }, ?_⟩
  rw [iarrayFromChunkIndex, if_neg hNdim, Plain.take_shape, hPlain.take_storage,
    hPlain.iarrayEmpty_eq hd]
  change (if src.catarr.chunkNumbers.length ≠ d.nchunks then inaError .invalidChunkshape
    else (List.foldlM _ d (List.range d.nchunks) >>= _)) = _
  rw [if_neg (not_not.mpr hLength), hLoop]
  rfl

/-- `iarray_from_chunk_index` puts into chunk `i` what the chunk with the `i`-th number holds, and
the numbers of all chunks in order give the source again. -/
theorem fromChunkIndex_gathered (hE : E.Lawful) (hPlain : Plain src) :
    (∀ shape chunkIndexes c, iarrayFromChunkIndex E src shape chunkIndexes = .ok c →
      Gathers src shape chunkIndexes c) ∧
    (∀ c, iarrayFromChunkIndex E src src.dtshape.shape src.catarr.chunkNumbers = .ok c →
      PlainOf src.dtshape src.storage c ∧
        ∀ x, InBox x src.dtshape.shape → c.catarr.cell x = src.catarr.cell x) ∧
    (Made E src →
      ∃ c, iarrayFromChunkIndex E src src.dtshape.shape src.catarr.chunkNumbers = .ok c) :=
  ⟨fun _ _ _ h => fromChunkIndex_gathers hE hPlain h,
    fun _ h => fromChunkIndex_whole hE hPlain h, fromChunkIndex_returns hE hPlain⟩

end Gather

/-- The last chunk of `splitMatrix`, which is cut off on both axes, lies inside the result. -/
theorem fromChunkIndex_gathered_matrix :
    ∃ c, iarrayFromChunkIndex Reference.backend splitMatrix [4, 6] [3, 0, 1, 2] = .ok c ∧
      Gathers splitMatrix [4, 6] [3, 0, 1, 2] c :=
  have hPlain : Plain splitMatrix := Reference.plain_plain _ _ (by decide) (by decide)
  have hGathered := fromChunkIndex_gathered Reference.lawful hPlain
  ⟨_, rfl, hGathered.1 _ _ _ rfl⟩

end IronArray
