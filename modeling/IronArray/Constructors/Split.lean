import IronArray.Iterators.Block
import IronArray.Core.Reference

/-!
# Splitting an array into its chunks and joining them again

`iarray_split` makes one array of every chunk and `iarray_concatenate` puts the chunks of a list
of arrays into a new one. `concatenate_split`: for a plain container the second undoes the first
unless the array has an axis of length zero or a tile length that does not fit an `int32_t`. An
empty array has no chunks, and `iarray_concatenate` looks at the first piece before it counts them.
The pieces take their storage from the array, which differs from the one asked for where a length
does not fit.
-/

namespace IronArray

open Grid

/-! ## The calls -/

/-- `blosc2_schunk_get_chunk`: the compressed chunk, represented by its items. -/
def CatArray.getChunk (a : CatArray) (nchunk : Nat) : Result (Nat → Cell) :=
  if nchunk < a.nchunks then .ok (a.sc.chunk nchunk) else inaError .bloscFailed

/-- `dest[i]->catarr` after a call of `iarray_empty` whose code is dropped. -/
def derefContainer (c : Result Container) : Result Container :=
  match c with
  | .error (.code _) => crash .nullPointer
  | c => c

/-- `iarray_split`. -/
def iarraySplit (E : Backend) (src : Container) : Result (List Container) :=
  (List.range src.catarr.nchunks).mapM fun i => do
    let chunk ← src.catarr.getChunk i
    let piece ← derefContainer (iarrayEmpty E ⟨src.dtshape.dtype, src.catarr.chunkshape⟩
      ⟨src.catarr.chunkshape, src.catarr.blockshape⟩)
    pure { piece with catarr := piece.catarr.updateChunk 0 chunk }

/-- `src[i]`. -/
def pieceAt (src : List Container) (i : Nat) : Result Container :=
  match src[i]? with
  | some c => .ok c
  | none => crash .outOfBounds

/-- The chunk of `src[i]`. -/
def pieceChunk (src : List Container) (i : Nat) : Result (Nat → Cell) := do
  let c ← pieceAt src i
  c.catarr.getChunk 0

/-- The checks of one pass of the loop over the axes. Only the first piece is looked at. -/
def checkPiece (src : List Container) (dtshape : Dtshape) (storage : Storage) (i : Nat) :
    Result Unit := do
  let piece ← pieceAt src 0
  if storage.chunkshape.getD i 0 ≠ piece.storage.chunkshape.getD i 0 then
    inaError .invalidChunkshape
  else if storage.blockshape.getD i 0 ≠ piece.storage.blockshape.getD i 0 then
    inaError .invalidBlockshape
  else if dtshape.ndim ≠ piece.dtshape.ndim then inaError .invalidNdim
  else if dtshape.dtype ≠ piece.dtshape.dtype then inaError .invalidDtype
  else pure ()

/-- `iarray_concatenate`. -/
def iarrayConcatenate (E : Backend) (src : List Container) (dtshape : Dtshape)
    (storage : Storage) : Result Container := do
  forM (List.range dtshape.ndim) (checkPiece src dtshape storage)
  let counts ← (List.zip dtshape.shape storage.chunkshape).mapM fun p => iterBlocks p.1 p.2
  let dest ← iarrayEmpty E dtshape storage
  let catarr ← (List.range counts.prod).foldlM (fun a i => do
    let chunk ← pieceChunk src i
    pure (a.updateChunk i chunk)) dest.catarr
  pure { dest with catarr := catarr }

/-! ## Pieces -/

/-- Caterva makes an array of a single chunk of every grid that it makes. -/
def Backend.MakesPieces (E : Backend) : Prop :=
  ∀ {itemsize shape st a}, E.empty itemsize shape st = .ok a → (∀ n ∈ shape, 0 < n) →
    ∃ p, E.empty itemsize a.chunkshape st = .ok p

variable {E : Backend} {a : Container}

/-- `src_len` is the number of chunks of the array. -/
theorem counts_eq {axes : List Axis} (h : ∀ x ∈ axes, 0 < x.chunkshape) :
    (List.zip (shapeOf axes) (chunkshapeOf axes)).mapM (fun p => iterBlocks p.1 p.2) =
      .ok (axes.map Axis.chunks) := by
  rw [← tileCounts_chunks]
  apply iterBlocks_mapM _ (length_chunkshapeOf axes)
  intro d hd
  obtain ⟨x, hx, rfl⟩ := List.mem_map.mp hd
  exact h x hx

/-- The piece of a chunk, around the array that Caterva makes for it. -/
def pieceOf (a : Container) (e : CatArray) (i : Nat) : Container :=
  newContainer ⟨a.dtshape.dtype, a.catarr.chunkshape⟩ ⟨a.catarr.chunkshape, a.catarr.blockshape⟩
    (e.updateChunk 0 (a.catarr.sc.chunk i))

/-- The storage that the pieces take from the array fits. -/
theorem Plain.fits_stored (hPlain : Plain a) :
    Storage.Fits ⟨a.catarr.chunkshape, a.catarr.blockshape⟩ :=
  ⟨hPlain.fresh.chunkshape_lt, hPlain.fresh.blockshape_lt⟩

theorem Plain.stored_eq (hPlain : Plain a) :
    iarrayCreateCatervaStorage ⟨a.catarr.chunkshape, a.catarr.blockshape⟩ =
      iarrayCreateCatervaStorage a.storage := by
  rw [iarrayCreateCatervaStorage_fits hPlain.fits_stored]
  exact hPlain.fresh.storage

theorem split_ok {e : CatArray} (hPlain : Plain a)
    (hPiece : E.empty a.dtshape.dtypeSize a.catarr.chunkshape
      (iarrayCreateCatervaStorage a.storage) = .ok e) :
    iarraySplit E a = .ok ((List.range a.catarr.nchunks).map (pieceOf a e)) := by
  refine Result.mapM_ok _ _ _ fun i hi => ?_
  have hNdim : ¬ dimensionMax < Dtshape.ndim ⟨a.dtshape.dtype, a.catarr.chunkshape⟩ := by
    rw [Dtshape.ndim, hPlain.length_chunkshape]
    exact Nat.not_lt.mpr hPlain.ndim
  rw [CatArray.getChunk, if_pos (List.mem_range.mp hi), Result.ok_bind, iarrayEmpty,
    iarrayContainerNew, if_neg hNdim, Result.ok_bind, hPlain.stored_eq]
  simp only [Dtshape.dtypeSize] at hPiece ⊢
  rw [hPiece]
  rfl

/-- A piece holds its chunk as its only chunk. -/
theorem getChunk_pieceOf (hE : E.Lawful) {e : CatArray} (hPlain : Plain a)
    (hPos : ∀ n ∈ a.dtshape.shape, 0 < n)
    (hPiece : E.empty a.dtshape.dtypeSize a.catarr.chunkshape
      (iarrayCreateCatervaStorage a.storage) = .ok e) (i : Nat) :
    (pieceOf a e i).catarr.getChunk 0 = .ok (a.catarr.sc.chunk i) := by
  have hOne : 0 < (e.updateChunk 0 (a.catarr.sc.chunk i)).nchunks := by
    refine (nchunks_pos fun x hx => ?_).1
    have hMem : x.shape ∈ e.shape := List.mem_map_of_mem hx
    rw [(hE.empty hPiece).shape] at hMem
    obtain ⟨y, hy, hEq⟩ := List.mem_map.mp hMem
    rw [← hEq]
    exact y.chunk_pos (hPlain.axes_pos hPos y hy)
  rw [pieceOf, newContainer, CatArray.getChunk, if_pos hOne]
  simp [CatArray.updateChunk]

theorem checkPiece_ok {src : List Container} {e : CatArray} (hPlain : Plain a)
    (hFits : a.storage.Fits) {i : Nat}
    (hFirst : pieceAt src 0 = .ok (pieceOf a e 0)) :
    checkPiece src a.dtshape a.storage i = .ok () := by
  have hNdim : a.dtshape.ndim = (pieceOf a e 0).dtshape.ndim := hPlain.length_chunkshape.symm
  rw [checkPiece, hFirst, Result.ok_bind, if_neg, if_neg, if_neg (not_not.mpr hNdim), if_neg]
  · rfl
  · exact not_not.mpr rfl
  · rw [pieceOf, newContainer, hPlain.blockshape hFits.blockshape]
    exact not_not.mpr rfl
  · rw [pieceOf, newContainer, hPlain.chunkshape hFits.chunkshape]
    exact not_not.mpr rfl

theorem Plain.storage_lengths (hPlain : Plain a) :
    a.storage.chunkshape.length = a.dtshape.ndim ∧ a.storage.blockshape.length = a.dtshape.ndim := by
  have hChunk := congrArg List.length hPlain.fresh.chunkshape
  have hBlock := congrArg List.length hPlain.fresh.blockshape
  rw [length_ints, iarrayCreateCatervaStorage, List.length_map] at hChunk hBlock
  rw [← hChunk, ← hBlock, hPlain.length_chunkshape, ← hPlain.catarr_ndim, CatArray.blockshape,
    blockshapeOf, List.length_map]
  exact ⟨rfl, rfl⟩

/-- The checks pass only if the storage is the one of the array. -/
theorem fits_of_checkPiece {src : List Container} {e : CatArray} (hPlain : Plain a)
    (hFirst : pieceAt src 0 = .ok (pieceOf a e 0))
    (h : forM (List.range a.dtshape.ndim) (checkPiece src a.dtshape a.storage) = .ok ()) :
    a.storage.Fits := by
  obtain ⟨hChunkLen, hBlockLen⟩ := hPlain.storage_lengths
  have hEach : ∀ i < a.dtshape.ndim,
      a.storage.chunkshape.getD i 0 = a.catarr.chunkshape.getD i 0 ∧
        a.storage.blockshape.getD i 0 = a.catarr.blockshape.getD i 0 := by
    intro i hi
    have hCheck := Result.forM_eq_ok.mp h i (List.mem_range.mpr hi)
    rw [checkPiece, hFirst, Result.ok_bind] at hCheck
    split at hCheck
    · cases hCheck
    rename_i hChunk
    split at hCheck
    · cases hCheck
    rename_i hBlock
    exact ⟨not_not.mp hChunk, not_not.mp hBlock⟩
  have hChunk : a.storage.chunkshape = a.catarr.chunkshape :=
    ext_getD (hChunkLen.trans hPlain.length_chunkshape.symm) fun i hi =>
      (hEach i (by rwa [hPlain.length_chunkshape] at hi)).1
  have hRank : a.catarr.blockshape.length = a.dtshape.ndim := by
    rw [← hPlain.catarr_ndim, CatArray.blockshape, blockshapeOf, List.length_map, CatArray.ndim]
  have hBlock : a.storage.blockshape = a.catarr.blockshape :=
    ext_getD (hBlockLen.trans hRank.symm) fun i hi => (hEach i (by rwa [hRank] at hi)).2
  exact ⟨hChunk ▸ hPlain.fresh.chunkshape_lt, hBlock ▸ hPlain.fresh.blockshape_lt⟩

/-- Arrays of the same tiling that hold the same chunks have the same elements. -/
theorem cell_withItems {b : CatArray} {itemsize : Nat} {shape : List Nat} {st : CatervaStorage}
    {a : CatArray} (ha : Fresh a itemsize shape st) (hb : Fresh b itemsize shape st) {x : List Nat}
    (hx : InBox x shape) : (b.withItems a.nchunks a.sc.chunk).cell x = a.cell x := by
  have hAxes := hb.axes_eq ha
  have hxa : InBox x a.shape := by rwa [ha.shape]
  have hxb : InBox x b.shape := by rwa [hb.shape]
  rw [CatArray.cell_stored ha.sized ha.postfilter hxa,
    CatArray.cell_stored (a := b.withItems a.nchunks a.sc.chunk) hb.sized hb.postfilter hxb,
    Except.ok.injEq]
  have hChunk : (locate a.axes x).nchunk < a.nchunks := nchunk_lt hxa
  simp only [CatArray.withItems, CatArray.blockshape, hAxes]
  exact if_pos hChunk

/-- What Caterva makes, `iarray_empty` returns. -/
theorem Plain.iarrayEmpty_eq {d : CatArray} (hPlain : Plain a)
    (hd : E.empty a.dtshape.dtypeSize a.dtshape.shape (iarrayCreateCatervaStorage a.storage) =
      .ok d) : iarrayEmpty E a.dtshape a.storage = .ok (newContainer a.dtshape a.storage d) := by
  rw [iarrayEmpty, iarrayContainerNew, if_neg (Nat.not_lt.mpr hPlain.ndim), Result.ok_bind, hd]
  rfl

/-! ## The round trip -/

theorem concatenate_split_of_pos (hE : E.Lawful) (hPieces : E.MakesPieces) (hPlain : Plain a)
    (hMade : Made E a) (hPos : ∀ n ∈ a.dtshape.shape, 0 < n) (hFits : a.storage.Fits) :
    ∃ pieces c, iarraySplit E a = .ok pieces ∧
      iarrayConcatenate E pieces a.dtshape a.storage = .ok c ∧ PlainOf a.dtshape a.storage c ∧
      ∀ x, InBox x a.dtshape.shape → c.catarr.cell x = a.catarr.cell x := by
  obtain ⟨d, hd⟩ := hMade
  rw [hPlain.fresh.shape] at hd
  obtain ⟨e, he⟩ := hPieces hd hPos
  rw [CatArray.chunkshape, (hE.empty hd).axes_eq hPlain.fresh] at he
  have hAxes := hPlain.axes_pos hPos
  have hPiece : ∀ i < a.catarr.nchunks,
      pieceAt ((List.range a.catarr.nchunks).map (pieceOf a e)) i = .ok (pieceOf a e i) := by
    intro i hi
    simp [pieceAt, List.getElem?_map, List.getElem?_range hi]
  have hChecks : forM (List.range a.dtshape.ndim) (checkPiece
      ((List.range a.catarr.nchunks).map (pieceOf a e)) a.dtshape a.storage) = .ok () :=
    Result.forM_ok fun i _ => checkPiece_ok hPlain hFits (hPiece 0 (nchunks_pos hAxes).1)
  have hCounts : (List.zip a.dtshape.shape a.storage.chunkshape).mapM
      (fun p => iterBlocks p.1 p.2) = .ok (a.catarr.axes.map Axis.chunks) := by
    rw [← hPlain.fresh.shape, ← hPlain.chunkshape hFits.chunkshape]
    exact counts_eq fun x hx => x.chunk_pos (hAxes x hx)
  have hEmpty := hPlain.iarrayEmpty_eq hd
  have hDest := hE.empty hd
  have hLoop : (List.range (a.catarr.axes.map Axis.chunks).prod).foldlM (fun b i => do
      let chunk ← pieceChunk ((List.range a.catarr.nchunks).map (pieceOf a e)) i
      pure (b.updateChunk i chunk)) d = .ok (d.withItems a.catarr.nchunks a.catarr.sc.chunk) := by
    refine CatArray.foldlM_withItems fun i hi => ?_
    rw [pieceChunk, hPiece i hi, Result.ok_bind]
    exact getChunk_pieceOf hE hPlain hPos he i
  refine ⟨_, { newContainer a.dtshape a.storage d with
    catarr := d.withItems a.catarr.nchunks a.catarr.sc.chunk }, split_ok hPlain he, ?_,
    ⟨plain_newContainer hPlain.ndim (hDest.withItems _ _), rfl, rfl⟩,
    fun x hx => cell_withItems hPlain.fresh hDest hx⟩
  · rw [iarrayConcatenate, hChecks, Result.ok_bind, hCounts, Result.ok_bind, hEmpty,
      Result.ok_bind]
    change (List.foldlM _ d _ >>= _) = _
    rw [hLoop]
    rfl

/-- Without chunks there is no first piece to look at. -/
theorem concatenate_of_no_chunks {dtshape : Dtshape} {storage : Storage} (h : dtshape.ndim ≠ 0) :
    iarrayConcatenate E [] dtshape storage = crash .outOfBounds := by
  obtain ⟨n, hn⟩ := Nat.exists_eq_succ_of_ne_zero h
  rw [iarrayConcatenate, hn, List.range_succ_eq_map, List.forM_cons]
  rfl

/-- `iarray_concatenate` gives back what `iarray_split` cut up exactly when the array has no axis
of length zero and its storage fits. -/
theorem concatenate_split (hE : E.Lawful) (hPieces : E.MakesPieces) (hPlain : Plain a)
    (hMade : Made E a) :
    (∃ pieces c, iarraySplit E a = .ok pieces ∧
      iarrayConcatenate E pieces a.dtshape a.storage = .ok c ∧ PlainOf a.dtshape a.storage c ∧
      ∀ x, InBox x a.dtshape.shape → c.catarr.cell x = a.catarr.cell x) ↔
    (∀ n ∈ a.dtshape.shape, 0 < n) ∧ a.storage.Fits := by
  refine ⟨fun h => ?_, fun h => concatenate_split_of_pos hE hPieces hPlain hMade h.1 h.2⟩
  obtain ⟨pieces, c, hSplit, hConcat, -⟩ := h
  have hPos : ∀ n ∈ a.dtshape.shape, 0 < n := by
    intro n hn
    by_contra hZero
    have hNone : a.catarr.nchunks = 0 := by
      by_contra hSome
      have hPos := CatArray.shape_pos_of_nchunks (Nat.pos_of_ne_zero hSome)
      rw [← hPlain.fresh.shape] at hn
      obtain ⟨x, hx, rfl⟩ := List.mem_map.mp hn
      exact hZero (hPos x hx)
    rw [iarraySplit, hNone] at hSplit
    obtain rfl : [] = pieces := by
      cases hSplit
      rfl
    have hNdim : a.dtshape.ndim ≠ 0 := List.length_pos_of_mem hn |>.ne'
    rw [concatenate_of_no_chunks hNdim] at hConcat
    cases hConcat
  refine ⟨hPos, ?_⟩
  obtain ⟨d, hd⟩ := hMade
  rw [hPlain.fresh.shape] at hd
  obtain ⟨e, he⟩ := hPieces hd hPos
  rw [CatArray.chunkshape, (hE.empty hd).axes_eq hPlain.fresh] at he
  rw [split_ok hPlain he, Except.ok.injEq] at hSplit
  obtain ⟨⟨⟩, hChecks, -⟩ := Result.bind_eq_ok.mp hConcat
  have hSome : 0 < a.catarr.nchunks := (nchunks_pos (hPlain.axes_pos hPos)).1
  have hFirst : pieceAt pieces 0 = .ok (pieceOf a e 0) := by
    rw [← hSplit, pieceAt, List.getElem?_map, List.getElem?_range hSome]
    rfl
  exact fits_of_checkPiece hPlain hFirst hChecks

theorem makesPieces_reference : Reference.backend.MakesPieces := by
  intro itemsize shape st a h hPos
  have hSome : ∀ {ns : List Nat} {cs bs : List Int} {as : List Axis},
      Reference.mkAxes ns cs bs = some as → (∀ n ∈ ns, 0 < n) →
      ∃ bs', Reference.mkAxes (chunkshapeOf as) cs bs = some bs' := by
    intro ns cs bs as h hPos
    fun_induction Reference.mkAxes ns cs bs generalizing as with
    | case1 =>
      cases h
      exact ⟨[], rfl⟩
    | case2 n ns c cs b bs hBoth ih =>
      obtain ⟨rest, hRest, rfl⟩ := Option.map_eq_some_iff.mp h
      obtain ⟨rest', hRest'⟩ := ih hRest fun k hk => hPos k (List.mem_cons_of_mem _ hk)
      have hn := hPos n List.mem_cons_self
      change ∃ bs', Reference.mkAxes (c :: chunkshapeOf rest) _ _ = some bs'
      rw [Reference.mkAxes, dif_pos ⟨id, fun _ => hBoth.2 hn⟩, hRest']
      exact ⟨_, rfl⟩
    | case3 => cases h
    | case4 => cases h
  change Reference.create itemsize shape st (fun _ => .bits 0) = .ok a at h
  unfold Reference.create at h
  split at h
  · rename_i axes hAxes
    obtain ⟨axes', hAxes'⟩ := hSome hAxes hPos
    split at h
    · rename_i hItem
      cases h
      refine ⟨.ofFn axes' itemsize fun _ => .bits 0, ?_⟩
      change Reference.create itemsize (chunkshapeOf axes) st (fun _ => .bits 0) = _
      rw [Reference.create, hAxes']
      exact if_pos hItem
    · cases h
  · cases h

/-- A 3 by 5 matrix in chunks of 2 by 3. -/
def splitMatrix : Container :=
  Reference.plain .int32 [.ofCuts 3 2 2, .ofCuts 5 3 2]
    fun x => .bits (flat [3, 5] x)

theorem concatenate_split_matrix : ∃ pieces c, iarraySplit Reference.backend splitMatrix = .ok pieces ∧
    iarrayConcatenate Reference.backend pieces splitMatrix.dtshape splitMatrix.storage = .ok c ∧
    PlainOf splitMatrix.dtshape splitMatrix.storage c ∧
    ∀ x, InBox x splitMatrix.dtshape.shape → c.catarr.cell x = splitMatrix.catarr.cell x :=
  (concatenate_split Reference.lawful makesPieces_reference
    (Reference.plain_plain _ _ (by decide) (by decide)) (Reference.made_plain _ _ (by decide))).mpr
    ⟨by decide, by decide, by decide⟩

/-- An empty vector in chunks of 4. -/
def emptyVector : Container :=
  Reference.plain .int32 [.ofCuts 0 4 2] fun _ => .bits 0

/-- A vector whose chunk length is beyond `int32_t`, where it is 4. -/
def longVector : Result Container :=
  iarrayEmpty Reference.backend ⟨.int32, [5]⟩ ⟨[2 ^ 32 + 4], [2]⟩

/-- The pieces of an empty vector cannot be joined, nor those of an array whose storage does not
fit. -/
theorem concatenate_split_fails :
    (Plain emptyVector ∧ Made Reference.backend emptyVector ∧
      iarraySplit Reference.backend emptyVector = .ok [] ∧
      iarrayConcatenate Reference.backend [] emptyVector.dtshape emptyVector.storage =
        crash .outOfBounds) ∧
    ∃ a pieces, longVector = .ok a ∧ Plain a ∧ iarraySplit Reference.backend a = .ok pieces ∧
      iarrayConcatenate Reference.backend pieces a.dtshape a.storage =
        inaError .invalidChunkshape :=
  ⟨⟨Reference.plain_plain _ _ (by decide) (by decide), Reference.made_plain _ _ (by decide), rfl, rfl⟩,
    _, _, rfl, (iarrayEmpty_plain Reference.lawful (rfl : longVector = .ok _)).plain, rfl, rfl⟩

end IronArray
