import IronArray.Grid.Walk
import IronArray.Iterators.Element
import IronArray.Iterators.Read

/-!
# Reading an array element by element

`forElements` runs the element read iterator over a container, with a program that looks at every
element through the pointer of the iterator. Whatever the container is, the program meets the
elements of the array that it shows (`Known`), each of them once: `forElements_eq`.
-/

namespace IronArray

open Grid

/-! ## The loop -/

/-- Load what the pointer of the iterator points to as an element of type `d`. The buffer is as long
as a block. -/
def IterRead.load (m : Machine) (itr : IterRead) (d : Dtype) : Result Cell :=
  match itr.pointer with
  | none => crash .nullPointer
  | some p =>
    if p * itr.cont.catarr.itemsize + d.size ≤ itr.blockShape.prod * itr.cont.catarr.itemsize then
      .ok (loadAt m itr.cont.dtshape.dtype itr.chunk (p * itr.cont.catarr.itemsize) d)
    else crash .outOfBounds

/-- The loop `while (has_next(iter))` of a user, with what is done after `next`. -/
def forElementsLoop (E : Backend) {σ : Type} (body : IterRead → σ → Result σ) :
    Nat → IterRead → σ → Result σ
  | rounds, itr, s =>
    if itr.hasNext then
      match rounds with
      | 0 => pure s
      | rounds + 1 => do
        let itr ← itr.next E
        let s ← body itr s
        forElementsLoop E body rounds itr s
    else pure s

/-- A program over all elements of a container. Their number bounds the number of rounds. -/
def forElements (E : Backend) {σ : Type} (c : Container) (body : IterRead → σ → Result σ) (s : σ) :
    Result σ :=
  forElementsLoop E body c.dtshape.shape.prod (iarrayIterReadNew E c) s

/-! ## The order of the elements -/

/-- The number of elements of tile `k`. -/
def tileLen (ns ds : List Nat) (k : Nat) : Nat := (tileShape ns ds (unflat (tileCounts ns ds) k)).prod

/-- Element `j` of tile `k`. -/
def tilePos (ns ds : List Nat) (k j : Nat) : List Nat :=
  addIdx (tileStart ds (unflat (tileCounts ns ds) k))
    (unflat (tileShape ns ds (unflat (tileCounts ns ds) k)) j)

/-- All elements, tile by tile. -/
def tileOrder (ns ds : List Nat) : List (List Nat) :=
  walk (tileLen ns ds) (tilePos ns ds) (tileCounts ns ds).prod

section Order

variable {ns ds : List Nat} {k j : Nat}

theorem tileOrder_perm (hPos : ∀ d ∈ ds, 0 < d) (hLen : ns.length = ds.length) :
    (tileOrder ns ds).Perm (box ns) := by
  have hTiles : (((List.range (tileCounts ns ds).prod).map (unflat (tileCounts ns ds))).flatMap
      (tile ns ds)).Perm (box ns) :=
    ((box_perm_unflat _).flatMap_right _).trans (tiles_perm hPos hLen)
  refine List.Perm.trans ?_ hTiles
  rw [List.flatMap_map, tileOrder, walk]
  refine List.Perm.flatMap_left _ fun k _ => ?_
  have hMap : (List.range (tileLen ns ds k)).map (tilePos ns ds k) =
      ((List.range (tileShape ns ds (unflat (tileCounts ns ds) k)).prod).map
        (unflat (tileShape ns ds (unflat (tileCounts ns ds) k)))).map
        (addIdx (tileStart ds (unflat (tileCounts ns ds) k))) := by
    rw [List.map_map]
    rfl
  rw [hMap]
  exact (box_perm_unflat _).map _

theorem offset_tiles (hPos : ∀ d ∈ ds, 0 < d) (hLen : ns.length = ds.length) :
    offset (tileLen ns ds) (tileCounts ns ds).prod = ns.prod := by
  rw [← length_walk (tileLen ns ds) (tilePos ns ds), ← length_box ns]
  exact (tileOrder_perm hPos hLen).length_eq

theorem tileLen_pos (hPos : ∀ d ∈ ds, 0 < d) (hk : k < (tileCounts ns ds).prod) :
    0 < tileLen ns ds k :=
  prod_pos_of_forall (tileShape_pos hPos (inBox_unflat hk))

end Order

/-! ## One element -/

/-- The iterator shows element `x`. -/
structure IterRead.At (m : Machine) (d : Dtype) (A : NdArray Cell) (x : List Nat)
    (itr : IterRead) : Prop where
  index : itr.elemIndex = x
  flat : itr.elemFlatIndex = Grid.flat A.shape x
  load : itr.load m d = .ok (A.get x)

/-- What no call changes. -/
structure ElementsOf (c : Container) (A : NdArray Cell) (bs : List Nat) (itr : IterRead) :
    Prop where
  cont : itr.cont = c
  blockShape : itr.blockShape = bs
  contSize : itr.contSize = A.shape.prod

/-- The iterator is at element `j` of tile `k`, with the tile in its buffer. -/
structure ElementAt (c : Container) (A : NdArray Cell) (bs : List Nat) (k j : Nat)
    (itr : IterRead) : Prop extends ElementsOf c A bs itr where
  piece : k < (tileCounts A.shape bs).prod
  place : j < tileLen A.shape bs k
  nblock : itr.nblock = k + 1
  nelemBlock : itr.nelemBlock = j
  index : itr.curBlockIndex = unflat (tileCounts A.shape bs) k
  shape : itr.curBlockShape = tileShape A.shape bs (unflat (tileCounts A.shape bs) k)
  size : itr.curBlockSize = tileLen A.shape bs k
  holds : ∀ y, InBox y (tileShape A.shape bs (unflat (tileCounts A.shape bs) k)) →
    itr.chunk (Grid.flat (tileShape A.shape bs (unflat (tileCounts A.shape bs) k)) y) =
      A.get (addIdx (tileStart bs (unflat (tileCounts A.shape bs) k)) y)

section Read

variable {E : Backend} {c : Container} {A : NdArray Cell} {bs : List Nat} {itr : IterRead}
  {k j : Nat}

/-- What `next` passes on to read tile `k`. -/
theorem nextBlock_eq (hKnown : Known c A) (hLen : A.shape.length = bs.length)
    (hPos : ∀ d ∈ bs, 0 < d) (h : ElementsOf c A bs itr) (hNblock : itr.nblock = k)
    (hk : k < (tileCounts A.shape bs).prod) :
    itr.nextBlock E = _iarrayGetSliceBuffer E c
        (ints (tileStart bs (unflat (tileCounts A.shape bs) k)))
        (ints (addIdx (tileStart bs (unflat (tileCounts A.shape bs) k))
          (tileShape A.shape bs (unflat (tileCounts A.shape bs) k))))
        (ints (tileShape A.shape bs (unflat (tileCounts A.shape bs) k))) itr.chunk
        (bs.prod * c.catarr.itemsize : Nat) >>= fun chunk => .ok
          { itr with
            curBlockIndex := unflat (tileCounts A.shape bs) k
            curBlockShape := tileShape A.shape bs (unflat (tileCounts A.shape bs) k)
            curBlockSize := tileLen A.shape bs k
            chunk := chunk
            nelemBlock := 0
            nblock := k + 1 } := by
  have ht := inBox_unflat hk
  have hRegion := region_tile hPos hLen ht
  have hZero : 0 ∉ tileCounts A.shape bs := fun hMem => by
    rw [List.prod_eq_zero hMem] at hk
    omega
  have hStart : List.zipWith (· * ·) (unflat (tileCounts A.shape bs) k) bs =
      tileStart bs (unflat (tileCounts A.shape bs) k) := rfl
  have hStop := stop_eq hPos hLen ht
  have hCut : List.zipWith (· - ·) (addIdx (tileStart bs (unflat (tileCounts A.shape bs) k))
      (tileShape A.shape bs (unflat (tileCounts A.shape bs) k)))
      (tileStart bs (unflat (tileCounts A.shape bs) k)) =
      tileShape A.shape bs (unflat (tileCounts A.shape bs) k) :=
    within_addIdx (hRegion.start_length.trans hRegion.length.symm)
  have hRead := iarrayGetSliceBuffer_eq (E := E) itr.chunk (bs.prod * c.catarr.itemsize : Nat)
    hKnown.shape (selects_ints hRegion) (tileShape_pos hPos ht)
  rw [IterRead.nextBlock, h.cont, h.blockShape, hKnown.shape, iterBlocks_mapM hPos hLen,
    Result.ok_bind, if_neg hZero, hNblock, iterBlockIndex_eq hk]
  simp only [hStart, hStop, hCut, hRead]
  rfl

/-- The next tile is read into the buffer. -/
theorem nextBlock_ok (hE : E.Lawful) (hKnown : Known c A) (hLen : A.shape.length = bs.length)
    (hPos : ∀ d ∈ bs, 0 < d) (hReadable : c.Readable bs) (h : ElementsOf c A bs itr)
    (hNblock : itr.nblock = k) (hk : k < (tileCounts A.shape bs).prod) :
    ∃ itr', itr.nextBlock E = .ok itr' ∧ ElementAt c A bs k 0 itr' ∧ itr'.nelem = itr.nelem := by
  have ht := inBox_unflat hk
  obtain ⟨hShape, hFits⟩ := bufferShape_fits false hLen ht
  obtain ⟨chunk, hRead, hHolds⟩ := hKnown.readInto itr.chunk hE
    (fun hTransposed => ⟨(hReadable hTransposed).1, lt_of_forall₂ hFits (hReadable hTransposed).2⟩)
    (selects_ints (region_tile hPos hLen ht)) (tileShape_pos hPos ht) hShape
    (@bufferShape_buflen _ _ _ false _ hKnown hLen ht)
  refine ⟨_, (nextBlock_eq hKnown hLen hPos h hNblock hk).trans (congrArg (· >>= _) hRead), ?_, rfl⟩
  exact
    { cont := h.cont, blockShape := h.blockShape, contSize := h.contSize, piece := hk
      place := tileLen_pos hPos hk, nblock := rfl, nelemBlock := rfl, index := rfl, shape := rfl
      size := rfl, holds := hHolds }

/-- The iterator moves on to the next element of the order. -/
theorem ElementAt.advance_ok (hE : E.Lawful) (hKnown : Known c A)
    (hLen : A.shape.length = bs.length) (hPos : ∀ d ∈ bs, 0 < d) (hReadable : c.Readable bs)
    (h : ElementAt c A bs k j itr) (hNelem : itr.nelem = offset (tileLen A.shape bs) k + j + 1)
    (hMore : itr.nelem < A.shape.prod) :
    ∃ k' j' itr', itr.advance E = .ok itr' ∧ ElementAt c A bs k' j' itr' ∧
      itr'.nelem = itr.nelem ∧ itr.nelem = offset (tileLen A.shape bs) k' + j' := by
  rw [← offset_tiles hPos hLen, hNelem] at hMore
  obtain ⟨hPiece, hItem, hOffset⟩ := offset_nextPlace h.place (fun i hi => tileLen_pos hPos hi)
    h.piece hMore
  have hStarted : itr.nelem ≠ 0 := by omega
  rw [IterRead.advance, h.nelemBlock, h.size]
  by_cases hLast : j + 1 = tileLen A.shape bs k
  · rw [nextPlace, if_pos hLast] at hPiece hItem hOffset
    obtain ⟨itr', hNext, hAt, hSame⟩ :=
      nextBlock_ok hE hKnown hLen hPos hReadable h.toElementsOf h.nblock hPiece
    rw [if_pos (.inl hLast)]
    exact ⟨k + 1, 0, itr', hNext, hAt, hSame, hNelem.trans hOffset.symm⟩
  · rw [nextPlace, if_neg hLast] at hPiece hItem hOffset
    rw [if_neg (not_or.mpr ⟨hLast, hStarted⟩)]
    refine ⟨k, j + 1, _, rfl, ?_, rfl, hNelem.trans hOffset.symm⟩
    exact
      { cont := h.cont, blockShape := h.blockShape, contSize := h.contSize, piece := h.piece
        place := hItem, nblock := h.nblock, nelemBlock := rfl, index := h.index
        shape := h.shape, size := rfl, holds := h.holds }

/-- The pointer at the item of the tile leads to the element. -/
theorem ElementAt.load_eq (m : Machine) (hKnown : Known c A) (hLen : A.shape.length = bs.length)
    (h : ElementAt c A bs k j itr) (hPointer : itr.pointer = some j) :
    itr.load m c.dtshape.dtype = .ok (A.get (tilePos A.shape bs k j)) := by
  have ht := inBox_unflat h.piece
  have hPlace : j < (tileShape A.shape bs (unflat (tileCounts A.shape bs) k)).prod := h.place
  have hItemsize : c.catarr.itemsize = c.dtshape.dtype.size := hKnown.itemsize
  have hInside : j + 1 ≤ bs.prod := hPlace.trans_le (prod_le_of_forall₂ (tileShape_le hLen ht))
  have hFits : j * c.dtshape.dtype.size + c.dtshape.dtype.size ≤ bs.prod * c.dtshape.dtype.size := by
    rw [← Nat.succ_mul]
    exact Nat.mul_le_mul_right _ hInside
  have hItem : itr.chunk j = A.get (tilePos A.shape bs k j) := by
    have hHolds := h.holds _ (inBox_unflat hPlace)
    rw [flat_unflat hPlace] at hHolds
    exact hHolds
  simp only [IterRead.load, hPointer]
  rw [h.cont, h.blockShape, hItemsize, if_pos hFits, loadAt_aligned, hItem]

/-- The element that the iterator shows, with its value behind the pointer. -/
theorem ElementAt.next_ok (hKnown : Known c A) (hLen : A.shape.length = bs.length)
    (hPos : ∀ d ∈ bs, 0 < d) {itr' : IterRead} (h : ElementAt c A bs k j itr')
    (hAdvance : itr.advance E = .ok itr') :
    ∃ itr₁, itr.next E = .ok itr₁ ∧ ElementAt c A bs k j itr₁ ∧ itr₁.nelem = itr'.nelem + 1 ∧
      itr₁.At E.machine c.dtshape.dtype A (tilePos A.shape bs k j) := by
  have ht := inBox_unflat h.piece
  have hPlace : j < (tileShape A.shape bs (unflat (tileCounts A.shape bs) k)).prod := h.place
  have hZero : 0 ∉ itr'.curBlockShape := by
    rw [h.shape]
    exact fun hMem => absurd (tileShape_pos hPos ht 0 hMem) (lt_irrefl 0)
  have hElem : List.zipWith (· + ·) (iterBlockIndex itr'.curBlockShape j)
      (List.zipWith (· * ·) itr'.curBlockIndex itr'.blockShape) = tilePos A.shape bs k j := by
    rw [h.shape, iterBlockIndex_eq hPlace, h.index, h.blockShape,
      List.zipWith_comm_of_comm Nat.add_comm]
    rfl
  have hFlat : itr'.cont.dtshape.shape = A.shape := by rw [h.cont, hKnown.shape]
  rw [IterRead.next, hAdvance, Result.ok_bind, if_neg hZero]
  have hAt : ElementAt c A bs k j { itr' with
      nelemBlock := j
      elemIndex := tilePos A.shape bs k j
      elemFlatIndex := flat A.shape (tilePos A.shape bs k j)
      pointer := some j
      nelem := itr'.nelem + 1 } :=
    { cont := h.cont, blockShape := h.blockShape, contSize := h.contSize, piece := h.piece
      place := h.place, nblock := h.nblock, nelemBlock := rfl, index := h.index
      shape := h.shape, size := h.size, holds := h.holds }
  simp only [h.nelemBlock, hElem, hFlat]
  exact ⟨_, rfl, hAt, rfl, rfl, rfl, hAt.load_eq _ hKnown hLen rfl⟩

/-- One round of the loop takes the head of what is left of the order. -/
theorem ElementAt.round_eq {σ : Type} {body : IterRead → σ → Result σ}
    {visit : σ → List Nat → Result σ} (hLen : A.shape.length = bs.length) (hPos : ∀ d ∈ bs, 0 < d)
    (hBody : ∀ itr x s, InBox x A.shape → itr.At E.machine c.dtshape.dtype A x →
      body itr s = visit s x) {itr' : IterRead} (h : ElementAt c A bs k j itr')
    (hAt : itr'.At E.machine c.dtshape.dtype A (tilePos A.shape bs k j))
    (hSize : itr.contSize = A.shape.prod) (hMore : itr.nelem < A.shape.prod)
    (hNext : itr.next E = .ok itr') (hPlace : itr.nelem = offset (tileLen A.shape bs) k + j)
    {rounds : Nat} {s : σ} (hRest : ∀ s, forElementsLoop E body rounds itr' s =
      ((tileOrder A.shape bs).drop (itr.nelem + 1)).foldlM visit s) :
    forElementsLoop E body (rounds + 1) itr s =
      ((tileOrder A.shape bs).drop itr.nelem).foldlM visit s := by
  have hHasNext : itr.hasNext = true := by
    rw [IterRead.hasNext, hSize]
    exact decide_eq_true hMore
  have hElement : (tileOrder A.shape bs)[itr.nelem]? = some (tilePos A.shape bs k j) := by
    rw [hPlace]
    exact walk_getElem? h.piece h.place
  have hIn : InBox (tilePos A.shape bs k j) A.shape :=
    mem_box.mp ((tileOrder_perm hPos hLen).subset (List.mem_of_getElem? hElement))
  obtain ⟨hLt, hGet⟩ := List.getElem?_eq_some_iff.mp hElement
  rw [forElementsLoop, if_pos hHasNext, hNext, Result.ok_bind, hBody _ _ _ hIn hAt,
    List.drop_eq_getElem_cons hLt, List.foldlM_cons, hGet]
  exact bind_congr hRest

/-- The program over the elements from the current one on. -/
theorem ElementAt.loop_eq {σ : Type} {body : IterRead → σ → Result σ}
    {visit : σ → List Nat → Result σ} (hE : E.Lawful) (hKnown : Known c A)
    (hLen : A.shape.length = bs.length) (hPos : ∀ d ∈ bs, 0 < d) (hReadable : c.Readable bs)
    (hBody : ∀ itr x s, InBox x A.shape → itr.At E.machine c.dtshape.dtype A x →
      body itr s = visit s x) {rounds : Nat} {s : σ} (h : ElementAt c A bs k j itr)
    (hNelem : itr.nelem = offset (tileLen A.shape bs) k + j + 1)
    (hRounds : itr.nelem + rounds = A.shape.prod) :
    forElementsLoop E body rounds itr s = ((tileOrder A.shape bs).drop itr.nelem).foldlM visit s := by
  induction rounds generalizing itr s k j with
  | zero =>
    have hEnd : itr.nelem = A.shape.prod := hRounds
    have hDone : itr.hasNext = false := by
      rw [IterRead.hasNext, h.contSize, hEnd]
      exact decide_eq_false (lt_irrefl _)
    have hCount : (tileOrder A.shape bs).length = A.shape.prod := by
      rw [(tileOrder_perm hPos hLen).length_eq, length_box]
    rw [forElementsLoop, hDone, if_neg Bool.false_ne_true, hEnd, List.drop_of_length_le hCount.le]
    rfl
  | succ rounds ih =>
    have hMore : itr.nelem < A.shape.prod := by omega
    obtain ⟨k', j', itr₁, hAdvance, h₁, hSame, hPlace⟩ :=
      h.advance_ok hE hKnown hLen hPos hReadable hNelem hMore
    obtain ⟨itr₂, hNext, h₂, hCount, hAt⟩ := h₁.next_ok hKnown hLen hPos hAdvance
    have hStep : itr₂.nelem = itr.nelem + 1 := by rw [hCount, hSame]
    refine h₂.round_eq hLen hPos hBody hAt h.contSize hMore hNext hPlace fun s => ?_
    rw [← hStep]
    exact ih h₂ (by omega) (by omega)

/-! ## The whole loop -/

/-- The shape of the blocks that the iterator reads. -/
theorem blockShape_ok (hKnown : Known c A) (hPos : ∀ n ∈ A.shape, 0 < n) :
    A.shape.length = (iarrayIterReadNew E c).blockShape.length ∧
      (∀ d ∈ (iarrayIterReadNew E c).blockShape, 0 < d) ∧
      ∀ d ∈ (iarrayIterReadNew E c).blockShape, d ∈ c.storage.chunkshape := by
  have hChunks := hKnown.chunks_pos hPos
  have hNdim : c.dtshape.ndim = A.shape.length := by rw [Dtshape.ndim, hKnown.shape]
  have hLength : c.storage.chunkshape.length = c.catarr.ndim := by
    rw [length_stored hKnown.chunkshape, CatArray.chunkshape, chunkshapeOf, List.length_map,
      CatArray.ndim]
  have hTake : (c.storage.chunkshape.take c.dtshape.ndim).length = A.shape.length := by
    rw [List.length_take, hNdim, hLength, Nat.min_eq_left hKnown.ndim_le]
  cases hTransposed : c.transposed with
  | false =>
    have hBlock : (iarrayIterReadNew E c).blockShape =
        c.storage.chunkshape.take c.dtshape.ndim := by
      rw [iarrayIterReadNew, hTransposed]
      rfl
    rw [hBlock]
    exact ⟨hTake.symm, fun d hd => hChunks d (List.mem_of_mem_take hd),
      fun d hd => List.mem_of_mem_take hd⟩
  | true =>
    have hBlock : (iarrayIterReadNew E c).blockShape =
        (c.storage.chunkshape.take c.dtshape.ndim).reverse := by
      rw [iarrayIterReadNew, hTransposed]
      rfl
    rw [hBlock, List.length_reverse]
    exact ⟨hTake.symm, fun d hd => hChunks d (List.mem_of_mem_take (List.mem_reverse.mp hd)),
      fun d hd => List.mem_of_mem_take (List.mem_reverse.mp hd)⟩

theorem iarrayIterReadNew_elements (hKnown : Known c A) :
    ElementsOf c A (iarrayIterReadNew E c).blockShape (iarrayIterReadNew E c) :=
  ⟨rfl, rfl, congrArg List.prod hKnown.shape⟩

/-- A program over the elements of a container meets the elements of the array that the container
shows tile by tile. -/
theorem forElements_tiles {σ : Type} {body : IterRead → σ → Result σ}
    (visit : σ → List Nat → Result σ) (hE : E.Lawful) (hKnown : Known c A)
    (hReadable : c.Readable c.storage.chunkshape) (hSome : 0 < A.shape.prod)
    (hBody : ∀ itr x s, InBox x A.shape → itr.At E.machine c.dtshape.dtype A x →
      body itr s = visit s x) (s : σ) :
    forElements E c body s =
      (tileOrder A.shape (iarrayIterReadNew E c).blockShape).foldlM visit s := by
  have hShape := pos_of_lt_prod hSome
  obtain ⟨hLen, hPos, hChunk⟩ := blockShape_ok (E := E) hKnown hShape
  have hBlocks : c.Readable (iarrayIterReadNew E c).blockShape := fun hTransposed =>
    ⟨(hReadable hTransposed).1, fun d hd => (hReadable hTransposed).2 d (hChunk d hd)⟩
  have hFirst := prod_tileCounts_pos hPos hLen hShape
  obtain ⟨itr₁, hBlock, h₁, hSame⟩ := nextBlock_ok hE hKnown hLen hPos hBlocks
    (iarrayIterReadNew_elements hKnown) rfl hFirst
  have hAdvance : (iarrayIterReadNew E c).advance E = .ok itr₁ := by
    rw [IterRead.advance, if_pos (.inr rfl), hBlock]
  obtain ⟨itr₂, hNext, h₂, hCount, hAt⟩ := h₁.next_ok hKnown hLen hPos hAdvance
  have hStep : itr₂.nelem = 1 := by rw [hCount, hSame]; rfl
  obtain ⟨rounds, hRounds⟩ := Nat.exists_eq_add_one_of_ne_zero hSome.ne'
  rw [forElements, hKnown.shape, hRounds]
  refine h₂.round_eq hLen hPos hBody hAt (iarrayIterReadNew_elements hKnown).contSize hSome hNext
    rfl fun s => ?_
  rw [show (iarrayIterReadNew E c).nelem + 1 = itr₂.nelem from hStep.symm]
  exact h₂.loop_eq hE hKnown hLen hPos hBlocks hBody hStep (by omega)

/-- A program over the elements of a container meets all elements of the array that the container
shows, every one once. -/
theorem forElements_eq (hE : E.Lawful) (hKnown : Known c A)
    (hReadable : c.Readable c.storage.chunkshape) :
    ∃ order : List (List Nat), order.Perm (box A.shape) ∧
      ∀ {σ : Type} {body : IterRead → σ → Result σ} {visit : σ → List Nat → Result σ},
        (∀ itr x s, InBox x A.shape → itr.At E.machine c.dtshape.dtype A x →
          body itr s = visit s x) →
        ∀ s, forElements E c body s = order.foldlM visit s := by
  rcases Nat.eq_zero_or_pos A.shape.prod with hNone | hSome
  · have hBox : box A.shape = [] := List.length_eq_zero_iff.mp ((length_box _).trans hNone)
    refine ⟨[], hBox ▸ List.Perm.refl _, fun _ s => ?_⟩
    have hDone : (iarrayIterReadNew E c).hasNext = false := by
      rw [IterRead.hasNext, (iarrayIterReadNew_elements hKnown).contSize, hNone]
      rfl
    rw [forElements, hKnown.shape, hNone, forElementsLoop, hDone]
    rfl
  · obtain ⟨hLen, hPos, -⟩ := blockShape_ok (E := E) hKnown (pos_of_lt_prod hSome)
    exact ⟨_, tileOrder_perm hPos hLen, fun hBody s =>
      forElements_tiles _ hE hKnown hReadable hSome hBody s⟩

/-- A transposed container of other than floating data is refused with its first element. -/
theorem forElements_refused {σ : Type} (hE : E.Lawful) (hKnown : Known c A)
    (hTransposed : c.transposed) (hInteger : ¬ c.dtshape.dtype.isFloating)
    (hSome : A.shape.prod ≠ 0) (body : IterRead → σ → Result σ) (s : σ) :
    forElements E c body s = inaError .invalidDtype := by
  have hShape := pos_of_lt_prod (Nat.pos_of_ne_zero hSome)
  obtain ⟨hLen, hPos, -⟩ := blockShape_ok (E := E) hKnown hShape
  have hFirst := prod_tileCounts_pos hPos hLen hShape
  have ht := inBox_unflat hFirst
  have hNew := iarrayIterReadNew_elements (E := E) hKnown
  have hRefused := hKnown.refused (iarrayIterReadNew E c).chunk hE hTransposed hInteger
    (selects_ints (region_tile hPos hLen ht)) (tileShape_pos hPos ht)
    (bufferShape_fits false hLen ht).1 (@bufferShape_buflen _ _ _ false _ hKnown hLen ht)
  have hBlock : (iarrayIterReadNew E c).nextBlock E = inaError .invalidDtype :=
    (nextBlock_eq hKnown hLen hPos hNew rfl hFirst).trans (congrArg (· >>= _) hRefused)
  have hAdvance : (iarrayIterReadNew E c).advance E = inaError .invalidDtype := by
    rw [IterRead.advance, if_pos (.inr rfl), hBlock]
  have hMore : (iarrayIterReadNew E c).hasNext = true := by
    rw [IterRead.hasNext, hNew.contSize]
    exact decide_eq_true (Nat.pos_of_ne_zero hSome)
  obtain ⟨rounds, hRounds⟩ := Nat.exists_eq_add_one_of_ne_zero hSome
  rw [forElements, hKnown.shape, hRounds, forElementsLoop, if_pos hMore, IterRead.next, hAdvance]
  rfl

end Read

/-! ## All elements -/

/-- A user who collects the elements: the index, the position in the flattened array and the value
of each. -/
def readCells (E : Backend) (c : Container) : Result (List (List Nat × Nat × Cell)) :=
  forElements E c (fun itr log => do
    let value ← itr.load E.machine c.dtshape.dtype
    pure (log ++ [(itr.elemIndex, itr.elemFlatIndex, value)])) []

theorem foldlM_append {α β : Type} (f : α → β) (xs : List α) (log : List β) :
    xs.foldlM (fun log x => (.ok (log ++ [f x]) : Result (List β))) log =
      .ok (log ++ xs.map f) := by
  induction xs generalizing log with
  | nil =>
    rw [List.map_nil, List.append_nil]
    rfl
  | cons x xs ih =>
    rw [List.foldlM_cons, Result.ok_bind, ih, List.map_cons, List.append_assoc]
    rfl

end IronArray
