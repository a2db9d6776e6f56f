import IronArray.Core.Limits
import IronArray.Grid.Sums
import IronArray.Iterators.Read
import IronArray.Iterators.Write
import IronArray.Views.Support

/-!
# Copies in another partition

`iarray_copy` reads a view and writes its destination with two iterators that are moved together,
in blocks of the shape of the destination's chunks. `iarrayCopy_keeps`: whatever views lead to the
source, a copy that succeeds holds its elements.
-/

namespace IronArray

open Grid CatArray

/-- Every rectangle that is read of a container holds the elements of `A`. The lengths of what is
read of a transposed container have to fit an `int`. -/
structure Elements (E : Backend) (c : Container) (A : NdArray Cell) : Prop where
  shape : c.dtshape.shape = A.shape
  read : ∀ {start stop : List Int} {s n : List Nat} {buffer out : Nat → Cell} {buflen : Int},
    Selects start stop A.shape s n → (∀ k ∈ n, 0 < k) → (c.transposed → ∀ k ∈ n, k < 2 ^ 31) →
    (n.prod * c.catarr.itemsize : Nat) ≤ buflen →
    iarrayGetSliceBuffer E c start stop buffer buflen = .ok out →
    ∀ x, InBox x n → out (flat n x) = A.get (addIdx s x)

section Elements

variable {E : Backend} {c : Container} {A B : NdArray Cell}

/-- The containers of a run have elements. -/
theorem Known.elements (hE : E.Lawful) (h : Known c A) : Elements E c A := by
  refine ⟨h.shape, ?_⟩
  intro start stop s n buffer out buflen hSel hPos hInt hLen hRead
  rw [iarrayGetSliceBuffer_eq buffer buflen h.shape hSel hPos] at hRead
  rw [h.itemsize] at hLen
  have hFits := forall₂_le_refl n
  by_cases hRefused : c.transposed = true ∧ ¬ c.dtshape.dtype.isFloating
  · rw [h.refused buffer hE hRefused.1 hRefused.2 hSel hPos hFits hLen] at hRead
    cases hRead
  · have hFloat : c.transposed → c.dtshape.dtype.isFloating ∧ ∀ k ∈ n, k < 2 ^ 31 := by
      intro hTransposed
      exact ⟨not_not.mp fun hInteger => hRefused ⟨hTransposed, hInteger⟩, hInt hTransposed⟩
    obtain ⟨out', hOut, hGet⟩ := h.readInto buffer hE hFloat hSel hPos hFits hLen
    rw [hOut, Except.ok.injEq] at hRead
    rwa [← hRead]

/-- What a container that is not transposed reads as are its elements. -/
theorem Elements.same (hA : Elements E c A) (hB : ReadsAs E c B)
    (hTransposed : c.transposed = false) (hItem : c.catarr.itemsize = c.dtshape.dtypeSize) :
    A.Same B := by
  rcases A with ⟨shape, get⟩
  obtain rfl : shape = B.shape := hA.shape.symm.trans hB.shape
  refine ⟨rfl, fun x hx => ?_⟩
  have hSel := selects_ints (Region.whole B.shape)
  have hBuffer : (B.shape.prod * c.catarr.itemsize : Nat) ≤
      ((B.shape.prod * c.dtshape.dtypeSize : Nat) : Int) := by rw [hItem]
  obtain ⟨out, hOut, hGet⟩ := hB.getSliceBuffer E.malloc hSel hx.pos le_rfl
  have hValue := hA.read hSel hx.pos (by simp [hTransposed]) hBuffer hOut x hx
  rw [hGet x hx, addIdx_replicate_zero hx.length_eq] at hValue
  exact hValue.symm

/-- A block that is read holds the elements of its tile. -/
theorem Elements.next {bs : List Nat} {itr itr' : IterReadBlock} {value : IterValue}
    {buffer : Nat → Cell} {bufsize : Nat} (hA : Elements E c A)
    (h : Reading c A bs false false itr) (hLen : A.shape.length = bs.length)
    (hPos : ∀ d ∈ bs, 0 < d) (hInt : c.transposed → ∀ d ∈ bs, d < 2 ^ 31)
    (hk : itr.nblock < (tileCounts A.shape bs).prod)
    (hNext : itr.next E buffer bufsize = .ok (itr', value)) :
    Reading c A bs false false itr' ∧ itr'.nblock = itr.nblock + 1 ∧
      value.At A bs false itr.nblock := by
  have ht := inBox_unflat hk
  have hRegion := region_tile hPos hLen ht
  have hUse : itr.useBuffer E buffer bufsize = .ok itr := by
    rw [IterReadBlock.useBuffer, h.external]
    rfl
  obtain ⟨hStart, hStop, hShape⟩ := h.place hA.shape hLen hPos hk
  rw [IterReadBlock.next_eq, hUse, Result.ok_bind] at hNext
  obtain ⟨block, hRead, hNext⟩ := Result.bind_eq_ok.mp hNext
  cases hNext
  refine ⟨⟨h.cont, h.blockShape, h.aux, h.total, h.padding, h.external⟩, rfl, hStart, hShape, rfl,
    ?_⟩
  rw [IterReadBlock.read, h.padding, hStart, hStop, h.cont, h.blockShape] at hRead
  intro y hy
  simp only [hStart, hShape, bufferShape, Bool.false_eq_true, if_false] at hy ⊢
  have hTile := tileShape_le hLen ht
  apply hA.read (selects_ints hRegion) (tileShape_pos hPos ht) _ _ hRead y hy
  · intro hTransposed
    exact lt_of_forall₂ hTile (hInt hTransposed)
  · exact Nat.cast_le.mpr (Nat.mul_le_mul_right _ (prod_le_of_forall₂ hTile))

end Elements

/-! ## The loop -/

/-- The items of an offered block are the elements at its place. -/
def Offer.Copies (A : NdArray Cell) (o : Offer) : Prop :=
  ∀ y, InBox y o.value.blockShape →
    o.items (flat o.value.blockShape y) = A.get (addIdx o.value.elemIndex y)

/-- In the middle of the copy both iterators are at the same block, and what was read before was
offered to the destination. -/
structure Copying (c dest : Container) (A : NdArray Cell) (itr : IterWriteBlock)
    (r : IterReadBlock) (log : List Offer) : Prop where
  written : Midway dest false itr log
  reading : Reading c A (chunkshapeOf dest.catarr.axes) false false r
  nblock : r.nblock = itr.nblock
  plain : itr.compressedChunkBuffer = false
  copied : ∀ o ∈ log, o.Copies A

section Copy

variable {E : Backend} {c dest : Container} {A : NdArray Cell} {itr itr' : IterWriteBlock}
  {r r' : IterReadBlock} {log : List Offer}

/-- One round copies one block: the tile that is read is the chunk that is written. -/
theorem copyRound_ok (hE : E.Lawful) (hA : Elements E c A) (hPlain : Plain dest)
    (hShape : dest.dtshape.shape = A.shape) (hPos : ∀ x ∈ dest.catarr.axes, 0 < x.shape)
    (hRank : dest.catarr.axes ≠ [])
    (hInt : c.transposed → ∀ d ∈ chunkshapeOf dest.catarr.axes, d < 2 ^ 31)
    (h : Copying c dest A itr r log) (hk : itr.nblock < dest.catarr.nchunks)
    (hRound : copyRound E itr r = .ok (itr', r')) :
    itr'.nblock = itr.nblock + 1 ∧ ∃ log', Copying c dest A itr' r' log' := by
  obtain ⟨⟨r₁, readVal⟩, hRead, hRound⟩ := Result.bind_eq_ok.mp hRound
  obtain ⟨⟨itr₁, value⟩, hWrite, hRound⟩ := Result.bind_eq_ok.mp hRound
  cases hRound
  have hAxes : shapeOf dest.catarr.axes = A.shape := hPlain.fresh.shape.trans hShape
  have hCounts : tileCounts A.shape (chunkshapeOf dest.catarr.axes) =
      dest.catarr.axes.map Axis.chunks := by
    rw [← hAxes]
    exact tileCounts_chunks _
  have hLen : A.shape.length = (chunkshapeOf dest.catarr.axes).length := by
    rw [← hAxes]
    exact length_chunkshapeOf _
  obtain ⟨hReading, hNumber, hTile⟩ := hA.next h.reading hLen (chunkshapeOf_pos hPos) hInt
    (by rw [hCounts, h.nblock]; exact hk) hRead
  obtain ⟨itr₂, value₂, hNext, hMoved⟩ := next_ok (w := ⟨.own, fun _ _ _ => .bits 0⟩) hE hPlain hPos
    hRank trivial h.written hk fun _ => .bits 0
  obtain ⟨rfl, rfl⟩ := Prod.mk.inj (Except.ok.inj (hWrite.symm.trans hNext))
  have hFlag := hMoved.compressed.trans h.plain
  have hAt := hMoved.offered readVal.blockPointer
  refine ⟨hMoved.nblock, log ++ [⟨value, readVal.blockPointer⟩], ?_, hReading, ?_, hFlag, ?_⟩
  · apply h.written.offer hk hMoved
    rw [hFlag]
    exact fun _ hk => if_pos hk
  · rw [hNumber, h.nblock]
    exact hMoved.nblock.symm
  · intro o ho y hy
    rcases List.mem_append.mp ho with hOld | hLast
    · exact h.copied o hOld y hy
    · obtain rfl := List.mem_singleton.mp hLast
      have hSame : value.blockShape = readVal.blockShape := by
        rw [hAt.blockShape, hTile.blockShape, hCounts, h.nblock, ← hAxes]
        rfl
      have hStart : value.elemIndex = readVal.elemIndex := by
        rw [hAt.elemIndex, hTile.elemIndex, hCounts, h.nblock]
        rfl
      show readVal.blockPointer (flat value.blockShape y) = A.get (addIdx value.elemIndex y)
      rw [hSame, hStart]
      exact hTile.holds y (hSame ▸ hy)

/-- The loop copies all blocks that are left. -/
theorem copyLoop_ok (hE : E.Lawful) (hA : Elements E c A) (hPlain : Plain dest)
    (hShape : dest.dtshape.shape = A.shape) (hPos : ∀ x ∈ dest.catarr.axes, 0 < x.shape)
    (hRank : dest.catarr.axes ≠ [])
    (hInt : c.transposed → ∀ d ∈ chunkshapeOf dest.catarr.axes, d < 2 ^ 31)
    (h : Copying c dest A itr r log) {rounds : Nat}
    (hRounds : itr.nblock + rounds = dest.catarr.nchunks)
    (hLoop : writeLoop E IterReadBlock.hasNext (copyRound E) rounds itr r = .ok (itr', r')) :
    ∃ log' : List Offer, log'.length = dest.catarr.nchunks ∧
      (∀ (k : Nat) (o : Offer), log'[k]? = some o → o.At dest.catarr.axes k) ∧
      ∀ o ∈ log', Holds itr'.cont.catarr o ∧ o.Copies A := by
  induction rounds generalizing itr r log with
  | zero =>
    have hEnd : itr.nblock = itr.totalBlocks := hRounds.trans h.written.total.symm
    have hFirst : itr.nblock ≠ 0 := by
      have := (nchunks_pos hPos).1
      change itr.nblock = (dest.catarr.axes.map Axis.chunks).prod at hRounds
      omega
    obtain ⟨a, hStore, -, hHolds⟩ := h.written.store_ok hE hPlain hPos hFirst
    rw [writeLoop, IterWriteBlock.hasNext, if_pos hEnd, hStore] at hLoop
    cases hLoop
    exact ⟨log, h.written.length.trans hRounds, h.written.offered,
      fun o ho => ⟨hHolds o ho, h.copied o ho⟩⟩
  | succ rounds ih =>
    have hk : itr.nblock < dest.catarr.nchunks := by omega
    have hMore : itr.hasNext E = .ok (itr, true) := by
      rw [IterWriteBlock.hasNext, h.written.total, if_neg hk.ne, decide_eq_true hk]
    have hAxes : shapeOf dest.catarr.axes = A.shape := hPlain.fresh.shape.trans hShape
    have hTotal : r.totalBlocks = dest.catarr.nchunks := by
      rw [h.reading.total, ← hAxes, tileCounts_chunks]
      rfl
    have hUnread : r.hasNext := by
      rw [IterReadBlock.hasNext, hTotal, h.nblock]
      exact decide_eq_true hk
    rw [writeLoop, hMore, Result.ok_bind] at hLoop
    simp only [hUnread, Bool.and_self, if_true] at hLoop
    obtain ⟨⟨itr₁, r₁⟩, hRound, hLoop⟩ := Result.bind_eq_ok.mp hLoop
    obtain ⟨hNumber, log₁, h₁⟩ := copyRound_ok hE hA hPlain hShape hPos hRank hInt h hk hRound
    exact ih h₁ (by rw [← hRounds, hNumber, Nat.add_assoc, Nat.add_comm 1]) hLoop

/-- Where the blocks of a write iterator are copies, the array holds what was copied. -/
theorem same_of_copies (hPlain : Plain dest) (hShape : dest.dtshape.shape = A.shape)
    (hPos : ∀ x ∈ dest.catarr.axes, 0 < x.shape) {b : Container} (hb : b.dtshape.shape = A.shape)
    (hLength : log.length = dest.catarr.nchunks)
    (hOffered : ∀ (k : Nat) (o : Offer), log[k]? = some o → o.At dest.catarr.axes k)
    (hCopies : ∀ o ∈ log, Holds b.catarr o ∧ o.Copies A) : A.Same b.contents := by
  refine ⟨hb.symm, fun x hx => ?_⟩
  have hAxes : shapeOf dest.catarr.axes = A.shape := hPlain.fresh.shape.trans hShape
  rw [← hAxes] at hx
  obtain ⟨y, hy, hPlace⟩ := exists_in_chunk hPos hx
  have hk : (locate dest.catarr.axes x).nchunk < log.length := by
    rw [hLength]
    exact nchunk_lt hx
  have hAt := hOffered _ _ (List.getElem?_eq_getElem hk)
  obtain ⟨hHolds, hItems⟩ := hCopies _ (List.getElem_mem hk)
  have hIn : InBox y (log[(locate dest.catarr.axes x).nchunk]).value.blockShape := by
    rw [hAt.blockShape]
    exact hy
  have hIndex : addIdx (log[(locate dest.catarr.axes x).nchunk]).value.elemIndex y = x := by
    rw [hAt.elemIndex]
    exact hPlace
  have hHeld := hHolds y hIn
  rw [hItems y hIn, hIndex] at hHeld
  exact hHeld.symm

end Copy

/-- What is not a view and is reached by views is plain. -/
theorem Chain.plain_of_none {E : Backend} {c : Container} (h : Chain E c)
    (hNone : c.containerViewed = none) : Plain c := by
  have hView : ¬ c.containerViewed.isSome := by simp [hNone]
  cases h with
  | plain hPlain => exact hPlain
  | slice _ hv => exact absurd (getSlice_viewed hv) hView
  | typeView _ hv => exact absurd (viewNew_viewed hv) hView
  | transpose _ hv =>
    unfold iarrayLinalgTranspose at hv
    split at hv
    · cases hv
    · split at hv
      · cases hv
      · obtain ⟨b, hb, hv⟩ := Result.bind_eq_ok.mp hv
        cases hv
        exact absurd (viewNew_viewed hb) hView
  | @squeeze c v mask _ hViewed hv =>
    rw [iarraySqueezeIndex, if_neg (by simpa using Option.isSome_iff_ne_none.mp hViewed)] at hv
    cases hv
    exact absurd hViewed hView

section Same

variable {E : Backend} {c dest : Container} {A : NdArray Cell} {st : Storage}

/-- The copy of a view that has an element holds the elements of the view. -/
theorem copyLoop_same (hE : E.Lawful) (hBounded : E.Bounded) (hA : Elements E c A)
    (hSize : A.shape.prod ≠ 0) (hShort : ∀ n ∈ st.chunkshape, n < 2 ^ 31)
    (hDest : iarrayEmpty E c.dtshape st = .ok dest)
    {itr itr' : IterWriteBlock} {r r' : IterReadBlock}
    (hRead : iarrayIterReadBlockNew E c st.chunkshape false = .ok r)
    (hWrite : iarrayIterWriteBlockNew E dest st.chunkshape false = .ok itr)
    (hLoop : writeLoop E IterReadBlock.hasNext (copyRound E) itr.totalBlocks itr r =
      .ok (itr', r'))
    (hShape : itr'.cont.dtshape.shape = A.shape) : A.Same itr'.cont.contents := by
  have hd := iarrayEmpty_plain hE hDest
  have hDestShape : dest.dtshape.shape = A.shape := by rw [hd.dtshape, hA.shape]
  have hLengths := pos_of_lt_prod (Nat.pos_of_ne_zero hSize)
  have hPos := hd.plain.axes_pos (hDestShape ▸ hLengths)
  have hFits : ∀ n ∈ dest.storage.chunkshape, n < 2 ^ 31 := hd.storage ▸ hShort
  have hChunkshape : st.chunkshape = chunkshapeOf dest.catarr.axes := by
    rw [← hd.storage]
    exact (hd.plain.chunkshape hFits).symm
  by_cases hRank : dest.catarr.axes = []
  · -- without an axis there is no write iterator
    have hCrash := @new_rank_zero E dest false hd.plain hRank
    rw [hd.storage, hWrite] at hCrash
    cases hCrash
  · obtain ⟨itr₀, hNew, hFirst, hFlag, hMidway⟩ := @new_ok E dest false hd.plain hFits hPos hRank
    rw [hd.storage, hWrite, Except.ok.injEq] at hNew
    rw [← hNew] at hFirst hFlag hMidway
    have hLen : A.shape.length = (chunkshapeOf dest.catarr.axes).length := by
      rw [← hDestShape, ← hd.plain.fresh.shape]
      exact length_chunkshapeOf _
    rw [hChunkshape, iarrayIterReadBlockNew, hA.shape,
      iterBlocks_mapM (chunkshapeOf_pos hPos) hLen] at hRead
    cases hRead
    have hReading : Reading c A (chunkshapeOf dest.catarr.axes) false false
        { cont := c, blockShape := chunkshapeOf dest.catarr.axes
          aux := tileCounts A.shape (chunkshapeOf dest.catarr.axes)
          totalBlocks := (tileCounts A.shape (chunkshapeOf dest.catarr.axes)).prod
          padding := false, externalBuffer := false, block := E.malloc, nblock := 0 } :=
      ⟨rfl, rfl, rfl, rfl, rfl, rfl⟩
    have hInt : c.transposed → ∀ d ∈ chunkshapeOf dest.catarr.axes, d < 2 ^ 31 := by
      intro _ d hd
      obtain ⟨x, hx, rfl⟩ := List.mem_map.mp hd
      have hSmall := iarrayEmpty_small hE hBounded (by rwa [hA.shape]) hDest x hx
      rw [Axis.extchunkshape, if_neg (hPos x hx).ne'] at hSmall
      exact (Axis.chunkshape_le_blocks (hPos x hx)).trans_lt hSmall
    have hCopying := Copying.mk hMidway hReading hFirst.symm hFlag (List.forall_mem_nil _)
    have hRounds : itr.nblock + itr.totalBlocks = dest.catarr.nchunks := by
      rw [hFirst, Nat.zero_add, hMidway.total]
    obtain ⟨log, hLength, hOffered, hCopies⟩ :=
      copyLoop_ok hE hA hd.plain hDestShape hPos hRank hInt hCopying hRounds hLoop
    exact same_of_copies hd.plain hDestShape hPos hShape hLength hOffered hCopies

end Same

namespace LongCopyExample

/-- A chunk length that `int32_t` cuts down to `2 ^ 30`. -/
def chunk : Nat := 2 ^ 32 + 2 ^ 30

/-- A vector of zeros that ends in a one. -/
def vector : Container :=
  Reference.plain .int8 [.ofCuts (chunk + 1) 4 2] fun x => .bits (if x = [chunk] then 1 else 0)

/-- All of it. -/
def view : Container :=
  viewOf Reference.bounded.machine vector ⟨.int8, [chunk + 1]⟩ [0]
    (.ofFn [.ofCuts (chunk + 1) 4 2] 1 fun _ => .bits 0)

def axis : Axis := ⟨chunk + 1, 2 ^ 30, 2 ^ 30, by decide, by decide⟩

def dest : Container :=
  newContainer ⟨.int8, [chunk + 1]⟩ ⟨[chunk], [chunk]⟩ (.ofFn [axis] 1 fun _ => .bits 0)

theorem empty_dest : iarrayEmpty Reference.bounded view.dtshape ⟨[chunk], [chunk]⟩ = .ok dest := rfl

theorem plain_vector : Plain vector := Reference.plain_plain _ _ (by decide) (by decide)

theorem view_vector : iarrayGetSlice Reference.bounded vector (ints [0])
    (ints (addIdx [0] [chunk + 1])) true ⟨[], []⟩ = .ok view := rfl

/-- The array of the copy. -/
abbrev Copied (a : CatArray) : Prop :=
  Fresh a 1 [chunk + 1] (iarrayCreateCatervaStorage ⟨[chunk], [chunk]⟩)

theorem Copied.chunkshape {a : CatArray} (h : Copied a) : a.chunkshape = [2 ^ 30] := by
  have hStored : [toInt32 chunk] = ints [2 ^ 30] := by decide +kernel
  exact ints_injective (Fresh.chunkshape h |>.trans hStored)

/-- The write iterator with `k` blocks handed out, the last one at an index. -/
def writer (a : CatArray) (block : Nat → Cell) (k index extent : Nat) : IterWriteBlock :=
  ⟨{ dest with catarr := a }, [chunk], [2 * chunk], 2, false, false, block, k, [index], [extent]⟩

section Writer

variable {a : CatArray} (block : Nat → Cell) (k index extent : Nat)

/-- The first block has the length of the chunk, the second one item. -/
theorem seek_writer (h : Copied a) : ∀ n < 2, (writer a block k index extent).seek n =
    .ok (writer a block k n (if n = 0 then chunk else 1)) := by
  have hShape : (writer a block k index extent).cont.catarr.shape = [chunk + 1] := h.shape
  intro n hn
  have hIndex : IterWriteBlock.blockIndex (List.zipWith (· / ·) [2 * chunk] [chunk]) n = .ok [n] ∧
      IterWriteBlock.shapeAt [chunk + 1] [2 * chunk] [chunk] [n] =
        [if n = 0 then chunk else 1] := by
    obtain rfl | rfl : n = 0 ∨ n = 1 := by omega
    · decide +kernel
    · decide +kernel
  rw [IterWriteBlock.seek, hShape]
  show (IterWriteBlock.blockIndex (List.zipWith (· / ·) [2 * chunk] [chunk]) n >>= _) = _
  rw [hIndex.1, Result.ok_bind]
  show Except.ok { writer a block k index extent with
    curBlockIndex := [n]
    curBlockShape := IterWriteBlock.shapeAt [chunk + 1] [2 * chunk] [chunk] [n] } = _
  rw [hIndex.2]
  rfl

/-- The block goes to a multiple of the chunk length that the array has. -/
theorem store_writer (h : Copied a) (hPos : 0 < extent)
    (hInside : index * 2 ^ 30 + extent ≤ chunk + 1) :
    ∃ b, (writer a block k index extent).store Reference.bounded =
        .ok (writer b block k index extent) ∧ Copied b ∧
      b.cell [index * 2 ^ 30] = .ok (block 0) := by
  have hRegion : Region [index * 2 ^ 30] [extent] a.shape := by
    rw [h.shape]
    exact ⟨rfl, rfl, by simpa using hInside⟩
  obtain ⟨b, hStore, hCells, -⟩ := Reference.bounded_lawful.setSliceBuffer block h.sized
    h.postfilter hRegion (by simpa using hPos) le_rfl
  refine ⟨b, ?_, Reference.bounded_lawful.setSliceBuffer_fresh h hStore, ?_⟩
  · have hPlace : List.zipWith (· * ·) (writer a block k index extent).curBlockIndex
        (writer a block k index extent).cont.catarr.chunkshape = [index * 2 ^ 30] := by
      show List.zipWith (· * ·) [index] a.chunkshape = _
      rw [h.chunkshape]
      rfl
    have hStop : List.zipWith (· + ·) [index * 2 ^ 30] (writer a block k index extent).curBlockShape =
        addIdx [index * 2 ^ 30] [extent] := rfl
    have hSet : Reference.bounded.setSliceBuffer (writer a block k index extent).cont.catarr
        (writer a block k index extent).block (writer a block k index extent).curBlockShape
        ((writer a block k index extent).curBlockShape.prod *
          (writer a block k index extent).cont.catarr.itemsize) [index * 2 ^ 30]
        (addIdx [index * 2 ^ 30] [extent]) = .ok b := hStore
    rw [IterWriteBlock.store, if_neg (by simp [writer])]
    simp only [hPlace, hStop, hSet]
    rfl
  · simpa using hCells [0] (by simpa using hPos)

end Writer

theorem copied_dest : Copied dest.catarr :=
  (iarrayEmpty_plain Reference.bounded_lawful empty_dest).plain.fresh

theorem new_writer : ∃ block, iarrayIterWriteBlockNew Reference.bounded dest [chunk] false =
    .ok (writer dest.catarr block 0 0 chunk) := by
  have hShape : contEshape dest.catarr.axes [chunk] = .ok [2 * chunk] := by decide +kernel
  have hTotal : idiv [2 * chunk].prod [chunk].prod = .ok 2 := by decide +kernel
  refine ⟨fun _ => .bits 0, ?_⟩
  rw [iarrayIterWriteBlockNew, if_neg (by decide),
    if_neg (show ¬ [chunk] ≠ dest.storage.chunkshape from not_not.mpr rfl), hShape,
    Result.ok_bind, hTotal, Result.ok_bind]
  exact seek_writer (fun _ => .bits 0) 0 0 chunk copied_dest 0 (by decide)

/-- A round hands out a block. -/
theorem next_writer {a : CatArray} (h : Copied a) (block : Nat → Cell) {k index extent : Nat}
    (hk : k < 2) (hPos : k ≠ 0 → 0 < extent ∧ index * 2 ^ 30 + extent ≤ chunk + 1) :
    ∃ b value, Copied b ∧ (writer a block k index extent).next Reference.bounded (fun _ => .bits 0) 0 =
        .ok (writer b block (k + 1) k (if k = 0 then chunk else 1), value) ∧
      value.blockSize = if k = 0 then chunk else 1 := by
  obtain ⟨b, hLeave, hb⟩ : ∃ b, (writer a block k index extent).leave Reference.bounded =
      .ok (writer b block k index extent) ∧ Copied b := by
    by_cases hFirst : k = 0
    · exact ⟨a, if_pos hFirst, h⟩
    · obtain ⟨hExtent, hInside⟩ := hPos hFirst
      obtain ⟨b, hStore, hb, -⟩ := store_writer block k index extent h hExtent hInside
      exact ⟨b, (if_neg hFirst).trans hStore, hb⟩
  refine ⟨b, ⟨block, [k], List.zipWith (· * ·) [k] [chunk], k, [if k = 0 then chunk else 1],
    [if k = 0 then chunk else 1].prod⟩, hb, ?_, List.prod_singleton⟩
  have hUse : (writer b block k index extent).useBuffer Reference.bounded (fun _ => .bits 0) 0 =
      .ok (writer b block k index extent) := rfl
  have hSeek : (writer b block k index extent).seek (writer b block k index extent).nblock =
      .ok (writer b block k k (if k = 0 then chunk else 1)) :=
    seek_writer block k index extent hb k hk
  rw [IterWriteBlock.next, hLeave, Result.ok_bind, hUse, Result.ok_bind, hSeek]
  rfl

/-- The elements of the view. -/
def elements : NdArray Cell := vector.contents.slice [0] [chunk + 1]

theorem known_view : Known view elements :=
  Run.known Reference.bounded_lawful (.slice (.plain plain_vector) 
    (plain_vector.shows.flat_of_ndim rfl) (selects_ints ⟨rfl, rfl, by decide⟩) view_vector)

/-- A round of the copy. -/
theorem round_writer {a : CatArray} (h : Copied a) (block : Nat → Cell) (index extent : Nat)
    {k : Nat} {r : IterReadBlock} (hReading : Reading view elements [chunk] false false r)
    (hr : r.nblock = k)
    (hk : k < 2) (hPos : k ≠ 0 → 0 < extent ∧ index * 2 ^ 30 + extent ≤ chunk + 1) :
    ∃ b block' r', copyRound Reference.bounded (writer a block k index extent) r =
        .ok (writer b block' (k + 1) k (if k = 0 then chunk else 1), r') ∧ Copied b ∧
      Reading view elements [chunk] false false r' ∧ r'.nblock = k + 1 ∧
      block' 0 = elements.get [k * chunk] := by
  have hCounts : tileCounts elements.shape [chunk] = [2] := by decide +kernel
  obtain ⟨r', v, hRead, hReading', hNumber, hAt⟩ := readBlock_next Reference.bounded_lawful
    known_view hReading rfl (by decide) nofun nofun (by rw [hCounts, hr]; exact hk) fun _ => .bits 0
  obtain ⟨b, value, hb, hWrite, hSize⟩ := next_writer h block hk hPos
  refine ⟨b, fun i => if i < value.blockSize then v.blockPointer i else block i, r', ?_, hb,
    hReading', by rw [hNumber, hr], ?_⟩
  · rw [copyRound, hRead, Result.ok_bind]
    simp only []
    rw [hWrite]
    rfl
  · have hTile : unflat [2] k = [k] ∧ InBox [0] (tileShape elements.shape [chunk] [k]) := by
      obtain rfl | rfl : k = 0 ∨ k = 1 := by omega
      · decide +kernel
      · decide +kernel
    have hShape := hAt.blockShape
    have hStart := hAt.elemIndex
    rw [hr, hCounts, hTile.1] at hShape hStart
    have hCell := hAt.holds [0] (hShape ▸ hTile.2)
    have hFlat : flat (bufferShape [chunk] false v) [0] = 0 := flat_replicate_zero _ 1
    have hIndex : addIdx v.elemIndex [0] = [k * chunk] := by
      rw [hStart]
      exact congrArg (fun n => [n]) (Nat.add_zero (k * chunk))
    have hFirst : 0 < value.blockSize := by
      rw [hSize]
      split <;> decide
    rw [hFlat, hIndex] at hCell
    exact (if_pos hFirst).trans hCell

/-- The last element of the view lands on the first index of the second chunk. -/
theorem copy_view : ∃ b, iarrayCopy Reference.bounded view false ⟨[chunk], [chunk]⟩ = .ok b ∧
    b.contents.get [2 ^ 30] = elements.get [chunk] := by
  obtain ⟨block, hWrite⟩ := new_writer
  obtain ⟨r, hRead, hReading, hFirst⟩ : ∃ r,
      iarrayIterReadBlockNew Reference.bounded view [chunk] false = .ok r ∧
        Reading view elements [chunk] false false r ∧ r.nblock = 0 := by
    rw [iarrayIterReadBlockNew, known_view.shape,
      iterBlocks_mapM (show ∀ d ∈ [chunk], 0 < d by decide)
        (show elements.shape.length = [chunk].length from rfl)]
    exact ⟨_, rfl, ⟨rfl, rfl, rfl, rfl, rfl, rfl⟩, rfl⟩
  obtain ⟨b₁, block₁, r₁, hRound₁, hb₁, hReading₁, hNumber₁, -⟩ :=
    round_writer copied_dest block 0 chunk hReading hFirst (by decide) (absurd rfl)
  obtain ⟨b₂, block₂, r₂, hRound₂, hb₂, hReading₂, hNumber₂, hLast⟩ :=
    round_writer hb₁ block₁ 0 chunk hReading₁ hNumber₁ (by decide)
      (fun _ => ⟨by decide, by decide⟩)
  obtain ⟨b, hStore, hb, hCell⟩ := store_writer block₂ 2 1 1 hb₂ (by decide) (by decide)
  have hTotal : ∀ {r : IterReadBlock}, Reading view elements [chunk] false false r →
      r.nblock < 2 → r.hasNext = true := by
    intro r hReading hr
    have hCounts : (tileCounts elements.shape [chunk]).prod = 2 := by decide +kernel
    rw [IterReadBlock.hasNext, hReading.total, hCounts]
    exact decide_eq_true hr
  have hLoop : writeLoop Reference.bounded IterReadBlock.hasNext (copyRound Reference.bounded) 2
      (writer dest.catarr block 0 0 chunk) r = .ok (writer b block₂ 2 1 1, r₂) := by
    have hEnd : (writer b₂ block₂ 2 1 1).hasNext Reference.bounded =
        .ok (writer b block₂ 2 1 1, false) := by
      have hEnd : (writer b₂ block₂ 2 1 1).nblock = (writer b₂ block₂ 2 1 1).totalBlocks := rfl
      rw [IterWriteBlock.hasNext, if_pos hEnd, hStore]
    have hMore : ∀ (a : CatArray) (block : Nat → Cell) (k index : Nat), k < 2 →
        (writer a block k index chunk).hasNext Reference.bounded =
          .ok (writer a block k index chunk, true) := by
      intro a block k index hk
      rw [IterWriteBlock.hasNext, if_neg (show ¬ (writer a block k index chunk).nblock =
        (writer a block k index chunk).totalBlocks from hk.ne)]
      exact congrArg (fun more => Except.ok (_, more)) (decide_eq_true hk)
    rw [writeLoop, hMore _ _ _ _ (by decide), Result.ok_bind]
    simp only [hTotal hReading (hFirst.trans_lt (by decide)), Bool.and_self, if_true]
    rw [hRound₁, Result.ok_bind]
    simp only [if_pos]
    rw [writeLoop, hMore _ _ _ _ (by decide), Result.ok_bind]
    simp only [hTotal hReading₁ (hNumber₁.trans_lt (by decide)), Bool.and_self, if_true]
    rw [hRound₂, Result.ok_bind]
    show writeLoop _ _ _ 0 (writer b₂ block₂ 2 1 1) r₂ = _
    rw [writeLoop, hEnd]
    rfl
  refine ⟨{ dest with catarr := b }, ?_, ?_⟩
  · rw [iarrayCopy, if_neg (by decide), if_pos (show view.containerViewed.isSome from rfl),
      empty_dest, Result.ok_bind, if_neg (by decide), hRead, Result.ok_bind, hWrite, Result.ok_bind]
    show (writeLoop _ _ _ 2 (writer dest.catarr block 0 0 chunk) r >>= _) = _
    rw [hLoop]
    rfl
  · rw [← (Nat.one_mul chunk : 1 * chunk = chunk), ← hLast]
    exact get_of_cell hCell

end LongCopyExample

end IronArray
