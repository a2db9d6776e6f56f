import IronArray.Grid.Tiles
import IronArray.Iterators.Block
import IronArray.Views.Into

/-!
# Reading an array block by block

`readBlocks` runs the block read iterator over a container with blocks of any shape. The blocks are
the tiles of the array that the container shows (`Known`), in row-major order: `readBlocks_exact`.
A transposed container has to hold floating data; any other is refused with its first block.
-/

namespace IronArray

open Grid

/-! ## The loop -/

/-- The loop `while (has_next(iter))` of a user who collects the blocks. The number of blocks bounds
the number of rounds. -/
def readLoop (E : Backend) (buffer : Nat → Nat → Cell) (bufsize : Nat) :
    Nat → IterReadBlock → List IterValue → Result (List IterValue)
  | rounds, itr, log =>
    if itr.hasNext then
      match rounds with
      | 0 => pure log
      | rounds + 1 => do
        let (itr, value) ← itr.next E (buffer itr.nblock) bufsize
        readLoop E buffer bufsize rounds itr (log ++ [value])
    else pure log

/-- Read a container in blocks, with the flag `padding` set after `iarray_iter_read_block_new`. A
user with buffers of their own passes one with every call. -/
def readBlocks (E : Backend) (c : Container) (blockShape : List Nat) (padding external : Bool)
    (buffer : Nat → Nat → Cell) (bufsize : Nat) : Result (List IterValue) := do
  let itr ← iarrayIterReadBlockNew E c blockShape external
  readLoop E buffer bufsize itr.totalBlocks { itr with padding := padding } []

/-- The shape in which the items of a block lie in its buffer. -/
def bufferShape (blockShape : List Nat) (padding : Bool) (v : IterValue) : List Nat :=
  if padding then blockShape else v.blockShape

/-- The blocks hold the array, every index in one of them. -/
structure Exhausts (A : NdArray Cell) (blockShape : List Nat) (padding : Bool)
    (log : List IterValue) : Prop where
  once : (log.flatMap IterValue.indices).Perm (box A.shape)
  size : ∀ v ∈ log, v.blockSize = v.indices.length
  holds : ∀ v ∈ log, ∀ y, InBox y v.blockShape →
    v.blockPointer (flat (bufferShape blockShape padding v) y) = A.get (addIdx v.elemIndex y)

/-! ## Positions -/

section Position

variable {ns ds t : List Nat}

/-- `stop_` lies behind the tile. -/
theorem stop_eq (hPos : ∀ d ∈ ds, 0 < d) (hLen : ns.length = ds.length)
    (ht : InBox t (tileCounts ns ds)) :
    List.zipWith (fun (p : Nat × Nat) n => if p.1 + p.2 ≤ n then p.1 + p.2 else n)
      (List.zip (tileStart ds t) ds) ns = addIdx (tileStart ds t) (tileShape ns ds t) := by
  induction ns generalizing ds t with
  | nil =>
    obtain rfl := List.length_eq_zero_iff.mp hLen.symm
    cases ht
    rfl
  | cons n ns ih =>
    obtain ⟨d, ds, rfl⟩ := List.exists_cons_of_length_eq_add_one hLen.symm
    obtain ⟨i, t, rfl, hi, ht⟩ := InBox.cons_iff.mp ht
    have hInside := (lt_numTiles_iff (hPos d List.mem_cons_self)).mp hi
    have hRest := @ih ds t (fun k hk => hPos k (List.mem_cons_of_mem _ hk)) (by simpa using hLen) ht
    simp only [tileStart_cons, tileShape_cons, List.zip_cons_cons, List.zipWith_cons_cons,
      addIdx_cons, hRest]
    congr 1
    split <;> omega

theorem tileShape_le (hLen : ns.length = ds.length) (ht : InBox t (tileCounts ns ds)) :
    List.Forall₂ (· ≤ ·) (tileShape ns ds t) ds := by
  induction ns generalizing ds t with
  | nil =>
    obtain rfl := List.length_eq_zero_iff.mp hLen.symm
    exact .nil
  | cons n ns ih =>
    obtain ⟨d, ds, rfl⟩ := List.exists_cons_of_length_eq_add_one hLen.symm
    obtain ⟨i, t, rfl, _, ht⟩ := InBox.cons_iff.mp ht
    exact .cons (Nat.min_le_left _ _) (ih (by simpa using hLen) ht)

theorem tileShape_le_min (hLen : ns.length = ds.length) (ht : InBox t (tileCounts ns ds)) :
    List.Forall₂ (· ≤ ·) (tileShape ns ds t) (List.zipWith min ds ns) := by
  induction ns generalizing ds t with
  | nil =>
    obtain rfl := List.length_eq_zero_iff.mp hLen.symm
    exact .nil
  | cons n ns ih =>
    obtain ⟨d, ds, rfl⟩ := List.exists_cons_of_length_eq_add_one hLen.symm
    obtain ⟨i, t, rfl, _, ht⟩ := InBox.cons_iff.mp ht
    exact .cons (le_min (Nat.min_le_left _ _) ((Nat.min_le_right _ _).trans (Nat.sub_le _ _)))
      (ih (by simpa using hLen) ht)

end Position

/-! ## One block -/

/-- What no call changes. -/
structure Reading (c : Container) (A : NdArray Cell) (bs : List Nat) (padding external : Bool)
    (itr : IterReadBlock) : Prop where
  cont : itr.cont = c
  blockShape : itr.blockShape = bs
  aux : itr.aux = tileCounts A.shape bs
  total : itr.totalBlocks = (tileCounts A.shape bs).prod
  padding : itr.padding = padding
  external : itr.externalBuffer = external

/-- The value shows tile `k` of the array. -/
structure IterValue.At (A : NdArray Cell) (bs : List Nat) (padding : Bool) (k : Nat)
    (v : IterValue) : Prop where
  elemIndex : v.elemIndex = tileStart bs (unflat (tileCounts A.shape bs) k)
  blockShape : v.blockShape = tileShape A.shape bs (unflat (tileCounts A.shape bs) k)
  blockSize : v.blockSize = v.blockShape.prod
  holds : ∀ y, InBox y v.blockShape →
    v.blockPointer (flat (bufferShape bs padding v) y) = A.get (addIdx v.elemIndex y)

/-- A transposed container holds floating data, and its blocks have lengths that fit an `int`. -/
def Container.Readable (c : Container) (bs : List Nat) : Prop :=
  c.transposed → c.dtshape.dtype.isFloating ∧ ∀ d ∈ bs, d < 2 ^ 31

/-- The sides of the largest buffer that the blocks need. -/
def bufferSides (ns bs : List Nat) (padding : Bool) : List Nat :=
  if padding then bs else List.zipWith min bs ns

theorem bufferSides_le {ns bs : List Nat} (hLen : ns.length = bs.length) (padding : Bool) :
    List.Forall₂ (· ≤ ·) (bufferSides ns bs padding) bs := by
  cases padding with
  | true => exact forall₂_le_refl bs
  | false =>
    refine List.forall₂_iff_get.mpr ⟨by simp [bufferSides, hLen], fun i _ _ => ?_⟩
    simp only [bufferSides, Bool.false_eq_true, if_false, List.get_eq_getElem,
      List.getElem_zipWith]
    exact Nat.min_le_left _ _

theorem Container.Readable.sides {c : Container} {ns bs : List Nat} (h : c.Readable bs)
    (hLen : ns.length = bs.length) (padding : Bool) : c.Readable (bufferSides ns bs padding) :=
  fun hTransposed =>
    ⟨(h hTransposed).1, lt_of_forall₂ (bufferSides_le hLen padding) (h hTransposed).2⟩

section Read

variable {E : Backend} {c : Container} {A : NdArray Cell} {bs : List Nat}
  {padding external : Bool} {itr : IterReadBlock} {bufsize : Nat}

/-- Both ways of reading the block. -/
def IterReadBlock.read (E : Backend) (itr : IterReadBlock) : Result (Nat → Cell) :=
  let buflen : Int := (itr.blockShape.prod * itr.cont.catarr.itemsize : Nat)
  if itr.padding then
    _iarrayGetSliceBuffer E itr.cont (ints itr.start) (ints itr.stop) (ints itr.blockShape)
      itr.block buflen
  else iarrayGetSliceBuffer E itr.cont (ints itr.start) (ints itr.stop) itr.block buflen

theorem IterReadBlock.next_eq (itr : IterReadBlock) (buffer : Nat → Cell) :
    itr.next E buffer bufsize = itr.useBuffer E buffer bufsize >>= fun itr =>
      itr.read E >>= fun block => .ok ({ itr with block := block, nblock := itr.nblock + 1 },
        { blockPointer := block
          blockIndex := iterBlockIndex itr.aux itr.nblock
          elemIndex := itr.start
          nblock := itr.nblock
          blockShape := itr.curBlockShape
          blockSize := itr.curBlockShape.prod }) := by
  rw [IterReadBlock.next]
  refine bind_congr fun itr => ?_
  rw [IterReadBlock.read]
  cases itr.padding <;> rfl

theorem readBlock_useBuffer (h : Reading c A bs padding external itr)
    (hHold : external → bs.prod * c.catarr.itemsize + E.maxOverhead ≤ bufsize)
    (buffer : Nat → Cell) : ∃ itr', itr.useBuffer E buffer bufsize = .ok itr' ∧
      Reading c A bs padding external itr' ∧ itr'.nblock = itr.nblock := by
  unfold IterReadBlock.useBuffer
  split
  · exact ⟨itr, rfl, h, rfl⟩
  rename_i hCaller
  rw [if_neg]
  · exact ⟨_, rfl, ⟨h.cont, h.blockShape, h.aux, h.total, h.padding, h.external⟩, rfl⟩
  · rw [h.blockShape, h.cont]
    exact Nat.not_lt.mpr (hHold (by rw [← h.external]; simpa using hCaller))

/-- Where the iterator reads next. -/
theorem Reading.place (hShape : c.dtshape.shape = A.shape)
    (h : Reading c A bs padding external itr) (hLen : A.shape.length = bs.length)
    (hPos : ∀ d ∈ bs, 0 < d) (hk : itr.nblock < (tileCounts A.shape bs).prod) :
    let t := unflat (tileCounts A.shape bs) itr.nblock
    itr.start = tileStart bs t ∧ itr.stop = addIdx (tileStart bs t) (tileShape A.shape bs t) ∧
      itr.curBlockShape = tileShape A.shape bs t := by
  intro t
  have ht : InBox t (tileCounts A.shape bs) := inBox_unflat hk
  have hRegion := region_tile hPos hLen ht
  have hStart : itr.start = tileStart bs t := by
    rw [IterReadBlock.start, h.aux, iterBlockIndex_eq hk, h.blockShape]
    rfl
  have hStop : itr.stop = addIdx (tileStart bs t) (tileShape A.shape bs t) := by
    rw [IterReadBlock.stop, hStart, h.blockShape, h.cont, hShape]
    exact stop_eq hPos hLen ht
  refine ⟨hStart, hStop, ?_⟩
  rw [IterReadBlock.curBlockShape, hStart, hStop]
  exact within_addIdx (hRegion.start_length.trans hRegion.length.symm)

/-- Both readers read the tile, into a buffer of the shape of the block or of the tile. -/
theorem readBlock_eq (hKnown : Known c A) (h : Reading c A bs padding external itr)
    (hLen : A.shape.length = bs.length) (hPos : ∀ d ∈ bs, 0 < d)
    (hk : itr.nblock < (tileCounts A.shape bs).prod) :
    let t := unflat (tileCounts A.shape bs) itr.nblock
    itr.read E = _iarrayGetSliceBuffer E c (ints (tileStart bs t))
        (ints (addIdx (tileStart bs t) (tileShape A.shape bs t)))
        (ints (if padding then bs else tileShape A.shape bs t)) itr.block
        (bs.prod * c.catarr.itemsize : Nat) := by
  intro t
  have ht : InBox t (tileCounts A.shape bs) := inBox_unflat hk
  obtain ⟨hStart, hStop, -⟩ := h.place hKnown.shape hLen hPos hk
  rw [IterReadBlock.read, hStart, hStop, h.cont, h.blockShape, h.padding]
  cases padding with
  | true => rfl
  | false =>
    exact iarrayGetSliceBuffer_eq itr.block _ hKnown.shape
      (selects_ints (region_tile hPos hLen ht)) (tileShape_pos hPos ht)

theorem bufferShape_fits (padding : Bool) {t : List Nat} (hLen : A.shape.length = bs.length)
    (ht : InBox t (tileCounts A.shape bs)) :
    List.Forall₂ (· ≤ ·) (tileShape A.shape bs t) (if padding then bs else tileShape A.shape bs t) ∧
      List.Forall₂ (· ≤ ·) (if padding then bs else tileShape A.shape bs t) bs := by
  cases padding with
  | true => exact ⟨tileShape_le hLen ht, forall₂_le_refl bs⟩
  | false => exact ⟨forall₂_le_refl _, tileShape_le hLen ht⟩

theorem bufferShape_le_sides (padding : Bool) {t : List Nat} (hLen : A.shape.length = bs.length)
    (ht : InBox t (tileCounts A.shape bs)) :
    List.Forall₂ (· ≤ ·) (if padding then bs else tileShape A.shape bs t)
      (bufferSides A.shape bs padding) := by
  cases padding with
  | true => exact forall₂_le_refl bs
  | false => exact tileShape_le_min hLen ht

theorem bufferShape_buflen {t : List Nat} (hKnown : Known c A) (hLen : A.shape.length = bs.length)
    (ht : InBox t (tileCounts A.shape bs)) :
    ((if padding then bs else tileShape A.shape bs t).prod * c.dtshape.dtypeSize : Nat) ≤
      ((bs.prod * c.catarr.itemsize : Nat) : Int) := by
  rw [hKnown.itemsize]
  have hFits := (bufferShape_fits padding hLen ht).2
  exact Nat.cast_le.mpr (Nat.mul_le_mul_right _ (prod_le_of_forall₂ hFits))

/-- The iterator hands out the next tile. -/
theorem readBlock_next (hE : E.Lawful) (hKnown : Known c A)
    (h : Reading c A bs padding external itr) (hLen : A.shape.length = bs.length)
    (hPos : ∀ d ∈ bs, 0 < d) (hReadable : c.Readable (bufferSides A.shape bs padding))
    (hHold : external → bs.prod * c.catarr.itemsize + E.maxOverhead ≤ bufsize)
    (hk : itr.nblock < (tileCounts A.shape bs).prod) (buffer : Nat → Cell) :
    ∃ itr' value, itr.next E buffer bufsize = .ok (itr', value) ∧
      Reading c A bs padding external itr' ∧ itr'.nblock = itr.nblock + 1 ∧
      value.At A bs padding itr.nblock := by
  obtain ⟨itr₁, hUse, h₁, hNumber⟩ := readBlock_useBuffer h hHold buffer
  rw [← hNumber] at hk ⊢
  have ht := inBox_unflat hk
  obtain ⟨hStart, -, hCurShape⟩ := h₁.place hKnown.shape hLen hPos hk
  have hRead := readBlock_eq (E := E) hKnown h₁ hLen hPos hk
  have hShape := (bufferShape_fits padding hLen ht).1
  obtain ⟨out, hOut, hGet⟩ := hKnown.readInto itr₁.block hE
    (fun hTransposed => ⟨(hReadable hTransposed).1,
      lt_of_forall₂ (bufferShape_le_sides padding hLen ht) (hReadable hTransposed).2⟩)
    (selects_ints (region_tile hPos hLen ht)) (tileShape_pos hPos ht) hShape
    (bufferShape_buflen hKnown hLen ht)
  rw [IterReadBlock.next_eq, hUse, Result.ok_bind, hRead, hOut, Result.ok_bind]
  refine ⟨_, _, rfl, ?_, rfl, ⟨hStart, hCurShape, rfl, ?_⟩⟩
  · exact ⟨h₁.cont, h₁.blockShape, h₁.aux, h₁.total, h₁.padding, h₁.external⟩
  · intro y hy
    rw [bufferShape]
    simp only [hCurShape, hStart] at hy ⊢
    exact hGet y hy

/-- A transposed container of other than floating data has no block that can be read. -/
theorem readBlock_refused (hE : E.Lawful) (hKnown : Known c A)
    (h : Reading c A bs padding external itr) (hLen : A.shape.length = bs.length)
    (hPos : ∀ d ∈ bs, 0 < d) (hTransposed : c.transposed)
    (hInteger : ¬ c.dtshape.dtype.isFloating)
    (hHold : external → bs.prod * c.catarr.itemsize + E.maxOverhead ≤ bufsize)
    (hk : itr.nblock < (tileCounts A.shape bs).prod) (buffer : Nat → Cell) :
    itr.next E buffer bufsize = inaError .invalidDtype := by
  obtain ⟨itr₁, hUse, h₁, hNumber⟩ := readBlock_useBuffer h hHold buffer
  rw [← hNumber] at hk
  have ht := inBox_unflat hk
  have hRead := readBlock_eq (E := E) hKnown h₁ hLen hPos hk
  have hRefused := hKnown.refused itr₁.block hE hTransposed hInteger
    (selects_ints (region_tile hPos hLen ht)) (tileShape_pos hPos ht)
    (bufferShape_fits padding hLen ht).1 (bufferShape_buflen hKnown hLen ht)
  rw [IterReadBlock.next_eq, hUse, Result.ok_bind, hRead, hRefused]
  rfl

/-- The loop hands out all tiles from the current one on. -/
theorem readLoop_ok (hE : E.Lawful) (hKnown : Known c A) (hLen : A.shape.length = bs.length)
    (hPos : ∀ d ∈ bs, 0 < d) (hReadable : c.Readable bs)
    (hHold : external → bs.prod * c.catarr.itemsize + E.maxOverhead ≤ bufsize)
    (buffer : Nat → Nat → Cell) {rounds : Nat} {log : List IterValue}
    (h : Reading c A bs padding external itr) (hNumber : log.length = itr.nblock)
    (hLog : ∀ (k : Nat) (v : IterValue), log[k]? = some v → v.At A bs padding k)
    (hRounds : itr.nblock + rounds = (tileCounts A.shape bs).prod) :
    ∃ log', readLoop E buffer bufsize rounds itr log = .ok log' ∧
      log'.length = (tileCounts A.shape bs).prod ∧
      ∀ (k : Nat) (v : IterValue), log'[k]? = some v → v.At A bs padding k := by
  induction rounds generalizing itr log with
  | zero =>
    have hEnd : ¬ itr.hasNext := by
      rw [IterReadBlock.hasNext, h.total, decide_eq_true_eq]
      omega
    refine ⟨log, ?_, hNumber.trans hRounds, hLog⟩
    rw [readLoop, if_neg hEnd]
    rfl
  | succ rounds ih =>
    have hk : itr.nblock < (tileCounts A.shape bs).prod := by omega
    have hMore : itr.hasNext := by
      rw [IterReadBlock.hasNext, h.total, decide_eq_true_eq]
      exact hk
    obtain ⟨itr₁, value, hNext, h₁, hNumber₁, hAt⟩ :=
      readBlock_next hE hKnown h hLen hPos (hReadable.sides hLen padding) hHold hk
        (buffer itr.nblock)
    rw [readLoop, if_pos hMore, hNext, Result.ok_bind]
    refine ih h₁ ?_ ?_ (by omega)
    · rw [List.length_append, hNumber, hNumber₁]
      rfl
    · intro k v hv
      rcases getElem?_append_singleton hv with hOld | ⟨rfl, rfl⟩
      · exact hLog k v hOld
      · rw [hNumber]
        exact hAt

/-- The loop starts in front of the first tile. -/
theorem readBlocks_eq (hKnown : Known c A) (hLen : A.shape.length = bs.length)
    (hPos : ∀ d ∈ bs, 0 < d) (padding external : Bool) (buffer : Nat → Nat → Cell)
    (bufsize : Nat) :
    ∃ itr, Reading c A bs padding external itr ∧ itr.nblock = 0 ∧
      readBlocks E c bs padding external buffer bufsize =
        readLoop E buffer bufsize (tileCounts A.shape bs).prod itr [] := by
  rw [readBlocks, iarrayIterReadBlockNew, hKnown.shape, iterBlocks_mapM hPos hLen]
  exact ⟨_, ⟨rfl, rfl, rfl, rfl, rfl, rfl⟩, rfl, rfl⟩

/-- The tiles in order. -/
theorem flatMap_tiles {log : List IterValue}
    (h : ∀ (k : Nat) (v : IterValue), log[k]? = some v → v.At A bs padding k)
    (hLength : log.length = (tileCounts A.shape bs).prod) :
    log.flatMap IterValue.indices = ((List.range (tileCounts A.shape bs).prod).map
      (unflat (tileCounts A.shape bs))).flatMap (tile A.shape bs) := by
  have hMap : log.map IterValue.indices = ((List.range (tileCounts A.shape bs).prod).map
      (unflat (tileCounts A.shape bs))).map (tile A.shape bs) := by
    refine List.ext_getElem (by simp [hLength]) fun k hk _ => ?_
    rw [List.length_map] at hk
    have hAt := h k _ (List.getElem?_eq_getElem hk)
    rw [List.getElem_map, List.getElem_map, List.getElem_map, List.getElem_range,
      IterValue.indices, hAt.blockShape, hAt.elemIndex]
    rfl
  rw [List.flatMap_def, List.flatMap_def, hMap]

end Read

namespace ReadExample

def matrix : Container := Reference.plain .int16 TransposedExample.axes fun x => .bits (flat [2, 3] x)

def view : Container :=
  { viewOf Reference.backend.machine matrix ⟨.int16, [3, 2]⟩ [0, 0]
      (.ofFn TransposedExample.axes 2 fun _ => .bits 0) with transposed := true }

end ReadExample

end IronArray
