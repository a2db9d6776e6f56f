import IronArray.Core.Chunks
import IronArray.Grid.Tiles
import IronArray.Views.Code

/-!
# Block iterators

`iarray_iterator.c`: the iterators that read and write an array block by block. Each call of
`next` moves to the next block of the grid; the write iterator stores the block it leaves,
and `hasNext` stores the last one.
-/

namespace IronArray

open Grid

/-! ## Positions -/

/-- `cur_block_index`, computed from the last axis to the first with the running product of
the numbers of blocks. -/
def iterBlockIndex : List Nat → Nat → List Nat
  | [], _ => []
  | n :: ns, k => k % (n * ns.prod) / ns.prod :: iterBlockIndex ns k

theorem iterBlockIndex_mod (ns : List Nat) (k : Nat) :
    iterBlockIndex ns k = unflat ns (k % ns.prod) := by
  induction ns generalizing k with
  | nil => rfl
  | cons n ns ih =>
    rw [iterBlockIndex, ih, unflat_cons, List.prod_cons,
      Nat.mod_mod_of_dvd k (Nat.dvd_mul_left ns.prod n)]

/-- Below the number of blocks the position is the row-major one. -/
theorem iterBlockIndex_eq {ns : List Nat} {k : Nat} (h : k < ns.prod) :
    iterBlockIndex ns k = unflat ns k := by
  rw [iterBlockIndex_mod, Nat.mod_eq_of_lt h]

/-- The number of blocks of length `b` that cover an axis of length `n`. -/
def iterBlocks (n b : Nat) : Result Nat :=
  if b = 0 then crash .divisionByZero
  else .ok (if n % b = 0 then n / b else n / b + 1)

theorem iterBlocks_eq {n d : Nat} (hd : 0 < d) : iterBlocks n d = .ok (numTiles n d) := by
  rw [iterBlocks, if_neg hd.ne']
  congr 1
  have hDiv := Nat.div_add_mod' n d
  have hMod := Nat.mod_lt n hd
  rw [numTiles]
  split
  · rename_i hZero
    exact (Nat.div_eq_of_lt_le (by omega) (by rw [Nat.add_one_mul]; omega)).symm
  · exact (Nat.div_eq_of_lt_le (by rw [Nat.add_one_mul]; omega)
      (by rw [Nat.add_one_mul, Nat.add_one_mul]; omega)).symm

theorem iterBlocks_mapM {ns ds : List Nat} (hPos : ∀ d ∈ ds, 0 < d) (hLen : ns.length = ds.length) :
    (List.zip ns ds).mapM (fun p => iterBlocks p.1 p.2) = .ok (tileCounts ns ds) := by
  induction ns generalizing ds with
  | nil =>
    obtain rfl := List.length_eq_zero_iff.mp hLen.symm
    rfl
  | cons n ns ih =>
    obtain ⟨d, ds, rfl⟩ := List.exists_cons_of_length_eq_add_one hLen.symm
    have hRest := @ih ds (fun k hk => hPos k (List.mem_cons_of_mem _ hk)) (by simpa using hLen)
    rw [List.zip_cons_cons, List.mapM_cons, iterBlocks_eq (hPos d List.mem_cons_self), hRest]
    rfl

/-- The values that the iterators show to their user. -/
structure IterValue where
  blockPointer : Nat → Cell
  blockIndex : List Nat
  elemIndex : List Nat
  nblock : Nat
  blockShape : List Nat
  blockSize : Nat

/-- The indices of the array in the block. -/
def IterValue.indices (v : IterValue) : List (List Nat) :=
  (box v.blockShape).map (addIdx v.elemIndex)

/-- What a list with one more entry holds at a position. -/
theorem getElem?_append_singleton {α : Type} {l : List α} {a b : α} {k : Nat}
    (h : (l ++ [a])[k]? = some b) : l[k]? = some b ∨ k = l.length ∧ b = a := by
  rcases lt_or_ge k l.length with hLt | hGe
  · rw [List.getElem?_append_left hLt] at h
    exact .inl h
  · rw [List.getElem?_append_right hGe, List.getElem?_singleton] at h
    split at h
    · cases h
      exact .inr ⟨by omega, rfl⟩
    · cases h

/-! ## Reading -/

/-- `iarray_iter_read_block_t`. -/
structure IterReadBlock where
  cont : Container
  blockShape : List Nat
  aux : List Nat
  totalBlocks : Nat
  padding : Bool
  externalBuffer : Bool
  block : Nat → Cell
  nblock : Nat

/-- `iarray_iter_read_block_new`. -/
def iarrayIterReadBlockNew (E : Backend) (cont : Container) (iterBlockshape : List Nat)
    (externalBuffer : Bool) : Result IterReadBlock := do
  let aux ← (List.zip cont.dtshape.shape iterBlockshape).mapM fun p => iterBlocks p.1 p.2
  pure
    { cont := cont
      blockShape := iterBlockshape
      aux := aux
      totalBlocks := aux.prod
      padding := false
      externalBuffer := externalBuffer
      block := E.malloc
      nblock := 0 }

namespace IterReadBlock

def hasNext (itr : IterReadBlock) : Bool := itr.nblock < itr.totalBlocks

/-- `start_` of the block that `next` reads. -/
def start (itr : IterReadBlock) : List Nat :=
  List.zipWith (· * ·) (iterBlockIndex itr.aux itr.nblock) itr.blockShape

/-- `stop_` of the block that `next` reads. -/
def stop (itr : IterReadBlock) : List Nat :=
  List.zipWith (fun (p : Nat × Nat) n => if p.1 + p.2 ≤ n then p.1 + p.2 else n)
    (List.zip itr.start itr.blockShape) itr.cont.dtshape.shape

/-- `cur_block_shape` of the block that `next` reads. -/
def curBlockShape (itr : IterReadBlock) : List Nat :=
  List.zipWith (· - ·) itr.stop itr.start

/-- Make a buffer the block of an iterator over external buffers. -/
def useBuffer (E : Backend) (itr : IterReadBlock) (buffer : Nat → Cell) (bufsize : Nat) :
    Result IterReadBlock :=
  if !itr.externalBuffer then .ok itr
  else if bufsize < itr.blockShape.prod * itr.cont.catarr.itemsize + E.maxOverhead then
    inaError .tooSmallBuffer
  else .ok { itr with block := buffer }

/-- `iarray_iter_read_block_next`. -/
def next (E : Backend) (itr : IterReadBlock) (buffer : Nat → Cell) (bufsize : Nat) :
    Result (IterReadBlock × IterValue) := do
  let itr ← itr.useBuffer E buffer bufsize
  let buflen : Int := (itr.blockShape.prod * itr.cont.catarr.itemsize : Nat)
  let block ←
    if itr.padding then
      _iarrayGetSliceBuffer E itr.cont (ints itr.start) (ints itr.stop) (ints itr.blockShape)
        itr.block buflen
    else iarrayGetSliceBuffer E itr.cont (ints itr.start) (ints itr.stop) itr.block buflen
  pure ({ itr with block := block, nblock := itr.nblock + 1 },
    { blockPointer := block
      blockIndex := iterBlockIndex itr.aux itr.nblock
      elemIndex := itr.start
      nblock := itr.nblock
      blockShape := itr.curBlockShape
      blockSize := itr.curBlockShape.prod })

end IterReadBlock

/-! ## Writing -/

/-- `iarray_iter_write_block_t`. A compressed chunk is represented by its items. -/
structure IterWriteBlock where
  cont : Container
  blockShape : List Nat
  contEshape : List Nat
  totalBlocks : Nat
  compressedChunkBuffer : Bool
  externalBuffer : Bool
  block : Nat → Cell
  nblock : Nat
  curBlockIndex : List Nat
  curBlockShape : List Nat

namespace IterWriteBlock

/-- The position of a block from the numbers of blocks along the axes. The last axis is
indexed without a check that there is one. -/
def blockIndex (counts : List Nat) (nblock : Nat) : Result (List Nat) :=
  if counts = [] then crash .outOfBounds
  else if 0 ∈ counts then crash .divisionByZero
  else .ok (iterBlockIndex counts nblock)

/-- The shape of a block: `shape - eshape + block_shape` along the axes that it leaves. In the source
this is negative where the chunks of the array reach behind a block that is longer than the array;
nothing is known about what Caterva does with such a block, nor with one of length zero. -/
def shapeAt (shape eshape blockShape index : List Nat) : List Nat :=
  List.zipWith (fun (p : Nat × Nat) (q : Nat × Nat) =>
      if (q.2 + 1) * q.1 > p.1 then p.1 + q.1 - p.2 else q.1)
    (List.zip shape eshape) (List.zip blockShape index)

/-- Move to block `nblock`. -/
def seek (itr : IterWriteBlock) (nblock : Nat) : Result IterWriteBlock := do
  let index ← blockIndex (List.zipWith (· / ·) itr.contEshape itr.blockShape) nblock
  pure { itr with
    curBlockIndex := index
    curBlockShape := shapeAt itr.cont.catarr.shape itr.contEshape itr.blockShape index }

/-- Put the array into the container. -/
def setArray (itr : IterWriteBlock) (catarr : CatArray) : IterWriteBlock :=
  { itr with cont := { itr.cont with catarr := catarr } }

/-- Store the current block into the array. -/
def store (E : Backend) (itr : IterWriteBlock) : Result IterWriteBlock :=
  if itr.compressedChunkBuffer then
    .ok (itr.setArray (itr.cont.catarr.updateChunk (itr.nblock - 1) itr.block))
  else
    let indexStart := List.zipWith (· * ·) itr.curBlockIndex itr.cont.catarr.chunkshape
    let indexStop := List.zipWith (· + ·) indexStart itr.curBlockShape
    match E.setSliceBuffer itr.cont.catarr itr.block itr.curBlockShape
        (itr.curBlockShape.prod * itr.cont.catarr.itemsize) indexStart indexStop with
    | .ok catarr => .ok (itr.setArray catarr)
    | .error (.code _) => inaError .bloscFailed
    | .error (.undefined u) => crash u

/-- `iarray_iter_write_block_has_next`. An error while the last block is stored ends the
iteration like the end of the blocks. -/
def hasNext (E : Backend) (itr : IterWriteBlock) : Result (IterWriteBlock × Bool) :=
  if itr.nblock = itr.totalBlocks then
    match itr.store E with
    | .ok itr => .ok (itr, false)
    | .error (.code _) => .ok (itr, false)
    | .error (.undefined u) => crash u
  else .ok (itr, itr.nblock < itr.totalBlocks)

def useBuffer (E : Backend) (itr : IterWriteBlock) (buffer : Nat → Cell) (bufsize : Nat) :
    Result IterWriteBlock :=
  if !itr.externalBuffer then .ok itr
  else if bufsize < itr.blockShape.prod * itr.cont.catarr.itemsize + E.maxOverhead then
    inaError .tooSmallBuffer
  else .ok { itr with block := buffer }

/-- Before the first block there is nothing to store. -/
def leave (E : Backend) (itr : IterWriteBlock) : Result IterWriteBlock :=
  if itr.nblock = 0 then .ok itr else itr.store E

/-- `iarray_iter_write_block_next`. -/
def next (E : Backend) (itr : IterWriteBlock) (buffer : Nat → Cell) (bufsize : Nat) :
    Result (IterWriteBlock × IterValue) := do
  let itr ← itr.leave E
  let itr ← itr.useBuffer E buffer bufsize
  let itr ← itr.seek itr.nblock
  pure ({ itr with nblock := itr.nblock + 1 },
    { blockPointer := itr.block
      blockIndex := itr.curBlockIndex
      elemIndex := List.zipWith (· * ·) itr.curBlockIndex itr.blockShape
      nblock := itr.nblock
      blockShape := itr.curBlockShape
      blockSize := itr.curBlockShape.prod })

end IterWriteBlock

/-- `cont_eshape`: the extended shape in whole blocks. -/
def contEshape (axes : List Axis) (blockShape : List Nat) : Result (List Nat) :=
  (List.zip axes blockShape).mapM fun p => do
    let n ← iterBlocks p.1.extshape p.2
    pure (n * p.2)

/-- `iarray_iter_write_block_new`. -/
def iarrayIterWriteBlockNew (E : Backend) (cont : Container) (iterBlockshape : List Nat)
    (externalBuffer : Bool) : Result IterWriteBlock :=
  if cont.containerViewed.isSome then inaError .invalidStorage
  else if iterBlockshape ≠ cont.storage.chunkshape then inaError .invalidItershape
  else do
    let eshape ← contEshape cont.catarr.axes iterBlockshape
    let total ← idiv eshape.prod iterBlockshape.prod
    IterWriteBlock.seek
      { cont := cont
        blockShape := iterBlockshape
        contEshape := eshape
        totalBlocks := total
        compressedChunkBuffer := false
        externalBuffer := externalBuffer
        block := if externalBuffer then E.malloc else fun _ => .bits 0
        nblock := 0
        curBlockIndex := []
        curBlockShape := [] } 0

/-- The loop `while (has_next(iter_out) && cond)` of the users of a write iterator. Each round
moves to one more block, so the number of blocks bounds the number of rounds. -/
def writeLoop {σ : Type} (E : Backend) (cond : σ → Bool)
    (body : IterWriteBlock → σ → Result (IterWriteBlock × σ)) :
    Nat → IterWriteBlock → σ → Result (IterWriteBlock × σ)
  | rounds, itr, s => do
    let (itr, more) ← itr.hasNext E
    if more && cond s then
      match rounds with
      | 0 => pure (itr, s)
      | rounds + 1 =>
        let (itr, s) ← body itr s
        writeLoop E cond body rounds itr s
    else pure (itr, s)

/-! ## Copying -/

/-- One round of the loop of `iarray_copy` over a view. -/
def copyRound (E : Backend) (iterWrite : IterWriteBlock) (iterRead : IterReadBlock) :
    Result (IterWriteBlock × IterReadBlock) := do
  let (iterRead, readVal) ← iterRead.next E (fun _ => .bits 0) 0
  let (iterWrite, writeVal) ← iterWrite.next E (fun _ => .bits 0) 0
  let block := fun k =>
    if k < writeVal.blockSize then readVal.blockPointer k else iterWrite.block k
  pure ({ iterWrite with block := block }, iterRead)

/-- `iarray_copy`. -/
def iarrayCopy (E : Backend) (src : Container) (view : Bool) (storage : Storage) :
    Result Container :=
  if src.containerViewed.isSome && view then inaError .invalidStorage
  else if src.containerViewed.isSome then do
    let dest ← iarrayEmpty E src.dtshape storage
    if src.dtshape.shape.prod = 0 then pure dest
    else
      let iterRead ← iarrayIterReadBlockNew E src storage.chunkshape false
      let iterWrite ← iarrayIterWriteBlockNew E dest storage.chunkshape false
      let (iterWrite, _) ← writeLoop E IterReadBlock.hasNext (copyRound E) iterWrite.totalBlocks
        iterWrite iterRead
      pure iterWrite.cont
  else do
    let container ← iarrayContainerNew src.dtshape storage
    let catarr ← E.copy src.catarr (iarrayCreateCatervaStorage storage)
    pure (container catarr)

/-- A round of the same loop whose error ends the loop and is then forgotten. -/
def copyRoundUnchecked (E : Backend) (iterWrite : IterWriteBlock) (s : IterReadBlock × Bool) :
    Result (IterWriteBlock × (IterReadBlock × Bool)) :=
  match copyRound E iterWrite s.1 with
  | .ok (iterWrite, iterRead) => .ok (iterWrite, iterRead, false)
  | .error (.code _) => .ok (iterWrite, s.1, true)
  | .error (.undefined u) => crash u

/-- What `iarray_copy` of a view leaves in `*dest`, for callers that ignore the code it returns. -/
def iarrayCopyUnchecked (E : Backend) (src : Container) (storage : Storage) : Result Container :=
  match iarrayEmpty E src.dtshape storage with
  | .error (.undefined u) => crash u
  -- the new container has no array
  | .error (.code _) => crash .nullPointer
  | .ok dest =>
    if src.dtshape.shape.prod = 0 then .ok dest
    else do
      let iterRead ← iarrayIterReadBlockNew E src storage.chunkshape false
      let iterWrite ← iarrayIterWriteBlockNew E dest storage.chunkshape false
      let (iterWrite, _) ← writeLoop E (fun s => s.1.hasNext && !s.2) (copyRoundUnchecked E)
        iterWrite.totalBlocks iterWrite (iterRead, false)
      pure iterWrite.cont

end IronArray
