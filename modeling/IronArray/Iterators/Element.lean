import IronArray.Iterators.Block

/-!
# The element iterators

`iarray_iter_write_new`, `iarray_iter_write_next` and `iarray_iter_write_has_next`. The iterator
hands out a pointer into a buffer of one chunk and stores the buffer when the chunk is complete.
A script is what a user does with it: calls and assignments through the pointer. The read iterator
fills its buffer with one chunk after the other.
-/

namespace IronArray

open Grid

/-- `iarray_iter_write_t`. The pointer is a position in the buffer; there is none before the first
element. -/
structure IterWrite where
  container : Container
  chunk : Nat → Cell
  curBlockIndex : List Nat
  curBlockShape : List Nat
  curBlockSize : Nat
  nblock : Nat
  nelem : Nat
  nelemBlock : Nat
  elemIndex : List Nat
  elemFlatIndex : Nat
  pointer : Option Nat

/-- `iarray_iter_write_new`. -/
def iarrayIterWriteNew (cont : Container) : IterWrite :=
  let curBlockShape := List.zipWith (fun c n => if n < c then n else c) cont.catarr.chunkshape
    cont.catarr.shape
  { container := cont
    chunk := fun _ => .bits 0
    curBlockIndex := List.replicate cont.catarr.ndim 0
    curBlockShape := curBlockShape
    curBlockSize := curBlockShape.prod
    nblock := 0
    nelem := 0
    nelemBlock := 0
    elemIndex := List.replicate cont.catarr.ndim 0
    elemFlatIndex := 0
    pointer := none }

namespace IterWrite

/-- Store the buffer. The region is set for the axes of the container only; Caterva reads it for
all axes of the array. -/
def store (E : Backend) (itr : IterWrite) : Result IterWrite :=
  if itr.container.dtshape.ndim < itr.container.catarr.ndim then crash .outOfBounds
  else
    let indexStart := List.zipWith (· * ·) itr.curBlockIndex itr.container.catarr.chunkshape
    let indexStop := List.zipWith (· + ·) indexStart itr.curBlockShape
    match E.setSliceBuffer itr.container.catarr itr.chunk itr.curBlockShape
        (itr.curBlockSize * itr.container.catarr.itemsize) indexStart indexStop with
    | .ok catarr => .ok { itr with container := { itr.container with catarr := catarr } }
    | .error (.code _) => inaError .bloscFailed
    | .error (.undefined u) => crash u

/-- Move to the next block. -/
def nextBlock (itr : IterWrite) : Result IterWrite := do
  let counts ← shapeOfChunks itr.container.catarr.axes
  if 0 ∈ counts then crash .divisionByZero
  else
    let index := iterBlockIndex counts (itr.nblock + 1)
    let shape := chunkShapeAt itr.container.catarr.axes index
    pure { itr with
      nblock := itr.nblock + 1
      curBlockIndex := index
      curBlockShape := shape
      curBlockSize := shape.prod
      nelemBlock := 0 }

/-- A complete block is stored; otherwise, except before the first element, the iterator moves on
inside the block. -/
def advance (E : Backend) (itr : IterWrite) : Result IterWrite :=
  if itr.nelemBlock + 1 = itr.curBlockSize then do
    let itr ← itr.store E
    itr.nextBlock
  else if itr.nelem ≠ 0 then .ok { itr with nelemBlock := itr.nelemBlock + 1 }
  else .ok itr

/-- `iarray_iter_write_next`. -/
def next (E : Backend) (itr : IterWrite) : Result IterWrite := do
  let itr ← itr.advance E
  if 0 ∈ itr.curBlockShape then crash .divisionByZero
  else
    let indChunkElem := iterBlockIndex itr.curBlockShape itr.nelemBlock
    let elemIndex := List.zipWith (· + ·) indChunkElem
      (List.zipWith (· * ·) itr.curBlockIndex itr.container.catarr.chunkshape)
    pure { itr with
      elemIndex := elemIndex
      elemFlatIndex := flat itr.container.catarr.shape elemIndex
      pointer := some (flat itr.curBlockShape indChunkElem)
      nelem := itr.nelem + 1 }

/-- `iarray_iter_write_has_next`: after the last element the buffer is stored. -/
def hasNext (E : Backend) (itr : IterWrite) : Result (IterWrite × Bool) :=
  if itr.nelem = itr.container.catarr.shape.prod then do
    let itr ← itr.store E
    pure (itr, false)
  else .ok (itr, itr.nelem < itr.container.catarr.shape.prod)

end IterWrite

/-! ## Reading -/

/-- `iarray_iter_read_t`. The pointer is a position in the buffer. -/
structure IterRead where
  cont : Container
  blockShape : List Nat
  chunk : Nat → Cell
  contSize : Nat
  curBlockIndex : List Nat
  curBlockShape : List Nat
  curBlockSize : Nat
  nblock : Nat
  nelem : Nat
  nelemBlock : Nat
  elemIndex : List Nat
  elemFlatIndex : Nat
  pointer : Option Nat

/-- `iarray_iter_read_new`. -/
def iarrayIterReadNew (E : Backend) (cont : Container) : IterRead :=
  let chunkshape := cont.storage.chunkshape.take cont.dtshape.ndim
  { cont := cont
    blockShape := if cont.transposed then chunkshape.reverse else chunkshape
    chunk := E.malloc
    contSize := cont.dtshape.shape.prod
    curBlockIndex := List.replicate cont.dtshape.ndim 0
    curBlockShape := []
    curBlockSize := 0
    nblock := 0
    nelem := 0
    nelemBlock := 0
    elemIndex := []
    elemFlatIndex := 0
    pointer := none }

namespace IterRead

/-- Read the next block. -/
def nextBlock (E : Backend) (itr : IterRead) : Result IterRead := do
  let shape := itr.cont.dtshape.shape
  let aux ← (List.zip shape itr.blockShape).mapM fun p => iterBlocks p.1 p.2
  if 0 ∈ aux then crash .divisionByZero
  else
    let index := iterBlockIndex aux itr.nblock
    let start := List.zipWith (· * ·) index itr.blockShape
    let stop := List.zipWith (fun (p : Nat × Nat) n => if p.1 + p.2 ≤ n then p.1 + p.2 else n)
      (List.zip start itr.blockShape) shape
    let curBlockShape := List.zipWith (· - ·) stop start
    let chunk ← iarrayGetSliceBuffer E itr.cont (ints start) (ints stop) itr.chunk
      (itr.blockShape.prod * itr.cont.catarr.itemsize : Nat)
    pure { itr with
      curBlockIndex := index
      curBlockShape := curBlockShape
      curBlockSize := curBlockShape.prod
      chunk := chunk
      nelemBlock := 0
      nblock := itr.nblock + 1 }

/-- A complete block is left for the next one, and the first one is read before the first
element. -/
def advance (E : Backend) (itr : IterRead) : Result IterRead :=
  if itr.nelemBlock + 1 = itr.curBlockSize ∨ itr.nelem = 0 then itr.nextBlock E
  else .ok { itr with nelemBlock := itr.nelemBlock + 1 }

/-- `iarray_iter_read_next`. -/
def next (E : Backend) (itr : IterRead) : Result IterRead := do
  let itr ← itr.advance E
  if 0 ∈ itr.curBlockShape then crash .divisionByZero
  else
    let indChunkElem := iterBlockIndex itr.curBlockShape itr.nelemBlock
    let elemIndex := List.zipWith (· + ·) indChunkElem
      (List.zipWith (· * ·) itr.curBlockIndex itr.blockShape)
    pure { itr with
      elemIndex := elemIndex
      elemFlatIndex := flat itr.cont.dtshape.shape elemIndex
      pointer := some itr.nelemBlock
      nelem := itr.nelem + 1 }

/-- `iarray_iter_read_has_next`. -/
def hasNext (itr : IterRead) : Bool := itr.nelem < itr.contSize

end IterRead

/-! ## Scripts -/

inductive WriteAction
  | hasNext
  | next
  | set (c : Cell)

/-- An iterator in use: the elements set since the buffer was last stored and those stored. -/
structure WriteSession where
  itr : IterWrite
  pending : List (List Nat × Cell)
  accepted : List (List Nat × Cell)

namespace WriteSession

def start (cont : Container) : WriteSession := ⟨iarrayIterWriteNew cont, [], []⟩

/-- The session after a call that leaves the iterator in the state `itr'` and, when `stores`
holds, has stored the buffer. -/
def moveTo (s : WriteSession) (stores : Bool) (itr' : IterWrite) : WriteSession :=
  if stores then ⟨itr', [], s.accepted ++ s.pending⟩ else { s with itr := itr' }

def act (E : Backend) (s : WriteSession) : WriteAction → Result WriteSession
  | .hasNext => do
    let (itr, _) ← s.itr.hasNext E
    pure (s.moveTo (s.itr.nelem = s.itr.container.catarr.shape.prod) itr)
  | .next => do
    let itr ← s.itr.next E
    pure (s.moveTo (s.itr.nelemBlock + 1 = s.itr.curBlockSize) itr)
  | .set c =>
    match s.itr.pointer with
    | none => crash .nullPointer
    | some p => .ok
      { s with
        itr := { s.itr with chunk := fun k => if k = p then c else s.itr.chunk k }
        pending := s.pending ++ [(s.itr.elemIndex, c)] }

/-- A script. A call that returns an error leaves the session as it was; nothing follows undefined
behaviour. -/
def run (E : Backend) (s : WriteSession) : List WriteAction → WriteSession
  | [] => s
  | action :: script =>
    match s.act E action with
    | .ok s' => run E s' script
    | .error (.code _) => run E s script
    | .error (.undefined _) => s

end WriteSession

end IronArray
