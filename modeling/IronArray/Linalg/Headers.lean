import IronArray.Core.Chunks
import IronArray.Settings.Cparams

/-!
# Headers of chunks

The optimised products ask the bytes of a chunk of `blosc2_schunk_get_lazychunk` whether the chunk
or one of its blocks is zero. `Headers.Honest` is what they rely on. The format of the chunks
bears it out unless the delta filter is on, which stores a block as its difference from the first
one: `Headers.honest_of_documents`.
-/

namespace IronArray

open Grid

/-! ## The format -/

/-- `BLOSC2_CHUNK_FLAGS`. -/
def chunkFlags : Int := 0x2

/-- `BLOSC2_CHUNK_TYPESIZE`. -/
def chunkTypesize : Int := 0x3

/-- `BLOSC2_CHUNK_NBYTES`. -/
def chunkNbytes : Int := 0x4

/-- `BLOSC2_CHUNK_BLOCKSIZE`. -/
def chunkBlocksize : Int := 0x8

/-- The codes of the filters, one byte each. -/
def chunkFilterCodes : Int := 0x10

/-- `BLOSC2_CHUNK_BLOSC2_FLAGS`. -/
def chunkBlosc2Flags : Int := 0x1f

/-- `BLOSC_EXTENDED_HEADER_LENGTH`. -/
def extendedHeaderLength : Int := 0x20

/-- `BLOSC2_SPECIAL_MASK` and `BLOSC2_SPECIAL_ZERO`. -/
def specialMask : UInt8 := 0x7

def specialZero : UInt8 := 0x1

/-- `BLOSC_DELTA`. -/
def bloscDelta : UInt8 := 3

/-! ## The code -/

/-- `*(int32_t *) (chunk + i)`, on a machine with the low byte first. -/
def int32At (chunk : Int → UInt8) (i : Int) : Int :=
  toInt32 ((chunk i).toNat + 2 ^ 8 * (chunk (i + 1)).toNat + 2 ^ 16 * (chunk (i + 2)).toNat +
    2 ^ 24 * (chunk (i + 3)).toNat)

def specialValue (chunk : Int → UInt8) : UInt8 := chunk chunkBlosc2Flags >>> 4 &&& specialMask

def isMemcpyed (chunk : Int → UInt8) : Bool := chunk chunkFlags &&& 0x02 != 0

def isSplit (chunk : Int → UInt8) : Bool := chunk chunkFlags &&& 0x4 != 0

def isLazy (chunk : Int → UInt8) : Bool := chunk chunkBlosc2Flags &&& 0x08 != 0

/-- `chunk_is_zeros`. -/
def chunkIsZeros (chunk : Int → UInt8) : Bool := specialValue chunk == specialZero

/-- The size of a block in the trailer of a lazy chunk. -/
def trailerCsize (chunk : Int → UInt8) (nblock : Nat) : Int :=
  let nbytes := int32At chunk chunkNbytes
  let blocksize := int32At chunk chunkBlocksize
  let nblocks := if nbytes.tmod blocksize = 0 then nbytes.tdiv blocksize
    else nbytes.tdiv blocksize + 1
  let trailer := extendedHeaderLength + 4 * nblocks
  int32At chunk (trailer + 4 + 8 + 4 * nblock)

/-- The loop over the streams of a block. -/
def streamsAreZeros (chunk : Int → UInt8) : Nat → Int → Bool
  | 0, _ => true
  | n + 1, cdata =>
    let csize := int32At chunk cdata
    if csize ≠ 0 then false else streamsAreZeros chunk n (cdata + (4 + csize))

/-- The branch for a chunk that is in memory. -/
def cdataIsZeros (chunk : Int → UInt8) (nblock : Nat) : Bool :=
  let cdata := int32At chunk (extendedHeaderLength + 4 * nblock)
  if isSplit chunk then streamsAreZeros chunk (chunk chunkTypesize).toNat cdata
  else int32At chunk cdata == 0

/-- `block_is_zeros`. -/
def blockIsZeros (chunk : Int → UInt8) (nblock : Nat) : Bool :=
  if isMemcpyed chunk || specialValue chunk != 0 then false
  else if isLazy chunk then trailerCsize chunk nblock == 0
  else cdataIsZeros chunk nblock

/-- The bytes that `blosc2_schunk_get_lazychunk` gives for the chunks of a super-chunk. -/
structure Headers where
  bytes : SChunk → Nat → Int → UInt8

namespace Headers

variable (H : Headers)

def chunkIsZeros (sc : SChunk) (nchunk : Nat) : Bool := IronArray.chunkIsZeros (H.bytes sc nchunk)

def blockIsZeros (sc : SChunk) (nchunk nblock : Nat) : Bool :=
  IronArray.blockIsZeros (H.bytes sc nchunk) nblock

/-! ## What the headers stand for -/

/-- The items of a block are zeros. -/
def ZeroBlock (zero : Cell → Prop) (a : CatArray) (nchunk nblock : Nat) : Prop :=
  ∀ k < a.blockshape.prod, zero (a.sc.chunk nchunk (nblock * a.blockshape.prod + k))

/-- The chunks of the array have been made without the delta filter. -/
def NoDelta (a : CatArray) : Prop :=
  ∀ nchunk < a.nchunks, ∀ i < maxFilters, H.bytes a.sc nchunk (chunkFilterCodes + i) ≠ bloscDelta

/-- The format of the chunks of an array: the special value for zeros, streams of size zero for
zeros in front of the filters, and blocks that are stored in some bytes. -/
structure Documents (zero : Cell → Prop) (a : CatArray) : Prop where
  special : ∀ nchunk < a.nchunks, specialValue (H.bytes a.sc nchunk) = specialZero →
    ∀ nblock < (a.axes.map Axis.blocks).prod, ZeroBlock zero a nchunk nblock
  trailer : ∀ nchunk < a.nchunks, isLazy (H.bytes a.sc nchunk) = true →
    ∀ nblock < (a.axes.map Axis.blocks).prod, 0 < trailerCsize (H.bytes a.sc nchunk) nblock
  streams : ∀ nchunk < a.nchunks, isMemcpyed (H.bytes a.sc nchunk) = false →
    specialValue (H.bytes a.sc nchunk) = 0 → isLazy (H.bytes a.sc nchunk) = false →
    (∀ i < maxFilters, H.bytes a.sc nchunk (chunkFilterCodes + i) ≠ bloscDelta) →
    ∀ nblock < (a.axes.map Axis.blocks).prod,
      cdataIsZeros (H.bytes a.sc nchunk) nblock = true → ZeroBlock zero a nchunk nblock

/-- A header that says so stands for zeros. -/
structure Honest (zero : Cell → Prop) (a : CatArray) : Prop where
  chunk : ∀ nchunk < a.nchunks, H.chunkIsZeros a.sc nchunk = true →
    ∀ nblock < (a.axes.map Axis.blocks).prod, ZeroBlock zero a nchunk nblock
  block : ∀ nchunk < a.nchunks, ∀ nblock < (a.axes.map Axis.blocks).prod,
    H.blockIsZeros a.sc nchunk nblock = true → ZeroBlock zero a nchunk nblock

variable {H} {zero : Cell → Prop} {a : CatArray}

/-- Without the delta filter what the format says is enough. -/
theorem honest_of_documents (h : H.Documents zero a) (hDelta : H.NoDelta a) :
    H.Honest zero a where
  chunk nchunk hq hFlag := h.special nchunk hq (eq_of_beq hFlag)
  block := by
    intro nchunk hq nblock hb hFlag
    unfold blockIsZeros IronArray.blockIsZeros at hFlag
    split at hFlag
    · cases hFlag
    rename_i hStored
    obtain ⟨hMemcpyed, hSpecial⟩ : isMemcpyed (H.bytes a.sc nchunk) = false ∧
        specialValue (H.bytes a.sc nchunk) = 0 := by simpa using hStored
    split at hFlag
    · rename_i hLazy
      exact absurd (eq_of_beq hFlag) (h.trailer nchunk hq hLazy nblock hb).ne'
    · rename_i hLazy
      exact h.streams nchunk hq hMemcpyed hSpecial (by simpa using hLazy) (hDelta nchunk hq) nblock
        hb hFlag

end Headers

end IronArray
