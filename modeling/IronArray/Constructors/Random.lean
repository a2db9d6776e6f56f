import IronArray.Constructors.Element
import IronArray.Grid.Sums

/-!
# Random blocks

`iarray_constructor_random.c`: every block copies the stream of the context, skips ahead by a
distance that it takes from the numbers of its chunk and its block, and fills a buffer with one
draw for every item of a block. `random_apart_iff` says for which partitions no two elements of the
array share a draw, in whatever order the blocks are generated.
-/

namespace IronArray

open Grid

/-! ## Streams -/

/-- A stream: the item at every position, and the position of the next draw. -/
structure VslStream where
  item : Nat → Cell
  position : Nat

namespace VslStream

/-- `vslCopyStream`. -/
def copy (stream : VslStream) : VslStream := stream

/-- `vslSkipAheadStreamEx`. -/
def skipAhead (stream : VslStream) (nskip : Nat) : VslStream :=
  { stream with position := stream.position + nskip }

/-- A method of the generator: each item takes one position. -/
def generate (stream : VslStream) (n : Nat) : List Cell :=
  (List.range n).map fun k => stream.item (stream.position + k)

end VslStream

/-! ## The generator -/

/-- `random_info.blocksize`, a product of `int32_t`s. -/
def blocksize (storage : Storage) : Nat :=
  (storage.blockshape.map fun n : Nat => toInt32 n).prod.toNat

/-- `random_block_init_fn`: the buffer of the thread. -/
def randomBlockInitFn (stream : VslStream) (array : ConstructorArrayInfo)
    (chunk : ConstructorChunkInfo) (block : ConstructorBlockInfo) : List Cell :=
  let nskip := block.indexInChunkFlat * array.a.catarr.blockshape.prod +
    chunk.indexFlat * array.a.catarr.chunkshape.prod
  (stream.copy.skipAhead nskip).generate (blocksize array.a.storage)

def copyItem (src : List Cell) (srcShape destShape : List Nat) (dest : List Cell)
    (x : List Nat) : Result (List Cell) :=
  match src[flat srcShape x]? with
  | some c =>
    if flat destShape x < dest.length then .ok (dest.set (flat destShape x) c)
    else crash .outOfBounds
  | none => crash .outOfBounds

/-- `caterva_copy_buffer` of a whole source to the first corner of the destination. -/
def catervaCopyBuffer (src : List Cell) (srcShape : List Nat) (dest : List Cell)
    (destShape : List Nat) : Result (List Cell) :=
  (box srcShape).foldlM (copyItem src srcShape destShape) dest

/-- `random_generator_fn`. -/
def randomGeneratorFn (buffer : List Cell) : ConstructorGeneratorFn := fun dest array block => do
  let out ← catervaCopyBuffer buffer block.shape dest array.a.catarr.blockshape
  pure (out, none)

/-- A block of `iarray_random_prefilter`. -/
def randomBlock (E : Backend) (stream : VslStream) (a : Container) (nchunk nblock : Nat) :
    Result (List Cell) := do
  let blockInChunk ← shapeOfBlocks a.catarr.axes
  let chunkInShape ← shapeOfChunks a.catarr.axes
  let chunk := constructorChunkInfo a.catarr.axes chunkInShape blockInChunk nchunk
  iarrayConstructorPrefilter E (fun dest array block =>
    randomGeneratorFn (randomBlockInitFn stream array chunk block) dest array block)
    (constructorArrayInfo a) chunk nblock

/-- Blocks in the order in which the threads come to them. The stream of the context is only ever
copied. -/
def randomBlocks (E : Backend) (stream : VslStream) (a : Container) (order : List (Nat × Nat)) :
    Result (List (List Cell)) :=
  order.mapM fun p => randomBlock E stream a p.1 p.2

/-! ## The copy -/

theorem foldlM_copyItem {src : List Cell} {srcShape destShape : List Nat} {xs : List (List Nat)}
    {dest : List Cell} (hSrc : ∀ x ∈ xs, flat srcShape x < src.length)
    (hDest : ∀ x ∈ xs, flat destShape x < dest.length)
    (hNodup : (xs.map (flat destShape)).Nodup) :
    ∃ out, xs.foldlM (copyItem src srcShape destShape) dest = .ok out ∧
      (∀ k, (∀ x ∈ xs, flat destShape x ≠ k) → out[k]? = dest[k]?) ∧
      ∀ x ∈ xs, out[flat destShape x]? = src[flat srcShape x]? := by
  induction xs generalizing dest with
  | nil => exact ⟨dest, rfl, fun _ _ => rfl, nofun⟩
  | cons x xs ih =>
    have hx := hSrc x List.mem_cons_self
    have hx' := hDest x List.mem_cons_self
    rw [List.map_cons, List.nodup_cons] at hNodup
    obtain ⟨out, hOut, hFrame, hCopied⟩ := @ih (dest.set (flat destShape x) src[flat srcShape x])
      (fun y hy => hSrc y (List.mem_cons_of_mem _ hy))
      (fun y hy => by
        rw [List.length_set]
        exact hDest y (List.mem_cons_of_mem _ hy)) hNodup.2
    refine ⟨out, ?_, ?_, ?_⟩
    · rw [List.foldlM_cons, copyItem, List.getElem?_eq_getElem hx]
      simp only [if_pos hx']
      exact hOut
    · intro k hk
      rw [hFrame k fun y hy => hk y (List.mem_cons_of_mem _ hy),
        List.getElem?_set_ne (hk x List.mem_cons_self)]
    · intro y hy
      rcases List.mem_cons.mp hy with rfl | hy
      · rw [hFrame _ fun z hz hEq => hNodup.1 (List.mem_map.mpr ⟨z, hz, hEq⟩),
          List.getElem?_set_self hx', List.getElem?_eq_getElem hx]
      · exact hCopied y hy

/-- The items of a smaller box land at their places in the larger one. -/
theorem catervaCopyBuffer_ok {src dest : List Cell} {shape destShape : List Nat}
    (hSrc : shape.prod ≤ src.length) (hDest : destShape.prod ≤ dest.length)
    (hIn : ∀ x, InBox x shape → InBox x destShape) :
    ∃ out, catervaCopyBuffer src shape dest destShape = .ok out ∧
      (∀ x, InBox x shape → out[flat destShape x]? = src[flat shape x]?) ∧
      ∀ k, (∀ x, InBox x shape → flat destShape x ≠ k) → out[k]? = dest[k]? := by
  obtain ⟨out, hOut, hFrame, hCopied⟩ := @foldlM_copyItem src shape destShape (box shape) dest
    (fun x hx => (flat_lt (mem_box.mp hx)).trans_le hSrc)
    (fun x hx => (flat_lt (hIn x (mem_box.mp hx))).trans_le hDest)
    ((nodup_box shape).map_on fun x hx y hy h =>
      flat_injective (hIn x (mem_box.mp hx)) (hIn y (mem_box.mp hy)) h)
  exact ⟨out, hOut, fun x hx => hCopied x (mem_box.mpr hx),
    fun k hk => hFrame k fun x hx => hk x (mem_box.mp hx)⟩

/-! ## One block -/

/-- The number of elements in a block of a chunk. -/
def blockCount (axes : List Axis) (nchunk nblock : Nat) : Nat :=
  (partOf axes (unflat (axes.map Axis.chunks) nchunk) (unflat (axes.map Axis.blocks) nblock)).prod

/-- How far a block skips ahead. -/
def blockSkip (axes : List Axis) (nchunk nblock : Nat) : Nat :=
  nblock * (blockshapeOf axes).prod + nchunk * (chunkshapeOf axes).prod

variable {a : Container}

theorem prod_le_of_inBox {ms ns : List Nat} (h : ∀ x, InBox x ms → InBox x ns) :
    ms.prod ≤ ns.prod := by
  have hSub : box ms ⊆ box ns := fun x hx => mem_box.mpr (h x (mem_box.mp hx))
  have hPerm := (List.subperm_of_subset (nodup_box ms) hSub).length_le
  rwa [length_box, length_box] at hPerm

theorem partOf_inBox {axes : List Axis} (nchunk nblock : Nat) (x : List Nat)
    (hx : InBox x (partOf axes (unflat (axes.map Axis.chunks) nchunk)
      (unflat (axes.map Axis.blocks) nblock))) : InBox x (blockshapeOf axes) :=
  ((inBox_partOf (by simp) (by simp)).mp hx).1

/-- A block has room for its elements. -/
theorem blockCount_le (axes : List Axis) (nchunk nblock : Nat) :
    blockCount axes nchunk nblock ≤ (blockshapeOf axes).prod :=
  prod_le_of_inBox (partOf_inBox nchunk nblock)

/-- What a block that is not left alone generates. -/
theorem generate_getElem (stream : VslStream) {n k : Nat} (hk : k < n) :
    (stream.generate n)[k]? = some (stream.item (stream.position + k)) := by
  simp [VslStream.generate, hk]

/-- The elements of a block are the draws behind its skip, in row-major order. -/
theorem randomBlock_ok (E : Backend) (stream : VslStream) (hPlain : Plain a) {nchunk nblock : Nat}
    (hc : nchunk < (a.catarr.axes.map Axis.chunks).prod)
    (hb : nblock < (a.catarr.axes.map Axis.blocks).prod) :
    ∃ out, randomBlock E stream a nchunk nblock = .ok out ∧
      ∀ i, InBox i (partOf a.catarr.axes (unflat (a.catarr.axes.map Axis.chunks) nchunk)
          (unflat (a.catarr.axes.map Axis.blocks) nblock)) →
        out[flat (blockshapeOf a.catarr.axes) i]? = some (stream.item (stream.position +
          (blockSkip a.catarr.axes nchunk nblock +
            flat (partOf a.catarr.axes (unflat (a.catarr.axes.map Axis.chunks) nchunk)
              (unflat (a.catarr.axes.map Axis.blocks) nblock)) i))) := by
  have hShape := CatArray.shape_pos_of_nchunks hc
  have hSize : blocksize a.storage = (blockshapeOf a.catarr.axes).prod := by
    have hStored : (a.storage.blockshape.map fun n : Nat => toInt32 n) =
        ints (blockshapeOf a.catarr.axes) := hPlain.fresh.blockshape.symm
    rw [blocksize, hStored, prod_ints, Int.toNat_natCast]
  rw [randomBlock, shapeOfBlocks_ok hShape,
    shapeOfChunks_ok fun x hx => x.chunk_pos (hShape x hx)]
  simp only [Result.ok_bind, iarrayConstructorPrefilter, constructorArrayInfo]
  rcases constructorBlockInfo_eq hc hb with ⟨hNone, hEmpty⟩ | ⟨stop, -, hSome⟩
  · rw [hNone]
    refine ⟨_, rfl, fun i hi => ?_⟩
    have := flat_lt hi
    omega
  · rw [hSome]
    have hCount := blockCount_le a.catarr.axes nchunk nblock
    let draws := (stream.copy.skipAhead (blockSkip a.catarr.axes nchunk nblock)).generate
      (blockshapeOf a.catarr.axes).prod
    let block := (List.range (blockshapeOf a.catarr.axes).prod).map E.malloc
    have hDraws : blockCount a.catarr.axes nchunk nblock ≤ draws.length := by
      simpa [draws, VslStream.generate] using hCount
    have hBlock : (blockshapeOf a.catarr.axes).prod ≤ block.length := by simp [block]
    obtain ⟨out, hOut, hCopied, -⟩ := catervaCopyBuffer_ok hDraws hBlock (partOf_inBox nchunk nblock)
    refine ⟨out, ?_, fun i hi => ?_⟩
    · simp only [randomGeneratorFn, randomBlockInitFn, hSize]
      show (do
        let out ← (do
          let out ← catervaCopyBuffer draws _ block (blockshapeOf a.catarr.axes)
          pure (out, (none : Option ErrorCode)))
        pure out.1) = _
      rw [hOut]
      rfl
    · rw [hCopied i hi, generate_getElem _ ((flat_lt hi).trans_le hCount)]
      exact congrArg (fun k => some (stream.item k)) (Nat.add_assoc _ _ _)

/-! ## Elements and their draws -/

section Elements

variable (axes : List Axis)

/-- Element `u` of a block, in the row-major order of the block. -/
def elementAt (nchunk nblock u : Nat) : List Nat :=
  joinAll axes (unflat (axes.map Axis.chunks) nchunk) (unflat (axes.map Axis.blocks) nblock)
    (unflat (partOf axes (unflat (axes.map Axis.chunks) nchunk)
      (unflat (axes.map Axis.blocks) nblock)) u)

/-- Element `u` of block `nblock` of chunk `nchunk` exists. -/
structure Occurs (nchunk nblock u : Nat) : Prop where
  chunk : nchunk < (axes.map Axis.chunks).prod
  block : nblock < (axes.map Axis.blocks).prod
  item : u < blockCount axes nchunk nblock

/-- The number of its draw, counted from the beginning of the stream. -/
def drawOf (nchunk nblock u : Nat) : Nat := blockSkip axes nchunk nblock + u

end Elements

section

variable {axes : List Axis} {nchunk nblock u : Nat}

theorem Occurs.located (h : Occurs axes nchunk nblock u) :
    InBox (elementAt axes nchunk nblock u) (shapeOf axes) ∧
      (locate axes (elementAt axes nchunk nblock u)).nchunk = nchunk ∧
      (locate axes (elementAt axes nchunk nblock u)).nblock = nblock ∧
      (locate axes (elementAt axes nchunk nblock u)).nitem =
        flat (blockshapeOf axes) (unflat (partOf axes (unflat (axes.map Axis.chunks) nchunk)
          (unflat (axes.map Axis.blocks) nblock)) u) := by
  obtain ⟨hIn, hLocate⟩ :=
    locate_joinAll (inBox_unflat h.chunk) (inBox_unflat h.block) (inBox_unflat h.item)
  rw [flat_unflat h.chunk, flat_unflat h.block] at hLocate
  rw [elementAt, hLocate]
  exact ⟨hIn, rfl, rfl, rfl⟩

/-- Every element is one of its block. -/
theorem exists_occurs {x : List Nat} (hx : InBox x (shapeOf axes)) :
    ∃ nchunk nblock u, Occurs axes nchunk nblock u ∧ elementAt axes nchunk nblock u = x := by
  obtain ⟨i, hi, hJoin⟩ := exists_item hx
  refine ⟨(locate axes x).nchunk, (locate axes x).nblock, flat _ i,
    ⟨nchunk_lt hx, nblock_lt hx, flat_lt hi⟩, ?_⟩
  rw [elementAt, unflat_flat hi]
  exact hJoin

end

/-! ## A run over several blocks -/

/-- The stream whose items are their own positions. -/
def positions (start : Nat) : VslStream := ⟨Cell.bits, start⟩

def blockOf (axes : List Axis) (x : List Nat) : Nat × Nat :=
  ((locate axes x).nchunk, (locate axes x).nblock)

/-- The element `x` in the block that was generated as number `i`. -/
def drawnAt (axes : List Axis) (outs : List (List Cell)) (i : Nat) (x : List Nat) : Option Cell :=
  outs[i]?.bind fun out => out[(locate axes x).nitem]?

def ValidOrder (axes : List Axis) (order : List (Nat × Nat)) : Prop :=
  ∀ p ∈ order, p.1 < (axes.map Axis.chunks).prod ∧ p.2 < (axes.map Axis.blocks).prod

/-- In whatever order the blocks are generated, no two elements hold the same position of the
stream. -/
def DrawsApart (E : Backend) (a : Container) (start : Nat) : Prop :=
  ∀ order, ValidOrder a.catarr.axes order →
    ∃ outs, randomBlocks E (positions start) a order = .ok outs ∧
      ∀ i j x y, InBox x (shapeOf a.catarr.axes) → InBox y (shapeOf a.catarr.axes) → x ≠ y →
        order[i]? = some (blockOf a.catarr.axes x) → order[j]? = some (blockOf a.catarr.axes y) →
        drawnAt a.catarr.axes outs i x ≠ drawnAt a.catarr.axes outs j y

/-- A run generates every element of its blocks from the draw of that element. -/
theorem randomBlocks_ok (E : Backend) (stream : VslStream) (hPlain : Plain a)
    {order : List (Nat × Nat)} (hOrder : ValidOrder a.catarr.axes order) :
    ∃ outs, randomBlocks E stream a order = .ok outs ∧
      ∀ i nchunk nblock u, order[i]? = some (nchunk, nblock) →
        Occurs a.catarr.axes nchunk nblock u →
        drawnAt a.catarr.axes outs i (elementAt a.catarr.axes nchunk nblock u) =
          some (stream.item (stream.position + drawOf a.catarr.axes nchunk nblock u)) := by
  have hEach : ∀ p ∈ order, ∃ out, randomBlock E stream a p.1 p.2 = .ok out := by
    intro p hp
    obtain ⟨out, hOut, -⟩ := randomBlock_ok E stream hPlain (hOrder p hp).1 (hOrder p hp).2
    exact ⟨out, hOut⟩
  obtain ⟨outs, hOuts⟩ := Result.mapM_succeeds hEach
  refine ⟨outs, hOuts, fun i nchunk nblock u hi hOccurs => ?_⟩
  obtain ⟨hLen, hEach⟩ := List.forall₂_iff_get.mp (Result.mapM_eq_ok hOuts)
  obtain ⟨hLt, hEq⟩ := List.getElem?_eq_some_iff.mp hi
  have hOut := hEach i hLt (hLen ▸ hLt)
  simp only [List.get_eq_getElem, hEq] at hOut
  obtain ⟨out, hOut', hDraws⟩ := randomBlock_ok E stream hPlain hOccurs.chunk hOccurs.block
  have hSame : outs[i]? = some out := by
    rw [List.getElem?_eq_getElem (hLen ▸ hLt)]
    exact congrArg some (Except.ok.inj (hOut.symm.trans hOut'))
  obtain ⟨-, -, -, hItem⟩ := hOccurs.located
  rw [drawnAt, hSame, Option.bind_some, hItem, hDraws _ (inBox_unflat hOccurs.item),
    flat_unflat hOccurs.item]
  rfl

/-! ## Where draws meet -/

/-- Intervals of length `s` from `k * B` and of length `t` from `d + m * B`, neither longer than
`B`: only two differences of `k` and `m` let them meet. -/
theorem intervals_meet {B d k m s t : Nat} (hs : s ≤ B) (ht : t ≤ B) :
    (∃ u < s, ∃ v < t, k * B + u = d + m * B + v) ↔
      0 < t ∧ (k = m + d / B ∧ d % B < s ∨ 0 < s ∧ k = m + d / B + 1 ∧ B < d % B + t) := by
  have hDiv : d / B * B + d % B = d := Nat.div_add_mod' d B
  have hMul : (m + d / B) * B = m * B + d / B * B := Nat.add_mul _ _ _
  constructor
  · rintro ⟨u, hu, v, hv, hEq⟩
    have hMod : d % B < B := Nat.mod_lt _ (by omega)
    refine ⟨by omega, ?_⟩
    rcases Nat.lt_trichotomy k (m + d / B) with hLt | hSame | hGt
    · have := Nat.mul_le_mul_right B (Nat.succ_le_of_lt hLt)
      rw [Nat.succ_mul] at this
      omega
    · subst hSame
      exact .inl ⟨rfl, by omega⟩
    · by_cases hNext : k = m + d / B + 1
      · subst hNext
        rw [Nat.succ_mul] at hEq
        exact .inr ⟨by omega, rfl, by omega⟩
      · have := Nat.mul_le_mul_right B (show m + d / B + 2 ≤ k by omega)
        rw [Nat.add_mul] at this
        omega
  · rintro ⟨hPos, ⟨rfl, hLt⟩ | ⟨hPos', rfl, hLt⟩⟩
    · exact ⟨d % B, hLt, 0, hPos, by omega⟩
    · have hMod : d % B < B := Nat.mod_lt _ (by omega)
      refine ⟨0, hPos', B - d % B, by omega, ?_⟩
      rw [Nat.succ_mul]
      omega

/-- Block `nblock` of a later chunk lies `d` draws and `nblock` blocks behind the first block of
chunk `nchunk`: of the blocks of that chunk, two can reach its draws. Neither does. -/
def Apart (axes : List Axis) : Prop :=
  ∀ c c' k, c < c' → c' < (axes.map Axis.chunks).prod → k < (axes.map Axis.blocks).prod →
    0 < blockCount axes c' k →
    let d := (c' - c) * (chunkshapeOf axes).prod
    let B := (blockshapeOf axes).prod
    (k + d / B < (axes.map Axis.blocks).prod → blockCount axes c (k + d / B) ≤ d % B) ∧
      (k + d / B + 1 < (axes.map Axis.blocks).prod → 0 < blockCount axes c (k + d / B + 1) →
        d % B + blockCount axes c' k ≤ B)

section

variable {axes : List Axis}

/-- Two elements of different chunks share a draw exactly where the criterion fails. -/
theorem apart_iff : Apart axes ↔ ∀ c c' k k' u u', c < c' → Occurs axes c k u →
    Occurs axes c' k' u' → drawOf axes c k u ≠ drawOf axes c' k' u' := by
  have hSplit : ∀ {c c' k k' u u' : Nat}, c < c' →
      (drawOf axes c k u = drawOf axes c' k' u' ↔ k * (blockshapeOf axes).prod + u =
        (c' - c) * (chunkshapeOf axes).prod + k' * (blockshapeOf axes).prod + u') := by
    intro c c' k k' u u' hc
    have : c' * (chunkshapeOf axes).prod = (c' - c) * (chunkshapeOf axes).prod +
        c * (chunkshapeOf axes).prod := by
      rw [← Nat.add_mul, Nat.sub_add_cancel hc.le]
    rw [drawOf, drawOf, blockSkip, blockSkip]
    omega
  constructor
  · intro hApart c c' k k' u u' hc h h' hEq
    have hMeet := (intervals_meet (blockCount_le axes c k) (blockCount_le axes c' k')).mp
      ⟨u, h.item, u', h'.item, (hSplit hc).mp hEq⟩
    obtain ⟨hSame, hNext⟩ := hApart c c' k' hc h'.chunk h'.block hMeet.1
    rcases hMeet.2 with ⟨rfl, hLt⟩ | ⟨hPos, rfl, hLt⟩
    · have := hSame h.block
      omega
    · have := hNext h.block hPos
      omega
  · intro hDraws c c' k' hc hc' hk' hPos
    have hNone : ∀ k < (axes.map Axis.blocks).prod, ¬ (k = k' +
        (c' - c) * (chunkshapeOf axes).prod / (blockshapeOf axes).prod ∧
        (c' - c) * (chunkshapeOf axes).prod % (blockshapeOf axes).prod < blockCount axes c k ∨
        0 < blockCount axes c k ∧ k = k' +
        (c' - c) * (chunkshapeOf axes).prod / (blockshapeOf axes).prod + 1 ∧
        (blockshapeOf axes).prod < (c' - c) * (chunkshapeOf axes).prod %
          (blockshapeOf axes).prod + blockCount axes c' k') := by
      intro k hk hMeets
      obtain ⟨u, hu, v, hv, hEq⟩ := (intervals_meet (blockCount_le axes c k)
        (blockCount_le axes c' k')).mpr ⟨hPos, hMeets⟩
      exact hDraws c c' k k' u v hc ⟨hc.trans hc', hk, hu⟩ ⟨hc', hk', hv⟩ ((hSplit hc).mpr hEq)
    refine ⟨fun hk => ?_, fun hk hCount => ?_⟩
    · by_contra hLt
      exact hNone _ hk (.inl ⟨rfl, by omega⟩)
    · by_contra hLt
      exact hNone _ hk (.inr ⟨hCount, rfl, by omega⟩)

/-- Two blocks of one chunk never share a draw. -/
theorem drawOf_injective {c k k' u u' : Nat} (h : Occurs axes c k u) (h' : Occurs axes c k' u')
    (hEq : drawOf axes c k u = drawOf axes c k' u') : k = k' ∧ u = u' := by
  have hu := h.item.trans_le (blockCount_le axes c k)
  have hu' := h'.item.trans_le (blockCount_le axes c k')
  have hDraw : k * (blockshapeOf axes).prod + u = k' * (blockshapeOf axes).prod + u' := by
    simp only [drawOf, blockSkip] at hEq
    omega
  have hBlock : k = k' := by
    rw [← mul_add_div_of_lt (x := k) hu, ← mul_add_div_of_lt (x := k') hu', hDraw]
  subst hBlock
  exact ⟨rfl, by omega⟩

/-- It is enough that the elements of every chunk stay within the share of their chunk. -/
theorem apart_of_within (h : ∀ c k u, Occurs axes c k u →
    k * (blockshapeOf axes).prod + u < (chunkshapeOf axes).prod) : Apart axes := by
  refine apart_iff.mpr fun c c' k k' u u' hc hOccurs _ hEq => ?_
  have hWithin := h c k u hOccurs
  have hNext := Nat.mul_le_mul_right (chunkshapeOf axes).prod (Nat.succ_le_of_lt hc)
  rw [Nat.succ_mul] at hNext
  simp only [drawOf, blockSkip] at hEq
  omega

theorem prod_blocks_of_dvd (hShape : ∀ x ∈ axes, 0 < x.shape)
    (hDvd : ∀ x ∈ axes, x.blockshape ∣ x.chunkshape) :
    (axes.map Axis.blocks).prod * (blockshapeOf axes).prod = (chunkshapeOf axes).prod := by
  induction axes with
  | nil => rfl
  | cons x axes ih =>
    rw [List.forall_mem_cons] at hShape hDvd
    simp only [List.map_cons, blockshapeOf_cons, chunkshapeOf, List.prod_cons]
    rw [Nat.mul_mul_mul_comm, ih hShape.2 hDvd.2, Axis.blocks_mul_of_dvd hShape.1 hDvd.1]
    rfl

/-- Blocks that tile their chunks keep their draws apart. -/
theorem apart_of_dvd (hDvd : ∀ x ∈ axes, x.blockshape ∣ x.chunkshape) : Apart axes := by
  refine apart_of_within fun c k u h => ?_
  have hTiled := prod_blocks_of_dvd (CatArray.shape_pos_of_nchunks h.chunk) hDvd
  have hItem := h.item.trans_le (blockCount_le axes c k)
  have hBlock := Nat.mul_le_mul_right (blockshapeOf axes).prod (Nat.succ_le_of_lt h.block)
  rw [Nat.succ_mul] at hBlock
  omega

/-- So do all blocks along a single axis. -/
theorem apart_of_single (x : Axis) : Apart [x] := by
  refine apart_of_within fun c k u h => ?_
  have hItem := h.item
  have hPart := x.part_le c
  simp only [blockCount, List.map_cons, List.map_nil, unflat_cons, unflat_nil, List.prod_nil,
    Nat.div_one, partOf, List.prod_cons, Nat.mul_one, Axis.nitems_eq] at hItem
  simp only [blockshapeOf, chunkshapeOf, List.map_cons, List.map_nil, List.prod_cons,
    List.prod_nil, Nat.mul_one]
  omega

end

/-- No two elements share a draw, in whatever order the blocks are generated, exactly where no
block of a chunk reaches into the draws of a later chunk. -/
theorem random_apart_iff (E : Backend) (hPlain : Plain a) (start : Nat) :
    DrawsApart E a start ↔ Apart a.catarr.axes := by
  constructor
  · intro hApart
    refine apart_iff.mpr fun c c' k k' u u' hc h h' hEq => ?_
    have hOrder : ValidOrder a.catarr.axes [(c, k), (c', k')] := by
      intro p hp
      rcases List.mem_pair.mp hp with rfl | rfl
      · exact ⟨h.chunk, h.block⟩
      · exact ⟨h'.chunk, h'.block⟩
    obtain ⟨outs, hOuts, hDrawn⟩ := randomBlocks_ok E (positions start) hPlain hOrder
    obtain ⟨outs', hOuts', hApart⟩ := hApart _ hOrder
    obtain rfl := Except.ok.inj (hOuts.symm.trans hOuts')
    obtain ⟨hx, hChunk, hBlock, -⟩ := h.located
    obtain ⟨hx', hChunk', hBlock', -⟩ := h'.located
    refine hApart 0 1 _ _ hx hx' (fun hSame => ?_) ?_ ?_ ?_
    · rw [hSame, hChunk'] at hChunk
      omega
    · rw [blockOf, hChunk, hBlock]
      rfl
    · rw [blockOf, hChunk', hBlock']
      rfl
    · rw [hDrawn 0 c k u rfl h, hDrawn 1 c' k' u' rfl h', hEq]
  · intro hApart order hOrder
    obtain ⟨outs, hOuts, hDrawn⟩ := randomBlocks_ok E (positions start) hPlain hOrder
    refine ⟨outs, hOuts, fun i j x y hx hy hNe hi hj hEq => ?_⟩
    obtain ⟨c, k, u, h, rfl⟩ := exists_occurs hx
    obtain ⟨c', k', u', h', rfl⟩ := exists_occurs hy
    obtain ⟨-, hChunk, hBlock, -⟩ := h.located
    obtain ⟨-, hChunk', hBlock', -⟩ := h'.located
    rw [blockOf, hChunk, hBlock] at hi
    rw [blockOf, hChunk', hBlock'] at hj
    rw [hDrawn i c k u hi h, hDrawn j c' k' u' hj h', Option.some_inj] at hEq
    have hDraw : drawOf a.catarr.axes c k u = drawOf a.catarr.axes c' k' u' :=
      Nat.add_left_cancel (Cell.bits.inj hEq)
    rcases Nat.lt_trichotomy c c' with hc | rfl | hc
    · exact apart_iff.mp hApart c c' k k' u u' hc h h' hDraw
    · obtain ⟨rfl, rfl⟩ := drawOf_injective h h' hDraw
      exact hNe rfl
    · exact apart_iff.mp hApart c' c k' k u' u hc h' h hDraw.symm

namespace DrawExample

def tiled : List Axis :=
  [.ofCuts 6 4 2, .ofCuts 6 3 3]

/-- Chunks of nine elements in blocks of four. -/
def padded : List Axis :=
  [.ofCuts 3 3 2, .ofCuts 6 3 2]

def array (axes : List Axis) : Container := Reference.plain .int64 axes fun _ => .bits 0

theorem validOrder : ValidOrder padded [(0, 2), (1, 0)] := by
  unfold ValidOrder
  decide

/-- The third block of the first chunk starts at draw eight and holds two elements. -/
theorem occurs : Occurs padded 0 2 1 := ⟨by decide, by decide, by decide⟩

/-- The second chunk starts at draw nine. -/
theorem occurs' : Occurs padded 1 0 0 := ⟨by decide, by decide, by decide⟩

end DrawExample

theorem random_apart_tiled : DrawsApart Reference.backend (DrawExample.array DrawExample.tiled) 5 :=
  (random_apart_iff _ (Reference.plain_plain _ _ (by decide) (by decide)) 5).mpr
    (apart_of_dvd (show ∀ x ∈ DrawExample.tiled, x.blockshape ∣ x.chunkshape by decide))

/-- Draw nine is used twice. -/
theorem random_apart_fails :
    ¬ DrawsApart Reference.backend (DrawExample.array DrawExample.padded) 0 := by
  intro h
  have hPlain : Plain (DrawExample.array DrawExample.padded) :=
    Reference.plain_plain _ _ (by decide) (by decide)
  obtain ⟨outs, hOuts, hApart⟩ := h [(0, 2), (1, 0)] DrawExample.validOrder
  obtain ⟨outs', hOuts', hDrawn⟩ := randomBlocks_ok Reference.backend (positions 0) hPlain
    DrawExample.validOrder
  obtain rfl := Except.ok.inj (hOuts.symm.trans hOuts')
  have hx := hDrawn 0 0 2 1 rfl DrawExample.occurs
  have hy := hDrawn 1 1 0 0 rfl DrawExample.occurs'
  exact hApart 0 1 _ _ DrawExample.occurs.located.1 DrawExample.occurs'.located.1 (by decide) rfl rfl
    (hx.trans hy.symm)

end IronArray
