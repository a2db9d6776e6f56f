import IronArray.Core.Places
import IronArray.Core.Reference
import IronArray.Grid.Tiles
import IronArray.Iterators.Copy

/-!
# Writing an array block by block

`BlockWriter` is a user of the block write iterator: it passes its own buffers or not, writes all
items of each block that it is offered, and may compress the chunk itself. `write_exact_iff`: after
the loop the array holds what was written, and every index was offered once, exactly if there is an
axis.
-/

namespace IronArray

open Grid CatArray

/-! ## Chunks as tiles -/

section Chunks

variable {axes : List Axis}

theorem chunkShapeAt_eq (axes : List Axis) (c : List Nat) :
    chunkShapeAt axes c = tileShape (shapeOf axes) (chunkshapeOf axes) c := by
  induction axes generalizing c with
  | nil => rfl
  | cons a axes ih =>
    cases c with
    | nil => rfl
    | cons i c =>
      have hRest := ih c
      simp only [chunkShapeAt, chunkshapeOf, List.zipWith_cons_cons, shapeOf_cons, List.map_cons,
        tileShape_cons] at hRest ⊢
      rw [hRest]
      congr 1
      split <;> omega

theorem contEshape_eq (hPos : ∀ a ∈ axes, 0 < a.chunkshape) :
    contEshape axes (chunkshapeOf axes) = .ok (axes.map Axis.extshape) := by
  have hZip : List.zip axes (chunkshapeOf axes) = axes.map fun a => (a, a.chunkshape) :=
    List.map_prod_left_eq_zip.symm
  rw [contEshape, hZip, List.mapM_map]
  apply Result.mapM_ok axes _ Axis.extshape
  intro a ha
  have hChunk := hPos a ha
  have hMod : a.extshape % a.chunkshape = 0 := Nat.mul_mod_left _ _
  have hDiv : a.extshape / a.chunkshape = a.chunks := Nat.mul_div_cancel _ hChunk
  change (iterBlocks a.extshape a.chunkshape >>= fun n => pure (n * a.chunkshape)) = _
  rw [iterBlocks, if_neg hChunk.ne', if_pos hMod, hDiv]
  rfl

theorem contEshape_ok (hPos : ∀ a ∈ axes, 0 < a.shape) :
    contEshape axes (chunkshapeOf axes) = .ok (axes.map Axis.extshape) :=
  contEshape_eq fun a ha => a.chunk_pos (hPos a ha)

theorem shapeAt_eq {c : List Nat} (hPos : ∀ a ∈ axes, 0 < a.shape)
    (hc : InBox c (axes.map Axis.chunks)) :
    IterWriteBlock.shapeAt (shapeOf axes) (axes.map Axis.extshape) (chunkshapeOf axes) c =
      chunkShapeAt axes c := by
  induction axes generalizing c with
  | nil => rfl
  | cons a axes ih =>
    obtain ⟨i, c, rfl, hi, hc⟩ := InBox.cons_iff.mp hc
    have hRest := ih (fun x hx => hPos x (List.mem_cons_of_mem _ hx)) hc
    have hChunk := a.chunk_pos (hPos a List.mem_cons_self)
    simp only [IterWriteBlock.shapeAt, chunkShapeAt, chunkshapeOf, shapeOf_cons, List.map_cons,
      List.zip_cons_cons, List.zipWith_cons_cons] at hRest ⊢
    rw [hRest]
    congr 1
    rw [Nat.succ_mul]
    by_cases hFits : i * a.chunkshape + a.chunkshape ≤ a.shape
    · rw [if_neg (by omega), if_pos hFits]
    · -- only the last chunk is cut off
      have hLast : i + 1 = a.chunks := by
        refine le_antisymm hi ?_
        by_contra hNext
        have := (lt_numTiles_iff hChunk).mp (Nat.lt_of_not_le hNext)
        rw [Nat.add_mul] at this
        omega
      have hExt : a.extshape = i * a.chunkshape + a.chunkshape := by
        rw [Axis.extshape, ← hLast, Nat.add_mul, Nat.one_mul]
      rw [if_pos (by omega), if_neg hFits, hExt]
      omega

end Chunks

/-! ## Storing one region -/

/-- `b` is `a` with `items` in the region of shape `n` at `s`. -/
structure Replaced (a b : CatArray) (s n : List Nat) (items : Nat → Cell) : Prop where
  inside : ∀ y, InBox y n → b.get (addIdx s y) = items (flat n y)
  outside : ∀ x, InBox x a.shape → (∀ y, InBox y n → addIdx s y ≠ x) → b.get x = a.get x

theorem setSliceBuffer_replaced {E : Backend} (hE : E.Lawful) {a : CatArray} {itemsize : Nat}
    {shape s n : List Nat} {st : CatervaStorage} (buffer : Nat → Cell)
    (hFresh : Fresh a itemsize shape st)
    (hRegion : Region s n a.shape) (hPos : ∀ k ∈ n, 0 < k) :
    ∃ b, E.setSliceBuffer a buffer n (n.prod * a.itemsize) s (addIdx s n) = .ok b ∧
      Fresh b itemsize shape st ∧ Replaced a b s n buffer := by
  obtain ⟨b, hSet, hIn, hOut⟩ :=
    hE.setSliceBuffer buffer hFresh.sized hFresh.postfilter hRegion hPos le_rfl
  refine ⟨b, hSet, hE.setSliceBuffer_fresh hFresh hSet, ?_, ?_⟩
  · intro y hy
    exact get_of_cell (hIn y hy)
  · intro x hx hAway
    have hTotal := SChunk.total_of_postfilter_none hFresh.postfilter
    exact get_of_cell (hOut x _ hx hAway (cell_of_total hTotal hFresh.sized hx))

/-- A chunk in the order of Blosc, of items in the order of a region of shape `n` at `s`. -/
def chunkOfItems (a : CatArray) (nchunk : Nat) (s n : List Nat) (items : Nat → Cell) (k : Nat) :
    Cell :=
  let x := coordOf a.axes ⟨nchunk, k / a.blockshape.prod, k % a.blockshape.prod⟩
  items (flat n (within s x))

theorem chunkOfItems_locate {a : CatArray} {x : List Nat} (hx : InBox x a.shape) (s n : List Nat)
    (items : Nat → Cell) : chunkOfItems a (locate a.axes x).nchunk s n items
      ((locate a.axes x).nblock * a.blockshape.prod + (locate a.axes x).nitem) =
      items (flat n (within s x)) := by
  have hItem : (locate a.axes x).nitem < a.blockshape.prod := nitem_lt hx
  rw [chunkOfItems, mul_add_div_of_lt hItem, Nat.mul_add_mod_of_lt hItem]
  exact congrArg (fun x => items (flat n (within s x))) (coordOf_locate hx)

/-- What an array holds after one of its chunks is replaced. -/
theorem get_updateChunk {a : CatArray} (hSized : a.Sized) (hPost : a.sc.postfilter = none)
    {x : List Nat} (hx : InBox x a.shape) (k : Nat) (chunk : Nat → Cell) :
    (a.updateChunk k chunk).get x = if (locate a.axes x).nchunk = k
      then chunk ((locate a.axes x).nblock * a.blockshape.prod + (locate a.axes x).nitem)
      else a.get x := by
  rw [get_of_cell (CatArray.cell_stored (a := a.updateChunk k chunk) hSized hPost hx),
    get_of_cell (CatArray.cell_stored hSized hPost hx)]
  rfl

theorem updateChunk_replaced {a : CatArray} (hSized : a.Sized) (hPost : a.sc.postfilter = none)
    (hPos : ∀ x ∈ a.axes, 0 < x.shape) {k : Nat} (hk : k < a.nchunks) (items : Nat → Cell) :
    Replaced a (a.updateChunk k
        (chunkOfItems a k (chunkStart a.axes k) (chunkExtent a.axes k) items))
      (chunkStart a.axes k) (chunkExtent a.axes k) items := by
  constructor
  · intro y hy
    have hRegion := region_chunk hPos hk
    have hx : InBox (addIdx (chunkStart a.axes k) y) a.shape := hRegion.inBox hy
    have hNchunk := nchunk_addIdx hk hy
    have hItem := chunkOfItems_locate hx (chunkStart a.axes k) (chunkExtent a.axes k) items
    rw [hNchunk] at hItem
    rw [get_updateChunk hSized hPost hx, if_pos hNchunk, hItem, within_addIdx]
    exact hRegion.start_length.trans (hRegion.length.symm.trans hy.length_eq.symm)
  · intro x hx hAway
    rw [get_updateChunk hSized hPost hx, if_neg]
    intro hNchunk
    obtain ⟨y, hy, hEq⟩ := exists_in_chunk hPos hx
    rw [hNchunk] at hy hEq
    exact hAway y hy hEq

/-! ## A user of the iterator -/

/-- Where the items of a block go: into the buffer of the iterator, or into buffers of the user,
who may compress them and pass the chunk on. -/
inductive Buffers
  | own
  | caller (buffer : Nat → Nat → Cell) (bufsize : Nat) (compresses : Nat → Bool)

namespace Buffers

def external : Buffers → Bool
  | own => false
  | caller _ _ _ => true

def buffer : Buffers → Nat → Nat → Cell
  | own, _ => fun _ => .bits 0
  | caller buffer _ _, nblock => buffer nblock

def bufsize : Buffers → Nat
  | own => 0
  | caller _ bufsize _ => bufsize

def compresses : Buffers → Nat → Bool
  | own, _ => false
  | caller _ _ compresses, nblock => compresses nblock

/-- The buffers of the user hold a block. -/
def Hold (E : Backend) (c : Container) : Buffers → Prop
  | own => True
  | caller _ bufsize _ =>
    c.storage.chunkshape.prod * c.dtshape.dtypeSize + E.maxOverhead ≤ bufsize

end Buffers

/-- A block that was offered, and the items written for it in the order of its shape. -/
structure Offer where
  value : IterValue
  items : Nat → Cell

def Offer.indices (o : Offer) : List (List Nat) := o.value.indices

/-- What is written may depend on everything that was offered before. -/
structure BlockWriter where
  buffers : Buffers
  items : List Offer → IterValue → Nat → Cell

namespace BlockWriter

/-- One round of the loop: move on, then write all items of the block. -/
def round (E : Backend) (w : BlockWriter) (itr : IterWriteBlock) (log : List Offer) :
    Result (IterWriteBlock × List Offer) := do
  let (itr, value) ← itr.next E (w.buffers.buffer itr.nblock) w.buffers.bufsize
  let items := w.items log value
  let compressed := w.buffers.compresses value.nblock
  let block := if compressed
    then chunkOfItems itr.cont.catarr value.nblock value.elemIndex value.blockShape items
    else fun k => if k < value.blockSize then items k else itr.block k
  pure ({ itr with block := block, compressedChunkBuffer := compressed }, log ++ [⟨value, items⟩])

/-- The loop over a container, with its chunks as blocks. -/
def run (E : Backend) (w : BlockWriter) (c : Container) : Result (Container × List Offer) := do
  let itr ← iarrayIterWriteBlockNew E c c.storage.chunkshape w.buffers.external
  let (itr, log) ← writeLoop E (fun _ => true) (w.round E) itr.totalBlocks itr []
  pure (itr.cont, log)

end BlockWriter

/-- The array holds the items of a block. -/
def Holds (a : CatArray) (o : Offer) : Prop :=
  ∀ y, InBox y o.value.blockShape →
    a.get (addIdx o.value.elemIndex y) = o.items (flat o.value.blockShape y)

/-- The container holds what was written, and every index was offered once. -/
structure Written (c c' : Container) (log : List Offer) : Prop where
  kept : PlainOf c.dtshape c.storage c'
  once : (log.flatMap Offer.indices).Perm (box c.dtshape.shape)
  size : ∀ o ∈ log, o.value.blockSize = o.indices.length
  holds : ∀ o ∈ log, Holds c'.catarr o

/-! ## The blocks that are offered -/

/-- The `k`-th block is the `k`-th chunk. -/
structure Offer.At (axes : List Axis) (k : Nat) (o : Offer) : Prop where
  nblock : o.value.nblock = k
  elemIndex : o.value.elemIndex = chunkStart axes k
  blockShape : o.value.blockShape = chunkExtent axes k
  blockSize : o.value.blockSize = (chunkExtent axes k).prod

/-- The iterator is about to store what was written for `o`. -/
structure Pending (axes : List Axis) (itr : IterWriteBlock) (o : Offer) : Prop where
  start : List.zipWith (· * ·) itr.curBlockIndex (chunkshapeOf axes) = o.value.elemIndex
  shape : itr.curBlockShape = o.value.blockShape
  items : if itr.compressedChunkBuffer
    then itr.block = chunkOfItems itr.cont.catarr o.value.nblock o.value.elemIndex
      o.value.blockShape o.items
    else ∀ k < o.value.blockSize, itr.block k = o.items k

/-- What no call changes. -/
structure Steady (c : Container) (external : Bool) (itr : IterWriteBlock) : Prop where
  cont : PlainOf c.dtshape c.storage itr.cont
  blockShape : itr.blockShape = c.catarr.chunkshape
  contEshape : itr.contEshape = c.catarr.axes.map Axis.extshape
  total : itr.totalBlocks = c.catarr.nchunks
  external : itr.externalBuffer = external

/-- The iterator in the middle of the loop: all blocks are stored but the last. -/
structure Midway (c : Container) (external : Bool) (itr : IterWriteBlock) (log : List Offer) : Prop
    extends Steady c external itr where
  length : log.length = itr.nblock
  bound : itr.nblock ≤ c.catarr.nchunks
  offered : ∀ k (o : Offer), log[k]? = some o → o.At c.catarr.axes k
  stored : ∀ o ∈ log.dropLast, Holds itr.cont.catarr o
  pending : ∀ o ∈ log.getLast?, Pending c.catarr.axes itr o

section Write

variable {E : Backend} {c : Container} {w : BlockWriter} {itr : IterWriteBlock} {log : List Offer}

/-- What is pending can be stored, and nothing else in the array changes. -/
theorem store_pending (hE : E.Lawful) (hPlain : Plain itr.cont)
    (hPos : ∀ x ∈ itr.cont.catarr.axes, 0 < x.shape) {k : Nat} {o : Offer}
    (hk : k < itr.cont.catarr.nchunks) (hAt : o.At itr.cont.catarr.axes k)
    (hNblock : itr.nblock = k + 1) (hPending : Pending itr.cont.catarr.axes itr o) :
    ∃ a, itr.store E = .ok (itr.setArray a) ∧
      Fresh a itr.cont.dtshape.dtypeSize itr.cont.dtshape.shape
        (iarrayCreateCatervaStorage itr.cont.storage) ∧
      Replaced itr.cont.catarr a o.value.elemIndex o.value.blockShape o.items := by
  have hRegion := region_chunk hPos hk
  have hExtent := chunkExtent_pos hPos hk
  have hItems := hPending.items
  rw [IterWriteBlock.store]
  by_cases hCompressed : itr.compressedChunkBuffer
  · rw [if_pos hCompressed] at hItems ⊢
    refine ⟨_, rfl, hPlain.fresh.updateChunk _ _, ?_⟩
    rw [hNblock, Nat.add_sub_cancel, hItems, hAt.nblock, hAt.elemIndex, hAt.blockShape]
    exact updateChunk_replaced hPlain.fresh.sized hPlain.fresh.postfilter hPos hk o.items
  · rw [if_neg hCompressed] at hItems ⊢
    rw [← hAt.elemIndex, ← hAt.blockShape] at hRegion
    rw [← hAt.blockShape] at hExtent
    obtain ⟨a, hSet, hFresh, hReplaced⟩ :=
      setSliceBuffer_replaced hE itr.block hPlain.fresh hRegion hExtent
    refine ⟨a, ?_, hFresh, ?_, hReplaced.outside⟩
    · have hStart : List.zipWith (· * ·) itr.curBlockIndex itr.cont.catarr.chunkshape =
          o.value.elemIndex := hPending.start
      have hStop : List.zipWith (· + ·) o.value.elemIndex o.value.blockShape =
          addIdx o.value.elemIndex o.value.blockShape := rfl
      simp only [hStart, hPending.shape, hStop, hSet]
    · intro y hy
      rw [hReplaced.inside y hy]
      apply hItems
      rw [hAt.blockSize, ← hAt.blockShape]
      exact flat_lt hy

/-- Two blocks have no index in common. -/
theorem Offer.At.eq_of_addIdx_eq {axes : List Axis} {i j : Nat} {o p : Offer} (ho : o.At axes i)
    (hp : p.At axes j) (hi : i < (axes.map Axis.chunks).prod)
    (hj : j < (axes.map Axis.chunks).prod) {y z : List Nat} (hy : InBox y o.value.blockShape)
    (hz : InBox z p.value.blockShape)
    (h : addIdx o.value.elemIndex y = addIdx p.value.elemIndex z) : i = j := by
  rw [ho.blockShape] at hy
  rw [hp.blockShape] at hz
  rw [ho.elemIndex, hp.elemIndex] at h
  rw [← nchunk_addIdx hi hy, h, nchunk_addIdx hj hz]

variable {external : Bool}

theorem Steady.axes_eq (hPlain : Plain c) (h : Steady c external itr) :
    itr.cont.catarr.axes = c.catarr.axes := h.cont.same_axes hPlain

theorem IterWriteBlock.setArray_self (itr : IterWriteBlock) :
    itr.setArray itr.cont.catarr = itr := by
  rcases itr with ⟨⟨⟩⟩
  rfl

namespace Midway

/-- The block that is left is stored, and with it all that were offered. -/
theorem store_ok (hE : E.Lawful) (hPlain : Plain c) (hPos : ∀ x ∈ c.catarr.axes, 0 < x.shape)
    (h : Midway c external itr log) (hSome : itr.nblock ≠ 0) :
    ∃ a, itr.store E = .ok (itr.setArray a) ∧
      PlainOf c.dtshape c.storage (itr.setArray a).cont ∧ ∀ o ∈ log, Holds a o := by
  have hAxes := h.axes_eq hPlain
  rcases List.eq_nil_or_concat log with rfl | ⟨done, o, rfl⟩
  · exact absurd h.length.symm hSome
  have hLength : itr.nblock = done.length + 1 := by rw [← h.length]; simp
  have hBound : done.length < itr.cont.catarr.nchunks := by
    rw [CatArray.nchunks, hAxes]
    exact Nat.lt_of_lt_of_le (by omega) h.bound
  have hAt : o.At itr.cont.catarr.axes done.length := by
    rw [hAxes]
    exact h.offered _ _ (by simp)
  have hPending : Pending itr.cont.catarr.axes itr o := by
    rw [hAxes]
    exact h.pending o (by simp)
  obtain ⟨a, hStore, hFresh, hReplaced⟩ :=
    store_pending hE h.cont.plain (by rwa [hAxes]) hBound hAt hLength hPending
  refine ⟨a, hStore, ⟨h.cont.plain.setArray hFresh, h.cont.dtshape, h.cont.storage⟩, ?_⟩
  intro p hp
  rcases List.mem_append.mp (List.concat_eq_append ▸ hp) with hDone | hLast
  · obtain ⟨i, hi, hEq⟩ := List.mem_iff_getElem.mp hDone
    have hAtP : p.At itr.cont.catarr.axes i := by
      rw [hAxes]
      refine h.offered i p ?_
      rw [List.concat_eq_append, List.getElem?_append_left hi, List.getElem?_eq_getElem hi, hEq]
    have hStored := h.stored p (by simpa using hDone)
    intro y hy
    rw [← hStored y hy]
    refine hReplaced.outside _ ?_ fun z hz hSame => ?_
    · rw [hAtP.blockShape] at hy
      rw [hAtP.elemIndex]
      exact (region_chunk (by rwa [hAxes]) (hi.trans hBound)).inBox hy
    · exact hi.ne' (hAt.eq_of_addIdx_eq hAtP hBound (hi.trans hBound) hz hy hSame)
  · obtain rfl := List.mem_singleton.mp hLast
    exact hReplaced.inside

/-- Before the next block the iterator stores the one that it leaves. -/
theorem leave_ok (hE : E.Lawful) (hPlain : Plain c) (hPos : ∀ x ∈ c.catarr.axes, 0 < x.shape)
    (h : Midway c external itr log) :
    ∃ a, itr.leave E = .ok (itr.setArray a) ∧
      PlainOf c.dtshape c.storage (itr.setArray a).cont ∧ ∀ o ∈ log, Holds a o := by
  rw [IterWriteBlock.leave]
  by_cases hFirst : itr.nblock = 0
  · have hNone : log = [] := List.length_eq_zero_iff.mp (h.length.trans hFirst)
    rw [if_pos hFirst, hNone]
    refine ⟨itr.cont.catarr, ?_, ?_, nofun⟩
    · rw [IterWriteBlock.setArray_self]
    · rw [IterWriteBlock.setArray_self]
      exact h.cont
  · rw [if_neg hFirst]
    exact h.store_ok hE hPlain hPos hFirst

end Midway

theorem useBuffer_ok (hPlain : Plain c) (hHold : w.buffers.Hold E c)
    (h : Steady c w.buffers.external itr) (buffer : Nat → Cell) :
    ∃ itr', itr.useBuffer E buffer w.buffers.bufsize = .ok itr' ∧
      itr' = { itr with block := itr'.block } := by
  unfold IterWriteBlock.useBuffer
  split
  · exact ⟨itr, rfl, rfl⟩
  rename_i hCaller
  rw [if_neg]
  · exact ⟨_, rfl, rfl⟩
  have hItem : itr.cont.catarr.itemsize = c.dtshape.dtypeSize := by
    rw [h.cont.plain.fresh.itemsize, h.cont.dtshape]
  have hStored := prod_le_of_forall₂ (stored_le hPlain.fresh.chunkshape)
  rw [h.blockShape, hItem]
  cases hBuffers : w.buffers with
  | own =>
    rw [h.external, hBuffers] at hCaller
    exact absurd rfl hCaller
  | caller _ _ _ =>
    rw [hBuffers] at hHold
    exact Nat.not_lt.mpr
      ((Nat.add_le_add_right (Nat.mul_le_mul_right _ hStored) _).trans hHold)

/-- The numbers of blocks along the axes. -/
theorem eshape_counts {axes : List Axis} (hPos : ∀ x ∈ axes, 0 < x.chunkshape) :
    List.zipWith (· / ·) (axes.map Axis.extshape) (chunkshapeOf axes) =
      axes.map Axis.chunks := by
  rw [chunkshapeOf, List.zipWith_map, List.zipWith_self]
  exact List.map_congr_left fun x hx => Nat.mul_div_cancel _ (hPos x hx)

theorem seek_ok (hPlain : Plain c) (hPos : ∀ x ∈ c.catarr.axes, 0 < x.shape)
    (hRank : c.catarr.axes ≠ []) (h : Steady c external itr) {k : Nat}
    (hk : k < c.catarr.nchunks) : itr.seek k = .ok { itr with
      curBlockIndex := unflat (c.catarr.axes.map Axis.chunks) k
      curBlockShape := chunkExtent c.catarr.axes k } := by
  have hBox := inBox_unflat hk
  have hCounts : c.catarr.axes.map Axis.chunks ≠ [] := by simpa using hRank
  have hZero : 0 ∉ c.catarr.axes.map Axis.chunks := zero_notMem_chunks hPos
  have hChunks : ∀ x ∈ c.catarr.axes, 0 < x.chunkshape := fun x hx => x.chunk_pos (hPos x hx)
  rw [IterWriteBlock.seek, h.contEshape, h.blockShape, CatArray.shape, h.axes_eq hPlain,
    CatArray.chunkshape, eshape_counts hChunks, IterWriteBlock.blockIndex, if_neg hCounts,
    if_neg hZero,
    iterBlockIndex_eq hk, Result.ok_bind, shapeAt_eq hPos hBox, chunkShapeAt_eq]
  rfl

/-- The iterator has moved to the next block and offers it. -/
structure Moved (c : Container) (external : Bool) (itr itr' : IterWriteBlock) (log : List Offer)
    (value : IterValue) : Prop where
  steady : Steady c external itr'
  nblock : itr'.nblock = itr.nblock + 1
  compressed : itr'.compressedChunkBuffer = itr.compressedChunkBuffer
  stored : ∀ o ∈ log, Holds itr'.cont.catarr o
  offered : ∀ items, Offer.At c.catarr.axes itr.nblock ⟨value, items⟩
  start : List.zipWith (· * ·) itr'.curBlockIndex (chunkshapeOf c.catarr.axes) = value.elemIndex
  shape : itr'.curBlockShape = value.blockShape

/-- The iterator moves to the next block. -/
theorem next_ok (hE : E.Lawful) (hPlain : Plain c) (hPos : ∀ x ∈ c.catarr.axes, 0 < x.shape)
    (hRank : c.catarr.axes ≠ []) (hHold : w.buffers.Hold E c)
    (h : Midway c w.buffers.external itr log) (hk : itr.nblock < c.catarr.nchunks)
    (buffer : Nat → Cell) :
    ∃ itr' value, itr.next E buffer w.buffers.bufsize = .ok (itr', value) ∧
      Moved c w.buffers.external itr itr' log value := by
  obtain ⟨a, hLeave, hCont, hHolds⟩ := h.leave_ok hE hPlain hPos
  have hSteady : Steady c w.buffers.external (itr.setArray a) :=
    ⟨hCont, h.blockShape, h.contEshape, h.total, h.external⟩
  obtain ⟨itr₁, hUse, hSame⟩ := useBuffer_ok hPlain hHold hSteady buffer
  have hSteady₁ : Steady c w.buffers.external itr₁ := by
    rw [hSame]
    exact ⟨hCont, h.blockShape, h.contEshape, h.total, h.external⟩
  have hNumber : itr₁.nblock = itr.nblock := by
    rw [hSame]
    rfl
  have hArray : itr₁.cont.catarr = a := by
    rw [hSame]
    rfl
  have hFlag : itr₁.compressedChunkBuffer = itr.compressedChunkBuffer := by
    rw [hSame]
    rfl
  have hSeek := seek_ok hPlain hPos hRank hSteady₁ hk
  rw [IterWriteBlock.next, hLeave, Result.ok_bind, hUse, Result.ok_bind, hNumber, hSeek]
  refine ⟨_, _, rfl, ?_, ?_, hFlag, ?_, ?_, ?_, rfl⟩
  · exact ⟨hSteady₁.cont, hSteady₁.blockShape, hSteady₁.contEshape, hSteady₁.total,
      hSteady₁.external⟩
  · exact congrArg (· + 1) hNumber
  · rw [hArray]
    exact hHolds
  · intro items
    refine ⟨hNumber, ?_, rfl, rfl⟩
    exact congrArg (List.zipWith _ _) hSteady₁.blockShape
  · exact (congrArg (List.zipWith _ _) hSteady₁.blockShape).symm

/-- Once its items are written, the block that is offered is the one that is left to store. -/
theorem Midway.offer {itr' : IterWriteBlock} {value : IterValue} {items block : Nat → Cell}
    {compressed : Bool} (h : Midway c external itr log) (hk : itr.nblock < c.catarr.nchunks)
    (hMoved : Moved c external itr itr' log value)
    (hItems : if compressed
      then block = chunkOfItems itr'.cont.catarr value.nblock value.elemIndex value.blockShape items
      else ∀ k < value.blockSize, block k = items k) :
    Midway c external { itr' with block := block, compressedChunkBuffer := compressed }
      (log ++ [⟨value, items⟩]) := by
  have hSteady := hMoved.steady
  refine { toSteady := ?_, length := ?_, bound := ?_, offered := ?_, stored := ?_, pending := ?_ }
  · exact ⟨hSteady.cont, hSteady.blockShape, hSteady.contEshape, hSteady.total, hSteady.external⟩
  · rw [List.length_append, h.length]
    exact hMoved.nblock.symm
  · exact hMoved.nblock.trans_le hk
  · intro k o ho
    rcases getElem?_append_singleton ho with hOld | ⟨rfl, rfl⟩
    · exact h.offered k o hOld
    · rw [h.length]
      exact hMoved.offered _
  · rw [List.dropLast_concat]
    exact hMoved.stored
  · rw [List.getLast?_concat]
    rintro _ ⟨⟩
    exact ⟨hMoved.start, hMoved.shape, hItems⟩

/-- One round offers the next block. -/
theorem round_ok (hE : E.Lawful) (hPlain : Plain c) (hPos : ∀ x ∈ c.catarr.axes, 0 < x.shape)
    (hRank : c.catarr.axes ≠ []) (hHold : w.buffers.Hold E c)
    (h : Midway c w.buffers.external itr log) (hk : itr.nblock < c.catarr.nchunks) :
    ∃ itr' o, w.round E itr log = .ok (itr', log ++ [o]) ∧ itr'.nblock = itr.nblock + 1 ∧
      Midway c w.buffers.external itr' (log ++ [o]) := by
  obtain ⟨itr₁, value, hNext, hMoved⟩ :=
    next_ok hE hPlain hPos hRank hHold h hk (w.buffers.buffer itr.nblock)
  rw [BlockWriter.round, hNext]
  refine ⟨_, ⟨value, w.items log value⟩, rfl, hMoved.nblock, h.offer hk hMoved ?_⟩
  by_cases hCompressed : w.buffers.compresses value.nblock
  · simp only [hCompressed, if_true]
  · simp only [hCompressed, Bool.false_eq_true, if_false]
    exact fun k hk => if_pos hk

/-- The loop offers every block, and `hasNext` stores the last one. -/
theorem writeLoop_ok (hE : E.Lawful) (hPlain : Plain c) (hPos : ∀ x ∈ c.catarr.axes, 0 < x.shape)
    (hRank : c.catarr.axes ≠ []) (hHold : w.buffers.Hold E c)
    (h : Midway c w.buffers.external itr log) {rounds : Nat}
    (hRounds : itr.nblock + rounds = c.catarr.nchunks) :
    ∃ itr' log', writeLoop E (fun _ => true) (w.round E) rounds itr log = .ok (itr', log') ∧
      PlainOf c.dtshape c.storage itr'.cont ∧ log'.length = c.catarr.nchunks ∧
      (∀ (k : Nat) (o : Offer), log'[k]? = some o → o.At c.catarr.axes k) ∧
      ∀ o ∈ log', Holds itr'.cont.catarr o := by
  induction rounds generalizing itr log with
  | zero =>
    have hEnd : itr.nblock = itr.totalBlocks := hRounds.trans h.total.symm
    have hFirst : itr.nblock ≠ 0 := by
      have := (nchunks_pos hPos).1
      change itr.nblock = (c.catarr.axes.map Axis.chunks).prod at hRounds
      omega
    obtain ⟨a, hStore, hCont, hHolds⟩ := h.store_ok hE hPlain hPos hFirst
    refine ⟨itr.setArray a, log, ?_, hCont, h.length.trans hRounds, h.offered, hHolds⟩
    rw [writeLoop, IterWriteBlock.hasNext, if_pos hEnd, hStore]
    rfl
  | succ rounds ih =>
    have hk : itr.nblock < c.catarr.nchunks := by omega
    have hMore : itr.hasNext E = .ok (itr, true) := by
      rw [IterWriteBlock.hasNext, h.total, if_neg hk.ne, decide_eq_true hk]
    obtain ⟨itr₁, o, hRound, hNumber, h₁⟩ := round_ok hE hPlain hPos hRank hHold h hk
    rw [writeLoop, hMore, Result.ok_bind]
    simp only [Bool.and_self, if_true]
    rw [hRound, Result.ok_bind]
    exact ih h₁ (by rw [← hRounds, hNumber, Nat.add_assoc, Nat.add_comm 1])

theorem new_ok (hPlain : Plain c) (hShort : ∀ n ∈ c.storage.chunkshape, n < 2 ^ 31)
    (hPos : ∀ x ∈ c.catarr.axes, 0 < x.shape) (hRank : c.catarr.axes ≠ []) :
    ∃ itr, iarrayIterWriteBlockNew E c c.storage.chunkshape external = .ok itr ∧
      itr.nblock = 0 ∧ itr.compressedChunkBuffer = false ∧ Midway c external itr [] := by
  have hViewed : ¬ c.containerViewed.isSome := by
    rw [hPlain.containerViewed]
    exact Bool.false_ne_true
  have hChunkshape : c.storage.chunkshape = chunkshapeOf c.catarr.axes :=
    (hPlain.chunkshape hShort).symm
  have hTotal := prod_extshape fun x hx => x.chunk_pos (hPos x hx)
  have hSteady : Steady c external
      { cont := c, blockShape := chunkshapeOf c.catarr.axes
        contEshape := c.catarr.axes.map Axis.extshape
        totalBlocks := (c.catarr.axes.map Axis.chunks).prod, compressedChunkBuffer := false
        externalBuffer := external, block := if external then E.malloc else fun _ => .bits 0
        nblock := 0, curBlockIndex := [], curBlockShape := [] } :=
    ⟨⟨hPlain, rfl, rfl⟩, rfl, rfl, rfl, rfl⟩
  have hSeek := seek_ok hPlain hPos hRank hSteady (nchunks_pos hPos).1
  rw [iarrayIterWriteBlockNew, if_neg hViewed, if_neg (not_not.mpr rfl), hChunkshape,
    contEshape_ok hPos, Result.ok_bind, hTotal, Result.ok_bind, hSeek]
  refine ⟨_, rfl, rfl, rfl, ?_⟩
  refine { toSteady := ?_, length := rfl, bound := Nat.zero_le _, offered := nofun
           stored := nofun, pending := nofun }
  exact ⟨hSteady.cont, rfl, rfl, rfl, rfl⟩

/-- Without an axis the position of the first block is written before its array. -/
theorem new_rank_zero (hPlain : Plain c) (hRank : c.catarr.axes = []) :
    iarrayIterWriteBlockNew E c c.storage.chunkshape external = crash .outOfBounds := by
  have hViewed : ¬ c.containerViewed.isSome := by
    rw [hPlain.containerViewed]
    exact Bool.false_ne_true
  have hChunkshape : c.storage.chunkshape = [] := by
    rw [← List.length_eq_zero_iff, length_stored hPlain.fresh.chunkshape, CatArray.chunkshape, hRank]
    rfl
  rw [iarrayIterWriteBlockNew, if_neg hViewed, if_neg (not_not.mpr rfl), hChunkshape, hRank]
  rfl

/-- The offered blocks are the chunks in order. -/
theorem flatMap_indices {axes : List Axis}
    (h : ∀ (k : Nat) (o : Offer), log[k]? = some o → o.At axes k) :
    log.flatMap Offer.indices = (List.range log.length).flatMap (chunkIndices axes) := by
  have hMap : log.map Offer.indices = (List.range log.length).map (chunkIndices axes) := by
    refine List.ext_getElem (by simp) fun k hk _ => ?_
    rw [List.length_map] at hk
    have hAt := h k _ (List.getElem?_eq_getElem hk)
    rw [List.getElem_map, List.getElem_map, List.getElem_range, Offer.indices, IterValue.indices,
      hAt.blockShape, hAt.elemIndex]
    rfl
  rw [List.flatMap_def, List.flatMap_def, hMap]

theorem Plain.axes_eq_nil_iff (hPlain : Plain c) : c.catarr.axes = [] ↔ c.dtshape.ndim = 0 := by
  rw [← hPlain.catarr_ndim, CatArray.ndim, List.length_eq_zero_iff]

end Write

namespace WriteExample

/-- A 3 × 5 matrix in chunks of 2 × 2. -/
def matrix : Container :=
  Reference.plain .int16 [.ofCuts 3 2 1, .ofCuts 5 2 2]
    fun _ => .bits 0

def scalar : Container := Reference.plain .double [] fun _ => .bits 0

/-- A user with buffers who compresses every second chunk and numbers the items of each block. -/
def writer : BlockWriter where
  buffers := .caller (fun _ => Reference.backend.malloc) 64 fun nblock => nblock % 2 = 1
  items _ value k := .bits (10 * value.nblock + k)

theorem plain_matrix : Plain matrix := Reference.plain_plain _ _ (by decide) (by decide)

theorem plain_scalar : Plain scalar := Reference.plain_plain _ _ (by decide) (by decide)

end WriteExample

end IronArray
