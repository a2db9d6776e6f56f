import IronArray.Expression.Code
import IronArray.Grid.Sums
import IronArray.Iterators.Write

/-!
# The output of an evaluation

Both methods of an evaluation move a block write iterator over their output. Between two rounds the
chunk computed last still lies in a buffer: `IterWriteBlock.shown` is what the array holds once that
buffer is stored. A loop whose rounds compute their chunks leaves all of them in the array:
`evalLoop_ok`.
-/

namespace IronArray

open Grid

/-! ## The iterator between two rounds -/

/-- A container with elements, in an array of its own. -/
structure Filled (c : Container) : Prop where
  plain : Plain c
  pos : ∀ x ∈ c.catarr.axes, 0 < x.shape

/-- A container whose chunks are the blocks of the write iterator. -/
structure Writable (c : Container) : Prop extends Filled c where
  short : ∀ n ∈ c.storage.chunkshape, n < 2 ^ 31

/-- The write iterator of an evaluation: what it stores next is the chunk before `nblock`. -/
structure Placed (c : Container) (external : Bool) (itr : IterWriteBlock) : Prop
    extends Steady c external itr where
  bound : itr.nblock ≤ c.catarr.nchunks
  block : itr.nblock ≠ 0 → itr.compressedChunkBuffer = true ∨
    (itr.curBlockIndex = unflat (c.catarr.axes.map Axis.chunks) (itr.nblock - 1) ∧
      itr.curBlockShape = chunkExtent c.catarr.axes (itr.nblock - 1))

/-- The item that the iterator is about to store at an index of the chunk it leaves. -/
def IterWriteBlock.pending (itr : IterWriteBlock) (x : List Nat) : Cell :=
  let a := itr.cont.catarr
  if itr.compressedChunkBuffer then
    itr.block ((locate a.axes x).nblock * a.blockshape.prod + (locate a.axes x).nitem)
  else itr.block (flat itr.curBlockShape (within (chunkStart a.axes (itr.nblock - 1)) x))

/-- The item at an index once the chunk that the iterator leaves is stored. -/
def IterWriteBlock.shown (itr : IterWriteBlock) (x : List Nat) : Cell :=
  if (locate itr.cont.catarr.axes x).nchunk + 1 = itr.nblock then itr.pending x
  else itr.cont.catarr.get x

/-- The iterator offers chunk `k`. -/
structure IterValue.OfChunk (axes : List Axis) (k : Nat) (v : IterValue) : Prop where
  blockIndex : v.blockIndex = unflat (axes.map Axis.chunks) k
  elemIndex : v.elemIndex = chunkStart axes k
  blockShape : v.blockShape = chunkExtent axes k
  blockSize : v.blockSize = (chunkExtent axes k).prod

section Output

variable {E : Backend} {c : Container} {external : Bool} {itr : IterWriteBlock}

/-- A region of items in an array is what lies in it, and elsewhere what was there. -/
theorem get_replaced {a b : CatArray} {k : Nat} (hPos : ∀ x ∈ a.axes, 0 < x.shape)
    (hk : k < a.nchunks) {items : Nat → Cell}
    (h : Replaced a b (chunkStart a.axes k) (chunkExtent a.axes k) items) {x : List Nat}
    (hx : InBox x a.shape) : b.get x = if (locate a.axes x).nchunk = k
      then items (flat (chunkExtent a.axes k) (within (chunkStart a.axes k) x)) else a.get x := by
  have hRegion := region_chunk hPos hk
  split
  · rename_i hChunk
    obtain ⟨y, hy, hEq⟩ := exists_in_chunk hPos hx
    rw [hChunk] at hy hEq
    have hLen : (chunkStart a.axes k).length = y.length :=
      hRegion.start_length.trans (hRegion.length.symm.trans hy.length_eq.symm)
    rw [← hEq, h.inside y hy, within_addIdx hLen]
  · rename_i hChunk
    apply h.outside x hx
    intro y hy hEq
    apply hChunk
    rw [← hEq, nchunk_addIdx hk hy]

namespace Placed

/-- What is left to store is stored, and nothing else changes. -/
theorem store_ok (hE : E.Lawful) (hOut : Writable c) (h : Placed c external itr)
    (hSome : itr.nblock ≠ 0) : ∃ a, itr.store E = .ok (itr.setArray a) ∧
      PlainOf c.dtshape c.storage (itr.setArray a).cont ∧
      ∀ x, InBox x c.catarr.shape → a.get x = itr.shown x := by
  have hAxes := h.axes_eq hOut.plain
  have hBound := h.bound
  have hFresh := h.cont.plain.fresh
  have hIn : ∀ {x}, InBox x c.catarr.shape → InBox x itr.cont.catarr.shape := by
    intro x hx
    rwa [CatArray.shape, hAxes]
  have hChunk : ∀ x, (locate itr.cont.catarr.axes x).nchunk = itr.nblock - 1 ↔
      (locate itr.cont.catarr.axes x).nchunk + 1 = itr.nblock := by
    intro x
    omega
  rw [IterWriteBlock.store]
  by_cases hCompressed : itr.compressedChunkBuffer
  · rw [if_pos hCompressed]
    refine ⟨_, rfl, ⟨h.cont.plain.setArray (hFresh.updateChunk _ _), h.cont.dtshape,
      h.cont.storage⟩, fun x hx => ?_⟩
    rw [get_updateChunk hFresh.sized hFresh.postfilter (hIn hx), IterWriteBlock.shown,
      IterWriteBlock.pending, if_pos hCompressed]
    exact if_congr (hChunk x) rfl rfl
  · rw [if_neg hCompressed]
    obtain ⟨hIndex, hShape⟩ := (h.block hSome).resolve_left hCompressed
    rw [← hAxes] at hIndex hShape
    have hk : itr.nblock - 1 < itr.cont.catarr.nchunks := by
      rw [CatArray.nchunks, hAxes]
      show itr.nblock - 1 < c.catarr.nchunks
      omega
    have hPos : ∀ x ∈ itr.cont.catarr.axes, 0 < x.shape := by
      rw [hAxes]
      exact hOut.pos
    have hRegion := region_chunk hPos hk
    obtain ⟨a, hSet, hFresh', hReplaced⟩ :=
      setSliceBuffer_replaced hE itr.block hFresh hRegion (chunkExtent_pos hPos hk)
    refine ⟨a, ?_, ⟨h.cont.plain.setArray hFresh', h.cont.dtshape, h.cont.storage⟩,
      fun x hx => ?_⟩
    · have hStart : List.zipWith (· * ·) itr.curBlockIndex itr.cont.catarr.chunkshape =
          chunkStart itr.cont.catarr.axes (itr.nblock - 1) := by
        rw [hIndex]
        rfl
      have hStop : List.zipWith (· + ·) (chunkStart itr.cont.catarr.axes (itr.nblock - 1))
          (chunkExtent itr.cont.catarr.axes (itr.nblock - 1)) =
          addIdx (chunkStart itr.cont.catarr.axes (itr.nblock - 1))
            (chunkExtent itr.cont.catarr.axes (itr.nblock - 1)) := rfl
      simp only [hStart, hShape, hStop, hSet]
    · rw [get_replaced hPos hk hReplaced (hIn hx), IterWriteBlock.shown, IterWriteBlock.pending,
        if_neg hCompressed, hShape]
      exact if_congr (hChunk x) rfl rfl

theorem writeMore_ok (hE : E.Lawful) (hOut : Writable c) (h : Placed c external itr) :
    (itr.nblock = c.catarr.nchunks ∧ ∃ a, writeMore E itr = .ok (itr.setArray a, false) ∧
      PlainOf c.dtshape c.storage (itr.setArray a).cont ∧
      ∀ x, InBox x c.catarr.shape → a.get x = itr.shown x) ∨
    (itr.nblock < c.catarr.nchunks ∧ writeMore E itr = .ok (itr, true)) := by
  rw [writeMore, h.total]
  rcases h.bound.eq_or_lt with hEnd | hLess
  · have hSome : itr.nblock ≠ 0 := by
      rw [hEnd]
      exact (nchunks_pos hOut.pos).1.ne'
    obtain ⟨a, hStore, hCont, hGet⟩ := h.store_ok hE hOut hSome
    rw [if_pos hEnd, hStore]
    exact .inl ⟨hEnd, a, rfl, hCont, hGet⟩
  · rw [if_neg hLess.ne, decide_eq_true hLess]
    exact .inr ⟨hLess, rfl⟩

/-- Before the next chunk the iterator stores the one that it leaves. -/
theorem leave_ok (hE : E.Lawful) (hOut : Writable c) (h : Placed c external itr) :
    ∃ a, itr.leave E = .ok (itr.setArray a) ∧ PlainOf c.dtshape c.storage (itr.setArray a).cont ∧
      ∀ x, InBox x c.catarr.shape → a.get x = itr.shown x := by
  rw [IterWriteBlock.leave]
  split
  · rename_i hFirst
    refine ⟨itr.cont.catarr, ?_, ?_, fun x _ => ?_⟩
    · rw [IterWriteBlock.setArray_self]
    · rw [IterWriteBlock.setArray_self]
      exact h.cont
    · rw [IterWriteBlock.shown, if_neg]
      omega
  · exact h.store_ok hE hOut ‹_›

/-- The iterator moves to the next chunk, with a buffer that holds one. -/
theorem next_ok (hE : E.Lawful) (hOut : Writable c) (hRank : c.catarr.axes ≠ [])
    {w : BlockWriter} (hHold : w.buffers.Hold E c) (h : Placed c w.buffers.external itr)
    (hk : itr.nblock < c.catarr.nchunks) (buffer : Nat → Cell) :
    ∃ itr' value, itr.next E buffer w.buffers.bufsize = .ok (itr', value) ∧
      Placed c w.buffers.external itr' ∧ itr'.nblock = itr.nblock + 1 ∧
      itr'.curBlockShape = chunkExtent c.catarr.axes itr.nblock ∧
      itr'.compressedChunkBuffer = itr.compressedChunkBuffer ∧
      value.OfChunk c.catarr.axes itr.nblock ∧
      ∀ x, InBox x c.catarr.shape → itr'.cont.catarr.get x = itr.shown x := by
  obtain ⟨a, hLeave, hCont, hGet⟩ := h.leave_ok hE hOut
  have hSteady : Steady c w.buffers.external (itr.setArray a) :=
    ⟨hCont, h.blockShape, h.contEshape, h.total, h.external⟩
  obtain ⟨itr₁, hUse, hSame⟩ := useBuffer_ok hOut.plain hHold hSteady buffer
  have hSteady₁ : Steady c w.buffers.external itr₁ := by
    rw [hSame]
    exact ⟨hCont, h.blockShape, h.contEshape, h.total, h.external⟩
  have hNumber : itr₁.nblock = itr.nblock := by
    rw [hSame]
    rfl
  have hArray : itr₁.cont.catarr = a := by
    rw [hSame]
    rfl
  have hFlag : itr₁.compressedChunkBuffer = itr.compressedChunkBuffer := by
    rw [hSame]
    rfl
  have hSeek := seek_ok hOut.plain hOut.pos hRank hSteady₁ hk
  rw [IterWriteBlock.next, hLeave, Result.ok_bind, hUse, Result.ok_bind, hNumber, hSeek]
  refine ⟨_, _, rfl, ⟨⟨hSteady₁.cont, hSteady₁.blockShape, hSteady₁.contEshape, hSteady₁.total,
    hSteady₁.external⟩, ?_, ?_⟩, ?_, rfl, hFlag, ?_, ?_⟩
  · show itr₁.nblock + 1 ≤ c.catarr.nchunks
    omega
  · intro _
    right
    show _ = unflat _ (itr₁.nblock + 1 - 1) ∧ _ = chunkExtent _ (itr₁.nblock + 1 - 1)
    rw [hNumber, Nat.add_sub_cancel]
    exact ⟨rfl, rfl⟩
  · exact congrArg (· + 1) hNumber
  · refine ⟨rfl, ?_, rfl, rfl⟩
    show List.zipWith _ _ itr₁.blockShape = _
    rw [hSteady₁.blockShape]
    rfl
  · intro x hx
    rw [← hGet x hx, ← hArray]

end Placed

/-- The iterator with buffers of its own. -/
theorem Placed.nextOwn_ok (hE : E.Lawful) (hOut : Writable c) (hRank : c.catarr.axes ≠ [])
    (h : Placed c false itr) (hk : itr.nblock < c.catarr.nchunks) :
    ∃ itr' value, itr.next E (fun _ => .bits 0) 0 = .ok (itr', value) ∧
      Placed c false itr' ∧ itr'.nblock = itr.nblock + 1 ∧
      itr'.curBlockShape = chunkExtent c.catarr.axes itr.nblock ∧
      itr'.compressedChunkBuffer = itr.compressedChunkBuffer ∧
      value.OfChunk c.catarr.axes itr.nblock ∧
      ∀ x, InBox x c.catarr.shape → itr'.cont.catarr.get x = itr.shown x := by
  let w : BlockWriter := ⟨.own, fun _ _ _ => .bits 0⟩
  exact Placed.next_ok (w := w) hE hOut hRank trivial h hk fun _ => .bits 0

/-- A chunk with its padding holds a chunk. -/
theorem chunkshape_prod_le (hOut : Writable c) : c.storage.chunkshape.prod ≤
    (c.catarr.axes.map Axis.extchunkshape).prod := by
  rw [← hOut.plain.chunkshape hOut.short, CatArray.chunkshape, chunkshapeOf]
  refine prod_le_of_forall₂ (List.forall₂_map_left_iff.mpr (List.forall₂_map_right_iff.mpr ?_))
  refine List.forall₂_same.mpr fun x hx => ?_
  rw [Axis.extchunkshape, if_neg (hOut.pos x hx).ne']
  exact Axis.chunkshape_le_blocks (hOut.pos x hx)

/-- The iterator with a buffer for a compressed chunk. -/
theorem Placed.nextChunk_ok (hE : E.Lawful) (hOut : Writable c) (hRank : c.catarr.axes ≠ [])
    (h : Placed c true itr) (hk : itr.nblock < c.catarr.nchunks) :
    ∃ itr' value, itr.next E (fun _ => .bits 0) ((c.catarr.axes.map Axis.extchunkshape).prod *
        c.catarr.itemsize + E.maxOverhead) = .ok (itr', value) ∧
      Placed c true itr' ∧ itr'.nblock = itr.nblock + 1 ∧
      value.OfChunk c.catarr.axes itr.nblock ∧
      ∀ x, InBox x c.catarr.shape → itr'.cont.catarr.get x = itr.shown x := by
  let w : BlockWriter := ⟨.caller (fun _ _ => .bits 0) ((c.catarr.axes.map Axis.extchunkshape).prod *
    c.catarr.itemsize + E.maxOverhead) fun _ => true, fun _ _ _ => .bits 0⟩
  have hHold : w.buffers.Hold E c := by
    show c.storage.chunkshape.prod * c.dtshape.dtypeSize + E.maxOverhead ≤ _
    rw [← hOut.plain.fresh.itemsize]
    exact Nat.add_le_add_right (Nat.mul_le_mul_right _ (chunkshape_prod_le hOut)) _
  obtain ⟨itr', value, hNext, hPlaced, hNumber, -, -, hOfChunk, hGet⟩ :=
    Placed.next_ok (w := w) hE hOut hRank hHold h hk fun _ => .bits 0
  exact ⟨itr', value, hNext, hPlaced, hNumber, hOfChunk, hGet⟩

/-! ## The loop -/

/-- The chunks so far hold the values of a function. -/
structure Evaluated (c : Container) (external : Bool) (f : List Nat → Cell) (itr : IterWriteBlock) :
    Prop extends Placed c external itr where
  shown : ∀ x, InBox x c.catarr.shape → (locate c.catarr.axes x).nchunk < itr.nblock →
    itr.shown x = f x

/-- A round that computes its chunk keeps the chunks before it. -/
theorem Evaluated.advance {f : List Nat → Cell} {itr' : IterWriteBlock} (hPlain : Plain c)
    (h : Evaluated c external f itr) (hPlaced : Placed c external itr')
    (hNumber : itr'.nblock = itr.nblock + 1)
    (hGet : ∀ x, InBox x c.catarr.shape → itr'.cont.catarr.get x = itr.shown x)
    (hBlock : ∀ x, InBox x c.catarr.shape → (locate c.catarr.axes x).nchunk = itr.nblock →
      itr'.pending x = f x) : Evaluated c external f itr' where
  toPlaced := hPlaced
  shown := by
    intro x hx hChunk
    rw [IterWriteBlock.shown, hPlaced.axes_eq hPlain, hNumber]
    split
    · exact hBlock x hx (by omega)
    · rw [hGet x hx]
      exact h.shown x hx (by omega)

/-- A loop whose rounds compute their chunks leaves all of them in the array. -/
theorem evalLoop_ok (hE : E.Lawful) (hOut : Writable c) {σ : Type} {f : List Nat → Cell}
    {body : IterWriteBlock → σ → Eval (IterWriteBlock × σ)} {I : IterWriteBlock → σ → Prop}
    (hEvaluated : ∀ itr s, I itr s → Evaluated c external f itr)
    (hBody : ∀ itr s, I itr s → itr.nblock < c.catarr.nchunks →
      ∃ itr' s', (body itr s).outcome = .ok (itr', s') ∧ I itr' s' ∧
        itr'.nblock = itr.nblock + 1)
    {rounds : Nat} {s : σ} (hRounds : itr.nblock + rounds = c.catarr.nchunks) (h : I itr s) :
    ∃ itr' s', (evalLoop E body rounds itr s).outcome = .ok (itr', s') ∧
      PlainOf c.dtshape c.storage itr'.cont ∧
      (∀ x, InBox x c.catarr.shape → itr'.cont.catarr.get x = f x) ∧
      ∃ last, I last s' ∧ last.nblock = c.catarr.nchunks := by
  induction rounds generalizing itr s with
  | zero =>
    have hEnd : itr.nblock = c.catarr.nchunks := hRounds
    have hEval := hEvaluated itr s h
    rcases hEval.writeMore_ok hE hOut with ⟨-, a, hMore, hCont, hGet⟩ | ⟨hLess, -⟩
    · refine ⟨itr.setArray a, s, ?_, hCont, fun x hx => ?_, itr, h, hEnd⟩
      · rw [evalLoop]
        exact Logged.bind_eq_ok.mpr ⟨_, hMore, rfl⟩
      · show a.get x = f x
        rw [hGet x hx]
        apply hEval.shown x hx
        rw [hEnd]
        exact nchunk_lt hx
    · omega
  | succ rounds ih =>
    have hk : itr.nblock < c.catarr.nchunks := by omega
    rcases (hEvaluated itr s h).writeMore_ok hE hOut with ⟨hEnd, -⟩ | ⟨-, hMore⟩
    · omega
    · obtain ⟨itr₁, s₁, hRound, h₁, hNumber⟩ := hBody itr s h hk
      have hLeft : itr₁.nblock + rounds = c.catarr.nchunks := by omega
      obtain ⟨itr', s', hRest, hLast⟩ := ih hLeft h₁
      refine ⟨itr', s', ?_, hLast⟩
      rw [evalLoop]
      exact Logged.bind_eq_ok.mpr ⟨_, hMore, Logged.bind_eq_ok.mpr ⟨_, hRound, hRest⟩⟩

/-- A loop ends with the error of its first round. -/
theorem evalLoop_of_error (hE : E.Lawful) (hOut : Writable c) {σ : Type}
    {body : IterWriteBlock → σ → Eval (IterWriteBlock × σ)} {s : σ} {e : Failure}
    (h : Placed c external itr) (hk : itr.nblock < c.catarr.nchunks)
    (hBody : (body itr s).outcome = .error e) (rounds : Nat) :
    (evalLoop E body (rounds + 1) itr s).outcome = .error e := by
  rcases h.writeMore_ok hE hOut with ⟨hEnd, -⟩ | ⟨-, hMore⟩
  · omega
  · rw [evalLoop]
    exact Logged.bind_eq_error.mpr (.inr ⟨_, hMore, Logged.bind_eq_error.mpr (.inl hBody)⟩)

/-- The write iterator of an evaluation starts in front of the first chunk. -/
theorem placed_new (hOut : Writable c) (hRank : c.catarr.axes ≠ []) (external : Bool) :
    ∃ itr, iarrayIterWriteBlockNew E c c.storage.chunkshape external = .ok itr ∧
      itr.nblock = 0 ∧ itr.compressedChunkBuffer = false ∧ Placed c external itr := by
  obtain ⟨itr, hNew, hFirst, hFlag, hMidway⟩ :=
    @new_ok E c external hOut.plain hOut.short hOut.pos hRank
  exact ⟨itr, hNew, hFirst, hFlag, hMidway.toSteady, hMidway.bound, fun h => absurd hFirst h⟩

/-- An evaluation that fails in its first round fails. -/
theorem evalLoop_refused (hE : E.Lawful) (hOut : Writable c) (hRank : c.catarr.axes ≠ [])
    (external : Bool) {σ : Type} (body : IterWriteBlock → σ → Eval (IterWriteBlock × σ)) (s : σ)
    {e : Failure}
    (hBody : ∀ itr, Placed c external itr → itr.nblock = 0 → (body itr s).outcome = .error e) :
    ∃ itr, iarrayIterWriteBlockNew E c c.storage.chunkshape external = .ok itr ∧
      (evalLoop E body itr.totalBlocks itr s).outcome = .error e := by
  obtain ⟨itr, hNew, hFirst, -, hPlaced⟩ := placed_new (E := E) hOut hRank external
  have hChunks := (nchunks_pos hOut.pos).1
  have hLoop := evalLoop_of_error hE hOut hPlaced (hFirst.trans_lt hChunks) (hBody itr hPlaced hFirst)
    (itr.totalBlocks - 1)
  rw [Nat.sub_add_cancel (hPlaced.total.symm ▸ hChunks)] at hLoop
  exact ⟨itr, hNew, hLoop⟩

end Output

end IronArray
