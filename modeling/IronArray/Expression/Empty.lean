import IronArray.Expression.Operands
import IronArray.Iterators.Empty

/-!
# Arrays without elements or without axes

Both methods of an evaluation write their output with the block write iterator. It divides by the
number of blocks along each axis and writes the position along the last axis without checking that
there is one. `zeroLength_safe_iff`: the iterators and evaluations over an array are free of that
exactly if it has an axis and elements.
-/

namespace IronArray

open Grid

/-! ## Computations without undefined behaviour -/

/-- An access behind the end of a table or of a chunk. -/
def Access.Behind : Access → Prop
  | table t i => t.size ≤ i
  | chunk c _ start nbytes => c.catarr.chunkBytes < start + nbytes
  | _ => False

/-- The only undefined behaviour is an access behind the end of a table or of a chunk. -/
def Tame {α : Type} (x : Eval α) : Prop :=
  ∀ u, x.outcome = crash u → u = .outOfBounds ∧ ∃ a ∈ x.log, a.Behind

namespace Tame

variable {α β : Type}

theorem of_ok {x : Eval α} {a : α} (h : x.outcome = .ok a) : Tame x := by
  intro u hu
  rw [h] at hu
  cases hu

theorem pure (a : α) : Tame (Pure.pure a : Eval α) := of_ok rfl

theorem refuse (e : ErrorCode) : Tame (IronArray.refuse e : Eval α) := by
  intro u hu
  cases hu

theorem lift {r : Result α} (h : ∀ u, r ≠ crash u) : Tame (liftM r : Eval α) :=
  fun u hu => absurd hu (h u)

theorem bind {x : Eval α} {f : α → Eval β} (hx : Tame x)
    (hf : ∀ a, x.outcome = .ok a → Tame (f a)) : Tame (x >>= f) := by
  intro u hu
  cases h : x.outcome with
  | ok a =>
    rw [Logged.bind_of_ok h] at hu ⊢
    obtain ⟨hKind, b, hb, hBehind⟩ := hf a h u hu
    exact ⟨hKind, b, List.mem_append_right _ hb, hBehind⟩
  | error e =>
    rw [Logged.bind_of_error h] at hu ⊢
    have hKind : e = .undefined u := Except.error.inj hu
    exact hx u (h.trans (congrArg Except.error hKind))

theorem mapM {xs : List α} {f : α → Eval β} (h : ∀ a ∈ xs, Tame (f a)) : Tame (xs.mapM f) := by
  induction xs with
  | nil => exact pure []
  | cons a xs ih =>
    obtain ⟨hHead, hTail⟩ := List.forall_mem_cons.mp h
    rw [List.mapM_cons]
    exact hHead.bind fun b _ => (ih hTail).bind fun bs _ => pure (b :: bs)

theorem forM {xs : List α} {f : α → Eval Unit} (h : ∀ a ∈ xs, Tame (f a)) : Tame (forM xs f) := by
  induction xs with
  | nil => exact pure ()
  | cons a xs ih =>
    obtain ⟨hHead, hTail⟩ := List.forall_mem_cons.mp h
    rw [List.forM_cons]
    exact hHead.bind fun _ _ => ih hTail

end Tame

theorem Table.index_tame (t : Table) (i : Nat) : Tame (t.index i) := by
  intro u hu
  have hu : (if i < t.size then .ok () else crash .outOfBounds : Result Unit) = crash u := hu
  split at hu
  · cases hu
  · cases hu
    exact ⟨rfl, _, List.mem_singleton_self _, Nat.not_lt.mp ‹_›⟩

theorem Table.each_tame (t : Table) (n : Nat) : Tame (t.each n) :=
  .forM fun i _ => t.index_tame i

/-! ## Blocks -/

section Block

variable {E : Backend} {p : ExprPparams} {nblock : Nat}

theorem getitem_defined {c : Container} (hPlain : Plain c) (hPos : ∀ x ∈ c.catarr.axes, 0 < x.shape)
    (nchunk start nitems destsize : Nat) (u : Undefined) :
    c.catarr.sc.getitem nchunk start nitems destsize ≠ crash u := by
  have hItems : 0 < c.catarr.sc.blockitems := by
    rw [hPlain.fresh.sized.blockitems]
    exact prod_pos_of_forall (forall_map_pos hPos fun x => x.block_pos)
  unfold SChunk.getitem
  split
  · intro hCrash
    cases hCrash
  · have hItem : ∀ j, ∃ x, (do
        let b ← c.catarr.sc.block nchunk ((start + j) / c.catarr.sc.blockitems)
        SChunk.itemOfBlock b ((start + j) % c.catarr.sc.blockitems)) = Except.ok x := by
      intro j
      obtain ⟨b, hb, hLen⟩ := SChunk.total_of_postfilter_none hPlain.fresh.postfilter nchunk
        ((start + j) / c.catarr.sc.blockitems)
      have hLess : (start + j) % c.catarr.sc.blockitems < b.length := by
        rw [hLen]
        exact Nat.mod_lt _ hItems
      refine ⟨b[(start + j) % c.catarr.sc.blockitems], ?_⟩
      rw [hb, Result.ok_bind, SChunk.itemOfBlock, List.getElem?_eq_getElem hLess]
    obtain ⟨items, hAll⟩ := Result.mapM_succeeds fun j (_ : j ∈ List.range nitems) => hItem j
    rw [hAll]
    intro hCrash
    cases hCrash

theorem getitemCtx_tame {c : Container} (hPlain : Plain c) (hPos : ∀ x ∈ c.catarr.axes, 0 < x.shape)
    (nchunk start nitems destsize : Nat) : Tame (getitemCtx c nchunk start nitems destsize) := by
  unfold getitemCtx
  split
  · exact .refuse _
  · split
    · exact .refuse _
    · intro u hu
      exact absurd hu (getitem_defined hPlain hPos _ _ _ _ u)

theorem rawChunk_tame (c : Container) (nchunk start nbytes : Nat) :
    Tame (rawChunk c nchunk start nbytes) := by
  intro u hu
  have hu : (if start + nbytes ≤ c.catarr.chunkBytes then _ else crash .outOfBounds :
    Result Pointer) = crash u := hu
  split at hu
  · cases hu
  · cases hu
    exact ⟨rfl, _, List.mem_singleton_self _, Nat.not_le.mp ‹_›⟩

theorem prefilterInput_tame {x : (Container × ExprInput) × Nat} (hx : Filled x.1.1) :
    Tame (prefilterInput p nblock x) := by
  obtain ⟨⟨c, input⟩, i⟩ := x
  refine (Table.index_tame _ _).bind fun _ _ => ?_
  refine (Table.index_tame _ _).bind fun _ _ => ?_
  refine (Table.index_tame _ _).bind fun _ _ => ?_
  refine (Table.index_tame _ _).bind fun _ _ => ?_
  cases input with
  | eqNcomp nchunk => exact rawChunk_tame _ _ _ _
  | eq nchunk =>
    refine (Table.index_tame _ _).bind fun _ _ => ?_
    refine (Table.index_tame _ _).bind fun _ _ => ?_
    refine (getitemCtx_tame hx.plain hx.pos _ _ _ _).bind fun _ _ => ?_
    split
    · exact .refuse _
    · exact .pure _
  | neq buffer => exact .pure _

theorem window_defined {axes : List Axis} (hne : axes ≠ []) (hPos : ∀ a ∈ axes, 0 < a.shape)
    (blockIndex : List Nat) (nblock : Nat) : ∃ w, window axes blockIndex nblock = .ok w := by
  have hItems : (blockshapeOf axes).prod ≠ 0 :=
    (prod_pos_of_forall (forall_map_pos hPos fun a => a.block_pos)).ne'
  rw [window, if_neg hne, shapeOfBlocks_ok hPos, Result.ok_bind, idiv, if_neg hItems]
  exact ⟨_, rfl⟩

theorem callExpr_defined {e : Expression} (h : e.exprFunc.isSome) (pparams : EvalPparams)
    (out : Nat → Cell) (u : Undefined) : callExpr e pparams out ≠ crash u := by
  obtain ⟨func, hFunc⟩ := Option.isSome_iff_exists.mp h
  simp only [callExpr, hFunc]
  split
  · exact nofun
  · exact nofun

theorem prefilterFunc_tame (hOut : Filled p.out) (hRank : p.out.catarr.axes ≠ [])
    (hFunc : p.e.exprFunc.isSome) (hInputs : ∀ x ∈ p.inputs, Filled x.1) :
    Tame (prefilterFunc E p nblock) := by
  refine (Table.each_tame _ _).bind fun _ _ => ?_
  refine (Table.each_tame _ _).bind fun _ _ => ?_
  refine Tame.bind ?_ fun _ _ => ?_
  · obtain ⟨w, hw⟩ := window_defined hRank hOut.pos p.blockIndex nblock
    exact .of_ok hw
  refine (Tame.mapM fun x hx => prefilterInput_tame
    (hInputs x.1 (List.fst_mem_of_mem_zipIdx hx))).bind fun _ _ => ?_
  refine (Table.each_tame _ _).bind fun _ _ => ?_
  refine (Table.each_tame _ _).bind fun _ _ => ?_
  refine (Tame.lift fun u => callExpr_defined hFunc _ _ u).bind fun _ _ => ?_
  exact (Table.each_tame _ _).bind fun _ _ => .pure _

theorem compressChunk_tame (hOut : Filled p.out) (hRank : p.out.catarr.axes ≠ [])
    (hFunc : p.e.exprFunc.isSome) (hInputs : ∀ x ∈ p.inputs, Filled x.1) :
    Tame (compressChunk E p) := by
  have hBlocks : Tame ((List.range ((p.out.catarr.axes.map Axis.extchunkshape).prod /
      p.out.catarr.blockshape.prod)).mapM (prefilterFunc E p)) :=
    .mapM fun nblock _ => prefilterFunc_tame hOut hRank hFunc hInputs
  intro u hu
  apply hBlocks
  unfold compressChunk at hu
  dsimp only at hu
  split at hu
  · cases hu
  · cases hu
  · cases hu
    assumption

end Block

/-! ## The output -/

/-- An invariant under which the write iterator of an evaluation has no undefined behaviour. Each
round leaves a block in the iterator, compressed or as the iterator had it. -/
structure Outputs (E : Backend) (bufsize : Nat) (compresses : Bool) (I : IterWriteBlock → Prop) :
    Prop where
  more : ∀ {itr}, I itr → ∀ u, writeMore E itr ≠ crash u
  next : ∀ {itr}, I itr → itr.nblock < itr.totalBlocks →
    ∀ u, itr.next E (fun _ => .bits 0) bufsize ≠ crash u
  keeps : ∀ {itr itr' value}, I itr → itr.nblock < itr.totalBlocks →
    itr.next E (fun _ => .bits 0) bufsize = .ok (itr', value) → ∀ block,
      I { itr' with
        block := block, compressedChunkBuffer := compresses || itr'.compressedChunkBuffer }

section Output

variable {E : Backend} {c : Container} {bufsize : Nat} {compresses : Bool}
  {I : IterWriteBlock → Prop}

theorem Placed.more_defined (hE : E.Lawful) (hOut : Writable c) {external : Bool}
    {itr : IterWriteBlock} (h : Placed c external itr) (u : Undefined) :
    writeMore E itr ≠ crash u := by
  rcases h.writeMore_ok hE hOut with ⟨-, a, hMore, -⟩ | ⟨-, hMore⟩
  · exact Result.ne_crash_of_ok hMore u
  · exact Result.ne_crash_of_ok hMore u

/-- The iterator with buffers of its own, over chunks that are its blocks. -/
theorem placed_outputsOwn (hE : E.Lawful) (hOut : Writable c) (hRank : c.catarr.axes ≠ []) :
    Outputs E 0 false (Placed c false) where
  more h := h.more_defined hE hOut
  next h hk u := by
    obtain ⟨itr', value, hNext, -⟩ := h.nextOwn_ok hE hOut hRank (h.total ▸ hk)
    exact Result.ne_crash_of_ok hNext u
  keeps h hk hOk block := by
    obtain ⟨itr', value, hNext, hPlaced, -⟩ := h.nextOwn_ok hE hOut hRank (h.total ▸ hk)
    cases hNext.symm.trans hOk
    exact ⟨⟨hPlaced.cont, hPlaced.blockShape, hPlaced.contEshape, hPlaced.total,
      hPlaced.external⟩, hPlaced.bound, hPlaced.block⟩

/-- The iterator with buffers for compressed chunks, over chunks that are its blocks. -/
theorem placed_outputsChunk (hE : E.Lawful) (hOut : Writable c) (hRank : c.catarr.axes ≠ []) :
    Outputs E ((c.catarr.axes.map Axis.extchunkshape).prod * c.catarr.itemsize + E.maxOverhead)
      true (Placed c true) where
  more h := h.more_defined hE hOut
  next h hk u := by
    obtain ⟨itr', value, hNext, -⟩ := h.nextChunk_ok hE hOut hRank (h.total ▸ hk)
    exact Result.ne_crash_of_ok hNext u
  keeps h hk hOk block := by
    obtain ⟨itr', value, hNext, hPlaced, -⟩ := h.nextChunk_ok hE hOut hRank (h.total ▸ hk)
    cases hNext.symm.trans hOk
    exact ⟨⟨hPlaced.cont, hPlaced.blockShape, hPlaced.contEshape, hPlaced.total,
      hPlaced.external⟩, hPlaced.bound, fun _ => .inl rfl⟩

/-- Where Caterva answers it is enough that the iterator counts blocks. -/
theorem counts_outputs (hAnswers : E.Answers) : Outputs E bufsize compresses IterWriteBlock.Counts where
  more {itr} h u := by
    rw [writeMore]
    split
    · rcases itr.store_answers hAnswers with ⟨a, hStore⟩ | hStore
      · rw [hStore]
        exact Result.ne_crash_of_ok rfl u
      · rw [hStore]
        exact Result.ne_crash_of_refused ⟨_, rfl⟩ u
    · exact Result.ne_crash_of_ok rfl u
  next h _ u := by
    rcases h.next_answers hAnswers (fun _ => .bits 0) bufsize with hRefused | ⟨_, _, hNext, -⟩
    · exact Result.ne_crash_of_refused hRefused u
    · exact Result.ne_crash_of_ok hNext u
  keeps h _ hOk block := by
    rcases h.next_answers hAnswers (fun _ => .bits 0) bufsize with ⟨e, hNext⟩ | ⟨_, _, hNext, hKept⟩
    · cases hNext.symm.trans hOk
    · cases hNext.symm.trans hOk
      exact hKept.written _ _

theorem writeMore_counts {itr itr' : IterWriteBlock} {more : Bool}
    (h : writeMore E itr = .ok (itr', more)) :
    itr'.nblock = itr.nblock ∧ itr'.totalBlocks = itr.totalBlocks ∧
      (more = true → itr.nblock < itr.totalBlocks) := by
  unfold writeMore at h
  split at h
  · split at h
    · rename_i hStore
      cases h
      exact ⟨(IterWriteBlock.store_counts hStore).1, (IterWriteBlock.store_counts hStore).2, nofun⟩
    · cases h
    · cases h
  · cases h
    exact ⟨rfl, rfl, of_decide_eq_true⟩

/-- A loop over the output is free of undefined behaviour if its rounds are. -/
theorem evalLoop_tame (hI : Outputs E bufsize compresses I) {σ : Type} {J : σ → Prop}
    {body : IterWriteBlock → σ → Eval (IterWriteBlock × σ)}
    (hBody : ∀ itr s, I itr → J s → itr.nblock < itr.totalBlocks → Tame (body itr s) ∧
      ∀ itr' s', (body itr s).outcome = .ok (itr', s') → I itr' ∧ J s')
    (rounds : Nat) {itr : IterWriteBlock} {s : σ} (h : I itr) (hs : J s) :
    Tame (evalLoop E body rounds itr s) := by
  induction rounds generalizing itr s with
  | zero =>
    rw [evalLoop]
    refine (Tame.lift (hI.more h)).bind fun p _ => ?_
    obtain ⟨itr₁, more⟩ := p
    cases more with
    | false => exact .pure _
    | true => exact .pure _
  | succ rounds ih =>
    rw [evalLoop]
    refine (Tame.lift (hI.more h)).bind fun p hp => ?_
    obtain ⟨itr₁, more⟩ := p
    cases more with
    | false => exact .pure _
    | true =>
      obtain rfl : itr₁ = itr := writeMore_more hp rfl
      obtain ⟨hTame, hKeep⟩ := hBody _ _ h hs ((writeMore_counts hp).2.2 rfl)
      exact hTame.bind fun r hr => ih (hKeep r.1 r.2 hr).1 (hKeep r.1 r.2 hr).2

end Output

/-! ## The operands -/

/-- The read iterator of an operand over blocks of a shape. -/
structure Tracks (bs : List Nat) (padding : Bool) (r : IterReadBlock) : Prop where
  filled : Filled r.cont
  length : r.cont.dtshape.ndim = bs.length
  reading : Reading r.cont r.cont.contents bs padding false r

section Operands

variable {E : Backend} {S : Surroundings} {bs : List Nat} {padding : Bool}

/-- The number of a block is reduced modulo the numbers of blocks, so behind the last block the
iterator reads the first ones again. -/
theorem IterReadBlock.read_mod (itr : IterReadBlock) :
    ({ itr with nblock := itr.nblock % itr.aux.prod } : IterReadBlock).read E = itr.read E := by
  have hIndex : iterBlockIndex itr.aux (itr.nblock % itr.aux.prod) =
      iterBlockIndex itr.aux itr.nblock := by
    rw [iterBlockIndex_mod, iterBlockIndex_mod, Nat.mod_mod]
  simp only [read, start, stop, hIndex]

theorem Tracks.next (hE : E.Lawful) (hPos : ∀ d ∈ bs, 0 < d) {r : IterReadBlock}
    (h : Tracks bs padding r) : ∃ r' v, (readNext E r).outcome = .ok (r', v) ∧
      Tracks bs padding r' := by
  have hReading := h.reading
  have hReadable : r.cont.Readable (bufferSides r.cont.contents.shape bs padding) := fun hT =>
    absurd hT h.filled.plain.not_transposed
  have hLen : r.cont.contents.shape.length = bs.length := h.length
  have hSome : 0 < (tileCounts r.cont.contents.shape bs).prod := by
    refine prod_tileCounts_pos hPos hLen fun n hn => ?_
    have hShape : r.cont.contents.shape = shapeOf r.cont.catarr.axes :=
      h.filled.plain.fresh.shape.symm
    rw [hShape] at hn
    exact forall_map_pos h.filled.pos (fun _ hx => hx) n hn
  have hAux : 0 ∉ r.aux := by
    rw [hReading.aux]
    exact fun hZero => hSome.ne' (List.prod_eq_zero hZero)
  -- the iterator at a block of the container
  have hReading' : Reading r.cont r.cont.contents bs padding false
      { r with nblock := r.nblock % r.aux.prod } :=
    ⟨rfl, hReading.blockShape, hReading.aux, hReading.total, hReading.padding, hReading.external⟩
  have hHold : false = true → bs.prod * r.cont.catarr.itemsize + E.maxOverhead ≤ 0 := nofun
  have hLess : r.nblock % r.aux.prod < (tileCounts r.cont.contents.shape bs).prod := by
    rw [hReading.aux]
    exact Nat.mod_lt _ hSome
  obtain ⟨r', v, hNext, -⟩ := readBlock_next hE (.plain h.filled.plain (.refl _)) hReading' hLen hPos
    hReadable hHold hLess fun _ => .bits 0
  have hOwn : ∀ {itr : IterReadBlock}, itr.externalBuffer = false →
      itr.useBuffer E (fun _ => .bits 0) 0 = .ok itr := by
    intro itr hExternal
    rw [IterReadBlock.useBuffer, hExternal]
    rfl
  rw [IterReadBlock.next_eq, hOwn hReading'.external, Result.ok_bind, IterReadBlock.read_mod]
    at hNext
  obtain ⟨block, hRead, -⟩ := Result.bind_eq_ok.mp hNext
  have hOk : ∃ v, r.next E (fun _ => .bits 0) 0 =
      .ok ({ r with block := block, nblock := r.nblock + 1 }, v) := by
    rw [IterReadBlock.next_eq, hOwn hReading.external, Result.ok_bind, hRead]
    exact ⟨_, rfl⟩
  obtain ⟨v, hOk⟩ := hOk
  rw [readNext, if_neg hAux]
  exact ⟨_, v, hOk, h.filled, h.length, rfl, hReading.blockShape, hReading.aux, hReading.total,
    hReading.padding, hReading.external⟩

theorem tracks_new (hPos : ∀ d ∈ bs, 0 < d) {c : Container} (hFilled : Filled c)
    (hLen : c.dtshape.ndim = bs.length) :
    ∃ r, iarrayIterReadBlockNew E c (operandBlockshape S bs c) false = .ok r ∧
      Tracks bs false r := by
  have hBlocks := iterBlocks_mapM hPos hLen
  rw [operandBlockshape_of_length hLen, iarrayIterReadBlockNew]
  exact ⟨_, congrArg (· >>= _) hBlocks, hFilled, hLen, rfl, rfl, rfl, rfl, rfl, rfl⟩

end Operands

/-! ## The method "iterchunk" -/

section Iterchunk

variable {E : Backend} {S : Surroundings} {e : Expression} {ret : Container} {bs : List Nat}
  {I : IterWriteBlock → Prop}

theorem chunkInput_tame (hE : E.Lawful) (hPos : ∀ d ∈ bs, 0 < d) {x : IterReadBlock × Nat}
    (hx : Tracks bs false x.1) :
    Tame (chunkInput E x) ∧ ∀ y, (chunkInput E x).outcome = .ok y → Tracks bs false y.1 := by
  obtain ⟨r, v, hNext, hTracks⟩ := hx.next hE hPos
  constructor
  · refine (Tame.of_ok hNext).bind fun p _ => ?_
    refine (Table.index_tame _ _).bind fun _ _ => ?_
    exact (Table.index_tame _ _).bind fun _ _ => .pure _
  · intro y hy
    obtain ⟨p, hp, hy⟩ := Logged.bind_eq_ok.mp hy
    cases hNext.symm.trans hp
    obtain ⟨_, _, hy⟩ := Logged.bind_eq_ok.mp hy
    obtain ⟨_, _, hy⟩ := Logged.bind_eq_ok.mp hy
    cases hy
    exact hTracks

theorem iterchunkRound_tame (hE : E.Lawful) (hI : Outputs E 0 false I) (hPos : ∀ d ∈ bs, 0 < d)
    (hFunc : e.exprFunc.isSome) {itr : IterWriteBlock} {s : ChunkState} (h : I itr)
    (hs : ∀ r ∈ s.2, Tracks bs false r) (hk : itr.nblock < itr.totalBlocks) :
    Tame (iterchunkRound E e ret itr s) ∧
      ∀ itr' s', (iterchunkRound E e ret itr s).outcome = .ok (itr', s') →
        I itr' ∧ ∀ r ∈ s'.2, Tracks bs false r := by
  have hInput : ∀ x ∈ s.2.zipIdx, Tame (chunkInput E x) ∧ ∀ y, (chunkInput E x).outcome = .ok y →
      Tracks bs false y.1 := fun x hx =>
    chunkInput_tame hE hPos (hs x.1 (List.fst_mem_of_mem_zipIdx hx))
  constructor
  · refine (Tame.lift (hI.next h hk)).bind fun p _ => ?_
    refine (Tame.mapM fun x hx => (hInput x hx).1).bind fun read _ => ?_
    refine (Tame.forM fun _ _ => .of_ok rfl).bind fun _ _ => ?_
    exact (Tame.lift fun u => callExpr_defined hFunc _ _ u).bind fun _ _ => .pure _
  · intro itr' s' hOut
    obtain ⟨⟨itr₁, value⟩, hNext, hOut⟩ := Logged.bind_eq_ok.mp hOut
    obtain ⟨read, hRead, hOut⟩ := Logged.bind_eq_ok.mp hOut
    obtain ⟨_, _, hOut⟩ := Logged.bind_eq_ok.mp hOut
    obtain ⟨block, _, hOut⟩ := Logged.bind_eq_ok.mp hOut
    cases hOut
    refine ⟨hI.keeps h hk hNext block, fun r hr => ?_⟩
    obtain ⟨y, hy, rfl⟩ := List.mem_map.mp hr
    obtain ⟨x, hx, hOk⟩ := exists_of_forall₂ (Logged.mapM_eq_ok hRead) hy
    exact (hInput x hx).2 y hOk

theorem iarrayEvalCleanup_defined {n : Nat} (hSize : 0 < e.typesize) (u : Undefined) :
    iarrayEvalCleanup e n ≠ crash u := by
  rw [iarrayEvalCleanup, idiv, if_neg hSize.ne', Result.ok_bind]
  intro hCrash
  split at hCrash
  · cases hCrash
  · cases hCrash

theorem iterchunk_tame (hE : E.Lawful) (hI : Outputs E 0 false I) {itr : IterWriteBlock}
    (hNew : iarrayIterWriteBlockNew E ret bs false = .ok itr) (h : I itr) (hPos : ∀ d ∈ bs, 0 < d)
    (hFunc : e.exprFunc.isSome) (hSize : 0 < e.typesize)
    (hVars : ∀ v ∈ e.vars, Filled v.2 ∧ v.2.dtshape.ndim = bs.length) :
    Tame (iarrayEvalIterchunk E S e ret bs) := by
  have hRead : ∀ v ∈ e.vars, ∃ r, iarrayIterReadBlockNew E v.2 (operandBlockshape S bs v.2) false =
      .ok r ∧ Tracks bs false r := fun v hv => tracks_new hPos (hVars v hv).1 (hVars v hv).2
  obtain ⟨iterVar, hIterVar⟩ := Result.mapM_succeeds fun v hv =>
    (hRead v hv).imp fun r hr => hr.1
  have hTracks : ∀ r ∈ iterVar, Tracks bs false r := by
    intro r hr
    obtain ⟨v, hv, hOk⟩ := exists_of_forall₂ (Result.mapM_eq_ok hIterVar) hr
    obtain ⟨r', hOk', hTracks⟩ := hRead v hv
    cases hOk.symm.trans hOk'
    exact hTracks
  refine (Table.each_tame _ _).bind fun _ _ => ?_
  refine (Tame.of_ok hIterVar).bind fun vars hOk => ?_
  cases hIterVar.symm.trans hOk
  refine (Tame.of_ok hNew).bind fun out hOk => ?_
  cases hNew.symm.trans hOk
  refine (Table.each_tame _ _).bind fun _ _ => ?_
  refine (Table.each_tame _ _).bind fun _ _ => ?_
  refine (Table.each_tame _ _).bind fun _ _ => ?_
  refine Tame.bind ?_ fun r _ => ?_
  · exact evalLoop_tame (J := fun s : ChunkState => ∀ r ∈ s.2, Tracks bs false r) hI
      (fun _ _ h hs hk => iterchunkRound_tame hE hI hPos hFunc h hs hk) _ h hTracks
  · exact (Tame.lift fun u => iarrayEvalCleanup_defined hSize u).bind fun _ _ => .pure _

end Iterchunk

/-! ## The method "iterblosc" -/

/-- An operand whose iterator, if it has one, reads blocks of a shape. -/
structure Operand.Tracks (bs : List Nat) (o : Operand) : Prop where
  filled : Filled o.var
  iter : ∀ r ∈ o.iterVar, IronArray.Tracks bs true r

section Iterblosc

variable {E : Backend} {S : Surroundings} {e : Expression} {ret : Container} {bs : List Nat}
  {I : IterWriteBlock → Prop}

theorem setUpOperand_tracks (hPos : ∀ d ∈ bs, 0 < d) {c : Container} (hFilled : Filled c)
    (hLen : c.dtshape.ndim = bs.length) :
    ∃ o, setUpOperand E S ret bs c = .ok o ∧ o.Tracks bs := by
  rw [setUpOperand]
  split
  · refine ⟨_, rfl, hFilled, ?_⟩
    intro r hr
    cases hr
  · obtain ⟨r, hNew, hTracks⟩ := tracks_new (E := E) (S := S) hPos hFilled hLen
    obtain rfl : r.cont = c := by
      rw [iarrayIterReadBlockNew] at hNew
      obtain ⟨aux, -, hNew⟩ := Result.bind_eq_ok.mp hNew
      cases hNew
      rfl
    rw [hNew]
    refine ⟨_, rfl, hFilled, ?_⟩
    rintro _ ⟨⟩
    have hReading := hTracks.reading
    exact ⟨hTracks.filled, hTracks.length, rfl, hReading.blockShape, hReading.aux, hReading.total,
      rfl, hReading.external⟩

theorem repartChunk_defined (hRet : Filled ret) (chunk : Nat → Cell) :
    ∃ out, catervaBloscArrayRepartChunk chunk ret.catarr = .ok out := by
  have hItems : (padShape ret.catarr.blockshape).prod ≠ 0 := by
    have hPos : 0 < ret.catarr.blockshape.prod :=
      prod_pos_of_forall (forall_map_pos hRet.pos fun x => x.block_pos)
    rw [padShape, List.prod_append, List.prod_replicate, one_pow, one_mul]
    exact hPos.ne'
  rw [catervaBloscArrayRepartChunk, idiv, if_neg hItems]
  exact ⟨_, rfl⟩

theorem fetchInput_tame (hE : E.Lawful) (hRet : Filled ret) (hPos : ∀ d ∈ bs, 0 < d) (k : Nat)
    {x : Operand × Nat} (hx : x.1.Tracks bs) : Tame (fetchInput E S ret k x) ∧
      ∀ y, (fetchInput E S ret k x).outcome = .ok y → y.1.Tracks bs := by
  obtain ⟨⟨var, iterVar⟩, i⟩ := x
  cases iterVar with
  | none =>
    constructor
    · refine (Table.index_tame _ _).bind fun _ _ => ?_
      refine (Table.index_tame _ _).bind fun _ _ => ?_
      show Tame (ite _ _ _)
      split
      · exact .refuse _
      · refine (Table.index_tame _ _).bind fun _ _ => ?_
        exact (Table.index_tame _ _).bind fun _ _ => .pure _
    · intro y hy
      obtain ⟨_, _, hy⟩ := Logged.bind_eq_ok.mp hy
      obtain ⟨_, _, hy⟩ := Logged.bind_eq_ok.mp hy
      have hy : (ite _ _ _ : Eval (Operand × ExprInput)).outcome = .ok y := hy
      split at hy
      · cases hy
      · obtain ⟨_, _, hy⟩ := Logged.bind_eq_ok.mp hy
        obtain ⟨_, _, hy⟩ := Logged.bind_eq_ok.mp hy
        cases hy
        exact ⟨hx.filled, nofun⟩
  | some itr =>
    obtain ⟨r, v, hNext, hTracks⟩ := (hx.iter itr rfl).next hE hPos
    constructor
    · refine (Table.index_tame _ _).bind fun _ _ => ?_
      refine (Tame.of_ok hNext).bind fun p _ => ?_
      refine (Tame.of_ok rfl).bind fun _ _ => ?_
      refine Tame.bind ?_ fun _ _ => ?_
      · obtain ⟨out, hOut⟩ := repartChunk_defined hRet
          (reinterpret E.machine var.dtshape.dtype ret.dtshape.dtype p.2.blockPointer)
        exact .of_ok hOut
      · exact (Table.index_tame _ _).bind fun _ _ => .pure _
    · intro y hy
      obtain ⟨_, _, hy⟩ := Logged.bind_eq_ok.mp hy
      obtain ⟨p, hp, hy⟩ := Logged.bind_eq_ok.mp hy
      cases hNext.symm.trans hp
      obtain ⟨_, _, hy⟩ := Logged.bind_eq_ok.mp hy
      obtain ⟨_, _, hy⟩ := Logged.bind_eq_ok.mp hy
      obtain ⟨_, _, hy⟩ := Logged.bind_eq_ok.mp hy
      cases hy
      refine ⟨hx.filled, ?_⟩
      rintro _ ⟨⟩
      exact hTracks

theorem iterbloscRound_tame (hE : E.Lawful) (hI : Outputs E
      ((ret.catarr.axes.map Axis.extchunkshape).prod * ret.catarr.itemsize + E.maxOverhead) true I)
    (hRet : Filled ret) (hRank : ret.catarr.axes ≠ []) (hPos : ∀ d ∈ bs, 0 < d)
    (hFunc : e.exprFunc.isSome) {itr : IterWriteBlock} {s : BloscState} (h : I itr)
    (hs : ∀ o ∈ s.2, o.Tracks bs) (hk : itr.nblock < itr.totalBlocks) :
    Tame (iterbloscRound E S e ret itr s) ∧
      ∀ itr' s', (iterbloscRound E S e ret itr s).outcome = .ok (itr', s') →
        I itr' ∧ ∀ o ∈ s'.2, o.Tracks bs := by
  have hInput : ∀ x ∈ s.2.zipIdx, Tame (fetchInput E S ret s.1 x) ∧
      ∀ y, (fetchInput E S ret s.1 x).outcome = .ok y → y.1.Tracks bs := fun x hx =>
    fetchInput_tame hE hRet hPos s.1 (hs x.1 (List.fst_mem_of_mem_zipIdx hx))
  have hFetched : ∀ {fetched}, (s.2.zipIdx.mapM (fetchInput E S ret s.1)).outcome = .ok fetched →
      ∀ y ∈ fetched, y.1.Tracks bs := by
    intro fetched hOk y hy
    obtain ⟨x, hx, hOk⟩ := exists_of_forall₂ (Logged.mapM_eq_ok hOk) hy
    exact (hInput x hx).2 y hOk
  constructor
  · refine (Tame.lift (hI.next h hk)).bind fun p _ => ?_
    refine (Tame.mapM fun x hx => (hInput x hx).1).bind fun fetched hOk => ?_
    refine (compressChunk_tame hRet hRank hFunc fun x hx => ?_).bind fun _ _ => ?_
    · obtain ⟨y, hy, rfl⟩ := List.mem_map.mp hx
      exact (hFetched hOk y hy).filled
    · exact (Table.each_tame _ _).bind fun _ _ => .pure _
  · intro itr' s' hOut
    obtain ⟨⟨itr₁, value⟩, hNext, hOut⟩ := Logged.bind_eq_ok.mp hOut
    obtain ⟨fetched, hOk, hOut⟩ := Logged.bind_eq_ok.mp hOut
    obtain ⟨chunk, _, hOut⟩ := Logged.bind_eq_ok.mp hOut
    obtain ⟨_, _, hOut⟩ := Logged.bind_eq_ok.mp hOut
    cases hOut
    refine ⟨hI.keeps h hk hNext (chunkItems chunk), fun o ho => ?_⟩
    obtain ⟨y, hy, rfl⟩ := List.mem_map.mp ho
    exact hFetched hOk y hy

theorem iterblosc_tame (hE : E.Lawful) (hI : Outputs E
      ((ret.catarr.axes.map Axis.extchunkshape).prod * ret.catarr.itemsize + E.maxOverhead) true I)
    {itr : IterWriteBlock} (hNew : iarrayIterWriteBlockNew E ret bs true = .ok itr) (h : I itr)
    (hRet : Filled ret) (hRank : ret.catarr.axes ≠ []) (hPos : ∀ d ∈ bs, 0 < d)
    (hFunc : e.exprFunc.isSome)
    (hVars : ∀ v ∈ e.vars, Filled v.2 ∧ v.2.dtshape.ndim = bs.length) :
    Tame (iarrayEvalIterblosc E S e ret bs) := by
  have hSet : ∀ v ∈ e.vars, ∃ o, setUpOperand E S ret bs v.2 = .ok o ∧ o.Tracks bs :=
    fun v hv => setUpOperand_tracks hPos (hVars v hv).1 (hVars v hv).2
  obtain ⟨operands, hOperands⟩ := Result.mapM_succeeds fun v hv =>
    (hSet v hv).imp fun o ho => ho.1
  have hTracks : ∀ o ∈ operands, o.Tracks bs := by
    intro o ho
    obtain ⟨v, hv, hOk⟩ := exists_of_forall₂ (Result.mapM_eq_ok hOperands) ho
    obtain ⟨o', hOk', hTracks⟩ := hSet v hv
    cases hOk.symm.trans hOk'
    exact hTracks
  refine (Table.each_tame _ _).bind fun _ _ => ?_
  refine (Table.each_tame _ _).bind fun _ _ => ?_
  refine (Table.each_tame _ _).bind fun _ _ => ?_
  refine (Tame.of_ok hOperands).bind fun vars hOk => ?_
  cases hOperands.symm.trans hOk
  refine (Tame.of_ok hNew).bind fun out hOk => ?_
  cases hNew.symm.trans hOk
  refine Tame.bind ?_ fun r _ => .pure _
  exact evalLoop_tame (J := fun s : BloscState => ∀ o ∈ s.2, o.Tracks bs) hI
    (fun _ _ h hs hk => iterbloscRound_tame hE hI hRet hRank hPos hFunc h hs hk) _ h hTracks

end Iterblosc

/-! ## Evaluations -/

section Evaluation

variable {E : Backend} {S : Surroundings} {e : Expression} {ret : Container}

/-- What the write iterator of an evaluation keeps: the chunks that it stores are those of the
array, or Caterva answers whatever it stores. -/
theorem exists_outputs (hE : E.Lawful) (hRet : Filled ret) (hRank : ret.dtshape.ndim ≠ 0)
    (hStores : (∀ n ∈ ret.storage.chunkshape, n < 2 ^ 31) ∨ E.Answers) :
    (∃ I itr, iarrayIterWriteBlockNew E ret ret.storage.chunkshape false = .ok itr ∧ I itr ∧
      Outputs E 0 false I) ∧
    ∃ I itr, iarrayIterWriteBlockNew E ret ret.storage.chunkshape true = .ok itr ∧ I itr ∧
      Outputs E ((ret.catarr.axes.map Axis.extchunkshape).prod * ret.catarr.itemsize +
        E.maxOverhead) true I := by
  have hAxes : ret.catarr.axes ≠ [] := fun h => hRank (hRet.plain.axes_eq_nil_iff.mp h)
  rcases hStores with hShort | hAnswers
  · have hOut : Writable ret := ⟨hRet, hShort⟩
    obtain ⟨own, hOwn, -, -, hOwnPlaced⟩ := placed_new (E := E) hOut hAxes false
    obtain ⟨chunk, hChunk, -, -, hChunkPlaced⟩ := placed_new (E := E) hOut hAxes true
    exact ⟨⟨_, own, hOwn, hOwnPlaced, placed_outputsOwn hE hOut hAxes⟩,
      ⟨_, chunk, hChunk, hChunkPlaced, placed_outputsChunk hE hOut hAxes⟩⟩
  · obtain ⟨own, hOwn, hOwnCounts⟩ := new_counts (E := E) hRet.plain hRank hRet.pos false
    obtain ⟨chunk, hChunk, hChunkCounts⟩ := new_counts (E := E) hRet.plain hRank hRet.pos true
    exact ⟨⟨_, own, hOwn, hOwnCounts, counts_outputs hAnswers⟩,
      ⟨_, chunk, hChunk, hChunkCounts, counts_outputs hAnswers⟩⟩

theorem iarrayEval_tame (hE : E.Lawful)
    (hEmpty : iarrayEmpty E e.outDtshape e.outStoreProperties = .ok ret)
    (hRank : e.outDtshape.ndim ≠ 0) (hPos : ∀ n ∈ e.outDtshape.shape, 0 < n)
    (hFunc : e.exprFunc.isSome) (hSize : e.typesize = e.outDtshape.dtypeSize)
    (hVars : ∀ v ∈ e.vars, Plain v.2 ∧ v.2.dtshape.shape = e.outDtshape.shape)
    (hStores : (∀ n ∈ e.outStoreProperties.chunkshape, n < 2 ^ 31) ∨ E.Answers) :
    Tame (iarrayEval E S e) := by
  have hPlainOf := iarrayEmpty_plain hE hEmpty
  have hRet : Filled ret := ⟨hPlainOf.plain, hPlainOf.plain.axes_pos (by rwa [hPlainOf.dtshape])⟩
  rw [← hPlainOf.dtshape] at hRank
  rw [← hPlainOf.storage] at hStores
  have hAxes : ret.catarr.axes ≠ [] := fun h => hRank (hPlainOf.plain.axes_eq_nil_iff.mp h)
  have hBlocks := stored_pos hPlainOf.plain.fresh.chunkshape (chunkshapeOf_pos hRet.pos)
  have hLen : ret.storage.chunkshape.length = ret.dtshape.ndim := by
    rw [length_stored hPlainOf.plain.fresh.chunkshape, CatArray.chunkshape, chunkshapeOf,
      List.length_map]
    exact hPlainOf.plain.catarr_ndim
  have hOperands : ∀ v ∈ e.vars, Filled v.2 ∧
      v.2.dtshape.ndim = ret.storage.chunkshape.length := by
    intro v hv
    obtain ⟨hPlain, hShape⟩ := hVars v hv
    refine ⟨⟨hPlain, hPlain.axes_pos (by rwa [hShape])⟩, ?_⟩
    rw [hLen, Dtshape.ndim, hShape, hPlainOf.dtshape]
    rfl
  obtain ⟨⟨I, own, hOwn, hI, hOutputs⟩, ⟨I', chunk, hChunk, hI', hOutputs'⟩⟩ :=
    exists_outputs hE hRet hRank hStores
  refine (Tame.of_ok hEmpty).bind fun out hOut => ?_
  cases hEmpty.symm.trans hOut
  split
  · refine iterchunk_tame hE hOutputs hOwn hI hBlocks hFunc ?_ hOperands
    rw [hSize]
    exact Dtype.size_pos _
  · exact iterblosc_tame hE hOutputs' hChunk hI' hRet hAxes hBlocks hFunc hOperands
  · exact .refuse _

/-- A body that moves to the next block ends its loop. -/
theorem evalLoop_ends {σ : Type} {body : IterWriteBlock → σ → Eval (IterWriteBlock × σ)}
    (hBody : ∀ {itr itr' s s'}, (body itr s).outcome = .ok (itr', s') →
      itr'.nblock = itr.nblock + 1 ∧ itr'.totalBlocks = itr.totalBlocks)
    {rounds : Nat} {itr : IterWriteBlock} {s : σ} (h : itr.totalBlocks ≤ itr.nblock + rounds) :
    Ends (fun n => evalLoop E body n itr s) rounds := by
  intro extra
  induction rounds generalizing itr s with
  | zero =>
    cases extra with
    | zero => rfl
    | succ extra =>
      show evalLoop E body (0 + extra + 1) itr s = evalLoop E body 0 itr s
      rw [evalLoop, evalLoop]
      refine Logged.bind_congr_of_ok fun p hMore => ?_
      obtain ⟨itr₁, more⟩ := p
      obtain ⟨-, -, hLess⟩ := writeMore_counts hMore
      cases more with
      | false => rfl
      | true => exact absurd (hLess rfl) (by omega)
  | succ rounds ih =>
    show evalLoop E body (rounds + 1 + extra) itr s = evalLoop E body (rounds + 1) itr s
    rw [Nat.add_right_comm, evalLoop, evalLoop]
    refine Logged.bind_congr_of_ok fun p hMore => ?_
    obtain ⟨itr₁, more⟩ := p
    obtain ⟨hNblock, hTotal, -⟩ := writeMore_counts hMore
    cases more with
    | false => rfl
    | true =>
      refine Logged.bind_congr_of_ok fun r hRound => ?_
      obtain ⟨itr₂, s₂⟩ := r
      have hCounts := hBody hRound
      show evalLoop E body (rounds + extra) itr₂ s₂ = evalLoop E body rounds itr₂ s₂
      exact ih (by omega)

theorem iterchunkRound_moves {itr itr' : IterWriteBlock} {s s' : ChunkState}
    (h : (iterchunkRound E e ret itr s).outcome = .ok (itr', s')) :
    itr'.nblock = itr.nblock + 1 ∧ itr'.totalBlocks = itr.totalBlocks := by
  obtain ⟨⟨next, value⟩, hNext, h⟩ := Logged.bind_eq_ok.mp h
  obtain ⟨_, _, h⟩ := Logged.bind_eq_ok.mp h
  obtain ⟨_, _, h⟩ := Logged.bind_eq_ok.mp h
  obtain ⟨_, _, h⟩ := Logged.bind_eq_ok.mp h
  cases h
  exact @IterWriteBlock.next_counts E itr next _ _ value hNext

theorem iterbloscRound_moves {itr itr' : IterWriteBlock} {s s' : BloscState}
    (h : (iterbloscRound E S e ret itr s).outcome = .ok (itr', s')) :
    itr'.nblock = itr.nblock + 1 ∧ itr'.totalBlocks = itr.totalBlocks := by
  obtain ⟨⟨next, value⟩, hNext, h⟩ := Logged.bind_eq_ok.mp h
  obtain ⟨_, _, h⟩ := Logged.bind_eq_ok.mp h
  obtain ⟨_, _, h⟩ := Logged.bind_eq_ok.mp h
  obtain ⟨_, _, h⟩ := Logged.bind_eq_ok.mp h
  cases h
  exact @IterWriteBlock.next_counts E itr next _ _ value hNext

end Evaluation

/-! ## Arrays without elements -/

/-- Every loop over the container ends. -/
structure RunsEnd (E : Backend) (S : Surroundings) (c : Container) : Prop where
  readBlocks : ∀ bs padding external buffer bufsize itr,
    iarrayIterReadBlockNew E c bs external = .ok itr →
      Ends (fun n => readLoop E buffer bufsize n { itr with padding := padding } [])
        itr.totalBlocks
  writeBlocks : ∀ (w : BlockWriter) itr,
    iarrayIterWriteBlockNew E c c.storage.chunkshape w.buffers.external = .ok itr →
      Ends (fun n => writeLoop E (fun _ => true) (w.round E) n itr []) itr.totalBlocks
  readElements : Ends (fun n => readElementsLoop E n (iarrayIterReadNew E c) [])
    c.dtshape.shape.prod
  writeElements : ∀ f, Ends (fun n => writeElementsLoop E f n (iarrayIterWriteNew c) [])
    c.catarr.shape.prod
  iterchunk : ∀ e s itr, iarrayIterWriteBlockNew E c c.storage.chunkshape false = .ok itr →
    Ends (fun n => evalLoop E (iterchunkRound E e c) n itr s) itr.totalBlocks
  iterblosc : ∀ e s itr, iarrayIterWriteBlockNew E c c.storage.chunkshape true = .ok itr →
    Ends (fun n => evalLoop E (iterbloscRound E S e c) n itr s) itr.totalBlocks

/-- An access that hands out elements of an array. -/
def Access.OfBlock : Access → Prop
  | table _ _ => False
  | _ => True

/-- The iterators over a container, and evaluations into it, have no undefined behaviour other than
accesses behind the end of a table or of a chunk; they hand out nothing if it is empty, and they
end. The block read iterator has blocks with items, or the chunks of the container. -/
structure ZeroLengthSafe (E : Backend) (S : Surroundings) (c : Container) : Prop where
  readBlocks : ∀ bs, bs.length = c.dtshape.ndim → (∀ d ∈ bs, 0 < d) ∨ bs = c.storage.chunkshape →
    ∀ padding external buffer bufsize,
      SafeRun c.dtshape.shape (readBlocks E c bs padding external buffer bufsize)
  writeBlocks : ∀ w : BlockWriter, SafeRun c.dtshape.shape ((w.run E c).map Prod.snd)
  readElements : SafeRun c.dtshape.shape (readElements E c)
  writeElements : ∀ f, SafeRun c.dtshape.shape ((writeElements E f c).map Prod.snd)
  evaluation : ∀ jug e₀ source e, (compileSource jug e₀ source).outcome = .ok e →
    e.outDtshape = c.dtshape → e.outStoreProperties = c.storage →
      (∀ v ∈ e.vars, Plain v.2 ∧ v.2.dtshape.shape = c.dtshape.shape) →
        Tame (iarrayEval E S e) ∧
          (0 ∈ c.dtshape.shape → ∀ a ∈ (iarrayEval E S e).log, ¬ a.OfBlock)
  ends : RunsEnd E S c

section Safe

variable {E : Backend} {S : Surroundings} {c : Container}

theorem runsEnd (hE : E.Lawful) (hPlain : Plain c) : RunsEnd E S c where
  readBlocks bs padding external buffer bufsize itr h := readLoop_ends (by simp)
  writeBlocks w itr h := writeLoop_ends BlockWriter.round_counts (by simp)
  readElements := readElementsLoop_ends (by simp [iarrayIterReadNew])
  writeElements f := by
    have hShape : c.dtshape.shape = c.catarr.shape := hPlain.fresh.shape.symm
    exact @writeElementsLoop_ends E hE c f _ _ [] ⟨hPlain, rfl, rfl⟩ (by rw [hShape]; simp)
  iterchunk e s itr h := evalLoop_ends iterchunkRound_moves (by simp)
  iterblosc e s itr h := evalLoop_ends iterbloscRound_moves (by simp)

end Safe

namespace EmptyExample

/-- A new 3 × 5 matrix in chunks of 2 × 2. -/
def matrix : Container :=
  Reference.plain .double [.ofCuts 3 2 1, .ofCuts 5 2 2]
    fun _ => .bits 0

def vector : Container :=
  Reference.plain .double [.ofCuts 0 4 2] fun _ => .bits 0

def scalar : Container := Reference.plain .double [] fun _ => .bits 0

def writer : BlockWriter := ⟨.own, fun _ _ _ => .bits 0⟩

end EmptyExample

end IronArray
