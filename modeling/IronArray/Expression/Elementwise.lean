import IronArray.Core.Limits
import IronArray.Expression.Operands
import IronArray.Iterators.Alike

/-!
# Element-wise expressions

A compiled function may compute each cell of its window from the cells of the operands at the same
position. Then an evaluation computes each element of the output from the elements of the operands
at the same index, whatever the partitions are and by either method: `eval_elementwise`.
-/

namespace IronArray

open Grid CatArray

/-! ## Element-wise functions -/

/-- The compiled function computes each cell of its window from the cells of the operands at the same
position. -/
def Cellwise (m : Machine) (f : EvalFn) (g : List Cell → Cell) : Prop :=
  ∀ p out, ∃ out', f p out = .ok out' ∧ ∀ y, InBox y p.window.shape →
    out' (dot y p.window.strides) =
      g (p.inputs.map fun q => q.load m (dot y p.window.strides))

/-- The same for calls under a condition, as far as the items fit into the output. -/
def CellwiseOn (C : EvalPparams → Prop) (m : Machine) (f : EvalFn) (g : List Cell → Cell) : Prop :=
  ∀ p out, C p → ∃ out', f p out = .ok out' ∧ ∀ y, InBox y p.window.shape →
    dot y p.window.strides * p.outTypesize < p.outSize → out' (dot y p.window.strides) =
      g (p.inputs.map fun q => q.load m (dot y p.window.strides))

theorem Cellwise.on {m : Machine} {f : EvalFn} {g : List Cell → Cell} (h : Cellwise m f g)
    (C : EvalPparams → Prop) : CellwiseOn C m f g := by
  intro p out _
  obtain ⟨out', hCall, hCells⟩ := h p out
  exact ⟨out', hCall, fun y hy _ => hCells y hy⟩

/-- What every call of a compiled function gets: operands of certain types, and room for whole items
of the output, at most a chunk of them. -/
structure CallOf (T : Dtype → Prop) (ret : Container) (n : Nat) (p : EvalPparams) : Prop where
  inputs : p.inputs.length = n
  dtypes : ∀ q ∈ p.inputs, T q.dtype
  outTypesize : p.outTypesize = ret.catarr.itemsize
  items : p.outTypesize ∣ p.outSize
  outSize : p.outSize ≤ ret.catarr.chunksize

/-- The value at an index. -/
def elementwise (g : List Cell → Cell) (As : List (NdArray Cell)) (x : List Nat) : Cell :=
  g (As.map fun A => A.get x)

section Call

variable {E : Backend} {e : Expression} {f : EvalFn} {g : List Cell → Cell}
  {As : List (NdArray Cell)}

/-- A call of an element-wise function on regions of the operands. -/
theorem callExpr_ok {m : Machine} {C : EvalPparams → Prop} (hFunc : e.exprFunc = some f)
    (hf : CellwiseOn C m f g) {p : EvalPparams} (hp : C p) {ds s n : List Nat}
    (hStrides : p.window.strides = strides ds)
    (hShape : ∀ y, InBox y n → InBox y p.window.shape)
    (hRoom : ∀ y, InBox y n → flat ds y * p.outTypesize < p.outSize)
    (hInputs : List.Forall₂ (fun q A => q.Supplies m A ds s n) p.inputs As) (out : Nat → Cell) :
    ∃ out', callExpr e p out = .ok out' ∧
      ∀ y, InBox y n → out' (flat ds y) = elementwise g As (addIdx s y) := by
  obtain ⟨out', hCall, hCells⟩ := hf p out hp
  refine ⟨out', ?_, fun y hy => ?_⟩
  · simp only [callExpr, hFunc, hCall]
  · have hCell := hCells y (hShape y hy)
    rw [hStrides, dot_strides] at hCell
    rw [hCell (hRoom y hy), elementwise]
    have hSame : List.Forall₂ (· = ·) (p.inputs.map fun q => q.load m (flat ds y))
        (As.map fun A => A.get (addIdx s y)) :=
      List.forall₂_map_left_iff.mpr (List.forall₂_map_right_iff.mpr
        (hInputs.imp fun q A hq => hq y hy))
    rw [List.forall₂_eq_eq_eq] at hSame
    rw [hSame]

end Call

/-! ## The prefilter -/

section Prefilter

variable {E : Backend} {p : ExprPparams} {f : EvalFn} {g : List Cell → Cell}
  {As : List (NdArray Cell)} {k nblock : Nat} {T : Dtype → Prop}

/-- What the prefilter needs for the blocks of chunk `k`. -/
structure Supplied (p : ExprPparams) (As : List (NdArray Cell)) (k : Nat) : Prop where
  out : Writable p.out
  rank : p.out.catarr.axes ≠ []
  chunk : k < p.out.catarr.nchunks
  blockIndex : p.blockIndex = unflat (p.out.catarr.axes.map Axis.chunks) k
  params : p.e.userParams.length ≤ exprUserParamsMax
  inputs : List.Forall₂ (fun x A => x.2.Supplies p.out x.1 A k) p.inputs As

/-- The type of the elements that an operand hands out. -/
def ExprInput.dtype (c : Container) : ExprInput → Dtype
  | neq buffer => buffer.dtype
  | _ => c.dtshape.dtype

theorem prefilterInput_dtype {c : Container} {input : ExprInput} {i : Nat} {q : Pointer}
    (h : (prefilterInput p nblock ((c, input), i)).outcome = .ok q) : q.dtype = input.dtype c := by
  unfold prefilterInput at h
  obtain ⟨-, -, h⟩ := Logged.bind_eq_ok.mp h
  obtain ⟨-, -, h⟩ := Logged.bind_eq_ok.mp h
  obtain ⟨-, -, h⟩ := Logged.bind_eq_ok.mp h
  obtain ⟨-, -, h⟩ := Logged.bind_eq_ok.mp h
  cases input with
  | eq nchunk =>
    obtain ⟨-, -, h⟩ := Logged.bind_eq_ok.mp h
    obtain ⟨-, -, h⟩ := Logged.bind_eq_ok.mp h
    obtain ⟨items, -, h⟩ := Logged.bind_eq_ok.mp h
    split at h
    · cases h
    · cases h
      rfl
  | eqNcomp nchunk =>
    dsimp only [rawChunk] at h
    split at h
    · cases h
      rfl
    · cases h
  | neq buffer =>
    cases h
    rfl

theorem Supplied.window_ok (h : Supplied p As k)
    (hb : nblock < (p.out.catarr.axes.map Axis.blocks).prod) :
    window p.out.catarr.axes p.blockIndex nblock =
      .ok (windowAt p.out.catarr.axes (unflat (p.out.catarr.axes.map Axis.chunks) k)
        (unflat (p.out.catarr.axes.map Axis.blocks) nblock)) := by
  have hIndex : p.blockIndex = iterBlockIndex (p.out.catarr.axes.map Axis.chunks) k :=
    h.blockIndex.trans (iterBlockIndex_eq h.chunk).symm
  rw [hIndex]
  exact window_unflat h.rank h.out.pos h.chunk hb

theorem prefilterFunc_ok (h : Supplied p As k) (hFew : p.inputs.length ≤ dimensionMax)
    (hT : ∀ x ∈ p.inputs, T (x.2.dtype x.1)) (hFunc : p.e.exprFunc = some f)
    (hf : CellwiseOn (CallOf T p.out As.length) E.machine f g)
    (hb : nblock < (p.out.catarr.axes.map Axis.blocks).prod) :
    ∃ items, (prefilterFunc E p nblock).outcome = .ok items ∧
      items.length = p.out.catarr.blockshape.prod ∧
      ∀ y, InBox y (shapeOfBlock p.out.catarr.axes k nblock) →
        items.getD (flat p.out.catarr.blockshape y) (.bits 0) =
          elementwise g As (addIdx (startOfBlock p.out.catarr.axes k nblock) y) := by
  have hPos := h.out.pos
  have hOperands : p.inputs.length ≤ exprOperandsMax := hFew.trans (by decide)
  have hItems := h.out.plain.fresh.sized.blockitems
  obtain ⟨inputs, hInputs, hBoth⟩ := Logged.mapM_zipIdx_ok (n := 0)
    (f := prefilterInput p nblock) (R := fun x A => T (x.2.dtype x.1) ∧ x.2.Supplies p.out x.1 A k)
    (Q := fun q A => T q.dtype ∧ q.Supplies E.machine A p.out.catarr.blockshape
      (startOfBlock p.out.catarr.axes k nblock) (shapeOfBlock p.out.catarr.axes k nblock))
    ((Nat.zero_add _).trans_le hFew) (fun x A i hx hi => by
      obtain ⟨q, hq, hSupplies⟩ := prefilterInput_ok (m := E.machine) h.out h.chunk hb hi hx.2
      exact ⟨q, hq, (prefilterInput_dtype hq).symm ▸ hx.1, hSupplies⟩)
    ((List.forall₂_and_left _ _).mpr ⟨hT, h.inputs⟩)
  obtain ⟨hTypes, hSupplied⟩ := (List.forall₂_and_left _ _).mp hBoth
  have hSize : p.out.catarr.sc.blocksize = p.out.catarr.blockshape.prod * p.out.catarr.itemsize :=
    h.out.plain.fresh.sized.2
  have hBytes : nblock * p.out.catarr.sc.blocksize + p.out.catarr.sc.blocksize ≤
      p.out.catarr.chunksize :=
    block_le_chunkBytes h.out.plain (hb.trans_eq (prod_extchunkshape hPos).symm)
  obtain ⟨out, hOut, hCells⟩ := callExpr_ok (p :=
    { inputs := inputs
      inputTypesizes := p.inputs.map fun x => x.1.catarr.itemsize
      outSize := p.out.catarr.sc.blocksize
      outTypesize := p.out.catarr.itemsize
      ndim := p.e.outDtshape.ndim
      window := windowAt p.out.catarr.axes (unflat (p.out.catarr.axes.map Axis.chunks) k)
        (unflat (p.out.catarr.axes.map Axis.blocks) nblock)
      userParams := p.e.userParams }) hFunc hf
    ⟨hSupplied.length_eq, hTypes, rfl, ⟨_, hSize.trans (Nat.mul_comm _ _)⟩, by dsimp only; omega⟩ rfl
    (fun y hy => inBox_windowShape hPos (by simp) (inBox_unflat hb) hy)
    (fun y hy => by
      dsimp only
      rw [hSize]
      exact Nat.mul_lt_mul_of_pos_right (flat_ofBlock_lt hy) h.out.plain.fresh.sized.1)
    hSupplied E.malloc
  refine ⟨(List.range p.out.catarr.sc.blockitems).map out, ?_, ?_, fun y hy => ?_⟩
  · refine Logged.bind_eq_ok.mpr ⟨(), Table.each_ok hOperands, ?_⟩
    refine Logged.bind_eq_ok.mpr ⟨(), Table.each_ok hOperands, ?_⟩
    refine Logged.bind_eq_ok.mpr ⟨_, h.window_ok hb, ?_⟩
    refine Logged.bind_eq_ok.mpr ⟨inputs, hInputs, ?_⟩
    refine Logged.bind_eq_ok.mpr ⟨(), Table.each_ok h.params, ?_⟩
    refine Logged.bind_eq_ok.mpr ⟨(), Table.each_ok h.params, ?_⟩
    refine Logged.bind_eq_ok.mpr ⟨out, hOut, ?_⟩
    exact Logged.bind_eq_ok.mpr ⟨(), Table.each_ok hFew, rfl⟩
  · rw [List.length_map, List.length_range, hItems]
  · have hItem : flat p.out.catarr.blockshape y < p.out.catarr.sc.blockitems := by
      rw [hItems]
      exact flat_ofBlock_lt hy
    rw [← hCells y hy, List.getD_eq_getElem _ _ (by simpa using hItem), List.getElem_map,
      List.getElem_range]
    rfl

/-- A compressed chunk holds the values at the indices of its chunk. -/
theorem compressChunk_ok (h : Supplied p As k) (hFew : p.inputs.length ≤ dimensionMax)
    (hT : ∀ x ∈ p.inputs, T (x.2.dtype x.1)) (hFunc : p.e.exprFunc = some f)
    (hf : CellwiseOn (CallOf T p.out As.length) E.machine f g) :
    ∃ items, (compressChunk E p).outcome = .ok items ∧
      ∀ x, InBox x p.out.catarr.shape → (locate p.out.catarr.axes x).nchunk = k →
        items.getD ((locate p.out.catarr.axes x).nblock * p.out.catarr.blockshape.prod +
          (locate p.out.catarr.axes x).nitem) (.bits 0) = elementwise g As x := by
  have hBlocks : (p.out.catarr.axes.map Axis.extchunkshape).prod / p.out.catarr.blockshape.prod =
      (p.out.catarr.axes.map Axis.blocks).prod := prod_extchunkshape h.out.pos
  have hEach : ∀ nblock, ∃ items, nblock < (p.out.catarr.axes.map Axis.blocks).prod →
      (prefilterFunc E p nblock).outcome = .ok items ∧
        items.length = p.out.catarr.blockshape.prod ∧
        ∀ y, InBox y (shapeOfBlock p.out.catarr.axes k nblock) →
          items.getD (flat p.out.catarr.blockshape y) (.bits 0) =
            elementwise g As (addIdx (startOfBlock p.out.catarr.axes k nblock) y) := by
    intro nblock
    by_cases hb : nblock < (p.out.catarr.axes.map Axis.blocks).prod
    · obtain ⟨items, hItems⟩ := prefilterFunc_ok h hFew hT hFunc hf hb
      exact ⟨items, fun _ => hItems⟩
    · exact ⟨[], fun hLess => absurd hLess hb⟩
  choose block hBlock using hEach
  have hEvery : ∀ nblock ∈ List.range (p.out.catarr.axes.map Axis.blocks).prod,
      (prefilterFunc E p nblock).outcome = .ok (block nblock) :=
    fun nblock hb => (hBlock nblock (List.mem_range.mp hb)).1
  have hAll := Logged.mapM_ok hEvery
  refine ⟨(List.range (p.out.catarr.axes.map Axis.blocks).prod).flatMap block, ?_,
    fun x hx hChunk => ?_⟩
  · rw [compressChunk, hBlocks]
    simp only [hAll]
    rfl
  · obtain ⟨y, hy, hEq⟩ := exists_item hx
    have hb := nblock_lt hx
    rw [hChunk] at hy hEq
    have hLenY : y.length = p.out.catarr.axes.length :=
      hy.length_eq.trans (length_partOf (by simp) (by simp))
    have hStart := @addIdx_blockStart p.out.catarr.axes
      (unflat (p.out.catarr.axes.map Axis.chunks) k)
      (unflat (p.out.catarr.axes.map Axis.blocks) (locate p.out.catarr.axes x).nblock) y
      (by simp) (by simp) hLenY
    have hPlace := (locate_ofBlock h.chunk hb hy).2
    rw [startOfBlock, hStart, hEq] at hPlace
    have hItem : (locate p.out.catarr.axes x).nitem = flat p.out.catarr.blockshape y := by
      rw [hPlace]
      rfl
    rw [getD_flatMap_range _ (fun n hn => (hBlock n hn).2.1) hb (nitem_lt hx), hItem,
      (hBlock _ hb).2.2 y hy, startOfBlock, hStart, hEq]

end Prefilter

/-! ## The method "iterblosc" -/

/-- A transposed array of other than floating data: it has no blocks that can be read. -/
def Container.Unreadable (c : Container) : Prop := c.transposed ∧ ¬ c.dtshape.dtype.isFloating

instance (c : Container) : Decidable c.Unreadable := inferInstanceAs (Decidable (_ ∧ _))

/-- The chunks so far hold the values, and the operands are in front of the next one. -/
structure BloscEvaluated (S : Surroundings) (ret : Container) (As : List (NdArray Cell))
    (F : List Nat → Cell) (itr : IterWriteBlock) (s : BloscState) : Prop
    extends Evaluated ret true F itr where
  nchunk : s.1 = itr.nblock
  operands : List.Forall₂ (fun o A => o.Ready S ret itr.nblock A ∧
    o.var.Readable ret.catarr.chunkshape) s.2 As

section Iterblosc

variable {E : Backend} {S : Surroundings} {e : Expression} {ret : Container} {f : EvalFn}
  {g : List Cell → Cell} {As : List (NdArray Cell)} {itr : IterWriteBlock} {s : BloscState}
  {T : Dtype → Prop}

/-- A chunk of an operand has the type of the operand or that of the output. -/
theorem fetchInput_dtype {o : Operand} {k i : Nat} {y : Operand × ExprInput}
    (hRet : T ret.dtshape.dtype) (ho : T o.var.dtshape.dtype)
    (h : (fetchInput E S ret k (o, i)).outcome = .ok y) : T (y.2.dtype y.1.var) := by
  unfold fetchInput at h
  obtain ⟨-, -, h⟩ := Logged.bind_eq_ok.mp h
  dsimp only at h
  split at h
  · obtain ⟨-, -, h⟩ := Logged.bind_eq_ok.mp h
    split at h
    · cases h
    · obtain ⟨-, -, h⟩ := Logged.bind_eq_ok.mp h
      obtain ⟨-, -, h⟩ := Logged.bind_eq_ok.mp h
      cases h
      dsimp only
      split
      · exact ho
      · exact ho
  · obtain ⟨_, -, h⟩ := Logged.bind_eq_ok.mp h
    obtain ⟨-, -, h⟩ := Logged.bind_eq_ok.mp h
    obtain ⟨_, -, h⟩ := Logged.bind_eq_ok.mp h
    obtain ⟨-, -, h⟩ := Logged.bind_eq_ok.mp h
    cases h
    show T (if o.var.dtshape.dtype.size = ret.dtshape.dtype.size then o.var.dtshape.dtype
      else ret.dtshape.dtype)
    split
    · exact ho
    · exact hRet

/-- A round has its chunk of every operand. -/
theorem iterbloscRound_supplied {F : List Nat → Cell} (hE : E.Lawful) (hS : S.ViewsCompressed)
    (hRet : Writable ret) (hRank : ret.catarr.axes ≠ []) (hTRet : T ret.dtshape.dtype)
    (hParams : e.userParams.length ≤ exprUserParamsMax) (hMany : As.length ≤ exprOperandsMax)
    (h : BloscEvaluated S ret As F itr s) (hT : ∀ o ∈ s.2, T o.var.dtshape.dtype)
    (hk : itr.nblock < ret.catarr.nchunks) :
    ∃ itr₁ value fetched,
      itr.next E (fun _ => .bits 0) ((ret.catarr.axes.map Axis.extchunkshape).prod *
        ret.catarr.itemsize + E.maxOverhead) = .ok (itr₁, value) ∧
      (s.2.zipIdx.mapM (fetchInput E S ret s.1)).outcome = .ok fetched ∧
      Placed ret true itr₁ ∧ itr₁.nblock = itr.nblock + 1 ∧
      (∀ x, InBox x ret.catarr.shape → itr₁.cont.catarr.get x = itr.shown x) ∧
      Supplied
        { e := e
          out := ret
          inputs := fetched.map fun x => (x.1.var, x.2)
          blockIndex := value.blockIndex } As itr.nblock ∧
      (∀ y ∈ fetched, T y.1.var.dtshape.dtype ∧ T (y.2.dtype y.1.var)) ∧
      List.Forall₂ (fun y A => y.1.Ready S ret (itr.nblock + 1) A ∧
        y.1.var.Readable ret.catarr.chunkshape) fetched As := by
  obtain ⟨itr₁, value, hNext, hPlaced, hNumber, hOfChunk, hGet⟩ :=
    h.toPlaced.nextChunk_ok hE hRet hRank hk
  obtain ⟨fetched, hFetched, hBoth⟩ := Logged.mapM_zipIdx_ok (n := 0)
    (f := fetchInput E S ret s.1)
    (R := fun o A => T o.var.dtshape.dtype ∧ o.Ready S ret itr.nblock A ∧
      o.var.Readable ret.catarr.chunkshape)
    (Q := fun y A => (T y.1.var.dtshape.dtype ∧ T (y.2.dtype y.1.var)) ∧
      (y.1.Ready S ret (itr.nblock + 1) A ∧ y.1.var.Readable ret.catarr.chunkshape) ∧
      y.2.Supplies ret y.1.var A itr.nblock)
    ((Nat.zero_add _).trans_le (h.operands.length_eq.trans_le hMany)) (fun o A i ho hi => by
      obtain ⟨hType, hReady, hReadable⟩ := ho
      rw [h.nchunk]
      obtain ⟨y, hy, hVar, hReady, hSupplies⟩ := fetchInput_ok hE hS hRet hk hi hReady hReadable
      exact ⟨y, hy, ⟨hVar ▸ hType, fetchInput_dtype hTRet hType hy⟩, ⟨hReady, hVar ▸ hReadable⟩,
        hSupplies⟩) ((List.forall₂_and_left _ _).mpr ⟨hT, h.operands⟩)
  obtain ⟨hTypes, hReady⟩ := (List.forall₂_and_left _ _).mp hBoth
  refine ⟨itr₁, value, fetched, hNext, hFetched, hPlaced, hNumber, hGet, ?_, hTypes,
    hReady.imp fun y A hy => hy.1⟩
  exact
    { out := hRet
      rank := hRank
      chunk := hk
      blockIndex := hOfChunk.blockIndex
      params := hParams
      inputs := List.forall₂_map_left_iff.mpr (hReady.imp fun y A hy => hy.2) }

/-- A round computes its chunk. -/
theorem iterbloscRound_ok (hE : E.Lawful) (hS : S.ViewsCompressed) (hRet : Writable ret)
    (hRank : ret.catarr.axes ≠ []) (hFunc : e.exprFunc = some f)
    (hf : CellwiseOn (CallOf T ret As.length) E.machine f g) (hTRet : T ret.dtshape.dtype)
    (hParams : e.userParams.length ≤ exprUserParamsMax) (hFew : As.length ≤ dimensionMax)
    (h : BloscEvaluated S ret As (elementwise g As) itr s)
    (hT : ∀ o ∈ s.2, T o.var.dtshape.dtype) (hk : itr.nblock < ret.catarr.nchunks) :
    ∃ itr' s', (iterbloscRound E S e ret itr s).outcome = .ok (itr', s') ∧
      (BloscEvaluated S ret As (elementwise g As) itr' s' ∧ ∀ o ∈ s'.2, T o.var.dtshape.dtype) ∧
      itr'.nblock = itr.nblock + 1 := by
  have hMany : As.length ≤ exprOperandsMax := hFew.trans (by decide)
  have hLen : s.2.length ≤ exprOperandsMax := h.operands.length_eq.trans_le hMany
  obtain ⟨itr₁, value, fetched, hNext, hFetched, hPlaced, hNumber, hGet, hSupplied, hTypes, hReady⟩ :=
    iterbloscRound_supplied hE hS hRet hRank hTRet hParams hMany h hT hk
  have hInputs : (fetched.map fun x => (x.1.var, x.2)).length ≤ dimensionMax := by
    rw [List.length_map, hReady.length_eq]
    exact hFew
  have hInputTypes : ∀ x ∈ fetched.map (fun x => (x.1.var, x.2)), T (x.2.dtype x.1) :=
    List.forall_mem_map.mpr fun y hy => (hTypes y hy).2
  obtain ⟨items, hItems, hCells⟩ := compressChunk_ok (E := E) hSupplied hInputs hInputTypes hFunc hf
  have hEvaluated : Evaluated ret true (elementwise g As)
      { itr₁ with block := chunkItems items, compressedChunkBuffer := true } := by
    refine h.toEvaluated.advance hRet.plain ⟨⟨hPlaced.cont, hPlaced.blockShape,
      hPlaced.contEshape, hPlaced.total, hPlaced.external⟩, hPlaced.bound, fun _ => .inl rfl⟩
      hNumber hGet fun x hx hChunk => ?_
    have hAxes : itr₁.cont.catarr.axes = ret.catarr.axes := hPlaced.axes_eq hRet.plain
    rw [IterWriteBlock.pending, if_pos rfl, CatArray.blockshape, hAxes]
    exact hCells x hx hChunk
  refine ⟨_, (s.1 + 1, fetched.map Prod.fst), ?_, ⟨⟨hEvaluated, ?_, ?_⟩,
    List.forall_mem_map.mpr fun y hy => (hTypes y hy).1⟩, hNumber⟩
  · refine Logged.bind_eq_ok.mpr ⟨(itr₁, value), hNext, ?_⟩
    refine Logged.bind_eq_ok.mpr ⟨fetched, hFetched, ?_⟩
    refine Logged.bind_eq_ok.mpr ⟨items, hItems, ?_⟩
    exact Logged.bind_eq_ok.mpr ⟨(), Table.each_ok hLen, rfl⟩
  · show s.1 + 1 = itr₁.nblock
    rw [hNumber, h.nchunk]
  · show List.Forall₂ (fun o A => Operand.Ready S ret itr₁.nblock o A ∧ _) _ _
    rw [hNumber]
    exact List.forall₂_map_left_iff.mpr hReady

/-- An operand that cannot be read is refused before a block is computed. -/
theorem fetchInputs_refused (hE : E.Lawful) (hS : S.ViewsCompressed) (hRet : Writable ret)
    (hFew : s.2.length ≤ exprOperandsMax) (hNumber : s.1 = itr.nblock)
    (hOperands : List.Forall₂ (fun o A => o.Ready S ret itr.nblock A ∧
      (o.var.Readable ret.catarr.chunkshape ∨ o.var.Unreadable)) s.2 As)
    (hSome : ∃ o ∈ s.2, o.var.Unreadable) (hk : itr.nblock < ret.catarr.nchunks) :
    (s.2.zipIdx.mapM (fetchInput E S ret s.1)).outcome = .error (.code .invalidDtype) := by
  have hRefused : ∀ o A i, o.Ready S ret itr.nblock A → o.var.Unreadable → i < exprOperandsMax →
      (fetchInput E S ret s.1 (o, i)).outcome = inaError .invalidDtype := by
    intro o A i hReady hBad hi
    rw [hNumber]
    exact fetchInput_refused hE hRet hk hi hReady hBad.1 hBad.2
  refine Logged.mapM_zipIdx_of_error hFew (fun o A i ho hi => ?_) hOperands ?_
  · rcases ho.2 with hReadable | hBad
    · left
      rw [hNumber]
      obtain ⟨y, hy, -⟩ := fetchInput_ok hE hS hRet hk hi ho.1 hReadable
      exact ⟨y, hy⟩
    · exact .inr (hRefused o A i ho.1 hBad hi)
  · obtain ⟨o, ho, hBad⟩ := hSome
    exact ⟨o, ho, fun A i hReady hi => hRefused o A i hReady.1 hBad hi⟩

/-- A round in front of an operand that cannot be read fails. -/
theorem iterbloscRound_refused (hE : E.Lawful) (hS : S.ViewsCompressed) (hRet : Writable ret)
    (hRank : ret.catarr.axes ≠ []) (hFew : s.2.length ≤ exprOperandsMax)
    (h : Placed ret true itr) (hNumber : s.1 = itr.nblock)
    (hOperands : List.Forall₂ (fun o A => o.Ready S ret itr.nblock A ∧
      (o.var.Readable ret.catarr.chunkshape ∨ o.var.Unreadable)) s.2 As)
    (hSome : ∃ o ∈ s.2, o.var.Unreadable) (hk : itr.nblock < ret.catarr.nchunks) :
    (iterbloscRound E S e ret itr s).outcome = inaError .invalidDtype := by
  obtain ⟨itr₁, value, hNext, -⟩ := h.nextChunk_ok hE hRet hRank hk
  have hFetched := fetchInputs_refused hE hS hRet hFew hNumber hOperands hSome hk
  refine Logged.bind_eq_error.mpr (.inr ⟨(itr₁, value), hNext, ?_⟩)
  exact Logged.bind_eq_error.mpr (.inl hFetched)

end Iterblosc

/-! ## The method "iterchunk" -/

/-- The iterator of an operand in front of chunk `k` of the output. -/
structure ChunkReady (ret : Container) (k : Nat) (r : IterReadBlock) (A : NdArray Cell) : Prop
    extends Shaped ret r.cont A where
  reading : Reading r.cont A ret.catarr.chunkshape false false r
  number : r.nblock = k

/-- The chunks so far hold the values, and the iterators are in front of the next one. -/
structure ChunkEvaluated (ret : Container) (As : List (NdArray Cell)) (F : List Nat → Cell)
    (itr : IterWriteBlock) (s : ChunkState) : Prop extends Evaluated ret false F itr where
  written : s.1 = offset (chunkLen ret.catarr.axes) itr.nblock
  own : itr.compressedChunkBuffer = false
  operands : List.Forall₂ (fun r A => ChunkReady ret itr.nblock r A ∧
    r.cont.Readable ret.catarr.chunkshape) s.2 As

section Iterchunk

variable {E : Backend} {S : Surroundings} {e : Expression} {ret : Container} {f : EvalFn}
  {g : List Cell → Cell} {A : NdArray Cell} {As : List (NdArray Cell)} {itr : IterWriteBlock}
  {s : ChunkState} {k i : Nat} {T : Dtype → Prop}

/-- An operand hands out its block at a chunk of the output. -/
theorem chunkInput_ok (hE : E.Lawful) (hRet : Writable ret) (hk : k < ret.catarr.nchunks)
    (hi : i < exprOperandsMax) {r : IterReadBlock} (h : ChunkReady ret k r A)
    (hReadable : r.cont.Readable ret.catarr.chunkshape) :
    ∃ y, (chunkInput E (r, i)).outcome = .ok y ∧ ChunkReady ret (k + 1) y.1 A ∧
      y.1.cont = r.cont ∧ y.2.Supplies E.machine A (chunkExtent ret.catarr.axes k)
        (chunkStart ret.catarr.axes k) (chunkExtent ret.catarr.axes k) := by
  obtain ⟨r', v, hNext, hReading, hNumber, hAt⟩ :=
    h.toShaped.readNext_ok hE hRet hReadable h.reading (h.number.trans_lt hk)
  rw [h.number] at hNumber hAt
  have hCont : r'.cont = r.cont := hReading.cont
  have hCounts := h.toShaped.counts hRet.plain
  have hStart : v.elemIndex = chunkStart ret.catarr.axes k := by
    rw [hAt.elemIndex, hCounts]
    rfl
  have hShape : v.blockShape = chunkExtent ret.catarr.axes k := by
    rw [hAt.blockShape, hCounts, h.toShaped.axes hRet.plain]
    rfl
  refine ⟨(r', ⟨r'.cont.dtshape.dtype, v.blockPointer, 0⟩), ?_, ?_, hCont, fun y hy => ?_⟩
  · refine Logged.bind_eq_ok.mpr ⟨(r', v), hNext, ?_⟩
    refine Logged.bind_eq_ok.mpr ⟨(), Table.index_ok hi, ?_⟩
    exact Logged.bind_eq_ok.mpr ⟨(), Table.index_ok hi, rfl⟩
  · have hShaped : Shaped ret r'.cont A := by
      rw [hCont]
      exact h.toShaped
    have hReading' : Reading r'.cont A ret.catarr.chunkshape false false r' := by
      rw [hCont]
      exact hReading
    exact ⟨hShaped, hReading', hNumber⟩
  · have hHolds := hAt.holds y (hShape ▸ hy)
    rw [bufferShape, if_neg Bool.false_ne_true, hShape, hStart] at hHolds
    rw [Pointer.load, Nat.zero_add]
    exact (loadAt_aligned _ _ _ _).trans hHolds

theorem chunkInput_dtype {x : IterReadBlock × Nat} {y : IterReadBlock × Pointer}
    (h : (chunkInput E x).outcome = .ok y) : y.2.dtype = y.1.cont.dtshape.dtype := by
  obtain ⟨_, -, h⟩ := Logged.bind_eq_ok.mp h
  obtain ⟨-, -, h⟩ := Logged.bind_eq_ok.mp h
  obtain ⟨-, -, h⟩ := Logged.bind_eq_ok.mp h
  cases h
  rfl

/-- The part of a chunk inside the array is no larger than a chunk. -/
theorem chunkExtent_prod_le {axes : List Axis} (hPos : ∀ a ∈ axes, 0 < a.shape) (k : Nat) :
    (chunkExtent axes k).prod ≤ (axes.map Axis.extchunkshape).prod := by
  have hTiles : ∀ t : List Nat, t.length = axes.length →
      (tileShape (shapeOf axes) (chunkshapeOf axes) t).prod ≤
        (axes.map Axis.extchunkshape).prod := by
    induction axes with
    | nil => exact fun t _ => Nat.le_refl _
    | cons a axes ih =>
      intro t ht
      obtain ⟨i, t, rfl⟩ := List.exists_cons_of_length_eq_add_one ht
      have hFirst : 0 < a.shape := hPos a List.mem_cons_self
      have hChunk : a.chunkshape ≤ a.extchunkshape := by
        rw [Axis.extchunkshape, if_neg hFirst.ne']
        exact Axis.chunkshape_le_blocks hFirst
      show min a.chunkshape (a.shape - i * a.chunkshape) *
        (tileShape (shapeOf axes) (chunkshapeOf axes) t).prod ≤ _
      exact Nat.mul_le_mul ((Nat.min_le_left _ _).trans hChunk)
        (ih (fun x hx => hPos x (List.mem_cons_of_mem _ hx)) t (by simpa using ht))
  exact hTiles _ (by simp)

/-- A round computes its chunk. -/
theorem iterchunkRound_ok (hE : E.Lawful) (hRet : Writable ret) (hRank : ret.catarr.axes ≠ [])
    (hFunc : e.exprFunc = some f) (hf : CellwiseOn (CallOf T ret As.length) E.machine f g)
    (hSize : e.typesize = ret.catarr.itemsize) (hFew : As.length ≤ exprOperandsMax)
    (h : ChunkEvaluated ret As (elementwise g As) itr s)
    (hT : ∀ r ∈ s.2, T r.cont.dtshape.dtype) (hk : itr.nblock < ret.catarr.nchunks) :
    ∃ itr' s', (iterchunkRound E e ret itr s).outcome = .ok (itr', s') ∧
      (ChunkEvaluated ret As (elementwise g As) itr' s' ∧ ∀ r ∈ s'.2, T r.cont.dtshape.dtype) ∧
      itr'.nblock = itr.nblock + 1 := by
  have hLen : s.2.length ≤ exprOperandsMax := h.operands.length_eq.trans_le hFew
  obtain ⟨itr₁, value, hNext, hPlaced, hNumber, hShape, hFlag, hOfChunk, hGet⟩ :=
    h.toPlaced.nextOwn_ok hE hRet hRank hk
  obtain ⟨read, hRead, hBoth⟩ := Logged.mapM_zipIdx_ok (n := 0) (f := chunkInput E)
    (R := fun r A => T r.cont.dtshape.dtype ∧ ChunkReady ret itr.nblock r A ∧
      r.cont.Readable ret.catarr.chunkshape)
    (Q := fun y A => (T y.1.cont.dtshape.dtype ∧ T y.2.dtype) ∧
      (ChunkReady ret (itr.nblock + 1) y.1 A ∧ y.1.cont.Readable ret.catarr.chunkshape) ∧
      y.2.Supplies E.machine A (chunkExtent ret.catarr.axes itr.nblock)
        (chunkStart ret.catarr.axes itr.nblock) (chunkExtent ret.catarr.axes itr.nblock))
    ((Nat.zero_add _).trans_le hLen) (fun r A i hr hi => by
      obtain ⟨hType, hReady, hReadable⟩ := hr
      obtain ⟨y, hy, hReady, hCont, hSupplies⟩ := chunkInput_ok hE hRet hk hi hReady hReadable
      have hKept : T y.1.cont.dtshape.dtype := hCont.symm ▸ hType
      exact ⟨y, hy, ⟨hKept, (chunkInput_dtype hy).symm ▸ hKept⟩, ⟨hReady, hCont ▸ hReadable⟩,
        hSupplies⟩) ((List.forall₂_and_left _ _).mpr ⟨hT, h.operands⟩)
  obtain ⟨hTypes, hReady⟩ := (List.forall₂_and_left _ _).mp hBoth
  have hInputs : List.Forall₂ (fun q A => q.Supplies E.machine A value.blockShape
      (chunkStart ret.catarr.axes itr.nblock) value.blockShape) (read.map Prod.snd) As := by
    rw [hOfChunk.blockShape]
    exact List.forall₂_map_left_iff.mpr (hReady.imp fun y A hy => hy.2)
  have hBytes : value.blockSize * e.typesize ≤ ret.catarr.chunksize := by
    rw [hSize, hOfChunk.blockSize]
    exact Nat.mul_le_mul_right _ (chunkExtent_prod_le hRet.pos _)
  obtain ⟨block, hBlock, hCells⟩ := callExpr_ok (p :=
    { inputs := read.map Prod.snd
      inputTypesizes := s.2.map fun itr => itr.cont.catarr.itemsize
      outSize := value.blockSize * e.typesize
      outTypesize := ret.catarr.itemsize
      ndim := ret.dtshape.ndim
      window := ⟨value.elemIndex, value.blockShape, computeStrides value.blockShape⟩
      userParams := List.replicate exprUserParamsMax (.bits 0) }) hFunc hf
    ⟨(List.length_map _).trans hReady.length_eq, List.forall_mem_map.mpr fun y hy => (hTypes y hy).2,
      rfl, ⟨_, (congrArg _ hSize).trans (Nat.mul_comm _ _)⟩, hBytes⟩ (computeStrides_eq _)
    (fun y hy => hy)
    (fun y hy => by
      dsimp only
      rw [hSize, hOfChunk.blockSize, ← hOfChunk.blockShape]
      exact Nat.mul_lt_mul_of_pos_right (flat_lt hy) hRet.plain.fresh.sized.1)
    hInputs value.blockPointer
  have hEvaluated : Evaluated ret false (elementwise g As) { itr₁ with block := block } := by
    refine h.toEvaluated.advance hRet.plain ⟨⟨hPlaced.cont, hPlaced.blockShape,
      hPlaced.contEshape, hPlaced.total, hPlaced.external⟩, hPlaced.bound, hPlaced.block⟩
      hNumber hGet fun x hx hChunk => ?_
    have hAxes : itr₁.cont.catarr.axes = ret.catarr.axes := hPlaced.axes_eq hRet.plain
    obtain ⟨y, hy, hEq⟩ := exists_in_chunk hRet.pos hx
    rw [hChunk] at hy hEq
    have hRegion := region_chunk hRet.pos hk
    have hSame : (chunkStart ret.catarr.axes itr.nblock).length = y.length :=
      hRegion.start_length.trans (hRegion.length.symm.trans hy.length_eq.symm)
    have hOwn : ¬ itr₁.compressedChunkBuffer = true := by
      rw [hFlag, h.own]
      exact Bool.false_ne_true
    rw [IterWriteBlock.pending, if_neg hOwn]
    show block (flat itr₁.curBlockShape (within (chunkStart itr₁.cont.catarr.axes
      (itr₁.nblock - 1)) x)) = _
    rw [hAxes, hNumber, Nat.add_sub_cancel, hShape, ← hEq, within_addIdx hSame,
      ← hOfChunk.blockShape]
    apply hCells
    rwa [hOfChunk.blockShape]
  refine ⟨_, (s.1 + value.blockSize, read.map Prod.fst), ?_, ⟨⟨hEvaluated, ?_, ?_, ?_⟩,
    List.forall_mem_map.mpr fun y hy => (hTypes y hy).1⟩, hNumber⟩
  · refine Logged.bind_eq_ok.mpr ⟨(itr₁, value), hNext, ?_⟩
    refine Logged.bind_eq_ok.mpr ⟨read, hRead, ?_⟩
    refine Logged.bind_eq_ok.mpr ⟨(), Logged.forM_ok fun _ _ => rfl, ?_⟩
    exact Logged.bind_eq_ok.mpr ⟨block, hBlock, rfl⟩
  · show s.1 + value.blockSize = offset _ itr₁.nblock
    rw [hNumber, h.written, hOfChunk.blockSize]
    rfl
  · exact hFlag.trans h.own
  · show List.Forall₂ (fun r A => ChunkReady ret itr₁.nblock r A ∧ _) _ _
    rw [hNumber]
    exact List.forall₂_map_left_iff.mpr (hReady.imp fun y A hy => hy.1)

theorem chunkInput_refused (hE : E.Lawful) (hRet : Writable ret) (hk : k < ret.catarr.nchunks)
    {r : IterReadBlock} (h : ChunkReady ret k r A) (hBad : r.cont.Unreadable) :
    (chunkInput E (r, i)).outcome = inaError .invalidDtype :=
  Logged.bind_eq_error.mpr (.inl (h.toShaped.readNext_refused hE hRet hBad.1 hBad.2 h.reading
    (h.number.trans_lt hk)))

/-- A round in front of an operand that cannot be read fails. -/
theorem iterchunkRound_refused (hE : E.Lawful) (hRet : Writable ret) (hRank : ret.catarr.axes ≠ [])
    (hFew : s.2.length ≤ exprOperandsMax) (h : Placed ret false itr)
    (hOperands : List.Forall₂ (fun r A => ChunkReady ret itr.nblock r A ∧
      (r.cont.Readable ret.catarr.chunkshape ∨ r.cont.Unreadable)) s.2 As)
    (hSome : ∃ r ∈ s.2, r.cont.Unreadable) (hk : itr.nblock < ret.catarr.nchunks) :
    (iterchunkRound E e ret itr s).outcome = inaError .invalidDtype := by
  obtain ⟨itr₁, value, hNext, -⟩ := h.nextOwn_ok hE hRet hRank hk
  have hRead : (s.2.zipIdx.mapM (chunkInput E)).outcome = .error (.code .invalidDtype) := by
    refine Logged.mapM_zipIdx_of_error hFew (fun r A i hr hi => ?_) hOperands ?_
    · rcases hr.2 with hReadable | hBad
      · left
        obtain ⟨y, hy, -⟩ := chunkInput_ok hE hRet hk hi hr.1 hReadable
        exact ⟨y, hy⟩
      · exact .inr (chunkInput_refused hE hRet hk hr.1 hBad)
    · obtain ⟨r, hr, hBad⟩ := hSome
      exact ⟨r, hr, fun A i hReady _ => chunkInput_refused hE hRet hk hReady.1 hBad⟩
  refine Logged.bind_eq_error.mpr (.inr ⟨(itr₁, value), hNext, ?_⟩)
  exact Logged.bind_eq_error.mpr (.inl hRead)

end Iterchunk

/-! ## Evaluations -/

/-- An expression that was made, bound and compiled. -/
def Prepared (jug : Jug) (e : Expression) : Prop :=
  ∃ method dataType dtshape store e₀ calls e₁ source,
    iarrayExprNew method dataType dtshape store = .ok e₀ ∧ (bindAll e₀ calls).outcome = .ok e₁ ∧
      (compileSource jug e₁ source).outcome = .ok e

/-- The operands are arrays, slice views and transposed arrays of the shape and the item size of the
output. -/
def OperandsOf (E : Backend) (e : Expression) (As : List (NdArray Cell)) : Prop :=
  List.Forall₂ (fun v A => Bindable E v.2 A ∧ A.shape = e.outDtshape.shape ∧
    v.2.dtshape.dtypeSize = e.outDtshape.dtypeSize) e.vars As

section Evaluation

variable {E : Backend} {S : Surroundings} {e : Expression} {ret : Container} {f : EvalFn}
  {g : List Cell → Cell} {As : List (NdArray Cell)}

theorem Prepared.bounded {jug : Jug} (h : Prepared jug e) : e.Bounded := by
  obtain ⟨_, _, _, _, e₀, calls, e₁, source, hNew, hBind, hCompile⟩ := h
  have hBounded := bindAll_bounded (bounded_of_new hNew) hBind
  obtain ⟨hVars, hParams⟩ := compile_tables hCompile
  exact ⟨hVars ▸ hBounded.vars, hParams ▸ hBounded.userParams⟩

theorem Prepared.sizes {jug : Jug} (h : Prepared jug e) :
    e.typesize = e.outDtshape.dtypeSize ∧
      e.nbytes = e.outDtshape.shape.prod * e.outDtshape.dtypeSize := by
  obtain ⟨_, _, _, _, _, _, _, _, -, -, hCompile⟩ := h
  exact (compileSource_compiled hCompile).2

theorem setUpOperand_var {outChunkshape : List Nat} {c : Container} {o : Operand}
    (h : setUpOperand E S ret outChunkshape c = .ok o) : o.var = c := by
  unfold setUpOperand at h
  split at h
  · cases h
    rfl
  · obtain ⟨_, _, h⟩ := Result.bind_eq_ok.mp h
    cases h
    rfl

/-- All operands are set up. -/
theorem setUpOperands_ok (hRet : Writable ret) {P : Container → Prop}
    (hVars : List.Forall₂ (fun v A => Matching ret v.2 A ∧ P v.2) e.vars As) :
    ∃ operands, e.vars.mapM (fun v => setUpOperand E S ret ret.storage.chunkshape v.2) =
        .ok operands ∧
      List.Forall₂ (fun o A => o.Ready S ret 0 A ∧ P o.var) operands As ∧
      ∀ v ∈ e.vars, ∃ o ∈ operands, o.var = v.2 := by
  obtain ⟨operands, hOperands, hReady⟩ := Result.mapM_forall₂
    (f := fun v => setUpOperand E S ret ret.storage.chunkshape v.2)
    (Q := fun o A => o.Ready S ret 0 A ∧ P o.var)
    (fun v A hv => by
      obtain ⟨o, ho, hVar, hReady⟩ := setUpOperand_ok (E := E) (S := S) hRet hv.1
      exact ⟨o, ho, hReady, hVar ▸ hv.2⟩) hVars
  refine ⟨operands, hOperands, hReady, fun v hv => ?_⟩
  obtain ⟨o, ho, hOk⟩ := exists_of_forall₂ (Result.mapM_eq_ok hOperands).flip hv
  exact ⟨o, ho, setUpOperand_var hOk⟩

theorem readBlockNew_cont {c : Container} {bs : List Nat} {external : Bool} {r : IterReadBlock}
    (h : iarrayIterReadBlockNew E c bs external = .ok r) : r.cont = c := by
  obtain ⟨_, _, h⟩ := Result.bind_eq_ok.mp h
  cases h
  rfl

/-- All operands get iterators. -/
theorem readBlocksNew_ok (hRet : Writable ret) {P : Container → Prop}
    (hVars : List.Forall₂ (fun v A => Matching ret v.2 A ∧ P v.2) e.vars As) :
    ∃ iterVar, e.vars.mapM (fun v => iarrayIterReadBlockNew E v.2
        (operandBlockshape S ret.storage.chunkshape v.2) false) = .ok iterVar ∧
      List.Forall₂ (fun r A => ChunkReady ret 0 r A ∧ P r.cont) iterVar As ∧
      ∀ v ∈ e.vars, ∃ r ∈ iterVar, r.cont = v.2 := by
  obtain ⟨iterVar, hIterVar, hReady⟩ := Result.mapM_forall₂
    (f := fun v => iarrayIterReadBlockNew E v.2
      (operandBlockshape S ret.storage.chunkshape v.2) false)
    (Q := fun r A => ChunkReady ret 0 r A ∧ P r.cont)
    (fun v A hv => by
      obtain ⟨r, hNew, hReading, hFirst⟩ := hv.1.newUnpadded (E := E) (S := S) hRet
      have hCont := readBlockNew_cont hNew
      rw [← hCont] at hReading
      exact ⟨r, hNew, ⟨hCont.symm ▸ hv.1.toShaped, hReading, hFirst⟩, hCont.symm ▸ hv.2⟩) hVars
  refine ⟨iterVar, hIterVar, hReady, fun v hv => ?_⟩
  obtain ⟨r, hr, hOk⟩ := exists_of_forall₂ (Result.mapM_eq_ok hIterVar).flip hv
  exact ⟨r, hr, readBlockNew_cont hOk⟩

/-- The method "iterblosc" on operands of certain types. -/
theorem iterblosc_on {T : Dtype → Prop} (hE : E.Lawful) (hS : S.ViewsCompressed) (hRet : Writable ret)
    (hRank : ret.catarr.axes ≠ []) (hFunc : e.exprFunc = some f)
    (hf : CellwiseOn (CallOf T ret As.length) E.machine f g) (hTRet : T ret.dtshape.dtype)
    (hBounded : e.Bounded) (hFew : e.vars.length ≤ dimensionMax)
    (hVars : List.Forall₂ (fun v A => Matching ret v.2 A ∧
      v.2.Readable ret.catarr.chunkshape) e.vars As) (hT : ∀ v ∈ e.vars, T v.2.dtshape.dtype) :
    ∃ c, (iarrayEvalIterblosc E S e ret ret.storage.chunkshape).outcome = .ok c ∧
      PlainOf ret.dtshape ret.storage c ∧
      ∀ x, InBox x ret.catarr.shape → c.catarr.get x = elementwise g As x := by
  obtain ⟨operands, hOperands, hBoth, -⟩ := setUpOperands_ok (E := E) (S := S) hRet
    (P := fun c => c.Readable ret.catarr.chunkshape ∧ T c.dtshape.dtype)
    (((List.forall₂_and_left _ _).mpr ⟨hT, hVars⟩).imp fun v A hv => ⟨hv.2.1, hv.2.2, hv.1⟩)
  have hReady : List.Forall₂ (fun o A => o.Ready S ret 0 A ∧
      o.var.Readable ret.catarr.chunkshape) operands As := hBoth.imp fun o A ho => ⟨ho.1, ho.2.1⟩
  have hTypes : ∀ o ∈ operands, T o.var.dtshape.dtype := by
    intro o ho
    obtain ⟨A, -, hBoth⟩ := exists_of_forall₂ hBoth.flip ho
    exact hBoth.2.2
  obtain ⟨iterOut, hIterOut, hFirst, -, hPlaced⟩ := placed_new (E := E) hRet hRank true
  have hStart : BloscEvaluated S ret As (elementwise g As) iterOut (0, operands) :=
    { toPlaced := hPlaced
      shown := fun x _ hChunk => absurd hChunk (hFirst ▸ Nat.not_lt_zero _)
      nchunk := hFirst.symm
      operands := by
        rw [hFirst]
        exact hReady }
  have hRounds : iterOut.nblock + iterOut.totalBlocks = ret.catarr.nchunks := by
    rw [hFirst, hPlaced.total, Nat.zero_add]
  obtain ⟨itr', s', hLoop, hCont, hGet, -⟩ := evalLoop_ok hE hRet (fun _ _ h => h.1.toEvaluated)
    (fun _ _ h hk => iterbloscRound_ok hE hS hRet hRank hFunc hf hTRet hBounded.userParams
      (hVars.length_eq.symm.trans_le hFew) h.1 h.2 hk) hRounds ⟨hStart, hTypes⟩
  refine ⟨itr'.cont, ?_, hCont, hGet⟩
  refine Logged.bind_eq_ok.mpr ⟨(), Table.each_ok hBounded.vars, ?_⟩
  refine Logged.bind_eq_ok.mpr ⟨(), Table.each_ok hBounded.vars, ?_⟩
  refine Logged.bind_eq_ok.mpr ⟨(), Table.each_ok hBounded.vars, ?_⟩
  refine Logged.bind_eq_ok.mpr ⟨operands, hOperands, ?_⟩
  refine Logged.bind_eq_ok.mpr ⟨iterOut, hIterOut, ?_⟩
  exact Logged.bind_eq_ok.mpr ⟨(itr', s'), hLoop, rfl⟩

theorem iterblosc_ok (hE : E.Lawful) (hS : S.ViewsCompressed) (hRet : Writable ret)
    (hRank : ret.catarr.axes ≠ []) (hFunc : e.exprFunc = some f) (hf : Cellwise E.machine f g)
    (hBounded : e.Bounded) (hFew : e.vars.length ≤ dimensionMax)
    (hVars : List.Forall₂ (fun v A => Matching ret v.2 A ∧
      v.2.Readable ret.catarr.chunkshape) e.vars As) :
    ∃ c, (iarrayEvalIterblosc E S e ret ret.storage.chunkshape).outcome = .ok c ∧
      PlainOf ret.dtshape ret.storage c ∧
      ∀ x, InBox x ret.catarr.shape → c.catarr.get x = elementwise g As x :=
  iterblosc_on (T := fun _ => True) hE hS hRet hRank hFunc (hf.on _) trivial hBounded hFew hVars
    fun _ _ => trivial

/-- The method "iterchunk" on operands of certain types. -/
theorem iterchunk_on {T : Dtype → Prop} (hE : E.Lawful) (hRet : Writable ret)
    (hRank : ret.catarr.axes ≠ []) (hFunc : e.exprFunc = some f)
    (hf : CellwiseOn (CallOf T ret As.length) E.machine f g) (hBounded : e.Bounded)
    (hDtshape : e.outDtshape = ret.dtshape) (hSize : e.typesize = e.outDtshape.dtypeSize)
    (hBytes : e.nbytes = e.outDtshape.shape.prod * e.outDtshape.dtypeSize)
    (hVars : List.Forall₂ (fun v A => Matching ret v.2 A ∧
      v.2.Readable ret.catarr.chunkshape) e.vars As) (hT : ∀ v ∈ e.vars, T v.2.dtshape.dtype) :
    ∃ c, (iarrayEvalIterchunk E S e ret ret.storage.chunkshape).outcome = .ok c ∧
      PlainOf ret.dtshape ret.storage c ∧
      ∀ x, InBox x ret.catarr.shape → c.catarr.get x = elementwise g As x := by
  obtain ⟨iterVar, hIterVar, hBoth, -⟩ := readBlocksNew_ok (E := E) (S := S) hRet
    (P := fun c => c.Readable ret.catarr.chunkshape ∧ T c.dtshape.dtype)
    (((List.forall₂_and_left _ _).mpr ⟨hT, hVars⟩).imp fun v A hv => ⟨hv.2.1, hv.2.2, hv.1⟩)
  have hReady : List.Forall₂ (fun r A => ChunkReady ret 0 r A ∧
      r.cont.Readable ret.catarr.chunkshape) iterVar As := hBoth.imp fun r A hr => ⟨hr.1, hr.2.1⟩
  have hTypes : ∀ r ∈ iterVar, T r.cont.dtshape.dtype := by
    intro r hr
    obtain ⟨A, -, hBoth⟩ := exists_of_forall₂ hBoth.flip hr
    exact hBoth.2.2
  have hItem : e.typesize = ret.catarr.itemsize := by
    rw [hSize, hDtshape]
    exact hRet.plain.fresh.itemsize.symm
  obtain ⟨iterOut, hIterOut, hFirst, hOwn, hPlaced⟩ := placed_new (E := E) hRet hRank false
  have hStart : ChunkEvaluated ret As (elementwise g As) iterOut (0, iterVar) :=
    { toPlaced := hPlaced
      shown := fun x _ hChunk => absurd hChunk (hFirst ▸ Nat.not_lt_zero _)
      written := by
        rw [hFirst]
        rfl
      own := hOwn
      operands := by
        rw [hFirst]
        exact hReady }
  have hRounds : iterOut.nblock + iterOut.totalBlocks = ret.catarr.nchunks := by
    rw [hFirst, hPlaced.total, Nat.zero_add]
  obtain ⟨itr', s', hLoop, hCont, hGet, last, hLast, hEnd⟩ :=
    evalLoop_ok hE hRet (fun _ _ h => h.1.toEvaluated)
      (fun _ _ h hk => iterchunkRound_ok hE hRet hRank hFunc hf hItem
        (hVars.length_eq.symm.trans_le hBounded.vars) h.1 h.2 hk) hRounds ⟨hStart, hTypes⟩
  have hWritten : s'.1 = ret.dtshape.shape.prod := by
    rw [hLast.1.written, hEnd, CatArray.nchunks, offset_nchunks hRet.pos]
    exact congrArg List.prod hRet.plain.fresh.shape
  have hClean : iarrayEvalCleanup e s'.1 = .ok () := by
    have hSome : e.typesize ≠ 0 := by
      rw [hSize]
      exact (Dtype.size_pos _).ne'
    have hItems : e.nbytes / e.typesize = s'.1 := by
      rw [hBytes, hSize, hWritten, hDtshape]
      exact Nat.mul_div_cancel _ (Dtype.size_pos _)
    rw [iarrayEvalCleanup, idiv, if_neg hSome, Result.ok_bind, hItems, if_neg (not_not.mpr rfl)]
    rfl
  refine ⟨itr'.cont, ?_, hCont, hGet⟩
  refine Logged.bind_eq_ok.mpr ⟨(), Table.each_ok hBounded.vars, ?_⟩
  refine Logged.bind_eq_ok.mpr ⟨iterVar, hIterVar, ?_⟩
  refine Logged.bind_eq_ok.mpr ⟨iterOut, hIterOut, ?_⟩
  refine Logged.bind_eq_ok.mpr ⟨(), Table.each_ok hBounded.vars, ?_⟩
  refine Logged.bind_eq_ok.mpr ⟨(), Table.each_ok hBounded.vars, ?_⟩
  refine Logged.bind_eq_ok.mpr ⟨(), Table.each_ok hBounded.vars, ?_⟩
  refine Logged.bind_eq_ok.mpr ⟨(itr', s'), hLoop, ?_⟩
  exact Logged.bind_eq_ok.mpr ⟨(), hClean, rfl⟩

theorem iterchunk_ok (hE : E.Lawful) (hRet : Writable ret) (hRank : ret.catarr.axes ≠ [])
    (hFunc : e.exprFunc = some f) (hf : Cellwise E.machine f g) (hBounded : e.Bounded)
    (hDtshape : e.outDtshape = ret.dtshape) (hSize : e.typesize = e.outDtshape.dtypeSize)
    (hBytes : e.nbytes = e.outDtshape.shape.prod * e.outDtshape.dtypeSize)
    (hVars : List.Forall₂ (fun v A => Matching ret v.2 A ∧
      v.2.Readable ret.catarr.chunkshape) e.vars As) :
    ∃ c, (iarrayEvalIterchunk E S e ret ret.storage.chunkshape).outcome = .ok c ∧
      PlainOf ret.dtshape ret.storage c ∧
      ∀ x, InBox x ret.catarr.shape → c.catarr.get x = elementwise g As x :=
  iterchunk_on (T := fun _ => True) hE hRet hRank hFunc (hf.on _) hBounded hDtshape hSize hBytes
    hVars fun _ _ => trivial

theorem iterblosc_refused (hE : E.Lawful) (hS : S.ViewsCompressed) (hRet : Writable ret)
    (hRank : ret.catarr.axes ≠ []) (hBounded : e.Bounded)
    (hVars : List.Forall₂ (fun v A => Matching ret v.2 A ∧
      (v.2.Readable ret.catarr.chunkshape ∨ v.2.Unreadable)) e.vars As)
    (hSome : ∃ v ∈ e.vars, v.2.Unreadable) :
    (iarrayEvalIterblosc E S e ret ret.storage.chunkshape).outcome = inaError .invalidDtype := by
  obtain ⟨operands, hOperands, hReady, hAll⟩ := setUpOperands_ok (E := E) (S := S) hRet
    (P := fun c => c.Readable ret.catarr.chunkshape ∨ c.Unreadable) hVars
  obtain ⟨v, hv, hBad⟩ := hSome
  obtain ⟨o, ho, hEq⟩ := hAll v hv
  obtain ⟨iterOut, hIterOut, hLoop⟩ := evalLoop_refused hE hRet hRank true
    (iterbloscRound E S e ret) (0, operands) fun itr hPlaced hFirst =>
      iterbloscRound_refused hE hS hRet hRank
        (hReady.length_eq.trans_le (hVars.length_eq.symm.trans_le hBounded.vars)) hPlaced
        hFirst.symm (hFirst ▸ hReady) ⟨o, ho, hEq ▸ hBad⟩
        (hFirst.trans_lt (nchunks_pos hRet.pos).1)
  refine Logged.bind_eq_error.mpr (.inr ⟨(), Table.each_ok hBounded.vars, ?_⟩)
  refine Logged.bind_eq_error.mpr (.inr ⟨(), Table.each_ok hBounded.vars, ?_⟩)
  refine Logged.bind_eq_error.mpr (.inr ⟨(), Table.each_ok hBounded.vars, ?_⟩)
  refine Logged.bind_eq_error.mpr (.inr ⟨operands, hOperands, ?_⟩)
  refine Logged.bind_eq_error.mpr (.inr ⟨iterOut, hIterOut, ?_⟩)
  exact Logged.bind_eq_error.mpr (.inl hLoop)

theorem iterchunk_refused (hE : E.Lawful) (hRet : Writable ret) (hRank : ret.catarr.axes ≠ [])
    (hBounded : e.Bounded)
    (hVars : List.Forall₂ (fun v A => Matching ret v.2 A ∧
      (v.2.Readable ret.catarr.chunkshape ∨ v.2.Unreadable)) e.vars As)
    (hSome : ∃ v ∈ e.vars, v.2.Unreadable) :
    (iarrayEvalIterchunk E S e ret ret.storage.chunkshape).outcome = inaError .invalidDtype := by
  obtain ⟨iterVar, hIterVar, hReady, hAll⟩ := readBlocksNew_ok (E := E) (S := S) hRet
    (P := fun c => c.Readable ret.catarr.chunkshape ∨ c.Unreadable) hVars
  obtain ⟨v, hv, hBad⟩ := hSome
  obtain ⟨r, hr, hEq⟩ := hAll v hv
  obtain ⟨iterOut, hIterOut, hLoop⟩ := evalLoop_refused hE hRet hRank false
    (iterchunkRound E e ret) (0, iterVar) fun itr hPlaced hFirst =>
      iterchunkRound_refused hE hRet hRank
        (hReady.length_eq.trans_le (hVars.length_eq.symm.trans_le hBounded.vars)) hPlaced
        (hFirst ▸ hReady) ⟨r, hr, hEq ▸ hBad⟩ (hFirst.trans_lt (nchunks_pos hRet.pos).1)
  refine Logged.bind_eq_error.mpr (.inr ⟨(), Table.each_ok hBounded.vars, ?_⟩)
  refine Logged.bind_eq_error.mpr (.inr ⟨iterVar, hIterVar, ?_⟩)
  refine Logged.bind_eq_error.mpr (.inr ⟨iterOut, hIterOut, ?_⟩)
  refine Logged.bind_eq_error.mpr (.inr ⟨(), Table.each_ok hBounded.vars, ?_⟩)
  refine Logged.bind_eq_error.mpr (.inr ⟨(), Table.each_ok hBounded.vars, ?_⟩)
  refine Logged.bind_eq_error.mpr (.inr ⟨(), Table.each_ok hBounded.vars, ?_⟩)
  exact Logged.bind_eq_error.mpr (.inl hLoop)

/-- The output of an evaluation. -/
theorem filled_of_empty (hE : E.Lawful)
    (hEmpty : iarrayEmpty E e.outDtshape e.outStoreProperties = .ok ret)
    (hRank : e.outDtshape.ndim ≠ 0) (hPos : ∀ n ∈ e.outDtshape.shape, 0 < n)
    (hShort : ∀ n ∈ e.outStoreProperties.chunkshape, n < 2 ^ 31) :
    Writable ret ∧ ret.catarr.axes ≠ [] := by
  have hPlainOf := iarrayEmpty_plain hE hEmpty
  constructor
  · exact ⟨⟨hPlainOf.plain, hPlainOf.plain.axes_pos (by rwa [hPlainOf.dtshape])⟩,
      by rwa [hPlainOf.storage]⟩
  · intro hNil
    apply hRank
    rw [← hPlainOf.dtshape]
    exact hPlainOf.plain.axes_eq_nil_iff.mp hNil

/-- Each operand can be read, or it is transposed and of other than floating data. -/
theorem OperandsOf.matching (hE : E.Lawful) (hLimits : E.Bounded)
    (hEmpty : iarrayEmpty E e.outDtshape e.outStoreProperties = .ok ret)
    (hPos : ∀ n ∈ e.outDtshape.shape, 0 < n) (h : OperandsOf E e As) :
    List.Forall₂ (fun v A => Matching ret v.2 A ∧
      (v.2.Readable ret.catarr.chunkshape ∨ v.2.Unreadable)) e.vars As := by
  have hPlainOf := iarrayEmpty_plain hE hEmpty
  have hAxes : ∀ x ∈ ret.catarr.axes, 0 < x.shape :=
    hPlainOf.plain.axes_pos (by rwa [hPlainOf.dtshape])
  have hSmall : ∀ d ∈ ret.catarr.chunkshape, d < 2 ^ 31 := by
    intro d hd
    obtain ⟨x, hx, rfl⟩ := List.mem_map.mp hd
    have hChunk := iarrayEmpty_small hE hLimits hPos hEmpty x hx
    rw [Axis.extchunkshape, if_neg (hAxes x hx).ne'] at hChunk
    exact (Axis.chunkshape_le_blocks (hAxes x hx)).trans_lt hChunk
  refine h.imp fun v A hv => ?_
  obtain ⟨hBindable, hShape, hSize⟩ := hv
  obtain ⟨hKnown, hAligned⟩ := hBindable.known hE
  refine ⟨⟨⟨hKnown, ?_⟩, hAligned, ?_⟩, ?_⟩
  · rw [hShape, hPlainOf.dtshape]
  · rw [hSize, hPlainOf.dtshape]
  · by_cases hBad : v.2.Unreadable
    · exact .inr hBad
    · left
      intro hTransposed
      refine ⟨?_, hSmall⟩
      by_contra hInteger
      exact hBad ⟨hTransposed, hInteger⟩

end Evaluation

/-- By either method an expression of an element-wise function gives at every index the value for the
elements of the operands there, if it can read them; it refuses transposed operands of other than
floating data. -/
theorem eval_elementwise {E : Backend} (hE : E.Lawful) (hLimits : E.Bounded) {S : Surroundings}
    (hS : S.ViewsCompressed) {jug : Jug} {e : Expression} (hPrepared : Prepared jug e) {f : EvalFn}
    {g : List Cell → Cell} (hFunc : e.exprFunc = some f) (hf : Cellwise E.machine f g)
    {As : List (NdArray Cell)} (hOperands : OperandsOf E e As) {ret : Container}
    (hEmpty : iarrayEmpty E e.outDtshape e.outStoreProperties = .ok ret)
    (hRank : e.outDtshape.ndim ≠ 0) (hPos : ∀ n ∈ e.outDtshape.shape, 0 < n)
    (hShort : ∀ n ∈ e.outStoreProperties.chunkshape, n < 2 ^ 31) {method : EvalMethod}
    (hMethod : method = .iterblosc ∧ e.vars.length ≤ dimensionMax ∨ method = .iterchunk) :
    ((∀ v ∈ e.vars, ¬ v.2.Unreadable) →
      ∃ c, (iarrayEval E S { e with evalMethod := method }).outcome = .ok c ∧
        PlainOf e.outDtshape e.outStoreProperties c ∧
        ∀ x, InBox x e.outDtshape.shape → c.contents.get x = elementwise g As x) ∧
    ((∃ v ∈ e.vars, v.2.Unreadable) →
      (iarrayEval E S { e with evalMethod := method }).outcome = inaError .invalidDtype) := by
  obtain ⟨hRet, hAxes⟩ := filled_of_empty hE hEmpty hRank hPos hShort
  obtain ⟨-, hDtshape, hStorage⟩ := iarrayEmpty_plain hE hEmpty
  have hVars := hOperands.matching hE hLimits hEmpty hPos
  have hBounded : ({ e with evalMethod := method } : Expression).Bounded :=
    ⟨hPrepared.bounded.vars, hPrepared.bounded.userParams⟩
  constructor
  · intro hAll
    have hReadable : List.Forall₂ (fun v A => Matching ret v.2 A ∧
        v.2.Readable ret.catarr.chunkshape) e.vars As := by
      refine List.forall₂_iff_zip.mpr ⟨hVars.length_eq, fun {v A} hMem => ?_⟩
      obtain ⟨hMatching, hEach⟩ := (List.forall₂_iff_zip.mp hVars).2 hMem
      exact ⟨hMatching, hEach.resolve_right (hAll v (List.of_mem_zip hMem).1)⟩
    have hRun : ∃ c, (iarrayEval E S { e with evalMethod := method }).outcome = .ok c ∧
        PlainOf ret.dtshape ret.storage c ∧
        ∀ x, InBox x ret.catarr.shape → c.catarr.get x = elementwise g As x := by
      rcases hMethod with ⟨rfl, hFew⟩ | rfl
      · obtain ⟨c, hOk, hResult⟩ := iterblosc_ok (e := { e with evalMethod := .iterblosc }) hE hS
          hRet hAxes hFunc hf hBounded hFew hReadable
        exact ⟨c, Logged.bind_eq_ok.mpr ⟨ret, hEmpty, hOk⟩, hResult⟩
      · obtain ⟨hSize, hBytes⟩ := hPrepared.sizes
        obtain ⟨c, hOk, hResult⟩ := iterchunk_ok (e := { e with evalMethod := .iterchunk })
          (S := S) hE hRet hAxes hFunc hf hBounded hDtshape.symm hSize hBytes hReadable
        exact ⟨c, Logged.bind_eq_ok.mpr ⟨ret, hEmpty, hOk⟩, hResult⟩
    obtain ⟨c, hOk, hCont, hGet⟩ := hRun
    refine ⟨c, hOk, hDtshape ▸ hStorage ▸ hCont, fun x hx => hGet x ?_⟩
    have hShape : ret.catarr.shape = e.outDtshape.shape :=
      hRet.plain.fresh.shape.trans (congrArg Dtshape.shape hDtshape)
    rwa [hShape]
  · intro hSome
    rcases hMethod with ⟨rfl, -⟩ | rfl
    · exact Logged.bind_eq_error.mpr (.inr ⟨ret, hEmpty,
        iterblosc_refused hE hS hRet hAxes hBounded hVars hSome⟩)
    · exact Logged.bind_eq_error.mpr (.inr ⟨ret, hEmpty,
        iterchunk_refused hE hRet hAxes hBounded hVars hSome⟩)

namespace ElementwiseExample

/-- The value of a number. -/
def value : Cell → ℚ
  | .real (.fin q) => q
  | _ => 0

def total (cells : List Cell) : Cell := .real (.fin (cells.map value).sum)

def first (cells : List Cell) : Cell := cells.headD (.bits 0)

/-- The element-wise function of a function of cells. -/
def each (g : List Cell → Cell) : EvalFn := fun p _ =>
  .ok fun k => g (p.inputs.map fun q => q.load Reference.bounded.machine k)

theorem each_cellwise (g : List Cell → Cell) : Cellwise Reference.bounded.machine (each g) g :=
  fun _ _ => ⟨_, rfl, fun _ _ => rfl⟩

def jug (g : List Cell → Cell) : Jug := ⟨fun _ _ _ => .ok (each g), fun _ _ _ => .ok (each g)⟩

/-- A matrix of doubles with a given distance of its entries. -/
def matrix (axes : List Axis) (step : Nat) : Container :=
  Reference.plain .double axes fun x => .real (.fin (step * flat (shapeOf axes) x : Nat))

def narrow : Container := matrix [.ofCuts 2 1 1, .ofCuts 3 2 1] 1

def wide : Container := matrix [.ofCuts 3 3 2, .ofCuts 4 3 2] 10

def tall : Container := matrix [.ofCuts 3 2 2, .ofCuts 2 1 1] 100

/-- A matrix of integers. -/
def integers : Container :=
  Reference.plain .int64 [.ofCuts 3 2 2, .ofCuts 2 1 1] fun x => .bits (flat [3, 2] x)

/-- The container behind a call. -/
def made (r : Result Container) : Container := r.toOption.getD narrow

def cut : Container :=
  made (iarrayGetSlice Reference.bounded wide (ints [1, 1]) (ints (addIdx [1, 1] [2, 3])) true
    ⟨[], []⟩)

def transposed (c : Container) : Container := made (iarrayLinalgTranspose Reference.bounded c)

/-- A compiled expression of a 2 × 3 matrix. -/
def expression (dtype : Dtype) (vars : List (String × Container)) (g : List Cell → Cell) :
    Expression :=
  ⟨dtype, ⟨dtype, [2, 3]⟩, ⟨[2, 2], [1, 2]⟩, .iterblosc, dtype.size, 6 * dtype.size, vars, [],
    some (each g)⟩

def sum : Expression :=
  expression .double [("x", narrow), ("y", cut), ("z", transposed tall)] total

def copy : Expression := expression .int64 [("x", transposed integers)] first

def run (e : Expression) (method : EvalMethod) : Result Container :=
  (iarrayEval Reference.bounded TableExample.surroundings { e with evalMethod := method }).outcome

theorem bindable_plain {d : Dtype} {axes : List Axis} {f : List Nat → Cell}
    (h : axes.length ≤ dimensionMax) (hShort : ShortTiles axes) :
    Bindable Reference.bounded (Reference.plain d axes f) (Reference.plain d axes f).contents :=
  .plain (Reference.plain_plain _ _ h hShort)

theorem bindable_cut : Bindable Reference.bounded cut (wide.contents.slice [1, 1] [2, 3]) := by
  have hSel : Selects (ints [1, 1]) (ints (addIdx [1, 1] [2, 3])) wide.contents.shape [1, 1]
      [2, 3] := selects_ints ⟨rfl, rfl, by decide⟩
  have hCut : iarrayGetSlice Reference.bounded wide (ints [1, 1]) (ints (addIdx [1, 1] [2, 3])) true
      ⟨[], []⟩ = .ok cut := rfl
  exact .slice (bindable_plain (by decide) (by decide)) rfl hSel hCut

theorem prepared_sum : Prepared (jug total) sum :=
  ⟨.auto, .double, ⟨.double, [2, 3]⟩, ⟨[2, 2], [1, 2]⟩, _,
    [.bind "x" narrow, .bind "y" cut, .bind "z" (transposed tall)], _, .expr "x + y + z",
    rfl, rfl, rfl⟩

theorem operandsOf_sum : OperandsOf Reference.bounded sum
    [narrow.contents, wide.contents.slice [1, 1] [2, 3], tall.contents.transpose] :=
  .cons ⟨bindable_plain (by decide) (by decide), rfl, rfl⟩ (.cons ⟨bindable_cut, rfl, rfl⟩
    (.cons ⟨.transpose (c := tall) (bindable_plain (by decide) (by decide)) rfl, rfl, rfl⟩ .nil))

theorem elementwise_sum : elementwise total [narrow.contents, wide.contents.slice [1, 1] [2, 3],
    tall.contents.transpose] [1, 2] = .real (.fin 615) := by
  have hNarrow : narrow.contents.get [1, 2] = .real (.fin (5 : Nat)) :=
    contents_plain (by decide)
  have hWide : wide.contents.get [2, 3] = .real (.fin (110 : Nat)) := contents_plain (by decide)
  have hTall : tall.contents.get [2, 1] = .real (.fin (500 : Nat)) := contents_plain (by decide)
  show total [narrow.contents.get [1, 2], wide.contents.get [2, 3], tall.contents.get [2, 1]] = _
  rw [hNarrow, hWide, hTall]
  norm_num [total, value]

end ElementwiseExample

open ElementwiseExample in
/-- A matrix, a part of a matrix and a transposed matrix of different partitions are added. -/
theorem eval_elementwise_sum :
    (∃ c, run sum .iterblosc = .ok c ∧ c.contents.get [1, 2] = .real (.fin 615)) ∧
      ∃ c, run sum .iterchunk = .ok c ∧ c.contents.get [1, 2] = .real (.fin 615) := by
  have hNone : ∀ v ∈ sum.vars, ¬ v.2.Unreadable := by decide
  constructor
  · obtain ⟨c, hOk, -, hGet⟩ := (eval_elementwise (S := TableExample.surroundings)
      Reference.bounded_lawful Reference.bounded_bounded (fun _ _ _ => rfl) prepared_sum rfl
      (each_cellwise total) operandsOf_sum rfl (by decide) (by decide)
      (by decide) (.inl ⟨rfl, by decide⟩)).1 hNone
    exact ⟨c, hOk, (hGet [1, 2] (by decide)).trans elementwise_sum⟩
  · obtain ⟨c, hOk, -, hGet⟩ := (eval_elementwise (S := TableExample.surroundings)
      Reference.bounded_lawful Reference.bounded_bounded (fun _ _ _ => rfl) prepared_sum rfl
      (each_cellwise total) operandsOf_sum rfl (by decide) (by decide)
      (by decide) (.inr rfl)).1 hNone
    exact ⟨c, hOk, (hGet [1, 2] (by decide)).trans elementwise_sum⟩

open ElementwiseExample in
/-- A transposed matrix of integers cannot be copied by either method. -/
theorem eval_elementwise_integers :
    Prepared (jug first) copy ∧ Cellwise Reference.bounded.machine (each first) first ∧
      OperandsOf Reference.bounded copy [integers.contents.transpose] ∧
      run copy .iterblosc = inaError .invalidDtype ∧
      run copy .iterchunk = inaError .invalidDtype :=
  ⟨⟨.auto, .int64, ⟨.int64, [2, 3]⟩, ⟨[2, 2], [1, 2]⟩, _, [.bind "x" (transposed integers)], _,
      .expr "x", rfl, rfl, rfl⟩, each_cellwise first,
    .cons ⟨.transpose (c := integers) (bindable_plain (by decide) (by decide)) rfl, rfl, rfl⟩ .nil,
    rfl, rfl⟩

end IronArray
