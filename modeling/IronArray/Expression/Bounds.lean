import IronArray.Expression.Tables
import IronArray.Iterators.Read
import IronArray.Iterators.Write
import IronArray.Views.Support

/-!
# What an evaluation reads of its operands

`iarray_eval` does not compare its operands with the output: it takes operands of any shape and item
size and reads their blocks again and again. `evalOperands_checked`: it meets what its users expect of
a check if the operands have the shape and the item size of the output, and it reads nothing outside
an operand of at least its rank and item size.
-/

namespace IronArray

open Grid

/-- What is read of an operand lies inside it. -/
def Access.Inside : Access → Prop
  | region c start stop =>
    List.Forall₂ (· ≤ ·) start stop ∧ List.Forall₂ (· ≤ ·) stop c.dtshape.shape
  | chunk c nchunk start nbytes => nchunk < c.catarr.nchunks ∧ start + nbytes ≤ c.catarr.chunkBytes
  | buffer size nbytes => nbytes ≤ size
  | table _ _ => True

theorem inside_stepwise : Logged.Stepwise fun l => ∀ a ∈ l, Access.Inside a :=
  Logged.stepwise_forall _

theorem Table.index_inside (t : Table) (i : Nat) : ∀ a ∈ (t.index i).log, a.Inside := by
  intro a ha
  obtain rfl := List.mem_singleton.mp ha
  trivial

theorem emit_buffer_inside {size nbytes : Nat} (h : nbytes ≤ size) :
    ∀ a ∈ (Logged.emit (.buffer size nbytes) : Eval Unit).log, a.Inside := by
  intro a ha
  obtain rfl := List.mem_singleton.mp ha
  exact h

theorem Table.each_inside (t : Table) (n : Nat) : ∀ a ∈ (t.each n).log, a.Inside :=
  inside_stepwise.forM fun i _ => t.index_inside i

/-! ## Blocks of an iterator -/

/-- The iterator counts the blocks of its container. -/
structure ReadsInside (itr : IterReadBlock) : Prop where
  pos : ∀ d ∈ itr.blockShape, 0 < d
  length : itr.cont.dtshape.shape.length = itr.blockShape.length
  aux : itr.aux = tileCounts itr.cont.dtshape.shape itr.blockShape

section Iterator

variable {E : Backend} {itr : IterReadBlock}

theorem iterBlocks_pos {n d k : Nat} (h : iterBlocks n d = .ok k) : 0 < d := by
  unfold iterBlocks at h
  split at h
  · cases h
  · omega

theorem readsInside_new {S : Surroundings} {c : Container} {outChunkshape : List Nat}
    (h : iarrayIterReadBlockNew E c (operandBlockshape S outChunkshape c) false = .ok itr) :
    ReadsInside itr := by
  obtain ⟨aux, hAux, h⟩ := Result.bind_eq_ok.mp h
  cases h
  have hLen : c.dtshape.shape.length = (operandBlockshape S outChunkshape c).length := by
    rw [operandBlockshape, List.length_map, List.length_range, Dtshape.ndim]
  have hPos : ∀ d ∈ operandBlockshape S outChunkshape c, 0 < d := by
    intro d hd
    obtain ⟨i, hi, rfl⟩ := List.getElem_of_mem hd
    have hZip : i < (List.zip c.dtshape.shape (operandBlockshape S outChunkshape c)).length := by
      rw [List.length_zip, hLen, Nat.min_self]
      exact hi
    have hEach := (List.forall₂_iff_get.mp (Result.mapM_eq_ok hAux)).2 i hZip
      ((Result.mapM_eq_ok hAux).length_eq ▸ hZip)
    rw [List.get_eq_getElem, List.getElem_zip] at hEach
    exact iterBlocks_pos hEach
  exact ⟨hPos, hLen, Except.ok.inj (hAux.symm.trans (iterBlocks_mapM hPos hLen))⟩

/-- A start and the stop that an extent leads to. -/
theorem forall₂_le_addIdx {s n : List Nat} (hLen : s.length = n.length) :
    List.Forall₂ (· ≤ ·) s (addIdx s n) := by
  induction s generalizing n with
  | nil =>
    obtain rfl := List.length_eq_zero_iff.mp hLen.symm
    exact .nil
  | cons i s ih =>
    obtain ⟨m, n, rfl⟩ := List.exists_cons_of_length_eq_add_one hLen.symm
    exact .cons (Nat.le_add_right i m) (ih (by simpa using hLen))

/-- Whatever the number of the block, it is a block of the container. -/
theorem ReadsInside.region (h : ReadsInside itr) (hAux : 0 ∉ itr.aux) :
    Access.Inside (.region itr.cont itr.start itr.stop) := by
  have hBlocks : 0 < itr.aux.prod := prod_pos_of_forall fun k hk =>
    Nat.pos_of_ne_zero fun hZero => hAux (hZero ▸ hk)
  have hTile : InBox (iterBlockIndex itr.aux itr.nblock)
      (tileCounts itr.cont.dtshape.shape itr.blockShape) := by
    rw [iterBlockIndex_mod, ← h.aux]
    exact inBox_unflat (Nat.mod_lt _ hBlocks)
  have hRegion := region_tile h.pos h.length hTile
  have hStop : itr.stop = addIdx itr.start (tileShape itr.cont.dtshape.shape itr.blockShape
      (iterBlockIndex itr.aux itr.nblock)) := stop_eq h.pos h.length hTile
  rw [Access.Inside, hStop]
  exact ⟨forall₂_le_addIdx (hRegion.start_length.trans hRegion.length.symm), hRegion.inside⟩

theorem readNext_inside (h : ReadsInside itr) : ∀ a ∈ (readNext E itr).log, a.Inside := by
  unfold readNext
  split
  next => exact inside_stepwise.nil
  next hAux =>
    intro a ha
    obtain rfl := List.mem_singleton.mp ha
    exact h.region hAux

theorem readNext_keeps (h : ReadsInside itr) {itr' : IterReadBlock} {v : IterValue}
    (hNext : (readNext E itr).outcome = .ok (itr', v)) :
    ReadsInside itr' ∧ itr'.blockShape = itr.blockShape ∧ itr'.cont = itr.cont := by
  unfold readNext at hNext
  split at hNext
  · cases hNext
  · have hNext : itr.next E (fun _ => .bits 0) 0 = .ok (itr', v) := hNext
    rw [IterReadBlock.next_eq] at hNext
    obtain ⟨used, hUsed, hNext⟩ := Result.bind_eq_ok.mp hNext
    obtain ⟨block, _, hNext⟩ := Result.bind_eq_ok.mp hNext
    cases hNext
    have hReads : ReadsInside used ∧ used.blockShape = itr.blockShape ∧ used.cont = itr.cont := by
      unfold IterReadBlock.useBuffer at hUsed
      split at hUsed
      · cases hUsed
        exact ⟨h, rfl, rfl⟩
      · split at hUsed
        · cases hUsed
        · cases hUsed
          exact ⟨⟨h.pos, h.length, h.aux⟩, rfl, rfl⟩
    exact ⟨⟨hReads.1.pos, hReads.1.length, hReads.1.aux⟩, hReads.2⟩

end Iterator

/-! ## Chunks -/

/-- The partition and the item size of a container are those of its array. A squeezed view keeps the
array of its root. -/
structure Settled (c : Container) : Prop where
  storage : c.catarr.storage = iarrayCreateCatervaStorage c.storage
  itemsize : c.catarr.itemsize = c.dtshape.dtypeSize
  ndim : c.dtshape.ndim ≤ c.catarr.ndim

theorem Settled.chunkshape {c : Container} (h : Settled c) (i : Nat) :
    ((c.catarr.chunkshape.getD i 0 : Nat) : Int) = toInt32 (c.storage.chunkshape.getD i 0 : Nat) :=
  getD_stored (congrArg CatervaStorage.chunkshape h.storage) i

theorem Settled.blockshape {c : Container} (h : Settled c) (i : Nat) :
    ((c.catarr.blockshape.getD i 0 : Nat) : Int) = toInt32 (c.storage.blockshape.getD i 0 : Nat) :=
  getD_stored (congrArg CatervaStorage.blockshape h.storage) i

theorem Plain.settled {c : Container} (h : Plain c) : Settled c where
  storage := h.fresh.storage
  itemsize := h.fresh.itemsize
  ndim := h.catarr_ndim.ge

theorem viewNew_settled {E : Backend} (hE : E.Lawful) {c v : Container} {dtshape : Dtshape}
    {offset : List Int} (hNdim : dtshape.ndim ≤ c.catarr.ndim)
    (h : _iarrayViewNew E c dtshape offset = .ok v) : Settled v := by
  obtain ⟨a, ha, rfl⟩ := viewNew_ok h
  have hFresh := hE.empty ha
  refine ⟨hFresh.storage, hFresh.itemsize, ?_⟩
  show dtshape.ndim ≤ a.ndim
  have hRank : a.ndim = min dtshape.ndim c.catarr.ndim := by
    rw [CatArray.ndim, ← length_shapeOf]
    show a.shape.length = _
    rw [hFresh.shape, List.length_take, CatArray.shape, length_shapeOf, CatArray.ndim]
  omega

theorem Chain.settled {E : Backend} (hE : E.Lawful) {c : Container} (h : Chain E c) :
    Settled c := by
  induction h with
  | plain hPlain => exact hPlain.settled
  | @slice c v start stop storage _ hv ih =>
    obtain ⟨_, _, hv⟩ := Result.bind_eq_ok.mp hv
    refine viewNew_settled hE ?_ hv
    rw [Dtshape.ndim, Container.sliceDtshape, List.length_map, List.length_range]
    exact ih.ndim
  | @typeView c v dtype _ hv ih =>
    have hNdim : (Dtshape.mk dtype c.dtshape.shape).ndim ≤ c.catarr.ndim := ih.ndim
    exact viewNew_settled hE hNdim hv
  | @transpose c v _ hv ih =>
    unfold iarrayLinalgTranspose at hv
    split at hv
    · cases hv
    · split at hv
      · cases hv
      · obtain ⟨b, hb, hv⟩ := Result.bind_eq_ok.mp hv
        cases hv
        have hNdim : (Dtshape.mk c.dtshape.dtype c.dtshape.shape.reverse).ndim ≤ c.catarr.ndim := by
          rw [Dtshape.ndim, List.length_reverse]
          exact ih.ndim
        have hSettled := viewNew_settled hE hNdim hb
        exact ⟨hSettled.storage, hSettled.itemsize, hSettled.ndim⟩
  | squeeze _ hViewed hv ih =>
    have hNdim := (squeezeIndex_ndim hViewed hv).trans ih.ndim
    rw [iarraySqueezeIndex, if_neg (by simpa using Option.isSome_iff_ne_none.mp hViewed)] at hv
    cases hv
    exact ⟨ih.storage, ih.itemsize, hNdim⟩

/-- The blocks of a chunk are at most those of a chunk that is cut in the same way along more
axes. -/
theorem prod_extchunkshape_le {as bs : List Axis} (hPos : ∀ b ∈ bs, 0 < b.shape)
    (hChunk : chunkshapeOf as <+: chunkshapeOf bs) (hBlock : blockshapeOf as <+: blockshapeOf bs) :
    (as.map Axis.extchunkshape).prod ≤ (bs.map Axis.extchunkshape).prod := by
  induction as generalizing bs with
  | nil =>
    refine prod_pos_of_forall fun n hn => ?_
    obtain ⟨b, hb, rfl⟩ := List.mem_map.mp hn
    rw [Axis.extchunkshape, if_neg (hPos b hb).ne']
    have hShape := hPos b hb
    exact Nat.mul_pos (blocks_pos hShape) (b.block_pos hShape)
  | cons a as ih =>
    cases bs with
    | nil => exact absurd hChunk.length_le (by simp [chunkshapeOf])
    | cons b bs =>
      obtain ⟨hChunkHead, hChunk⟩ := List.cons_prefix_cons.mp hChunk
      obtain ⟨hBlockHead, hBlock⟩ := List.cons_prefix_cons.mp hBlock
      obtain ⟨hHead, hPos⟩ := List.forall_mem_cons.mp hPos
      rw [List.map_cons, List.map_cons, List.prod_cons, List.prod_cons]
      refine Nat.mul_le_mul ?_ (ih hPos hChunk hBlock)
      rw [Axis.extchunkshape, Axis.extchunkshape, if_neg hHead.ne']
      split
      · exact Nat.zero_le _
      · rw [Axis.blocks, Axis.blocks, hChunkHead, hBlockHead]

section Stored

variable {S : Surroundings} {ret c : Container}

/-- The partition of an operand whose chunks are read starts with that of the output. -/
theorem iterbloscAllowed_prefix (hRet : Plain ret) (hSettled : Settled c)
    (hNdim : ret.dtshape.ndim ≤ c.dtshape.ndim) (h : iterbloscAllowed S ret c = true) :
    chunkshapeOf ret.catarr.axes <+: chunkshapeOf c.catarr.axes ∧
      blockshapeOf ret.catarr.axes <+: blockshapeOf c.catarr.axes := by
  have hSame : ∀ i < c.dtshape.ndim,
      ret.catarr.chunkshape.getD i 0 = c.catarr.chunkshape.getD i 0 ∧
        ret.catarr.blockshape.getD i 0 = c.catarr.blockshape.getD i 0 := by
    intro i hi
    rw [iterbloscAllowed, Bool.and_eq_true, List.all_eq_true] at h
    have hAsked := h.2 i (List.mem_range.mpr hi)
    rw [Bool.and_eq_true, decide_eq_true_iff, decide_eq_true_iff] at hAsked
    constructor
    · refine Int.ofNat.inj ?_
      change ((_ : Nat) : Int) = ((_ : Nat) : Int)
      rw [hRet.settled.chunkshape, hSettled.chunkshape, hAsked.1]
    · refine Int.ofNat.inj ?_
      change ((_ : Nat) : Int) = ((_ : Nat) : Int)
      rw [hRet.settled.blockshape, hSettled.blockshape, hAsked.2]
  have hLen : ret.catarr.axes.length ≤ c.catarr.axes.length :=
    (hRet.catarr_ndim.trans_le hNdim).trans hSettled.ndim
  have hPrefix : ∀ f : Axis → Nat, (∀ i < c.dtshape.ndim,
      (ret.catarr.axes.map f).getD i 0 = (c.catarr.axes.map f).getD i 0) →
        ret.catarr.axes.map f <+: c.catarr.axes.map f := by
    intro f hf
    refine List.prefix_iff_getElem.mpr ⟨by simpa using hLen, fun i hi => ?_⟩
    have hRank : i < ret.catarr.axes.length := by simpa using hi
    have := hf i ((hRank.trans_eq hRet.catarr_ndim).trans_le hNdim)
    rwa [List.getD_eq_getElem _ _ hi, List.getD_eq_getElem] at this
  exact ⟨hPrefix _ fun i hi => (hSame i hi).1, hPrefix _ fun i hi => (hSame i hi).2⟩

/-- A chunk of the output is no longer than a chunk of an operand that covers it. -/
theorem chunkBytes_le (hRet : Plain ret) (hSettled : Settled c)
    (hNdim : ret.dtshape.ndim ≤ c.dtshape.ndim)
    (hSize : ret.dtshape.dtypeSize ≤ c.dtshape.dtypeSize)
    (hAllowed : iterbloscAllowed S ret c = true) {n : Nat} (hn : n < c.catarr.nchunks) :
    ret.catarr.chunkBytes ≤ c.catarr.chunkBytes := by
  obtain ⟨hChunk, hBlock⟩ := iterbloscAllowed_prefix hRet hSettled hNdim hAllowed
  have hPos := CatArray.shape_pos_of_nchunks hn
  have hItems : ret.catarr.itemsize ≤ c.catarr.itemsize := by
    rw [hRet.settled.itemsize, hSettled.itemsize]
    exact hSize
  exact Nat.mul_le_mul (prod_extchunkshape_le hPos hChunk hBlock) hItems

/-- A block of the output ends inside its chunk. -/
theorem block_le_chunkBytes (hRet : Plain ret) {nblock : Nat}
    (h : nblock < (ret.catarr.axes.map Axis.extchunkshape).prod / ret.catarr.blockshape.prod) :
    nblock * ret.catarr.sc.blocksize + ret.catarr.sc.blocksize ≤ ret.catarr.chunkBytes := by
  have hItems : (nblock + 1) * ret.catarr.blockshape.prod ≤
      (ret.catarr.axes.map Axis.extchunkshape).prod :=
    Nat.mul_le_of_le_div _ _ _ h
  rw [CatArray.chunkBytes, hRet.fresh.sized.2]
  calc nblock * (ret.catarr.blockshape.prod * ret.catarr.itemsize) +
        ret.catarr.blockshape.prod * ret.catarr.itemsize
      = (nblock + 1) * ret.catarr.blockshape.prod * ret.catarr.itemsize := by ring
    _ ≤ (ret.catarr.axes.map Axis.extchunkshape).prod * ret.catarr.itemsize :=
      Nat.mul_le_mul_right _ hItems

end Stored

/-! ## Blocks -/

/-- A chunk that the prefilter finds under a class exists, and one that is not compressed holds the
blocks of the output. -/
def ExprInput.Fits (out c : Container) : ExprInput → Prop
  | eq nchunk => nchunk < c.catarr.nchunks
  | eqNcomp nchunk => nchunk < c.catarr.nchunks ∧ out.catarr.chunkBytes ≤ c.catarr.chunkBytes
  | neq _ => True

section Block

variable {E : Backend} {p : ExprPparams} {nblock : Nat}

theorem rawChunk_inside {c : Container} {nchunk start nbytes : Nat}
    (hChunk : nchunk < c.catarr.nchunks)
    (hBytes : start + nbytes ≤ c.catarr.chunkBytes) :
    ∀ a ∈ (rawChunk c nchunk start nbytes).log, a.Inside := by
  intro a ha
  obtain rfl := List.mem_singleton.mp ha
  exact ⟨hChunk, hBytes⟩

theorem getitemCtx_inside {c : Container} {nchunk start nitems destsize : Nat}
    (hChunk : nchunk < c.catarr.nchunks) :
    ∀ a ∈ (getitemCtx c nchunk start nitems destsize).log, a.Inside := by
  unfold getitemCtx
  split
  · exact inside_stepwise.nil
  · split
    · exact inside_stepwise.nil
    · intro a ha
      obtain rfl := List.mem_singleton.mp ha
      refine ⟨hChunk, ?_⟩
      rw [← Nat.add_mul]
      omega

theorem prefilterInput_inside (hOut : Plain p.out)
    (hBlock : nblock < (p.out.catarr.axes.map Axis.extchunkshape).prod /
      p.out.catarr.blockshape.prod) {x : (Container × ExprInput) × Nat}
    (hx : x.1.2.Fits p.out x.1.1) : ∀ a ∈ (prefilterInput p nblock x).log, a.Inside := by
  have hS := inside_stepwise
  obtain ⟨⟨c, input⟩, i⟩ := x
  refine hS.bind (Table.index_inside _ _) fun _ _ => ?_
  refine hS.bind (Table.index_inside _ _) fun _ _ => ?_
  refine hS.bind (Table.index_inside _ _) fun _ _ => ?_
  refine hS.bind (Table.index_inside _ _) fun _ _ => ?_
  cases input with
  | eqNcomp nchunk => exact rawChunk_inside hx.1 ((block_le_chunkBytes hOut hBlock).trans hx.2)
  | eq nchunk =>
    refine hS.bind (Table.index_inside _ _) fun _ _ => ?_
    refine hS.bind (Table.index_inside _ _) fun _ _ => ?_
    refine hS.bind (getitemCtx_inside hx) fun _ _ => ?_
    split
    · exact hS.nil
    · exact hS.nil
  | neq buffer => exact hS.nil

theorem prefilterFunc_inside (hOut : Plain p.out)
    (hBlock : nblock < (p.out.catarr.axes.map Axis.extchunkshape).prod /
      p.out.catarr.blockshape.prod) (hInputs : ∀ x ∈ p.inputs, x.2.Fits p.out x.1) :
    ∀ a ∈ (prefilterFunc E p nblock).log, a.Inside := by
  have hS := inside_stepwise
  refine hS.bind (Table.each_inside _ _) fun _ _ => ?_
  refine hS.bind (Table.each_inside _ _) fun _ _ => ?_
  refine hS.bind hS.nil fun _ _ => ?_
  refine hS.bind (hS.mapM fun x hx => prefilterInput_inside hOut hBlock
    (hInputs x.1 (List.fst_mem_of_mem_zipIdx hx))) fun _ _ => ?_
  refine hS.bind (Table.each_inside _ _) fun _ _ => ?_
  refine hS.bind (Table.each_inside _ _) fun _ _ => ?_
  refine hS.bind hS.nil fun _ _ => ?_
  exact hS.bind (Table.each_inside _ _) fun _ _ => hS.nil

end Block

/-! ## Rounds -/

theorem exists_of_forall₂ {α β : Type} {R : α → β → Prop} {xs : List α} {ys : List β}
    (h : List.Forall₂ R xs ys) {y : β} (hy : y ∈ ys) : ∃ x ∈ xs, R x y := by
  induction h with
  | nil => cases hy
  | cons hHead _ ih =>
    rcases List.mem_cons.mp hy with rfl | hy
    · exact ⟨_, List.mem_cons_self, hHead⟩
    · obtain ⟨x, hx, hR⟩ := ih hy
      exact ⟨x, List.mem_cons_of_mem _ hx, hR⟩

/-- The output has no more axes than the operand and no longer items. -/
def Covers (out : Dtshape) (c : Container) : Prop :=
  out.ndim ≤ c.dtshape.ndim ∧ out.dtypeSize ≤ c.dtshape.dtypeSize

/-- The blocks of the iterator lie in its container and have room for `items` items of `itemsize`
bytes. -/
structure Roomy (items itemsize : Nat) (itr : IterReadBlock) : Prop extends ReadsInside itr where
  room : items * itemsize ≤ itr.blockShape.prod * itr.cont.catarr.itemsize

/-- Whichever chunk of an operand is read as it lies in memory holds the blocks of the output, and
its blocks hold the items of a chunk of the output. -/
def Operand.Fits (S : Surroundings) (out : Container) (o : Operand) : Prop :=
  match o.iterVar with
  | none => ∀ nchunk < o.var.catarr.nchunks, S.memcpyed o.var nchunk = true →
      out.catarr.chunkBytes ≤ o.var.catarr.chunkBytes
  | some itr => Roomy out.catarr.chunkshape.prod out.catarr.itemsize itr

/-- The blocks of an operand hold the items of a block of the output, which may have fewer axes. -/
theorem prod_le_operandBlockshape {S : Surroundings} {outChunkshape : List Nat} {c : Container}
    (hNdim : outChunkshape.length ≤ c.dtshape.ndim)
    (hPos : ∀ d ∈ operandBlockshape S outChunkshape c, 0 < d) :
    outChunkshape.prod ≤ (operandBlockshape S outChunkshape c).prod := by
  have hFirst : (operandBlockshape S outChunkshape c).take outChunkshape.length = outChunkshape := by
    refine List.ext_getElem (by simpa [operandBlockshape] using hNdim) fun i _ hi => ?_
    simp [operandBlockshape, List.getD_eq_getElem?_getD, List.getElem?_eq_getElem hi]
  rw [← List.take_append_drop outChunkshape.length (operandBlockshape S outChunkshape c), hFirst,
    List.prod_append]
  exact Nat.le_mul_of_pos_right _
    (prod_pos_of_forall fun d hd => hPos d (List.mem_of_mem_drop hd))

section Round

variable {E : Backend} {S : Surroundings} {e : Expression} {ret : Container}

/-- The iterator of an operand that covers the output. -/
theorem roomy_new {items : Nat} (hRet : Plain ret) {var : Container} (hSettled : Settled var)
    (hCovers : Covers ret.dtshape var) (hItems : items ≤ ret.storage.chunkshape.prod)
    {itr : IterReadBlock} (h : iarrayIterReadBlockNew E var
      (operandBlockshape S ret.storage.chunkshape var) false = .ok itr) :
    Roomy items ret.catarr.itemsize itr := by
  have hReads := readsInside_new h
  obtain ⟨aux, hAux, h⟩ := Result.bind_eq_ok.mp h
  cases h
  have hLen : ret.storage.chunkshape.length ≤ var.dtshape.ndim := by
    rw [length_stored hRet.fresh.chunkshape, CatArray.chunkshape, chunkshapeOf, List.length_map]
    exact hRet.catarr_ndim.trans_le hCovers.1
  refine ⟨hReads, Nat.mul_le_mul (hItems.trans (prod_le_operandBlockshape hLen hReads.pos)) ?_⟩
  rw [hRet.settled.itemsize, hSettled.itemsize]
  exact hCovers.2

theorem Roomy.next {items itemsize : Nat} {itr itr' : IterReadBlock} {v : IterValue}
    (h : Roomy items itemsize itr) (hNext : (readNext E itr).outcome = .ok (itr', v)) :
    Roomy items itemsize itr' := by
  obtain ⟨hReads, hShape, hCont⟩ := readNext_keeps h.toReadsInside hNext
  refine ⟨hReads, ?_⟩
  rw [hShape, hCont]
  exact h.room

theorem setUpOperand_fits (hRet : Plain ret) {var : Container} (hSettled : Settled var)
    (hCovers : Covers ret.dtshape var) {o : Operand}
    (h : setUpOperand E S ret ret.storage.chunkshape var = .ok o) : o.Fits S ret := by
  unfold setUpOperand at h
  split at h
  next hAllowed =>
    cases h
    exact fun nchunk hChunk _ => chunkBytes_le hRet hSettled hCovers.1 hCovers.2 hAllowed hChunk
  next =>
    obtain ⟨itr, hNew, h⟩ := Result.bind_eq_ok.mp h
    cases h
    have hRoomy := roomy_new hRet hSettled hCovers
      (prod_le_of_forall₂ (stored_le hRet.fresh.chunkshape)) hNew
    exact ⟨⟨hRoomy.pos, hRoomy.length, hRoomy.aux⟩, hRoomy.room⟩

theorem fetchInput_inside {nchunk : Nat} {x : Operand × Nat} (hx : x.1.Fits S ret) :
    ∀ a ∈ (fetchInput E S ret nchunk x).log, a.Inside := by
  have hS := inside_stepwise
  obtain ⟨⟨var, iterVar⟩, i⟩ := x
  refine hS.bind (Table.index_inside _ _) fun _ _ => ?_
  cases iterVar with
  | none =>
    refine hS.bind (Table.index_inside _ _) fun _ _ => ?_
    show ∀ a ∈ (ite _ _ _ : Eval _).log, a.Inside
    split
    · exact hS.nil
    · refine hS.bind (Table.index_inside _ _) fun _ _ => ?_
      exact hS.bind (Table.index_inside _ _) fun _ _ => hS.nil
  | some itr =>
    refine hS.bind (readNext_inside hx.toReadsInside) fun p hp => ?_
    refine hS.bind (emit_buffer_inside (hx.next hp).room) fun _ _ => ?_
    refine hS.bind hS.nil fun _ _ => ?_
    exact hS.bind (Table.index_inside _ _) fun _ _ => hS.nil

theorem fetchInput_keeps {nchunk : Nat} {x : Operand × Nat} (hx : x.1.Fits S ret)
    {y : Operand × ExprInput} (h : (fetchInput E S ret nchunk x).outcome = .ok y) :
    y.1.Fits S ret ∧ y.2.Fits ret y.1.var := by
  obtain ⟨⟨var, iterVar⟩, i⟩ := x
  obtain ⟨_, _, h⟩ := Logged.bind_eq_ok.mp h
  cases iterVar with
  | none =>
    obtain ⟨_, _, h⟩ := Logged.bind_eq_ok.mp h
    change (ite _ _ _ : Eval _).outcome = _ at h
    split at h
    next => cases h
    next hChunk =>
      obtain ⟨_, _, h⟩ := Logged.bind_eq_ok.mp h
      obtain ⟨_, _, h⟩ := Logged.bind_eq_ok.mp h
      cases h
      refine ⟨hx, ?_⟩
      have hChunk : nchunk < var.catarr.nchunks := Nat.lt_of_not_le hChunk
      show ExprInput.Fits ret var (if S.memcpyed var nchunk then _ else _)
      split
      next hRaw => exact ⟨hChunk, hx nchunk hChunk hRaw⟩
      next => exact hChunk
  | some itr =>
    obtain ⟨_, hNext, h⟩ := Logged.bind_eq_ok.mp h
    obtain ⟨_, _, h⟩ := Logged.bind_eq_ok.mp h
    obtain ⟨_, _, h⟩ := Logged.bind_eq_ok.mp h
    obtain ⟨_, _, h⟩ := Logged.bind_eq_ok.mp h
    cases h
    exact ⟨hx.next hNext, trivial⟩

theorem fetched_fits {nchunk : Nat} {operands : List Operand} {fetched : List (Operand × ExprInput)}
    (hs : ∀ o ∈ operands, o.Fits S ret)
    (h : (operands.zipIdx.mapM (fetchInput E S ret nchunk)).outcome = .ok fetched) :
    ∀ y ∈ fetched, y.1.Fits S ret ∧ y.2.Fits ret y.1.var := by
  intro y hy
  obtain ⟨x, hx, hFetch⟩ := exists_of_forall₂ (Logged.mapM_eq_ok h) hy
  exact fetchInput_keeps (hs x.1 (List.fst_mem_of_mem_zipIdx hx)) hFetch

theorem iterbloscRound_inside (hRet : Plain ret) {iterOut : IterWriteBlock} {s : BloscState}
    (hs : ∀ o ∈ s.2, o.Fits S ret) :
    ∀ a ∈ (iterbloscRound E S e ret iterOut s).log, a.Inside := by
  have hS := inside_stepwise
  refine hS.bind hS.nil fun _ _ => ?_
  refine hS.bind (hS.mapM fun x hx => fetchInput_inside (hs x.1 (List.fst_mem_of_mem_zipIdx hx)))
    fun fetched hFetched => ?_
  refine hS.bind (hS.mapM fun nblock hBlock => prefilterFunc_inside hRet (List.mem_range.mp hBlock)
    fun x hx => ?_) fun _ _ => ?_
  · obtain ⟨y, hy, rfl⟩ := List.mem_map.mp hx
    exact (fetched_fits hs hFetched y hy).2
  · exact hS.bind (Table.each_inside _ _) fun _ _ => hS.nil

theorem iterbloscRound_keeps {iterOut iterOut' : IterWriteBlock} {s s' : BloscState}
    (hs : ∀ o ∈ s.2, o.Fits S ret)
    (h : (iterbloscRound E S e ret iterOut s).outcome = .ok (iterOut', s')) :
    ∀ o ∈ s'.2, o.Fits S ret := by
  obtain ⟨_, _, h⟩ := Logged.bind_eq_ok.mp h
  obtain ⟨fetched, hFetched, h⟩ := Logged.bind_eq_ok.mp h
  obtain ⟨_, _, h⟩ := Logged.bind_eq_ok.mp h
  obtain ⟨_, _, h⟩ := Logged.bind_eq_ok.mp h
  cases h
  intro o ho
  obtain ⟨y, hy, rfl⟩ := List.mem_map.mp ho
  exact (fetched_fits hs hFetched y hy).1

theorem iterblosc_inside (hRet : Plain ret)
    (hVars : ∀ v ∈ e.vars, Settled v.2 ∧ Covers ret.dtshape v.2) :
    ∀ a ∈ (iarrayEvalIterblosc E S e ret ret.storage.chunkshape).log, a.Inside := by
  have hS := inside_stepwise
  refine hS.bind (Table.each_inside _ _) fun _ _ => ?_
  refine hS.bind (Table.each_inside _ _) fun _ _ => ?_
  refine hS.bind (Table.each_inside _ _) fun _ _ => ?_
  refine hS.bind hS.nil fun operands hOperands => ?_
  refine hS.bind hS.nil fun _ _ => ?_
  refine hS.bind (evalLoop_stepwise hS (I := fun _ (s : BloscState) => ∀ o ∈ s.2, o.Fits S ret)
    (fun _ _ hs => iterbloscRound_inside hRet hs)
    (fun _ _ _ _ hs h => iterbloscRound_keeps hs h) _ ?_) fun _ _ => hS.nil
  intro o ho
  obtain ⟨v, hv, hSet⟩ := exists_of_forall₂ (Result.mapM_eq_ok hOperands) ho
  exact setUpOperand_fits hRet (hVars v hv).1 (hVars v hv).2 hSet

end Round

/-! ## Blocks of the output -/

/-- The blocks of the write iterator have no more items than its block shape. -/
structure WritesWithin (bs : List Nat) (itr : IterWriteBlock) : Prop where
  blockShape : itr.blockShape = bs
  pos : ∀ b ∈ bs, 0 < b
  direct : itr.compressedChunkBuffer = false
  fresh : ∃ s shape st, Fresh itr.cont.catarr s shape st ∧
    List.Forall₂ (· ≤ ·) shape itr.contEshape

section Write

variable {E : Backend} {itr itr' : IterWriteBlock} {bs : List Nat}

/-- The blocks that leave the array are cut off. -/
theorem shapeAt_prod_le {shape eshape bs index : List Nat} (hPos : ∀ b ∈ bs, 0 < b)
    (h : List.Forall₂ (· ≤ ·) shape eshape) :
    (IterWriteBlock.shapeAt shape eshape bs index).prod ≤ bs.prod := by
  induction h generalizing bs index with
  | nil => exact prod_pos_of_forall hPos
  | @cons n m shape eshape hLe _ ih =>
    cases bs with
    | nil => exact le_rfl
    | cons b bs =>
      obtain ⟨-, hRest⟩ := List.forall_mem_cons.mp hPos
      cases index with
      | nil => exact prod_pos_of_forall hPos
      | cons i index =>
        have hTail := @ih bs index hRest
        simp only [IterWriteBlock.shapeAt, List.zip_cons_cons, List.zipWith_cons_cons,
          List.prod_cons] at hTail ⊢
        refine Nat.mul_le_mul ?_ hTail
        split <;> omega

theorem iterBlocks_le {n d k : Nat} (h : iterBlocks n d = .ok k) : n ≤ k * d := by
  have hPos := iterBlocks_pos h
  rw [iterBlocks, if_neg hPos.ne', Except.ok.injEq] at h
  have hDiv := Nat.div_add_mod n d
  have hMod := Nat.mod_lt n hPos
  rw [← h]
  split
  next hZero =>
    rw [Nat.mul_comm]
    omega
  next =>
    rw [Nat.add_mul, Nat.mul_comm, Nat.one_mul]
    omega

theorem shape_le_extshape (x : Axis) : x.shape ≤ x.extshape := by
  rcases Nat.eq_zero_or_pos x.shape with hZero | hPos
  · omega
  · exact le_numTiles_mul (x.chunk_pos hPos)

/-- The blocks cover the array. -/
theorem contEshape_covers {axes : List Axis} {eshape : List Nat} (hLen : axes.length = bs.length)
    (h : contEshape axes bs = .ok eshape) :
    (∀ b ∈ bs, 0 < b) ∧ List.Forall₂ (· ≤ ·) (shapeOf axes) eshape := by
  have hEach := Result.mapM_eq_ok h
  clear h
  induction axes generalizing bs eshape with
  | nil =>
    obtain rfl := List.length_eq_zero_iff.mp hLen.symm
    cases hEach
    exact ⟨nofun, .nil⟩
  | cons x axes ih =>
    obtain ⟨b, bs, rfl⟩ := List.exists_cons_of_length_eq_add_one hLen.symm
    cases hEach with
    | cons hFirst hRest =>
      obtain ⟨k, hCount, hFirst⟩ := Result.bind_eq_ok.mp hFirst
      cases hFirst
      obtain ⟨hPos, hCovered⟩ := ih (by simpa using hLen) hRest
      exact ⟨List.forall_mem_cons.mpr ⟨iterBlocks_pos hCount, hPos⟩,
        .cons ((shape_le_extshape x).trans (iterBlocks_le hCount)) hCovered⟩

theorem writesWithin_new {c : Container} {external : Bool} (hPlain : Plain c)
    (h : iarrayIterWriteBlockNew E c bs external = .ok itr) : WritesWithin bs itr := by
  unfold iarrayIterWriteBlockNew at h
  split at h
  · cases h
  split at h
  · cases h
  next hShape =>
    obtain ⟨eshape, hEshape, h⟩ := Result.bind_eq_ok.mp h
    obtain ⟨_, _, h⟩ := Result.bind_eq_ok.mp h
    obtain ⟨_, _, h⟩ := Result.bind_eq_ok.mp h
    cases h
    have hLen : c.catarr.axes.length = bs.length := by
      rw [not_not.mp hShape, length_stored hPlain.fresh.chunkshape, CatArray.chunkshape,
        chunkshapeOf, List.length_map]
    obtain ⟨hPos, hCovered⟩ := contEshape_covers hLen hEshape
    exact ⟨rfl, hPos, rfl, _, _, _, hPlain.fresh, hPlain.fresh.shape ▸ hCovered⟩

theorem WritesWithin.setArray (hE : E.Lawful) (h : WritesWithin bs itr)
    (hStore : itr.store E = .ok itr') : WritesWithin bs itr' := by
  obtain ⟨s, shape, st, hFresh, hLe⟩ := h.fresh
  unfold IterWriteBlock.store at hStore
  rw [h.direct, if_neg Bool.false_ne_true] at hStore
  dsimp only at hStore
  split at hStore
  next a ha =>
    cases hStore
    exact ⟨h.blockShape, h.pos, h.direct, s, shape, st, hE.setSliceBuffer_fresh hFresh ha, hLe⟩
  next => cases hStore
  next => cases hStore

theorem WritesWithin.next (hE : E.Lawful) (h : WritesWithin bs itr) {buffer : Nat → Cell}
    {bufsize : Nat} {v : IterValue} (hNext : itr.next E buffer bufsize = .ok (itr', v)) :
    WritesWithin bs itr' ∧ v.blockSize ≤ bs.prod := by
  obtain ⟨left, hLeave, hNext⟩ := Result.bind_eq_ok.mp hNext
  obtain ⟨used, hUsed, hNext⟩ := Result.bind_eq_ok.mp hNext
  obtain ⟨sought, hSeek, hNext⟩ := Result.bind_eq_ok.mp hNext
  have hLeft : WritesWithin bs left := by
    unfold IterWriteBlock.leave at hLeave
    split at hLeave
    · cases hLeave
      exact h
    · exact h.setArray hE hLeave
  have hUse : WritesWithin bs used := by
    unfold IterWriteBlock.useBuffer at hUsed
    split at hUsed
    · cases hUsed
      exact hLeft
    · split at hUsed
      · cases hUsed
      · cases hUsed
        exact ⟨hLeft.blockShape, hLeft.pos, hLeft.direct, hLeft.fresh⟩
  obtain ⟨index, _, hSeek⟩ := Result.bind_eq_ok.mp hSeek
  cases hSeek
  cases hNext
  refine ⟨⟨hUse.blockShape, hUse.pos, hUse.direct, hUse.fresh⟩, ?_⟩
  obtain ⟨s, shape, st, hFresh, hLe⟩ := hUse.fresh
  show (IterWriteBlock.shapeAt _ _ _ _).prod ≤ _
  rw [hUse.blockShape, hFresh.shape]
  exact shapeAt_prod_le hUse.pos hLe

end Write

section Iterchunk

variable {E : Backend} {S : Surroundings} {e : Expression} {ret : Container}

theorem chunkInput_keeps {items itemsize : Nat} {x : IterReadBlock × Nat}
    (hx : Roomy items itemsize x.1) {y : IterReadBlock × Pointer}
    (h : (chunkInput E x).outcome = .ok y) : Roomy items itemsize y.1 := by
  obtain ⟨_, hNext, h⟩ := Logged.bind_eq_ok.mp h
  obtain ⟨_, _, h⟩ := Logged.bind_eq_ok.mp h
  obtain ⟨_, _, h⟩ := Logged.bind_eq_ok.mp h
  cases h
  exact hx.next hNext

theorem chunkInput_inside {x : IterReadBlock × Nat} (hx : ReadsInside x.1) :
    ∀ a ∈ (chunkInput E x).log, a.Inside := by
  have hS := inside_stepwise
  refine hS.bind (readNext_inside hx) fun _ _ => ?_
  refine hS.bind (Table.index_inside _ _) fun _ _ => ?_
  exact hS.bind (Table.index_inside _ _) fun _ _ => hS.nil

/-- The blocks of the output, and the operands with room for them. -/
structure ChunkRoomy (ret : Container) (bs : List Nat) (itr : IterWriteBlock) (s : ChunkState) :
    Prop where
  writes : WritesWithin bs itr
  reads : ∀ r ∈ s.2, Roomy bs.prod ret.catarr.itemsize r

theorem read_roomy {items itemsize : Nat} {itrs : List IterReadBlock}
    {read : List (IterReadBlock × Pointer)} (hs : ∀ r ∈ itrs, Roomy items itemsize r)
    (h : (itrs.zipIdx.mapM (chunkInput E)).outcome = .ok read) :
    ∀ y ∈ read, Roomy items itemsize y.1 := by
  intro y hy
  obtain ⟨x, hx, hInput⟩ := exists_of_forall₂ (Logged.mapM_eq_ok h) hy
  exact chunkInput_keeps (hs x.1 (List.fst_mem_of_mem_zipIdx hx)) hInput

theorem iterchunkRound_inside (hE : E.Lawful) {bs : List Nat} {iterOut : IterWriteBlock}
    {s : ChunkState} (hs : ChunkRoomy ret bs iterOut s) :
    ∀ a ∈ (iterchunkRound E e ret iterOut s).log, a.Inside := by
  have hS := inside_stepwise
  refine hS.bind hS.nil fun p hNext => ?_
  have hSize := (hs.writes.next hE hNext).2
  refine hS.bind (hS.mapM fun x hx => chunkInput_inside
    (hs.reads x.1 (List.fst_mem_of_mem_zipIdx hx)).toReadsInside) fun read hRead => ?_
  refine hS.bind (hS.forM fun y hy => emit_buffer_inside ?_) fun _ _ => ?_
  · exact (Nat.mul_le_mul_right _ hSize).trans (read_roomy hs.reads hRead y hy).room
  · exact hS.bind hS.nil fun _ _ => hS.nil

theorem iterchunkRound_keeps (hE : E.Lawful) {bs : List Nat} {iterOut iterOut' : IterWriteBlock}
    {s s' : ChunkState} (hs : ChunkRoomy ret bs iterOut s)
    (h : (iterchunkRound E e ret iterOut s).outcome = .ok (iterOut', s')) :
    ChunkRoomy ret bs iterOut' s' := by
  obtain ⟨p, hNext, h⟩ := Logged.bind_eq_ok.mp h
  obtain ⟨read, hRead, h⟩ := Logged.bind_eq_ok.mp h
  obtain ⟨_, _, h⟩ := Logged.bind_eq_ok.mp h
  obtain ⟨_, _, h⟩ := Logged.bind_eq_ok.mp h
  cases h
  have hWrites := (hs.writes.next hE hNext).1
  exact ⟨⟨hWrites.blockShape, hWrites.pos, hWrites.direct, hWrites.fresh⟩,
    List.forall_mem_map.mpr (read_roomy hs.reads hRead)⟩

theorem iterchunk_inside (hE : E.Lawful) (hRet : Plain ret)
    (hVars : ∀ v ∈ e.vars, Settled v.2 ∧ Covers ret.dtshape v.2) :
    ∀ a ∈ (iarrayEvalIterchunk E S e ret ret.storage.chunkshape).log, a.Inside := by
  have hS := inside_stepwise
  refine hS.bind (Table.each_inside _ _) fun _ _ => ?_
  refine hS.bind hS.nil fun iterVar hIter => ?_
  refine hS.bind hS.nil fun iterOut hOut => ?_
  refine hS.bind (Table.each_inside _ _) fun _ _ => ?_
  refine hS.bind (Table.each_inside _ _) fun _ _ => ?_
  refine hS.bind (Table.each_inside _ _) fun _ _ => ?_
  refine hS.bind (evalLoop_stepwise hS (I := ChunkRoomy ret ret.storage.chunkshape)
    (fun _ _ hs => iterchunkRound_inside hE hs)
    (fun _ _ _ _ hs h => iterchunkRound_keeps hE hs h) _ ⟨writesWithin_new hRet hOut, ?_⟩)
    fun _ _ => ?_
  · intro itr hItr
    obtain ⟨v, hv, hNew⟩ := exists_of_forall₂ (Result.mapM_eq_ok hIter) hItr
    exact roomy_new hRet (hVars v hv).1 (hVars v hv).2 le_rfl hNew
  · exact hS.bind hS.nil fun _ _ => hS.nil

end Iterchunk

/-! ## What is checked -/

/-- A loop that ends well has gone through a round for every block. -/
theorem evalLoop_rounds {σ : Type} {E : Backend}
    {body : IterWriteBlock → σ → Eval (IterWriteBlock × σ)} {I : IterWriteBlock → σ → Prop}
    (hBody : ∀ itr s itr' s', I itr s → (body itr s).outcome = .ok (itr', s') →
      I itr' s' ∧ itr'.nblock = itr.nblock + 1 ∧ itr'.totalBlocks = itr.totalBlocks)
    {rounds : Nat} {itr : IterWriteBlock} {s : σ} {r : IterWriteBlock × σ} (hI : I itr s)
    (hRounds : itr.nblock + rounds = itr.totalBlocks)
    (h : (evalLoop E body rounds itr s).outcome = .ok r) {k : Nat} (hFrom : itr.nblock ≤ k)
    (hTo : k < itr.totalBlocks) :
    ∃ itr' s' r', I itr' s' ∧ itr'.nblock = k ∧ (body itr' s').outcome = .ok r' := by
  induction rounds generalizing itr s with
  | zero => omega
  | succ rounds ih =>
    have hMore : writeMore E itr = .ok (itr, true) := by
      have hLess : itr.nblock < itr.totalBlocks := by omega
      rw [writeMore, if_neg hLess.ne, decide_eq_true hLess]
    obtain ⟨p, hp, h⟩ := Logged.bind_eq_ok.mp h
    obtain rfl : (itr, true) = p := Except.ok.inj (hMore.symm.trans hp)
    obtain ⟨⟨itr', s'⟩, hRound, h⟩ := Logged.bind_eq_ok.mp h
    obtain ⟨hI', hNblock, hTotal⟩ := hBody _ _ _ _ hI hRound
    rcases Nat.eq_or_lt_of_le hFrom with rfl | hLater
    · exact ⟨itr, s, _, hI, rfl, hRound⟩
    · exact ih hI' (by omega) h (by omega) (by omega)

section Checks

variable {E : Backend} {S : Surroundings} {e : Expression} {ret c : Container}

/-- A block of a compressed chunk is filled exactly if the items are as long as those of the
output. -/
theorem prefilterInput_size {p : ExprPparams} {nblock nchunk i : Nat} {r : Pointer}
    (hOut : Plain p.out) (hPos : ∀ x ∈ p.out.catarr.axes, 0 < x.shape)
    (h : (prefilterInput p nblock ((c, .eq nchunk), i)).outcome = .ok r) :
    c.catarr.itemsize = p.out.catarr.itemsize := by
  obtain ⟨_, _, h⟩ := Logged.bind_eq_ok.mp h
  obtain ⟨_, _, h⟩ := Logged.bind_eq_ok.mp h
  obtain ⟨_, _, h⟩ := Logged.bind_eq_ok.mp h
  obtain ⟨_, _, h⟩ := Logged.bind_eq_ok.mp h
  obtain ⟨_, _, h⟩ := Logged.bind_eq_ok.mp h
  obtain ⟨_, _, h⟩ := Logged.bind_eq_ok.mp h
  obtain ⟨_, _, h⟩ := Logged.bind_eq_ok.mp h
  split at h
  · cases h
  · rename_i hFilled
    have hSized := hOut.fresh.sized
    have hItems : p.out.catarr.sc.blocksize / p.out.catarr.itemsize =
        p.out.catarr.blockshape.prod := hSized.blockitems
    rw [not_not, hItems, hSized.2] at hFilled
    have hBlock : 0 < p.out.catarr.blockshape.prod := prod_pos_of_forall fun n hn => by
      obtain ⟨x, hx, rfl⟩ := List.mem_map.mp hn
      exact x.block_pos (hPos x hx)
    exact Nat.eq_of_mul_eq_mul_left hBlock hFilled

theorem prefilterFunc_input {p : ExprPparams} {nblock : Nat} {block : List Cell}
    (h : (prefilterFunc E p nblock).outcome = .ok block) {x : Container × ExprInput}
    (hx : x ∈ p.inputs) : ∃ i r, (prefilterInput p nblock (x, i)).outcome = .ok r := by
  obtain ⟨_, _, h⟩ := Logged.bind_eq_ok.mp h
  obtain ⟨_, _, h⟩ := Logged.bind_eq_ok.mp h
  obtain ⟨_, _, h⟩ := Logged.bind_eq_ok.mp h
  obtain ⟨inputs, hInputs, _⟩ := Logged.bind_eq_ok.mp h
  obtain ⟨i, hi, rfl⟩ := List.getElem_of_mem hx
  have hMem : (p.inputs[i], i) ∈ p.inputs.zipIdx :=
    List.mk_mem_zipIdx_iff_getElem?.mpr (List.getElem?_eq_getElem hi)
  obtain ⟨r, hr⟩ := Logged.exists_of_mapM hInputs hMem
  exact ⟨i, r, hr⟩

theorem compressChunk_block {p : ExprPparams} {chunk : List Cell}
    (h : (compressChunk E p).outcome = .ok chunk) {nblock : Nat}
    (hBlock : nblock < (p.out.catarr.axes.map Axis.extchunkshape).prod /
      p.out.catarr.blockshape.prod) :
    ∃ block, (prefilterFunc E p nblock).outcome = .ok block := by
  unfold compressChunk at h
  simp only at h
  split at h
  next blocks hBlocks => exact Logged.exists_of_mapM hBlocks (List.mem_range.mpr hBlock)
  next => cases h
  next => cases h

/-- An operand whose chunks are read. -/
theorem fetchInput_stored {nchunk i : Nat} {y : Operand × ExprInput}
    (h : (fetchInput E S ret nchunk (⟨c, none⟩, i)).outcome = .ok y) :
    nchunk < c.catarr.nchunks ∧
      y = (⟨c, none⟩, if S.memcpyed c nchunk then .eqNcomp nchunk else .eq nchunk) := by
  obtain ⟨_, _, h⟩ := Logged.bind_eq_ok.mp h
  obtain ⟨_, _, h⟩ := Logged.bind_eq_ok.mp h
  split at h
  next => cases h
  next hChunk =>
    obtain ⟨_, _, h⟩ := Logged.bind_eq_ok.mp h
    obtain ⟨_, _, h⟩ := Logged.bind_eq_ok.mp h
    cases h
    exact ⟨Nat.lt_of_not_le hChunk, rfl⟩

/-- The operand keeps its place, and the counts go up together. -/
structure Underway (c : Container) (itr : IterWriteBlock) (s : BloscState) : Prop where
  nchunk : s.1 = itr.nblock
  operand : ⟨c, none⟩ ∈ s.2

theorem Underway.fetched {itr : IterWriteBlock} {s : BloscState} (h : Underway c itr s)
    {fetched : List (Operand × ExprInput)}
    (hFetched : (s.2.zipIdx.mapM (fetchInput E S ret s.1)).outcome = .ok fetched) :
    s.1 < c.catarr.nchunks ∧
      (⟨c, none⟩, if S.memcpyed c s.1 then ExprInput.eqNcomp s.1 else .eq s.1) ∈ fetched := by
  obtain ⟨i, hi, hOperand⟩ := List.getElem_of_mem h.operand
  have hMem : (⟨c, none⟩, i) ∈ s.2.zipIdx :=
    List.mk_mem_zipIdx_iff_getElem?.mpr ((List.getElem?_eq_getElem hi).trans (congrArg _ hOperand))
  obtain ⟨y, hy, hInput⟩ := exists_of_forall₂ (List.Forall₂.flip (Logged.mapM_eq_ok hFetched)) hMem
  obtain ⟨hChunk, rfl⟩ := fetchInput_stored hInput
  exact ⟨hChunk, hy⟩

theorem iterbloscRound_counts {itr itr' : IterWriteBlock} {s s' : BloscState}
    (hUnderway : Underway c itr s)
    (h : (iterbloscRound E S e ret itr s).outcome = .ok (itr', s')) :
    Underway c itr' s' ∧ itr'.nblock = itr.nblock + 1 ∧ itr'.totalBlocks = itr.totalBlocks := by
  obtain ⟨⟨next, value⟩, hNext, h⟩ := Logged.bind_eq_ok.mp h
  obtain ⟨fetched, hFetched, h⟩ := Logged.bind_eq_ok.mp h
  obtain ⟨_, _, h⟩ := Logged.bind_eq_ok.mp h
  obtain ⟨_, _, h⟩ := Logged.bind_eq_ok.mp h
  cases h
  have hCounts := IterWriteBlock.next_counts hNext
  refine ⟨⟨?_, ?_⟩, hCounts⟩
  · exact (congrArg (· + 1) hUnderway.nchunk).trans hCounts.1.symm
  · exact List.mem_map.mpr ⟨_, (hUnderway.fetched hFetched).2, rfl⟩

/-- What a round checks of an operand whose chunks are read. -/
theorem iterbloscRound_checks (hRet : Plain ret) {itr : IterWriteBlock} {s : BloscState}
    {r : IterWriteBlock × BloscState} (hUnderway : Underway c itr s)
    (h : (iterbloscRound E S e ret itr s).outcome = .ok r) :
    s.1 < c.catarr.nchunks ∧ (s.1 < ret.catarr.nchunks → S.memcpyed c s.1 = false →
      c.catarr.itemsize = ret.catarr.itemsize) := by
  obtain ⟨⟨next, value⟩, hNext, h⟩ := Logged.bind_eq_ok.mp h
  obtain ⟨fetched, hFetched, h⟩ := Logged.bind_eq_ok.mp h
  obtain ⟨chunk, hChunk, _⟩ := Logged.bind_eq_ok.mp h
  obtain ⟨hBehind, hMem⟩ := hUnderway.fetched hFetched
  refine ⟨hBehind, fun hn hCompressed => ?_⟩
  have hPos := CatArray.shape_pos_of_nchunks hn
  have hBlocks : 0 < (ret.catarr.axes.map Axis.extchunkshape).prod /
      ret.catarr.blockshape.prod := by
    rw [CatArray.blockshape, CatArray.prod_extchunkshape hPos]
    exact (nchunks_pos hPos).2
  obtain ⟨block, hBlock⟩ := compressChunk_block hChunk hBlocks
  rw [hCompressed, if_neg Bool.false_ne_true] at hMem
  obtain ⟨i, r, hInput⟩ := prefilterFunc_input hBlock (List.mem_map.mpr ⟨_, hMem, rfl⟩)
  exact prefilterInput_size hRet hPos hInput

/-- An evaluation by "iterblosc" that ends well went through a round for every chunk. -/
theorem iterblosc_rounds (hRet : Plain ret) (hShort : ∀ n ∈ ret.storage.chunkshape, n < 2 ^ 31)
    {out : Container} (h : (iarrayEvalIterblosc E S e ret ret.storage.chunkshape).outcome = .ok out)
    {v : String × Container} (hv : v ∈ e.vars) (hAllowed : iterbloscAllowed S ret v.2 = true)
    {k : Nat} (hk : k < ret.catarr.nchunks) :
    ∃ itr s r, Underway v.2 itr s ∧ s.1 = k ∧
      (iterbloscRound E S e ret itr s).outcome = .ok r := by
  obtain ⟨_, _, h⟩ := Logged.bind_eq_ok.mp h
  obtain ⟨_, _, h⟩ := Logged.bind_eq_ok.mp h
  obtain ⟨_, _, h⟩ := Logged.bind_eq_ok.mp h
  obtain ⟨operands, hOperands, h⟩ := Logged.bind_eq_ok.mp h
  obtain ⟨itr, hNew, h⟩ := Logged.bind_eq_ok.mp h
  obtain ⟨r, hLoop, _⟩ := Logged.bind_eq_ok.mp h
  have hPos := CatArray.shape_pos_of_nchunks hk
  have hNew : iarrayIterWriteBlockNew E ret ret.storage.chunkshape true = .ok itr := hNew
  have hRank : ret.catarr.axes ≠ [] := by
    intro hNone
    rw [new_rank_zero hRet hNone] at hNew
    cases hNew
  obtain ⟨itr', hOk, hFirst, -, hMidway⟩ := @new_ok E ret true hRet hShort hPos hRank
  obtain rfl : itr' = itr := Except.ok.inj (hOk.symm.trans hNew)
  have hStart : Underway v.2 itr' (0, operands) := by
    refine ⟨hFirst.symm, ?_⟩
    obtain ⟨o, ho, hSet⟩ :=
      exists_of_forall₂ (List.Forall₂.flip (Result.mapM_eq_ok hOperands)) hv
    have hSet : setUpOperand E S ret ret.storage.chunkshape v.2 = .ok o := hSet
    rw [setUpOperand, if_pos hAllowed] at hSet
    cases hSet
    exact ho
  obtain ⟨itr, s, r', hUnderway, hNumber, hRound⟩ :=
    evalLoop_rounds (fun _ _ _ _ hI hBody => iterbloscRound_counts hI hBody) hStart
      (by omega) hLoop (k := k) (by omega) (by rw [hMidway.total]; exact hk)
  exact ⟨itr, s, r', hUnderway, hUnderway.nchunk.trans hNumber, hRound⟩

end Checks

/-! ## Evaluations -/

/-- What an evaluation makes sure of. -/
structure OperandsBounded (E : Backend) (S : Surroundings) (e : Expression) : Prop where
  /-- Nothing outside an operand is read, however the evaluation ends. -/
  inside : ∀ a ∈ (iarrayEval E S e).log, a.Inside
  /-- An operand whose chunks are read has as many as the output, and items of the same size if one
  of them is compressed. -/
  stored : ∀ ret, iarrayEmpty E e.outDtshape e.outStoreProperties = .ok ret →
    (∀ n ∈ e.outStoreProperties.chunkshape, n < 2 ^ 31) → e.evalMethod = .iterblosc →
      (∃ c, (iarrayEval E S e).outcome = .ok c) →
      ∀ v ∈ e.vars, iterbloscAllowed S ret v.2 = true →
        ret.catarr.nchunks ≤ v.2.catarr.nchunks ∧
          ∀ n < ret.catarr.nchunks, S.memcpyed v.2 n = false →
            v.2.dtshape.dtypeSize = e.outDtshape.dtypeSize

/-- The operands have the shape and the item size of the output. -/
def Expression.Uniform (e : Expression) : Prop :=
  ∀ v ∈ e.vars, v.2.dtshape.shape = e.outDtshape.shape ∧
    v.2.dtshape.dtypeSize = e.outDtshape.dtypeSize

/-- The operands have the shape and the item size of the output if the evaluation succeeds, and
nothing outside them is read. -/
structure OperandsChecked (E : Backend) (S : Surroundings) (e : Expression) : Prop where
  same : (∃ c, (iarrayEval E S e).outcome = .ok c) → e.Uniform
  inside : ∀ a ∈ (iarrayEval E S e).log, a.Inside

section Evaluation

variable {E : Backend} {S : Surroundings} {e : Expression}

theorem Expression.Uniform.covers (h : e.Uniform) : ∀ v ∈ e.vars, Covers e.outDtshape v.2 :=
  fun v hv => ⟨(congrArg List.length (h v hv).1).ge, (h v hv).2.ge⟩

theorem iarrayEval_inside (hE : E.Lawful) (hChain : ∀ v ∈ e.vars, Chain E v.2)
    (hVars : ∀ v ∈ e.vars, Covers e.outDtshape v.2) : ∀ a ∈ (iarrayEval E S e).log, a.Inside := by
  have hS := inside_stepwise
  refine hS.bind hS.nil fun ret hRet => ?_
  have hPlainOf := iarrayEmpty_plain hE hRet
  have hCovers : ∀ v ∈ e.vars, Settled v.2 ∧ Covers ret.dtshape v.2 :=
    fun v hv => ⟨(hChain v hv).settled hE, hPlainOf.dtshape ▸ hVars v hv⟩
  split
  · exact iterchunk_inside hE hPlainOf.plain hCovers
  · exact iterblosc_inside hPlainOf.plain hCovers
  · exact hS.nil

theorem iarrayEval_checks (hE : E.Lawful) {ret c : Container}
    (hRet : iarrayEmpty E e.outDtshape e.outStoreProperties = .ok ret)
    (hShort : ∀ n ∈ e.outStoreProperties.chunkshape, n < 2 ^ 31)
    (hMethod : e.evalMethod = .iterblosc) (h : (iarrayEval E S e).outcome = .ok c)
    {v : String × Container} (hv : v ∈ e.vars) (hChain : Chain E v.2)
    (hAllowed : iterbloscAllowed S ret v.2 = true) {n : Nat} (hn : n < ret.catarr.nchunks) :
    n < v.2.catarr.nchunks ∧
      (S.memcpyed v.2 n = false → v.2.dtshape.dtypeSize = e.outDtshape.dtypeSize) := by
  have hPlainOf := iarrayEmpty_plain hE hRet
  obtain ⟨ret', hRet', h⟩ := Logged.bind_eq_ok.mp h
  obtain rfl : ret = ret' := Except.ok.inj (hRet.symm.trans hRet')
  rw [hMethod] at h
  obtain ⟨itr, s, r, hUnderway, rfl, hRound⟩ :=
    iterblosc_rounds hPlainOf.plain (hPlainOf.storage ▸ hShort) h hv hAllowed hn
  obtain ⟨hBehind, hSize⟩ := iterbloscRound_checks hPlainOf.plain hUnderway hRound
  refine ⟨hBehind, fun hCompressed => ?_⟩
  have := hSize hn hCompressed
  rwa [(hChain.settled hE).itemsize, hPlainOf.plain.settled.itemsize, hPlainOf.dtshape] at this

/-- Whatever the operands, the method and the outcome, nothing outside operands that cover the output
is read. An operand whose chunks are read is checked: there have to be enough of them, of items of the
right size. -/
theorem evalOperands_bounded (hE : E.Lawful) (hChain : ∀ v ∈ e.vars, Chain E v.2)
    (hVars : ∀ v ∈ e.vars, Covers e.outDtshape v.2) : OperandsBounded E S e where
  inside := iarrayEval_inside hE hChain hVars
  stored := by
    rintro ret hRet hShort hMethod ⟨c, hOk⟩ v hv hAllowed
    have hChecks := fun n hn =>
      @iarrayEval_checks E S e hE ret c hRet hShort hMethod hOk v hv (hChain v hv) hAllowed n hn
    refine ⟨Nat.le_of_not_lt fun hFew => ?_, fun n hn => (hChecks n hn).2⟩
    exact absurd (hChecks _ hFew).1 (Nat.lt_irrefl _)

end Evaluation

namespace BoundsExample

/-- A vector of `n` items under chunks and blocks of two. -/
def vector (dtype : Dtype) (n : Nat) : Container :=
  Reference.plain dtype [.ofCuts n 2 2] fun _ => .bits 7

theorem plain_vector (dtype : Dtype) (n : Nat) : Plain (vector dtype n) :=
  Reference.plain_plain _ _ (show 1 ≤ 8 by decide)
    (List.forall_mem_singleton.mpr (show 2 < 2 ^ 31 ∧ 2 < 2 ^ 31 by decide))

/-- Every chunk lies uncompressed in memory. -/
def uncompressed : Surroundings := { TableExample.surroundings with memcpyed := fun _ _ => true }

/-- A copy of a vector in an array of four items of eight bytes, in chunks of `n` items. -/
def copied (x : Container) (n : Nat) : Expression where
  jugDtype := .int64
  outDtshape := ⟨.int64, [4]⟩
  outStoreProperties := ⟨[n], [2]⟩
  evalMethod := .iterblosc
  typesize := 8
  nbytes := 32
  vars := [("x", x)]
  userParams := []
  exprFunc := some fun eval out => match eval.inputs with
    | [] => .ok out
    | p :: _ => .ok (p.load Reference.backend.machine)

/-- Whether bytes behind a chunk are read. -/
def overreads (l : List Access) : Bool :=
  l.any fun
    | .chunk c _ start nbytes => c.catarr.chunkBytes < start + nbytes
    | _ => false

end BoundsExample

end IronArray
