import IronArray.Expression.Bounds
import IronArray.Expression.Output
import IronArray.Expression.Relayout
import IronArray.Views.Run

/-!
# The operands of an element-wise expression

An operand is an array, a slice view or a transposed array. The prefilter gets its elements in one of
three ways: from a chunk that is cut like the chunks of the output, compressed or not, or from a
block that was read through an iterator and laid out anew. `prefilterInput_ok`: in each of them the
compiled function finds the elements of the operand where the block of the output has its own.
-/

namespace Grid

/-- A region as long as its box is the box. -/
theorem Region.start_of_whole {s ns : List Nat} (h : Region s ns ns) :
    s = List.replicate ns.length 0 := by
  induction ns generalizing s with
  | nil => exact List.length_eq_zero_iff.mp h.start_length
  | cons n ns ih =>
    obtain ⟨i, s, rfl⟩ := List.exists_cons_of_length_eq_add_one h.start_length
    obtain ⟨hHead, hTail⟩ := Region.cons_iff.mp h
    obtain rfl : i = 0 := by omega
    rw [ih hTail]
    rfl

end Grid

namespace IronArray

open Grid

/-! ## Operands -/

/-- The arrays, slice views and transposed arrays, with the elements that are read from them. A slice
of a transposed array is a region of the array itself. -/
inductive Bindable (E : Backend) : Container → NdArray Cell → Prop
  | plain {c : Container} (hPlain : Plain c) : Bindable E c c.contents
  | slice {c v : Container} {A : NdArray Cell} {start stop : List Int} {storage : Storage}
      {s n : List Nat} (h : Bindable E c A) (hTransposed : c.transposed = false)
      (hSel : Selects start stop A.shape s n)
      (hv : iarrayGetSlice E c start stop true storage = .ok v) : Bindable E v (A.slice s n)
  | sliceTransposed {c v : Container} {A : NdArray Cell} {start stop : List Int}
      {storage : Storage} {s n : List Nat} (h : Bindable E c A) (hTransposed : c.transposed = true)
      (hSel : Selects start stop A.shape s n)
      (hv : iarrayGetSlice E c start stop true storage = .ok v) :
      Bindable E v (A.slice s n).transpose
  | transpose {c v : Container} {A : NdArray Cell} (h : Bindable E c A)
      (hv : iarrayLinalgTranspose E c = .ok v) : Bindable E v A.transpose

/-- No axis is lost, and the array has the shape of the root. -/
structure Aligned (c : Container) : Prop where
  ndim : c.catarr.ndim = c.dtshape.ndim
  root : c.root.dtshape.shape = c.catarr.shape

section Bindable

variable {E : Backend} {S : Surroundings} {ret c v : Container} {A : NdArray Cell}

theorem Plain.aligned (h : Plain c) : Aligned c where
  ndim := h.catarr_ndim
  root := by
    rw [Container.root, h.containerViewed]
    exact h.fresh.shape.symm

theorem Aligned.viewNew (hE : E.Lawful) (h : Aligned c) {dtshape : Dtshape} {offset : List Int}
    (hNdim : dtshape.ndim = c.dtshape.ndim) (hv : _iarrayViewNew E c dtshape offset = .ok v) :
    Aligned v := by
  obtain ⟨a, ha, rfl⟩ := viewNew_ok hv
  have hLen : c.catarr.shape.length = dtshape.ndim := by
    rw [hNdim, ← h.ndim, CatArray.shape, length_shapeOf, CatArray.ndim]
  have hShape : a.shape = c.catarr.shape := by
    rw [(hE.empty ha).shape, ← hLen, List.take_length]
  constructor
  · show a.ndim = dtshape.ndim
    rw [← hLen, ← hShape, CatArray.shape, length_shapeOf, CatArray.ndim]
  · show c.root.dtshape.shape = a.shape
    rw [h.root, hShape]

theorem Aligned.getSlice (hE : E.Lawful) (h : Aligned c) {start stop : List Int}
    {storage : Storage} (hv : iarrayGetSlice E c start stop true storage = .ok v) : Aligned v := by
  obtain ⟨_, _, hv⟩ := Result.bind_eq_ok.mp hv
  refine h.viewNew hE ?_ hv
  rw [Dtshape.ndim, Container.sliceDtshape, List.length_map, List.length_range]

/-- What is known of an operand. -/
theorem Bindable.known (hE : E.Lawful) (h : Bindable E c A) : Known c A ∧ Aligned c := by
  induction h with
  | plain hPlain => exact ⟨.plain hPlain (.refl _), hPlain.aligned⟩
  | slice _ hTransposed hSel hv ih =>
    obtain ⟨hKnown, hAligned⟩ := ih
    obtain ⟨mask, off, ws, hShows⟩ := hKnown.shows hTransposed
    have hFlat := hShows.flat_of_ndim hAligned.ndim
    exact ⟨.view (getSlice_viewed hv) (hShows.getSlice_view hE hFlat hSel hv),
      hAligned.getSlice hE hv⟩
  | sliceTransposed _ hTransposed hSel hv ih =>
    obtain ⟨hKnown, hAligned⟩ := ih
    exact ⟨.view (getSlice_viewed hv)
      ((hKnown.showsTransposed hTransposed).getSlice_view hE hSel hv), hAligned.getSlice hE hv⟩
  | @transpose c v A _ hv ih =>
    obtain ⟨hKnown, hAligned⟩ := ih
    obtain ⟨hNone, -, b, hb, hEq⟩ := transpose_ok hv
    constructor
    · cases hKnown with
      | plain hPlain hSame =>
        exact .transposed ((transpose_shows hE hPlain hv).congr hSame.transpose)
      | view hViewed _ =>
        rw [hNone] at hViewed
        cases hViewed
      | transposed hShows =>
        have hViewed := hShows.viewed
        rw [hNone] at hViewed
        cases hViewed
    · have hNdim : c.dtshape.shape.reverse.length = c.dtshape.shape.length := List.length_reverse
      have hView : Aligned b := by
        apply hAligned.viewNew hE ?_ hb
        exact hNdim
      obtain ⟨a, _, rfl⟩ := viewNew_ok hb
      rw [hEq]
      exact ⟨hView.ndim, hView.root⟩

/-! ## Chunks that are cut like those of the output -/

/-- The array of the operand is cut like the output and holds the elements of the operand. -/
structure Direct (ret c : Container) (A : NdArray Cell) : Prop where
  axes : c.catarr.axes = ret.catarr.axes
  itemsize : c.catarr.itemsize = ret.catarr.itemsize
  dtype : c.dtshape.dtype.size = ret.catarr.itemsize
  sized : c.catarr.Sized
  total : c.catarr.sc.Total
  cells : ∀ x, InBox x ret.catarr.shape → c.catarr.cell x = .ok (A.get x)

theorem Known.settled (h : Known c A) (hAligned : Aligned c) (hTransposed : c.transposed = false) :
    Settled c := by
  obtain ⟨mask, off, ws, hShows⟩ := h.shows hTransposed
  exact ⟨hShows.storage, hShows.itemsize, hAligned.ndim.ge⟩

/-- The operands whose chunks are taken as they are. -/
theorem direct_of_allowed (hRet : Plain ret) (hKnown : Known c A) (hAligned : Aligned c)
    (hShape : A.shape = ret.dtshape.shape) (hSize : c.dtshape.dtypeSize = ret.dtshape.dtypeSize)
    (hAllowed : iterbloscAllowed S ret c = true) : Direct ret c A := by
  have hParts := hAllowed
  rw [iterbloscAllowed, Bool.and_eq_true, Bool.and_eq_true, Bool.not_eq_true',
    Bool.or_eq_false_iff] at hParts
  obtain ⟨⟨⟨-, hTransposed⟩, hViewed⟩, -⟩ := hParts
  obtain ⟨mask, off, ws, hShows⟩ := hKnown.shows hTransposed
  have hFlat := hShows.flat_of_ndim hAligned.ndim
  have hDtshape : c.dtshape.shape = A.shape := hKnown.shape
  have hTail : mask.length - c.dtshape.ndim = 0 := by
    rw [hShows.mask_length, hAligned.ndim, Nat.sub_self]
  have hWs : ws = A.shape := by
    have := hShows.ws_of_flat hFlat
    rwa [hTail, List.replicate_zero, List.append_nil] at this
  have hMask : mask = List.replicate c.dtshape.ndim false := by
    have := hShows.mask_of_flat hFlat
    rwa [hTail, tailMask, List.replicate_zero, List.append_nil] at this
  have hRank : c.catarr.shape.length = c.dtshape.shape.length := by
    rw [CatArray.shape, length_shapeOf]
    exact hAligned.ndim
  -- a view of another shape than its root has other chunks
  have hWhole : c.dtshape.shape = c.catarr.shape := by
    rw [← hAligned.root, Container.root]
    cases hNone : c.containerViewed with
    | none => rfl
    | some viewed =>
      rw [hNone] at hViewed
      have hRoot : viewed.dtshape.shape = c.catarr.shape := by
        rw [← hAligned.root, Container.root, hNone, Option.getD_some]
      refine ext_getD (by rw [Option.getD_some, hRoot, hRank]) fun i hi => ?_
      have hEach := List.all_eq_true.mp hViewed i (List.mem_range.mpr hi)
      rw [decide_eq_true_iff] at hEach
      rw [Option.getD_some, ← hEach]
      rw [Option.getD_some, hRoot, hRank] at hi
      rw [List.getD_eq_getElem _ _ hi, List.getD_eq_getElem _ _ hi]
  have hOff : off = List.replicate A.shape.length 0 := by
    have hRegion := hShows.region
    rw [← hWhole, hDtshape, hWs] at hRegion
    exact hRegion.start_of_whole
  have hOut : c.catarr.shape = ret.catarr.shape := by
    rw [← hWhole, hDtshape, hShape, hRet.fresh.shape]
  obtain ⟨hChunk, hBlock⟩ := iterbloscAllowed_prefix hRet (hKnown.settled hAligned hTransposed)
    (by rw [Dtshape.ndim, Dtshape.ndim, hDtshape, hShape]) hAllowed
  have hLen : ret.catarr.axes.length = c.catarr.axes.length := by
    rw [← length_shapeOf, ← length_shapeOf]
    exact congrArg List.length hOut.symm
  have hItem : c.dtshape.dtypeSize = ret.catarr.itemsize := hSize.trans hRet.fresh.itemsize.symm
  refine ⟨axes_ext hOut ?_ ?_, hShows.itemsize.trans hItem, hItem, hShows.sized, hShows.total,
    fun x hx => ?_⟩
  · refine (hChunk.eq_of_length ?_).symm
    rw [chunkshapeOf, chunkshapeOf, List.length_map, List.length_map, hLen]
  · refine (hBlock.eq_of_length ?_).symm
    rw [blockshapeOf, blockshapeOf, List.length_map, List.length_map, hLen]
  · rw [← hOut, ← hWhole, hDtshape] at hx
    have hLength : x.length = A.shape.length := hx.length_eq
    have hCell := hShows.cells x (hWs ▸ hx)
    rwa [hOff, addIdx_replicate_zero hLength, hMask,
      keep_replicate_false (by rw [hLength, ← hDtshape, Dtshape.ndim])] at hCell

end Bindable

/-! ## Pointers into operands -/

/-- Behind the pointer lie the elements of a region of shape `n` at `s`, in memory of shape `ds`. -/
def Pointer.Supplies (m : Machine) (p : Pointer) (A : NdArray Cell) (ds s n : List Nat) : Prop :=
  ∀ y, InBox y n → p.load m (flat ds y) = A.get (addIdx s y)

/-- What the prefilter finds of an operand for chunk `k` of the output. -/
def ExprInput.Supplies (ret c : Container) (A : NdArray Cell) (k : Nat) : ExprInput → Prop
  | eq nchunk => nchunk = k ∧ Direct ret c A
  | eqNcomp nchunk => nchunk = k ∧ Direct ret c A ∧ c.catarr.sc.postfilter = none
  | neq buffer => buffer.offset = 0 ∧ buffer.dtype.size = ret.catarr.itemsize ∧
    ∀ x, InBox x ret.catarr.shape → (locate ret.catarr.axes x).nchunk = k →
      buffer.mem ((locate ret.catarr.axes x).nblock * ret.catarr.blockshape.prod +
        (locate ret.catarr.axes x).nitem) = A.get x

/-- The first index of block `nblock` of chunk `k`, and its shape inside the array. -/
def startOfBlock (axes : List Axis) (k nblock : Nat) : List Nat :=
  blockStart axes (unflat (axes.map Axis.chunks) k) (unflat (axes.map Axis.blocks) nblock)

def shapeOfBlock (axes : List Axis) (k nblock : Nat) : List Nat :=
  partOf axes (unflat (axes.map Axis.chunks) k) (unflat (axes.map Axis.blocks) nblock)

section Pointers

variable {m : Machine} {ret c : Container} {A : NdArray Cell} {axes : List Axis}
  {k nblock i : Nat} {y : List Nat}

theorem locate_ofBlock (hk : k < (axes.map Axis.chunks).prod)
    (hb : nblock < (axes.map Axis.blocks).prod) (hy : InBox y (shapeOfBlock axes k nblock)) :
    InBox (addIdx (startOfBlock axes k nblock) y) (shapeOf axes) ∧
      locate axes (addIdx (startOfBlock axes k nblock) y) =
        ⟨k, nblock, flat (blockshapeOf axes) y⟩ := by
  have hChunk := inBox_unflat hk
  have hBlock := inBox_unflat hb
  have hLenC : (unflat (axes.map Axis.chunks) k).length = axes.length := by simp
  have hLenB : (unflat (axes.map Axis.blocks) nblock).length = axes.length := by simp
  have hLenY : y.length = axes.length := hy.length_eq.trans (length_partOf hLenC hLenB)
  have hPlace := locate_joinAll hChunk hBlock hy
  rw [flat_unflat hk, flat_unflat hb] at hPlace
  rw [startOfBlock, addIdx_blockStart hLenC hLenB hLenY]
  exact hPlace

/-- An item of a block lies in the block. -/
theorem flat_ofBlock_lt (hy : InBox y (shapeOfBlock axes k nblock)) :
    flat (blockshapeOf axes) y < (blockshapeOf axes).prod :=
  flat_lt ((inBox_partOf (by simp) (by simp)).mp hy).1

/-- The item of a block that can be read. -/
theorem Direct.getD_block (h : Direct ret c A) (hk : k < ret.catarr.nchunks)
    (hb : nblock < (ret.catarr.axes.map Axis.blocks).prod) {b : List Cell}
    (hBlock : c.catarr.sc.block k nblock = .ok b)
    (hy : InBox y (shapeOfBlock ret.catarr.axes k nblock)) :
    b.getD (flat ret.catarr.blockshape y) (.bits 0) =
      A.get (addIdx (startOfBlock ret.catarr.axes k nblock) y) := by
  obtain ⟨hx, hPlace⟩ := locate_ofBlock hk hb hy
  have hCell := h.cells _ hx
  rw [CatArray.cell, h.axes, hPlace, hBlock] at hCell
  have hItem : SChunk.itemOfBlock b (flat ret.catarr.blockshape y) =
      .ok (A.get (addIdx (startOfBlock ret.catarr.axes k nblock) y)) := hCell
  unfold SChunk.itemOfBlock at hItem
  split at hItem
  · rename_i hSome
    cases hItem
    rw [List.getD_eq_getElem?_getD, hSome, Option.getD_some]
  · cases hItem

end Pointers

section Prefilter

variable {m : Machine} {p : ExprPparams} {c : Container} {A : NdArray Cell} {k nblock i : Nat}

theorem Direct.chunkBytes (h : Direct p.out c A) : c.catarr.chunkBytes = p.out.catarr.chunkBytes := by
  rw [CatArray.chunkBytes, CatArray.chunkBytes, h.axes, h.itemsize]

/-- A block of a compressed chunk. -/
theorem prefilterInput_eq (hOut : Writable p.out) (hk : k < p.out.catarr.nchunks)
    (hb : nblock < (p.out.catarr.axes.map Axis.blocks).prod) (hi : i < dimensionMax)
    (h : Direct p.out c A) : ∃ q, (prefilterInput p nblock ((c, .eq k), i)).outcome = .ok q ∧
      q.Supplies m A p.out.catarr.blockshape (startOfBlock p.out.catarr.axes k nblock)
        (shapeOfBlock p.out.catarr.axes k nblock) := by
  have hSized := hOut.plain.fresh.sized
  have hItems : p.out.catarr.sc.blocksize / p.out.catarr.itemsize = p.out.catarr.blockshape.prod :=
    hSized.blockitems
  have hOffset : nblock * p.out.catarr.sc.blocksize / p.out.catarr.itemsize =
      nblock * p.out.catarr.blockshape.prod := by
    rw [hSized.2, ← Nat.mul_assoc, Nat.mul_div_cancel _ hSized.1]
  have hSame : c.catarr.sc.blockitems = p.out.catarr.blockshape.prod := by
    rw [h.sized.blockitems, CatArray.blockshape, h.axes]
    rfl
  have hEnd := block_le_chunkBytes hOut.plain
    (hb.trans_eq (CatArray.prod_extchunkshape hOut.pos).symm)
  obtain ⟨b, hBlock, hLen⟩ := h.total k nblock
  have hGet : (getitemCtx c k (nblock * p.out.catarr.blockshape.prod) p.out.catarr.blockshape.prod
      p.out.catarr.sc.blocksize).outcome = .ok b := by
    have hInside : ¬ (nblock * p.out.catarr.blockshape.prod + p.out.catarr.blockshape.prod) *
        c.catarr.itemsize > c.catarr.chunkBytes := by
      rw [h.itemsize, h.chunkBytes, Nat.add_mul, Nat.mul_assoc, ← hSized.2]
      exact Nat.not_lt.mpr hEnd
    have hDest : p.out.catarr.blockshape.prod * c.catarr.itemsize = p.out.catarr.sc.blocksize := by
      rw [h.itemsize, hSized.2]
    rw [getitemCtx, if_neg hInside, if_neg (Nat.not_lt.mpr hDest.le)]
    show c.catarr.sc.getitem _ _ _ _ = _
    rw [← hSame]
    apply SChunk.getitem_block hBlock hLen
    rw [hSame]
    exact hDest.le
  refine ⟨⟨c.dtshape.dtype, chunkItems b, 0⟩, ?_, fun y hy => ?_⟩
  · have hFull : ¬ p.out.catarr.blockshape.prod * c.catarr.itemsize ≠ p.out.catarr.sc.blocksize := by
      rw [not_not, h.itemsize, hSized.2]
    have hi' : i < exprOperandsMax := hi.trans (by decide)
    rw [prefilterInput]
    refine Logged.bind_eq_ok.mpr ⟨(), Table.index_ok hi, ?_⟩
    refine Logged.bind_eq_ok.mpr ⟨(), Table.index_ok hi', ?_⟩
    refine Logged.bind_eq_ok.mpr ⟨(), Table.index_ok hi', ?_⟩
    refine Logged.bind_eq_ok.mpr ⟨(), Table.index_ok hi', ?_⟩
    refine Logged.bind_eq_ok.mpr ⟨(), Table.index_ok hi', ?_⟩
    refine Logged.bind_eq_ok.mpr ⟨(), Table.index_ok hi', ?_⟩
    simp only [hItems, hOffset]
    refine Logged.bind_eq_ok.mpr ⟨b, hGet, ?_⟩
    rw [if_neg hFull]
    rfl
  · rw [Pointer.load, Nat.zero_add, loadAt_aligned]
    exact h.getD_block hk hb hBlock hy

/-- A block of a chunk that lies uncompressed in memory. -/
theorem prefilterInput_eqNcomp (hOut : Writable p.out) (hk : k < p.out.catarr.nchunks)
    (hb : nblock < (p.out.catarr.axes.map Axis.blocks).prod) (hi : i < dimensionMax)
    (h : Direct p.out c A) (hPost : c.catarr.sc.postfilter = none) :
    ∃ q, (prefilterInput p nblock ((c, .eqNcomp k), i)).outcome = .ok q ∧
      q.Supplies m A p.out.catarr.blockshape (startOfBlock p.out.catarr.axes k nblock)
        (shapeOfBlock p.out.catarr.axes k nblock) := by
  have hSized := hOut.plain.fresh.sized
  have hEnd := block_le_chunkBytes hOut.plain
    (hb.trans_eq (CatArray.prod_extchunkshape hOut.pos).symm)
  refine ⟨⟨c.dtshape.dtype, c.catarr.sc.chunk k, nblock * p.out.catarr.sc.blocksize⟩, ?_,
    fun y hy => ?_⟩
  · have hi' : i < exprOperandsMax := hi.trans (by decide)
    rw [prefilterInput]
    refine Logged.bind_eq_ok.mpr ⟨(), Table.index_ok hi, ?_⟩
    refine Logged.bind_eq_ok.mpr ⟨(), Table.index_ok hi', ?_⟩
    refine Logged.bind_eq_ok.mpr ⟨(), Table.index_ok hi', ?_⟩
    refine Logged.bind_eq_ok.mpr ⟨(), Table.index_ok hi', ?_⟩
    apply if_pos
    rw [h.chunkBytes]
    exact hEnd
  · have hBlock : c.catarr.sc.block k nblock = .ok (c.catarr.sc.rawBlock k nblock) := by
      rw [SChunk.block, hPost]
    have hSame : c.catarr.sc.blockitems = p.out.catarr.blockshape.prod := by
      rw [h.sized.blockitems, CatArray.blockshape, h.axes]
      rfl
    have hItem : flat p.out.catarr.blockshape y < c.catarr.sc.blockitems := by
      rw [hSame]
      exact flat_ofBlock_lt hy
    have hOffset : nblock * p.out.catarr.sc.blocksize + flat p.out.catarr.blockshape y *
        c.dtshape.dtype.size =
        (nblock * c.catarr.sc.blockitems + flat p.out.catarr.blockshape y) *
          c.dtshape.dtype.size := by
      rw [hSized.2, hSame, h.dtype, Nat.add_mul, Nat.mul_assoc]
    rw [← h.getD_block hk hb hBlock hy, Pointer.load]
    show loadAt m c.dtshape.dtype _ (_ + _) c.dtshape.dtype = _
    rw [hOffset, loadAt_aligned, SChunk.rawBlock, List.getD_eq_getElem _ _ (by simpa using hItem),
      List.getElem_map, List.getElem_range]

/-- A block of a chunk that was read through an iterator. -/
theorem prefilterInput_neq (hOut : Writable p.out) (hk : k < p.out.catarr.nchunks)
    (hb : nblock < (p.out.catarr.axes.map Axis.blocks).prod) (hi : i < dimensionMax)
    {buffer : Pointer} (h : ExprInput.Supplies p.out c A k (.neq buffer)) :
    ∃ q, (prefilterInput p nblock ((c, .neq buffer), i)).outcome = .ok q ∧
      q.Supplies m A p.out.catarr.blockshape (startOfBlock p.out.catarr.axes k nblock)
        (shapeOfBlock p.out.catarr.axes k nblock) := by
  have hSized := hOut.plain.fresh.sized
  obtain ⟨hOffset, hSize, hItems⟩ := h
  refine ⟨{ buffer with offset := buffer.offset + nblock * p.out.catarr.sc.blocksize }, ?_,
    fun y hy => ?_⟩
  · have hi' : i < exprOperandsMax := hi.trans (by decide)
    rw [prefilterInput]
    refine Logged.bind_eq_ok.mpr ⟨(), Table.index_ok hi, ?_⟩
    refine Logged.bind_eq_ok.mpr ⟨(), Table.index_ok hi', ?_⟩
    refine Logged.bind_eq_ok.mpr ⟨(), Table.index_ok hi', ?_⟩
    exact Logged.bind_eq_ok.mpr ⟨(), Table.index_ok hi', rfl⟩
  · obtain ⟨hx, hPlace⟩ := locate_ofBlock hk hb hy
    have hItem := hItems _ hx
    rw [hPlace] at hItem
    have hBytes : buffer.offset + nblock * p.out.catarr.sc.blocksize +
        flat p.out.catarr.blockshape y * buffer.dtype.size =
        (nblock * p.out.catarr.blockshape.prod + flat p.out.catarr.blockshape y) *
          buffer.dtype.size := by
      rw [hOffset, hSized.2, hSize, Nat.zero_add, Nat.add_mul, Nat.mul_assoc]
    rw [← hItem rfl, Pointer.load]
    show loadAt m buffer.dtype _ (_ + _) buffer.dtype = _
    rw [hBytes, loadAt_aligned]
    rfl

/-- However the chunk of an operand is found, the compiled function gets the elements of the
operand where the block of the output has its own. -/
theorem prefilterInput_ok (hOut : Writable p.out) (hk : k < p.out.catarr.nchunks)
    (hb : nblock < (p.out.catarr.axes.map Axis.blocks).prod) (hi : i < dimensionMax)
    {input : ExprInput} (h : input.Supplies p.out c A k) :
    ∃ q, (prefilterInput p nblock ((c, input), i)).outcome = .ok q ∧
      q.Supplies m A p.out.catarr.blockshape (startOfBlock p.out.catarr.axes k nblock)
        (shapeOfBlock p.out.catarr.axes k nblock) := by
  cases input with
  | eq nchunk =>
    obtain ⟨rfl, hDirect⟩ := h
    exact prefilterInput_eq hOut hk hb hi hDirect
  | eqNcomp nchunk =>
    obtain ⟨rfl, hDirect, hPost⟩ := h
    exact prefilterInput_eqNcomp hOut hk hb hi hDirect hPost
  | neq buffer => exact prefilterInput_neq hOut hk hb hi h

end Prefilter

/-! ## Fetching chunks -/

/-- A container of the shape of the output. -/
structure Shaped (ret c : Container) (A : NdArray Cell) : Prop where
  known : Known c A
  shape : A.shape = ret.dtshape.shape

/-- An operand of the shape and the item size of the output. -/
structure Matching (ret c : Container) (A : NdArray Cell) : Prop extends Shaped ret c A where
  aligned : Aligned c
  size : c.dtshape.dtypeSize = ret.dtshape.dtypeSize

/-- Only chunks of arrays that are no views lie uncompressed in memory. -/
def Surroundings.ViewsCompressed (S : Surroundings) : Prop :=
  ∀ c n, c.containerViewed.isSome → S.memcpyed c n = false

/-- An operand in front of chunk `k` of the output. -/
inductive Operand.Ready (S : Surroundings) (ret : Container) (k : Nat) :
    Operand → NdArray Cell → Prop
  | direct {c : Container} {A : NdArray Cell} (hMatching : Matching ret c A)
      (hTransposed : c.transposed = false) (hDirect : Direct ret c A) : Ready S ret k ⟨c, none⟩ A
  | read {c : Container} {A : NdArray Cell} {itr : IterReadBlock} (hMatching : Matching ret c A)
      (hReading : Reading c A ret.catarr.chunkshape true false itr) (hNumber : itr.nblock = k) :
      Ready S ret k ⟨c, some itr⟩ A

section Fetch

variable {E : Backend} {S : Surroundings} {ret c : Container} {A : NdArray Cell} {k i : Nat}

/-- The blocks of an operand with the axes of the output are those of the output. -/
theorem operandBlockshape_of_length {bs : List Nat} (hLen : c.dtshape.ndim = bs.length) :
    operandBlockshape S bs c = bs := by
  rw [operandBlockshape, hLen]
  refine List.ext_getElem (by simp) fun i h₁ h₂ => ?_
  simp [List.getD_eq_getElem?_getD, List.getElem?_eq_getElem h₂]

namespace Shaped

theorem axes (hRet : Plain ret) (h : Shaped ret c A) : A.shape = shapeOf ret.catarr.axes :=
  h.shape.trans hRet.fresh.shape.symm

theorem length (hRet : Plain ret) (h : Shaped ret c A) :
    A.shape.length = ret.catarr.chunkshape.length := by
  rw [h.axes hRet]
  exact length_chunkshapeOf _

theorem counts (hRet : Plain ret) (h : Shaped ret c A) :
    tileCounts A.shape ret.catarr.chunkshape = ret.catarr.axes.map Axis.chunks := by
  rw [h.axes hRet]
  exact tileCounts_chunks _

theorem operandBlockshape_eq (hRet : Writable ret) (h : Shaped ret c A) :
    operandBlockshape S ret.storage.chunkshape c = ret.catarr.chunkshape := by
  have hLen : c.dtshape.ndim = ret.catarr.chunkshape.length := by
    rw [Dtshape.ndim, h.known.shape, h.length hRet.plain]
  rw [← hRet.plain.chunkshape hRet.short, operandBlockshape_of_length hLen]

/-- The iterator over the chunks of the output. -/
theorem new (hRet : Writable ret) (h : Shaped ret c A) (padding : Bool) :
    ∃ itr, iarrayIterReadBlockNew E c (operandBlockshape S ret.storage.chunkshape c) false =
        .ok itr ∧
      Reading c A ret.catarr.chunkshape padding false { itr with padding := padding } ∧
      itr.nblock = 0 ∧ itr.padding = false := by
  have hBlocks := iterBlocks_mapM (chunkshapeOf_pos hRet.pos) (h.length hRet.plain)
  rw [h.operandBlockshape_eq hRet, iarrayIterReadBlockNew, h.known.shape]
  exact ⟨_, congrArg (· >>= _) hBlocks, ⟨rfl, rfl, rfl, rfl, rfl, rfl⟩, rfl, rfl⟩

/-- Without padding, as the iterator was made. -/
theorem newUnpadded (hRet : Writable ret) (h : Shaped ret c A) :
    ∃ itr, iarrayIterReadBlockNew E c (operandBlockshape S ret.storage.chunkshape c) false =
        .ok itr ∧ Reading c A ret.catarr.chunkshape false false itr ∧ itr.nblock = 0 := by
  obtain ⟨itr, hNew, hReading, hFirst, hPadding⟩ := h.new (E := E) (S := S) hRet false
  have hSame : { itr with padding := false } = itr := by
    rw [← hPadding]
  exact ⟨itr, hNew, hSame ▸ hReading, hFirst⟩

theorem zero_notMem_aux (hRet : Writable ret) (h : Shaped ret c A) {padding : Bool}
    {itr : IterReadBlock} (hReading : Reading c A ret.catarr.chunkshape padding false itr) :
    0 ∉ itr.aux := by
  rw [hReading.aux, h.counts hRet.plain]
  exact zero_notMem_chunks hRet.pos

/-- The iterator moves to the next chunk of the output. -/
theorem readNext_ok (hE : E.Lawful) (hRet : Writable ret) (h : Shaped ret c A)
    (hReadable : c.Readable ret.catarr.chunkshape) {padding : Bool} {itr : IterReadBlock}
    (hReading : Reading c A ret.catarr.chunkshape padding false itr)
    (hk : itr.nblock < ret.catarr.nchunks) :
    ∃ itr' v, (readNext E itr).outcome = .ok (itr', v) ∧
      Reading c A ret.catarr.chunkshape padding false itr' ∧ itr'.nblock = itr.nblock + 1 ∧
      v.At A ret.catarr.chunkshape padding itr.nblock := by
  have hOwn : false = true → ret.catarr.chunkshape.prod * c.catarr.itemsize + E.maxOverhead ≤ 0 := by
    intro hFalse
    cases hFalse
  rw [readNext, if_neg (h.zero_notMem_aux hRet hReading)]
  exact readBlock_next hE h.known hReading (h.length hRet.plain) (chunkshapeOf_pos hRet.pos)
    (hReadable.sides (h.length hRet.plain) padding) hOwn
    (by rw [h.counts hRet.plain]; exact hk) fun _ => .bits 0

/-- A transposed container of other than floating data is refused. -/
theorem readNext_refused (hE : E.Lawful) (hRet : Writable ret) (h : Shaped ret c A)
    (hTransposed : c.transposed) (hInteger : ¬ c.dtshape.dtype.isFloating) {padding : Bool}
    {itr : IterReadBlock} (hReading : Reading c A ret.catarr.chunkshape padding false itr)
    (hk : itr.nblock < ret.catarr.nchunks) :
    (readNext E itr).outcome = inaError .invalidDtype := by
  have hOwn : false = true → ret.catarr.chunkshape.prod * c.catarr.itemsize + E.maxOverhead ≤ 0 := by
    intro hFalse
    cases hFalse
  have hRefused := readBlock_refused hE h.known hReading (h.length hRet.plain)
    (chunkshapeOf_pos hRet.pos) hTransposed hInteger hOwn
    (by rw [h.counts hRet.plain]; exact hk) fun _ => .bits 0
  rw [readNext, if_neg (h.zero_notMem_aux hRet hReading)]
  exact hRefused

end Shaped

theorem setUpOperand_ok (hRet : Writable ret) (h : Matching ret c A) :
    ∃ o, setUpOperand E S ret ret.storage.chunkshape c = .ok o ∧ o.var = c ∧
      o.Ready S ret 0 A := by
  rw [setUpOperand]
  split
  · rename_i hAllowed
    have hTransposed : c.transposed = false := by
      rw [iterbloscAllowed, Bool.and_eq_true, Bool.and_eq_true, Bool.not_eq_true',
        Bool.or_eq_false_iff] at hAllowed
      exact hAllowed.1.1.2
    exact ⟨_, rfl, rfl, .direct h hTransposed
      (direct_of_allowed hRet.plain h.known h.aligned h.shape h.size hAllowed)⟩
  · obtain ⟨itr, hNew, hReading, hFirst, -⟩ := h.new (E := E) (S := S) hRet true
    rw [hNew]
    exact ⟨_, rfl, rfl, .read h hReading hFirst⟩

/-- An item of a chunk that is laid out anew. -/
theorem repartChunk_get {array : CatArray} (hChunk : 0 < array.nchunks) (chunk : Nat → Cell) :
    ∃ out, catervaBloscArrayRepartChunk chunk array = .ok out ∧
      ∀ y, InBox y array.chunkshape → out (chunkPlace array.chunkshape array.blockshape y) =
        chunk (flat array.chunkshape y) := by
  obtain ⟨out, m, hRun, hWrites⟩ := repartChunk_writes hChunk chunk
  refine ⟨out, hRun, fun y hy => ?_⟩
  have hHit := hWrites.hit (padIndex m y) ((inBox_pad m).mpr hy)
  rwa [chunkPlace_pad, flat_pad] at hHit

/-- A padded block that is laid out anew holds every element where the output has its own. -/
theorem relaid_ok (hRet : Writable ret) (h : Shaped ret c A) (hk : k < ret.catarr.nchunks)
    {v : IterValue} (hAt : v.At A ret.catarr.chunkshape true k) :
    ∃ out, catervaBloscArrayRepartChunk v.blockPointer ret.catarr = .ok out ∧
      ∀ x, InBox x ret.catarr.shape → (locate ret.catarr.axes x).nchunk = k →
        out ((locate ret.catarr.axes x).nblock * ret.catarr.blockshape.prod +
          (locate ret.catarr.axes x).nitem) = A.get x := by
  have hCounts := h.counts hRet.plain
  obtain ⟨out, hOut, hItems⟩ := repartChunk_get (Nat.zero_lt_of_lt hk) v.blockPointer
  refine ⟨out, hOut, fun x hx hChunk => ?_⟩
  obtain ⟨y, hy, hEq⟩ := exists_in_chunk hRet.pos hx
  rw [hChunk] at hy hEq
  have hLenT : (unflat (ret.catarr.axes.map Axis.chunks) k).length = ret.catarr.axes.length := by
    simp
  have hIn : InBox y ret.catarr.chunkshape :=
    inBox_of_tileShape (length_chunkshapeOf ret.catarr.axes)
      (hLenT.trans (List.length_map _).symm) hy
  have hBlock : InBox y v.blockShape := by
    rw [hAt.blockShape, hCounts, h.axes hRet.plain]
    exact hy
  have hHolds := hAt.holds y hBlock
  rw [bufferShape, if_pos rfl, hAt.elemIndex, hCounts] at hHolds
  rw [← hEq, chunkStart, CatArray.blockshape, locate_place hLenT hIn]
  exact (hItems y hIn).trans hHolds

/-- Fetching the next chunk of an operand. -/
theorem fetchInput_ok (hE : E.Lawful) (hS : S.ViewsCompressed) (hRet : Writable ret)
    (hk : k < ret.catarr.nchunks) (hi : i < exprOperandsMax) {o : Operand}
    (h : o.Ready S ret k A) (hReadable : o.var.Readable ret.catarr.chunkshape) :
    ∃ y, (fetchInput E S ret k (o, i)).outcome = .ok y ∧ y.1.var = o.var ∧
      y.1.Ready S ret (k + 1) A ∧ y.2.Supplies ret y.1.var A k := by
  cases h with
  | @direct c A hMatching hTransposed hDirect =>
    refine ⟨(⟨c, none⟩, if S.memcpyed c k then .eqNcomp k else .eq k), ?_, rfl,
      .direct hMatching hTransposed hDirect, ?_⟩
    · have hBehind : ¬ c.catarr.nchunks ≤ k := by
        rw [CatArray.nchunks, hDirect.axes]
        exact Nat.not_le.mpr hk
      refine Logged.bind_eq_ok.mpr ⟨(), Table.index_ok hi, ?_⟩
      refine Logged.bind_eq_ok.mpr ⟨(), Table.index_ok hi, ?_⟩
      show (ite _ _ _ : Eval _).outcome = _
      rw [if_neg hBehind]
      refine Logged.bind_eq_ok.mpr ⟨(), Table.index_ok hi, ?_⟩
      exact Logged.bind_eq_ok.mpr ⟨(), Table.index_ok hi, rfl⟩
    · show ExprInput.Supplies ret c A k (if S.memcpyed c k then .eqNcomp k else .eq k)
      split
      · rename_i hRaw
        refine ⟨rfl, hDirect, ?_⟩
        cases hMatching.known with
        | plain hPlain _ => exact hPlain.fresh.postfilter
        | view hViewed _ =>
          rw [hS c k hViewed] at hRaw
          cases hRaw
        | transposed hShows =>
          rw [hShows.transposed] at hTransposed
          cases hTransposed
      · exact ⟨rfl, hDirect⟩
  | @read c A itr hMatching hReading hNumber =>
    obtain ⟨itr', v, hNext, hReading', hNumber', hAt⟩ :=
      hMatching.readNext_ok hE hRet hReadable hReading (hNumber ▸ hk)
    rw [hNumber] at hNumber' hAt
    obtain ⟨out, hOut, hItems⟩ := relaid_ok hRet hMatching.toShaped hk hAt
    have hSize : c.dtshape.dtype.size = ret.dtshape.dtype.size := hMatching.size
    refine ⟨(⟨c, some itr'⟩, .neq ⟨c.dtshape.dtype, out, 0⟩), ?_, rfl,
      .read hMatching hReading' hNumber', rfl, ?_, hItems⟩
    · refine Logged.bind_eq_ok.mpr ⟨(), Table.index_ok hi, ?_⟩
      refine Logged.bind_eq_ok.mpr ⟨(itr', v), hNext, ?_⟩
      refine Logged.bind_eq_ok.mpr ⟨(), rfl, ?_⟩
      refine Logged.bind_eq_ok.mpr ⟨out, ?_, ?_⟩
      · show catervaBloscArrayRepartChunk (reinterpret _ _ _ _) _ = _
        rw [reinterpret, if_pos hSize, hOut]
      · refine Logged.bind_eq_ok.mpr ⟨(), Table.index_ok hi, ?_⟩
        show Except.ok (_, ExprInput.neq ⟨if _ then _ else _, _, _⟩) = _
        rw [if_pos hSize]
    · rw [hRet.plain.fresh.itemsize]
      exact hSize

theorem fetchInput_refused (hE : E.Lawful) (hRet : Writable ret) (hk : k < ret.catarr.nchunks)
    (hi : i < exprOperandsMax) {o : Operand} (h : o.Ready S ret k A) (hTransposed : o.var.transposed)
    (hInteger : ¬ o.var.dtshape.dtype.isFloating) :
    (fetchInput E S ret k (o, i)).outcome = inaError .invalidDtype := by
  cases h with
  | @direct c A _ hStraight _ =>
    have hTransposed : c.transposed = true := hTransposed
    rw [hStraight] at hTransposed
    cases hTransposed
  | @read c A itr hMatching hReading hNumber =>
    have hRefused := hMatching.readNext_refused hE hRet hTransposed hInteger hReading
      (hNumber ▸ hk)
    refine Logged.bind_eq_error.mpr (.inr ⟨(), Table.index_ok hi, ?_⟩)
    exact Logged.bind_eq_error.mpr (.inl hRefused)

end Fetch

end IronArray
