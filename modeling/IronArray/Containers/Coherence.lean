import IronArray.Containers.Good
import IronArray.Views.Run

/-!
# Views of a container that changes

A view keeps the chunk grid its parent had when the view was made, and its postfilter hands the
chunk numbers of that grid to the super-chunk of the parent as it is now. `view_follows` states
when this is right: at every state of a run of changes in which the positions of the view are
still in the chunks with their old numbers, or these numbers are beyond the chunks there are, a
read fails or gives the current elements.
-/

namespace IronArray

open Grid

/-! ## A view and the store of its parent -/

/-- The super-chunk as a postfilter sees it: `blosc2_schunk_get_lazychunk` refuses the numbers
of chunks that it does not hold. -/
def SChunk.held (sc : SChunk) (nchunks : Nat) : SChunk :=
  { sc with postfilter := some fun params =>
      if params.nchunk < nchunks then sc.block params.nchunk params.nblock
      else inaError .bloscFailed }

def CatArray.held (a : CatArray) : CatArray := ⟨a.axes, a.sc.held a.nchunks⟩

/-- The view `v` once its parent has become `a`: the postfilter refers to the super-chunk of the
parent, and everything else is as it was when the view was made. -/
def Container.follow (m : Machine) (v a : Container) : Container :=
  { v with
    catarr := (viewOf m { a with catarr := a.catarr.held } v.dtshape v.offset v.catarr).catarr
    containerViewed := some a }

theorem SChunk.held_block (sc : SChunk) {nchunks nchunk : Nat} (h : nchunk < nchunks)
    (nblock : Nat) : (sc.held nchunks).block nchunk nblock = sc.block nchunk nblock :=
  if_pos h

theorem SChunk.held_refused (sc : SChunk) {nchunks nchunk : Nat} (h : nchunks ≤ nchunk)
    (nblock : Nat) : Refused ((sc.held nchunks).block nchunk nblock) :=
  ⟨.bloscFailed, if_neg (Nat.not_lt.mpr h)⟩

theorem SChunk.held_whole {sc : SChunk} (h : sc.Whole) (nchunks : Nat) :
    (sc.held nchunks).Whole := by
  intro nchunk nblock b hb
  by_cases hHeld : nchunk < nchunks
  · exact h nchunk nblock b (SChunk.held_block sc hHeld nblock ▸ hb)
  · obtain ⟨e, he⟩ := SChunk.held_refused sc (Nat.not_lt.mp hHeld) nblock
    rw [he] at hb
    cases hb

theorem CatArray.held_cell {a : CatArray} {x : List Nat} (hx : InBox x a.shape) :
    a.held.cell x = a.cell x := by
  have hBlock := SChunk.held_block a.sc (nchunk_lt hx) (locate a.axes x).nblock
  rw [CatArray.cell, CatArray.cell]
  exact congrArg (· >>= fun b => SChunk.itemOfBlock b (locate a.axes x).nitem) hBlock

/-! ## Blocks that cannot be fetched -/

theorem SChunk.getitem_refused {sc : SChunk} {nchunk start nitems destsize : Nat}
    (h : ∀ nblock, Refused (sc.block nchunk nblock)) (hPos : 0 < nitems) :
    Refused (sc.getitem nchunk start nitems destsize) := by
  unfold SChunk.getitem
  split
  · exact ⟨_, rfl⟩
  · obtain ⟨k, rfl⟩ := Nat.exists_eq_add_one_of_ne_zero hPos.ne'
    rw [List.range_succ_eq_map, List.mapM_cons]
    exact Result.refused_bind (Result.refused_bind (h _) _) _

/-- A view refuses the blocks that its parent refuses. -/
theorem viewOf_block_refused {m : Machine} {src : Container} {dtshape : Dtshape}
    {offset : List Int} {a : CatArray} {k nchunk : Nat} {g : Cell → Cell} (nblock : Nat)
    (hg : CastOf m src dtshape.dtype g) (hk : 0 < k)
    (hView : a.sc.typesize = dtshape.dtypeSize ∧ a.sc.blocksize = k * dtshape.dtypeSize)
    (hViewed : src.catarr.sc.typesize = src.dtshape.dtypeSize ∧
      src.catarr.sc.blocksize = k * src.dtshape.dtypeSize)
    (h : ∀ nblock, Refused (src.catarr.sc.block nchunk nblock)) :
    Refused ((viewOf m src dtshape offset a).catarr.sc.block nchunk nblock) := by
  rcases hg with ⟨hSame, rfl⟩ | ⟨hNe, hRoot, hCast, rfl⟩
  · simp only [viewOf, iarrayAddViewPostfilter, if_pos hSame, Option.some_or, SChunk.block,
      sliceViewPostfilter]
    refine SChunk.getitem_refused h ?_
    rw [hView.1, hViewed.2, Dtshape.dtypeSize, Dtshape.dtypeSize, hSame,
      Nat.mul_div_cancel _ src.dtshape.dtype.size_pos]
    exact hk
  · have hProp : dtshape.dtypeSize / src.catarr.sc.typesize ≠ 0 := by
      rw [hViewed.1]
      exact (Nat.div_pos (Nat.le_of_dvd dtshape.dtype.size_pos (viewCasts_dvd hCast))
        src.dtshape.dtype.size_pos).ne'
    simp only [viewOf, iarrayAddViewPostfilter, if_neg hNe, ← hRoot, if_pos hCast, Option.some_or,
      SChunk.block, typeViewPostfilter, hView.1, hView.2]
    rw [if_neg hProp]
    refine Result.refused_bind (SChunk.getitem_refused h ?_) _
    rwa [Dtshape.dtypeSize, Nat.mul_div_cancel _ dtshape.dtype.size_pos]

/-! ## The parent under changes -/

/-- What the changes of its elements and its shape leave of a plain container. -/
structure Kept (before after : Container) : Prop where
  plain : Plain after
  dtype : after.dtshape.dtype = before.dtshape.dtype
  ndim : after.dtshape.ndim = before.dtshape.ndim
  storage : after.storage = before.storage

/-- The calls that change elements or lengths. -/
def Change.KeepsAxes : Change → Prop
  | squeezeIndex _ => False
  | _ => True

theorem Resized.fresh {a b : CatArray} {itemsize : Nat} {shape : List Nat}
    {st : CatervaStorage} (h : Resized a b) (hFresh : Fresh a itemsize shape st) :
    Fresh b itemsize b.shape st where
  shape := rfl
  storage := by
    rw [← hFresh.storage, CatArray.storage, h.chunkshape, h.blockshape]
    rfl
  itemsize := h.itemsize.trans hFresh.itemsize
  sized := h.sized hFresh.sized
  postfilter := h.postfilter.trans hFresh.postfilter

theorem Plain.setResized {c : Container} {b : CatArray} (h : Plain c)
    (hResized : Resized c.catarr b) :
    Plain { c with dtshape := { c.dtshape with shape := b.shape }, catarr := b } := by
  have hNdim := hResized.rank h.catarr_ndim
  refine ⟨h.containerViewed, h.transposed, hNdim.trans_le h.ndim, ?_, ?_,
    hResized.fresh h.fresh⟩
  · change c.offset = List.replicate b.shape.length 0
    rw [hNdim, h.offset]
  · change c.index = List.range b.shape.length
    rw [hNdim, h.index]

variable {E : Backend} {M : Mutators} {root c : Container}

/-- One change keeps the type, the rank and the tiles. -/
theorem Kept.after (hE : E.Lawful) (hM : M.Effects) (h : Kept root c) {change : Change}
    (hChange : change.KeepsAxes) : Kept root (c.after E M change) := by
  unfold Container.after
  split
  · rename_i c' hc
    obtain ⟨mask, rfl, -⟩ | ⟨b, hResized, rfl⟩ | ⟨b, _, _, _, _, _, hSet, rfl⟩ :=
      Change.call_ok hM h.plain.containerViewed h.plain.catarr_ndim.symm hc
    · exact absurd hChange id
    · exact ⟨h.plain.setResized hResized, h.dtype,
        (hResized.rank h.plain.catarr_ndim).trans h.ndim, h.storage⟩
    · exact ⟨h.plain.setArray (hE.setSliceBuffer_fresh h.plain.fresh hSet), h.dtype, h.ndim,
        h.storage⟩
  · exact h

/-- A run of changes keeps the type, the rank and the tiles. -/
theorem Kept.run (hE : E.Lawful) (hM : M.Effects) {changes : List Change} (h : Kept root c)
    (hChanges : ∀ change ∈ changes, change.KeepsAxes) :
    Kept root (changes.foldl (Container.after E M) c) := by
  induction changes generalizing c with
  | nil => exact h
  | cons change changes ih =>
    exact ih (h.after hE hM (hChanges change List.mem_cons_self)) fun ch hch =>
      hChanges ch (List.mem_cons_of_mem _ hch)

/-! ## Taking a view -/

/-- A view of the region of shape `n` at `s` of a plain container, whose elements are cast by
`g`. A type view is taken to a type the cast table has. -/
inductive Taken (E : Backend) (c : Container) :
    Container → List Nat → List Nat → (Cell → Cell) → Prop
  | slice {v : Container} {start stop : List Int} {storage : Storage} {s n : List Nat}
      (hSel : Selects start stop c.dtshape.shape s n)
      (hv : iarrayGetSlice E c start stop true storage = .ok v) : Taken E c v s n id
  | typeView {v : Container} {dtype : Dtype} (hCast : c.HasCast dtype)
      (hv : iarrayGetTypeView E c dtype = .ok v) :
      Taken E c v (List.replicate c.dtshape.ndim 0) c.dtshape.shape
        (elementCast E.machine c.dtshape.dtype dtype)

theorem Plain.flat (h : Plain c) : c.Flat :=
  h.shows.flat_of_ndim h.catarr_ndim

/-- What a view of a plain container is made of. -/
structure ViewOf (E : Backend) (c v : Container) (s n : List Nat) (g : Cell → Cell) : Prop where
  made : ∃ offset a, viewArray E c v.dtshape = .ok a ∧ v = viewOf E.machine c v.dtshape offset a
  cast : CastOf E.machine c v.dtshape.dtype g
  region : Region s n c.dtshape.shape
  shows : ∃ A : NdArray Cell, Shows v A (List.replicate n.length false) s n

theorem Taken.viewOf (hE : E.Lawful) (h : Plain c) {v : Container} {s n : List Nat}
    {g : Cell → Cell} (hTaken : Taken E c v s n g) : ViewOf E c v s n g := by
  have hZero : (List.replicate c.dtshape.ndim 0).take c.dtshape.ndim =
      List.replicate c.dtshape.ndim 0 := List.take_of_length_le (List.length_replicate).le
  cases hTaken with
  | @slice start stop storage s n hSel hv =>
    have hShows := h.shows.getSlice_view hE h.flat hSel hv
    have hs : s.length = c.dtshape.ndim := hSel.region.start_length
    rw [hZero, addIdx_replicate_zero hs] at hShows
    rw [h.shows.getSlice_view_eq storage h.flat hSel] at hv
    obtain ⟨a, ha, rfl⟩ := viewNew_ok hv
    exact ⟨⟨_, a, ha, rfl⟩, .inl ⟨rfl, rfl⟩, hSel.region, _, hShows⟩
  | @typeView dtype hCast hv =>
    have hShows := h.shows.typeView hE h.flat (castOf_elementCast hCast) hv
    rw [hZero] at hShows
    obtain ⟨a, ha, rfl⟩ := viewNew_ok hv
    exact ⟨⟨_, a, ha, rfl⟩, castOf_elementCast hCast, Region.whole _, _, hShows⟩

/-! ## Reading through the view -/

/-- Each position of the region is in the chunk with the number it had, or this number is beyond
the chunks there are. -/
def KeepsChunks (before after : List Axis) (s n : List Nat) : Prop :=
  ∀ x ∈ box n,
    (InBox (addIdx s x) (shapeOf after) ∧
      (locate before (addIdx s x)).nchunk = (locate after (addIdx s x)).nchunk) ∨
    (after.map Axis.chunks).prod ≤ (locate before (addIdx s x)).nchunk

instance (before after : List Axis) (s n : List Nat) :
    Decidable (KeepsChunks before after s n) :=
  inferInstanceAs (Decidable (∀ x ∈ box n,
    (InBox (addIdx s x) (shapeOf after) ∧
      (locate before (addIdx s x)).nchunk = (locate after (addIdx s x)).nchunk) ∨
    (after.map Axis.chunks).prod ≤ (locate before (addIdx s x)).nchunk))

/-- The outcome of reading a region of shape `n` at `s`: an error, or at every index the cast of
the element that the container has there. -/
def Current (c : Container) (g : Cell → Cell) (s n : List Nat) (read : Result (Nat → Cell)) :
    Prop :=
  Refused read ∨ ∃ out, read = .ok out ∧ ∀ x, InBox x n →
    InBox (addIdx s x) c.dtshape.shape ∧ out (flat n x) = g (c.contents.get (addIdx s x))

/-- Every read of the view, whose region has shape `n` and starts at `s`, gives what the parent
has there. -/
structure ReadsParent (E : Backend) (v c : Container) (s n : List Nat) (g : Cell → Cell) :
    Prop where
  getSliceBuffer : ∀ {start stop : List Int} {s' n' : List Nat} (buffer : Nat → Cell)
    (buflen : Int), Selects start stop n s' n' → (∀ k ∈ n', 0 < k) →
    Current c g (addIdx s s') n' (iarrayGetSliceBuffer E v start stop buffer buflen)
  toBuffer : ∀ (buffer : Nat → Cell) (buflen : Int), (∀ k ∈ n, 0 < k) →
    Current c g s n (iarrayToBuffer E v buffer buflen)

/-- A read of Caterva fails when it needs a block that cannot be decompressed. -/
def Backend.Careful (E : Backend) : Prop :=
  ∀ {a : CatArray} {s n m : List Nat} (buffer : Nat → Cell) {buflen : Int},
    Region s n a.shape → (∀ k ∈ n, 0 < k) → List.Forall₂ (· ≤ ·) n m →
    (m.prod * a.itemsize : Nat) ≤ buflen →
    (∀ x, InBox x n → Refused (a.cell (addIdx s x)) ∨ ∃ c, a.cell (addIdx s x) = .ok c) →
    Refused (E.getSliceBuffer a (ints s) (ints (addIdx s n)) buffer (ints m) buflen) ∨
    ∃ out, E.getSliceBuffer a (ints s) (ints (addIdx s n)) buffer (ints m) buflen = .ok out ∧
      ∀ x, InBox x n → a.cell (addIdx s x) = .ok (out (flat m x))

/-! ## The invariant of the view -/

theorem CastOf.congr {m : Machine} {src src' : Container} {dst : Dtype} {g : Cell → Cell}
    (h : CastOf m src dst g) (hDtype : src'.dtshape.dtype = src.dtshape.dtype)
    (hRoot : src'.root.dtshape.dtype = src.root.dtshape.dtype) : CastOf m src' dst g := by
  rw [CastOf, hDtype, hRoot]
  exact h

variable {v : Container} {s n : List Nat} {g : Cell → Cell}

/-- The view is tiled as its parent was. -/
theorem ViewOf.axes (hE : E.Lawful) (hRoot : Plain root) (h : ViewOf E root v s n g) :
    v.catarr.axes = root.catarr.axes := by
  obtain ⟨A, hShows⟩ := h.shows
  obtain ⟨offset, a, ha, hv⟩ := h.made
  have hNdim : v.dtshape.ndim = root.dtshape.ndim := by
    rw [hShows.dtshape_ndim, List.count_replicate_self, h.region.length, Dtshape.ndim]
  have hAxes := hRoot.shows.axes_viewArray (hE.empty ha) hNdim
  rw [← hRoot.catarr_ndim, CatArray.ndim, List.take_length] at hAxes
  rw [hv]
  exact hAxes

/-- Each element of the view is refused or the one that the parent has now. -/
theorem ViewOf.follow_cell (hE : E.Lawful) (hRoot : Plain root) (h : ViewOf E root v s n g)
    (hKept : Kept root c) (hChunks : KeepsChunks root.catarr.axes c.catarr.axes s n)
    {x : List Nat} (hx : InBox x n) :
    Refused ((v.follow E.machine c).catarr.cell (addIdx s x)) ∨
      (InBox (addIdx s x) c.dtshape.shape ∧
        (v.follow E.machine c).catarr.cell (addIdx s x) =
          .ok (g (c.contents.get (addIdx s x)))) := by
  obtain ⟨A, hShows⟩ := h.shows
  have hAxes := h.axes hE hRoot
  have hChunkshape : chunkshapeOf root.catarr.axes = chunkshapeOf c.catarr.axes := by
    have hEq := hKept.plain.fresh.chunkshape
    rw [hKept.storage, ← hRoot.fresh.chunkshape] at hEq
    exact ints_injective hEq.symm
  have hBlockshape : blockshapeOf root.catarr.axes = blockshapeOf c.catarr.axes := by
    have hEq := hKept.plain.fresh.blockshape
    rw [hKept.storage, ← hRoot.fresh.blockshape] at hEq
    exact ints_injective hEq.symm
  -- the parent as the postfilter of the view sees it
  let held : Container := { c with catarr := c.catarr.held }
  have hCast : CastOf E.machine held v.dtshape.dtype g := by
    refine h.cast.congr hKept.dtype ?_
    simp only [held, Container.root, hKept.plain.containerViewed, hRoot.containerViewed,
      Option.getD_none]
    exact hKept.dtype
  have hView : v.catarr.sc.typesize = v.dtshape.dtypeSize ∧
      v.catarr.sc.blocksize = v.catarr.blockshape.prod * v.dtshape.dtypeSize :=
    ⟨hShows.itemsize, hShows.itemsize ▸ hShows.sized.2⟩
  have hViewed : held.catarr.sc.typesize = held.dtshape.dtypeSize ∧
      held.catarr.sc.blocksize = v.catarr.blockshape.prod * held.dtshape.dtypeSize := by
    refine ⟨hKept.plain.fresh.itemsize, ?_⟩
    rw [CatArray.blockshape, hAxes, hBlockshape]
    change c.catarr.sc.blocksize = _
    rw [hKept.plain.fresh.sized.2, hKept.plain.fresh.itemsize]
    rfl
  have hTotal := SChunk.total_of_postfilter_none hKept.plain.fresh.postfilter
  rcases hChunks x (mem_box.mpr hx) with ⟨hIn, hNumber⟩ | hBeyond
  · right
    have hIn' : InBox (addIdx s x) c.dtshape.shape := by
      rw [← hKept.plain.fresh.shape]
      exact hIn
    have hCell := cell_of_total hTotal hKept.plain.fresh.sized hIn
    rw [← CatArray.held_cell hIn] at hCell
    have hVia : BlocksVia (v.follow E.machine c).catarr.sc held.catarr.sc g :=
      @blocksVia_viewOf _ held v.dtshape v.offset _ _ _ hCast hView hViewed
        (SChunk.held_whole hTotal.whole _)
    refine ⟨hIn', hVia.cell ?_ hCell⟩
    change locate v.catarr.axes _ = locate c.catarr.axes _
    rw [hAxes]
    exact locate_eq_of_nchunk hChunkshape hBlockshape hNumber
  · left
    have hPos : 0 < v.catarr.blockshape.prod := by
      have hInRoot := h.region.inBox hx
      rw [← hRoot.fresh.shape] at hInRoot
      rw [CatArray.blockshape, hAxes]
      exact (Nat.zero_le _).trans_lt (nitem_lt hInRoot)
    refine Result.refused_bind (@viewOf_block_refused _ held v.dtshape v.offset _ _ _ _ _ hCast
      hPos hView hViewed fun nblock => SChunk.held_refused _ ?_ nblock) _
    change _ ≤ (locate v.catarr.axes _).nchunk
    rw [hAxes]
    exact hBeyond

/-- A region of the view is read as the same region of its parent. -/
theorem ViewOf.follow_read (hE : E.Lawful) (hC : E.Careful) (hRoot : Plain root)
    (h : ViewOf E root v s n g) (hKept : Kept root c)
    (hChunks : KeepsChunks root.catarr.axes c.catarr.axes s n) {start stop : List Int}
    {s' n' : List Nat} (buffer : Nat → Cell) (buflen : Int) (hSel : Selects start stop n s' n')
    (hPos : ∀ k ∈ n', 0 < k) :
    Current c g (addIdx s s') n'
      (iarrayGetSliceBuffer E (v.follow E.machine c) start stop buffer buflen) := by
  obtain ⟨A, hShows⟩ := h.shows
  have hShape : A.shape = n := hShows.shape_eq.trans (keep_replicate_false rfl)
  have hs : s'.length = n.length := hSel.region.start_length
  have hn : n'.length = n.length := hSel.region.length
  have hCount : (List.replicate n.length false).count false = n.length :=
    List.count_replicate_self
  have hAsked := hShows.getSliceBuffer_eq (E := E) buffer buflen (hShape.symm ▸ hSel)
    (hn.trans hCount.symm) (some c) (a := (v.follow E.machine c).catarr) rfl
  rw [spread_replicate_false 0 hs, spread_replicate_false 1 hn] at hAsked
  have hRead : iarrayGetSliceBuffer E (v.follow E.machine c) start stop buffer buflen =
      _iarrayGetSliceBuffer E (v.follow E.machine c) start stop (ints n') buffer buflen := by
    have hDtshape : (v.follow E.machine c).dtshape.shape = n :=
      hShows.shape.trans (keep_replicate_false rfl)
    rw [iarrayGetSliceBuffer, hDtshape, if_neg (Region.prod_ne_zero hSel.region hPos)]
    simp only [hSel.start, hSel.stop, zipWith_sub_ints (hs.trans hn.symm)]
  rw [hRead]
  refine hAsked ▸ ?_
  split
  · exact .inl ⟨_, rfl⟩
  · rename_i hLen
    have hRegion : Region (addIdx s s') n' (v.follow E.machine c).catarr.shape := by
      have hStore := hShows.storeRegion (hShape.symm ▸ hSel.region)
      rwa [spread_replicate_false 0 hs, spread_replicate_false 1 hn] at hStore
    have hFits : (n'.prod * (v.follow E.machine c).catarr.itemsize : Nat) ≤ buflen := by
      rw [← hShows.itemsize] at hLen
      exact not_lt.mp hLen
    have hCell : ∀ x, InBox x n' →
        Refused ((v.follow E.machine c).catarr.cell (addIdx (addIdx s s') x)) ∨
          (InBox (addIdx (addIdx s s') x) c.dtshape.shape ∧
            (v.follow E.machine c).catarr.cell (addIdx (addIdx s s') x) =
              .ok (g (c.contents.get (addIdx (addIdx s s') x)))) := by
      intro x hx
      rw [addIdx_assoc]
      exact h.follow_cell hE hRoot hKept hChunks (hSel.region.inBox hx)
    rcases hC buffer hRegion hPos (forall₂_le_refl n') hFits fun x hx =>
      (hCell x hx).imp_right fun hOk => ⟨_, hOk.2⟩ with hRefused | ⟨out, hOut, hGet⟩
    · exact .inl hRefused
    · refine .inr ⟨out, hOut, fun x hx => ?_⟩
      rcases hCell x hx with ⟨e, he⟩ | ⟨hIn, hOk⟩
      · rw [hGet x hx] at he
        cases he
      · rw [hGet x hx, Except.ok.injEq] at hOk
        exact ⟨hIn, hOk⟩

/-- A view of a plain container follows every run of changes of its elements and its lengths, as
long as the positions of the view keep the numbers of their chunks: a read fails or gives the
elements that the container has now. -/
theorem view_follows (hE : E.Lawful) (hC : E.Careful) (hM : M.Effects) (hRoot : Plain root)
    (hTaken : Taken E root v s n g) {changes : List Change}
    (hChanges : ∀ change ∈ changes, change.KeepsAxes)
    (hChunks : KeepsChunks root.catarr.axes
      (changes.foldl (Container.after E M) root).catarr.axes s n) :
    ReadsParent E (v.follow E.machine (changes.foldl (Container.after E M) root))
      (changes.foldl (Container.after E M) root) s n g := by
  have hView := hTaken.viewOf hE hRoot
  have hKept : Kept root (changes.foldl (Container.after E M) root) :=
    Kept.run hE hM ⟨hRoot, rfl, rfl, rfl⟩ hChanges
  generalize changes.foldl (Container.after E M) root = c at hKept hChunks ⊢
  have hRead := fun {start stop s' n'} buffer buflen =>
    @ViewOf.follow_read E root c v s n g hE hC hRoot hView hKept hChunks start stop s' n' buffer
      buflen
  refine ⟨hRead, fun buffer buflen hPos => ?_⟩
  obtain ⟨A, hShows⟩ := hView.shows
  have hDtshape : (v.follow E.machine c).dtshape.shape = n :=
    hShows.shape.trans (keep_replicate_false rfl)
  have hLen : s.length = n.length := hView.region.start_length.trans hView.region.length.symm
  have hWhole := hRead buffer buflen (selects_whole n) hPos
  rw [addIdx_replicate_zero_right hLen] at hWhole
  rw [iarrayToBuffer, if_neg (hDtshape ▸ (prod_pos_of_forall hPos).ne')]
  split
  · exact .inl ⟨_, rfl⟩
  · change Current c g s n (iarrayGetSliceBuffer E _ (List.replicate (Dtshape.ndim _) 0) _ _ _)
    rw [Dtshape.ndim, hDtshape]
    exact hWhole

/-! ## A matrix and a view of its second row -/

theorem Reference.careful : Reference.backend.Careful := by
  intro a s n m buffer buflen hRegion _ hm _ hCells
  have hLen : s.length = n.length := hRegion.start_length.trans hRegion.length.symm
  have hSteps : ∀ x ∈ box n,
      Refused (a.cell (addIdx s x) >>= fun _ => pure ()) ∨
        (a.cell (addIdx s x) >>= fun _ => pure ()) = .ok () := by
    intro x hx
    rcases hCells x (mem_box.mp hx) with hRefused | ⟨c, hc⟩
    · exact .inl (Result.refused_bind hRefused _)
    · exact .inr (by rw [hc]; rfl)
  simp only [backend, getSliceBuffer, starts_ints, extents_ints hLen]
  rcases Result.forM_refused_or hSteps with hRefused | ⟨hRead, hOk⟩
  · exact .inl (Result.refused_bind hRefused _)
  · refine .inr ⟨_, by rw [readable, hRead]; rfl, fun x hx => ?_⟩
    rw [unflat_flat (inBox_mono hx hm), if_pos hx]
    rcases hCells x hx with ⟨e, he⟩ | ⟨c, hc⟩
    · have hStep := hOk x (mem_box.mpr hx)
      rw [he] at hStep
      cases hStep
    · rw [hc]
      rfl

namespace CoherenceExample

/-- Two rows of four elements, in chunks of one row and two columns. -/
def axes : List Axis := [.ofCuts 2 1 1, .ofCuts 4 2 2]

def matrix : Container :=
  Reference.plain .int32 axes fun x => .bits (10 * x.getD 0 0 + x.getD 1 0)

/-- The second row. -/
def row : Container :=
  viewOf Reference.backend.machine matrix ⟨.int32, [1, 4]⟩ [1, 0]
    (.ofFn axes 4 fun _ => .bits 0)

theorem row_taken : Taken Reference.backend matrix row [1, 0] [1, 4] id :=
  @Taken.slice _ _ _ [1, 0] [2, 4] ⟨[], []⟩ _ _ ⟨⟨rfl, rfl, by decide⟩, rfl, rfl⟩ rfl

/-- A row is added and the second row is overwritten. -/
def addRow : List Change :=
  [.resize [3, 4] none, .setSliceBuffer [1, 0] [2, 4] (fun k => .bits (70 + k)) 16]

/-- Two columns are added and filled. -/
def addColumns : List Change :=
  [.resize [2, 6] none, .setSliceBuffer [0, 4] [2, 6] (fun k => .bits (90 + k)) 16]

def after (changes : List Change) : Container :=
  changes.foldl (Container.after Reference.backend Reference.mutators) matrix

end CoherenceExample

open CoherenceExample in
/-- The view follows its parent, which has grown by a row. -/
theorem view_follows_addRow :
    KeepsChunks matrix.catarr.axes (after addRow).catarr.axes [1, 0] [1, 4] ∧
    ReadsParent Reference.backend (row.follow Reference.backend.machine (after addRow))
      (after addRow) [1, 0] [1, 4] id ∧
    (iarrayToBuffer Reference.backend (row.follow Reference.backend.machine (after addRow))
      Reference.backend.malloc 16).map (· 0) = .ok (.bits 70) :=
  ⟨by decide, view_follows Reference.lawful Reference.careful Reference.mutators_effects
    (Reference.plain_plain _ _ (by decide) (by decide)) row_taken
    (by simp [addRow, Change.KeepsAxes]) (by decide), rfl⟩

open CoherenceExample in
/-- After two columns have been added the view of the second row starts with an element of the
first row, and after a column has been removed it still reads two positions of it. -/
theorem view_follows_fails :
    Taken Reference.backend matrix row [1, 0] [1, 4] id ∧
    ((iarrayToBuffer Reference.backend (row.follow Reference.backend.machine (after addColumns))
        Reference.backend.malloc 16).map (· 0) = .ok (.bits 90) ∧
      (after addColumns).contents.get [1, 0] = .bits 10 ∧
      (after addColumns).contents.get [0, 4] = .bits 90 ∧
      ¬ ReadsParent Reference.backend
        (row.follow Reference.backend.machine (after addColumns)) (after addColumns) [1, 0] [1, 4]
        id) ∧
    ¬ ReadsParent Reference.backend
      (row.follow Reference.backend.machine (after [.resize [2, 3] none]))
      (after [.resize [2, 3] none]) [1, 0] [1, 4] id := by
  refine ⟨row_taken, ⟨rfl, rfl, rfl, fun h => ?_⟩, fun h => ?_⟩
  · rcases h.toBuffer Reference.backend.malloc 16 (by decide) with ⟨e, he⟩ | ⟨out, hOut, hGet⟩
    · cases he
    · have hRead : (iarrayToBuffer Reference.backend
          (row.follow Reference.backend.machine (after addColumns))
          Reference.backend.malloc 16).map (· 0) = .ok (.bits 90) := rfl
      rw [hOut, Except.map, Except.ok.injEq] at hRead
      exact absurd (hRead.symm.trans (hGet [0, 0] (by decide)).2) (by decide)
  · rcases h.toBuffer Reference.backend.malloc 16 (by decide) with ⟨e, he⟩ | ⟨out, hOut, hGet⟩
    · cases he
    · exact absurd (hGet [0, 3] (by decide)).1 (by decide)

end IronArray
