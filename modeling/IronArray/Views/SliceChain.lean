import IronArray.Views.Operations
import IronArray.Core.Reference

/-!
# Chains of slice views

`sliceViews_compose`: a chain of slice views of a plain container, each in bounds of the view
before it, never fails, and the last view shows the elements of the root at the sum of the
starts. Taking the last region as a copy gives the same array.
-/

namespace IronArray

open Grid

/-! ## Chains -/

/-- The arguments of one call of `iarray_get_slice`; the storage is read for copies only. -/
structure SliceCall where
  start : List Int
  stop : List Int
  storage : Storage

/-- Call `iarray_get_slice` with `view = true` on the result of the call before. -/
def sliceViews (E : Backend) (c : Container) (calls : List SliceCall) : Result Container :=
  calls.foldlM (fun c call => iarrayGetSlice E c call.start call.stop true call.storage) c

/-- Each call is in bounds of the shape the calls before it leave; `starts` lists the
normalised starts. -/
inductive InBoundsChain : List Nat → List SliceCall → List (List Nat) → List Nat → Prop
  | nil (shape : List Nat) : InBoundsChain shape [] [] shape
  | cons {shape n last s : List Nat} {call : SliceCall} {calls : List SliceCall}
      {starts : List (List Nat)} (hSel : Selects call.start call.stop shape s n)
      (hRest : InBoundsChain n calls starts last) :
      InBoundsChain shape (call :: calls) (s :: starts) last

/-- What a slice view of a plain container keeps: no axis is lost and Caterva makes arrays of
its geometry. -/
structure Sliced (E : Backend) (c : Container) (A : NdArray Cell) : Prop where
  shows : ∃ mask off ws, Shows c A mask off ws
  ndim : c.catarr.ndim = c.dtshape.ndim
  made : Made E c

theorem Plain.sliced {E : Backend} {c : Container} (h : Plain c) (hMade : Made E c) :
    Sliced E c c.contents :=
  ⟨⟨_, _, _, h.shows⟩, h.catarr_ndim, hMade⟩

/-- Making a view asks Caterva for the geometry the container already has. -/
theorem Sliced.viewArray_ok {E : Backend} {c : Container} {A : NdArray Cell} {n : List Nat}
    (h : Sliced E c A) (hn : n.length = c.dtshape.ndim) :
    viewArray E c ⟨c.dtshape.dtype, n⟩ =
        E.empty c.dtshape.dtypeSize c.catarr.shape (iarrayCreateCatervaStorage c.storage) ∧
      viewStorage c n.length = c.storage := by
  obtain ⟨mask, off, ws, hShows⟩ := h.shows
  have hLen : ∀ l : List Nat, l.length = c.catarr.ndim → l.take n.length = l := by
    intro l hl
    rw [hn, ← h.ndim, ← hl, List.take_length]
  have hStorage : viewStorage c n.length = c.storage := by
    have hChunk := length_stored (congrArg CatervaStorage.chunkshape hShows.storage)
    have hBlock := length_stored (congrArg CatervaStorage.blockshape hShows.storage)
    rw [viewStorage, hLen _ (by simpa [CatArray.chunkshape, chunkshapeOf, CatArray.ndim] using hChunk),
      hLen _ (by simpa [CatArray.blockshape, blockshapeOf, CatArray.ndim] using hBlock)]
  refine ⟨?_, hStorage⟩
  change E.empty _ (c.catarr.shape.take n.length)
    (iarrayCreateCatervaStorage (viewStorage c n.length)) = _
  rw [hStorage, hLen _ (by simp [CatArray.shape, CatArray.ndim])]
  rfl

/-- One slice view. -/
theorem Sliced.step {E : Backend} {c : Container} {A : NdArray Cell} (call : SliceCall)
    {s n : List Nat} (hE : E.Lawful) (h : Sliced E c A)
    (hSel : Selects call.start call.stop A.shape s n) :
    ∃ v, iarrayGetSlice E c call.start call.stop true call.storage = .ok v ∧
      Sliced E v (A.slice s n) := by
  obtain ⟨mask, off, ws, hShows⟩ := h.shows
  obtain ⟨a, ha⟩ := h.made
  have hFlat := hShows.flat_of_ndim h.ndim
  have hA : A.shape.length = c.dtshape.ndim := by rw [hShows.shape_length, hShows.dtshape_ndim]
  have hn := hSel.region.length.trans hA
  obtain ⟨hArray, hStorage⟩ := h.viewArray_ok hn
  have hMax : Dtshape.ndim ⟨c.dtshape.dtype, n⟩ ≤ dimensionMax := by
    change n.length ≤ _
    rw [hn, ← h.ndim]
    exact hShows.ndim
  have hView := viewNew_eq (c.storeStart call.start) hMax (hArray.trans ha)
  have hOk := (hShows.getSlice_view_eq call.storage hFlat hSel).trans hView
  have hFresh := hE.empty ha
  refine ⟨_, hOk, ⟨_, _, _, hShows.getSlice_view hE hFlat hSel hOk⟩, ?_, a, ?_⟩
  · change a.axes.length = n.length
    rw [hn, ← h.ndim, CatArray.ndim, ← length_shapeOf, ← length_shapeOf]
    exact congrArg List.length hFresh.shape
  · change E.empty _ a.shape (iarrayCreateCatervaStorage (viewStorage c n.length)) = _
    rw [hFresh.shape, hStorage]
    exact ha

/-- A whole chain: the starts add up. -/
theorem Sliced.run {E : Backend} {c : Container} {A : NdArray Cell} {calls : List SliceCall}
    {starts : List (List Nat)} {last : List Nat} (hE : E.Lawful) (h : Sliced E c A)
    (hChain : InBoundsChain A.shape calls starts last) :
    ∃ v, sliceViews E c calls = .ok v ∧
      Sliced E v ⟨last, fun x => A.get (starts.foldr addIdx x)⟩ := by
  generalize hShape : A.shape = shape at hChain
  induction hChain generalizing c A with
  | nil shape =>
    subst hShape
    exact ⟨c, rfl, h⟩
  | @cons shape n last s call calls starts hSel hRest ih =>
    subst hShape
    obtain ⟨v, hv, hSliced⟩ := h.step call hE hSel
    obtain ⟨w, hw, hLast⟩ := ih hSliced rfl
    refine ⟨w, ?_, hLast⟩
    rw [sliceViews, List.foldlM_cons, hv]
    exact hw

/-! ## The composition law -/

/-- A chain of slice views followed by one more slice, taken as a view or as a copy. -/
theorem sliceViews_compose {E : Backend} (hE : E.Lawful) {root : Container}
    (hRoot : Plain root) (hMade : Made E root) {calls : List SliceCall} {starts : List (List Nat)}
    {shape s n : List Nat} {call : SliceCall}
    (hChain : InBoundsChain root.dtshape.shape calls starts shape)
    (hLast : Selects call.start call.stop shape s n) :
    ReadsAs E root root.contents ∧
      ∃ w, sliceViews E root calls = .ok w ∧
        (∃ v, iarrayGetSlice E w call.start call.stop true call.storage = .ok v ∧
          ReadsAs E v ⟨n, fun x => root.contents.get ((starts ++ [s]).foldr addIdx x)⟩) ∧
        ∀ storage c, iarrayGetSlice E w call.start call.stop false storage = .ok c →
          ReadsAs E c ⟨n, fun x => root.contents.get ((starts ++ [s]).foldr addIdx x)⟩ := by
  obtain ⟨w, hw, hSliced⟩ := (hRoot.sliced hMade).run hE hChain
  refine ⟨hRoot.reads hE, w, hw, ?_, ?_⟩
  · obtain ⟨v, hv, hView⟩ := hSliced.step call hE hLast
    obtain ⟨mask, off, ws, hShows⟩ := hView.shows
    refine ⟨v, hv, ?_⟩
    simpa [NdArray.slice] using hShows.reads hE
  · intro storage c hc
    obtain ⟨mask, off, ws, hShows⟩ := hSliced.shows
    simpa [NdArray.slice] using hShows.getSlice_copy hE hSliced.ndim hLast hc

namespace SliceChainExample

/-- A 6 × 5 array of bytes in chunks of 4 × 3 and blocks of 2 × 2. -/
def root : Container :=
  Reference.plain .int8 [.ofCuts 6 4 2, .ofCuts 5 3 2]
    fun x => .bits (flat [6, 5] x)

def storage : Storage := ⟨[2, 2], [1, 1]⟩

end SliceChainExample

open SliceChainExample in
/-- Rows 1 to 5 and the last four columns, then the last two rows and columns 1 to 2, as a view and
as a copy. -/
theorem sliceViews_compose_bytes :
    ReadsAs Reference.backend root root.contents ∧
      ∃ w, sliceViews Reference.backend root [⟨[1, -4], [5, 5], storage⟩] = .ok w ∧
        (∃ v, iarrayGetSlice Reference.backend w [-2, 1] [4, 3] true storage = .ok v ∧
          ReadsAs Reference.backend v
            ⟨[2, 2], fun x => root.contents.get ([[1, 1], [2, 1]].foldr addIdx x)⟩) ∧
        ∃ c, iarrayGetSlice Reference.backend w [-2, 1] [4, 3] false storage = .ok c ∧
          ReadsAs Reference.backend c
            ⟨[2, 2], fun x => root.contents.get ([[1, 1], [2, 1]].foldr addIdx x)⟩ := by
  obtain ⟨hReads, w, hw, hView, hCopies⟩ := @sliceViews_compose _ Reference.lawful root
    (Reference.plain_plain _ _ (by decide) (by decide)) (Reference.made_plain _ _ (by decide))
    [⟨[1, -4], [5, 5], storage⟩] [[1, 1]] [4, 4] [2, 1] [2, 2] ⟨[-2, 1], [4, 3], storage⟩
    (.cons (n := [4, 4]) (s := [1, 1]) ⟨⟨rfl, rfl, by decide⟩, rfl, rfl⟩ (.nil [4, 4]))
    ⟨⟨rfl, rfl, by decide⟩, rfl, rfl⟩
  have hAccepted : (sliceViews Reference.backend root [⟨[1, -4], [5, 5], storage⟩] >>= fun w =>
      iarrayGetSlice Reference.backend w [-2, 1] [4, 3] false storage).isOk = true := by
    decide +kernel
  obtain ⟨c, hc⟩ := Result.exists_of_isOk hAccepted
  rw [hw, Result.ok_bind] at hc
  exact ⟨hReads, w, hw, hView, c, hc, hCopies storage c hc⟩

end IronArray
