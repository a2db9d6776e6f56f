import IronArray.Views.SliceChain

/-!
# Transposed views and their slices

A transposed view keeps the store of its root and reverses starts and stops on the way in.
`_iarray_get_slice_buffer` transposes what it reads back; `iarray_get_slice` does not, and
its result is the region of the root. `getSlice_transposed` states when the two agree.
-/

namespace IronArray

open Grid

/-! ## The view without its flag -/

def Container.untransposed (c : Container) : Container :=
  { c with transposed := false, dtshape := { c.dtshape with shape := c.dtshape.shape.reverse } }

/-- The container shows `A` by transposing what its store shows. -/
structure ShowsTransposed (c : Container) (A : NdArray Cell) : Prop where
  transposed : c.transposed = true
  viewed : c.containerViewed.isSome
  ndim : A.shape.length = 2
  base : Shows c.untransposed A.transpose [false, false] [0, 0] A.shape.reverse

namespace ShowsTransposed

variable {E : Backend} {c v : Container} {A : NdArray Cell} {start stop : List Int}
  {s n : List Nat} {storage : Storage} {view : Bool}

theorem shape (h : ShowsTransposed c A) : c.dtshape.shape = A.shape := by
  have hShape : c.dtshape.shape.reverse = A.transpose.shape :=
    h.base.shape.trans h.base.shape_eq.symm
  simpa [NdArray.transpose] using hShape

/-- A pair of starts goes to the store reversed. -/
theorem scatter_reverse (h : ShowsTransposed c A) {l : List Int} (hl : l.length = 2)
    {o : List Int} (ho : o.length = 2) :
    reversePrefix c.dtshape.ndim (scatterAdd o c.index l) =
      (List.zipWith (· + ·) o l).reverse := by
  have hIndex : c.index = [0, 1] := h.base.index
  have hNdim : c.dtshape.ndim = 2 := by rw [Dtshape.ndim, h.shape, h.ndim]
  obtain ⟨a, b, rfl⟩ := List.length_eq_two.mp hl
  obtain ⟨p, q, rfl⟩ := List.length_eq_two.mp ho
  rw [hIndex, hNdim]
  rfl

theorem offset (h : ShowsTransposed c A) : c.offset = [0, 0] := h.base.offset

theorem storeStart (h : ShowsTransposed c A) (hSel : Selects start stop A.shape s n) :
    c.storeStart start = ints s.reverse := by
  have hs : s.length = 2 := hSel.region.start_length.trans h.ndim
  rw [Container.storeStart, if_pos h.transposed, h.shape, hSel.start,
    h.scatter_reverse (by simp [hs]) (by simp [h.offset]), h.offset]
  obtain ⟨a, b, rfl⟩ := List.length_eq_two.mp hs
  simp

theorem storeStop (h : ShowsTransposed c A) (hSel : Selects start stop A.shape s n) :
    c.storeStop stop = ints (addIdx s.reverse n.reverse) := by
  have hs : s.length = 2 := hSel.region.start_length.trans h.ndim
  have hn : n.length = 2 := hSel.region.length.trans h.ndim
  have hLen : (addIdx s n).length = 2 := by rw [length_addIdx (hs.trans hn.symm), hn]
  rw [Container.storeStop, if_pos h.transposed, zipWith_sub_one, h.shape, hSel.stop,
    h.scatter_reverse (by simp [hLen]) (by simp [h.offset]), h.offset]
  obtain ⟨a, b, rfl⟩ := List.length_eq_two.mp hs
  obtain ⟨k, l, rfl⟩ := List.length_eq_two.mp hn
  simp

theorem selects_base (h : Selects start stop A.shape s n) :
    Selects (ints s.reverse) (ints (addIdx s.reverse n.reverse)) A.transpose.shape s.reverse
      n.reverse := selects_ints h.region.reverse

/-- Slicing a transposed view is slicing its store with the arguments reversed. -/
theorem getSlice_eq (h : ShowsTransposed c A) (hSel : Selects start stop A.shape s n) :
    iarrayGetSlice E c start stop view storage =
      iarrayGetSlice E c.untransposed (ints s.reverse) (ints (addIdx s.reverse n.reverse)) view
        storage := by
  have hBase := selects_base hSel
  have hOff : ∀ l : List Nat, l.length = 2 → addIdx [0, 0] (spread 0 [false, false] l) = l ∧
      spread 1 [false, false] l = l := by
    intro l hl
    obtain ⟨a, b, rfl⟩ := List.length_eq_two.mp hl
    exact ⟨by simp [spread], rfl⟩
  have hs : s.reverse.length = 2 := by simpa using hSel.region.start_length.trans h.ndim
  have hn : n.reverse.length = 2 := by simpa using hSel.region.length.trans h.ndim
  have hStart : c.untransposed.storeStart (ints s.reverse) = c.storeStart start := by
    rw [h.base.storeStart hBase, h.storeStart hSel, (hOff _ hs).1]
  have hStop : c.untransposed.storeStop (ints (addIdx s.reverse n.reverse)) =
      c.storeStop stop := by
    rw [h.base.storeStop hBase, h.storeStop hSel, (hOff _ hs).1, (hOff _ hn).2]
  have hNdim : c.untransposed.dtshape.ndim = c.dtshape.ndim := by
    simp [Container.untransposed, Dtshape.ndim]
  have hDtshape : c.untransposed.sliceDtshape (ints s.reverse)
      (ints (addIdx s.reverse n.reverse)) = c.sliceDtshape start stop := by
    rw [Container.sliceDtshape, Container.sliceDtshape, hStart, hStop, hNdim]
    rfl
  have hView : ∀ d o, _iarrayViewNew E c.untransposed d o = _iarrayViewNew E c d o := by
    obtain ⟨root, hRoot⟩ := Option.isSome_iff_exists.mp h.viewed
    have hEq : c.untransposed.root = c.root := by
      simp [Container.root, Container.untransposed, hRoot]
    intro d o
    simp only [_iarrayViewNew, viewOf, hEq]
    rfl
  rw [iarrayGetSlice, iarrayGetSlice, hStart, hStop, hNdim, hDtshape, hView]
  rfl

theorem base_ndim (h : ShowsTransposed c A) :
    c.untransposed.catarr.ndim = c.untransposed.dtshape.ndim := by
  rw [← h.base.mask_length, h.base.dtshape_ndim]
  rfl

theorem same_reverse (hSel : Selects start stop A.shape s n) :
    (A.transpose.slice s.reverse n.reverse).Same (A.slice s n).transpose := by
  refine ⟨rfl, fun x hx => ?_⟩
  have hx' : x.length = s.length := by
    rw [hx.length_eq, NdArray.slice, List.length_reverse, hSel.region.length,
      hSel.region.start_length]
  simp only [NdArray.transpose, NdArray.slice]
  rw [← addIdx_reverse (by simp [hx']), List.reverse_reverse]

/-- A slice view of a transposed view shows the region of the store. -/
theorem getSlice_view (hE : E.Lawful) (h : ShowsTransposed c A)
    (hSel : Selects start stop A.shape s n)
    (hv : iarrayGetSlice E c start stop true storage = .ok v) :
    Shows v (A.slice s n).transpose (List.replicate n.reverse.length false)
      (addIdx (([0, 0] : List Nat).take c.untransposed.dtshape.ndim) s.reverse) n.reverse := by
  rw [h.getSlice_eq hSel] at hv
  have hFlat := h.base.flat_of_ndim h.base_ndim
  exact (h.base.getSlice_view hE hFlat (selects_base hSel) hv).congr (same_reverse hSel)

/-- What the code returns for a slice of a transposed view: the region of the store. -/
theorem getSlice (hE : E.Lawful) (h : ShowsTransposed c A)
    (hSel : Selects start stop A.shape s n)
    (hv : iarrayGetSlice E c start stop view storage = .ok v) :
    ReadsAs E v (A.slice s n).transpose := by
  cases view with
  | true => exact (h.getSlice_view hE hSel hv).reads hE
  | false =>
    rw [h.getSlice_eq hSel] at hv
    exact (h.base.getSlice_copy hE h.base_ndim (selects_base hSel) hv).congr (same_reverse hSel)

end ShowsTransposed

/-! ## Transposing a plain container -/

theorem transpose_shows {E : Backend} (hE : E.Lawful) {a t : Container} (ha : Plain a)
    (ht : iarrayLinalgTranspose E a = .ok t) : ShowsTransposed t a.contents.transpose := by
  obtain ⟨-, hNdim, b, hb, rfl⟩ := transpose_ok ht
  have hNdim' : a.dtshape.shape.length = 2 := hNdim
  obtain ⟨arr, hArr, rfl⟩ := viewNew_ok hb
  have hLen : a.dtshape.shape.reverse.length = a.dtshape.shape.length := by simp
  have hArr' : viewArray E a a.dtshape = .ok arr := by
    simp only [viewArray, Dtshape.ndim, hLen] at hArr
    exact hArr
  have hShows := ha.shows.viewOf hE (ha.shows.flat_of_ndim ha.catarr_ndim) a.dtshape
    (List.replicate a.dtshape.ndim 0) (s := List.replicate a.dtshape.ndim 0) hArr'
    (Region.whole _) rfl (Or.inl ⟨rfl, rfl⟩) (by simp [ints, addIdx])
  refine ⟨rfl, rfl, by simpa [NdArray.transpose, Container.contents] using hNdim', ?_⟩
  have hSame : ((a.contents.slice (List.replicate a.dtshape.ndim 0) a.dtshape.shape).map id).Same
      a.contents.transpose.transpose := by
    rw [NdArray.transpose_transpose]
    refine ⟨rfl, fun x hx => ?_⟩
    have hx' : x.length = a.dtshape.ndim := hx.length_eq
    simp only [NdArray.map, NdArray.slice, id, addIdx_replicate_zero hx']
  have hFinal := hShows.congr hSame
  simp only [Dtshape.ndim, hNdim'] at hFinal
  convert hFinal using 1
  · simp [Container.untransposed, viewOf, Dtshape.ndim, hNdim', iarrayAddViewPostfilter]
  · simp
  · simp
  · simp [NdArray.transpose, Container.contents]

/-- The transposed view keeps a geometry that Caterva makes. -/
theorem transpose_sliced {E : Backend} (hE : E.Lawful) {a t : Container} (ha : Plain a)
    (ht : iarrayLinalgTranspose E a = .ok t) :
    Sliced E t.untransposed a.contents.transpose.transpose := by
  have h := transpose_shows hE ha ht
  refine ⟨⟨_, _, _, h.base⟩, h.base_ndim, ?_⟩
  obtain ⟨-, -, b, hb, rfl⟩ := transpose_ok ht
  obtain ⟨arr, hArr, rfl⟩ := viewNew_ok hb
  refine ⟨arr, ?_⟩
  change E.empty _ arr.shape _ = _
  rw [(hE.empty hArr).shape]
  exact hArr

/-! ## Slicing commutes with transposition only on symmetric squares -/

/-- The region of `A` of shape `n` at `s` is square and symmetric. -/
def SymmetricRegion (A : NdArray Cell) (s n : List Nat) : Prop :=
  n.getD 0 0 = n.getD 1 0 ∧ ∀ i j, i < n.getD 0 0 → j < n.getD 1 0 →
    A.get [s.getD 0 0 + i, s.getD 1 0 + j] = A.get [s.getD 0 0 + j, s.getD 1 0 + i]

theorem same_transpose_iff {A : NdArray Cell} {s n : List Nat} (hs : s.length = 2)
    (hn : n.length = 2) :
    (A.slice s n).transpose.Same (A.slice s n) ↔ SymmetricRegion A s n := by
  obtain ⟨a, b, rfl⟩ := List.length_eq_two.mp hs
  obtain ⟨k, l, rfl⟩ := List.length_eq_two.mp hn
  constructor
  · rintro ⟨hShape, hGet⟩
    have hkl : k = l := by
      have := (List.cons.inj hShape).1
      exact this.symm
    subst hkl
    refine ⟨rfl, fun i j hi hj => ?_⟩
    exact (hGet [j, i] (by simpa [NdArray.transpose, NdArray.slice] using ⟨hj, hi⟩))
  · rintro ⟨hkl, hGet⟩
    obtain rfl : k = l := hkl
    refine ⟨rfl, fun x hx => ?_⟩
    obtain ⟨i, x, rfl, hi, hx⟩ := InBox.cons_iff.mp hx
    obtain ⟨j, x, rfl, hj, hx⟩ := InBox.cons_iff.mp hx
    cases hx
    exact hGet j i hj hi

/-- A slice of a transposed view, taken as a view or as a copy, is the slice of the transposed
matrix exactly when the region is square and symmetric. Any element type. -/
theorem getSlice_transposed {E : Backend} (hE : E.Lawful) {a t : Container} (ha : Plain a)
    (ht : iarrayLinalgTranspose E a = .ok t) {start stop : List Int} {s n : List Nat}
    (hSel : Selects start stop t.dtshape.shape s n) :
    (∀ storage, ∃ v, iarrayGetSlice E t start stop true storage = .ok v ∧
      (ReadsAs E v (a.contents.transpose.slice s n) ↔
        SymmetricRegion a.contents.transpose s n)) ∧
    ∀ storage v, iarrayGetSlice E t start stop false storage = .ok v →
      (ReadsAs E v (a.contents.transpose.slice s n) ↔
        SymmetricRegion a.contents.transpose s n) := by
  have h := transpose_shows hE ha ht
  rw [h.shape] at hSel
  have hs := hSel.region.start_length.trans h.ndim
  have hn := hSel.region.length.trans h.ndim
  have hIff : ∀ {view storage v}, iarrayGetSlice E t start stop view storage = .ok v →
      (ReadsAs E v (a.contents.transpose.slice s n) ↔
        SymmetricRegion a.contents.transpose s n) := by
    intro view storage v hv
    have hReads := h.getSlice hE hSel hv
    rw [← same_transpose_iff hs hn]
    exact ⟨fun hClaim => hReads.same hClaim, fun hSame => hReads.congr hSame⟩
  refine ⟨fun storage => ?_, fun storage v hv => hIff hv⟩
  obtain ⟨v, hv, _⟩ := (transpose_sliced hE ha ht).step
    ⟨ints s.reverse, ints (addIdx s.reverse n.reverse), storage⟩ hE
    (ShowsTransposed.selects_base hSel)
  dsimp only at hv
  rw [← h.getSlice_eq hSel] at hv
  exact ⟨v, hv, hIff hv⟩

namespace TransposedExample

def axes : List Axis := [.ofCuts 2 2 2, .ofCuts 3 2 1]

/-- A 2 × 3 matrix of doubles with pairwise different elements. -/
def matrix : Container := Reference.plain .double axes fun x => .bits (flat [2, 3] x)

def view : Container :=
  { viewOf Reference.backend.machine matrix ⟨.double, [3, 2]⟩ [0, 0]
      (.ofFn axes 8 fun _ => .bits 0) with transposed := true }

theorem transpose_matrix : iarrayLinalgTranspose Reference.backend matrix = .ok view := rfl

end TransposedExample

open TransposedExample in
/-- The single item at the origin, and the upper left square. -/
theorem getSlice_transposed_matrix :
    ((∀ storage, ∃ v, iarrayGetSlice Reference.backend view [0, 0] [2, 2] true storage = .ok v ∧
      (ReadsAs Reference.backend v (matrix.contents.transpose.slice [0, 0] [2, 2]) ↔
        SymmetricRegion matrix.contents.transpose [0, 0] [2, 2])) ∧
    ∀ storage v, iarrayGetSlice Reference.backend view [0, 0] [2, 2] false storage = .ok v →
      (ReadsAs Reference.backend v (matrix.contents.transpose.slice [0, 0] [2, 2]) ↔
        SymmetricRegion matrix.contents.transpose [0, 0] [2, 2])) ∧
    ∃ v, iarrayGetSlice Reference.backend view [0, 0] [1, 1] true ⟨[], []⟩ = .ok v ∧
      ReadsAs Reference.backend v (matrix.contents.transpose.slice [0, 0] [1, 1]) := by
  have hPlain := @Reference.plain_plain .double axes (fun x => .bits (flat [2, 3] x))
    (by decide) (by decide)
  refine ⟨getSlice_transposed Reference.lawful hPlain transpose_matrix
    ⟨⟨rfl, rfl, by decide⟩, rfl, rfl⟩, ?_⟩
  have hSel : Selects [0, 0] [1, 1] view.dtshape.shape [0, 0] [1, 1] :=
    ⟨⟨rfl, rfl, by decide⟩, rfl, rfl⟩
  obtain ⟨v, hv, hIff⟩ :=
    (getSlice_transposed Reference.lawful hPlain transpose_matrix hSel).1 ⟨[], []⟩
  refine ⟨v, hv, hIff.mpr ⟨rfl, fun i j hi hj => ?_⟩⟩
  obtain rfl : i = 0 := Nat.lt_one_iff.mp hi
  obtain rfl : j = 0 := Nat.lt_one_iff.mp hj
  rfl

open TransposedExample in
/-- The first column of the transposed matrix comes back as a row, and the upper left square
comes back untransposed. -/
theorem getSlice_transposed_fails :
    iarrayLinalgTranspose Reference.backend matrix = .ok view ∧
      (∃ v, iarrayGetSlice Reference.backend view [0, 0] [3, 1] true ⟨[1, 1], [1, 1]⟩ = .ok v ∧
        v.dtshape.shape = [1, 3] ∧
        ¬ ReadsAs Reference.backend v (matrix.contents.transpose.slice [0, 0] [3, 1])) ∧
      ∃ v, iarrayGetSlice Reference.backend view [0, 0] [2, 2] false ⟨[1, 1], [1, 1]⟩ = .ok v ∧
        v.dtshape.shape = [2, 2] ∧
        ¬ ReadsAs Reference.backend v (matrix.contents.transpose.slice [0, 0] [2, 2]) := by
  refine ⟨transpose_matrix, ⟨_, rfl, rfl, ?_⟩, ?_⟩
  · intro h
    exact absurd h.shape (by decide)
  · have hPlain := @Reference.plain_plain .double axes (fun x => .bits (flat [2, 3] x))
      (by decide) (by decide)
    have hSel : Selects [0, 0] [2, 2] matrix.contents.transpose.shape [0, 0] [2, 2] :=
      ⟨⟨rfl, rfl, by decide⟩, rfl, rfl⟩
    obtain ⟨v, hv⟩ : ∃ v, iarrayGetSlice Reference.backend view [0, 0] [2, 2] false
        ⟨[1, 1], [1, 1]⟩ = .ok v := ⟨_, rfl⟩
    have hReads := (transpose_shows Reference.lawful hPlain transpose_matrix).getSlice
      Reference.lawful hSel hv
    refine ⟨v, hv, hReads.shape, ?_⟩
    intro h
    have hGet := (hReads.same h).get [0, 1] (by decide)
    exact absurd hGet (by decide)

end IronArray
