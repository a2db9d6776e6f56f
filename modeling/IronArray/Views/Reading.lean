import IronArray.Views.Code

/-!
# What a container shows

`Shows` relates a container to the abstract array that its readers see: the logical axes are
the store axes that the mask leaves, each store axis carries a window of the array, and the
cell at a window index is the element at the kept coordinates. `Shows.reads` proves that
`iarray_get_slice_buffer` and `iarray_to_buffer` read exactly that array. A transposed view
has its own relation, since it keeps the axes of its root and permutes on reading.
-/

namespace IronArray

open Grid

/-! ## Selections and readings -/

/-- `start` and `stop` select, counted from the end where negative, the region of shape `n`
at `s`. -/
structure Selects (start stop : List Int) (shape s n : List Nat) : Prop where
  region : Region s n shape
  start : List.zipWith normIdx start shape = ints s
  stop : List.zipWith normIdx stop shape = ints (addIdx s n)

/-- Both readers give the elements of `A`, over every rectangle and over the whole. -/
structure ReadsAs (E : Backend) (c : Container) (A : NdArray Cell) : Prop where
  shape : c.dtshape.shape = A.shape
  getSliceBuffer : ∀ {start stop : List Int} {s n : List Nat} (buffer : Nat → Cell)
    {buflen : Int}, Selects start stop A.shape s n → (∀ k ∈ n, 0 < k) →
    (n.prod * c.dtshape.dtypeSize : Nat) ≤ buflen →
    ∃ out, iarrayGetSliceBuffer E c start stop buffer buflen = .ok out ∧
      ∀ x, InBox x n → out (flat n x) = A.get (addIdx s x)
  toBuffer : ∀ (buffer : Nat → Cell) {buflen : Int}, (∀ k ∈ A.shape, 0 < k) →
    (A.shape.prod * c.dtshape.dtypeSize : Nat) ≤ buflen →
    ∃ out, iarrayToBuffer E c buffer buflen = .ok out ∧
      ∀ x, InBox x A.shape → out (flat A.shape x) = A.get x

theorem ReadsAs.congr {E : Backend} {c : Container} {A B : NdArray Cell} (h : ReadsAs E c A)
    (hSame : A.Same B) : ReadsAs E c B := by
  refine ⟨h.shape.trans hSame.shape, ?_, ?_⟩
  · intro start stop s n buffer buflen hSel hPos hLen
    rw [← hSame.shape] at hSel
    obtain ⟨out, hOut, hGet⟩ := h.getSliceBuffer buffer hSel hPos hLen
    refine ⟨out, hOut, fun x hx => ?_⟩
    rw [hGet x hx, hSame.get _ (hSel.region.inBox hx)]
  · intro buffer buflen hPos hLen
    rw [← hSame.shape] at hPos hLen ⊢
    obtain ⟨out, hOut, hGet⟩ := h.toBuffer buffer hPos hLen
    exact ⟨out, hOut, fun x hx => by rw [hGet x hx, hSame.get x hx]⟩

/-! ## Two containers that read the same array -/

/-- What is read at an index of the box does not depend on how the array is described. -/
theorem ReadsAs.same {E : Backend} {c : Container} {A B : NdArray Cell} (hA : ReadsAs E c A)
    (hB : ReadsAs E c B) : A.Same B := by
  have hShape : A.shape = B.shape := hA.shape.symm.trans hB.shape
  refine ⟨hShape, fun x hx => ?_⟩
  have hPos := hx.pos
  obtain ⟨out, hOut, hGet⟩ := hA.toBuffer E.malloc hPos le_rfl
  have hLen : (B.shape.prod * c.dtshape.dtypeSize : Nat) ≤
      ((A.shape.prod * c.dtshape.dtypeSize : Nat) : Int) := by rw [hShape]
  obtain ⟨out', hOut', hGet'⟩ := hB.toBuffer E.malloc (hShape ▸ hPos) hLen
  rw [hOut, Except.ok.injEq] at hOut'
  have hValue := hGet' x (hShape ▸ hx)
  rw [← hGet x hx, ← hValue, hOut', hShape]

/-! ## Regions in the coordinates of the store -/

theorem spread_ints (d : Nat) (bs : List Bool) (s : List Nat) :
    spread (d : Int) bs (ints s) = ints (spread d bs s) := by
  induction bs generalizing s with
  | nil => simp
  | cons b bs ih =>
    cases b with
    | true => simp [ih]
    | false =>
      cases s with
      | nil => simpa [spread] using ih []
      | cons i s => simp [ih]

theorem ints_replicate_zero (n : Nat) : ints (List.replicate n 0) = List.replicate n 0 := by
  simp [ints]

theorem zipWith_add_ints (s x : List Nat) :
    List.zipWith (· + ·) (ints s) (ints x) = ints (addIdx s x) := by
  induction s generalizing x with
  | nil => simp
  | cons i s ih => cases x <;> simp [ih]

theorem getD_ints (s : List Nat) (i : Nat) : (ints s).getD i 0 = (s.getD i 0 : Int) := by
  induction s generalizing i with
  | nil => simp
  | cons j s ih =>
    cases i with
    | zero => simp
    | succ i => simpa using ih i

/-- The unit a removed axis contributes to `stop_` is the `1 + offset` of its initial value. -/
theorem storeStop_eq {mask : List Bool} {off s n : List Nat} (hOff : off.length = mask.length)
    (hs : s.length = mask.count false) (hn : n.length = mask.count false) :
    List.zipWith (· + ·) ((ints off).map (1 + ·)) (spread 0 mask ((ints (addIdx s n)).map (· - 1))) =
      ints (addIdx (addIdx off (spread 0 mask s)) (spread 1 mask n)) := by
  induction mask generalizing off s n with
  | nil =>
    obtain rfl := List.length_eq_zero_iff.mp hOff
    simp
  | cons b mask ih =>
    obtain ⟨o, off, rfl⟩ := List.exists_cons_of_length_eq_add_one hOff
    cases b with
    | true =>
      have hRest := ih (by simpa using hOff) (by simpa using hs) (by simpa using hn)
      simp only [spread_true, ints_cons, List.map_cons, List.zipWith_cons_cons, addIdx_cons, hRest]
      congr 1
      omega
    | false =>
      obtain ⟨i, s, rfl⟩ := List.exists_cons_of_length_eq_add_one
        (l := s) (n := mask.count false) (by simpa using hs)
      obtain ⟨k, n, rfl⟩ := List.exists_cons_of_length_eq_add_one
        (l := n) (n := mask.count false) (by simpa using hn)
      have hRest := ih (by simpa using hOff) (by simpa using hs) (by simpa using hn)
      simp only [spread_false, ints_cons, List.map_cons, List.zipWith_cons_cons, addIdx_cons, hRest]
      congr 1
      push_cast
      omega

theorem storeShape_eq {mask : List Bool} {n : List Nat} (hn : n.length = mask.count false) :
    List.zipWith (· + ·) (List.replicate mask.length 1) (spread 0 mask ((ints n).map (· - 1))) =
      ints (spread 1 mask n) := by
  induction mask generalizing n with
  | nil => simp
  | cons b mask ih =>
    cases b with
    | true => simpa [List.replicate_succ] using ih (by simpa using hn)
    | false =>
      obtain ⟨k, n, rfl⟩ := List.exists_cons_of_length_eq_add_one
        (l := n) (n := mask.count false) (by simpa using hn)
      simpa [List.replicate_succ] using ih (by simpa using hn)

theorem zipWith_sub_one (l : List Int) (ns : List Nat) :
    List.zipWith (fun i n => normIdx i n - 1) l ns = (List.zipWith normIdx l ns).map (· - 1) := by
  rw [List.map_zipWith]

/-! ## Untransposed containers -/

/-- The container shows `A` through the window of shape `ws` at `off`, with the axes that
`mask` marks removed. -/
structure Shows (c : Container) (A : NdArray Cell) (mask : List Bool)
    (off ws : List Nat) : Prop where
  transposed : c.transposed = false
  ndim : c.catarr.ndim ≤ dimensionMax
  mask_length : mask.length = c.catarr.ndim
  offset : c.offset = ints off
  region : Region off ws c.catarr.shape
  unit : UnitOn mask ws
  index : c.index = keptIdx mask
  shape : c.dtshape.shape = keep mask ws
  shape_eq : A.shape = keep mask ws
  sized : c.catarr.Sized
  itemsize : c.catarr.itemsize = c.dtshape.dtypeSize
  total : c.catarr.sc.Total
  storage : c.catarr.storage = iarrayCreateCatervaStorage c.storage
  whole : c.containerViewed = none → off = List.replicate c.catarr.ndim 0 ∧
    ws = c.catarr.shape ∧ mask = List.replicate c.catarr.ndim false
  cells : ∀ x, InBox x ws → c.catarr.cell (addIdx off x) = .ok (A.get (keep mask x))

namespace Shows

variable {c : Container} {A : NdArray Cell} {mask : List Bool} {off ws : List Nat}

theorem ws_length (h : Shows c A mask off ws) : ws.length = mask.length := by
  rw [h.region.length, h.mask_length, CatArray.shape, length_shapeOf, CatArray.ndim]

theorem off_length (h : Shows c A mask off ws) : off.length = mask.length := by
  rw [h.region.start_length, h.mask_length, CatArray.shape, length_shapeOf, CatArray.ndim]

theorem shape_length (h : Shows c A mask off ws) : A.shape.length = mask.count false := by
  rw [h.shape_eq, length_keep h.ws_length]

theorem dtshape_ndim (h : Shows c A mask off ws) : c.dtshape.ndim = mask.count false := by
  rw [Dtshape.ndim, h.shape, length_keep h.ws_length]

theorem congr {B : NdArray Cell} (h : Shows c A mask off ws) (hSame : A.Same B) :
    Shows c B mask off ws where
  __ := h
  shape_eq := hSame.shape.symm.trans h.shape_eq
  cells := fun x hx => by
    have hKeep := @inBox_keep mask _ _ hx
    rw [← h.shape_eq] at hKeep
    rw [h.cells x hx, hSame.get _ hKeep]

variable {start stop : List Int} {s n : List Nat}

theorem start_length (h : Shows c A mask off ws) (hSel : Selects start stop A.shape s n) :
    s.length = mask.count false := hSel.region.start_length.trans h.shape_length

theorem stop_length (h : Shows c A mask off ws) (hSel : Selects start stop A.shape s n) :
    n.length = mask.count false := hSel.region.length.trans h.shape_length

theorem storeStart (h : Shows c A mask off ws) (hSel : Selects start stop A.shape s n) :
    c.storeStart start = ints (addIdx off (spread 0 mask s)) := by
  simp only [Container.storeStart, h.transposed, Bool.false_eq_true, if_false]
  rw [h.offset, h.index, h.shape, ← h.shape_eq, hSel.start,
    scatterAdd_keptIdx (by simp [h.off_length]) (by simp [h.start_length hSel])]
  rw [← zipWith_add_ints, ← spread_ints]
  rfl

theorem storeStop (h : Shows c A mask off ws) (hSel : Selects start stop A.shape s n) :
    c.storeStop stop = ints (addIdx (addIdx off (spread 0 mask s)) (spread 1 mask n)) := by
  have hs := h.start_length hSel
  have hn := h.stop_length hSel
  simp only [Container.storeStop, h.transposed, Bool.false_eq_true, if_false]
  rw [h.offset, h.index, zipWith_sub_one, h.shape, ← h.shape_eq, hSel.stop,
    scatterAdd_keptIdx (by simp [h.off_length])
      (by simp [length_addIdx (hs.trans hn.symm), hn]),
    storeStop_eq h.off_length hs hn]

/-- A region of the logical axes, in the coordinates of the store. -/
theorem storeRegion (h : Shows c A mask off ws) (hRegion : Region s n A.shape) :
    Region (addIdx off (spread 0 mask s)) (spread 1 mask n) c.catarr.shape := by
  rw [h.shape_eq] at hRegion
  exact h.region.trans (hRegion.spread h.ws_length h.unit)

/-- The cells of a region are the elements of the slice. -/
theorem storeCells (h : Shows c A mask off ws) (hRegion : Region s n A.shape) :
    ∀ x, InBox x (spread 1 mask n) →
      c.catarr.cell (addIdx (addIdx off (spread 0 mask s)) x) =
        .ok (A.get (addIdx s (keep mask x))) := by
  intro x hx
  have hs : s.length = mask.count false := hRegion.start_length.trans h.shape_length
  rw [h.shape_eq] at hRegion
  rw [addIdx_assoc, h.cells _ ((hRegion.spread h.ws_length h.unit).inBox hx), keep_addIdx,
    keep_spread hs]

end Shows

/-- What `_iarray_get_slice_buffer` asks Caterva for depends on the fields of the container, not
on what its array stores. -/
theorem Shows.getSliceBuffer_eq {E : Backend} {c : Container} {A : NdArray Cell}
    {mask : List Bool} {off ws : List Nat} {start stop : List Int} {s n m : List Nat}
    (h : Shows c A mask off ws) (buffer : Nat → Cell) (buflen : Int)
    (hSel : Selects start stop A.shape s n) (hm : m.length = mask.count false) {a : CatArray}
    (root : Option Container) (hNdim : a.ndim = c.catarr.ndim) :
    _iarrayGetSliceBuffer E { c with catarr := a, containerViewed := root } start stop (ints m)
        buffer buflen =
      if buflen < (m.prod * c.dtshape.dtypeSize : Nat) then inaError .tooSmallBuffer
      else E.getSliceBuffer a (ints (addIdx off (spread 0 mask s)))
        (ints (addIdx (addIdx off (spread 0 mask s)) (spread 1 mask n))) buffer
        (ints (spread 1 mask m)) buflen := by
  have hRegion := h.storeRegion hSel.region
  have hShape : scatterAdd (List.replicate a.ndim 1) c.index ((ints m).map (· - 1)) =
      ints (spread 1 mask m) := by
    rw [hNdim, ← h.mask_length, h.index, scatterAdd_keptIdx (by simp) (by simp [hm]),
      storeShape_eq hm]
  have hProd : (ints (spread 1 mask m)).prod = (m.prod : Int) := by
    rw [prod_ints, prod_spread hm]
  have hStart : Container.storeStart { c with catarr := a, containerViewed := root } start =
      ints (addIdx off (spread 0 mask s)) := h.storeStart hSel
  have hStop : Container.storeStop { c with catarr := a, containerViewed := root } stop =
      ints (addIdx (addIdx off (spread 0 mask s)) (spread 1 mask n)) := h.storeStop hSel
  unfold _iarrayGetSliceBuffer
  rw [hStart, hStop]
  simp only [h.transposed, Bool.false_eq_true, if_false, hShape, hProd]
  rw [if_neg, Nat.cast_mul]
  simp only [List.any_eq_true, not_exists, not_and, decide_eq_true_eq, getD_ints]
  intro i _
  rw [getD_addIdx (hRegion.start_length.trans hRegion.length.symm)]
  push_cast
  omega

/-- `_iarray_get_slice_buffer` reads the selected rectangle of `A`, into a buffer whose shape
may be larger than the rectangle. -/
theorem Shows.getSliceBufferInto {E : Backend} {c : Container} {A : NdArray Cell}
    {mask : List Bool} {off ws : List Nat} {start stop : List Int} {s n m : List Nat}
    (buffer : Nat → Cell) {buflen : Int} (hE : E.Lawful) (h : Shows c A mask off ws)
    (hSel : Selects start stop A.shape s n) (hPos : ∀ k ∈ n, 0 < k)
    (hm : List.Forall₂ (· ≤ ·) n m) (hLen : (m.prod * c.dtshape.dtypeSize : Nat) ≤ buflen) :
    ∃ out, _iarrayGetSliceBuffer E c start stop (ints m) buffer buflen = .ok out ∧
      ∀ x, InBox x n → out (flat m x) = A.get (addIdx s x) := by
  have hn := h.stop_length hSel
  have hm' : m.length = mask.count false := hm.length_eq ▸ hn
  have hLen' : ((spread 1 mask m).prod * c.catarr.itemsize : Nat) ≤ buflen := by
    rwa [prod_spread hm', h.itemsize]
  obtain ⟨out, hOut, hGet⟩ := hE.getSliceBuffer buffer (h.storeRegion hSel.region)
    (mem_spread_one hn hPos) (spread_le hn hm) hLen' (h.storeCells hSel.region)
  refine ⟨out, ?_, ?_⟩
  · refine (h.getSliceBuffer_eq buffer _ hSel hm' c.containerViewed rfl).trans ?_
    rw [if_neg (not_lt.mpr hLen), hOut]
  · intro x hx
    have hx' : x.length = mask.count false := hx.length_eq.trans hn
    have hValue := hGet _ ((inBox_spread hx' hn).mpr hx)
    rwa [flat_spread hx' hm', keep_spread hx'] at hValue

theorem zipWith_sub_ints {s n : List Nat} (h : s.length = n.length) :
    List.zipWith (· - ·) (ints (addIdx s n)) (ints s) = ints n := by
  induction s generalizing n with
  | nil =>
    obtain rfl := List.length_eq_zero_iff.mp h.symm
    simp
  | cons i s ih =>
    obtain ⟨k, n, rfl⟩ := List.exists_cons_of_length_eq_add_one h.symm
    simp [ih (by simpa using h)]

theorem zipWith_normIdx_ints {s shape : List Nat} (h : s.length = shape.length) :
    List.zipWith normIdx (ints s) shape = ints s := by
  induction s generalizing shape with
  | nil => rfl
  | cons i s ih =>
    obtain ⟨t, shape, rfl⟩ := List.exists_cons_of_length_eq_add_one h.symm
    have hRest := @ih shape (by simpa using h)
    simp only [ints_cons, List.zipWith_cons_cons, hRest]
    rw [normIdx, if_neg (by omega)]

/-- A region given by its own coordinates. -/
theorem selects_ints {s n shape : List Nat} (h : Region s n shape) :
    Selects (ints s) (ints (addIdx s n)) shape s n := by
  have hLen : (addIdx s n).length = shape.length := by
    rw [length_addIdx (h.start_length.trans h.length.symm), h.length]
  exact ⟨h, zipWith_normIdx_ints h.start_length, zipWith_normIdx_ints hLen⟩

/-- The whole box, selected as `iarray_to_buffer` does. -/
theorem selects_whole (shape : List Nat) :
    Selects (List.replicate shape.length 0) (ints shape) shape
      (List.replicate shape.length 0) shape := by
  have hSel := selects_ints (Region.whole shape)
  rw [addIdx_replicate_zero rfl] at hSel
  rwa [ints_replicate_zero] at hSel

/-- A selected region that is not empty is read into a buffer of its own shape. -/
theorem iarrayGetSliceBuffer_eq {E : Backend} {c : Container} {shape : List Nat}
    {start stop : List Int} {s n : List Nat} (buffer : Nat → Cell) (buflen : Int)
    (hShape : c.dtshape.shape = shape) (hSel : Selects start stop shape s n)
    (hPos : ∀ k ∈ n, 0 < k) : iarrayGetSliceBuffer E c start stop buffer buflen =
      _iarrayGetSliceBuffer E c start stop (ints n) buffer buflen := by
  have hLength : s.length = n.length := hSel.region.start_length.trans hSel.region.length.symm
  rw [iarrayGetSliceBuffer, hShape, if_neg (Region.prod_ne_zero hSel.region hPos)]
  simp only [hSel.start, hSel.stop, zipWith_sub_ints hLength]

/-- Reading a container gives the array it shows. -/
theorem Shows.reads {E : Backend} {c : Container} {A : NdArray Cell} {mask : List Bool}
    {off ws : List Nat} (hE : E.Lawful) (h : Shows c A mask off ws) : ReadsAs E c A := by
  have hSlice : ∀ {start stop : List Int} {s n : List Nat} (buffer : Nat → Cell) {buflen : Int},
      Selects start stop A.shape s n → (∀ k ∈ n, 0 < k) →
      (n.prod * c.dtshape.dtypeSize : Nat) ≤ buflen →
      ∃ out, iarrayGetSliceBuffer E c start stop buffer buflen = .ok out ∧
        ∀ x, InBox x n → out (flat n x) = A.get (addIdx s x) := by
    intro start stop s n buffer buflen hSel hPos hLen
    obtain ⟨out, hOut, hGet⟩ :=
      h.getSliceBufferInto buffer hE hSel hPos (forall₂_le_refl n) hLen
    refine ⟨out, ?_, hGet⟩
    rw [iarrayGetSliceBuffer_eq buffer buflen (h.shape.trans h.shape_eq.symm) hSel hPos, hOut]
  refine ⟨h.shape.trans h.shape_eq.symm, hSlice, ?_⟩
  intro buffer buflen hPos hLen
  have hNe : c.dtshape.shape.prod ≠ 0 := by
    rw [h.shape, ← h.shape_eq]
    exact (prod_pos_of_forall hPos).ne'
  have hLen' : ¬ buflen < (c.dtshape.shape.prod * c.dtshape.dtypeSize : Nat) := by
    rw [h.shape, ← h.shape_eq]
    omega
  rw [iarrayToBuffer, if_neg hNe, if_neg hLen']
  cases hViewed : c.containerViewed with
  | some root =>
    obtain ⟨out, hOut, hGet⟩ := hSlice buffer (selects_whole A.shape) hPos hLen
    refine ⟨out, ?_, fun x hx => ?_⟩
    · rw [Dtshape.ndim, h.shape, ← h.shape_eq]
      exact hOut
    · rw [hGet x hx, addIdx_replicate_zero hx.length_eq]
  | none =>
    obtain ⟨rfl, rfl, rfl⟩ := h.whole hViewed
    have hNdim : c.catarr.shape.length = c.catarr.ndim := length_shapeOf _
    have hShape : A.shape = c.catarr.shape := h.shape_eq.trans (keep_replicate_false hNdim)
    rw [hShape] at hPos hLen ⊢
    have hFits : (c.catarr.shape.prod * c.catarr.itemsize : Nat) ≤ buflen := by rwa [h.itemsize]
    obtain ⟨out, hOut, hGet⟩ := hE.toBuffer buffer (f := A.get) hPos hFits (by
      intro x hx
      have hx' : x.length = c.catarr.ndim := hx.length_eq.trans hNdim
      have hCell := h.cells x hx
      rwa [addIdx_replicate_zero hx', keep_replicate_false hx'] at hCell)
    exact ⟨out, hOut, hGet⟩

end IronArray
