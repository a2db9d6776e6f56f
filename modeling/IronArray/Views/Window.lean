import IronArray.Views.Support

/-!
# Regions outside a view

The readers compare the start and the stop of a region only with each other, after both have
been moved into the coordinates of the root. A region that leaves a view but not its root is
read like any other, and slice views are made of every region that is not reversed.
-/

namespace IronArray

open Grid

/-! ## Windows -/

/-- With negative entries counted from the end, the region lies inside the shape. -/
def InWindow (start stop : List Int) (shape : List Nat) : Prop :=
  ∀ i < shape.length, 0 ≤ normIdx (start.getD i 0) (shape.getD i 0) ∧
    normIdx (start.getD i 0) (shape.getD i 0) ≤ normIdx (stop.getD i 0) (shape.getD i 0) ∧
    normIdx (stop.getD i 0) (shape.getD i 0) ≤ shape.getD i 0

instance (start stop : List Int) (shape : List Nat) : Decidable (InWindow start stop shape) :=
  inferInstanceAs (Decidable (∀ i < shape.length, _))

/-- On one of the first axes of the store the region ends before it starts. -/
def Container.Reversed (c : Container) (start stop : List Int) : Prop :=
  ∃ i < c.dtshape.ndim, (c.storeStop stop).getD i 0 < (c.storeStart start).getD i 0

instance (c : Container) (start stop : List Int) : Decidable (c.Reversed start stop) :=
  inferInstanceAs (Decidable (∃ i < c.dtshape.ndim, _))

/-- What the readers are to do: succeed only for regions inside the container. -/
def RegionsChecked (E : Backend) (c : Container) (start stop : List Int) : Prop :=
  (∀ buffer buflen out, iarrayGetSliceBuffer E c start stop buffer buflen = .ok out →
    InWindow start stop c.dtshape.shape) ∧
  ∀ view storage v, iarrayGetSlice E c start stop view storage = .ok v →
    InWindow start stop c.dtshape.shape

/-! ## What the readers check -/

theorem checkSlice_reversed {c : Container} {start stop : List Int} {view : Bool}
    {storage : Storage}
    (h : checkSlice view (c.storeStart start) (c.storeStop stop) storage c.dtshape.ndim = .ok ()) :
    ¬ c.Reversed start stop := by
  rintro ⟨i, hi, hLt⟩
  have hStep := Result.forM_eq_ok.mp h i (List.mem_range.mpr hi)
  rw [if_pos hLt] at hStep
  cases hStep

theorem checkSlice_view {c : Container} {start stop : List Int} (storage : Storage)
    (h : ¬ c.Reversed start stop) :
    checkSlice true (c.storeStart start) (c.storeStop stop) storage c.dtshape.ndim = .ok () := by
  apply Result.forM_ok
  intro i hi
  have hLe : ¬ (c.storeStop stop).getD i 0 < (c.storeStart start).getD i 0 :=
    fun hLt => h ⟨i, List.mem_range.mp hi, hLt⟩
  rw [if_neg hLe]
  rfl

/-- Of a region that is not reversed, inside the container or not, a slice view is made. -/
theorem getSlice_made {E : Backend} {c : Container} {start stop : List Int}
    (hNdim : c.dtshape.ndim ≤ dimensionMax)
    (hMade : ∃ a, viewArray E c (c.sliceDtshape start stop) = .ok a)
    (h : ¬ c.Reversed start stop) (storage : Storage) :
    ∃ v, iarrayGetSlice E c start stop true storage = .ok v := by
  obtain ⟨a, ha⟩ := hMade
  have hNdim' : (c.sliceDtshape start stop).ndim ≤ dimensionMax := by
    show (List.map _ (List.range c.dtshape.ndim)).length ≤ dimensionMax
    rwa [List.length_map, List.length_range]
  rw [iarrayGetSlice, checkSlice_view storage h]
  exact ⟨_, viewNew_eq _ hNdim' ha⟩

theorem getSliceBuffer_reversed {E : Backend} {c : Container} {start stop : List Int}
    {buffer : Nat → Cell} {buflen : Int} (hSize : c.dtshape.shape.prod ≠ 0)
    (h : c.Reversed start stop) :
    iarrayGetSliceBuffer E c start stop buffer buflen = inaError .invalidArgument := by
  obtain ⟨i, hi, hLt⟩ := h
  rw [iarrayGetSliceBuffer, if_neg hSize]
  refine if_pos (List.any_eq_true.mpr ⟨i, List.mem_range.mpr hi, ?_⟩)
  exact decide_eq_true hLt

theorem regionsChecked_iff {E : Backend} {c : Container} {start stop : List Int}
    (hNdim : c.dtshape.ndim ≤ dimensionMax)
    (hMade : ∃ a, viewArray E c (c.sliceDtshape start stop) = .ok a) :
    RegionsChecked E c start stop ↔ InWindow start stop c.dtshape.shape ∨
      (c.Reversed start stop ∧ c.dtshape.shape.prod ≠ 0) := by
  constructor
  · intro h
    by_cases hWindow : InWindow start stop c.dtshape.shape
    · exact .inl hWindow
    refine .inr ⟨?_, ?_⟩
    · by_contra hReversed
      obtain ⟨v, hv⟩ := getSlice_made hNdim hMade hReversed ⟨[], []⟩
      exact hWindow (h.2 true _ v hv)
    · -- an empty container is read without a look at the region
      intro hSize
      have hRead : iarrayGetSliceBuffer E c start stop E.malloc 0 = .ok E.malloc := if_pos hSize
      exact hWindow (h.1 _ _ _ hRead)
  · rintro (hWindow | ⟨hReversed, hSize⟩)
    · exact ⟨fun _ _ _ _ => hWindow, fun _ _ _ _ => hWindow⟩
    · constructor
      · intro buffer buflen out hOut
        rw [getSliceBuffer_reversed hSize hReversed] at hOut
        cases hOut
      · intro view storage v hv
        obtain ⟨_, hCheck, _⟩ := Result.bind_eq_ok.mp hv
        exact absurd hReversed (checkSlice_reversed hCheck)

/-! ## What is read -/

/-- The region lies, with a positive extent on every axis, inside the array of the container. -/
structure InStore (c : Container) (start stop : List Int) (s n : List Nat) : Prop where
  start_length : start.length = c.dtshape.ndim
  stop_length : stop.length = c.dtshape.ndim
  region : Region s n c.catarr.shape
  pos : ∀ k ∈ n, 0 < k
  start : c.storeStart start = ints s
  stop : c.storeStop stop = ints (addIdx s n)

/-- The shape of the buffer is the extent of the region, axis by axis of the store. -/
theorem storeExtent_eq {mask : List Bool} {off a b : List Int} (hOff : off.length = mask.length)
    (ha : a.length = mask.count false) (hb : b.length = mask.count false) :
    List.zipWith (· + ·) (List.replicate mask.length 1)
        (spread 0 mask ((List.zipWith (· - ·) b a).map (· - 1))) =
      List.zipWith (· - ·)
        (List.zipWith (· + ·) (off.map (1 + ·)) (spread 0 mask (b.map (· - 1))))
        (List.zipWith (· + ·) off (spread 0 mask a)) := by
  induction mask generalizing off a b with
  | nil => simp
  | cons bit mask ih =>
    obtain ⟨o, off, rfl⟩ := List.exists_cons_of_length_eq_add_one hOff
    cases bit with
    | true =>
      have hRest := ih (by simpa using hOff) (by simpa using ha) (by simpa using hb)
      simp only [List.length_cons, List.replicate_succ, spread_true, List.map_cons,
        List.zipWith_cons_cons, hRest]
      congr 1
      omega
    | false =>
      obtain ⟨i, a, rfl⟩ := List.exists_cons_of_length_eq_add_one
        (l := a) (n := mask.count false) (by simpa using ha)
      obtain ⟨j, b, rfl⟩ := List.exists_cons_of_length_eq_add_one
        (l := b) (n := mask.count false) (by simpa using hb)
      have hRest := ih (by simpa using hOff) (by simpa using ha) (by simpa using hb)
      simp only [List.length_cons, List.replicate_succ, spread_false, List.map_cons,
        List.zipWith_cons_cons, hRest]
      congr 1
      omega

namespace Shows

variable {c : Container} {A : NdArray Cell} {mask : List Bool} {off ws : List Nat}
  {start stop : List Int}

theorem normIdx_length (h : Shows c A mask off ws) {l : List Int}
    (hl : l.length = c.dtshape.ndim) :
    (List.zipWith normIdx l c.dtshape.shape).length = mask.count false := by
  rw [List.length_zipWith, hl, Dtshape.ndim, Nat.min_self]
  exact h.dtshape_ndim

theorem storeStart_spread (h : Shows c A mask off ws) (hl : start.length = c.dtshape.ndim) :
    c.storeStart start = List.zipWith (· + ·) (ints off)
      (spread 0 mask (List.zipWith normIdx start c.dtshape.shape)) := by
  simp only [Container.storeStart, h.transposed, Bool.false_eq_true, if_false]
  rw [h.offset, h.index,
    scatterAdd_keptIdx (by rw [length_ints, h.off_length]) (h.normIdx_length hl)]

theorem storeStop_spread (h : Shows c A mask off ws) (hl : stop.length = c.dtshape.ndim) :
    c.storeStop stop = List.zipWith (· + ·) ((ints off).map (1 + ·))
      (spread 0 mask ((List.zipWith normIdx stop c.dtshape.shape).map (· - 1))) := by
  simp only [Container.storeStop, h.transposed, Bool.false_eq_true, if_false]
  rw [h.offset, h.index, zipWith_sub_one,
    scatterAdd_keptIdx (by rw [List.length_map, length_ints, h.off_length])
      (by rw [List.length_map, h.normIdx_length hl])]

/-- `chunkshape_` of `_iarray_get_slice_buffer` for the extent that its caller computes. -/
theorem storeShape_spread (h : Shows c A mask off ws) (hStart : start.length = c.dtshape.ndim)
    (hStop : stop.length = c.dtshape.ndim) :
    scatterAdd (List.replicate c.catarr.ndim 1) c.index
        ((List.zipWith (· - ·) (List.zipWith normIdx stop c.dtshape.shape)
          (List.zipWith normIdx start c.dtshape.shape)).map (· - 1)) =
      List.zipWith (· - ·) (c.storeStop stop) (c.storeStart start) := by
  have hStart' := h.normIdx_length hStart
  have hStop' := h.normIdx_length hStop
  rw [h.storeStart_spread hStart, h.storeStop_spread hStop, ← h.mask_length, h.index,
    scatterAdd_keptIdx (by rw [List.length_replicate])
      (by rw [List.length_map, List.length_zipWith, hStart', hStop', Nat.min_self]),
    storeExtent_eq (by rw [length_ints, h.off_length]) hStart' hStop']

/-- A region inside the array is read whether or not it lies inside the view. -/
theorem reads_store {E : Backend} {s n : List Nat} (hE : E.Lawful) (h : Shows c A mask off ws)
    (hIn : InStore c start stop s n) (hSize : c.dtshape.shape.prod ≠ 0) (buffer : Nat → Cell)
    {buflen : Int} (hLen : (n.prod * c.dtshape.dtypeSize : Nat) ≤ buflen) :
    ∃ out, iarrayGetSliceBuffer E c start stop buffer buflen = .ok out ∧
      ∀ x, InBox x n → c.catarr.cell (addIdx s x) = .ok (out (flat n x)) := by
  have hLength : s.length = n.length := hIn.region.start_length.trans hIn.region.length.symm
  have hShape := h.storeShape_spread hIn.start_length hIn.stop_length
  rw [hIn.start, hIn.stop, zipWith_sub_ints hLength] at hShape
  have hOrdered : ¬ (List.range c.dtshape.ndim).any (fun i =>
      (c.storeStop stop).getD i 0 < (c.storeStart start).getD i 0) := by
    simp only [List.any_eq_true, not_exists, not_and, decide_eq_true_eq, hIn.start, hIn.stop,
      getD_ints]
    intro i _
    rw [getD_addIdx hLength]
    push_cast
    omega
  have hFits : ¬ buflen < (ints n).prod * (c.dtshape.dtypeSize : Int) := by
    rw [prod_ints]
    rw [Nat.cast_mul] at hLen
    omega
  have hCells : ∀ x, InBox x n →
      c.catarr.cell (addIdx s x) = .ok (c.catarr.get (addIdx s x)) := fun x hx =>
    cell_of_total h.total h.sized (hIn.region.inBox hx)
  rw [← h.itemsize] at hLen
  obtain ⟨out, hOut, hGet⟩ := hE.getSliceBuffer buffer hIn.region hIn.pos (forall₂_le_refl n)
    hLen hCells
  refine ⟨out, ?_, fun x hx => by rw [hGet x hx, hCells x hx]⟩
  rw [iarrayGetSliceBuffer, if_neg hSize]
  simp only [_iarrayGetSliceBuffer, h.transposed, Bool.false_eq_true, if_false]
  rw [if_neg hOrdered, hShape, if_neg hFits, hIn.start, hIn.stop, hOut]

end Shows

namespace WindowExample

def axes : List Axis := [.ofCuts 4 2 2]

/-- The bytes 0, 1, 2 and 3. -/
def bytes : Container := Reference.plain .int8 axes fun x => .bits (x.getD 0 0)

/-- The slice view of the two bytes in the middle. -/
def middle : Container :=
  viewOf Reference.backend.machine bytes ⟨.int8, [2]⟩ [1] (.ofFn axes 1 fun _ => .bits 0)

theorem slice_middle :
    iarrayGetSlice Reference.backend bytes [1] [3] true ⟨[], []⟩ = .ok middle := rfl

theorem run_middle : Run Reference.backend middle (bytes.contents.slice [1] [2]) :=
  .slice (.plain (Reference.plain_plain _ _ (by decide) (by decide))) ⟨rfl, rfl, nofun⟩
    (selects_ints ⟨rfl, rfl, by decide⟩) slice_middle

theorem chain_middle : Chain Reference.backend middle :=
  .slice (.plain (Reference.plain_plain _ _ (by decide) (by decide))) slice_middle

theorem inStore_middle : InStore middle [-3] [3] [0] [4] :=
  ⟨rfl, rfl, ⟨rfl, rfl, by decide⟩, by decide, by decide, by decide⟩

end WindowExample

end IronArray
