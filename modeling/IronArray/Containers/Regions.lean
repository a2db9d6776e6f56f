import IronArray.Containers.Code
import IronArray.Iterators.Write
import IronArray.Views.Window

/-!
# Writing a region and reading it back

`iarray_set_slice_buffer` and `iarray_get_slice_buffer` normalise the start and the stop of a
region each with their own copy of the arithmetic. `setSliceBuffer_reads` proves that they agree:
what was written is read back, and nothing else changed.
-/

namespace IronArray

open Grid

/-! ## Regions -/

/-- The start of a region inside a shape, and its extent. -/
def regionStart (start : List Int) (shape : List Nat) : List Nat :=
  (List.zipWith normIdx start shape).map Int.toNat

def regionExtent (start stop : List Int) (shape : List Nat) : List Nat :=
  List.zipWith (fun a b => (b - a).toNat) (List.zipWith normIdx start shape)
    (List.zipWith normIdx stop shape)

theorem InWindow.cons_iff {i j : Int} {start stop : List Int} {n : Nat} {shape : List Nat} :
    InWindow (i :: start) (j :: stop) (n :: shape) ↔
      (0 ≤ normIdx i n ∧ normIdx i n ≤ normIdx j n ∧ normIdx j n ≤ n) ∧
        InWindow start stop shape := by
  constructor
  · intro h
    refine ⟨h 0 (Nat.succ_pos _), fun k hk => ?_⟩
    have hNext := h (k + 1) (Nat.succ_lt_succ hk)
    simpa only [List.getD_cons_succ] using hNext
  · rintro ⟨hHead, hTail⟩ k hk
    cases k with
    | zero => exact hHead
    | succ k =>
      simp only [List.getD_cons_succ]
      exact hTail k (Nat.lt_of_succ_lt_succ hk)

/-- A region inside a shape is selected by its start and its stop. -/
theorem InWindow.selects {start stop : List Int} {shape : List Nat}
    (hStart : start.length = shape.length) (hStop : stop.length = shape.length)
    (h : InWindow start stop shape) :
    Selects start stop shape (regionStart start shape) (regionExtent start stop shape) := by
  induction shape generalizing start stop with
  | nil =>
    obtain rfl := List.length_eq_zero_iff.mp hStart
    obtain rfl := List.length_eq_zero_iff.mp hStop
    exact ⟨⟨rfl, rfl, .nil⟩, rfl, rfl⟩
  | cons n shape ih =>
    obtain ⟨i, start, rfl⟩ := List.exists_cons_of_length_eq_add_one hStart
    obtain ⟨j, stop, rfl⟩ := List.exists_cons_of_length_eq_add_one hStop
    obtain ⟨⟨hLow, hOrder, hHigh⟩, hRest⟩ := InWindow.cons_iff.mp h
    obtain ⟨hRegion, hStart', hStop'⟩ := ih (by simpa using hStart) (by simpa using hStop) hRest
    constructor
    · refine Region.cons_iff.mpr ⟨?_, hRegion⟩
      show (normIdx i n).toNat + (normIdx j n - normIdx i n).toNat ≤ n
      omega
    · show normIdx i n :: List.zipWith normIdx start shape =
        ((normIdx i n).toNat : Int) :: ints (regionStart start shape)
      rw [hStart', Int.toNat_of_nonneg hLow]
    · show normIdx j n :: List.zipWith normIdx stop shape =
        (((normIdx i n).toNat + (normIdx j n - normIdx i n).toNat : Nat) : Int) ::
          ints (addIdx (regionStart start shape) (regionExtent start stop shape))
      rw [hStop']
      congr 1
      push_cast
      omega

/-- A selected region lies inside the shape, and is the one that its start and stop give. -/
theorem Selects.inWindow {start stop : List Int} {shape s n : List Nat}
    (hStart : start.length = shape.length) (hStop : stop.length = shape.length)
    (h : Selects start stop shape s n) :
    InWindow start stop shape ∧ s = regionStart start shape ∧
      n = regionExtent start stop shape := by
  induction shape generalizing start stop s n with
  | nil =>
    obtain rfl := List.length_eq_zero_iff.mp h.region.start_length
    obtain rfl := List.length_eq_zero_iff.mp h.region.length
    obtain rfl := List.length_eq_zero_iff.mp hStart
    obtain rfl := List.length_eq_zero_iff.mp hStop
    exact ⟨nofun, rfl, rfl⟩
  | cons t shape ih =>
    obtain ⟨i, start, rfl⟩ := List.exists_cons_of_length_eq_add_one hStart
    obtain ⟨j, stop, rfl⟩ := List.exists_cons_of_length_eq_add_one hStop
    obtain ⟨a, s, rfl⟩ := List.exists_cons_of_length_eq_add_one h.region.start_length
    obtain ⟨b, n, rfl⟩ := List.exists_cons_of_length_eq_add_one h.region.length
    obtain ⟨hRegion, hStart', hStop'⟩ := h
    obtain ⟨hFits, hRegion⟩ := Region.cons_iff.mp hRegion
    simp only [List.zipWith_cons_cons, ints_cons, addIdx_cons, List.cons.injEq] at hStart' hStop'
    obtain ⟨hi, hStart'⟩ := hStart'
    obtain ⟨hj, hStop'⟩ := hStop'
    obtain ⟨hRest, rfl, rfl⟩ := ih (by simpa using hStart) (by simpa using hStop)
      ⟨hRegion, hStart', hStop'⟩
    push_cast at hj
    refine ⟨InWindow.cons_iff.mpr ⟨⟨by omega, by omega, by omega⟩, hRest⟩, ?_, ?_⟩
    · show a :: _ = (normIdx i t).toNat :: _
      congr 1
      omega
    · show b :: _ = (normIdx j t - normIdx i t).toNat :: _
      congr 1
      omega

/-! ## The writer -/

theorem checkRegion_eq_ok {shape : List Nat} {start_ stop_ : List Int} :
    checkRegion shape start_ stop_ = .ok () ↔ ∀ i < shape.length, 0 ≤ start_.getD i 0 ∧
      start_.getD i 0 ≤ stop_.getD i 0 ∧ stop_.getD i 0 ≤ shape.getD i 0 := by
  refine Result.forM_eq_ok.trans ?_
  simp only [List.mem_range]
  refine forall₂_congr fun i _ => ?_
  split
  · exact iff_of_false nofun (by omega)
  · split
    · exact iff_of_false nofun (by omega)
    · split
      · exact iff_of_false nofun (by omega)
      · exact iff_of_true rfl (by omega)

namespace Plain

variable {c : Container} {start stop : List Int}

theorem scatterAdd_range {l : List Int} (o : Int) (hl : l.length = c.dtshape.ndim) :
    scatterAdd (List.replicate c.dtshape.ndim o) (List.range c.dtshape.ndim) l = l.map (o + ·) := by
  rw [← keptIdx_replicate_false, scatterAdd_keptIdx (by simp) (by simpa using hl),
    spread_replicate_false 0 hl]
  refine List.ext_getElem (by simp [hl]) ?_
  intro i _ _
  simp

theorem setStart_eq (h : Plain c) (hl : start.length = c.dtshape.ndim) :
    c.setStart start = List.zipWith normIdx start c.dtshape.shape := by
  have hLength : (List.zipWith normIdx start c.dtshape.shape).length = c.dtshape.ndim := by
    rw [List.length_zipWith, hl, Dtshape.ndim, Nat.min_self]
  rw [Container.setStart, h.offset, h.index, scatterAdd_range 0 hLength]
  simp

theorem setStop_eq (h : Plain c) (hl : stop.length = c.dtshape.ndim) :
    c.setStop stop = List.zipWith normIdx stop c.dtshape.shape := by
  have hLength : (List.zipWith (fun i n => normIdx i n - 1) stop c.dtshape.shape).length =
      c.dtshape.ndim := by
    rw [List.length_zipWith, hl, Dtshape.ndim, Nat.min_self]
  rw [Container.setStop, h.offset, h.index, List.map_replicate, scatterAdd_range _ hLength,
    zipWith_sub_one, List.map_map]
  refine (List.map_congr_left ?_).trans (List.map_id _)
  intro i _
  show 1 + 0 + (i - 1) = i
  omega

/-- The checks let exactly the regions inside the container through. -/
theorem checkRegion_iff (h : Plain c) (hStart : start.length = c.dtshape.ndim)
    (hStop : stop.length = c.dtshape.ndim) :
    checkRegion c.catarr.shape (c.setStart start) (c.setStop stop) = .ok () ↔
      InWindow start stop c.dtshape.shape := by
  rw [checkRegion_eq_ok, h.setStart_eq hStart, h.setStop_eq hStop, h.fresh.shape]
  refine forall₂_congr fun i hi => ?_
  have hNorm : ∀ {l : List Int}, l.length = c.dtshape.ndim →
      (List.zipWith normIdx l c.dtshape.shape).getD i 0 =
        normIdx (l.getD i 0) (c.dtshape.shape.getD i 0) := by
    intro l hl
    have hi' : i < l.length := hl ▸ hi
    rw [List.getD_eq_getElem _ _ (by rw [List.length_zipWith]; exact lt_min hi' hi),
      List.getElem_zipWith, List.getD_eq_getElem _ _ hi', List.getD_eq_getElem _ _ hi]
  rw [hNorm hStart, hNorm hStop]

end Plain

/-- `iarray_set_slice_buffer` as a step: what the container is afterwards, and what is returned.
`left` is what a call of Caterva that fails leaves of the array. -/
def setSliceBufferStep (E : Backend) (left : CatArray → CatArray) (c : Container)
    (start stop : List Int) (buffer : Nat → Cell) (buflen : Int) : Container × Result Unit :=
  if c.containerViewed.isSome then (c, inaError .invalidStorage)
  else
    match checkRegion c.catarr.shape (c.setStart start) (c.setStop stop) with
    | .error e => (c, .error e)
    | .ok () =>
      let shape_ := List.zipWith (fun a b => (b - a).toNat) (c.setStart start) (c.setStop stop)
      if buflen < (shape_.prod * c.dtshape.dtypeSize : Nat) then (c, inaError .tooSmallBuffer)
      else
        match E.setSliceBuffer c.catarr buffer shape_ buflen.toNat
          ((c.setStart start).map Int.toNat) ((c.setStop stop).map Int.toNat) with
        | .ok catarr => ({ c with catarr := catarr }, .ok ())
        | .error e => ({ c with catarr := left c.catarr }, .error e)

/-- The step returns what the call returns, and on success the container is its result. -/
theorem setSliceBufferStep_eq (E : Backend) (left : CatArray → CatArray) (c : Container)
    (start stop : List Int) (buffer : Nat → Cell) (buflen : Int) :
    iarraySetSliceBuffer E c start stop buffer buflen =
      (setSliceBufferStep E left c start stop buffer buflen).2.map fun _ =>
        (setSliceBufferStep E left c start stop buffer buflen).1 := by
  unfold iarraySetSliceBuffer setSliceBufferStep
  split
  · rfl
  · cases checkRegion c.catarr.shape (c.setStart start) (c.setStop stop) with
    | error e => rfl
    | ok u =>
      simp only [Result.ok_bind]
      split
      · rfl
      · cases E.setSliceBuffer c.catarr buffer _ buflen.toNat _ _ with
        | error e => rfl
        | ok catarr => rfl

/-- A region without items can be read and written, and writing it changes nothing. -/
structure Backend.EmptyRegions (E : Backend) : Prop where
  getSliceBuffer : ∀ {a : CatArray} {s n : List Nat} (buffer : Nat → Cell) {buflen : Int},
    a.Sized → a.sc.postfilter = none → Region s n a.shape → 0 ∈ n → 0 ≤ buflen →
    ∃ out, E.getSliceBuffer a (ints s) (ints (addIdx s n)) buffer (ints n) buflen = .ok out
  setSliceBuffer : ∀ {a : CatArray} {s n : List Nat} (buffer : Nat → Cell) (buflen : Nat),
    a.Sized → a.sc.postfilter = none → Region s n a.shape → 0 ∈ n →
    ∃ b, E.setSliceBuffer a buffer n buflen s (addIdx s n) = .ok b ∧
      ∀ x c, InBox x a.shape → a.cell x = .ok c → b.cell x = .ok c

/-- A box with an empty side has no index. -/
theorem not_inBox_of_zero {x n : List Nat} (h : 0 ∈ n) : ¬ InBox x n :=
  fun hx => Nat.lt_irrefl 0 (hx.pos 0 h)

/-- Every region inside a plain array can be written. -/
theorem writes_region {E : Backend} (hE : E.Lawful) (hEmpty : E.EmptyRegions) {a : CatArray}
    {itemsize : Nat} {shape s n : List Nat} {st : CatervaStorage} (buffer : Nat → Cell) {buflen : Nat}
    (hFresh : Fresh a itemsize shape st) (hRegion : Region s n a.shape)
    (hLen : n.prod * a.itemsize ≤ buflen) :
    ∃ b, E.setSliceBuffer a buffer n buflen s (addIdx s n) = .ok b ∧
      Fresh b itemsize shape st ∧ Replaced a b s n buffer := by
  have hTotal := SChunk.total_of_postfilter_none hFresh.postfilter
  by_cases hZero : 0 ∈ n
  · obtain ⟨b, hSet, hKeeps⟩ :=
      hEmpty.setSliceBuffer buffer buflen hFresh.sized hFresh.postfilter hRegion hZero
    refine ⟨b, hSet, hE.setSliceBuffer_fresh hFresh hSet, ?_, ?_⟩
    · intro y hy
      exact absurd hy (not_inBox_of_zero hZero)
    · intro x hx _
      exact get_of_cell (hKeeps x _ hx (cell_of_total hTotal hFresh.sized hx))
  · have hPos : ∀ k ∈ n, 0 < k := fun k hk =>
      Nat.pos_of_ne_zero fun hk0 => hZero (hk0 ▸ hk)
    obtain ⟨b, hSet, hIn, hOut⟩ :=
      hE.setSliceBuffer buffer hFresh.sized hFresh.postfilter hRegion hPos hLen
    refine ⟨b, hSet, hE.setSliceBuffer_fresh hFresh hSet, ?_, ?_⟩
    · intro y hy
      exact get_of_cell (hIn y hy)
    · intro x hx hAway
      exact get_of_cell (hOut x _ hx hAway (cell_of_total hTotal hFresh.sized hx))

/-! ## The step -/

namespace Plain

variable {E : Backend} {c : Container} {start stop : List Int}

/-- A region that leaves the container is refused before anything is written. -/
theorem step_outside (h : Plain c) (left : CatArray → CatArray)
    (hStart : start.length = c.dtshape.ndim) (hStop : stop.length = c.dtshape.ndim)
    (hOut : ¬ InWindow start stop c.dtshape.shape) (buffer : Nat → Cell) (buflen : Int) :
    ∃ e, setSliceBufferStep E left c start stop buffer buflen = (c, .error e) := by
  have hView : ¬ c.containerViewed.isSome := by simp [h.containerViewed]
  rw [setSliceBufferStep, if_neg hView]
  cases hCheck : checkRegion c.catarr.shape (c.setStart start) (c.setStop stop) with
  | error e => exact ⟨e, rfl⟩
  | ok u => exact absurd ((h.checkRegion_iff hStart hStop).mp hCheck) hOut

/-- A region inside the container is written if the buffer is large enough. -/
theorem step_inside (hE : E.Lawful) (hEmpty : E.EmptyRegions) (h : Plain c)
    (left : CatArray → CatArray) (hStart : start.length = c.dtshape.ndim)
    (hStop : stop.length = c.dtshape.ndim) (hWindow : InWindow start stop c.dtshape.shape)
    (buffer : Nat → Cell) (buflen : Int) :
    let s := regionStart start c.dtshape.shape
    let n := regionExtent start stop c.dtshape.shape
    if buflen < (n.prod * c.dtshape.dtypeSize : Nat) then
      setSliceBufferStep E left c start stop buffer buflen = (c, inaError .tooSmallBuffer)
    else ∃ b, setSliceBufferStep E left c start stop buffer buflen =
        ({ c with catarr := b }, .ok ()) ∧
      Fresh b c.dtshape.dtypeSize c.dtshape.shape (iarrayCreateCatervaStorage c.storage) ∧
      Replaced c.catarr b s n buffer := by
  intro s n
  have hSel := hWindow.selects hStart hStop
  have hView : ¬ c.containerViewed.isSome := by simp [h.containerViewed]
  have hCheck := (h.checkRegion_iff hStart hStop).mpr hWindow
  have hStarts : (c.setStart start).map Int.toNat = s := by
    rw [h.setStart_eq hStart]
    rfl
  have hStops : (c.setStop stop).map Int.toNat = addIdx s n := by
    rw [h.setStop_eq hStop, hSel.stop]
    exact (List.map_map ..).trans (List.map_id _)
  have hShape : List.zipWith (fun a b => (b - a).toNat) (c.setStart start) (c.setStop stop) = n := by
    rw [h.setStart_eq hStart, h.setStop_eq hStop]
    rfl
  rw [setSliceBufferStep, if_neg hView, hCheck]
  simp only [hShape, hStarts, hStops]
  split
  · rfl
  · rename_i hFits
    have hLen : n.prod * c.catarr.itemsize ≤ buflen.toNat := by
      rw [h.fresh.itemsize]
      omega
    have hRegion : Region s n c.catarr.shape := by
      rw [h.fresh.shape]
      exact hSel.region
    obtain ⟨b, hSet, hFresh, hReplaced⟩ := writes_region hE hEmpty buffer h.fresh hRegion hLen
    exact ⟨b, by rw [hSet], hFresh, hReplaced⟩

end Plain

/-! ## Reading what was written -/

/-- The region selected by `start` and `stop` reads back as `buffer`, and the rest of the
container is as before. -/
structure ReadsBack (E : Backend) (c c' : Container) (start stop : List Int) (buffer : Nat → Cell)
    (s n : List Nat) : Prop where
  selects : Selects start stop c.dtshape.shape s n
  plain : PlainOf c.dtshape c.storage c'
  reads : ∀ (into : Nat → Cell) {len : Int}, (n.prod * c.dtshape.dtypeSize : Nat) ≤ len →
    ∃ out, iarrayGetSliceBuffer E c' start stop into len = .ok out ∧
      ∀ k < n.prod, out k = buffer k
  replaced : Replaced c.catarr c'.catarr s n buffer

/-- A region without items of a plain container is read. -/
theorem Plain.reads_empty {E : Backend} (hEmpty : E.EmptyRegions) {c : Container} (h : Plain c)
    {start stop : List Int} {s n : List Nat} (hSel : Selects start stop c.dtshape.shape s n)
    (hZero : 0 ∈ n) (into : Nat → Cell) {len : Int} (hLen : 0 ≤ len) :
    ∃ out, iarrayGetSliceBuffer E c start stop into len = .ok out := by
  have hs : s.length = c.dtshape.ndim := hSel.region.start_length
  have hn : n.length = c.dtshape.ndim := hSel.region.length
  rw [iarrayGetSliceBuffer]
  split
  · exact ⟨into, rfl⟩
  · have hCall := h.shows.getSliceBuffer_eq (E := E) into len hSel (m := n) (by simp [hn])
      c.containerViewed rfl
    have hProd : n.prod = 0 := List.prod_eq_zero hZero
    rw [hProd, Nat.zero_mul, if_neg (by omega), spread_replicate_false 0 hs,
      spread_replicate_false 1 hn, addIdx_replicate_zero hs] at hCall
    rw [hSel.start, hSel.stop, zipWith_sub_ints (hs.trans hn.symm)]
    obtain ⟨out, hOut⟩ := hEmpty.getSliceBuffer into h.fresh.sized h.fresh.postfilter
      (h.fresh.shape ▸ hSel.region) hZero hLen
    exact ⟨out, hCall.trans hOut⟩

/-- What has been written to a region is read back. -/
theorem readsBack_of_replaced {E : Backend} (hE : E.Lawful) (hEmpty : E.EmptyRegions)
    {c : Container} (h : Plain c) {start stop : List Int} {s n : List Nat}
    (hSel : Selects start stop c.dtshape.shape s n) {buffer : Nat → Cell} {b : CatArray}
    (hFresh : Fresh b c.dtshape.dtypeSize c.dtshape.shape
      (iarrayCreateCatervaStorage c.storage))
    (hReplaced : Replaced c.catarr b s n buffer) :
    ReadsBack E c { c with catarr := b } start stop buffer s n := by
  have hPlain : Plain { c with catarr := b } := h.setArray hFresh
  refine ⟨hSel, ⟨hPlain, rfl, rfl⟩, ?_, hReplaced⟩
  intro into len hLen
  by_cases hZero : 0 ∈ n
  · obtain ⟨out, hOut⟩ := hPlain.reads_empty hEmpty hSel hZero into
      (show 0 ≤ len by omega)
    refine ⟨out, hOut, fun k hk => ?_⟩
    rw [List.prod_eq_zero hZero] at hk
    exact absurd hk (Nat.not_lt_zero k)
  · have hPos : ∀ k ∈ n, 0 < k := fun k hk =>
      Nat.pos_of_ne_zero fun hk0 => hZero (hk0 ▸ hk)
    obtain ⟨out, hOut, hGet⟩ := (hPlain.reads hE).getSliceBuffer into hSel hPos hLen
    refine ⟨out, hOut, fun k hk => ?_⟩
    have hBox := inBox_unflat hk
    rw [← flat_unflat hk, hGet _ hBox]
    exact hReplaced.inside _ hBox

/-- Of a plain container: a region that has been written reads back as written and nothing else
has changed; a call that fails leaves the container as it was, whatever Caterva does; and every
region inside the container is written if the buffer is large enough. -/
theorem setSliceBuffer_reads {E : Backend} (hE : E.Lawful) (hEmpty : E.EmptyRegions)
    {c : Container} (h : Plain c) (left : CatArray → CatArray) {start stop : List Int}
    (hStart : start.length = c.dtshape.ndim) (hStop : stop.length = c.dtshape.ndim)
    (buffer : Nat → Cell) (buflen : Int) :
    ((setSliceBufferStep E left c start stop buffer buflen).2 = .ok () →
      ∃ s n, ReadsBack E c (setSliceBufferStep E left c start stop buffer buflen).1 start stop
        buffer s n) ∧
    ((setSliceBufferStep E left c start stop buffer buflen).2 ≠ .ok () →
      (setSliceBufferStep E left c start stop buffer buflen).1 = c) ∧
    (InWindow start stop c.dtshape.shape →
      ((regionExtent start stop c.dtshape.shape).prod * c.dtshape.dtypeSize : Nat) ≤ buflen →
      (setSliceBufferStep E left c start stop buffer buflen).2 = .ok ()) := by
  by_cases hWindow : InWindow start stop c.dtshape.shape
  · have hStep := h.step_inside hE hEmpty left hStart hStop hWindow buffer buflen
    simp only at hStep
    split at hStep
    · rename_i hSmall
      rw [hStep]
      exact ⟨nofun, fun _ => rfl, fun _ hLarge => absurd hSmall (not_lt.mpr hLarge)⟩
    · obtain ⟨b, hStep, hFresh, hReplaced⟩ := hStep
      have hBack := readsBack_of_replaced hE hEmpty h (hWindow.selects hStart hStop) hFresh
        hReplaced
      rw [hStep]
      exact ⟨fun _ => ⟨_, _, hBack⟩, fun hFails => absurd rfl hFails, fun _ _ => rfl⟩
  · obtain ⟨e, hStep⟩ := h.step_outside (E := E) left hStart hStop hWindow buffer buflen
    rw [hStep]
    exact ⟨nofun, fun _ => rfl, fun hIn => absurd hIn hWindow⟩

namespace Reference

theorem emptyRegions : backend.EmptyRegions where
  getSliceBuffer := by
    intro a s n buffer buflen _ _ hRegion hZero _
    have hLen : s.length = n.length := hRegion.start_length.trans hRegion.length.symm
    have hRead : readable a s n = .ok () :=
      Result.forM_ok fun x hx => absurd (mem_box.mp hx) (not_inBox_of_zero hZero)
    refine ⟨_, by
      simp only [backend, getSliceBuffer, starts_ints, extents_ints hLen, hRead, Result.ok_bind]
      rfl⟩
  setSliceBuffer := by
    intro a s n buffer buflen hSized _ hRegion hZero
    have hLen : s.length = n.length := hRegion.start_length.trans hRegion.length.symm
    have hExtent : List.zipWith (· - ·) (addIdx s n) s = n := within_addIdx hLen
    refine ⟨_, rfl, fun x c hx hc => ?_⟩
    rw [CatArray.cell_ofFn hSized.1 hx, hExtent, if_neg, hc]
    · rfl
    · rintro ⟨_, hIn⟩
      exact not_inBox_of_zero hZero hIn

end Reference

open WindowExample in
/-- The three bytes from the second on, counted from the end. -/
theorem setSliceBuffer_reads_bytes :
    ((setSliceBufferStep Reference.backend id bytes [-3] [4] Cell.bits 3).2 = .ok () →
      ∃ s n, ReadsBack Reference.backend bytes
        (setSliceBufferStep Reference.backend id bytes [-3] [4] Cell.bits 3).1 [-3] [4] Cell.bits
        s n) ∧
    ((setSliceBufferStep Reference.backend id bytes [-3] [4] Cell.bits 3).2 ≠ .ok () →
      (setSliceBufferStep Reference.backend id bytes [-3] [4] Cell.bits 3).1 = bytes) ∧
    (InWindow [-3] [4] bytes.dtshape.shape →
      ((regionExtent [-3] [4] bytes.dtshape.shape).prod * bytes.dtshape.dtypeSize : Nat) ≤
        (3 : Int) →
      (setSliceBufferStep Reference.backend id bytes [-3] [4] Cell.bits 3).2 = .ok ()) := by
  have hPlain : Plain bytes := Reference.plain_plain _ _ (by decide) (by decide)
  exact setSliceBuffer_reads Reference.lawful Reference.emptyRegions hPlain id rfl rfl Cell.bits 3

end IronArray
