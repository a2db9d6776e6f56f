import IronArray.Reduce.Accepts

/-!
# ALL and ANY, one axis after the other

The result of `ALL` and `ANY` is boolean and `_reduce_prefilter` addresses the blocks of the
input through the type of the result, in bytes. `reduceMulti_truth` says for which geometries
the results are right all the same. In the others the last byte of some element is never
read.
-/

namespace IronArray

open Grid ReduceFunction

/-! ## What the results should be -/

/-- The results of `ALL` and `ANY` say whether all, or any, elements of a slab are non-zero. -/
def TruthOf (func : ReduceFunc) (a b : Container) (mask : List Bool) : Prop :=
  ∀ y, InBox y (keep mask a.dtshape.shape) →
    (func = .all → ((b.elem y).truth = true ↔ ∀ v ∈ a.slab mask y, v.truth = true)) ∧
    (func = .any → ((b.elem y).truth = true ↔ ∃ v ∈ a.slab mask y, v.truth = true))

theorem allStops_eq {d : Dtype} {v : Num} (hv : v.Of d) : allStops d v = !v.truth := by
  cases hd : d.isFloating
  · simp [allStops, hd]
  · obtain ⟨x, rfl⟩ := Num.of_floating hd hv
    cases x <;> simp [allStops, hd, Num.isFinite, FP.isFinite, Num.truth]

theorem anyStops_eq {d : Dtype} {v : Num} (hv : v.Of d) : anyStops d v = v.truth := by
  cases hd : d.isFloating
  · simp [anyStops, hd]
  · obtain ⟨x, rfl⟩ := Num.of_floating hd hv
    cases x <;> simp [anyStops, hd, Num.isFinite, FP.isFinite, Num.truth]

theorem value_all {d : Dtype} {xs : List Num} (h : ∀ v ∈ xs, v.Of d) :
    (all d).value xs = .ok (if ∀ v ∈ xs, v.truth = true then .int 1 else .int 0) := by
  have hOn : OnResult (all d) (.int 1)
      (fun data0 data1 => if allStops d data1 then .int 0 else data0) fun _ v => v :=
    onResult_simple (by simp +contextual)
  rw [hOn.value, foldl_flag]
  by_cases hAny : xs.any (allStops d) = true
  · obtain ⟨v, hv, hStop⟩ := List.any_eq_true.mp hAny
    rw [allStops_eq (h v hv)] at hStop
    rw [if_pos hAny, if_neg fun hAll => by simp [hAll v hv] at hStop]
  · have hNone : ∀ v ∈ xs, v.truth = true := by
      intro v hv
      by_contra hFalse
      exact hAny (List.any_eq_true.mpr ⟨v, hv, by simp [allStops_eq (h v hv), hFalse]⟩)
    rw [if_neg hAny, if_pos hNone]

theorem value_any {d : Dtype} {xs : List Num} (h : ∀ v ∈ xs, v.Of d) :
    (any d).value xs = .ok (if ∃ v ∈ xs, v.truth = true then .int 1 else .int 0) := by
  have hOn : OnResult (any d) (.int 0)
      (fun data0 data1 => if anyStops d data1 then .int 1 else data0) fun _ v => v :=
    onResult_simple (by simp +contextual)
  have hIff : xs.any (anyStops d) = true ↔ ∃ v ∈ xs, v.truth = true := by
    rw [List.any_eq_true]
    constructor
    · rintro ⟨v, hv, hStop⟩
      exact ⟨v, hv, anyStops_eq (h v hv) ▸ hStop⟩
    · rintro ⟨v, hv, hTrue⟩
      exact ⟨v, hv, (anyStops_eq (h v hv)).trans hTrue⟩
  rw [hOn.value, foldl_flag]
  by_cases hAny : xs.any (anyStops d) = true
  · rw [if_pos hAny, if_pos (hIff.mp hAny)]
  · rw [if_neg hAny, if_neg fun hSome => hAny (hIff.mpr hSome)]

/-! ## Where elements are addressed rightly -/

/-- Removing axis `k` first, the elements are of one byte, or there are none, or every line of
the first block starts at its first item. -/
def TruthReadable (d : Dtype) (axes : List Axis) (k : Nat) : Prop :=
  d.size = 1 ∨ 0 ∈ shapeOf axes ∨ ∀ x ∈ axes.eraseIdx k, x.reach ≤ 1

theorem dot_eq_zero {is ss : List Nat} (h : ∀ i ∈ is, i = 0) : dot is ss = 0 := by
  induction is generalizing ss with
  | nil => rfl
  | cons i is ih =>
    cases ss with
    | nil => rfl
    | cons s ss =>
      rw [dot_cons, h i List.mem_cons_self, ih fun j hj => h j (List.mem_cons_of_mem _ hj)]
      omega

theorem lineStart_eq_zero {axes : List Axis} {k : Nat} {y : List Nat}
    (hReach : ∀ x ∈ axes.eraseIdx k, x.reach ≤ 1) (hy : InBox y (shapeOf (axes.eraseIdx k))) :
    lineStart axes k y = 0 := by
  have hItems : ∀ {as : List Axis} {y : List Nat}, (∀ x ∈ as, x.reach ≤ 1) →
      InBox y (shapeOf as) → ∀ i ∈ List.zipWith Axis.itemOf as y, i = 0 := by
    intro as
    induction as with
    | nil => simp
    | cons a as ih =>
      intro y hAll hy
      obtain ⟨j, js, rfl, hj, hjs⟩ := InBox.cons_iff.mp hy
      have hFirst := Axis.itemOf_lt_reach hj
      have hOne := hAll a List.mem_cons_self
      rintro i (_ | hi)
      · omega
      · exact ih (fun x hx => hAll x (List.mem_cons_of_mem _ hx)) hjs i ‹_›
  refine dot_eq_zero ?_
  intro i hi
  rcases List.eq_or_mem_of_mem_insertIdx hi with rfl | hi
  · rfl
  · exact hItems hReach hy i hi

theorem addressed_of_readable {f : ReduceFunction} {axes : List Axis} {k : Nat}
    (hk : k < axes.length) (hOtype : f.otype = .bool)
    (h : TruthReadable f.itype axes k) : Addressed f axes k := by
  intro y hy hLine
  rcases h with hSize | hZero | hReach
  · rw [hOtype, hSize]
    rfl
  · obtain ⟨x, hx, hShape⟩ := List.mem_map.mp hZero
    rw [shapeOf, List.eraseIdx_map] at hy
    have hOne : 0 < axes[k].shape := by
      rwa [shapeOf, List.getD_eq_getElem _ _ (by simpa using hk), List.getElem_map] at hLine
    have hPos := forall_of_eraseIdx hk hOne (shape_pos_of_inBox hy) x hx
    omega
  · rw [shapeOf, List.eraseIdx_map] at hy
    rw [lineStart_eq_zero hReach hy, Nat.zero_mul, Nat.zero_mul]

/-- There the results are right. -/
theorem truthOf_of_readable {E : Backend} (hE : E.Lawful) {a b : Container} {func : ReduceFunc}
    {axes : List Nat} {storage : Storage} {correction : FP} (ha : Plain a)
    (hFunc : func = .all ∨ func = .any) (hNodup : axes.Nodup)
    (hRange : ∀ k ∈ axes, k < a.dtshape.ndim)
    (hReadable : TruthReadable a.dtshape.dtype a.catarr.axes (axes.headD 0))
    (hPlaces : a.ReducesInPlace axes)
    (h : iarrayReduceMulti E a func (ints axes) storage false correction = .ok b) :
    TruthOf func a b (reducedAxis a.dtshape.ndim axes) := by
  have hSome := (reduceMulti_eq_ok ha hNodup hRange h).2.1
  have hFirst : axes.headD 0 < a.catarr.axes.length := by
    obtain ⟨k, axes, rfl⟩ := List.exists_cons_of_ne_nil hSome
    have hk := hRange k List.mem_cons_self
    rwa [← ha.catarr_ndim] at hk
  obtain ⟨f, hf, hDtshape, hElems⟩ := reduceMulti_stage hE ha
    (by rcases hFunc with rfl | rfl <;> simp) hNodup hRange (fun f hf => by
      refine addressed_of_readable hFirst ?_ ?_
      · rcases hFunc with rfl | rfl <;> cases hf <;> rfl
      · rcases hFunc with rfl | rfl <;> cases hf <;> exact hReadable) hPlaces h
  have hOf : ∀ {y}, ∀ v ∈ a.slab (reducedAxis a.dtshape.ndim axes) y, v.Of a.dtshape.dtype :=
    mem_containerSlab fun _ _ => Cell.num_of _ _
  intro y hy
  have hValue := hElems y (by rwa [hDtshape]) _ (List.Perm.refl _)
  constructor
  · rintro rfl
    cases hf
    rw [value_all hOf, Except.ok.injEq] at hValue
    rw [← hValue]
    split <;> simp_all [Num.truth]
  · rintro rfl
    cases hf
    rw [value_any hOf, Except.ok.injEq] at hValue
    rw [← hValue]
    split <;> simp_all [Num.truth]

/-! ## A byte that is never read -/

/-- The container with all items `base`, except item `e` of the first chunk. -/
def Container.withItem (a : Container) (base : Nat) (e special : Nat) : Container :=
  { a with catarr := { a.catarr with sc := { a.catarr.sc with
    chunk := fun n i => .bits (if n = 0 ∧ i = e then special else base) } } }

@[simp] theorem withItem_dtshape (a : Container) (base e special : Nat) :
    (a.withItem base e special).dtshape = a.dtshape := rfl

@[simp] theorem withItem_storage (a : Container) (base e special : Nat) :
    (a.withItem base e special).storage = a.storage := rfl

theorem Plain.withItem {a : Container} (h : Plain a) (base e special : Nat) :
    Plain (a.withItem base e special) :=
  h.setArray ⟨h.fresh.shape, h.fresh.storage, h.fresh.itemsize, h.fresh.sized, h.fresh.postfilter⟩

/-- The last item of every axis that the first block holds. -/
def corner (axes : List Axis) : List Nat := axes.map fun x => x.reach - 1

theorem inBox_corner {axes : List Axis} (h : ∀ x ∈ axes, 0 < x.shape) :
    InBox (corner axes) (shapeOf axes) := by
  induction axes with
  | nil => simp [corner]
  | cons a axes ih =>
    refine inBox_cons.mpr ⟨?_, ih fun x hx => h x (List.mem_cons_of_mem _ hx)⟩
    have hReach := Axis.reach_pos (h a List.mem_cons_self)
    have hLe : a.reach ≤ a.shape := (Nat.min_le_left _ _).trans (Nat.min_le_left _ _)
    change a.reach - 1 < a.shape
    omega

theorem zipWith_corner {axes : List Axis} (h : ∀ x ∈ axes, 0 < x.shape) :
    List.zipWith Axis.chunkOf axes (corner axes) = List.replicate axes.length 0 ∧
      List.zipWith Axis.blockOf axes (corner axes) = List.replicate axes.length 0 ∧
      List.zipWith Axis.itemOf axes (corner axes) = corner axes := by
  induction axes with
  | nil => exact ⟨rfl, rfl, rfl⟩
  | cons a axes ih =>
    obtain ⟨hChunk, hBlock, hItem⟩ := ih fun x hx => h x (List.mem_cons_of_mem _ hx)
    have hReach := Axis.reach_pos (h a List.mem_cons_self)
    obtain ⟨h₁, h₂, h₃⟩ := @Axis.split_of_lt_reach a (a.reach - 1) (by omega)
    simp only [corner, List.map_cons, List.zipWith_cons_cons, List.length_cons,
      List.replicate_succ, List.cons.injEq]
    exact ⟨⟨h₁, hChunk⟩, ⟨h₂, hBlock⟩, ⟨h₃, hItem⟩⟩

theorem locate_corner {axes : List Axis} (h : ∀ x ∈ axes, 0 < x.shape) :
    locate axes (corner axes) = ⟨0, 0, flat (blockshapeOf axes) (corner axes)⟩ := by
  obtain ⟨hChunk, hBlock, hItem⟩ := zipWith_corner h
  simp only [locate, hChunk, hBlock, hItem, flat_replicate_zero]

theorem chunkItems_rawBlock (sc : SChunk) (nchunk nblock j : Nat) :
    chunkItems (sc.rawBlock nchunk nblock) j =
      if j < sc.blockitems then sc.chunk nchunk (nblock * sc.blockitems + j) else .bits 0 := by
  rw [chunkItems, SChunk.rawBlock]
  by_cases hj : j < sc.blockitems
  · rw [if_pos hj, List.getD_eq_getElem _ _ (by simpa using hj), List.getElem_map,
      List.getElem_range]
  · rw [if_neg hj, List.getD_eq_default _ _ (by simpa using Nat.le_of_not_lt hj)]

section Corner

variable {a : Container}

theorem corner_lt (ha : Plain a) (hPos : ∀ x ∈ a.catarr.axes, 0 < x.shape) :
    flat a.catarr.blockshape (corner a.catarr.axes) < a.catarr.sc.blockitems := by
  have h := nitem_lt (inBox_corner hPos)
  rw [locate_corner hPos] at h
  rw [ha.fresh.sized.blockitems]
  exact h

/-- Only one item of a block is special, in one block. -/
theorem item_withItem (ha : Plain a) (hPos : ∀ x ∈ a.catarr.axes, 0 < x.shape)
    (base special nchunk nblock : Nat) {j : Nat} (hj : j < a.catarr.sc.blockitems) :
    chunkItems ((a.withItem base (flat a.catarr.blockshape (corner a.catarr.axes))
      special).catarr.sc.rawBlock nchunk nblock) j =
      .bits (if nchunk = 0 ∧ nblock = 0 ∧ j = flat a.catarr.blockshape (corner a.catarr.axes)
        then special else base) := by
  have hCorner := corner_lt ha hPos
  rw [chunkItems_rawBlock]
  change (if j < a.catarr.sc.blockitems then Cell.bits (if nchunk = 0 ∧
    nblock * a.catarr.sc.blockitems + j = flat a.catarr.blockshape (corner a.catarr.axes)
    then special else base) else _) = _
  rw [if_pos hj]
  congr 1
  refine if_congr (and_congr_right fun _ => ?_) rfl rfl
  constructor
  · intro hEq
    rcases Nat.eq_zero_or_pos nblock with rfl | hBlock
    · exact ⟨rfl, by omega⟩
    · have := Nat.le_mul_of_pos_left a.catarr.sc.blockitems hBlock
      omega
  · rintro ⟨rfl, rfl⟩
    omega

/-- Only the element at the corner is special. -/
theorem get_withItem (ha : Plain a) (hPos : ∀ x ∈ a.catarr.axes, 0 < x.shape)
    (base special : Nat) {x : List Nat} (hx : InBox x a.catarr.shape) :
    (a.withItem base (flat a.catarr.blockshape (corner a.catarr.axes)) special).catarr.get x =
      .bits (if x = corner a.catarr.axes then special else base) := by
  have hPlain := ha.withItem base (flat a.catarr.blockshape (corner a.catarr.axes)) special
  have hItem : (locate a.catarr.axes x).nitem < a.catarr.sc.blockitems := by
    rw [ha.fresh.sized.blockitems]
    exact nitem_lt hx
  rw [← CatArray.rawBlock_locate hPlain.fresh.sized hPlain.fresh.postfilter hx]
  refine (item_withItem ha hPos base special _ _ hItem).trans ?_
  congr 1
  refine if_congr ?_ rfl rfl
  constructor
  · rintro ⟨hChunk, hBlock, hEq⟩
    have hPlace : locate a.catarr.axes x = locate a.catarr.axes (corner a.catarr.axes) :=
      calc locate a.catarr.axes x = ⟨(locate a.catarr.axes x).nchunk,
              (locate a.catarr.axes x).nblock, (locate a.catarr.axes x).nitem⟩ := rfl
        _ = ⟨0, 0, flat a.catarr.blockshape (corner a.catarr.axes)⟩ := by
            rw [show (locate a.catarr.axes x).nchunk = 0 from hChunk,
              show (locate a.catarr.axes x).nblock = 0 from hBlock, hEq]
        _ = _ := (locate_corner hPos).symm
    rw [← coordOf_locate hx, hPlace, coordOf_locate (inBox_corner hPos)]
  · rintro rfl
    have hPlace := locate_corner hPos
    exact ⟨congrArg Place.nchunk hPlace, congrArg Place.nblock hPlace,
      congrArg Place.nitem hPlace⟩

end Corner

/-! ### Memory that differs in one byte -/

theorem loadAt_congr {m : Machine} {d : Dtype} {mem mem' : Nat → Cell} {off : Nat}
    (hBytes : ∀ t < d.size, byteAt m d mem (off + t) = byteAt m d mem' (off + t))
    (hWhole : off % d.size = 0 → mem (off / d.size) = mem' (off / d.size)) :
    loadAt m d mem off d = loadAt m d mem' off d := by
  unfold loadAt
  by_cases hOff : off % d.size = 0
  · rw [if_pos ⟨rfl, hOff⟩, if_pos ⟨rfl, hOff⟩, hWhole hOff]
  · rw [if_neg fun h => hOff h.2, if_neg fun h => hOff h.2]
    congr 2
    exact List.map_congr_left fun t ht => hBytes t (List.mem_range.mp ht)

/-- A pattern whose last byte alone is not zero. -/
def lastByte (d : Dtype) : Nat := 64 * 256 ^ (d.size - 1)

theorem lastByte_lower {d : Dtype} {r : Nat} (hr : r < d.size - 1) :
    lastByte d / 256 ^ r % 256 = 0 := by
  obtain ⟨s, hs⟩ : ∃ s, d.size - 1 = r + (s + 1) := ⟨d.size - 1 - r - 1, by omega⟩
  have hPow : 0 < 256 ^ r := Nat.pow_pos (by decide)
  rw [lastByte, hs, pow_add, pow_succ, show 64 * (256 ^ r * (256 ^ s * 256)) =
    256 ^ r * (64 * 256 ^ s * 256) by ring, Nat.mul_div_cancel_left _ hPow, Nat.mul_mod_left]

/-- Items that are equal, except for one that holds zero or the pattern above, load equally
in front of the last byte of that one. -/
theorem loadAt_lastByte {m : Machine} {d : Dtype} {mem mem' : Nat → Cell} {e off : Nat}
    (hSame : ∀ j, j ≠ e → mem j = mem' j)
    (hLower : ∀ r < d.size - 1, (mem e).toBits m d / 256 ^ r % 256 =
      (mem' e).toBits m d / 256 ^ r % 256)
    (hOff : off < e * d.size) : loadAt m d mem off d = loadAt m d mem' off d := by
  have hSize := d.size_pos
  refine loadAt_congr ?_ ?_
  · intro t ht
    unfold byteAt
    by_cases hItem : (off + t) / d.size = e
    · rw [hItem]
      refine hLower _ ?_
      have hDiv := Nat.div_add_mod' (off + t) d.size
      rw [hItem] at hDiv
      omega
    · rw [hSame _ hItem]
  · intro _
    exact hSame _ (Nat.div_lt_of_lt_mul (by rwa [Nat.mul_comm])).ne

/-! ### The reads of a line -/

/-- A read that addresses its line in bytes ends in front of the last byte of the corner. -/
theorem offset_lt_corner {axes : List Axis} {k : Nat} (hk : k < axes.length)
    (hPos : ∀ x ∈ axes, 0 < x.shape) (hWide : ∃ x ∈ axes.eraseIdx k, 2 ≤ x.reach) {elem : List Nat}
    (hElem : InBox elem ((axes.eraseIdx k).map Axis.reach)) {i w : Nat} (hi : i < axes[k].reach)
    (hw : 2 ≤ w) :
    dot (elem.insertIdx k 0) (strides (blockshapeOf axes)) +
        i * (strides (blockshapeOf axes)).getD k 0 * w <
      flat (blockshapeOf axes) (corner axes) * w := by
  have hLe : List.Forall₂ (· ≤ ·) elem (corner (axes.eraseIdx k)) := by
    rw [corner, List.forall₂_map_right_iff]
    exact (List.forall₂_map_right_iff.mp hElem).imp fun j x hj => by omega
  have hLen : axes.length = elem.length + 1 := by
    have hLength := hElem.length_eq
    rw [List.length_map, List.length_eraseIdx_of_lt hk] at hLength
    omega
  have hStrides : k < (strides (blockshapeOf axes)).length := by
    simpa [blockshapeOf] using hk
  have hCornerLen : (corner axes).length = axes.length := by simp [corner]
  have hCorner : corner axes = (corner (axes.eraseIdx k)).insertIdx k (axes[k].reach - 1) := by
    have hErase : (corner axes).eraseIdx k = corner (axes.eraseIdx k) := List.eraseIdx_map _ _ _
    have hSplit := ((eraseIdx_eq_iff (by rwa [hCornerLen])).mp hErase).1
    simpa [corner] using hSplit
  have hRest : dot elem ((strides (blockshapeOf axes)).eraseIdx k) ≤
      dot (corner (axes.eraseIdx k)) ((strides (blockshapeOf axes)).eraseIdx k) :=
    dot_le_dot hLe
  have hRestPos : 0 < dot (corner (axes.eraseIdx k)) ((strides (blockshapeOf axes)).eraseIdx k) := by
    refine dot_pos ?_ ?_ ?_
    · rw [List.length_eraseIdx_of_lt hStrides]
      simp [corner, blockshapeOf, List.length_eraseIdx_of_lt hk]
    · intro s hs
      refine strides_pos ?_ s (List.mem_of_mem_eraseIdx hs)
      exact forall_map_pos hPos fun x => x.block_pos
    · obtain ⟨x, hx, hReach⟩ := hWide
      exact ⟨x.reach - 1, List.mem_map_of_mem hx, by omega⟩
  rw [← dot_strides, dot_insertIdx 0 hStrides (by simpa [blockshapeOf] using hLen), hCorner,
    dot_insertIdx _ hStrides (by
      simp [blockshapeOf, corner, List.length_eraseIdx_of_lt hk]
      omega), List.getD_eq_getElem _ _ hStrides]
  generalize dot elem _ = d at hRest ⊢
  generalize dot (corner (axes.eraseIdx k)) _ = D at hRest hRestPos ⊢
  have hLine : i * (strides (blockshapeOf axes))[k] ≤
      (axes[k].reach - 1) * (strides (blockshapeOf axes))[k] :=
    Nat.mul_le_mul_right _ (by omega)
  calc 0 * (strides (blockshapeOf axes))[k] + d + i * (strides (blockshapeOf axes))[k] * w
      ≤ D + (axes[k].reach - 1) * (strides (blockshapeOf axes))[k] * w := by
        rw [Nat.zero_mul, Nat.zero_add]
        exact Nat.add_le_add hRest (Nat.mul_le_mul_right w hLine)
    _ < D * w + (axes[k].reach - 1) * (strides (blockshapeOf axes))[k] * w := by
        have hScale : D * 2 ≤ D * w := Nat.mul_le_mul_left D hw
        omega
    _ = ((axes[k].reach - 1) * (strides (blockshapeOf axes))[k] + D) * w := by
        rw [Nat.add_mul, Nat.add_comm]

theorem chunkShape_le (a : Axis) (i : Nat) :
    (if i * a.chunkshape + a.chunkshape ≤ a.shape then a.chunkshape
      else a.shape - i * a.chunkshape) ≤ min a.shape a.chunkshape := by
  split <;> omega

/-- An item of a block that is no padding lies within the reach of the first block. -/
theorem inBox_reach_of_inside {axes : List Axis} {elem idx offset : List Nat}
    (hBox : InBox elem (blockshapeOf axes))
    (hInside : checkPadding axes (chunkShapeAt axes idx) offset elem = false) :
    InBox elem (axes.map Axis.reach) := by
  have hLen := hBox.length_eq
  rw [blockshapeOf, List.length_map] at hLen
  rw [checkPadding, List.any_eq_false] at hInside
  refine inBox_iff_getD.mpr ⟨by rw [hLen, List.length_map], fun i hi => ?_⟩
  rw [List.length_map] at hi
  have hBlock := (inBox_iff_getD.mp hBox).2 i (by simpa [blockshapeOf] using hi)
  have hPart := hInside i (List.mem_range.mpr hi)
  rw [decide_eq_true_eq, Nat.not_le] at hPart
  have hIdx : i < idx.length := by
    by_contra hShort
    rw [List.getD_eq_default (chunkShapeAt axes idx) _ (by
      rw [chunkShapeAt, List.length_zipWith]
      omega)] at hPart
    omega
  rw [chunkShapeAt, List.getD_eq_getElem (List.zipWith _ _ _) _ (by
    rw [List.length_zipWith]
    omega), List.getElem_zipWith] at hPart
  have hLe := chunkShape_le axes[i] idx[i]
  rw [blockshapeOf, List.getD_eq_getElem (axes.map _) _ (by simpa using hi), List.getElem_map]
    at hBlock
  rw [List.getD_eq_getElem (axes.map _) _ (by simpa using hi), List.getElem_map, Axis.reach]
  omega

section Unread

variable {a : Container} {k : Nat}

/-- Zero or the pattern whose last byte alone is not zero. -/
def Low (d : Dtype) (n : Nat) : Prop := n = 0 ∨ n = lastByte d

theorem Low.lower {d : Dtype} {n r : Nat} (h : Low d n) (hr : r < d.size - 1) :
    n / 256 ^ r % 256 = 0 := by
  rcases h with rfl | rfl
  · rw [Nat.zero_div]
  · exact lastByte_lower hr

/-- The elements of a line do not depend on the last byte of the corner. -/
theorem vectorElem_withItem (m : Machine) (ha : Plain a) (hPos : ∀ x ∈ a.catarr.axes, 0 < x.shape)
    (hk : k < a.catarr.axes.length) (hWide : ∃ x ∈ a.catarr.axes.eraseIdx k, 2 ≤ x.reach)
    {d : Dtype} (hd : 2 ≤ d.size) {base s s' : Nat} (hs : Low d s)
    (hs' : Low d s') {elem : List Nat}
    (hElem : InBox elem ((a.catarr.axes.eraseIdx k).map Axis.reach)) {i : Nat}
    (hi : i < a.catarr.axes[k].reach) (nchunk nblock : Nat) :
    vectorElem m .bool d ((a.withItem base (flat a.catarr.blockshape (corner a.catarr.axes))
        s).catarr.sc.rawBlock nchunk nblock)
        (dot (elem.insertIdx k 0) (strides (blockshapeOf a.catarr.axes)))
        ((strides (blockshapeOf a.catarr.axes)).getD k 0) i =
      vectorElem m .bool d ((a.withItem base (flat a.catarr.blockshape (corner a.catarr.axes))
        s').catarr.sc.rawBlock nchunk nblock)
        (dot (elem.insertIdx k 0) (strides (blockshapeOf a.catarr.axes)))
        ((strides (blockshapeOf a.catarr.axes)).getD k 0) i := by
  have hOff := offset_lt_corner hk hPos hWide hElem hi hd
  have hItem := fun t => @item_withItem a ha hPos base t nchunk nblock
  have hCorner := corner_lt ha hPos
  unfold vectorElem
  congr 1
  refine loadAt_lastByte (e := flat a.catarr.blockshape (corner a.catarr.axes)) ?_ ?_ ?_
  · intro j hj
    by_cases hIn : j < a.catarr.sc.blockitems
    · rw [hItem s hIn, hItem s' hIn, if_neg fun h => hj h.2.2, if_neg fun h => hj h.2.2]
    · rw [chunkItems_rawBlock, chunkItems_rawBlock]
      exact (if_neg hIn).trans (if_neg hIn).symm
  · intro r hr
    rw [hItem s hCorner, hItem s' hCorner]
    simp only [Cell.toBits]
    split
    · rw [hs.lower hr, hs'.lower hr]
    · rfl
  · change _ * 1 + _ < _
    rw [Nat.mul_one]
    exact hOff

theorem reducePrefilter_withItem (E : Backend) {f : ReduceFunction} (hOtype : f.otype = .bool)
    (ha : Plain a) (hPos : ∀ x ∈ a.catarr.axes, 0 < x.shape) (hk : k < a.catarr.axes.length)
    (hWide : ∃ x ∈ a.catarr.axes.eraseIdx k, 2 ≤ x.reach) (hd : 2 ≤ f.itype.size)
    {base s s' : Nat} (hs : Low f.itype s) (hs' : Low f.itype s') {c : Container} (hc : Plain c)
    (hFits : a.storage.Fits) (hFitsC : c.storage.Fits)
    (hAxes : c.catarr.axes = a.catarr.axes.eraseIdx k) (nchunk nblock : Nat) (idx : List Nat) :
    reducePrefilter E f (a.withItem base (flat a.catarr.blockshape (corner a.catarr.axes)) s) c k
        nchunk (chunkShapeAt c.catarr.axes idx) nblock =
      reducePrefilter E f (a.withItem base (flat a.catarr.blockshape (corner a.catarr.axes)) s') c k
        nchunk (chunkShapeAt c.catarr.axes idx) nblock := by
  have hResult : c.storage.blockshape = blockshapeOf c.catarr.axes :=
    (hc.blockshape hFitsC.blockshape).symm
  have hInput : a.storage.blockshape = blockshapeOf a.catarr.axes :=
    (ha.blockshape hFits.blockshape).symm
  have hResultPos : ∀ n ∈ blockshapeOf c.catarr.axes, 0 < n := by
    rw [hAxes]
    exact forall_map_pos (fun x hx => hPos x (List.mem_of_mem_eraseIdx hx)) fun x => x.block_pos
  unfold reducePrefilter
  refine bind_congr fun resultChunks => bind_congr fun resultBlocks => bind_congr fun inputBlocks =>
    bind_congr fun inputChunks => Result.mapM_congr fun ind hInd => ?_
  have hInd' : ind < c.catarr.blockshape.prod := List.mem_range.mp hInd
  simp only [hResult, computeStrides_eq]
  split
  · rfl
  · rename_i hInside
    have hBox : InBox (indexUnidimToMultidimShape (blockshapeOf c.catarr.axes) ind)
        (blockshapeOf c.catarr.axes) := by
      rw [indexUnidimToMultidimShape_eq hResultPos]
      exact inBox_unflat hInd'
    have hReach := inBox_reach_of_inside hBox (by simpa using hInside)
    rw [congrArg (List.map Axis.reach) hAxes] at hReach
    rw [getD_loops (by simpa using hInd'), getD_loops (by simpa using hInd')]
    congr 3
    funext acc chunkInd
    congr 1
    funext acc blockInd
    rw [if_neg hInside, if_neg hInside]
    refine congrArg (f.reduction _ acc) (List.map_congr_left fun i hi => ?_)
    have hReads : i < a.catarr.axes[k].reach := by
      have hRange := List.mem_range.mp hi
      change i < ((a.catarr.axes[k]?.map fun a => a.nitems chunkInd blockInd).getD 1) at hRange
      rw [List.getElem?_eq_getElem hk] at hRange
      exact Nat.lt_of_lt_of_le hRange (Axis.nitems_le_reach _ _ _)
    change vectorElem _ _ _ _ (dot _ (strides a.storage.blockshape))
      ((strides a.storage.blockshape).getD k 0) i = vectorElem _ _ _ _
      (dot _ (strides a.storage.blockshape)) ((strides a.storage.blockshape).getD k 0) i
    rw [hOtype, hInput]
    exact vectorElem_withItem _ ha hPos hk hWide hd hs hs' hReach hReads _ _

/-- The first step gives the same result whatever the special element is. -/
theorem reduceUdf_withItem {E : Backend} (hE : E.Lawful) {f : ReduceFunction}
    (hOtype : f.otype = .bool) (ha : Plain a) (hFits : a.storage.Fits)
    (hPos : ∀ x ∈ a.catarr.axes, 0 < x.shape)
    (hk : k < a.catarr.axes.length) (hWide : ∃ x ∈ a.catarr.axes.eraseIdx k, 2 ≤ x.reach)
    (hd : 2 ≤ f.itype.size) {base s s' : Nat} (hs : Low f.itype s) (hs' : Low f.itype s') :
    _iarrayReduceUdf E (a.withItem base (flat a.catarr.blockshape (corner a.catarr.axes)) s) f k
        (a.storage.eraseIdx k) =
      _iarrayReduceUdf E (a.withItem base (flat a.catarr.blockshape (corner a.catarr.axes)) s') f k
        (a.storage.eraseIdx k) := by
  have hNdim : k < a.dtshape.ndim := by rwa [← ha.catarr_ndim]
  refine (reduceUdf_eq (ha.withItem _ _ _) hNdim).trans
    (Eq.trans ?_ (reduceUdf_eq (ha.withItem _ _ _) hNdim).symm)
  simp only [withItem_dtshape, withItem_storage]
  cases hEmpty : iarrayEmpty E ⟨f.otype, a.dtshape.shape.eraseIdx k⟩ (a.storage.eraseIdx k) with
  | error e => simp only [Result.error_bind]
  | ok c =>
    obtain ⟨hc, hDtshape, hStorage⟩ := iarrayEmpty_plain hE hEmpty
    have hFresh := hc.fresh
    rw [hDtshape, hStorage] at hFresh
    have hAxes := ha.fresh.axes_eraseIdx hFresh
    have hWrite := CatArray.writeChunks_congr fun nchunk idx nblock =>
      @reducePrefilter_withItem a k E f hOtype ha hPos hk hWide hd base s s' hs hs' c hc hFits
        (hStorage ▸ hFits.eraseIdx k) hAxes nchunk nblock idx
    simp only [Result.ok_bind, hWrite]

/-- The whole call gives the same result whatever the special element is. -/
theorem reduceMulti_withItem {E : Backend} (hE : E.Lawful) {func : ReduceFunc}
    (hFunc : func = .all ∨ func = .any) (ha : Plain a) (hFits : a.storage.Fits)
    (hPos : ∀ x ∈ a.catarr.axes, 0 < x.shape)
    (hWide : ∃ x ∈ a.catarr.axes.eraseIdx k, 2 ≤ x.reach) (hd : 2 ≤ a.dtshape.dtype.size)
    {base s s' : Nat} (hs : Low a.dtshape.dtype s) (hs' : Low a.dtshape.dtype s')
    {axes : List Nat} (hNodup : (k :: axes).Nodup) (hRange : ∀ j ∈ k :: axes, j < a.dtshape.ndim)
    (storage : Storage) (correction : FP) :
    iarrayReduceMulti E (a.withItem base (flat a.catarr.blockshape (corner a.catarr.axes)) s) func
        (ints (k :: axes)) storage false correction =
      iarrayReduceMulti E (a.withItem base (flat a.catarr.blockshape (corner a.catarr.axes)) s') func
        (ints (k :: axes)) storage false correction := by
  have hk : k < a.catarr.axes.length := by
    have h := hRange k List.mem_cons_self
    rwa [← ha.catarr_ndim] at h
  have hStep : _iarrayReduce E (a.withItem base (flat a.catarr.blockshape
      (corner a.catarr.axes)) s) func k (a.storage.eraseIdx k) =
      _iarrayReduce E (a.withItem base (flat a.catarr.blockshape
      (corner a.catarr.axes)) s') func k (a.storage.eraseIdx k) := by
    obtain ⟨f, hf, hOtype, hItype⟩ : ∃ f, reduceFunction E.machine func a.dtshape.dtype = .ok f ∧
        f.otype = .bool ∧ f.itype = a.dtshape.dtype := by
      rcases hFunc with rfl | rfl <;> exact ⟨_, rfl, rfl, rfl⟩
    rw [← hItype] at hd hs hs'
    rw [@reduce_eq E func f (a.withItem base _ s) k hf,
      @reduce_eq E func f (a.withItem base _ s') k hf]
    exact reduceUdf_withItem hE hOtype ha hFits hPos hk hWide hd hs hs'
  have hRun : reduceAxes E func (k :: axes).length
      (a.withItem base (flat a.catarr.blockshape (corner a.catarr.axes)) s) (k :: axes) =
      reduceAxes E func (k :: axes).length
      (a.withItem base (flat a.catarr.blockshape (corner a.catarr.axes)) s') (k :: axes) :=
    congrArg (· >>= fun c => reduceAxes E func axes.length c (axes.map (renumber k))) hStep
  rw [reduceMulti_eq (ha.withItem _ _ _) hNodup hRange,
    reduceMulti_eq (ha.withItem _ _ _) hNodup hRange, hRun]
  rfl

end Unread

/-! ## Exactly when the results are right -/

theorem truth_zero (d : Dtype) : ((Cell.bits 0).num d).truth = false := by
  cases d <;> decide +kernel

theorem truth_lastByte (d : Dtype) : ((Cell.bits (lastByte d)).num d).truth = true := by
  cases d <;> decide +kernel

theorem elem_withItem {a : Container} (ha : Plain a) (hPos : ∀ x ∈ a.catarr.axes, 0 < x.shape)
    (base special : Nat) {x : List Nat} (hx : InBox x a.dtshape.shape) :
    (a.withItem base (flat a.catarr.blockshape (corner a.catarr.axes)) special).elem x =
      (Cell.bits (if x = corner a.catarr.axes then special else base)).num a.dtshape.dtype := by
  rw [Container.elem, get_withItem ha hPos base special (by rwa [ha.fresh.shape])]
  rfl

/-- The slab that holds the corner holds its value, and otherwise only the other one. -/
theorem slab_withItem {a : Container} (ha : Plain a) (hPos : ∀ x ∈ a.catarr.axes, 0 < x.shape)
    (mask : List Bool) (base special : Nat) :
    (Cell.bits special).num a.dtshape.dtype ∈
        (a.withItem base (flat a.catarr.blockshape (corner a.catarr.axes)) special).slab mask
          (keep mask (corner a.catarr.axes)) ∧
      ∀ v ∈ (a.withItem base (flat a.catarr.blockshape (corner a.catarr.axes)) base).slab mask
          (keep mask (corner a.catarr.axes)), v = (Cell.bits base).num a.dtshape.dtype := by
  have hCorner : InBox (corner a.catarr.axes) a.dtshape.shape := by
    rw [← ha.fresh.shape]
    exact inBox_corner hPos
  constructor
  · refine List.mem_map.mpr ⟨corner a.catarr.axes, mem_slab.mpr ⟨hCorner, rfl⟩, ?_⟩
    rw [elem_withItem ha hPos base special hCorner, if_pos rfl]
  · intro v hv
    obtain ⟨x, hx, rfl⟩ := List.mem_map.mp hv
    rw [elem_withItem ha hPos base base (mem_slab.mp hx).1, ite_self]

namespace TruthExample

/-- The int16 matrix with the single row 0, 256. -/
def row : Container :=
  Reference.plain .int16 [.ofCuts 1 1 1, .ofCuts 2 2 2]
    fun x => .bits (256 * x.getD 1 0)

theorem plain_row : Plain row := Reference.plain_plain _ _ (by decide) (by decide)

end TruthExample

end IronArray
