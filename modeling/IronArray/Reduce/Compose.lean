import IronArray.Reduce.Accepts

/-!
# Reductions of reductions

Reducing an array along some axes, and the result along others, is reducing it along all of them:
`reduceMulti_again`. The elements are given by masks, so the order of the axes and the partitions of
the arrays do not matter either.
-/

namespace Grid

/-! ## Masks in two steps -/

theorem mem_keptIdx {bs : List Bool} {i : Nat} :
    i ∈ keptIdx bs ↔ i < bs.length ∧ bs.getD i true = false := by
  induction bs generalizing i with
  | nil => simp [keptIdx]
  | cons b bs ih =>
    cases b <;> cases i <;> simp [keptIdx, ih]

theorem nodup_keptIdx (bs : List Bool) : (keptIdx bs).Nodup := by
  induction bs with
  | nil => exact List.nodup_nil
  | cons b bs ih =>
    have hShift := ih.map (Nat.succ_injective)
    cases b with
    | true => exact hShift
    | false => exact List.nodup_cons.mpr ⟨by simp, hShift⟩

/-- A marked position stays marked. -/
theorem compose_marked {bs ms : List Bool} {i : Nat} (h : bs.getD i false = true) :
    (compose bs ms).getD i false = true := by
  induction bs generalizing ms i with
  | nil => simp at h
  | cons b bs ih =>
    cases b with
    | true =>
      cases i with
      | zero => rfl
      | succ i => exact ih h
    | false =>
      cases i with
      | zero => simp at h
      | succ i => cases ms <;> exact ih h

/-- A position that is left is marked as the second mask says. -/
theorem compose_kept {bs ms : List Bool} (hLen : ms.length = bs.count false) {j i : Nat}
    (h : (keptIdx bs)[j]? = some i) : (compose bs ms).getD i false = ms.getD j false := by
  induction bs generalizing ms i j with
  | nil => simp [keptIdx] at h
  | cons b bs ih =>
    cases b with
    | true =>
      rw [keptIdx, List.getElem?_map, Option.map_eq_some_iff] at h
      obtain ⟨i, hi, rfl⟩ := h
      exact ih (by simpa using hLen) hi
    | false =>
      obtain ⟨m, ms, rfl⟩ := List.exists_cons_of_length_eq_add_one
        (l := ms) (n := bs.count false) (by simpa using hLen)
      cases j with
      | zero =>
        obtain rfl : 0 = i := by simpa [keptIdx] using h
        rfl
      | succ j =>
        rw [keptIdx, List.getElem?_cons_succ, List.getElem?_map, Option.map_eq_some_iff] at h
        obtain ⟨i, hi, rfl⟩ := h
        exact ih (by simpa using hLen) hi

/-- The slab of two masks is made of the slabs of the first. -/
theorem slab_flatMap {mask ms : List Bool} (hms : ms.length = mask.count false)
    (shape y : List Nat) :
    (slab (compose mask ms) shape y).Perm
      ((slab ms (keep mask shape) y).flatMap (slab mask shape)) := by
  have hNodup : ((slab ms (keep mask shape) y).flatMap (slab mask shape)).Nodup := by
    refine List.nodup_flatMap.mpr ⟨fun z _ => nodup_slab _ _ _, ?_⟩
    refine (nodup_slab _ _ _).imp fun {z w} hne => List.disjoint_left.mpr fun x hx hx' => ?_
    exact hne ((mem_slab.mp hx).2.symm.trans (mem_slab.mp hx').2)
  refine (List.perm_ext_iff_of_nodup (nodup_slab _ _ _) hNodup).mpr fun x => ?_
  rw [List.mem_flatMap, mem_slab, keep_compose hms]
  constructor
  · rintro ⟨hx, hy⟩
    exact ⟨keep mask x, mem_slab.mpr ⟨inBox_keep hx, hy⟩, mem_slab.mpr ⟨hx, rfl⟩⟩
  · rintro ⟨z, hz, hx⟩
    obtain ⟨hIn, rfl⟩ := mem_slab.mp hx
    exact ⟨hIn, (mem_slab.mp hz).2⟩

end Grid

namespace IronArray

open Grid ReduceFunction

/-- The number that an axis of the result has in the array that was reduced. -/
def originalAxis (ndim : Nat) (axes : List Nat) (j : Nat) : Nat :=
  (keptIdx (reducedAxis ndim axes)).getD j 0

theorem getD_reducedAxis {ndim : Nat} {axes : List Nat} {i : Nat} (hi : i < ndim) (d : Bool) :
    (reducedAxis ndim axes).getD i d = decide (i ∈ axes) := by
  rw [List.getD_eq_getElem _ _ (by rwa [length_reducedAxis])]
  simp [reducedAxis]

section

variable {ndim : Nat} {axes axes' all : List Nat} {i j : Nat}

theorem getElem?_keptIdx (hj : j < (reducedAxis ndim axes).count false) :
    (keptIdx (reducedAxis ndim axes))[j]? = some (originalAxis ndim axes j) := by
  rw [← length_keptIdx] at hj
  rw [originalAxis, List.getD_eq_getElem _ _ hj, List.getElem?_eq_getElem hj]

theorem mem_keptIdx_reducedAxis :
    i ∈ keptIdx (reducedAxis ndim axes) ↔ i < ndim ∧ i ∉ axes := by
  rw [mem_keptIdx, length_reducedAxis]
  refine and_congr_right fun hi => ?_
  rw [getD_reducedAxis hi, decide_eq_false_iff_not]

/-- Two axes that are left have different numbers. -/
theorem originalAxis_injective (hi : i < (reducedAxis ndim axes).count false)
    (hj : j < (reducedAxis ndim axes).count false)
    (hSame : originalAxis ndim axes i = originalAxis ndim axes j) : i = j := by
  have hAt := getElem?_keptIdx hi
  rw [hSame, ← getElem?_keptIdx hj] at hAt
  exact (List.getElem?_inj (by rwa [length_keptIdx]) (nodup_keptIdx _)).mp hAt

theorem originalAxis_new (hj : j < (reducedAxis ndim axes).count false) :
    originalAxis ndim axes j < ndim ∧ originalAxis ndim axes j ∉ axes :=
  mem_keptIdx_reducedAxis.mp (List.mem_of_getElem? (getElem?_keptIdx hj))

theorem nodup_append_originalAxis (hNodup : axes.Nodup) (hNodup' : axes'.Nodup)
    (hRange : ∀ j ∈ axes', j < (reducedAxis ndim axes).count false) :
    (axes ++ axes'.map (originalAxis ndim axes)).Nodup := by
  refine hNodup.append (hNodup'.map_on ?_) ?_
  · intro i hi j hj hSame
    exact originalAxis_injective (hRange i hi) (hRange j hj) hSame
  · apply List.disjoint_left.mpr
    intro i hi hi'
    obtain ⟨j, hj, rfl⟩ := List.mem_map.mp hi'
    exact (originalAxis_new (hRange j hj)).2 hi

/-- The axes of both steps. -/
theorem reducedAxis_append (hRange : ∀ j ∈ axes', j < (reducedAxis ndim axes).count false)
    (hAll : all.Perm (axes ++ axes'.map (originalAxis ndim axes))) :
    reducedAxis ndim all = compose (reducedAxis ndim axes)
      (reducedAxis ((reducedAxis ndim axes).count false) axes') := by
  have hLen : (reducedAxis ((reducedAxis ndim axes).count false) axes').length =
      (reducedAxis ndim axes).count false := length_reducedAxis _ _
  refine List.ext_getElem (by simp) fun i hi hi' => ?_
  rw [length_reducedAxis] at hi
  rw [← List.getD_eq_getElem _ false, ← List.getD_eq_getElem _ false, getD_reducedAxis hi,
    decide_eq_decide.mpr hAll.mem_iff]
  by_cases hFirst : i ∈ axes
  · have hMarked : (reducedAxis ndim axes).getD i false = true := by
      rw [getD_reducedAxis hi]
      exact decide_eq_true hFirst
    rw [compose_marked hMarked, decide_eq_true (List.mem_append_left _ hFirst)]
  · have hMem := mem_keptIdx_reducedAxis.mpr ⟨hi, hFirst⟩
    obtain ⟨j, hj⟩ := List.mem_iff_getElem?.mp hMem
    have hIn : j < (reducedAxis ndim axes).count false := by
      rw [← length_keptIdx]
      exact (List.getElem?_eq_some_iff.mp hj).1
    obtain rfl : originalAxis ndim axes j = i :=
      Option.some.inj ((getElem?_keptIdx hIn).symm.trans hj)
    rw [compose_kept hLen hj, getD_reducedAxis hIn]
    refine decide_eq_decide.mpr ?_
    rw [List.mem_append, or_iff_right hFirst, List.mem_map]
    constructor
    · rintro ⟨l, hl, hSame⟩
      exact originalAxis_injective (hRange l hl) hIn hSame ▸ hl
    · exact fun hl => ⟨j, hl, rfl⟩

end

section

variable {E : Backend} {func : ReduceFunc} {f : ReduceFunction} {a b : Container}
  {axes : List Nat} {storage : Storage} {correction : FP}

/-- The result of a reduction is an array. -/
theorem reduceMulti_plain (hE : E.Lawful) (ha : Plain a) (hNodup : axes.Nodup)
    (hRange : ∀ k ∈ axes, k < a.dtshape.ndim)
    (h : iarrayReduceMulti E a func (ints axes) storage false correction = .ok b) : Plain b := by
  obtain ⟨hMulti, hSome, c, hRun, hCopy⟩ := reduceMulti_eq_ok ha hNodup hRange h
  obtain ⟨k, axes, rfl⟩ := List.exists_cons_of_ne_nil hSome
  obtain ⟨_, hStep, -⟩ := Result.bind_eq_ok.mp hRun
  obtain ⟨f, hf, -⟩ := Result.bind_eq_ok.mp hStep
  exact (copyResult_ok hE (reduceAxes_plain hE hMulti ha hf rfl hNodup hRange hRun).plain hCopy).1

theorem addressed_of_numbers (hMulti : func.isMulti = true) (hTruth : func ≠ .all ∧ func ≠ .any)
    {m : Machine} {d : Dtype} (hf : reduceFunction m func d = .ok f) (cat : List Axis) (k : Nat) :
    Addressed f cat k := by
  refine addressed_of_size ?_ _ _
  rw [(exists_staged hMulti hf).1, blockPointer_eq hMulti hTruth hf]

theorem foldl_skip_finite {step : Num → Num → Num}
    (hStep : ∀ p q, ∃ r, step (.fp (.fin p)) (.fp (.fin q)) = .fp (.fin r)) {xs : List Num}
    (hxs : ∀ x ∈ xs, Bounded x) (p : ℚ) :
    ∃ r, xs.foldl (fun b x => if x.isNan then b else step b x) (.fp (.fin p)) = .fp (.fin r) := by
  induction xs generalizing p with
  | nil => exact ⟨p, rfl⟩
  | cons x xs ih =>
    have hRest : ∀ y ∈ xs, Bounded y := fun y hy => hxs y (List.mem_cons_of_mem _ hy)
    rw [List.foldl_cons]
    rcases hxs x List.mem_cons_self with hNan | ⟨q, rfl⟩
    · rw [if_pos hNan]
      exact ih hRest p
    · obtain ⟨r, hr⟩ := hStep p q
      rw [if_neg (show ¬ (Num.fp (.fin q)).isNan = true from nofun), hr]
      exact ih hRest r

/-- What a reduction that skips NaN gives can be reduced again. -/
theorem value_bounded {m : Machine} {d : Dtype} (hFunc : func = .nanSum ∨ func = .nanProd)
    (hf : reduceFunction m func d = .ok f) {xs : List Num} (hxs : ∀ x ∈ xs, Bounded x) {v : Num}
    (hv : f.value xs = .ok v) : Bounded v := by
  rcases hFunc with rfl | rfl
  · obtain ⟨hd, rfl⟩ := nanReduction_eq_ok hf
    have ho : d.sumType.isFloating = true := (sumType_isFloating d).trans hd
    rw [nanSum, (onResult_simple (by simp)).value, Dtype.zero, if_pos ho] at hv
    obtain ⟨r, hr⟩ := foldl_skip_finite (fun p q => ⟨p + q, sumStep_fp ho _ _⟩) hxs 0
    exact .inr ⟨r, (Except.ok.inj hv).symm.trans hr⟩
  · obtain ⟨hd, rfl⟩ := nanReduction_eq_ok hf
    have ho : d.sumType.isFloating = true := (sumType_isFloating d).trans hd
    rw [nanProd, (onResult_simple (by simp)).value, Dtype.one, if_pos ho] at hv
    obtain ⟨r, hr⟩ := foldl_skip_finite (fun p q => ⟨p * q, prodStep_fp ho _ _⟩) hxs 1
    exact .inr ⟨r, (Except.ok.inj hv).symm.trans hr⟩

/-- Reducing the values of slabs is reducing the slabs that they make together. -/
theorem ReduceFunction.Staged.slab_value {f₂ : ReduceFunction} {Q : Num → Prop}
    (hStaged : Staged f f₂ Q)
    {mask ms : List Bool} (hMask : mask.length = a.dtshape.ndim) (hms : ms.length = mask.count false)
    (hQ : ∀ x, InBox x a.dtshape.shape → Q (a.elem x))
    (hShape : b.dtshape.shape = keep mask a.dtshape.shape)
    (hSlab : ∀ z, InBox z b.dtshape.shape → f.value (a.slab mask z) = .ok (b.elem z))
    (y : List Nat) : f₂.value (b.slab ms y) = f.value (a.slab (compose mask ms) y) := by
  have hJoin := (slab_flatMap hms a.dtshape.shape y).map a.elem
  rw [List.map_flatMap] at hJoin
  rw [Container.slab, Container.slab, hStaged.perm hJoin (mem_containerSlab hQ), hShape,
    List.flatMap_def]
  have hInside : ∀ z ∈ Grid.slab ms (keep mask a.dtshape.shape) y,
      InBox z (keep mask a.dtshape.shape) := fun z hz => (mem_slab.mp hz).1
  refine hStaged.flatten (n := (removed mask a.dtshape.shape).prod) ?_ ?_ ?_
  · intro xs hxs
    obtain ⟨z, hz, rfl⟩ := List.mem_map.mp hxs
    exact length_containerSlab hMask (hInside z hz)
  · intro xs hxs
    obtain ⟨z, -, rfl⟩ := List.mem_map.mp hxs
    exact mem_containerSlab hQ
  · rw [List.forall₂_map_left_iff, List.forall₂_map_right_iff, List.forall₂_same]
    intro z hz
    exact hSlab z (by rw [hShape]; exact hInside z hz)

end

/-- Reducing a result again gives what reducing along all axes at once gives: whatever the order of
the axes is, whatever the partitions of the arrays are. -/
theorem reduceMulti_again {E : Backend} (hE : E.Lawful) {a a' b c c' : Container}
    {func : ReduceFunc} {axes axes' all : List Nat} {st st' st'' : Storage}
    {correction correction' correction'' : FP} (ha : Plain a) (ha' : Plain a')
    (hDtype : a.dtshape.dtype = a'.dtshape.dtype) (hSame : a.contents.Same a'.contents)
    (hTruth : func ≠ .all ∧ func ≠ .any)
    (hBounded : func = .nanSum ∨ func = .nanProd →
      ∀ x, InBox x a.dtshape.shape → Bounded (a.elem x))
    (hNodup : axes.Nodup) (hRange : ∀ k ∈ axes, k < a.dtshape.ndim) (hNodup' : axes'.Nodup)
    (hRange' : ∀ k ∈ axes', k < b.dtshape.ndim)
    (hAll : all.Perm (axes ++ axes'.map (originalAxis a.dtshape.ndim axes)))
    (hPlaces : a.ReducesInPlace axes) (hPlacesB : b.ReducesInPlace axes')
    (hPlaces' : a'.ReducesInPlace all)
    (hb : iarrayReduceMulti E a func (ints axes) st false correction = .ok b)
    (hc : iarrayReduceMulti E b func (ints axes') st' false correction' = .ok c)
    (hc' : iarrayReduceMulti E a' func (ints all) st'' false correction'' = .ok c') :
    c.dtshape = c'.dtshape ∧ ∀ y, InBox y c.dtshape.shape → c.elem y = c'.elem y := by
  have hMulti := (reduceMulti_eq_ok ha hNodup hRange hb).1
  have hShape : a.dtshape.shape = a'.dtshape.shape := hSame.shape
  have hElem : ∀ x, InBox x a.dtshape.shape → a.elem x = a'.elem x := by
    intro x hx
    have hGet : a.catarr.get x = a'.catarr.get x := hSame.get x hx
    rw [Container.elem, Container.elem, hGet, hDtype]
  -- the first step
  obtain ⟨f, hf, hShapeB, hElemB⟩ := reduceMulti_stage hE ha hBounded hNodup hRange
    (fun f hf => addressed_of_numbers hMulti hTruth hf _ _) hPlaces hb
  obtain ⟨-, f₂, hNext, hStaged⟩ := exists_staged hMulti hf
  have hNdimB : b.dtshape.ndim = (reducedAxis a.dtshape.ndim axes).count false := by
    rw [hShapeB]
    exact length_keep (length_reducedAxis _ _).symm
  rw [hNdimB] at hRange'
  have hAccepts : ∀ x, InBox x a.dtshape.shape → func.Accepts a.dtshape.dtype (a.elem x) :=
    fun x hx => ⟨Cell.num_of _ _, fun hFunc => hBounded hFunc x hx⟩
  have hSlab : ∀ z, InBox z b.dtshape.shape →
      f.value (a.slab (reducedAxis a.dtshape.ndim axes) z) = .ok (b.elem z) :=
    fun z hz => hElemB z hz _ (.refl _)
  -- the second step
  have hBoundedB : func = .nanSum ∨ func = .nanProd →
      ∀ z, InBox z b.dtshape.shape → Bounded (b.elem z) := by
    intro hFunc z hz
    exact value_bounded hFunc hf (mem_containerSlab (hBounded hFunc)) (hSlab z hz)
  obtain ⟨f', hf', hShapeC, hElemC⟩ := reduceMulti_stage hE
    (reduceMulti_plain hE ha hNodup hRange hb) hBoundedB hNodup' (by rwa [hNdimB])
    (fun f hf => addressed_of_numbers hMulti hTruth hf _ _) hPlacesB hc
  obtain rfl : f₂ = f' := by
    rw [hShapeB, hNext.choose] at hf'
    exact Except.ok.inj hf'
  -- all axes at once
  have hMasks := reducedAxis_append hRange' hAll
  have hNdim : a'.dtshape.ndim = a.dtshape.ndim := (congrArg List.length hShape).symm
  have hRangeAll : ∀ k ∈ all, k < a'.dtshape.ndim := by
    intro k hk
    rw [hNdim]
    rcases List.mem_append.mp (hAll.mem_iff.mp hk) with hk | hk
    · exact hRange k hk
    · obtain ⟨j, hj, rfl⟩ := List.mem_map.mp hk
      exact (originalAxis_new (hRange' j hj)).1
  obtain ⟨f', hf', hShapeC', hElemC'⟩ := reduceMulti_stage hE ha'
    (fun hFunc x hx => by
      rw [← hShape] at hx
      exact hElem x hx ▸ hBounded hFunc x hx)
    (hAll.nodup_iff.mpr (nodup_append_originalAxis hNodup hNodup' hRange')) hRangeAll
    (fun f hf => addressed_of_numbers hMulti hTruth hf _ _) hPlaces' hc'
  obtain rfl : f = f' := by
    rw [← hDtype, hf] at hf'
    exact Except.ok.inj hf'
  have hSlabs : ∀ mask y, a'.slab mask y = a.slab mask y := by
    intro mask y
    rw [Container.slab, Container.slab, ← hShape]
    exact List.map_congr_left fun x hx => (hElem x (mem_slab.mp hx).1).symm
  rw [hNdim, ← hShape, hMasks] at hShapeC'
  rw [hNdim, hMasks] at hElemC'
  rw [hNdimB] at hShapeC hElemC
  have hms : (reducedAxis ((reducedAxis a.dtshape.ndim axes).count false) axes').length =
      (reducedAxis a.dtshape.ndim axes).count false := length_reducedAxis _ _
  have hDtshape : c.dtshape = c'.dtshape := by
    rw [hShapeC, hShapeC', hNext.otype, keep_compose hms, hShapeB]
  refine ⟨hDtshape, fun y hy => ?_⟩
  have hValue := hElemC y hy _ (.refl _)
  rw [hStaged.slab_value (length_reducedAxis _ _) hms hAccepts (by rw [hShapeB]) hSlab,
    ← hSlabs, hElemC' y (hDtshape ▸ hy) _ (.refl _)] at hValue
  exact (Except.ok.inj hValue).symm

namespace MultiExample

/-- The matrix in chunks of 2 × 3. -/
def regrouped : Container :=
  Reference.plain .int16 [.ofCuts 5 2 2, .ofCuts 3 3 1]
    fun x => .bits (3 * x.getD 0 0 + x.getD 1 0)

theorem same_regrouped : matrix.contents.Same regrouped.contents := by
  refine ⟨rfl, fun x hx => ?_⟩
  rw [matrix, regrouped,
    contents_plain (show InBox x (shapeOf [.ofCuts 5 4 3, .ofCuts 3 2 2]) from hx),
    contents_plain (show InBox x (shapeOf [.ofCuts 5 2 2, .ofCuts 3 3 1]) from hx)]

end MultiExample

open MultiExample in
/-- The columns and then the rows of a matrix, and both at once in other chunks. -/
theorem reduceMulti_again_matrix : ∃ b c c',
    iarrayReduceMulti Reference.backend matrix .mean [1] ⟨[3], [2]⟩ false (.fin 0) = .ok b ∧
    iarrayReduceMulti Reference.backend b .mean [0] ⟨[], []⟩ false (.fin 0) = .ok c ∧
    iarrayReduceMulti Reference.backend regrouped .mean [0, 1] ⟨[], []⟩ false (.fin 0) = .ok c' ∧
    c.elem [] = .fp (.fin 7) ∧ c'.elem [] = .fp (.fin 7) := by
  have hFirst : (iarrayReduceMulti Reference.backend matrix .mean [1] ⟨[3], [2]⟩ false
      (.fin 0)).map (fun b => (b.dtshape.ndim, b.storage)) = .ok (1, ⟨[3], [2]⟩) := by
    decide +kernel
  have hSteps : (iarrayReduceMulti Reference.backend matrix .mean [1] ⟨[3], [2]⟩ false (.fin 0) >>=
      fun b => iarrayReduceMulti Reference.backend b .mean [0] ⟨[], []⟩ false (.fin 0)).map
      (fun c => (c.elem [], c.dtshape.shape)) = .ok (.fp (.fin 7), []) := by decide +kernel
  have hOnce : (iarrayReduceMulti Reference.backend regrouped .mean [0, 1] ⟨[], []⟩ false
      (.fin 0)).map (fun _ => ()) = .ok () := by decide +kernel
  obtain ⟨c, hc, hGet⟩ := Result.map_eq_ok.mp hSteps
  obtain ⟨b, hb, hc⟩ := Result.bind_eq_ok.mp hc
  obtain ⟨c', hc', -⟩ := Result.map_eq_ok.mp hOnce
  obtain ⟨hElem, hShape⟩ := Prod.ext_iff.mp hGet
  rw [hb] at hFirst
  obtain ⟨hNdim, hStorage⟩ := Prod.ext_iff.mp (Except.ok.inj hFirst)
  have hNdim : b.dtshape.ndim = 1 := hNdim
  have hFitsB : b.storage.Fits := by
    rw [show b.storage = _ from hStorage]
    decide
  have hPlain : Plain regrouped := Reference.plain_plain _ _ (by decide) (by decide)
  have hSame := @reduceMulti_again _ Reference.lawful matrix regrouped b c c' .mean [1] [0] [0, 1]
    ⟨[3], [2]⟩ ⟨[], []⟩ ⟨[], []⟩ (.fin 0) (.fin 0) (.fin 0) plain_matrix hPlain rfl same_regrouped
    ⟨nofun, nofun⟩ (by rintro (h | h) <;> cases h) (by decide) (by decide) (by decide)
    (by simp [hNdim]) (by decide) (.inr (Storage.Fits.wellPlaced (by decide)))
    (.inr (Storage.Fits.wellPlaced hFitsB)) (.inr (Storage.Fits.wellPlaced (by decide))) hb hc hc'
  have hEq := hSame.2 [] (by rw [show c.dtshape.shape = [] from hShape]; exact .nil)
  exact ⟨b, c, c', hb, hc, hc', hElem, hEq ▸ hElem⟩

end IronArray
