import IronArray.Core.Reference
import IronArray.Reduce.Step

/-!
# Removing one axis after the other

The invariant of the loop over the axes: each element of the intermediate array is the value
of the slab of the source that projects onto it. A step joins slabs along the axis it
removes, and the laws of the reductions say that reducing the values of slabs is reducing
their elements.
-/

namespace IronArray

open Grid ReduceFunction

/-! ## Masks of axis lists -/

@[simp] theorem length_reducedAxis (ndim : Nat) (axes : List Nat) :
    (reducedAxis ndim axes).length = ndim := by simp [reducedAxis]

theorem reducedAxis_nil (ndim : Nat) : reducedAxis ndim [] = List.replicate ndim false := by
  simp [reducedAxis, List.map_const']

/-- The number of an axis after axis `k` has been removed. -/
def renumber (k j : Nat) : Nat := if k < j then j - 1 else j

theorem mem_map_renumber {k i : Nat} {axes : List Nat} (hk : k ∉ axes) (hi : i ≠ k) :
    renumber k i ∈ axes.map (renumber k) ↔ i ∈ axes := by
  rw [List.mem_map]
  constructor
  · rintro ⟨j, hj, hEq⟩
    have hjk : j ≠ k := fun h => hk (h ▸ hj)
    have : j = i := by
      simp only [renumber] at hEq
      split at hEq <;> split at hEq <;> omega
    exact this ▸ hj
  · exact fun h => ⟨i, h, rfl⟩

/-- Removing an axis and then the others, renumbered. -/
theorem reducedAxis_cons {k m : Nat} {axes : List Nat} (hk : k < m) (hNotMem : k ∉ axes) :
    reducedAxis m (k :: axes) =
      compose (axisMask k m) (reducedAxis (m - 1) (axes.map (renumber k))) := by
  rw [compose_axisMask hk (by rw [length_reducedAxis]; omega)]
  have hLen : ((reducedAxis (m - 1) (axes.map (renumber k))).insertIdx k true).length = m := by
    rw [List.length_insertIdx_of_le_length (by rw [length_reducedAxis]; omega), length_reducedAxis]
    omega
  refine List.ext_getElem (by rw [hLen, length_reducedAxis]) ?_
  intro i hi _
  rw [length_reducedAxis] at hi
  rw [List.getElem_insertIdx]
  simp only [reducedAxis, List.getElem_map, List.getElem_range, List.mem_cons]
  rcases Nat.lt_trichotomy i k with hlt | rfl | hgt
  · have hMem := mem_map_renumber hNotMem hlt.ne
    rw [renumber, if_neg (by omega)] at hMem
    simp [hlt, hlt.ne, hMem]
  · simp
  · have hMem := mem_map_renumber hNotMem hgt.ne'
    rw [renumber, if_pos hgt] at hMem
    simp [hgt.ne', hMem, show ¬ i < k by omega]

theorem nodup_map_renumber {k : Nat} {axes : List Nat} (h : (k :: axes).Nodup) :
    (axes.map (renumber k)).Nodup := by
  obtain ⟨hk, hAxes⟩ := List.nodup_cons.mp h
  refine hAxes.map_on ?_
  intro i hi j hj hEq
  have hik : i ≠ k := fun h => hk (h ▸ hi)
  have hjk : j ≠ k := fun h => hk (h ▸ hj)
  simp only [renumber] at hEq
  split at hEq <;> split at hEq <;> omega

theorem renumber_lt {k m : Nat} {axes : List Nat} (hk : k < m) (hNotMem : k ∉ axes)
    (h : ∀ j ∈ axes, j < m) : ∀ j ∈ axes.map (renumber k), j < m - 1 := by
  intro j hj
  obtain ⟨i, hi, rfl⟩ := List.mem_map.mp hj
  have hik : i ≠ k := fun h => hNotMem (h ▸ hi)
  have := h i hi
  simp only [renumber]
  split <;> omega

/-! ## The elements of a slab -/

/-- The value of an element of a container. -/
def Container.elem (c : Container) (x : List Nat) : Num := (c.catarr.get x).num c.dtshape.dtype

/-- The elements that project onto `y` when the marked axes are removed. -/
def Container.slab (c : Container) (mask : List Bool) (y : List Nat) : List Num :=
  (Grid.slab mask c.dtshape.shape y).map c.elem

/-- The elements of `c` are the values of the slabs of `a`, if the block lengths of `a` give the
places of its elements. -/
structure Stage (a : Container) (f : ReduceFunction) (mask : List Bool) (c : Container) :
    Prop where
  plain : PlainOf ⟨f.otype, keep mask a.dtshape.shape⟩
    ⟨keep mask a.storage.chunkshape, keep mask a.storage.blockshape⟩ c
  element : a.WellPlaced → c.WellPlaced ∧ ∀ y, InBox y (keep mask a.dtshape.shape) →
    ∃ v, f.value (a.slab mask y) = .ok v ∧ c.catarr.get y = v.cell f.otype

theorem mem_containerSlab {c : Container} {mask : List Bool} {y : List Nat} {Q : Num → Prop}
    (hQ : ∀ x, InBox x c.dtshape.shape → Q (c.elem x)) : ∀ v ∈ c.slab mask y, Q v := by
  intro v hv
  obtain ⟨x, hx, rfl⟩ := List.mem_map.mp hv
  exact hQ x (mem_slab.mp hx).1

theorem length_containerSlab {c : Container} {mask : List Bool} {y : List Nat}
    (hMask : mask.length = c.dtshape.ndim) (hy : InBox y (keep mask c.dtshape.shape)) :
    (c.slab mask y).length = (removed mask c.dtshape.shape).prod := by
  rw [Container.slab, List.length_map, length_slab hMask.symm hy]

/-! ## Steps -/

section Steps

variable {E : Backend} {func : ReduceFunc} {f f₂ : ReduceFunction} {Q : Num → Prop}
  {a b c : Container} {k : Nat}

theorem blockPointer_self (d : Dtype) : blockPointer d d = d := by cases d <;> rfl

/-- A step where the elements are addressed in units of their own size. -/
theorem reduceUdf_line (hE : E.Lawful) (ha : Plain a) (hk : k < a.dtshape.ndim)
    (hLoop : ∀ u acc xs, f.reduction u acc xs = xs.foldl (f.step u) acc)
    (hAddr : Addressed f a.catarr.axes k)
    (h : _iarrayReduceUdf E a f k (a.storage.eraseIdx k) = .ok b) :
    PlainOf ⟨f.otype, keep (axisMask k a.dtshape.ndim) a.dtshape.shape⟩
        ⟨keep (axisMask k a.dtshape.ndim) a.storage.chunkshape,
          keep (axisMask k a.dtshape.ndim) a.storage.blockshape⟩ b ∧
      (a.WellPlaced → b.WellPlaced ∧
        ∀ y, InBox y (keep (axisMask k a.dtshape.ndim) a.dtshape.shape) →
          ∃ v, f.value (line f.itype a.catarr k y) = .ok v ∧ b.catarr.get y = v.cell f.otype) := by
  obtain ⟨hChunk, hBlock⟩ := ha.storage_length
  obtain ⟨hb, hElem⟩ := reduceUdf_ok hE ha hk hLoop h
  have hShape : a.dtshape.shape.length = a.dtshape.ndim := rfl
  rw [keep_axisMask hShape hk, keep_axisMask hChunk hk, keep_axisMask hBlock hk]
  refine ⟨hb, fun hPlaced => ⟨(hElem hPlaced).1, fun y hy => ?_⟩⟩
  have hLine : seen E.machine f a.catarr k y = line f.itype a.catarr k y :=
    seen_eq_line ha.fresh.sized ha.fresh.postfilter (by rwa [← ha.catarr_ndim] at hk) hAddr
      (by rwa [ha.fresh.shape])
  rw [← hLine]
  exact (hElem hPlaced).2 y hy

/-- The first step gives the values of lines, which are slabs. -/
theorem firstStage (hE : E.Lawful) (ha : Plain a) (hk : k < a.dtshape.ndim)
    (hStaged : Staged f f₂ Q) (hItype : f.itype = a.dtshape.dtype)
    (hAddr : Addressed f a.catarr.axes k) (hQ : ∀ x, InBox x a.dtshape.shape → Q (a.elem x))
    (h : _iarrayReduceUdf E a f k (a.storage.eraseIdx k) = .ok b) :
    Stage a f (axisMask k a.dtshape.ndim) b := by
  obtain ⟨hb, hElem⟩ := reduceUdf_line hE ha hk hStaged.reduction hAddr h
  refine ⟨hb, fun hPlaced => ⟨(hElem hPlaced).1, fun y hy => ?_⟩⟩
  obtain ⟨v, hv, hCell⟩ := (hElem hPlaced).2 y hy
  refine ⟨v, ?_, hCell⟩
  rw [← hv, line, hItype, ha.fresh.shape]
  have hShape : a.dtshape.shape.length = a.dtshape.ndim := rfl
  rw [keep_axisMask hShape hk] at hy
  have hPerm := (slab_axisMask hShape hk hy).map a.elem
  rw [List.map_map] at hPerm
  exact hStaged.perm hPerm (mem_containerSlab hQ)

/-- A later step reduces the values of slabs. -/
theorem Stage.next (hE : E.Lawful) {mask : List Bool} (hc : Stage a f mask c)
    (hNext : NextStage E.machine func f f₂) (hStaged : Staged f f₂ Q)
    (hLoop : ∀ u acc xs, f₂.reduction u acc xs = xs.foldl (f₂.step u) acc)
    (hMask : mask.length = a.dtshape.ndim) (hk : k < mask.count false)
    (hQ : ∀ x, InBox x a.dtshape.shape → Q (a.elem x))
    (h : _iarrayReduceUdf E c f₂ k (c.storage.eraseIdx k) = .ok b) :
    Stage a f (compose mask (axisMask k (mask.count false))) b := by
  have hShape : c.dtshape.shape = keep mask a.dtshape.shape := by rw [hc.plain.dtshape]
  have hNdim : c.dtshape.ndim = mask.count false := by
    rw [Dtshape.ndim, hShape, length_keep hMask.symm]
  have hLenMask : (axisMask k (mask.count false)).length = mask.count false := length_axisMask _ _
  have hAddr : Addressed f₂ c.catarr.axes k := addressed_of_size (by
    rw [hNext.otype, hNext.itype, blockPointer_self]) _ _
  obtain ⟨hb, hElem⟩ := reduceUdf_line hE hc.plain.plain (by omega) hLoop hAddr h
  rw [hNdim, hShape, hc.plain.storage, hNext.otype] at hb
  rw [hNdim, hShape] at hElem
  refine ⟨?_, fun hPlaced => ?_⟩
  · rw [keep_compose hLenMask, keep_compose hLenMask, keep_compose hLenMask]
    exact hb
  obtain ⟨hPlacedC, hElemC⟩ := hc.element hPlaced
  obtain ⟨hPlacedB, hElem⟩ := hElem hPlacedC
  refine ⟨hPlacedB, fun y hy => ?_⟩
  rw [keep_compose hLenMask] at hy
  obtain ⟨v, hv, hCell⟩ := hElem y hy
  rw [hNext.otype] at hCell
  refine ⟨v, ?_, hCell⟩
  have hErase : (keep mask a.dtshape.shape).length = mask.count false := length_keep hMask.symm
  rw [keep_axisMask hErase hk] at hy
  have hAt : (keep mask a.dtshape.shape)[k]? = some ((keep mask a.dtshape.shape).getD k 0) := by
    rw [List.getElem?_eq_getElem (by omega), List.getD_eq_getElem _ _ (by omega)]
  have hInside : ∀ i < (keep mask a.dtshape.shape).getD k 0,
      InBox (y.insertIdx k i) (keep mask a.dtshape.shape) := by
    intro i hi
    refine (inBox_insertIdx (by omega)).mpr ⟨?_, hy⟩
    rwa [List.getD_eq_getElem _ _ (by omega)] at hi
  have hJoin := (slab_compose (y := y) hMask.symm rfl hk hAt).map a.elem
  rw [List.map_flatMap] at hJoin
  rw [Container.slab, hStaged.perm hJoin (mem_containerSlab hQ), ← hv, line, hNext.itype,
    hc.plain.plain.fresh.shape, hShape, List.flatMap_def]
  refine (hStaged.flatten (n := (removed mask a.dtshape.shape).prod) ?_ ?_ ?_).symm
  · intro xs hxs
    obtain ⟨i, hi, rfl⟩ := List.mem_map.mp hxs
    exact length_containerSlab hMask (hInside i (List.mem_range.mp hi))
  · intro xs hxs
    obtain ⟨i, _, rfl⟩ := List.mem_map.mp hxs
    exact mem_containerSlab hQ
  · rw [List.forall₂_map_left_iff, List.forall₂_map_right_iff, List.forall₂_same]
    intro i hi
    obtain ⟨w, hw, hGet⟩ := hElemC _ (hInside i (List.mem_range.mp hi))
    obtain ⟨_, hValue, hOf⟩ := hStaged.value
      (mem_containerSlab hQ : ∀ v ∈ a.slab mask (y.insertIdx k i), Q v)
    rw [hw, Except.ok.injEq] at hValue
    subst hValue
    rw [hGet]
    exact hw.trans (congrArg Except.ok hOf.assign.symm)

theorem reduce_eq (hf : reduceFunction E.machine func a.dtshape.dtype = .ok f) (st : Storage) :
    _iarrayReduce E a func k st = _iarrayReduceUdf E a f k st := by
  rw [_iarrayReduce, hf, Result.ok_bind]

/-- The loop starts by removing its first axis. -/
theorem reduceAxes_cons_ok (hf : reduceFunction E.machine func a.dtshape.dtype = .ok f)
    {n : Nat} {axes : List Nat}
    (h : reduceAxes E func (n + 1) a (k :: axes) = .ok b) :
    ∃ c, _iarrayReduceUdf E a f k (a.storage.eraseIdx k) = .ok c ∧
      reduceAxes E func n c (axes.map (renumber k)) = .ok b := by
  obtain ⟨c, hStep, h⟩ := Result.bind_eq_ok.mp h
  rw [reduce_eq hf] at hStep
  exact ⟨c, hStep, h⟩

/-- The loop over the axes keeps the invariant. -/
theorem reduceAxes_stage (hE : E.Lawful) (hMulti : func.isMulti = true)
    (hNext : NextStage E.machine func f f₂) (hStaged : Staged f f₂ Q)
    (hQ : ∀ x, InBox x a.dtshape.shape → Q (a.elem x)) {n : Nat} {mask : List Bool}
    {axes : List Nat} (hn : axes.length = n) (hc : Stage a f mask c)
    (hMask : mask.length = a.dtshape.ndim) (hNodup : axes.Nodup)
    (hRange : ∀ j ∈ axes, j < mask.count false) (h : reduceAxes E func n c axes = .ok b) :
    Stage a f (compose mask (reducedAxis (mask.count false) axes)) b := by
  obtain ⟨_, _, _, hStaged₂⟩ := exists_staged hMulti hNext.choose
  induction n generalizing axes c mask with
  | zero =>
    obtain rfl := List.length_eq_zero_iff.mp hn
    cases h
    rw [reducedAxis_nil, compose_replicate_false]
    exact hc
  | succ n ih =>
    obtain ⟨k, axes, rfl⟩ := List.exists_cons_of_length_eq_add_one hn
    have hk := hRange k List.mem_cons_self
    have hNotMem := (List.nodup_cons.mp hNodup).1
    have hLenMask : (axisMask k (mask.count false)).length = mask.count false := length_axisMask _ _
    have hCount : (compose mask (axisMask k (mask.count false))).count false =
        mask.count false - 1 := by
      rw [count_compose hLenMask, count_axisMask hk]
    have hDtype : c.dtshape.dtype = f.otype := by rw [hc.plain.dtshape]
    have hNdim : c.dtshape.ndim = mask.count false := by
      rw [Dtshape.ndim, hc.plain.dtshape, length_keep hMask.symm]
    obtain ⟨c', hStep, h⟩ := reduceAxes_cons_ok (by rw [hDtype, hNext.choose]) h
    have hc' := hc.next hE hNext hStaged hStaged₂.reduction hMask hk hQ hStep
    have hRest := ih (by simpa using hn) hc' (by rw [length_compose, hMask])
      (nodup_map_renumber hNodup) (by
        rw [hCount]
        exact renumber_lt hk hNotMem fun j hj => hRange j (List.mem_cons_of_mem _ hj)) h
    rw [hCount, compose_assoc hLenMask] at hRest
    rw [reducedAxis_cons hk hNotMem]
    exact hRest

/-- The loop over all axes, from a plain container. -/
theorem reduceAxes_ok (hE : E.Lawful) (hMulti : func.isMulti = true) (ha : Plain a)
    (hf : reduceFunction E.machine func a.dtshape.dtype = .ok f)
    (hQ : ∀ x, InBox x a.dtshape.shape → func.Accepts a.dtshape.dtype (a.elem x))
    {axes : List Nat} (hNodup : (k :: axes).Nodup) (hRange : ∀ j ∈ k :: axes, j < a.dtshape.ndim)
    (hAddr : Addressed f a.catarr.axes k)
    (h : reduceAxes E func (k :: axes).length a (k :: axes) = .ok b) :
    Stage a f (reducedAxis a.dtshape.ndim (k :: axes)) b := by
  obtain ⟨hItype, f₂, hNext, hStaged⟩ := exists_staged hMulti hf
  have hk := hRange k List.mem_cons_self
  have hNotMem := (List.nodup_cons.mp hNodup).1
  obtain ⟨c, hStep, h⟩ := reduceAxes_cons_ok hf h
  have hc := firstStage hE ha hk hStaged hItype hAddr hQ hStep
  have hCount := count_axisMask hk
  have hRun := reduceAxes_stage hE hMulti hNext hStaged hQ (by simp) hc (length_axisMask _ _)
    (nodup_map_renumber hNodup) (by
      rw [hCount]
      exact renumber_lt hk hNotMem fun j hj => hRange j (List.mem_cons_of_mem _ hj)) h
  rw [hCount, ← reducedAxis_cons hk hNotMem] at hRun
  exact hRun

end Steps

/-! ## The whole call -/

/-- Distinct axes in range pass the check of the one-shot reduction. -/
theorem checkAxes_ok {ndim : Nat} (hNdim : ndim ≤ dimensionMax) {axes used : List Nat}
    (hNodup : (used ++ axes).Nodup) (hRange : ∀ k ∈ axes, k < ndim) :
    checkAxes ndim (ints axes) used = .ok (used ++ axes) := by
  induction axes generalizing used with
  | nil => rw [List.append_nil, ints_nil, checkAxes]
  | cons k axes ih =>
    have hk := hRange k List.mem_cons_self
    have hNew : k ∉ used := fun h =>
      (List.disjoint_of_nodup_append hNodup) h List.mem_cons_self
    rw [ints_cons, checkAxes, if_neg (by omega), if_neg (by omega), Int.toNat_natCast,
      if_neg hNew, ih (by rwa [List.append_assoc]) fun j hj => hRange j (List.mem_cons_of_mem _ hj),
      List.append_assoc]
    rfl

/-- Axes that pass the check are collected: the loops differ on repeated axes only. -/
theorem collectAxes_of_checkAxes {ndim : Nat} {axis : List Int} {used axes : List Nat}
    (h : checkAxes ndim axis used = .ok axes) : collectAxes ndim axis used = .ok axes := by
  induction axis generalizing used with
  | nil => exact h
  | cons i axis ih =>
    unfold checkAxes at h
    unfold collectAxes
    split_ifs at h ⊢ with hMore hOut hUsed
    · cases h
    · cases h
    · cases h
    · exact ih h

theorem copyResult_ok {E : Backend} (hE : E.Lawful) {c b : Container} {storage : Storage}
    (hc : Plain c) (h : copyResult E c storage = .ok b) :
    Plain b ∧ b.dtshape = c.dtshape ∧ c.contents.Same b.contents := by
  unfold copyResult at h
  split at h
  · obtain ⟨hb, hSame⟩ := hc.copy hE h
    exact ⟨hb.plain, hb.dtshape, hSame⟩
  · cases h
    exact ⟨hc, rfl, .refl _⟩

theorem Plain.copySource {E : Backend} {a : Container} (h : Plain a) :
    copySource E a = .ok a := by
  rw [IronArray.copySource, h.containerViewed]
  rfl

/-- The axis-by-axis reduction of a plain container along distinct axes in range. -/
theorem reduceMulti_eq {E : Backend} {a : Container} {axes : List Nat} (ha : Plain a)
    (hNodup : axes.Nodup) (hRange : ∀ k ∈ axes, k < a.dtshape.ndim) (func : ReduceFunc)
    (storage : Storage) (correction : FP) :
    iarrayReduceMulti E a func (ints axes) storage false correction =
      if !func.hasCorrection ∧ correction ≠ .fin 0 then inaError .invalidArgument
      else if !func.isMulti then inaError .operationInvalid
      else if a.dtshape.ndim < axes.length then inaError .invalidAxis
      else if axes = [] then crash .nullPointer
      else reduceAxes E func axes.length a axes >>= fun c => copyResult E c storage := by
  unfold iarrayReduceMulti
  rw [collectAxes_of_checkAxes (checkAxes_ok ha.ndim (by simpa using hNodup) hRange), ha.copySource,
    length_ints]
  rfl

/-- What a successful axis-by-axis reduction of distinct axes did. -/
theorem reduceMulti_eq_ok {E : Backend} {a b : Container} {func : ReduceFunc} {axes : List Nat}
    {storage : Storage} {correction : FP} (ha : Plain a) (hNodup : axes.Nodup)
    (hRange : ∀ k ∈ axes, k < a.dtshape.ndim)
    (h : iarrayReduceMulti E a func (ints axes) storage false correction = .ok b) :
    func.isMulti = true ∧ axes ≠ [] ∧
      ∃ c, reduceAxes E func axes.length a axes = .ok c ∧ copyResult E c storage = .ok b := by
  rw [reduceMulti_eq ha hNodup hRange] at h
  split at h
  · cases h
  split at h
  · cases h
  rename_i hMulti
  split at h
  · cases h
  split at h
  · cases h
  rename_i hSome
  obtain ⟨c, hc, h⟩ := Result.bind_eq_ok.mp h
  exact ⟨by simpa using hMulti, hSome, c, hc, h⟩

/-- The block lengths of a container give the places of its elements, or what is left without the
axes has no elements. -/
def Container.ReducesInPlace (c : Container) (axes : List Nat) : Prop :=
  0 ∈ keep (reducedAxis c.dtshape.ndim axes) c.dtshape.shape ∨ c.WellPlaced

/-- The result of an axis-by-axis reduction whose first step addresses elements in units of
their own size. -/
theorem reduceMulti_stage {E : Backend} (hE : E.Lawful) {a b : Container} {func : ReduceFunc}
    {axes : List Nat} {storage : Storage} {correction : FP} (ha : Plain a)
    (hBounded : func = .nanSum ∨ func = .nanProd →
      ∀ x, InBox x a.dtshape.shape → Bounded (a.elem x))
    (hNodup : axes.Nodup) (hRange : ∀ k ∈ axes, k < a.dtshape.ndim)
    (hAddr : ∀ f, reduceFunction E.machine func a.dtshape.dtype = .ok f →
      Addressed f a.catarr.axes (axes.headD 0))
    (hPlaces : a.ReducesInPlace axes)
    (h : iarrayReduceMulti E a func (ints axes) storage false correction = .ok b) :
    ∃ f, reduceFunction E.machine func a.dtshape.dtype = .ok f ∧
      b.dtshape = ⟨f.otype, keep (reducedAxis a.dtshape.ndim axes) a.dtshape.shape⟩ ∧
      ∀ y, InBox y b.dtshape.shape → ∀ elems,
        elems.Perm (a.slab (reducedAxis a.dtshape.ndim axes) y) → f.value elems = .ok (b.elem y) := by
  obtain ⟨hMulti, hSome, c, hRun, hCopy⟩ := reduceMulti_eq_ok ha hNodup hRange h
  obtain ⟨k, axes, rfl⟩ := List.exists_cons_of_ne_nil hSome
  have hAccepts : ∀ x, InBox x a.dtshape.shape → func.Accepts a.dtshape.dtype (a.elem x) :=
    fun x hx => ⟨Cell.num_of _ _, fun hFunc => hBounded hFunc x hx⟩
  obtain ⟨f, hf, _⟩ : ∃ f, reduceFunction E.machine func a.dtshape.dtype = .ok f ∧ True := by
    obtain ⟨_, hStep, _⟩ := Result.bind_eq_ok.mp hRun
    obtain ⟨f, hf, _⟩ := Result.bind_eq_ok.mp hStep
    exact ⟨f, hf, trivial⟩
  have hStage := reduceAxes_ok hE hMulti ha hf hAccepts hNodup hRange (hAddr f hf) hRun
  obtain ⟨_, _, _, hStaged⟩ := exists_staged hMulti hf
  obtain ⟨hb, hDtshape, hSame⟩ := copyResult_ok hE hStage.plain.plain hCopy
  rw [hStage.plain.dtshape] at hDtshape
  refine ⟨f, hf, hDtshape, fun y hy elems hPerm => ?_⟩
  rw [hDtshape] at hy
  have hPlaced : a.WellPlaced := hPlaces.resolve_left fun hZero => lt_irrefl _ (hy.pos 0 hZero)
  obtain ⟨v, hv, hCell⟩ := (hStage.element hPlaced).2 y hy
  obtain ⟨_, hValue, hOf⟩ := hStaged.value (mem_containerSlab hAccepts :
    ∀ v ∈ a.slab (reducedAxis a.dtshape.ndim (k :: axes)) y, func.Accepts a.dtshape.dtype v)
  rw [hv, Except.ok.injEq] at hValue
  subst hValue
  have hGet : b.catarr.get y = c.catarr.get y := by
    refine (hSame.get y ?_).symm
    change InBox y c.dtshape.shape
    rwa [hStage.plain.dtshape]
  rw [Container.elem, hGet, hCell, hDtshape]
  rw [hStaged.perm hPerm fun x hx => mem_containerSlab hAccepts x (hPerm.mem_iff.mp hx), hv]
  exact congrArg Except.ok hOf.assign.symm

/-! ## The reductions whose result is no boolean -/

theorem blockPointer_sumType (d : Dtype) : blockPointer d.sumType d = d := by cases d <;> rfl

theorem blockPointer_meanType (d : Dtype) : blockPointer d.meanType d = d := by cases d <;> rfl

/-- Except for `ALL` and `ANY` a block is addressed through the type of its elements. -/
theorem blockPointer_eq {m : Machine} {func : ReduceFunc} {d : Dtype} {f : ReduceFunction}
    (hMulti : func.isMulti = true) (hTruth : func ≠ .all ∧ func ≠ .any)
    (hf : reduceFunction m func d = .ok f) : blockPointer f.otype d = d := by
  cases func
  case max =>
    cases hf
    rw [(types_max d).2, blockPointer_self]
  case min =>
    cases hf
    rw [(types_min d).2, blockPointer_self]
  case nanMax =>
    obtain ⟨_, rfl⟩ := nanReduction_eq_ok hf
    exact blockPointer_self d
  case nanMin =>
    obtain ⟨_, rfl⟩ := nanReduction_eq_ok hf
    exact blockPointer_self d
  case nanSum =>
    obtain ⟨_, rfl⟩ := nanReduction_eq_ok hf
    exact blockPointer_sumType d
  case nanProd =>
    obtain ⟨_, rfl⟩ := nanReduction_eq_ok hf
    exact blockPointer_sumType d
  case sum =>
    cases hf
    exact blockPointer_sumType d
  case prod =>
    cases hf
    exact blockPointer_sumType d
  case mean =>
    cases hf
    exact blockPointer_meanType d
  case all => exact absurd rfl hTruth.1
  case any => exact absurd rfl hTruth.2
  all_goals cases hMulti

/-- One over a number of elements divides by it. -/
theorem mul_invNelem (x : FP) (n : Nat) : x.mul (invNelem n) = x.div (.fin n) := by
  rcases Nat.eq_zero_or_pos n with rfl | hn
  · have hInv : invNelem 0 = .pinf := by simp [invNelem, FP.div, FP.infOf]
    rw [hInv]
    cases x <;> simp [FP.mul, FP.div]
  · have hNonneg : ¬ ((n : ℚ) < 0) := not_lt.mpr (Nat.cast_nonneg n)
    have hPos : (0 : ℚ) < 1 / n := one_div_pos.mpr (Nat.cast_pos.mpr hn)
    have hNeg : -(1 / n : ℚ) < 0 := neg_neg_of_pos hPos
    rw [invNelem_pos hn]
    cases x with
    | fin q => simp [FP.mul, FP.div, hn.ne', div_eq_mul_inv]
    | nan => rfl
    | pinf => simp only [FP.mul, FP.div, FP.infOf_pos hPos, if_neg hNonneg]
    | ninf => simp only [FP.mul, FP.div, FP.infOf_neg hNeg, if_neg hNonneg]

namespace MultiExample

/-- A 5 × 3 matrix in chunks of 4 × 2, whose blocks of 3 × 2 divide neither. -/
def matrix : Container :=
  Reference.plain .int16 [.ofCuts 5 4 3, .ofCuts 3 2 2]
    fun x => .bits (3 * x.getD 0 0 + x.getD 1 0)

theorem plain_matrix : Plain matrix := Reference.plain_plain _ _ (by decide) (by decide)

/-- Lengths that `int32_t` cuts down to 3 and 2. -/
def stored : Storage := ⟨[1, 2, 2 ^ 32 + 3], [1, 2, 2 ^ 32 + 2]⟩

def padded : Container :=
  newContainer ⟨.int32, [2, 2, 3]⟩ stored
    (.ofFn [.ofCuts 2 1 1, .ofCuts 2 2 2, .ofCuts 3 3 2] 4 fun x => .bits (flat [2, 2, 3] x))

theorem plain_padded : Plain padded := by
  have hStored : iarrayCreateCatervaStorage stored = ⟨ints [1, 2, 3], ints [1, 2, 2]⟩ := by
    simp [iarrayCreateCatervaStorage, stored, toInt32, ints]
  exact plain_newContainer (by decide) ⟨rfl, hStored.symm, rfl, ⟨by decide, rfl⟩, rfl⟩

end MultiExample

end IronArray
