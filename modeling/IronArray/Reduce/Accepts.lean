import IronArray.Reduce.Multi

/-!
# When a reduction succeeds

Whether the axis-by-axis reduction of a plain container succeeds depends on its geometry
alone: Caterva has to accept every intermediate array, and the loops divide by the chunk and
block shapes, which may be zero along axes of length zero only.
-/

namespace IronArray

open Grid ReduceFunction CatArray

/-- Caterva makes arrays of this geometry. -/
def Creatable (E : Backend) (itemsize : Nat) (axes : List Axis) : Prop :=
  ∃ e, E.empty itemsize (shapeOf axes) ⟨ints (chunkshapeOf axes), ints (blockshapeOf axes)⟩ = .ok e

/-- An array of these axes can be reduced along the marked ones in one go: the result can be
made, its chunks can be counted and, where it has elements, those of the input too. -/
structure Reducible (E : Backend) (o : Dtype) (axes : List Axis) (mask : List Bool) : Prop where
  creatable : Creatable E o.size (keep mask axes)
  chunks : ∀ x ∈ keep mask axes, 0 < x.chunkshape
  input : (∀ x ∈ keep mask axes, 0 < x.shape) → ∀ x ∈ axes, 0 < x.chunkshape ∧ 0 < x.blockshape

/-- Each step of the loop over the axes can be carried out. -/
def StepsReducible (E : Backend) (o : Dtype) : Nat → List Axis → List Nat → Prop
  | steps + 1, axes, k :: ks =>
    k < axes.length ∧ Reducible E o axes (axisMask k axes.length) ∧
      StepsReducible E o steps (axes.eraseIdx k) (ks.map (renumber k))
  | _, _, _ => True

/-! ## Fresh arrays -/

theorem Fresh.creatable {E : Backend} {a : CatArray} {itemsize o : Nat} {shape : List Nat}
    {st : CatervaStorage} (h : Fresh a itemsize shape st) :
    Creatable E o a.axes ↔ ∃ e, E.empty o shape st = .ok e := by
  rw [← h.shape, ← h.storage]
  rfl

theorem keep_axes {axes : List Axis} (mask : List Bool) :
    shapeOf (keep mask axes) = keep mask (shapeOf axes) ∧
      chunkshapeOf (keep mask axes) = keep mask (chunkshapeOf axes) ∧
      blockshapeOf (keep mask axes) = keep mask (blockshapeOf axes) :=
  ⟨(keep_map _ _ _).symm, (keep_map _ _ _).symm, (keep_map _ _ _).symm⟩

/-- The kept lengths, as an array of all of them has them. -/
theorem ints_keep {ms ns : List Nat} (mask : List Bool)
    (h : ints ms = ns.map fun n : Nat => toInt32 n) :
    ints (keep mask ms) = (keep mask ns).map fun n : Nat => toInt32 n := by
  rw [ints, ← keep_map, ← keep_map, ← h]
  rfl

/-- The tiling of a fresh array of the kept axes. -/
theorem Fresh.axes_keep {a c : CatArray} {s t : Nat} {shape : List Nat} {st : Storage}
    {mask : List Bool} (ha : Fresh a s shape (iarrayCreateCatervaStorage st))
    (hc : Fresh c t (keep mask shape)
      (iarrayCreateCatervaStorage ⟨keep mask st.chunkshape, keep mask st.blockshape⟩)) :
    c.axes = keep mask a.axes := by
  obtain ⟨hShape, hChunk, hBlock⟩ := @keep_axes a.axes mask
  refine axes_ext ?_ ?_ ?_
  · rw [hShape]
    exact hc.shape.trans (congrArg (keep mask) ha.shape.symm)
  · rw [hChunk]
    exact ints_injective (hc.chunkshape.trans (ints_keep mask ha.chunkshape).symm)
  · rw [hBlock]
    exact ints_injective (hc.blockshape.trans (ints_keep mask ha.blockshape).symm)

theorem PlainOf.axes_eraseIdx {a b : Container} {d : Dtype} {k : Nat} (ha : Plain a)
    (h : PlainOf ⟨d, a.dtshape.shape.eraseIdx k⟩ (a.storage.eraseIdx k) b) :
    b.catarr.axes = a.catarr.axes.eraseIdx k := by
  have hFresh := h.plain.fresh
  rw [h.dtshape, h.storage] at hFresh
  exact ha.fresh.axes_eraseIdx hFresh

theorem Plain.creatable_keep {E : Backend} {a : Container} {o : Dtype} {mask : List Bool}
    (ha : Plain a) : Creatable E o.size (keep mask a.catarr.axes) ↔
      ∃ e, E.empty o.size (keep mask a.dtshape.shape) (iarrayCreateCatervaStorage
        ⟨keep mask a.storage.chunkshape, keep mask a.storage.blockshape⟩) = .ok e := by
  obtain ⟨hShape, hChunk, hBlock⟩ := @keep_axes a.catarr.axes mask
  have hChunks := ints_keep mask ha.fresh.chunkshape
  have hBlocks := ints_keep mask ha.fresh.blockshape
  rw [Creatable, hShape, hChunk, hBlock, ← ha.fresh.shape, iarrayCreateCatervaStorage, ← hChunks,
    ← hBlocks]
  rfl

theorem iarrayEmpty_succeeds_iff {E : Backend} {d : Dtshape} {st : Storage} :
    (∃ c, iarrayEmpty E d st = .ok c) ↔
      d.ndim ≤ dimensionMax ∧
        ∃ e, E.empty d.dtypeSize d.shape (iarrayCreateCatervaStorage st) = .ok e := by
  constructor
  · rintro ⟨c, h⟩
    obtain ⟨_, hNew, h⟩ := Result.bind_eq_ok.mp h
    obtain ⟨e, hEmpty, _⟩ := Result.bind_eq_ok.mp h
    exact ⟨(containerNew_ok hNew).1, e, hEmpty⟩
  · rintro ⟨hNdim, e, hEmpty⟩
    exact ⟨newContainer d st e, by
      rw [iarrayEmpty, iarrayContainerNew, if_neg (by omega), Result.ok_bind, hEmpty]
      rfl⟩

/-- The loop over the chunks succeeds when the chunks can be counted and the prefilter succeeds
for every block. -/
theorem writeChunks_succeeds_iff {a : CatArray}
    {prefilter : Nat → List Nat → Nat → Result (List Cell)} :
    (∃ b, a.writeChunks prefilter = .ok b) ↔ (∀ x ∈ a.axes, 0 < x.chunkshape) ∧
      ∀ c < a.nchunks, ∀ k < (a.axes.map Axis.blocks).prod,
        ∃ out, prefilter c (partShape a.axes c) k = .ok out := by
  constructor
  · rintro ⟨b, h⟩
    obtain ⟨hPos, block, hBlock, _⟩ := writeChunks_eq_ok.mp h
    exact ⟨hPos, fun c hc k hk => ⟨_, hBlock c hc k hk⟩⟩
  · rintro ⟨hPos, hOut⟩
    choose block hBlock using hOut
    refine ⟨_, writeChunks_eq_ok.mpr ⟨hPos, fun c k =>
      if hc : c < a.nchunks then
        if hk : k < (a.axes.map Axis.blocks).prod then block c hc k hk else []
      else [], fun c hc k hk => ?_, rfl⟩⟩
    simp only [dif_pos hc, dif_pos hk]
    exact hBlock c hc k hk

/-- A fresh container of the kept axes whose chunks are written by a prefilter that only
divides by the tiles of the input. -/
theorem emptyWrite_succeeds_iff {E : Backend} (hE : E.Lawful) {o : Dtype} {mask : List Bool}
    {a : Container} (ha : Plain a) (hMask : mask.length = a.dtshape.ndim)
    {prefilter : Container → Nat → List Nat → Nat → Result (List Cell)}
    (hPrefilter : ∀ c nchunk part nblock, (∀ x ∈ c.catarr.axes, 0 < x.shape) →
      ((∃ out, prefilter c nchunk part nblock = .ok out) ↔
        ∀ x ∈ a.catarr.axes, 0 < x.chunkshape ∧ 0 < x.blockshape)) :
    (∃ b, (do
      let c ← iarrayEmpty E ⟨o, keep mask a.dtshape.shape⟩
        ⟨keep mask a.storage.chunkshape, keep mask a.storage.blockshape⟩
      let catarr ← c.catarr.writeChunks (prefilter c)
      pure { c with catarr := catarr }) = .ok b) ↔ Reducible E o a.catarr.axes mask := by
  have hCreatable := @Plain.creatable_keep E a o mask ha
  have hNdim : Dtshape.ndim ⟨o, keep mask a.dtshape.shape⟩ ≤ dimensionMax := by
    have hLe : mask.count false ≤ mask.length := List.count_le_length
    rw [Dtshape.ndim, length_keep hMask.symm]
    exact hLe.trans (hMask ▸ ha.ndim)
  have hAxes : ∀ {c}, iarrayEmpty E ⟨o, keep mask a.dtshape.shape⟩
      ⟨keep mask a.storage.chunkshape, keep mask a.storage.blockshape⟩ = .ok c →
      c.catarr.axes = keep mask a.catarr.axes := by
    intro c hEmpty
    obtain ⟨hc, hDtshape, hStorage⟩ := iarrayEmpty_plain hE hEmpty
    have hFresh := hc.fresh
    rw [hDtshape, hStorage] at hFresh
    exact ha.fresh.axes_keep hFresh
  constructor
  · rintro ⟨b, h⟩
    obtain ⟨c, hEmpty, h⟩ := Result.bind_eq_ok.mp h
    obtain ⟨catarr, hWrite, _⟩ := Result.bind_eq_ok.mp h
    obtain ⟨hPos, hOut⟩ := writeChunks_succeeds_iff.mp ⟨_, hWrite⟩
    rw [hAxes hEmpty] at hPos
    refine ⟨hCreatable.mpr (iarrayEmpty_succeeds_iff.mp ⟨_, hEmpty⟩).2, hPos, fun hShape => ?_⟩
    rw [← hAxes hEmpty] at hShape
    obtain ⟨hChunks, hBlocks⟩ := nchunks_pos hShape
    exact (hPrefilter c _ _ _ hShape).mp (hOut 0 hChunks 0 hBlocks)
  · intro hReducible
    obtain ⟨c, hEmpty⟩ := iarrayEmpty_succeeds_iff.mpr
      ⟨hNdim, hCreatable.mp hReducible.creatable⟩
    have hPos : ∀ x ∈ c.catarr.axes, 0 < x.chunkshape := by
      rw [hAxes hEmpty]
      exact hReducible.chunks
    obtain ⟨catarr, hWrite⟩ := writeChunks_succeeds_iff.mpr ⟨hPos, fun n hn k _ => by
      have hShape := shape_pos_of_nchunks hn
      refine (hPrefilter c n (partShape c.catarr.axes n) k hShape).mpr (hReducible.input ?_)
      rwa [← hAxes hEmpty]⟩
    exact ⟨_, by rw [hEmpty, Result.ok_bind, hWrite]; rfl⟩

/-! ## Removing one axis -/

section Steps

variable {E : Backend} {func : ReduceFunc} {f f₂ : ReduceFunction} {a c : Container} {k : Nat}

theorem reducePrefilter_succeeds (hFinish : ∀ u acc, ∃ v, f.finish u acc = .ok v)
    (hResult : ∀ x ∈ c.catarr.axes, 0 < x.shape)
    (hInput : ∀ x ∈ a.catarr.axes, 0 < x.chunkshape ∧ 0 < x.blockshape)
    (nchunk nblock : Nat) (part : List Nat) :
    ∃ out, reducePrefilter E f a c k nchunk part nblock = .ok out := by
  obtain ⟨inputBlocks, hBlocks⟩ := shapeOfBlocks_succeeds fun x hx => (hInput x hx).2
  unfold reducePrefilter
  rw [shapeOfChunks_ok fun x hx => x.chunk_pos (hResult x hx), Result.ok_bind,
    shapeOfBlocks_ok hResult, Result.ok_bind, hBlocks, Result.ok_bind,
    shapeOfChunks_ok fun x hx => (hInput x hx).1, Result.ok_bind]
  refine Result.mapM_succeeds fun ind _ => ?_
  split
  · exact ⟨_, rfl⟩
  · obtain ⟨v, hv⟩ := hFinish _ _
    exact ⟨_, by rw [hv]; rfl⟩

/-- A prefilter that succeeds has divided by the tiles of the input. -/
theorem input_pos_of_reducePrefilter {nchunk nblock : Nat} {part : List Nat} {out : List Cell}
    (h : reducePrefilter E f a c k nchunk part nblock = .ok out) :
    ∀ x ∈ a.catarr.axes, 0 < x.chunkshape ∧ 0 < x.blockshape := by
  obtain ⟨_, _, h⟩ := Result.bind_eq_ok.mp h
  obtain ⟨_, _, h⟩ := Result.bind_eq_ok.mp h
  obtain ⟨_, hBlocks, h⟩ := Result.bind_eq_ok.mp h
  obtain ⟨_, hChunks, _⟩ := Result.bind_eq_ok.mp h
  exact fun x hx => ⟨mapM_idiv_eq_ok hChunks x hx, mapM_idiv_eq_ok hBlocks x hx⟩

theorem reduceUdf_succeeds_iff (hE : E.Lawful) (ha : Plain a) (hk : k < a.dtshape.ndim)
    (hFinish : ∀ u acc, ∃ v, f.finish u acc = .ok v) :
    (∃ b, _iarrayReduceUdf E a f k (a.storage.eraseIdx k) = .ok b) ↔
      Reducible E f.otype a.catarr.axes (axisMask k a.dtshape.ndim) := by
  have hShape : a.dtshape.shape.length = a.dtshape.ndim := rfl
  obtain ⟨hChunk, hBlock⟩ := ha.storage_length
  rw [← @emptyWrite_succeeds_iff E hE _ _ a ha (length_axisMask _ _) (fun c =>
    reducePrefilter E f a c k) fun c nchunk part nblock hResult =>
      ⟨fun ⟨_, h⟩ => input_pos_of_reducePrefilter h, fun hInput =>
        reducePrefilter_succeeds hFinish hResult hInput nchunk nblock part⟩]
  rw [keep_axisMask hShape hk, keep_axisMask hChunk hk, keep_axisMask hBlock hk,
    reduceUdf_eq ha hk]
  rfl

/-- The reductions of the axis-by-axis path always finish. -/
theorem finish_succeeds {m : Machine} {d : Dtype} (hMulti : func.isMulti = true)
    (hf : reduceFunction m func d = .ok f) (u : UserData) (acc : Acc) :
    ∃ v, f.finish u acc = .ok v := by
  cases func
  case max =>
    cases hf
    unfold ReduceFunction.max
    split <;> exact ⟨_, rfl⟩
  case min =>
    cases hf
    unfold ReduceFunction.min
    split <;> exact ⟨_, rfl⟩
  case nanMax | nanMin | nanSum | nanProd =>
    obtain ⟨_, rfl⟩ := nanReduction_eq_ok hf
    exact ⟨_, rfl⟩
  case sum | prod | mean | all | any =>
    cases hf
    exact ⟨_, rfl⟩
  all_goals cases hMulti

theorem reduceAxes_succeeds_iff (hE : E.Lawful) (hMulti : func.isMulti = true) (ha : Plain a)
    (hf : reduceFunction E.machine func a.dtshape.dtype = .ok f) (n : Nat) {axes : List Nat}
    (hNodup : axes.Nodup) (hRange : ∀ k ∈ axes, k < a.dtshape.ndim) :
    (∃ b, reduceAxes E func n a axes = .ok b) ↔
      StepsReducible E f.otype n a.catarr.axes axes := by
  induction n generalizing a f axes with
  | zero => exact ⟨fun _ => trivial, fun _ => ⟨a, by cases axes <;> rfl⟩⟩
  | succ n ih =>
    cases axes with
    | nil => exact ⟨fun _ => trivial, fun _ => ⟨a, rfl⟩⟩
    | cons k axes =>
      obtain ⟨_, f₂, hNext, hStaged⟩ := exists_staged hMulti hf
      have hNdim := ha.catarr_ndim
      have hk := hRange k List.mem_cons_self
      have hNotMem := (List.nodup_cons.mp hNodup).1
      have hRest : ∀ {c}, _iarrayReduceUdf E a f k (a.storage.eraseIdx k) = .ok c →
          ((∃ b, reduceAxes E func n c (axes.map (renumber k)) = .ok b) ↔
            StepsReducible E f.otype n (a.catarr.axes.eraseIdx k) (axes.map (renumber k))) := by
        intro c hc
        obtain ⟨hPlain, _⟩ := reduceUdf_ok hE ha hk hStaged.reduction hc
        have hAxes := hPlain.axes_eraseIdx ha
        have hChoose : reduceFunction E.machine func c.dtshape.dtype = .ok f₂ := by
          rw [hPlain.dtshape]
          exact hNext.choose
        have hLeft : c.dtshape.ndim = a.dtshape.ndim - 1 := by
          rw [hPlain.dtshape, Dtshape.ndim, List.length_eraseIdx_of_lt hk]
          rfl
        have hRange' := renumber_lt hk hNotMem fun j hj => hRange j (List.mem_cons_of_mem _ hj)
        rw [ih hPlain.plain hChoose (nodup_map_renumber hNodup) (by rwa [hLeft]), hAxes,
          hNext.otype]
      have hUdf := reduceUdf_succeeds_iff (f := f) hE ha hk (finish_succeeds hMulti hf)
      rw [← hNdim] at hUdf
      rw [StepsReducible]
      constructor
      · rintro ⟨b, h⟩
        obtain ⟨c, hc, h⟩ := reduceAxes_cons_ok hf h
        exact ⟨by rwa [← hNdim] at hk, hUdf.mp ⟨c, hc⟩, (hRest hc).mp ⟨b, h⟩⟩
      · rintro ⟨_, hReducible, hSteps⟩
        obtain ⟨c, hc⟩ := hUdf.mpr hReducible
        obtain ⟨b, h⟩ := (hRest hc).mpr hSteps
        exact ⟨b, Result.bind_eq_ok.mpr ⟨c, (reduce_eq hf _).trans hc, h⟩⟩

/-- Removing the first axis and then the others, in the entries of a list. -/
theorem keep_reducedAxis_cons {α : Type} {m : Nat} {axes : List Nat} {as : List α}
    (hLen : as.length = m) (hk : k < m) (hNotMem : k ∉ axes) :
    keep (reducedAxis m (k :: axes)) as =
      keep (reducedAxis (m - 1) (axes.map (renumber k))) (as.eraseIdx k) := by
  rw [reducedAxis_cons hk hNotMem, keep_compose (by rw [length_reducedAxis, count_axisMask hk]),
    keep_axisMask hLen hk]

/-- The geometry of the result. -/
theorem reduceAxes_plain (hE : E.Lawful) (hMulti : func.isMulti = true) {n : Nat} {axes : List Nat}
    {b : Container} (ha : Plain a) (hf : reduceFunction E.machine func a.dtshape.dtype = .ok f)
    (hn : axes.length = n) (hNodup : (k :: axes).Nodup)
    (hRange : ∀ j ∈ k :: axes, j < a.dtshape.ndim)
    (h : reduceAxes E func (n + 1) a (k :: axes) = .ok b) :
    PlainOf ⟨f.otype, keep (reducedAxis a.dtshape.ndim (k :: axes)) a.dtshape.shape⟩
      ⟨keep (reducedAxis a.dtshape.ndim (k :: axes)) a.storage.chunkshape,
        keep (reducedAxis a.dtshape.ndim (k :: axes)) a.storage.blockshape⟩ b := by
  induction n generalizing a f k axes with
  | zero =>
    obtain rfl := List.length_eq_zero_iff.mp hn
    have hk := hRange k List.mem_cons_self
    have hShape : a.dtshape.shape.length = a.dtshape.ndim := rfl
    obtain ⟨hChunk, hBlock⟩ := ha.storage_length
    obtain ⟨_, _, _, hStaged⟩ := exists_staged hMulti hf
    obtain ⟨c, hStep, h⟩ := reduceAxes_cons_ok hf h
    obtain ⟨hPlain, _⟩ := reduceUdf_ok hE ha hk hStaged.reduction hStep
    cases h
    have hLast : ∀ {as : List Nat}, as.length = a.dtshape.ndim →
        keep (reducedAxis a.dtshape.ndim [k]) as = as.eraseIdx k := by
      intro as hLen
      rw [keep_reducedAxis_cons hLen hk (by simp), List.map_nil, reducedAxis_nil,
        keep_replicate_false (by rw [List.length_eraseIdx_of_lt (by omega), hLen])]
    rw [hLast hShape, hLast hChunk, hLast hBlock]
    exact hPlain
  | succ n ih =>
    have hk := hRange k List.mem_cons_self
    have hNotMem := (List.nodup_cons.mp hNodup).1
    have hShape : a.dtshape.shape.length = a.dtshape.ndim := rfl
    obtain ⟨hChunk, hBlock⟩ := ha.storage_length
    obtain ⟨_, f₂, hNext, hStaged⟩ := exists_staged hMulti hf
    obtain ⟨c, hStep, h⟩ := reduceAxes_cons_ok hf h
    obtain ⟨hPlain, _⟩ := reduceUdf_ok hE ha hk hStaged.reduction hStep
    have hNodup' := nodup_map_renumber hNodup
    have hRange' := renumber_lt hk hNotMem fun j hj => hRange j (List.mem_cons_of_mem _ hj)
    have hNdim : c.dtshape.ndim = a.dtshape.ndim - 1 := by
      rw [hPlain.dtshape, Dtshape.ndim, List.length_eraseIdx_of_lt hk]
      rfl
    obtain ⟨j, axes, rfl⟩ := List.exists_cons_of_length_eq_add_one hn
    have hRest := ih hPlain.plain (by rw [hPlain.dtshape, hNext.choose])
      (by simpa using hn) hNodup' (by rwa [hNdim]) h
    rw [hNext.otype, hNdim, hPlain.dtshape, hPlain.storage] at hRest
    rw [keep_reducedAxis_cons hShape hk hNotMem, keep_reducedAxis_cons hChunk hk hNotMem,
      keep_reducedAxis_cons hBlock hk hNotMem]
    exact hRest

end Steps

/-! ## The copy at the end -/

theorem copyResult_succeeds_iff {E : Backend} (hE : E.Lawful) {c : Container} (hc : Plain c)
    {storage : Storage} :
    (∃ b, copyResult E c storage = .ok b) ↔ c.needsCopy storage = false ∨
      ∃ e, E.empty c.dtshape.dtypeSize c.dtshape.shape (iarrayCreateCatervaStorage storage) =
        .ok e := by
  unfold copyResult
  by_cases hNeeds : c.needsCopy storage = true
  · rw [if_pos hNeeds, iarrayCopy, hc.containerViewed, ← hc.fresh.itemsize, ← hc.fresh.shape,
      ← hE.copy_accepts hc.fresh.sized hc.fresh.postfilter]
    simp only [hNeeds, Bool.true_eq_false, false_or, Option.isSome_none, Bool.false_and,
      Bool.false_eq_true, if_false]
    constructor
    · rintro ⟨b, h⟩
      obtain ⟨_, _, h⟩ := Result.bind_eq_ok.mp h
      obtain ⟨catarr, hCopy, _⟩ := Result.bind_eq_ok.mp h
      exact ⟨catarr, hCopy⟩
    · rintro ⟨catarr, hCopy⟩
      refine ⟨newContainer c.dtshape storage catarr, ?_⟩
      have hNdim := hc.ndim
      rw [iarrayContainerNew, if_neg (by omega), Result.ok_bind, hCopy]
      rfl
  · rw [if_neg hNeeds]
    simp only [Bool.not_eq_true] at hNeeds
    exact ⟨fun _ => .inl hNeeds, fun _ => ⟨c, rfl⟩⟩

/-- Whether the copy succeeds depends on the geometry alone. -/
theorem PlainOf.copyResult_succeeds_iff {E : Backend} (hE : E.Lawful) {d : Dtshape}
    {st storage : Storage} {c c' : Container} (hc : PlainOf d st c) (hc' : PlainOf d st c') :
    (∃ b, copyResult E c storage = .ok b) ↔ ∃ b, copyResult E c' storage = .ok b := by
  have hNeeds : c.needsCopy storage = c'.needsCopy storage := by
    simp only [Container.needsCopy, hc.dtshape, hc'.dtshape, hc.storage, hc'.storage]
  rw [IronArray.copyResult_succeeds_iff hE hc.plain, IronArray.copyResult_succeeds_iff hE hc'.plain,
    hNeeds, hc.dtshape, hc'.dtshape]

/-- Whether a reduction succeeds depends on the geometry alone. -/
theorem reduceMulti_succeeds_of_geometry {E : Backend} (hE : E.Lawful) {a a' b : Container}
    {func : ReduceFunc} {axes : List Nat} {storage : Storage} {correction : FP} (ha : Plain a)
    (ha' : PlainOf a.dtshape a.storage a') (hNodup : axes.Nodup)
    (hRange : ∀ k ∈ axes, k < a.dtshape.ndim)
    (h : iarrayReduceMulti E a func (ints axes) storage false correction = .ok b) :
    ∃ b', iarrayReduceMulti E a' func (ints axes) storage false correction = .ok b' := by
  have hRange' : ∀ k ∈ axes, k < a'.dtshape.ndim := by rwa [ha'.dtshape]
  obtain ⟨hMulti, hSome, c, hRun, hCopy⟩ := reduceMulti_eq_ok ha hNodup hRange h
  rw [reduceMulti_eq ha hNodup hRange] at h
  rw [reduceMulti_eq ha'.plain hNodup hRange', ha'.dtshape]
  have hAxes := ha'.same_axes ha
  obtain ⟨k, axes, rfl⟩ := List.exists_cons_of_ne_nil hSome
  obtain ⟨f, hf⟩ : ∃ f, reduceFunction E.machine func a.dtshape.dtype = .ok f := by
    obtain ⟨_, hStep, _⟩ := Result.bind_eq_ok.mp hRun
    obtain ⟨f, hf, _⟩ := Result.bind_eq_ok.mp hStep
    exact ⟨f, hf⟩
  have hf' : reduceFunction E.machine func a'.dtshape.dtype = .ok f := by rwa [ha'.dtshape]
  obtain ⟨c', hRun'⟩ := (reduceAxes_succeeds_iff hE hMulti ha'.plain hf' _ hNodup hRange').mpr
    (hAxes ▸ (reduceAxes_succeeds_iff hE hMulti ha hf _ hNodup hRange).mp ⟨c, hRun⟩)
  have hc := reduceAxes_plain hE hMulti ha hf rfl hNodup hRange hRun
  have hc' := reduceAxes_plain hE hMulti ha'.plain hf' rfl hNodup hRange' hRun'
  rw [ha'.dtshape, ha'.storage] at hc'
  obtain ⟨b', hCopy'⟩ := (hc.copyResult_succeeds_iff hE hc').mp ⟨b, hCopy⟩
  refine ⟨b', ?_⟩
  split at h
  · cases h
  rename_i hCorrection
  split at h
  · cases h
  rename_i hKnown
  split at h
  · cases h
  rename_i hLength
  rw [if_neg hCorrection, if_neg hKnown, if_neg hLength, if_neg hSome]
  exact Result.bind_eq_ok.mpr ⟨c', hRun', hCopy'⟩

end IronArray
