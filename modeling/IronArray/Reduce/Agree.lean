import IronArray.Core.Limits
import IronArray.Reduce.Truth
import IronArray.Reduce.Variance

/-!
# One axis after the other or all at once

`oneshot_agrees` compares the two reductions where both exist. They differ in the lists they
accept (a repeated axis), and the axis-by-axis reduction needs Caterva to make its intermediate
arrays. Where both succeed the results are the same.
-/

namespace IronArray

open Grid ReduceFunction CatArray

/-! ## Repeated axes -/

section Repeated

variable {ndim : Nat} {axes used : List Nat}

theorem checkAxes_repeated (hNdim : ndim ≤ dimensionMax) (hRange : ∀ k ∈ axes, k < ndim)
    (hUsed : used.Nodup) (hRepeated : ¬ (used ++ axes).Nodup) :
    checkAxes ndim (ints axes) used = inaError .invalidAxis := by
  induction axes generalizing used with
  | nil =>
    rw [List.append_nil] at hRepeated
    exact absurd hUsed hRepeated
  | cons k axes ih =>
    have hk := hRange k List.mem_cons_self
    rw [ints_cons, checkAxes, if_neg (by omega), if_neg (by omega), Int.toNat_natCast]
    by_cases hMem : k ∈ used
    · rw [if_pos hMem]
    · rw [if_neg hMem]
      refine ih (fun j hj => hRange j (List.mem_cons_of_mem _ hj)) ?_ ?_
      · rw [List.nodup_append]
        exact ⟨hUsed, List.nodup_singleton k, by
          rintro i hi _ (_ | _) rfl
          · exact hMem hi
          · contradiction⟩
      · rwa [List.append_assoc]

/-- The loop collects each axis at its first place. -/
theorem collectAxes_eraseDups (hNdim : ndim ≤ dimensionMax) (hRange : ∀ k ∈ axes, k < ndim) :
    collectAxes ndim (ints axes) used =
      .ok (used ++ (axes.filter fun k => k ∉ used).eraseDups) := by
  induction axes generalizing used with
  | nil => simp [collectAxes]
  | cons k axes ih =>
    have hk := hRange k List.mem_cons_self
    have hRest := fun used' =>
      @ih used' (fun j hj => hRange j (List.mem_cons_of_mem _ hj))
    rw [ints_cons, collectAxes, if_neg (by omega), if_neg (by omega), Int.toNat_natCast]
    by_cases hMem : k ∈ used
    · rw [if_pos hMem, hRest, List.filter_cons_of_neg (by simpa using hMem)]
    · have hSame : (axes.filter fun j => j ∉ used ++ [k]) =
          (axes.filter fun j => j ∉ used).filter fun j => !j == k := by
        rw [List.filter_filter]
        refine List.filter_congr fun j _ => ?_
        by_cases hj : j = k <;> simp [hj]
      rw [if_neg hMem, hRest, List.filter_cons_of_pos (by simpa using hMem), List.eraseDups_cons,
        hSame, List.append_assoc]
      rfl

theorem nodup_eraseDups (axes : List Nat) : axes.eraseDups.Nodup := by
  induction hLength : axes.length using Nat.strong_induction_on generalizing axes with
  | _ n ih =>
    cases axes with
    | nil => exact List.nodup_nil
    | cons k axes =>
      rw [List.eraseDups_cons, List.nodup_cons]
      refine ⟨fun hMem => ?_, ih _ ?_ _ rfl⟩
      · simpa using List.mem_eraseDups.mp hMem
      · rw [← hLength]
        exact Nat.lt_succ_of_le (List.length_filter_le _ _)

/-- The axis-by-axis reduction passes over repetitions. -/
theorem reduceMulti_eraseDups {E : Backend} {a : Container} {func : ReduceFunc}
    {storage : Storage} {correction : FP} (hNdim : a.dtshape.ndim ≤ dimensionMax)
    (hRange : ∀ k ∈ axes, k < a.dtshape.ndim) (hLength : axes.length ≤ a.dtshape.ndim) :
    iarrayReduceMulti E a func (ints axes) storage false correction =
      iarrayReduceMulti E a func (ints axes.eraseDups) storage false correction := by
  have hShorter : axes.eraseDups.length ≤ a.dtshape.ndim :=
    ((nodup_eraseDups axes).subperm fun k hk => List.mem_eraseDups.mp hk).length_le.trans hLength
  have hCollect : collectAxes a.dtshape.ndim (ints axes) [] = .ok axes.eraseDups := by
    rw [collectAxes_eraseDups hNdim hRange]
    simp
  have hAgain : collectAxes a.dtshape.ndim (ints axes.eraseDups) [] = .ok axes.eraseDups :=
    collectAxes_of_checkAxes (checkAxes_ok hNdim (by simpa using nodup_eraseDups axes)
      fun k hk => hRange k (List.mem_eraseDups.mp hk))
  unfold iarrayReduceMulti
  simp only [hCollect, hAgain, length_ints, Nat.not_lt.mpr hLength, Nat.not_lt.mpr hShorter,
    if_false]
  rfl

/-- The one-shot reduction refuses them. -/
theorem reduceMulti_repeated {E : Backend} {a : Container} {func : ReduceFunc}
    {storage : Storage} (hNdim : a.dtshape.ndim ≤ dimensionMax)
    (hRange : ∀ k ∈ axes, k < a.dtshape.ndim) (hRepeated : ¬ axes.Nodup) :
    iarrayReduceMulti E a func (ints axes) storage true (.fin 0) = inaError .invalidAxis := by
  have hCheck := checkAxes_repeated hNdim hRange List.nodup_nil (by simpa using hRepeated)
  rw [iarrayReduceMulti, if_neg (by simp), if_pos rfl, _iarrayReduceOneshot, oneshotAround, hCheck]
  exact ite_self _

end Repeated

/-! ## When the one-shot reduction succeeds -/

section Accepts

variable {E : Backend} {func : ReduceFunc} {f : ReduceFunction} {a c : Container}
  {axes : List Nat} {storage : Storage} {correction : FP}

theorem generalPrefilter_succeeds_iff {aux : Option CatArray}
    (hRange : ∀ k ∈ axes, k < a.dtshape.ndim)
    (hFinish : ∀ u acc, ∃ v, f.finish u acc = .ok v)
    (hResult : ∀ x ∈ c.catarr.axes, 0 < x.shape) (nchunk : Nat) (part : List Nat) (nblock : Nat) :
    (∃ out, reduceGeneralPrefilter E f a c axes correction aux nchunk part nblock = .ok out) ↔
      ∀ x ∈ a.catarr.axes, 0 < x.chunkshape ∧ 0 < x.blockshape := by
  have hCells : (∃ cells, blockCells f a c axes correction aux nchunk part nblock = .ok cells) ↔
      ∀ x ∈ a.catarr.axes, 0 < x.chunkshape ∧ 0 < x.blockshape := by
    unfold blockCells
    rw [shapeOfChunks_ok fun x hx => x.chunk_pos (hResult x hx), Result.ok_bind,
      shapeOfBlocks_ok hResult]
    constructor
    · rintro ⟨cells, h⟩
      obtain ⟨_, hChunks, h⟩ := Result.bind_eq_ok.mp h
      obtain ⟨_, _, h⟩ := Result.bind_eq_ok.mp h
      obtain ⟨_, hBlocks, _⟩ := Result.bind_eq_ok.mp h
      exact fun x hx => ⟨mapM_idiv_eq_ok hChunks x hx, mapM_idiv_eq_ok hBlocks x hx⟩
    · intro hInput
      obtain ⟨inputBlocks, hBlocks⟩ := shapeOfBlocks_succeeds fun x hx => (hInput x hx).2
      rw [shapeOfChunks_ok fun x hx => (hInput x hx).1, Result.ok_bind, Result.ok_bind, hBlocks]
      exact ⟨_, rfl⟩
  rw [← hCells, reduceGeneralPrefilter_eq hRange]
  constructor
  · rintro ⟨out, h⟩
    obtain ⟨cells, hOk, _⟩ := Result.bind_eq_ok.mp h
    exact ⟨cells, hOk⟩
  · rintro ⟨cells, hOk⟩
    rw [hOk, Result.ok_bind]
    refine Result.mapM_succeeds fun p _ => ?_
    obtain ⟨v, hv⟩ := hFinish p.1.userData p.2
    exact ⟨_, by rw [finishCell, hv]; rfl⟩

theorem reduce2Udf_succeeds_iff (hE : E.Lawful) (ha : Plain a) (hSome : axes ≠ [])
    (hNodup : axes.Nodup) (hRange : ∀ k ∈ axes, k < a.dtshape.ndim)
    (hFinish : ∀ u acc, ∃ v, f.finish u acc = .ok v) :
    (∃ b, _iarrayReduce2Udf E a f axes (a.storage.keep (reducedAxis a.dtshape.ndim axes)) none
      correction = .ok b) ↔
      Reducible E f.otype a.catarr.axes (reducedAxis a.dtshape.ndim axes) := by
  have hRank : ¬ a.dtshape.ndim < 1 := by
    obtain ⟨k, hk⟩ := List.exists_mem_of_ne_nil axes hSome
    have := hRange k hk
    omega
  rw [← emptyWrite_succeeds_iff hE ha (length_reducedAxis _ _) (fun c nchunk part nblock hResult =>
    @generalPrefilter_succeeds_iff E f a c axes correction none hRange hFinish hResult nchunk part
      nblock),
    reduce2Udf_eq ha hNodup hRange, if_neg hRank]
  rfl

/-! ## The intermediate arrays -/

section Stages

variable {o : Dtype} {mask : List Bool}

theorem reducible_iff {axes : List Axis} (hTiles : ∀ x ∈ axes, 0 < x.chunkshape ∧ 0 < x.blockshape) :
    Reducible E o axes mask ↔ Creatable E o.size (keep mask axes) :=
  ⟨Reducible.creatable, fun h => ⟨h, fun x hx => (hTiles x (mem_of_mem_keep hx)).1,
    fun _ => hTiles⟩⟩

/-- The loop over the axes needs the array of every stage. -/
theorem stepsReducible_iff {axes : List Axis} {ks : List Nat}
    (hTiles : ∀ x ∈ axes, 0 < x.chunkshape ∧ 0 < x.blockshape) (hNodup : ks.Nodup)
    (hRange : ∀ k ∈ ks, k < axes.length) : StepsReducible E o ks.length axes ks ↔
      ∀ i, 0 < i → i ≤ ks.length →
        Creatable E o.size (keep (reducedAxis axes.length (ks.take i)) axes) := by
  induction hLength : ks.length generalizing ks axes with
  | zero =>
    constructor
    · intro _ i hPos hi
      omega
    · intro _
      cases ks <;> trivial
  | succ n ih =>
    obtain ⟨k, ks, rfl⟩ := List.exists_cons_of_length_eq_add_one hLength
    have hk := hRange k List.mem_cons_self
    have hNotMem := (List.nodup_cons.mp hNodup).1
    have hErased : (axes.eraseIdx k).length = axes.length - 1 := List.length_eraseIdx_of_lt hk
    have hTiles' : ∀ x ∈ axes.eraseIdx k, 0 < x.chunkshape ∧ 0 < x.blockshape :=
      fun x hx => hTiles x (List.mem_of_mem_eraseIdx hx)
    have hRange' : ∀ j ∈ ks.map (renumber k), j < (axes.eraseIdx k).length := by
      rw [hErased]
      exact renumber_lt hk hNotMem fun j hj => hRange j (List.mem_cons_of_mem _ hj)
    have hStage : ∀ i, keep (reducedAxis (axes.eraseIdx k).length ((ks.map (renumber k)).take i))
        (axes.eraseIdx k) = keep (reducedAxis axes.length ((k :: ks).take (i + 1))) axes := by
      intro i
      rw [List.take_succ_cons, keep_reducedAxis_cons rfl hk fun h => hNotMem (List.mem_of_mem_take h),
        hErased, List.map_take]
    have hFirst : keep (axisMask k axes.length) axes =
        keep (reducedAxis axes.length ((k :: ks).take (0 + 1))) axes := by
      rw [← hStage 0, List.take_zero, reducedAxis_nil, keep_replicate_false rfl,
        keep_axisMask rfl hk]
    rw [StepsReducible, reducible_iff hTiles, ih hTiles' (nodup_map_renumber hNodup) hRange'
      (by simpa using hLength), hFirst]
    constructor
    · rintro ⟨_, hOne, hMore⟩ i hPos hi
      obtain ⟨i, rfl⟩ := Nat.exists_eq_add_one_of_ne_zero hPos.ne'
      rcases Nat.eq_zero_or_pos i with rfl | hLater
      · exact hOne
      · rw [← hStage]
        exact hMore i hLater (by omega)
    · intro hAll
      refine ⟨hk, hAll _ Nat.one_pos (by omega), fun i hPos hi => ?_⟩
      rw [hStage]
      exact hAll (i + 1) (Nat.succ_pos i) (by omega)

end Stages

end Accepts

/-! ## The same results -/

/-- Of the data that the functions find, those of the axis-by-axis path use the number of elements
only. -/
theorem sees_invNelem {m : Machine} {func : ReduceFunc} {d : Dtype} {f : ReduceFunction}
    (hMulti : func.isMulti = true) (hf : reduceFunction m func d = .ok f) {u u' : UserData}
    (h : u.invNelem = u'.invNelem) : f.step u = f.step u' ∧ f.finish u = f.finish u' := by
  cases func
  case max =>
    cases hf
    unfold ReduceFunction.max
    split <;> exact ⟨rfl, rfl⟩
  case min =>
    cases hf
    unfold ReduceFunction.min
    split <;> exact ⟨rfl, rfl⟩
  case nanMax | nanMin | nanSum | nanProd =>
    obtain ⟨_, rfl⟩ := nanReduction_eq_ok hf
    exact ⟨rfl, rfl⟩
  case mean =>
    cases hf
    refine ⟨rfl, ?_⟩
    funext acc
    change Except.ok ((acc.res.mul (.fp u.invNelem)).assign d.meanType) = _
    rw [h]
    rfl
  case sum | prod | all | any =>
    cases hf
    exact ⟨rfl, rfl⟩
  all_goals cases hMulti

theorem invNelems_eq_invNelem (ns : List Nat) : invNelems (.fin 0) ns = invNelem ns.prod := by
  by_cases hZero : ns.prod = 0
  · have hSome : ¬ ∀ n ∈ ns, (0 : ℚ) < n := by
      intro hAll
      have hMem : 0 ∈ ns := List.prod_eq_zero_iff.mp hZero
      exact absurd (hAll 0 hMem) (by simp)
    rw [invNelems_eq, if_neg hSome, hZero]
    simp [invNelem, FP.div, FP.infOf_pos]
  · rw [invNelems_zero hZero, invNelem_pos (Nat.pos_of_ne_zero hZero)]

/-- The result of the one-shot reduction is the value of the slab. -/
theorem Folded.value {m : Machine} {func : ReduceFunc} {a : Container} {f : ReduceFunction}
    {axes : List Nat} {mean : Num} {y : List Nat} {v : Num} (hMulti : func.isMulti = true)
    (hf : reduceFunction m func a.dtshape.dtype = .ok f) (hNodup : axes.Nodup)
    (hRange : ∀ k ∈ axes, k < a.dtshape.ndim)
    (hy : InBox y (keep (reducedAxis a.dtshape.ndim axes) a.dtshape.shape))
    (h : Folded a f (reducedAxis a.dtshape.ndim axes)
      ⟨invNelems (.fin 0) (axes.map fun i => a.dtshape.shape.getD i 0), .fin 0, mean⟩ y v) :
    ∃ elems, elems.Perm (a.slab (reducedAxis a.dtshape.ndim axes) y) ∧ f.value elems = .ok v := by
  obtain ⟨order, hPerm, hFinish⟩ := h
  refine ⟨order.map a.elem, hPerm.map a.elem, ?_⟩
  have hLength : (order.map a.elem).length = (reducedShape a axes).prod := by
    rw [List.length_map, hPerm.length_eq, length_slab_reduced hNodup hRange hy]
  have hInv : (slabData (order.map a.elem).length).invNelem =
      invNelems (.fin 0) (axes.map fun i => a.dtshape.shape.getD i 0) := by
    rw [slabData, hLength, invNelems_eq_invNelem]
    rfl
  obtain ⟨hStep, hEnd⟩ := @sees_invNelem m func _ f hMulti hf _ ⟨invNelems (.fin 0)
    (axes.map fun i => a.dtshape.shape.getD i 0), .fin 0, mean⟩ hInv
  rw [ReduceFunction.value, hStep, hEnd, ← hFinish, foldAt_eq a (reduceFunction_itype hf)]
  rfl

/-- Elements are addressed in units of their own size, except by `ALL` and `ANY`. -/
theorem addressed_of_isMulti {m : Machine} {func : ReduceFunc} {d : Dtype} {f : ReduceFunction}
    {axes : List Axis} {k : Nat} (hMulti : func.isMulti = true)
    (hf : reduceFunction m func d = .ok f) (hk : k < axes.length)
    (hReadable : func = .all ∨ func = .any → TruthReadable d axes k) : Addressed f axes k := by
  by_cases hTruth : func = .all ∨ func = .any
  · refine addressed_of_readable hk ?_ ?_
    · rcases hTruth with rfl | rfl <;> cases hf <;> rfl
    · rw [reduceFunction_itype hf]
      exact hReadable hTruth
  · refine addressed_of_size ?_ _ _
    rw [reduceFunction_itype hf, blockPointer_eq hMulti (not_or.mp hTruth) hf]

/-! ## The calls on a plain container -/

/-- Caterva makes the array of every stage before the last one. -/
def StagesMade (E : Backend) (a : Container) (func : ReduceFunc) (axes : List Nat) : Prop :=
  ∀ f, reduceFunction E.machine func a.dtshape.dtype = .ok f → ∀ i, 0 < i → i < axes.length →
    ∃ e, E.empty f.otype.size (keep (reducedAxis a.dtshape.ndim (axes.take i)) a.dtshape.shape)
      (iarrayCreateCatervaStorage (a.storage.keep (reducedAxis a.dtshape.ndim (axes.take i)))) =
        .ok e

/-- The conditions on the data under which the axis-by-axis reduction is that of all elements. -/
structure Stageable (a : Container) (func : ReduceFunc) (axes : List Nat) : Prop where
  bounded : func = .nanSum ∨ func = .nanProd →
    ∀ x, InBox x a.dtshape.shape → Bounded (a.elem x)
  readable : func = .all ∨ func = .any →
    TruthReadable a.dtshape.dtype a.catarr.axes (axes.headD 0)

section Calls

variable {E : Backend} {func : ReduceFunc} {f : ReduceFunction} {a : Container}
  {axes : List Nat} {storage : Storage} {correction : FP}

theorem hasCorrection_of_isMulti (h : func.isMulti = true) : func.hasCorrection = false := by
  cases func <;> first | rfl | cases h

theorem auxiliary_of_isMulti (h : func.isMulti = true) : func.auxiliary = none := by
  cases func <;> first | rfl | cases h

/-- Neither call takes a correction. -/
theorem reduceMulti_correction (hMulti : func.isMulti = true) (h : correction ≠ .fin 0)
    (axis : List Int) (oneshot : Bool) :
    iarrayReduceMulti E a func axis storage oneshot correction = inaError .invalidArgument := by
  rw [iarrayReduceMulti, hasCorrection_of_isMulti hMulti, if_pos ⟨rfl, h⟩]

/-- The one-shot reduction of a plain container along distinct axes in range. -/
theorem reduceMulti_oneshot_eq (ha : Plain a) (hMulti : func.isMulti = true)
    (hNodup : axes.Nodup) (hRange : ∀ k ∈ axes, k < a.dtshape.ndim) :
    iarrayReduceMulti E a func (ints axes) storage true (.fin 0) =
      if a.dtshape.ndim < axes.length then inaError .invalidAxis
      else reduceFunction E.machine func a.dtshape.dtype >>= fun f =>
        _iarrayReduce2Udf E a f axes (a.storage.keep (reducedAxis a.dtshape.ndim axes)) none
          (.fin 0) >>= fun c => copyResult E c storage := by
  rw [iarrayReduceMulti, if_neg (by simp), if_pos rfl, _iarrayReduceOneshot, oneshotAround,
    checkAxes_ok ha.ndim (by simpa using hNodup) hRange, ha.copySource, length_ints]
  simp only [_iarrayReduce2, auxiliary_of_isMulti hMulti, Result.ok_bind, List.nil_append]
  split
  · rfl
  · exact bind_assoc _ _ _

/-- One axis after the other succeeds when all at once does and Caterva makes the arrays between. -/
theorem reduceAxes_succeeds_iff_stages {f : ReduceFunction} (hE : E.Lawful) (ha : Plain a)
    (hTiles : ∀ x ∈ a.catarr.axes, 0 < x.chunkshape ∧ 0 < x.blockshape)
    (hMulti : func.isMulti = true) (hNodup : axes.Nodup)
    (hRange : ∀ k ∈ axes, k < a.dtshape.ndim) (hSome : axes ≠ [])
    (hf : reduceFunction E.machine func a.dtshape.dtype = .ok f) :
    (∃ c, reduceAxes E func axes.length a axes = .ok c) ↔
      (∃ c, _iarrayReduce2Udf E a f axes (a.storage.keep (reducedAxis a.dtshape.ndim axes))
        none (.fin 0) = .ok c) ∧ StagesMade E a func axes := by
  have hNdim : a.catarr.axes.length = a.dtshape.ndim := ha.catarr_ndim
  have hPositive : 0 < axes.length := List.length_pos_iff.mpr hSome
  rw [reduceAxes_succeeds_iff hE hMulti ha hf _ hNodup hRange,
    reduce2Udf_succeeds_iff hE ha hSome hNodup hRange (finish_succeeds hMulti hf),
    stepsReducible_iff hTiles hNodup (by rwa [hNdim]), reducible_iff hTiles, hNdim]
  have hStage := fun i => @Plain.creatable_keep E a f.otype
    (reducedAxis a.dtshape.ndim (axes.take i)) ha
  constructor
  · intro hAll
    refine ⟨by simpa using hAll axes.length hPositive (Nat.le_refl _), ?_⟩
    intro g hg i hPos hi
    obtain rfl := Except.ok.inj (hf.symm.trans hg)
    exact (hStage i).mp (hAll i hPos hi.le)
  · rintro ⟨hLast, hStages⟩ i hPos hi
    rcases Nat.lt_or_eq_of_le hi with hlt | rfl
    · exact (hStage i).mpr (hStages f hf i hPos hlt)
    · rwa [List.take_length]

/-- The axis-by-axis reduction succeeds where the one-shot reduction does and the intermediate
arrays can be made. -/
theorem multi_succeeds_iff (hE : E.Lawful) (ha : Plain a)
    (hTiles : ∀ x ∈ a.catarr.axes, 0 < x.chunkshape ∧ 0 < x.blockshape)
    (hMulti : func.isMulti = true) (hNodup : axes.Nodup)
    (hRange : ∀ k ∈ axes, k < a.dtshape.ndim) (hSome : axes ≠ []) :
    (∃ b, iarrayReduceMulti E a func (ints axes) storage false (.fin 0) = .ok b) ↔
      (∃ b, iarrayReduceMulti E a func (ints axes) storage true (.fin 0) = .ok b) ∧
        StagesMade E a func axes := by
  obtain ⟨k, ks, hCons⟩ := List.exists_cons_of_ne_nil hSome
  rw [reduceMulti_oneshot_eq ha hMulti hNodup hRange, reduceMulti_eq ha hNodup hRange,
    if_neg (by simp), if_neg (by simp [hMulti]), if_neg hSome]
  by_cases hLength : a.dtshape.ndim < axes.length
  · rw [if_pos hLength, if_pos hLength]
    constructor
    · rintro ⟨b, h⟩
      cases h
    · rintro ⟨⟨b, h⟩, _⟩
      cases h
  rw [if_neg hLength, if_neg hLength]
  cases hf : reduceFunction E.machine func a.dtshape.dtype with
  | error e =>
    constructor
    · rintro ⟨b, h⟩
      obtain ⟨c, hRun, _⟩ := Result.bind_eq_ok.mp h
      rw [hCons] at hRun
      obtain ⟨_, hStep, _⟩ := Result.bind_eq_ok.mp hRun
      obtain ⟨f, hOk, _⟩ := Result.bind_eq_ok.mp hStep
      rw [hf] at hOk
      cases hOk
    · rintro ⟨⟨b, h⟩, _⟩
      cases h
  | ok f =>
    have hSteps := reduceAxes_succeeds_iff_stages hE ha hTiles hMulti hNodup hRange hSome hf
    have hRuns : ∀ {c}, reduceAxes E func axes.length a axes = .ok c →
        PlainOf ⟨f.otype, keep (reducedAxis a.dtshape.ndim axes) a.dtshape.shape⟩
          (a.storage.keep (reducedAxis a.dtshape.ndim axes)) c := by
      intro c h
      subst hCons
      exact reduceAxes_plain hE hMulti ha hf rfl hNodup hRange h
    have hOnce : ∀ {c}, _iarrayReduce2Udf E a f axes
          (a.storage.keep (reducedAxis a.dtshape.ndim axes)) none (.fin 0) = .ok c →
        PlainOf ⟨f.otype, keep (reducedAxis a.dtshape.ndim axes) a.dtshape.shape⟩
          (a.storage.keep (reducedAxis a.dtshape.ndim axes)) c := fun h =>
      (reduce2Udf_ok hE ha hNodup hRange (fun _ hAux => by cases hAux) h).1
    rw [Result.ok_bind]
    constructor
    · rintro ⟨b, h⟩
      obtain ⟨c, hRun, hCopy⟩ := Result.bind_eq_ok.mp h
      obtain ⟨⟨c', hRun'⟩, hStages⟩ := hSteps.mp ⟨c, hRun⟩
      obtain ⟨b', hCopy'⟩ := ((hRuns hRun).copyResult_succeeds_iff hE (hOnce hRun')).mp ⟨b, hCopy⟩
      exact ⟨⟨b', Result.bind_eq_ok.mpr ⟨c', hRun', hCopy'⟩⟩, hStages⟩
    · rintro ⟨⟨b, h⟩, hStages⟩
      obtain ⟨c, hRun, hCopy⟩ := Result.bind_eq_ok.mp h
      obtain ⟨c', hRun'⟩ := hSteps.mpr ⟨⟨c, hRun⟩, hStages⟩
      obtain ⟨b', hCopy'⟩ := ((hOnce hRun).copyResult_succeeds_iff hE (hRuns hRun')).mp ⟨b, hCopy⟩
      exact ⟨b', Result.bind_eq_ok.mpr ⟨c', hRun', hCopy'⟩⟩

/-- The results have the same shape and type, and the same elements. -/
theorem multi_same (hE : E.Lawful) (ha : Plain a) (hMulti : func.isMulti = true)
    (hNodup : axes.Nodup) (hRange : ∀ k ∈ axes, k < a.dtshape.ndim) (hPlaces : a.ReducesInPlace axes)
    {b b' : Container} (h : iarrayReduceMulti E a func (ints axes) storage false (.fin 0) = .ok b)
    (h' : iarrayReduceMulti E a func (ints axes) storage true (.fin 0) = .ok b') :
    b.dtshape = b'.dtshape ∧ (Stageable a func axes →
      ∀ y, InBox y b.dtshape.shape → b.elem y = b'.elem y) := by
  obtain ⟨f, hf, hDtshape', mean, _, hElems'⟩ := reduceMulti_oneshot hE ha hNodup hRange h'
  have hDtshape : b.dtshape =
      ⟨f.otype, keep (reducedAxis a.dtshape.ndim axes) a.dtshape.shape⟩ := by
    obtain ⟨_, hSome, c, hRun, hCopy⟩ := reduceMulti_eq_ok ha hNodup hRange h
    obtain ⟨k, ks, rfl⟩ := List.exists_cons_of_ne_nil hSome
    have hc := reduceAxes_plain hE hMulti ha hf rfl hNodup hRange hRun
    rw [(copyResult_ok hE hc.plain hCopy).2.1, hc.dtshape]
  refine ⟨hDtshape.trans hDtshape'.symm, fun hStageable y hy => ?_⟩
  have hFirst : axes.headD 0 < a.catarr.axes.length := by
    obtain ⟨k, ks, rfl⟩ := List.exists_cons_of_ne_nil (reduceMulti_eq_ok ha hNodup hRange h).2.1
    have hk := hRange k List.mem_cons_self
    rwa [← ha.catarr_ndim] at hk
  obtain ⟨g, hg, _, hElems⟩ := reduceMulti_stage hE ha hStageable.bounded hNodup hRange
    (fun g hg => addressed_of_isMulti hMulti hg hFirst hStageable.readable) hPlaces h
  obtain rfl := Except.ok.inj (hf.symm.trans hg)
  obtain ⟨v, hFolded, hGet⟩ := hElems' y (by rwa [hDtshape', ← hDtshape])
  obtain ⟨elems, hPerm, hValue⟩ :=
    hFolded.value hMulti hf hNodup hRange (by rwa [hDtshape] at hy)
  have hSame := hValue.symm.trans (hElems y hy elems hPerm)
  rw [Except.ok.injEq] at hSame
  have hType : (b.elem y).Of f.otype := by
    rw [Container.elem, hDtshape]
    exact Cell.num_of _ _
  change _ = (b'.catarr.get y).num b'.dtshape.dtype
  rw [hGet, hDtshape', hSame]
  exact hType.assign.symm

end Calls

/-! ## Every container -/

/-- The container without its postfilter: a reduction reads blocks as they are stored. -/
def Container.stored (c : Container) : Container :=
  { c with catarr := { c.catarr with sc := { c.catarr.sc with postfilter := none } } }

/-- A container to reduce: a view of which Caterva can make a copy, or a container whose stored
blocks are laid out as its fields say. -/
def Container.Source (E : Backend) (c : Container) : Prop :=
  (c.containerViewed.isSome ∧ ∃ dest, iarrayEmpty E c.dtshape c.storage = .ok dest) ∨ Plain c.stored

section Source

variable {E : Backend} {func : ReduceFunc} {a s : Container} {axes : List Nat}
  {storage : Storage} {correction : FP}

theorem Plain.stored (h : Plain a) : Plain a.stored :=
  { containerViewed := h.containerViewed
    transposed := h.transposed
    ndim := h.ndim
    offset := h.offset
    index := h.index
    fresh := ⟨h.fresh.shape, h.fresh.storage, h.fresh.itemsize, h.fresh.sized, rfl⟩ }

theorem reduceAxes_stored (n k : Nat) (axes : List Nat) :
    reduceAxes E func (n + 1) s (k :: axes) = reduceAxes E func (n + 1) s.stored (k :: axes) := rfl

theorem reduce2_stored (hMulti : func.isMulti = true) :
    _iarrayReduce2 E s.stored func = _iarrayReduce2 E s func := by
  funext axes storage correction
  unfold _iarrayReduce2
  rw [auxiliary_of_isMulti hMulti]
  rfl

/-- The container that a view is copied to, or the container itself, is reduced as stored. -/
theorem reduceMulti_source (hMulti : func.isMulti = true) (hCopy : copySource E a = .ok s)
    (hNdim : s.dtshape.ndim = a.dtshape.ndim)
    (hViewed : s.containerViewed = none) (axis : List Int) (oneshot : Bool) :
    iarrayReduceMulti E a func axis storage oneshot correction =
      iarrayReduceMulti E s.stored func axis storage oneshot correction := by
  have hStored : copySource E s.stored = .ok s.stored := by
    rw [copySource, show s.stored.containerViewed = none from hViewed]
    rfl
  have hSame : s.stored.dtshape.ndim = a.dtshape.ndim := hNdim
  unfold iarrayReduceMulti _iarrayReduceOneshot oneshotAround
  rw [hCopy, hStored, hSame]
  cases oneshot with
  | true =>
    simp only [Result.ok_bind, reduce2_stored hMulti]
    rfl
  | false =>
    have hLoop : ∀ axisNew : List Nat, (if axisNew = [] then crash .nullPointer else
        reduceAxes E func axisNew.length s axisNew >>= fun c => copyResult E c storage) =
        if axisNew = [] then crash .nullPointer else
          reduceAxes E func axisNew.length s.stored axisNew >>= fun c => copyResult E c storage := by
      intro axisNew
      cases axisNew with
      | nil => rfl
      | cons k axes => rw [List.length_cons, reduceAxes_stored]
    simp only [Result.ok_bind, hLoop]
    rfl

/-- The copy of a view is laid out like the view. -/
theorem copySource_plainOf (hE : E.Lawful) (ha : a.Source E)
    (h : copySource E a = .ok s) : PlainOf a.dtshape a.storage s.stored := by
  unfold copySource at h
  split at h
  · have hs := iarrayCopyUnchecked_plain hE h
    exact ⟨hs.plain.stored, hs.dtshape, hs.storage⟩
  · rename_i hNone
    cases h
    exact ⟨ha.resolve_left fun hView => hNone hView.1, rfl, rfl⟩

/-- A call whose copy ends in undefined behaviour ends there. -/
theorem reduceMulti_of_copySource_error {e : Failure} (hCopy : copySource E a = .error e)
    (axis : List Int) (oneshot : Bool) (b : Container) :
    iarrayReduceMulti E a func axis storage oneshot correction ≠ .ok b := by
  intro h
  unfold iarrayReduceMulti at h
  split at h
  · cases h
  split at h
  · unfold _iarrayReduceOneshot oneshotAround at h
    split at h
    · cases h
    obtain ⟨_, _, h⟩ := Result.bind_eq_ok.mp h
    rw [hCopy] at h
    cases h
  split at h
  · cases h
  split at h
  · cases h
  obtain ⟨_, _, h⟩ := Result.bind_eq_ok.mp h
  rw [hCopy] at h
  cases h

end Source

namespace AgreeExample

/-- A row of two infinities, and a row of numbers. -/
def infinities : Container :=
  Reference.plain .double [.ofCuts 2 2 2, .ofCuts 2 2 2]
    fun x => if x = [0, 0] then .real .pinf else if x = [0, 1] then .real .ninf else .real (.fin 1)

/-- No rows of many bytes, which as 64-bit integers fill more than a chunk. -/
def wide : Container :=
  Reference.plain .int8 [.ofCuts 0 1 1,
    .ofCuts (2 ^ 28) (2 ^ 28) (2 ^ 28)] fun _ => .bits 0

/-- Two axes of length zero, one of them with chunks of length zero. -/
def empty : Container :=
  Reference.plain .int8 [.ofCuts 0 1 1, .ofCuts 0 0 0]
    fun _ => .bits 0

/-- Whether a sum succeeds. -/
def succeeds (E : Backend) (a : Container) (axis : List Int) (storage : Storage)
    (oneshot : Bool) : Bool :=
  (iarrayReduceMulti E a .sum axis storage oneshot (.fin 0)).toBool

/-- An element of a result. -/
def element (a : Container) (func : ReduceFunc) (axis : List Int) (storage : Storage)
    (oneshot : Bool) (y : List Nat) : Option Num :=
  ((iarrayReduceMulti Reference.backend a func axis storage oneshot (.fin 0)).map
    fun b => b.elem y).toOption

end AgreeExample

end IronArray
