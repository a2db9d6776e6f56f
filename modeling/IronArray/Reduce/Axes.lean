import IronArray.Reduce.Multi

/-!
# The axes of a reduction

Both reductions look up each axis in `axis_used` before they know that it is an axis: their test
against the number of dimensions lets an axis equal to it pass, and negative ones. `AxisTrace` is
the loop of either with the positions of `axis_used` that it reads or writes.
-/

namespace IronArray

/-! ## The loops with what they touch -/

/-- The end of a loop over the axes, and the positions of `axis_used` that it touched. -/
structure AxisTrace where
  touched : List Int
  outcome : Result (List Nat)

/-- One more position touched before the rest of a loop. -/
def AxisTrace.touch (i : Int) (rest : AxisTrace) : AxisTrace :=
  { rest with touched := i :: rest.touched }

/-- The loop of either reduction; only the one-shot reduction refuses a repeated axis. -/
def axisTrace (oneshot : Bool) (ndim : Nat) : List Int → List Nat → AxisTrace
  | [], used => ⟨[], .ok used⟩
  | i :: axis, used =>
    if (ndim : Int) < i then ⟨[], inaError .invalidAxis⟩
    else if i < 0 ∨ (dimensionMax : Int) ≤ i then ⟨[i], crash .outOfBounds⟩
    else if i.toNat ∈ used then
      if oneshot then ⟨[i], inaError .invalidAxis⟩ else .touch i (axisTrace oneshot ndim axis used)
    else .touch i (axisTrace oneshot ndim axis (used ++ [i.toNat]))

theorem axisTrace_oneshot (ndim : Nat) (axis : List Int) (used : List Nat) :
    (axisTrace true ndim axis used).outcome = checkAxes ndim axis used := by
  induction axis generalizing used with
  | nil => rfl
  | cons i axis ih =>
    unfold axisTrace checkAxes
    split_ifs
    · rfl
    · rfl
    · rfl
    · contradiction
    · exact ih _

theorem axisTrace_multi (ndim : Nat) (axis : List Int) (used : List Nat) :
    (axisTrace false ndim axis used).outcome = collectAxes ndim axis used := by
  induction axis generalizing used with
  | nil => rfl
  | cons i axis ih =>
    unfold axisTrace collectAxes
    split_ifs
    · rfl
    · rfl
    · contradiction
    · exact ih _
    · exact ih _

/-- The positions of `axis_used` that `iarray_reduce_multi` touches. -/
def touchedAxes (a : Container) (func : ReduceFunc) (axis : List Int) (oneshot : Bool)
    (correction : FP) : List Int :=
  if !func.hasCorrection ∧ correction ≠ .fin 0 then []
  else if !oneshot ∧ !func.isMulti then []
  else if a.dtshape.ndim < axis.length then []
  else (axisTrace oneshot a.dtshape.ndim axis []).touched

/-! ## Where a loop stops -/

/-- An axis of an array of `ndim` dimensions. -/
def IsAxis (ndim : Nat) (i : Int) : Prop := 0 ≤ i ∧ i < ndim

/-- Behind axes only, an axis beyond the number of dimensions, or a repeated one where those are
refused. -/
def StopsInTime (oneshot : Bool) (ndim : Nat) (axis : List Int) : Prop :=
  ∃ before i after, axis = before ++ i :: after ∧ (∀ j ∈ before, IsAxis ndim j) ∧
    ((ndim : Int) < i ∨ oneshot = true ∧ i ∈ before)

/-- The same for a loop that has marked `used`. -/
def StopsFrom (oneshot : Bool) (ndim : Nat) (axis : List Int) (used : List Nat) : Prop :=
  ∃ before i after, axis = before ++ i :: after ∧ (∀ j ∈ before, IsAxis ndim j) ∧
    ((ndim : Int) < i ∨
      oneshot = true ∧ IsAxis ndim i ∧ i.toNat ∈ used ++ before.map Int.toNat)

section

variable {oneshot : Bool} {ndim : Nat} {axis : List Int} {used : List Nat}

theorem stopsFrom_nil_iff : StopsFrom oneshot ndim axis [] ↔ StopsInTime oneshot ndim axis := by
  constructor
  · rintro ⟨before, i, after, hEq, hBefore, hStop⟩
    refine ⟨before, i, after, hEq, hBefore, hStop.imp_right ?_⟩
    rintro ⟨hOneshot, hAxis, hUsed⟩
    obtain ⟨j, hj, hSame⟩ := List.mem_map.mp hUsed
    have hNonneg := (hBefore j hj).1
    obtain rfl : j = i := by
      have := hAxis.1
      omega
    exact ⟨hOneshot, hj⟩
  · rintro ⟨before, i, after, hEq, hBefore, hStop⟩
    refine ⟨before, i, after, hEq, hBefore, hStop.imp_right ?_⟩
    rintro ⟨hOneshot, hMem⟩
    exact ⟨hOneshot, hBefore i hMem, List.mem_map_of_mem hMem⟩

theorem not_stopsFrom_nil : ¬ StopsFrom oneshot ndim [] used := by
  rintro ⟨before, i, after, hEq, _⟩
  simp at hEq

theorem stopsFrom_cons {i : Int} : StopsFrom oneshot ndim (i :: axis) used ↔
    ((ndim : Int) < i ∨ oneshot = true ∧ IsAxis ndim i ∧ i.toNat ∈ used) ∨
      IsAxis ndim i ∧ StopsFrom oneshot ndim axis (used ++ [i.toNat]) := by
  constructor
  · rintro ⟨before, j, after, hEq, hBefore, hStop⟩
    cases before with
    | nil =>
      rw [List.nil_append, List.cons.injEq] at hEq
      rw [hEq.1]
      left
      simpa using hStop
    | cons k before =>
      rw [List.cons_append, List.cons.injEq] at hEq
      obtain ⟨rfl, rfl⟩ := hEq
      refine .inr ⟨hBefore i List.mem_cons_self, before, j, after, rfl,
        fun l hl => hBefore l (List.mem_cons_of_mem _ hl), ?_⟩
      simpa using hStop
  · rintro (hStop | ⟨hAxis, before, j, after, rfl, hBefore, hStop⟩)
    · exact ⟨[], i, axis, rfl, nofun, by simpa using hStop⟩
    · refine ⟨i :: before, j, after, rfl, ?_, by simpa using hStop⟩
      intro l hl
      rcases List.mem_cons.mp hl with rfl | hl
      · exact hAxis
      · exact hBefore l hl

theorem stopsFrom_multi (used used' : List Nat) :
    StopsFrom false ndim axis used ↔ StopsFrom false ndim axis used' := by
  simp [StopsFrom]

/-- A loop that comes to its end has touched every axis. -/
theorem touched_of_ok {axes : List Nat}
    (h : (axisTrace oneshot ndim axis used).outcome = .ok axes) :
    (axisTrace oneshot ndim axis used).touched = axis := by
  induction axis generalizing used with
  | nil => rfl
  | cons i axis ih =>
    unfold axisTrace at h ⊢
    split_ifs at h ⊢
    · cases h
    · cases h
    · cases h
    · exact congrArg _ (ih h)
    · exact congrArg _ (ih h)

/-- A loop refuses the axes without touching a foreign position exactly if it stops in time. -/
theorem axisTrace_refuses_iff (hNdim : ndim ≤ dimensionMax) :
    ((axisTrace oneshot ndim axis used).outcome = inaError .invalidAxis ∧
      ∀ i ∈ (axisTrace oneshot ndim axis used).touched, IsAxis ndim i) ↔
      StopsFrom oneshot ndim axis used := by
  induction axis generalizing used with
  | nil => simp [axisTrace, not_stopsFrom_nil, inaError]
  | cons i axis ih =>
    rw [stopsFrom_cons]
    unfold axisTrace
    split_ifs with hAbove hOutside hUsed hOneshot
    · simp [hAbove]
    · have hForeign : ¬ IsAxis ndim i := by
        rintro ⟨hNonneg, hBelow⟩
        omega
      simp [hAbove, hForeign, inaError, crash]
    · constructor
      · rintro ⟨_, hTouched⟩
        exact .inl (.inr ⟨hOneshot, hTouched i List.mem_cons_self, hUsed⟩)
      · intro hStop
        have hAxis : IsAxis ndim i := by
          rcases hStop with (hOver | hRepeated) | hLater
          · exact absurd hOver hAbove
          · exact hRepeated.2.1
          · exact hLater.1
        exact ⟨rfl, by simpa using hAxis⟩
    · have hMulti : oneshot = false := by simpa using hOneshot
      subst hMulti
      simp only [AxisTrace.touch, List.forall_mem_cons, hAbove, Bool.false_eq_true, false_and,
        or_self, false_or, stopsFrom_multi (used ++ [i.toNat]) used]
      rw [← ih]
      exact and_left_comm
    · simp only [AxisTrace.touch, List.forall_mem_cons, hAbove, hUsed, and_false, or_self, false_or]
      rw [← ih]
      exact and_left_comm

/-! ## The whole call -/

/-- The call gets past the checks of the correction and of the function. -/
def Admitted (func : ReduceFunc) (oneshot : Bool) (correction : FP) : Prop :=
  (func.hasCorrection = true ∨ correction = .fin 0) ∧ (oneshot = true ∨ func.isMulti = true)

/-- An admitted call ends with an error of its loop over the axes. -/
theorem reduceMulti_of_error {E : Backend} {a : Container} {func : ReduceFunc} {storage : Storage}
    {correction : FP} (h : Admitted func oneshot correction)
    (hLength : ¬ a.dtshape.ndim < axis.length) {e : Failure}
    (hEnd : (axisTrace oneshot a.dtshape.ndim axis []).outcome = .error e) :
    iarrayReduceMulti E a func axis storage oneshot correction = .error e := by
  obtain ⟨hCorrection, hFunc⟩ := h
  unfold iarrayReduceMulti
  rw [if_neg (by rcases hCorrection with h | h <;> simp [h])]
  cases oneshot with
  | true =>
    rw [axisTrace_oneshot] at hEnd
    rw [if_pos rfl, _iarrayReduceOneshot, oneshotAround, if_neg hLength, hEnd]
    rfl
  | false =>
    have hMulti : func.isMulti = true := hFunc.resolve_left nofun
    rw [axisTrace_multi] at hEnd
    rw [if_neg nofun, if_neg (by simp [hMulti]), if_neg hLength, hEnd]
    rfl

theorem reduceMulti_of_length {E : Backend} {a : Container} {func : ReduceFunc} {storage : Storage}
    {correction : FP} (h : Admitted func oneshot correction) (hLength : a.dtshape.ndim < axis.length) :
    iarrayReduceMulti E a func axis storage oneshot correction = inaError .invalidAxis := by
  obtain ⟨hCorrection, hFunc⟩ := h
  unfold iarrayReduceMulti
  rw [if_neg (by rcases hCorrection with h | h <;> simp [h])]
  cases oneshot with
  | true => rw [if_pos rfl, _iarrayReduceOneshot, oneshotAround, if_pos hLength]
  | false =>
    have hMulti : func.isMulti = true := hFunc.resolve_left nofun
    rw [if_neg nofun, if_neg (by simp [hMulti]), if_pos hLength]

/-- A call that is not admitted ends with another error. -/
theorem admitted_of_invalidAxis {E : Backend} {a : Container} {func : ReduceFunc}
    {storage : Storage} {correction : FP}
    (h : iarrayReduceMulti E a func axis storage oneshot correction = inaError .invalidAxis) :
    Admitted func oneshot correction := by
  unfold iarrayReduceMulti at h
  split_ifs at h with hCorrection hOneshot hMulti
  · simp [inaError] at h
  · exact ⟨by by_contra hNot; exact hCorrection (by simpa [not_or] using hNot), .inl hOneshot⟩
  · simp [inaError] at h
  all_goals
    exact ⟨by by_contra hNot; exact hCorrection (by simpa [not_or] using hNot),
      .inr (by simpa using hMulti)⟩

theorem touchedAxes_of_admitted {a : Container} {func : ReduceFunc} {correction : FP}
    (h : Admitted func oneshot correction) : touchedAxes a func axis oneshot correction =
      if a.dtshape.ndim < axis.length then []
      else (axisTrace oneshot a.dtshape.ndim axis []).touched := by
  obtain ⟨hCorrection, hFunc⟩ := h
  unfold touchedAxes
  rw [if_neg (by rcases hCorrection with h | h <;> simp [h]),
    if_neg (by rcases hFunc with h | h <;> simp [h])]

end

/-- A reduction checks its axes, and refuses a list with a foreign one before it touches a position
that is not an axis, exactly if there is no foreign one, the list is too long or the loop stops in
time. -/
theorem reduceMulti_axes_iff (E : Backend) (a : Container) (func : ReduceFunc) (axis : List Int)
    (storage : Storage) (oneshot : Bool) (correction : FP) (hNdim : a.dtshape.ndim ≤ dimensionMax) :
    ((∀ c, iarrayReduceMulti E a func axis storage oneshot correction = .ok c →
        ∀ i ∈ axis, IsAxis a.dtshape.ndim i) ∧
      ((¬ ∀ i ∈ axis, IsAxis a.dtshape.ndim i) →
        iarrayReduceMulti E a func axis storage oneshot correction = inaError .invalidAxis ∧
        ∀ i ∈ touchedAxes a func axis oneshot correction, IsAxis a.dtshape.ndim i)) ↔
    (∀ i ∈ axis, IsAxis a.dtshape.ndim i) ∨ Admitted func oneshot correction ∧
      (a.dtshape.ndim < axis.length ∨ StopsInTime oneshot a.dtshape.ndim axis) := by
  constructor
  · rintro ⟨_, hRefuses⟩
    by_cases hAll : ∀ i ∈ axis, IsAxis a.dtshape.ndim i
    · exact .inl hAll
    obtain ⟨hResult, hTouched⟩ := hRefuses hAll
    have hAdmitted := admitted_of_invalidAxis hResult
    refine .inr ⟨hAdmitted, ?_⟩
    by_cases hLength : a.dtshape.ndim < axis.length
    · exact .inl hLength
    rw [touchedAxes_of_admitted hAdmitted, if_neg hLength] at hTouched
    rw [← stopsFrom_nil_iff, ← axisTrace_refuses_iff hNdim]
    refine .inr ⟨?_, hTouched⟩
    cases hEnd : (axisTrace oneshot a.dtshape.ndim axis []).outcome with
    | ok axes => exact absurd (touched_of_ok hEnd ▸ hTouched) hAll
    | error e =>
      rw [reduceMulti_of_error hAdmitted hLength hEnd] at hResult
      exact congrArg Except.error (Except.error.inj hResult)
  · rintro (hAll | ⟨hAdmitted, hStops⟩)
    · exact ⟨fun _ _ => hAll, fun hNot => absurd hAll hNot⟩
    have hRefuses : iarrayReduceMulti E a func axis storage oneshot correction =
          inaError .invalidAxis ∧
        ∀ i ∈ touchedAxes a func axis oneshot correction, IsAxis a.dtshape.ndim i := by
      rw [touchedAxes_of_admitted hAdmitted]
      by_cases hLength : a.dtshape.ndim < axis.length
      · rw [if_pos hLength]
        exact ⟨reduceMulti_of_length hAdmitted hLength, nofun⟩
      · rw [if_neg hLength]
        obtain ⟨hEnd, hTouched⟩ := (axisTrace_refuses_iff hNdim).mpr
          (stopsFrom_nil_iff.mpr (hStops.resolve_left hLength))
        exact ⟨reduceMulti_of_error hAdmitted hLength hEnd, hTouched⟩
    refine ⟨fun c hc => ?_, fun _ => hRefuses⟩
    rw [hRefuses.1] at hc
    cases hc

theorem reduceMulti_axes_iff_sample :
    iarrayReduceMulti Reference.backend MultiExample.matrix .sum [1, 3] ⟨[], []⟩ false (.fin 0) =
        inaError .invalidAxis ∧
      ∀ i ∈ touchedAxes MultiExample.matrix .sum [1, 3] false (.fin 0), IsAxis 2 i := by
  have hFirst : ∀ i ∈ [(1 : Int)], IsAxis 2 i := by
    rintro _ (_ | ⟨_, ⟨⟩⟩)
    exact ⟨by decide, by decide⟩
  refine ((reduceMulti_axes_iff Reference.backend MultiExample.matrix .sum [1, 3] ⟨[], []⟩ false
    (.fin 0) (by decide)).mpr (.inr ⟨⟨.inr rfl, .inr rfl⟩, .inr ?_⟩)).2 ?_
  · exact ⟨[1], 3, [], rfl, hFirst, .inl (by decide)⟩
  · exact fun hAll => absurd (hAll 3 (by decide)).2 (by decide)

/-- For an array of two dimensions both reductions look up position 2 and position -1, and report no
invalid axis. Position 2 lies inside the tables, and the reductions over it succeed. -/
theorem reduceMulti_touches_foreign :
    (∀ oneshot, touchedAxes MultiExample.matrix .sum [2] oneshot (.fin 0) = [2] ∧
      ∃ c, iarrayReduceMulti Reference.backend MultiExample.matrix .sum [2] ⟨[3], [2]⟩ oneshot
        (.fin 0) = .ok c ∧ c.dtshape.shape = [5]) ∧
    (touchedAxes MultiExample.matrix .sum [-1] true (.fin 0) = [-1] ∧
      iarrayReduceMulti Reference.backend MultiExample.matrix .sum [-1] ⟨[3], [2]⟩ true (.fin 0) =
        crash .outOfBounds) ∧
    ¬ ((∀ c, iarrayReduceMulti Reference.backend MultiExample.matrix .sum [2] ⟨[3], [2]⟩ true
          (.fin 0) = .ok c → ∀ i ∈ [(2 : Int)], IsAxis 2 i) ∧
      ((¬ ∀ i ∈ [(2 : Int)], IsAxis 2 i) →
        iarrayReduceMulti Reference.backend MultiExample.matrix .sum [2] ⟨[3], [2]⟩ true (.fin 0) =
          inaError .invalidAxis ∧
        ∀ i ∈ touchedAxes MultiExample.matrix .sum [2] true (.fin 0), IsAxis 2 i)) := by
  have hForeign : ¬ IsAxis 2 2 := fun h => absurd h.2 (by decide)
  refine ⟨fun oneshot => ?_, ⟨rfl, rfl⟩, ?_⟩
  · cases oneshot <;> exact ⟨rfl, _, rfl, rfl⟩
  rintro ⟨_, hRefuses⟩
  have hTouched := (hRefuses fun hAll => hForeign (hAll 2 (by decide))).2
  exact hForeign (hTouched 2 (by decide))

end IronArray
