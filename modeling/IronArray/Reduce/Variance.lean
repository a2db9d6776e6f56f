import IronArray.Reduce.Oneshot
import Mathlib.Algebra.BigOperators.Group.List.Basic
import Mathlib.Algebra.BigOperators.Ring.Finset
import Mathlib.Algebra.BigOperators.Ring.List
import Mathlib.Tactic.Ring

/-!
# Variances

A variance with correction `c` divides the sum of the squared distances to the mean by `N - c`,
where `N` is the number of reduced elements. `VAR` and `STD` divide by the lengths of the reduced
axes one after the other, each corrected: `variance_exact_iff` says when that is the same.
`NAN_VAR` and `NAN_STD` count the elements and are always exact.
-/

namespace IronArray

open Grid ReduceFunction

/-! ## Exact variances -/

def exactMean (qs : List ℚ) : ℚ := qs.sum / qs.length

/-- The sum of the squared distances to `m`. -/
def squares (m : ℚ) (qs : List ℚ) : ℚ := (qs.map fun q => (q - m) ^ 2).sum

def exactVariance (c : ℚ) (qs : List ℚ) : ℚ := squares (exactMean qs) qs / (qs.length - c)

theorem squares_perm {m : ℚ} {qs rs : List ℚ} (h : qs.Perm rs) : squares m qs = squares m rs :=
  (h.map _).sum_eq

theorem squares_nonneg (m : ℚ) (qs : List ℚ) : 0 ≤ squares m qs := by
  induction qs with
  | nil => exact le_rfl
  | cons q qs ih => exact add_nonneg (sq_nonneg _) ih

theorem squares_eq_zero_iff {m : ℚ} {qs : List ℚ} : squares m qs = 0 ↔ ∀ q ∈ qs, q = m := by
  induction qs with
  | nil => simp [squares]
  | cons q qs ih =>
    have hCons : squares m (q :: qs) = (q - m) ^ 2 + squares m qs := rfl
    rw [hCons, add_eq_zero_iff_of_nonneg (sq_nonneg _) (squares_nonneg m qs), ih,
      List.forall_mem_cons, sq_eq_zero_iff, sub_eq_zero]

/-- The distances to the mean are zero exactly if all numbers are equal. -/
theorem squares_exactMean_eq_zero_iff {qs : List ℚ} :
    squares (exactMean qs) qs = 0 ↔ ∀ q ∈ qs, ∀ r ∈ qs, q = r := by
  rw [squares_eq_zero_iff]
  constructor
  · intro h q hq r hr
    rw [h q hq, h r hr]
  · intro h q hq
    have hAll : qs = List.replicate qs.length q :=
      List.eq_replicate_iff.mpr ⟨rfl, fun r hr => h r hr q hq⟩
    have hLength : (qs.length : ℚ) ≠ 0 :=
      Nat.cast_ne_zero.mpr (List.length_pos_of_mem hq).ne'
    have hSum : qs.sum = qs.length * q := by
      conv_lhs => rw [hAll, List.sum_replicate, nsmul_eq_mul]
    rw [exactMean, hSum, mul_div_cancel_left₀ q hLength]

/-! ## Folds over exact values -/

/-- The values are the given rational numbers. -/
def Exact (vs : List Num) (qs : List ℚ) : Prop := vs.map Num.toFP = qs.map FP.fin

namespace Exact

variable {vs : List Num} {qs : List ℚ} {d : Dtype} {u : UserData}

theorem length_eq (h : Exact vs qs) : vs.length = qs.length := by
  simpa using congrArg List.length h

theorem cons {q : ℚ} (h : Exact vs (q :: qs)) :
    ∃ v ws, vs = v :: ws ∧ v.toFP = .fin q ∧ Exact ws qs := by
  cases vs with
  | nil => cases h
  | cons v ws =>
    obtain ⟨hv, hws⟩ := List.cons.inj h
    exact ⟨v, ws, rfl, hv, hws⟩

theorem isNan (h : Exact vs qs) : ∀ v ∈ vs, v.isNan = false := by
  intro v hv
  obtain ⟨q, _, hq⟩ := List.mem_map.mp (h ▸ List.mem_map_of_mem hv : v.toFP ∈ qs.map FP.fin)
  cases v with
  | int z => rfl
  | fp x =>
    cases hq
    rfl

theorem foldl_sumStep (h : Exact vs qs) (hd : d.isFloating = true) (s : ℚ) :
    vs.foldl (sumStep d) (.fp (.fin s)) = .fp (.fin (s + qs.sum)) := by
  induction qs generalizing vs s with
  | nil =>
    rw [List.map_eq_nil_iff.mp h]
    simp
  | cons q qs ih =>
    obtain ⟨v, ws, rfl, hv, hws⟩ := h.cons
    have hStep : sumStep d (.fp (.fin s)) v = .fp (.fin (s + q)) := by
      rw [sumStep, Num.assign_floating hd]
      change Num.fp ((FP.fin s).add v.toFP) = _
      rw [hv]
      rfl
    rw [List.foldl_cons, hStep, ih hws, List.sum_cons, add_assoc]

theorem foldl_varStep {m : ℚ} (h : Exact vs qs) (hMean : vs ≠ [] → u.mean.toFP = .fin m) (s : ℚ) :
    vs.foldl (varStep u) (.fp (.fin s)) = .fp (.fin (s + squares m qs)) := by
  induction qs generalizing vs s with
  | nil =>
    rw [List.map_eq_nil_iff.mp h]
    simp [squares]
  | cons q qs ih =>
    obtain ⟨v, ws, rfl, hv, hws⟩ := h.cons
    have hMean' := hMean (List.cons_ne_nil _ _)
    have hStep : varStep u (.fp (.fin s)) v = .fp (.fin (s + (q - m) ^ 2)) := by
      rw [varStep, hv, hMean']
      simp only [Num.toFP, FP.sub, FP.mul, FP.add]
      congr 2
      ring
    rw [List.foldl_cons, hStep, ih hws fun _ => hMean', squares, squares, List.map_cons,
      List.sum_cons, add_assoc]

theorem foldl_nanMean (h : Exact vs qs) (acc : Acc) :
    vs.foldl ((nanMean d).step u) acc = { acc with
      res := vs.foldl (sumStep d.meanType) acc.res
      notNanNelems := acc.notNanNelems + vs.length } := by
  induction qs generalizing vs acc with
  | nil =>
    rw [List.map_eq_nil_iff.mp h]
    rfl
  | cons q qs ih =>
    have hNan := h.isNan
    obtain ⟨v, ws, rfl, _, hws⟩ := h.cons
    rw [List.foldl_cons, ih hws]
    simp [nanMean, hNan v List.mem_cons_self, Nat.add_assoc, Nat.add_comm 1]

theorem foldl_nanVarStep (h : Exact vs qs) (acc : Acc) :
    vs.foldl (nanVarStep u) acc = { acc with
      res := vs.foldl (varStep u) acc.res
      notNanNelems := acc.notNanNelems + vs.length } := by
  induction qs generalizing vs acc with
  | nil =>
    rw [List.map_eq_nil_iff.mp h]
    rfl
  | cons q qs ih =>
    have hNan := h.isNan
    obtain ⟨v, ws, rfl, _, hws⟩ := h.cons
    rw [List.foldl_cons, ih hws]
    simp [nanVarStep, hNan v List.mem_cons_self, Nat.add_assoc, Nat.add_comm 1]

end Exact

theorem foldl_res (step : Num → Num → Num) (vs : List Num) (acc : Acc) :
    vs.foldl (fun acc v => { acc with res := step acc.res v }) acc =
      { acc with res := vs.foldl step acc.res } := by
  induction vs generalizing acc with
  | nil => rfl
  | cons v vs ih => rw [List.foldl_cons, ih, List.foldl_cons]

theorem meanType_floating (d : Dtype) : d.meanType.isFloating = true := by cases d <;> rfl

theorem zero_meanType (d : Dtype) : d.meanType.zero = .fp (.fin 0) := by cases d <;> rfl

/-! ## What the functions compute -/

section Finish

variable {vs : List Num} {qs : List ℚ} {d : Dtype} {u : UserData}

theorem finish_mean (h : Exact vs qs) :
    (mean d).finish u (vs.foldl ((mean d).step u) (mean d).init) =
      .ok (.fp ((FP.fin qs.sum).mul u.invNelem)) := by
  have hFold : (vs.foldl ((mean d).step u) (mean d).init).res = .fp (.fin qs.sum) := by
    change (vs.foldl (fun (acc : Acc) v =>
      { acc with res := sumStep d.meanType acc.res v }) _).res = _
    rw [foldl_res]
    change vs.foldl _ d.meanType.zero = _
    rw [zero_meanType, h.foldl_sumStep (meanType_floating d), zero_add]
  change Except.ok _ = _
  rw [hFold, Num.assign_floating (meanType_floating d)]
  rfl

theorem finish_nanMean (h : Exact vs qs) :
    (nanMean d).finish u (vs.foldl ((nanMean d).step u) (nanMean d).init) =
      .ok (.fp ((FP.fin qs.sum).div (.fin vs.length))) := by
  rw [h.foldl_nanMean]
  change Except.ok (Num.fp ((vs.foldl _ d.meanType.zero).toFP.div (.fin (0 + vs.length : Nat)))) = _
  rw [zero_meanType, h.foldl_sumStep (meanType_floating d), zero_add, Nat.zero_add]
  rfl

/-- The sum of squares that the four functions collect. -/
theorem foldl_varStep_zero {m : ℚ} (h : Exact vs qs) (hMean : vs ≠ [] → u.mean.toFP = .fin m) :
    vs.foldl (varStep u) d.meanType.zero = .fp (.fin (squares m qs)) := by
  rw [zero_meanType, h.foldl_varStep hMean, zero_add]

theorem varFinish_eq {m : ℚ} (h : Exact vs qs) (hMean : vs ≠ [] → u.mean.toFP = .fin m) :
    varFinish u (vs.foldl ((var d).step u) (var d).init) =
      (FP.fin (squares m qs)).mul u.invNelem := by
  have hFold : (vs.foldl ((var d).step u) (var d).init).res = .fp (.fin (squares m qs)) := by
    change (vs.foldl (fun (acc : Acc) v => { acc with res := varStep u acc.res v }) _).res = _
    rw [foldl_res]
    exact foldl_varStep_zero h hMean
  rw [varFinish, hFold]
  rfl

theorem nanVarFinish_eq {m c : ℚ} (h : Exact vs qs) (hMean : vs ≠ [] → u.mean.toFP = .fin m)
    (hCorrection : u.correction = .fin c) (hc : c < qs.length) :
    nanVarFinish u (vs.foldl ((nanVar d).step u) (nanVar d).init) =
      .fin (squares m qs / (qs.length - c)) := by
  have hPos : 0 < (qs.length : ℚ) - c := sub_pos.mpr hc
  have hSub : (FP.fin qs.length).sub (.fin c) = .fin (qs.length - c) := by
    simp only [FP.sub, FP.mul, FP.add]
    congr 1
    ring
  change nanVarFinish u (vs.foldl (nanVarStep u) _) = _
  rw [h.foldl_nanVarStep]
  change (if ((FP.fin (0 + vs.length : Nat)).sub u.correction).lt (.fin 0) then _ else
    (vs.foldl (varStep u) d.meanType.zero).toFP.div
      ((FP.fin (0 + vs.length : Nat)).sub u.correction)) = _
  rw [foldl_varStep_zero h hMean, hCorrection, Nat.zero_add, h.length_eq, hSub, if_neg]
  · simp [Num.toFP, FP.div, hPos.ne']
  · simpa [FP.lt] using hPos.le

end Finish

/-! ## The divisor of `VAR` -/

/-- The division by one corrected length. -/
def divCorrected (c : ℚ) (inv : FP) (n : Nat) : FP :=
  if c < n then inv.div (.fin (n - c)) else inv.div (.fin 0)

theorem invNelems_fold (c : ℚ) (ns : List Nat) :
    invNelems (.fin c) ns = ns.foldl (divCorrected c) (.fin 1) := by
  have hCast : (do let n ← ns; pure (n : ℚ)) = ns.map fun n : Nat => (n : ℚ) :=
    List.flatMap_pure_eq_map _ ns
  unfold invNelems
  rw [hCast, List.foldl_map]
  refine List.foldl_ext _ _ _ fun inv n _ => ?_
  have hSub : (FP.fin n).sub (.fin c) = .fin (n - c) := by
    simp only [FP.sub, FP.mul, FP.add]
    congr 1
    ring
  rw [hSub, divCorrected]
  rcases lt_trichotomy (n : ℚ) c with h | h | h
  · simp [FP.lt, h, not_lt.mpr h.le]
  · simp [FP.lt, h]
  · simp [FP.lt, h, not_lt.mpr h.le]

theorem foldl_divCorrected_pinf (c : ℚ) (ns : List Nat) :
    ns.foldl (divCorrected c) .pinf = .pinf := by
  induction ns with
  | nil => rfl
  | cons n ns ih =>
    have hStep : divCorrected c .pinf n = .pinf := by
      rw [divCorrected]
      split
      · rename_i hLt
        simp [FP.div, hLt.le]
      · simp [FP.div]
    rw [List.foldl_cons, hStep, ih]

theorem foldl_divCorrected (c : ℚ) (ns : List Nat) {p : ℚ} (hp : 0 < p) :
    ns.foldl (divCorrected c) (.fin p) =
      if ∀ n ∈ ns, c < n then .fin (p / (ns.map fun n : Nat => (n : ℚ) - c).prod) else .pinf := by
  induction ns generalizing p with
  | nil => simp
  | cons n ns ih =>
    rw [List.foldl_cons, divCorrected]
    by_cases hLt : c < n
    · have hPos : 0 < (n : ℚ) - c := sub_pos.mpr hLt
      have hStep : (FP.fin p).div (.fin (n - c)) = .fin (p / (n - c)) := by
        simp [FP.div, hPos.ne']
      rw [if_pos hLt, hStep, ih (div_pos hp hPos), List.map_cons, List.prod_cons, div_div]
      simp only [List.forall_mem_cons, hLt, true_and]
    · have hStep : (FP.fin p).div (.fin 0) = .pinf := by
        simp [FP.div, FP.infOf_pos hp]
      rw [if_neg hLt, hStep, foldl_divCorrected_pinf, if_neg]
      intro hAll
      exact hLt (hAll n List.mem_cons_self)

/-- One over the product of the corrected lengths, if all of them are positive. -/
theorem invNelems_eq (c : ℚ) (ns : List Nat) :
    invNelems (.fin c) ns =
      if ∀ n ∈ ns, c < n then .fin (1 / (ns.map fun n : Nat => (n : ℚ) - c).prod) else .pinf := by
  rw [invNelems_fold, foldl_divCorrected c ns one_pos]

theorem mul_invNelems_iff {c s : ℚ} {ns : List Nat} (hc : c < ns.prod) :
    (FP.fin s).mul (invNelems (.fin c) ns) = .fin (s / (ns.prod - c)) ↔
      (∀ n ∈ ns, c < n) ∧
        ((ns.map fun n : Nat => (n : ℚ) - c).prod = ns.prod - c ∨ s = 0) := by
  have hPos : ((ns.prod : Nat) : ℚ) - c ≠ 0 := (sub_pos.mpr hc).ne'
  rw [invNelems_eq]
  split
  · rename_i hAll
    have hProd : (ns.map fun n : Nat => (n : ℚ) - c).prod ≠ 0 := by
      apply List.prod_ne_zero
      intro hZero
      obtain ⟨n, hn, hEq⟩ := List.mem_map.mp hZero
      exact (sub_pos.mpr (hAll n hn)).ne' hEq
    rw [FP.fin_mul_fin, FP.fin.injEq, and_iff_right hAll, mul_one_div, div_eq_div_iff hProd hPos,
      mul_eq_mul_left_iff]
    exact or_congr_left eq_comm
  · rename_i hNot
    refine iff_of_false ?_ fun h => hNot h.1
    rw [FP.fin_mul_pinf, FP.infOf]
    split
    · intro h
      cases h
    · split <;> intro h <;> cases h

/-! ## The number of reduced elements -/

theorem removed_marked (p : Nat → Bool) (ns : List Nat) :
    removed ((List.range ns.length).map p) ns =
      ((List.range ns.length).filter p).map fun k => ns.getD k 0 := by
  induction ns generalizing p with
  | nil => rfl
  | cons n ns ih =>
    have hRest := ih fun k => p (k + 1)
    rw [List.length_cons, List.range_succ_eq_map, List.map_cons, List.map_map, List.filter_cons,
      List.filter_map]
    cases hp : p 0 with
    | true =>
      rw [removed_true, if_pos rfl, List.map_cons, List.map_map]
      exact congrArg (n :: ·) hRest
    | false =>
      rw [removed_false, if_neg Bool.false_ne_true, List.map_map]
      exact hRest

theorem removed_reducedAxis_perm {axes ns : List Nat} (hNodup : axes.Nodup)
    (hRange : ∀ k ∈ axes, k < ns.length) :
    (removed (reducedAxis ns.length axes) ns).Perm (axes.map fun k => ns.getD k 0) := by
  rw [reducedAxis, removed_marked]
  apply List.Perm.map
  refine (List.perm_ext_iff_of_nodup (List.nodup_range.filter _) hNodup).mpr fun k => ?_
  rw [List.mem_filter, List.mem_range, decide_eq_true_eq]
  exact and_iff_right_of_imp (hRange k)

section Slab

variable {a : Container} {axes : List Nat} {y : List Nat}

/-- The lengths of the reduced axes. -/
def reducedShape (a : Container) (axes : List Nat) : List Nat :=
  axes.map fun k => a.dtshape.shape.getD k 0

theorem length_slab_reduced (hNodup : axes.Nodup) (hRange : ∀ k ∈ axes, k < a.dtshape.ndim)
    (hy : InBox y (keep (reducedAxis a.dtshape.ndim axes) a.dtshape.shape)) :
    (slab (reducedAxis a.dtshape.ndim axes) a.dtshape.shape y).length =
      (reducedShape a axes).prod := by
  have hMask : a.dtshape.shape.length = (reducedAxis a.dtshape.ndim axes).length := by
    rw [length_reducedAxis]
    rfl
  rw [length_slab hMask hy]
  exact (removed_reducedAxis_perm hNodup hRange).prod_eq

end Slab

/-! ## The reduction -/

/-- What `VAR`, `STD` and the variants that skip NaN make of a variance `v`. -/
def deviation (m : Machine) (func : ReduceFunc) (v : FP) : FP :=
  match func with
  | .std | .nanStd => m.sqrt v
  | _ => v

section Result

variable {E : Backend} {a b : Container} {axes : List Nat} {storage : Storage} {c : ℚ}
  {func : ReduceFunc} {q : List Nat → ℚ} {y : List Nat}

/-- The values of the slab that projects onto `y`. -/
def slabValues (a : Container) (axes : List Nat) (q : List Nat → ℚ) (y : List Nat) : List ℚ :=
  (slab (reducedAxis a.dtshape.ndim axes) a.dtshape.shape y).map q

theorem exact_order (hq : ∀ x, InBox x a.dtshape.shape → (a.elem x).toFP = .fin (q x))
    {order : List (List Nat)}
    (hPerm : order.Perm (slab (reducedAxis a.dtshape.ndim axes) a.dtshape.shape y)) :
    Exact (a.valuesAt order) (order.map q) := by
  rw [Exact, Container.valuesAt, List.map_map, List.map_map]
  refine List.map_congr_left fun x hx => ?_
  exact hq x (mem_slab.mp (hPerm.mem_iff.mp hx)).1

/-- The quotient that the code computes: the variants that skip NaN count the elements. -/
def codeVariance (func : ReduceFunc) (c s : ℚ) (ns : List Nat) : FP :=
  match func with
  | .nanVar | .nanStd => .fin (s / (ns.prod - c))
  | _ => (FP.fin s).mul (invNelems (.fin c) ns)

theorem invNelems_zero {ns : List Nat} (h : ns.prod ≠ 0) :
    invNelems (.fin 0) ns = .fin (1 / ns.prod) := by
  have hAll : ∀ n ∈ ns, (0 : ℚ) < n := by
    intro n hn
    have : n ≠ 0 := fun hZero => h (List.prod_eq_zero (hZero ▸ hn))
    exact Nat.cast_pos.mpr (Nat.pos_of_ne_zero this)
  rw [invNelems_eq, if_pos hAll]
  simp [Nat.cast_list_prod]

/-- The mean that the step finds is that of the slab, if there are elements. -/
theorem mean_eq {m : Machine} {mean : List Nat → Num}
    (hMean : IsMean m a func axes a.dtshape.dtype.meanType mean)
    (hFunc : func.hasCorrection = true) (hNodup : axes.Nodup)
    (hRange : ∀ k ∈ axes, k < a.dtshape.ndim)
    (hq : ∀ x, InBox x a.dtshape.shape → (a.elem x).toFP = .fin (q x))
    (hy : InBox y (keep (reducedAxis a.dtshape.ndim axes) a.dtshape.shape))
    (hne : (reducedShape a axes).prod ≠ 0) :
    (mean y).toFP = .fin (exactMean (slabValues a axes q y)) := by
  have hLength := length_slab_reduced hNodup hRange hy
  have hSlab : (slabValues a axes q y).length = (reducedShape a axes).prod :=
    (List.length_map _).trans hLength
  have hFloating := meanType_floating a.dtshape.dtype
  by_cases hSkips : func = .var ∨ func = .std
  · have hAux : func.auxiliary = some .mean := by
      rcases hSkips with rfl | rfl <;> rfl
    obtain ⟨g, hg, hAt⟩ := hMean .mean hAux
    cases hg
    obtain ⟨w, ⟨order, hPerm, hFinish⟩, hEq⟩ := hAt y hy
    have hValues : (order.map q).Perm (slabValues a axes q y) := hPerm.map q
    rw [foldAt_eq a rfl, finish_mean (exact_order hq hPerm), Except.ok.injEq] at hFinish
    rw [hEq, ← hFinish]
    change (Num.assign _ (.fp _)).toFP = _
    rw [Num.assign_floating hFloating, exactMean, ← hValues.sum_eq, hSlab]
    change (FP.fin _).mul (invNelems (.fin 0) (reducedShape a axes)) = _
    rw [invNelems_zero hne, FP.fin_mul_fin, mul_one_div]
  · have hAux : func.auxiliary = some .nanMean := by
      cases func with
      | nanVar | nanStd => rfl
      | var => exact absurd (.inl rfl) hSkips
      | std => exact absurd (.inr rfl) hSkips
      | _ => cases hFunc
    obtain ⟨g, hg, hAt⟩ := hMean .nanMean hAux
    obtain ⟨_, rfl⟩ := nanReduction_eq_ok hg
    obtain ⟨w, ⟨order, hPerm, hFinish⟩, hEq⟩ := hAt y hy
    have hExact := exact_order hq hPerm
    have hValues : (order.map q).Perm (slabValues a axes q y) := hPerm.map q
    have hNonzero : ((reducedShape a axes).prod : ℚ) ≠ 0 := Nat.cast_ne_zero.mpr hne
    rw [foldAt_eq a rfl, finish_nanMean hExact, Except.ok.injEq] at hFinish
    rw [hEq, ← hFinish, hExact.length_eq, hValues.length_eq, hSlab]
    change (Num.assign _ (.fp _)).toFP = _
    rw [Num.assign_floating hFloating, exactMean, ← hValues.sum_eq, hSlab]
    exact if_neg hNonzero

/-- An element of the result of the four functions. -/
theorem variance_elem (hE : E.Lawful) (ha : Plain a) (hNodup : axes.Nodup)
    (hRange : ∀ k ∈ axes, k < a.dtshape.ndim) (hc : c < (reducedShape a axes).prod)
    (hq : ∀ x, InBox x a.dtshape.shape → (a.elem x).toFP = .fin (q x))
    (hy : InBox y (keep (reducedAxis a.dtshape.ndim axes) a.dtshape.shape))
    (hFunc : func.hasCorrection = true)
    (h : iarrayReduceMulti E a func (ints axes) storage true (.fin c) = .ok b) :
    b.elem y = .fp (deviation E.machine func (codeVariance func c
      (squares (exactMean (slabValues a axes q y)) (slabValues a axes q y))
      (reducedShape a axes))) := by
  obtain ⟨f, hf, hDtshape, mean, hMean, hElems⟩ := reduceMulti_oneshot hE ha hNodup hRange h
  obtain ⟨v, ⟨order, hPerm, hFinish⟩, hGet⟩ := hElems y (by rwa [hDtshape])
  have hValues : (order.map q).Perm (slabValues a axes q y) := hPerm.map q
  have hExact := exact_order hq hPerm
  have hMeanAt : f.otype = a.dtshape.dtype.meanType → a.valuesAt order ≠ [] →
      (mean y).toFP = .fin (exactMean (slabValues a axes q y)) := by
    intro hType hne
    refine mean_eq (hType ▸ hMean) hFunc hNodup hRange hq hy fun hZero => hne ?_
    rw [← length_slab_reduced hNodup hRange hy, ← hPerm.length_eq] at hZero
    rw [Container.valuesAt, List.length_eq_zero_iff.mp hZero]
    rfl
  have hCount : c < (order.map q).length := by
    rwa [List.length_map, hPerm.length_eq, length_slab_reduced hNodup hRange hy]
  have hSquares : ∀ m, squares m (order.map q) = squares m (slabValues a axes q y) := fun _ =>
    squares_perm hValues
  have hLength : (order.map q).length = (reducedShape a axes).prod := by
    rw [List.length_map, hPerm.length_eq, length_slab_reduced hNodup hRange hy]
  suffices hStored : f.otype = a.dtshape.dtype.meanType ∧ v = .fp (deviation E.machine func
      (codeVariance func c (squares (exactMean (slabValues a axes q y)) (slabValues a axes q y))
        (reducedShape a axes))) by
    obtain ⟨hType, rfl⟩ := hStored
    rw [Container.elem, hGet, hDtshape]
    change (Num.fp _).assign f.otype = _
    rw [hType, Num.assign_floating (meanType_floating _)]
    rfl
  cases func with
  | var =>
    cases hf
    rw [foldAt_eq a rfl] at hFinish
    refine ⟨rfl, (Except.ok.inj hFinish).symm.trans (congrArg Num.fp ?_)⟩
    rw [varFinish_eq hExact (hMeanAt rfl), hSquares]
    rfl
  | std =>
    cases hf
    rw [foldAt_eq a rfl] at hFinish
    refine ⟨rfl, (Except.ok.inj hFinish).symm.trans
      (congrArg (fun x => Num.fp (E.machine.sqrt x)) ?_)⟩
    refine (varFinish_eq hExact (hMeanAt rfl)).trans ?_
    rw [hSquares]
    rfl
  | nanVar =>
    obtain ⟨_, rfl⟩ := nanReduction_eq_ok hf
    rw [foldAt_eq a rfl] at hFinish
    refine ⟨rfl, (Except.ok.inj hFinish).symm.trans (congrArg Num.fp ?_)⟩
    rw [nanVarFinish_eq hExact (hMeanAt rfl) rfl hCount, hSquares, hLength]
    rfl
  | nanStd =>
    obtain ⟨_, rfl⟩ := nanReduction_eq_ok hf
    rw [foldAt_eq a rfl] at hFinish
    refine ⟨rfl, (Except.ok.inj hFinish).symm.trans
      (congrArg (fun x => Num.fp (E.machine.sqrt x)) ?_)⟩
    refine (nanVarFinish_eq hExact (hMeanAt rfl) rfl hCount).trans ?_
    rw [hSquares, hLength]
    rfl
  | _ => cases hFunc

/-- Every axis is longer than the correction, and the product of the corrected lengths is the
corrected product or all values are equal. -/
def DividesExactly (c : ℚ) (ns : List Nat) (qs : List ℚ) : Prop :=
  (∀ n ∈ ns, c < n) ∧ ((ns.map fun n : Nat => (n : ℚ) - c).prod = ns.prod - c ∨
    ∀ q ∈ qs, ∀ r ∈ qs, q = r)

/-- `VAR` and `STD` divide by `N - c`, as `NAN_VAR` and `NAN_STD` do, exactly if every reduced axis
is longer than the correction and either the product of the corrected lengths is `N - c` or all
reduced elements are equal. -/
theorem variance_exact_iff (hE : E.Lawful) (ha : Plain a) (hNodup : axes.Nodup)
    (hRange : ∀ k ∈ axes, k < a.dtshape.ndim) (hc : c < (reducedShape a axes).prod)
    (hq : ∀ x, InBox x a.dtshape.shape → (a.elem x).toFP = .fin (q x))
    (hVar : iarrayReduceMulti E a .var (ints axes) storage true (.fin c) = .ok b)
    (hy : InBox y (keep (reducedAxis a.dtshape.ndim axes) a.dtshape.shape)) :
    (∀ func d, func.hasCorrection = true →
      iarrayReduceMulti E a func (ints axes) storage true (.fin c) = .ok d →
      d.elem y = .fp (deviation E.machine func (.fin (exactVariance c (slabValues a axes q y))))) ↔
    DividesExactly c (reducedShape a axes) (slabValues a axes q y) := by
  have hLength : (slabValues a axes q y).length = (reducedShape a axes).prod :=
    (List.length_map _).trans (length_slab_reduced hNodup hRange hy)
  rw [DividesExactly, ← squares_exactMean_eq_zero_iff, ← mul_invNelems_iff hc, ← hLength,
    ← exactVariance]
  constructor
  · intro hAll
    have hElem := variance_elem hE ha hNodup hRange hc hq hy rfl hVar
    rw [hAll .var b rfl hVar, Num.fp.injEq] at hElem
    exact hElem.symm
  · intro hEq func d hFunc hCall
    rw [variance_elem hE ha hNodup hRange hc hq hy hFunc hCall]
    congr 2
    cases func with
    | var | std => exact hEq
    | nanVar | nanStd => rw [codeVariance, ← hLength, ← exactVariance]
    | _ => cases hFunc

end Result

/-- Along one axis of five the divisor is 5 - 1. -/
theorem variance_exact_iff_matrix :
    DividesExactly 1 (reducedShape MultiExample.matrix [0]) (slabValues MultiExample.matrix [0]
      (fun x => (MultiExample.matrix.catarr.get x).toInt .int16) [0]) ∧
    ∀ func d, func.hasCorrection = true →
      iarrayReduceMulti Reference.backend MultiExample.matrix func [0] ⟨[3], [2]⟩ true (.fin 1) =
        .ok d →
      d.elem [0] = .fp (deviation Reference.backend.machine func
        (.fin (exactVariance 1 (slabValues MultiExample.matrix [0]
          (fun x => (MultiExample.matrix.catarr.get x).toInt .int16) [0])))) := by
  have hShape : reducedShape MultiExample.matrix [0] = [5] := rfl
  have hDivides : DividesExactly 1 (reducedShape MultiExample.matrix [0])
      (slabValues MultiExample.matrix [0]
        (fun x => (MultiExample.matrix.catarr.get x).toInt .int16) [0]) := by
    rw [DividesExactly, hShape]
    exact ⟨List.forall_mem_singleton.mpr (by norm_num), .inl (by norm_num)⟩
  exact ⟨hDivides, (@variance_exact_iff Reference.backend MultiExample.matrix _ [0] ⟨[3], [2]⟩ 1
    (fun x => (MultiExample.matrix.catarr.get x).toInt .int16) [0] Reference.lawful
    MultiExample.plain_matrix (by decide) (by decide) (by norm_num [hShape]) (fun _ _ => rfl) rfl
    (by decide)).mpr hDivides⟩

namespace VarianceExample

/-- Three zeros and a one. -/
def square : Container :=
  Reference.plain .int16 [.ofCuts 2 2 2, .ofCuts 2 2 2]
    fun x => .bits (x.getD 0 0 * x.getD 1 0)

theorem plain_square : Plain square := Reference.plain_plain _ _ (by decide) (by decide)

/-- The elements of the square. -/
def element (x : List Nat) : ℚ := (square.catarr.get x).toInt .int16

end VarianceExample

open VarianceExample in
/-- With correction 1 the sum of squares 3/4 of the four elements is divided by 1 · 1 and not
by 3. -/
theorem var_divides_by_product :
    ∃ b, iarrayReduceMulti Reference.backend square .var [0, 1] ⟨[], []⟩ true (.fin 1) = .ok b ∧
      b.elem [] = .fp (.fin (3 / 4)) ∧
      exactVariance 1 (slabValues square [0, 1] element []) = 1 / 4 := by
  have hValues : slabValues square [0, 1] element [] = [0, 0, 0, 1] := by
    change [element [0, 0], element [0, 1], element [1, 0], element [1, 1]] = _
    norm_num [element]
    decide
  have hShape : reducedShape square [0, 1] = [2, 2] := rfl
  have hProd : (reducedShape square [0, 1]).prod = 4 := rfl
  obtain ⟨b, hCall⟩ : ∃ b, iarrayReduceMulti Reference.backend square .var [0, 1] ⟨[], []⟩ true
    (.fin 1) = .ok b := ⟨_, rfl⟩
  have hElem := @variance_elem _ square b [0, 1] ⟨[], []⟩ 1 .var element [] Reference.lawful
    plain_square (by decide) (by decide) (by norm_num [hProd]) (fun _ _ => rfl) (by decide) rfl hCall
  refine ⟨b, hCall, ?_, ?_⟩
  · rw [hElem, hValues, hShape]
    change Num.fp ((FP.fin _).mul (invNelems (.fin 1) [2, 2])) = _
    rw [invNelems_eq]
    norm_num [exactMean, squares, FP.mul]
  · rw [hValues]
    norm_num [exactVariance, exactMean, squares]

end IronArray
