import IronArray.Grid.Regroup
import IronArray.Reduce.Functions
import Mathlib.Data.Prod.Lex
import Mathlib.Algebra.BigOperators.Group.List.Basic

/-!
# Laws of the reductions

`ReduceFunction.value` is what a function makes of a list of elements. For the reductions of
the axis-by-axis path `Staged` says that the order of the elements does not matter and that
reducing the values of lists of one length is reducing all their elements, which is why one
axis can be removed after the other.
-/

namespace IronArray

open Grid

/-! ## Functions of the result alone -/

/-- `user_data` of a slab of `n` elements. -/
def slabData (n : Nat) : UserData := ⟨invNelem n, .fin 0, .int 0⟩

namespace ReduceFunction

/-- The finish of the fold over a list of elements. -/
def value (f : ReduceFunction) (xs : List Num) : Result Num :=
  f.finish (slabData xs.length) (xs.foldl (f.step (slabData xs.length)) f.init)

/-- The function keeps nothing but the result, and an element at which the loop breaks makes
the elements behind it irrelevant. -/
structure OnResult (f : ReduceFunction) (init : Num) (step : Num → Num → Num)
    (scale : FP → Num → Num) : Prop where
  init_eq : f.init = .start init
  step_eq : ∀ u acc x, f.step u acc x = { acc with res := step acc.res x }
  finish_eq : ∀ u acc, f.finish u acc = .ok (scale u.invNelem acc.res)
  absorbs : ∀ b x y, f.stops x = true → step (step b x) y = step b x

namespace OnResult

variable {f : ReduceFunction} {init : Num} {step : Num → Num → Num} {scale : FP → Num → Num}
  {u : UserData} {acc : Acc} {xs : List Num}

theorem foldl_step (h : OnResult f init step scale) :
    xs.foldl (f.step u) acc = { acc with res := xs.foldl step acc.res } := by
  induction xs generalizing acc with
  | nil => rfl
  | cons x xs ih => rw [List.foldl_cons, ih, h.step_eq, List.foldl_cons]

theorem value (h : OnResult f init step scale) :
    f.value xs = .ok (scale (invNelem xs.length) (xs.foldl step init)) := by
  rw [ReduceFunction.value, h.finish_eq, h.foldl_step, h.init_eq]
  rfl

theorem foldl_absorbed (h : OnResult f init step scale) {x : Num} (hx : f.stops x = true)
    (b : Num) : xs.foldl step (step b x) = step b x := by
  induction xs with
  | nil => rfl
  | cons y xs ih => rw [List.foldl_cons, h.absorbs b x y hx, ih]

/-- The loop that breaks computes the fold over all elements. -/
theorem reduction (h : OnResult f init step scale) :
    f.reduction u acc xs = xs.foldl (f.step u) acc := by
  induction xs generalizing acc with
  | nil => rfl
  | cons x xs ih =>
    rw [ReduceFunction.reduction]
    by_cases hx : f.stops x = true
    · rw [if_pos hx, List.foldl_cons, h.step_eq, h.foldl_step, h.foldl_absorbed hx]
    · rw [if_neg hx, ih, List.foldl_cons]

end OnResult

theorem onResult_simple {itype otype : Dtype} {init : Num} {step : Num → Num → Num}
    {stops : Num → Bool} (h : ∀ b x y, stops x = true → step (step b x) y = step b x) :
    OnResult (simple itype otype init step stops) init step fun _ v => v :=
  ⟨rfl, fun _ _ _ => rfl, fun _ _ => rfl, h⟩

/-! ## Reducing in stages -/

/-- `f₂` reduces the values of `f`. The elements that `f` is given satisfy `Q`. -/
structure Staged (f f₂ : ReduceFunction) (Q : Num → Prop) : Prop where
  reduction : ∀ u acc xs, f.reduction u acc xs = xs.foldl (f.step u) acc
  value : ∀ {xs}, (∀ x ∈ xs, Q x) → ∃ v, f.value xs = .ok v ∧ v.Of f.otype
  perm : ∀ {xs ys}, xs.Perm ys → (∀ x ∈ xs, Q x) → f.value xs = f.value ys
  flatten : ∀ {n lists vs}, (∀ xs ∈ lists, xs.length = n) → (∀ xs ∈ lists, ∀ x ∈ xs, Q x) →
    List.Forall₂ (fun xs v => f.value xs = .ok v) lists vs → f₂.value vs = f.value lists.flatten

theorem eq_map_of_value {f : ReduceFunction} {g : List Num → Num}
    (hg : ∀ xs, f.value xs = .ok (g xs)) {lists : List (List Num)} {vs : List Num}
    (hvs : List.Forall₂ (fun xs v => f.value xs = .ok v) lists vs) : vs = lists.map g := by
  induction hvs with
  | nil => rfl
  | cons hv _ ih =>
    rw [hg, Except.ok.injEq] at hv
    rw [List.map_cons, ← ih, ← hv]

theorem OnResult.staged {f f₂ : ReduceFunction} {init : Num} {step step₂ : Num → Num → Num}
    {P Q : Num → Prop} (h : OnResult f init step fun _ v => v)
    (h₂ : OnResult f₂ init step₂ fun _ v => v) (hLaws : Regroups step step₂ init P Q)
    (hOf : ∀ {b}, P b → b.Of f.otype) : Staged f f₂ Q where
  reduction _ _ _ := h.reduction
  value hxs := ⟨_, h.value, hOf (hLaws.foldl_mem hLaws.mem_init hxs)⟩
  perm hPerm hxs := by
    rw [h.value, h.value, hLaws.foldl_perm hPerm hLaws.mem_init hxs]
  flatten _ hxs hvs := by
    rw [eq_map_of_value (fun _ => h.value) hvs, h₂.value, h.value,
      hLaws.foldl_flatten hLaws.mem_init hxs]

end ReduceFunction

/-! ## The order of the values of a type -/

/-- A place in a linear order, with NaN at `r`. -/
def FP.rank (r : ℤ) : FP → ℤ ×ₗ ℚ
  | nan => toLex (r, 0)
  | ninf => toLex (-1, 0)
  | fin q => toLex (0, q)
  | pinf => toLex (1, 0)

theorem FP.rank_lt_iff (r : ℤ) {x y : FP} (hx : x.isNan = false) (hy : y.isNan = false) :
    x.rank r < y.rank r ↔ x.lt y = true := by
  cases x <;> cases y <;> simp_all [rank, lt, isNan, Prod.Lex.toLex_lt_toLex]

/-- Outside the three ranks of the other values NaN is told apart. -/
theorem FP.rank_injective {r : ℤ} (hr : r < -1 ∨ 1 < r) {x y : FP} (h : x.rank r = y.rank r) :
    x = y := by
  cases x <;> cases y <;> simp only [rank, toLex_inj, Prod.mk.injEq] at h <;> first
    | rfl
    | omega
    | exact congrArg fin h.2

namespace Num

variable {d : Dtype}

def rank (r : ℤ) (v : Num) : ℤ ×ₗ ℚ := v.toFP.rank r

theorem isNan_eq (v : Num) : v.isNan = v.toFP.isNan := by cases v <;> rfl

theorem lt_eq (v w : Num) : v.lt w = v.toFP.lt w.toFP := by
  cases v <;> cases w <;> simp [lt, toFP, FP.lt]

theorem rank_lt_iff (r : ℤ) {v w : Num} (hv : v.isNan = false) (hw : w.isNan = false) :
    v.rank r < w.rank r ↔ v.lt w = true := by
  rw [isNan_eq] at hv hw
  rw [lt_eq]
  exact FP.rank_lt_iff r hv hw

theorem toFP_injective {v w : Num} (hv : v.Of d) (hw : w.Of d) (h : v.toFP = w.toFP) :
    v = w := by
  cases hd : d.isFloating
  · obtain ⟨y, rfl, _⟩ := of_integral hd hv
    obtain ⟨z, rfl, _⟩ := of_integral hd hw
    have : (y : ℚ) = z := FP.fin.inj h
    rw [Int.cast_injective this]
  · obtain ⟨x, rfl⟩ := of_floating hd hv
    obtain ⟨y, rfl⟩ := of_floating hd hw
    exact congrArg fp h

theorem rank_injective {r : ℤ} (hr : r < -1 ∨ 1 < r) {v w : Num} (hv : v.Of d) (hw : w.Of d)
    (h : v.rank r = w.rank r) : v = w :=
  toFP_injective hv hw (FP.rank_injective hr h)

theorem isNan_integral (hd : d.isFloating = false) {v : Num} (hv : v.Of d) : v.isNan = false := by
  obtain ⟨z, rfl, _⟩ := of_integral hd hv
  rfl

end Num

/-! ## Maximum and minimum -/

namespace Dtype

variable {d : Dtype}

theorem lowest_integral (hd : d.isFloating = false) : d.lowest = .int d.lower := by
  simp only [lowest, lower, hd, Bool.false_eq_true, if_false]
  split <;> rfl

theorem highest_integral (hd : d.isFloating = false) : d.highest = .int d.upper := by
  simp only [highest, upper, hd, Bool.false_eq_true, if_false]
  split <;> [rfl; split <;> rfl]

theorem lowest_of (d : Dtype) : d.lowest.Of d := by
  cases hd : d.isFloating
  · have hBounds := d.wrap_bounds 0
    rw [lowest_integral hd]
    exact ⟨hd, wrap_of_bounds le_rfl (hBounds.1.trans hBounds.2)⟩
  · rw [lowest, if_pos hd]
    exact hd

theorem highest_of (d : Dtype) : d.highest.Of d := by
  cases hd : d.isFloating
  · have hBounds := d.wrap_bounds 0
    rw [highest_integral hd]
    exact ⟨hd, wrap_of_bounds (hBounds.1.trans hBounds.2) le_rfl⟩
  · rw [highest, if_pos hd]
    exact hd

theorem rank_lowest_le {v : Num} (hv : v.Of d) {r : ℤ} (hr : 1 < r) :
    d.lowest.rank r ≤ v.rank r := by
  cases hd : d.isFloating
  · obtain ⟨z, rfl, hz⟩ := Num.of_integral hd hv
    rw [lowest_integral hd]
    exact Prod.Lex.toLex_le_toLex.mpr (.inr ⟨rfl, Int.cast_le.mpr (hz ▸ (d.wrap_bounds z).1)⟩)
  · obtain ⟨x, rfl⟩ := Num.of_floating hd hv
    rw [lowest, if_pos hd]
    cases x <;> simp [Num.rank, Num.toFP, FP.rank, Prod.Lex.toLex_le_toLex]
    omega

theorem rank_le_highest {v : Num} (hv : v.Of d) {r : ℤ} (hr : r < -1) :
    v.rank r ≤ d.highest.rank r := by
  cases hd : d.isFloating
  · obtain ⟨z, rfl, hz⟩ := Num.of_integral hd hv
    rw [highest_integral hd]
    exact Prod.Lex.toLex_le_toLex.mpr (.inr ⟨rfl, Int.cast_le.mpr (hz ▸ (d.wrap_bounds z).2)⟩)
  · obtain ⟨x, rfl⟩ := Num.of_floating hd hv
    rw [highest, if_pos hd]
    cases x <;> simp [Num.rank, Num.toFP, FP.rank, Prod.Lex.toLex_le_toLex]
    omega

end Dtype

namespace ReduceFunction

variable {d : Dtype}

/-- NaN lies above all other values, or below them. -/
theorem rank_nan_lt {r : ℤ} {v : Num} (hv : v.isNan = false) :
    (1 < r → v.rank r < (Num.fp .nan).rank r) ∧ (r < -1 → (Num.fp .nan).rank r < v.rank r) := by
  rw [Num.isNan_eq] at hv
  simp only [Num.rank]
  cases hx : v.toFP <;> simp_all [FP.rank, Num.toFP, FP.isNan, Prod.Lex.toLex_lt_toLex] <;> omega

theorem eq_nan {v : Num} (h : v.isNan = true) : v = .fp .nan := by
  cases v with
  | int z => cases h
  | fp x => cases x <;> first | rfl | cases h

@[simp] theorem isNan_nan : (Num.fp .nan).isNan = true := rfl

theorem maxStep_eq (r : ℤ) {a b : Num} (ha : a.isNan = false) (hb : b.isNan = false) :
    maxStep a b = if a.rank r < b.rank r then b else a := by
  simp only [maxStep, Num.rank_lt_iff r ha hb]

theorem minStep_eq (r : ℤ) {a b : Num} (ha : a.isNan = false) (hb : b.isNan = false) :
    minStep a b = if b.rank r < a.rank r then b else a := by
  simp only [minStep, Num.rank_lt_iff r hb ha]

/-- C's `<` is false when a side is NaN. -/
theorem lt_nan (a : Num) : a.lt (.fp .nan) = false ∧ (Num.fp .nan).lt a = false := by
  rw [Num.lt_eq, Num.lt_eq]
  cases h : a.toFP <;> simp [Num.toFP, FP.lt]

theorem dfMaxStep_eq (a b : Num) : dfMaxStep a b = if a.rank 2 < b.rank 2 then b else a := by
  cases hb : b.isNan
  · rw [dfMaxStep, hb, if_neg Bool.false_ne_true]
    cases ha : a.isNan
    · exact maxStep_eq 2 ha hb
    · rw [eq_nan ha, if_neg ((rank_nan_lt hb).1 (by omega)).not_gt, maxStep, (lt_nan b).2]
      rfl
  · rw [eq_nan hb, dfMaxStep, isNan_nan, if_pos rfl]
    cases ha : a.isNan
    · rw [if_pos ((rank_nan_lt ha).1 (by omega))]
    · rw [eq_nan ha, ite_self]

theorem nanMaxStep_eq (a b : Num) :
    nanMaxStep a b = if a.rank (-2) < b.rank (-2) then b else a := by
  cases hb : b.isNan
  · cases ha : a.isNan
    · rw [← maxStep_eq (-2) ha hb, nanMaxStep, ha, hb, maxStep]
      simp
    · rw [eq_nan ha, if_pos ((rank_nan_lt hb).2 (by omega)), nanMaxStep, hb]
      simp
  · rw [eq_nan hb, nanMaxStep]
    cases ha : a.isNan
    · rw [if_neg ((rank_nan_lt ha).2 (by omega)).not_gt]
      rfl
    · rw [eq_nan ha, ite_self, ite_self]

theorem dfMinStep_eq (a b : Num) :
    dfMinStep a b = if b.rank (-2) < a.rank (-2) then b else a := by
  cases hb : b.isNan
  · rw [dfMinStep, hb, if_neg Bool.false_ne_true]
    cases ha : a.isNan
    · exact minStep_eq (-2) ha hb
    · rw [eq_nan ha, if_neg ((rank_nan_lt hb).2 (by omega)).not_gt, minStep, (lt_nan b).1]
      rfl
  · rw [eq_nan hb, dfMinStep, isNan_nan, if_pos rfl]
    cases ha : a.isNan
    · rw [if_pos ((rank_nan_lt ha).2 (by omega))]
    · rw [eq_nan ha, ite_self]

theorem nanMinStep_eq (a b : Num) : nanMinStep a b = if b.rank 2 < a.rank 2 then b else a := by
  cases hb : b.isNan
  · cases ha : a.isNan
    · rw [← minStep_eq 2 ha hb, nanMinStep, ha, hb, minStep]
      simp
    · rw [eq_nan ha, if_pos ((rank_nan_lt hb).1 (by omega)), nanMinStep, hb]
      simp
  · rw [eq_nan hb, nanMinStep]
    cases ha : a.isNan
    · rw [if_neg ((rank_nan_lt ha).1 (by omega)).not_gt]
      rfl
    · rw [eq_nan ha, ite_self, ite_self]

/-- Keeping the value of higher rank. -/
theorem regroups_greatest {r : ℤ} (hr : r < -1 ∨ 1 < r) {step : Num → Num → Num} {init : Num}
    (hInit : init.Of d) (hLeast : ∀ {b : Num}, b.Of d → init.rank r ≤ b.rank r)
    (hStep : ∀ {a b : Num}, a.Of d → b.Of d →
      step a b = if a.rank r < b.rank r then b else a) :
    Regroups step step init (Num.Of d) (Num.Of d) :=
  regroups_pick hInit hLeast (Num.rank_injective hr) hStep

/-- Keeping the value of lower rank. -/
theorem regroups_least {r : ℤ} (hr : r < -1 ∨ 1 < r) {step : Num → Num → Num} {init : Num}
    (hInit : init.Of d) (hGreatest : ∀ {b : Num}, b.Of d → b.rank r ≤ init.rank r)
    (hStep : ∀ {a b : Num}, a.Of d → b.Of d →
      step a b = if b.rank r < a.rank r then b else a) :
    Regroups step step init (Num.Of d) (Num.Of d) :=
  @regroups_pick _ _ _ (fun v : Num => OrderDual.toDual (v.rank r)) _ _ _ hInit hGreatest
    (fun ha hb h => Num.rank_injective hr ha hb (OrderDual.toDual.injective h)) hStep

theorem staged_simple {init : Num} {step : Num → Num → Num} {stops : Num → Bool}
    (hStops : ∀ b x y, stops x = true → step (step b x) y = step b x)
    (hLaws : Regroups step step init (Num.Of d) (Num.Of d)) :
    Staged (simple d d init step stops) (simple d d init step stops) (Num.Of d) :=
  (onResult_simple hStops).staged (onResult_simple hStops) hLaws id

theorem dfMaxStep_absorbs (b x y : Num) (hx : x.isNan = true) :
    dfMaxStep (dfMaxStep b x) y = dfMaxStep b x := by
  have hNan : dfMaxStep b x = .fp .nan := by simp [dfMaxStep, hx]
  rw [hNan, dfMaxStep, maxStep, (lt_nan y).2]
  simp

theorem dfMinStep_absorbs (b x y : Num) (hx : x.isNan = true) :
    dfMinStep (dfMinStep b x) y = dfMinStep b x := by
  have hNan : dfMinStep b x = .fp .nan := by simp [dfMinStep, hx]
  rw [hNan, dfMinStep, minStep, (lt_nan y).1]
  simp

theorem staged_max (d : Dtype) : Staged (max d) (max d) (Num.Of d) := by
  rw [max]
  split
  · exact staged_simple dfMaxStep_absorbs (regroups_greatest (.inr (by omega)) d.lowest_of
      (fun hb => Dtype.rank_lowest_le hb (by omega)) fun {a b} _ _ => dfMaxStep_eq a b)
  · rename_i hd
    rw [Bool.not_eq_true] at hd
    exact staged_simple (by simp) (regroups_greatest (.inr (by omega)) d.lowest_of
      (fun hb => Dtype.rank_lowest_le hb (by omega : (1 : ℤ) < 2)) fun ha hb =>
        maxStep_eq 2 (Num.isNan_integral hd ha) (Num.isNan_integral hd hb))

theorem staged_min (d : Dtype) : Staged (min d) (min d) (Num.Of d) := by
  rw [min]
  split
  · exact staged_simple dfMinStep_absorbs (regroups_least (.inl (by omega)) d.highest_of
      (fun hb => Dtype.rank_le_highest hb (by omega)) fun {a b} _ _ => dfMinStep_eq a b)
  · rename_i hd
    rw [Bool.not_eq_true] at hd
    exact staged_simple (by simp) (regroups_least (.inl (by omega)) d.highest_of
      (fun hb => Dtype.rank_le_highest hb (by omega : (-2 : ℤ) < -1)) fun ha hb =>
        minStep_eq (-2) (Num.isNan_integral hd ha) (Num.isNan_integral hd hb))

theorem staged_nanMax (hd : d.isFloating = true) : Staged (nanMax d) (nanMax d) (Num.Of d) := by
  refine staged_simple (by simp) (regroups_greatest (.inl (by omega)) hd ?_ fun {a b} _ _ =>
    nanMaxStep_eq a b)
  intro b _
  cases hb : b.isNan
  · exact ((rank_nan_lt hb).2 (by omega)).le
  · rw [eq_nan hb]

theorem staged_nanMin (hd : d.isFloating = true) : Staged (nanMin d) (nanMin d) (Num.Of d) := by
  refine staged_simple (by simp) (regroups_least (.inr (by omega)) hd ?_ fun {a b} _ _ =>
    nanMinStep_eq a b)
  intro b _
  cases hb : b.isNan
  · exact ((rank_nan_lt hb).1 (by omega)).le
  · rw [eq_nan hb]

/-! ## Sums and products -/

/-- Integers of a type, combined modulo its width. -/
theorem regroups_integral {o : Dtype} {op : Int → Int → Int} {e : Int} {step : Num → Num → Num}
    (ho : o.isFloating = false) (he : o.wrap e = e)
    (hStep : ∀ y z, step (.int y) (.int z) = .int (o.wrap (op y z)))
    (hWrap : ∀ y z, o.wrap (op (o.wrap y) z) = o.wrap (op y z))
    (hComm : ∀ y z, op y z = op z y) (hAssoc : ∀ x y z, op (op x y) z = op x (op y z))
    (hUnit : ∀ z, op z e = z) :
    Regroups step step (.int e) (Num.Of o) fun x => ∃ z, x = .int z where
  mem_init := ⟨ho, he⟩
  mem_step := by
    rintro b _ hb ⟨z, rfl⟩
    obtain ⟨y, rfl, _⟩ := Num.of_integral ho hb
    rw [hStep]
    exact ⟨ho, Dtype.wrap_wrap _ _⟩
  comm := by
    rintro b _ _ hb ⟨y, rfl⟩ ⟨z, rfl⟩
    obtain ⟨x, rfl, _⟩ := Num.of_integral ho hb
    rw [hStep, hStep, hStep, hStep, hWrap, hWrap, hAssoc, hAssoc, hComm y]
  unit := by
    intro b hb
    obtain ⟨x, rfl, hx⟩ := Num.of_integral ho hb
    rw [hStep, hUnit, hx]
  assoc := by
    rintro b c _ hb hc ⟨z, rfl⟩
    obtain ⟨x, rfl, _⟩ := Num.of_integral ho hb
    obtain ⟨y, rfl, _⟩ := Num.of_integral ho hc
    rw [hStep, hStep, hStep, hStep, hComm x, hWrap, hWrap, hComm _ x, hAssoc]

/-- Floating-point values, combined exactly. -/
theorem regroups_floating {op : FP → FP → FP} {e : FP} {S : FP → Prop} {step : Num → Num → Num}
    (hStep : ∀ x v, step (.fp x) v = .fp (op x v.toFP)) (he : S e)
    (hClosed : ∀ {x y}, S x → S y → S (op x y))
    (hComm : ∀ x y, op x y = op y x) (hAssoc : ∀ x y z, op (op x y) z = op x (op y z))
    (hUnit : ∀ x, op x e = x) :
    Regroups step step (.fp e) (fun b => ∃ x, b = .fp x ∧ S x) fun v => S v.toFP where
  mem_init := ⟨e, rfl, he⟩
  mem_step := by
    rintro _ v ⟨x, rfl, hx⟩ hv
    exact ⟨_, hStep x v, hClosed hx hv⟩
  comm := by
    rintro _ v w ⟨x, rfl, _⟩ _ _
    rw [hStep, hStep, hStep, hStep, hAssoc, hAssoc, hComm v.toFP]
  unit := by
    rintro _ ⟨x, rfl, _⟩
    rw [hStep]
    exact congrArg Num.fp (hUnit x)
  assoc := by
    rintro _ _ v ⟨x, rfl, _⟩ ⟨y, rfl, _⟩ _
    rw [hStep, hStep, hStep, hStep]
    exact congrArg Num.fp (hAssoc x y v.toFP).symm

theorem sumStep_fp {o : Dtype} (ho : o.isFloating = true) (x : FP) (v : Num) :
    sumStep o (.fp x) v = .fp (x.add v.toFP) := by
  rw [sumStep, Num.assign_floating ho]
  rfl

theorem prodStep_fp {o : Dtype} (ho : o.isFloating = true) (x : FP) (v : Num) :
    prodStep o (.fp x) v = .fp (x.mul v.toFP) := by
  rw [prodStep, Num.assign_floating ho]
  rfl

theorem sumStep_int {o : Dtype} (ho : o.isFloating = false) (y z : Int) :
    sumStep o (.int y) (.int z) = .int (o.wrap (y + z)) := Num.assign_int ho _

theorem prodStep_int {o : Dtype} (ho : o.isFloating = false) (y z : Int) :
    prodStep o (.int y) (.int z) = .int (o.wrap (y * z)) := Num.assign_int ho _

theorem sumType_isFloating (d : Dtype) : d.sumType.isFloating = d.isFloating := by
  cases d <;> rfl

theorem sumType_ne_bool (d : Dtype) : d.sumType ≠ .bool := by cases d <;> decide

theorem sumType_sumType (d : Dtype) : d.sumType.sumType = d.sumType := by cases d <;> rfl

theorem mul_one_fp (x : FP) : x.mul (.fin 1) = x := by
  cases x <;> simp [FP.mul, FP.infOf]

theorem finite_closed {op : FP → FP → FP} (h : ∀ a b, ∃ q, op (.fin a) (.fin b) = .fin q)
    {x y : FP} (hx : x.isFinite = true) (hy : y.isFinite = true) : (op x y).isFinite = true := by
  cases x <;> cases y <;> simp_all [FP.isFinite]
  rename_i a b
  obtain ⟨q, hq⟩ := h a b
  rw [hq]

theorem exists_fp {b : Num} {o : Dtype} (ho : o.isFloating = true) {S : FP → Prop}
    (h : ∃ x, b = .fp x ∧ S x) : b.Of o := by
  obtain ⟨x, rfl, _⟩ := h
  exact ho

/-- Both stages assign the combined values to results of the same type. -/
theorem staged_assign {d o : Dtype} {init : Num} {step : Num → Num → Num} {P Q : Num → Prop}
    (hLaws : Regroups step step init P Q) (hOf : ∀ {b}, P b → b.Of o) :
    Staged (simple d o init step fun _ => false) (simple o o init step fun _ => false) Q :=
  (onResult_simple (by simp)).staged (onResult_simple (by simp)) hLaws hOf

theorem sum_sumType (d : Dtype) : sum d.sumType =
    simple d.sumType d.sumType d.sumType.zero (sumStep d.sumType) fun _ => false := by
  rw [sum, sumType_sumType]

theorem prod_sumType (d : Dtype) : prod d.sumType =
    simple d.sumType d.sumType d.sumType.one (prodStep d.sumType) fun _ => false := by
  rw [prod, sumType_sumType]

theorem exists_int {d : Dtype} (hd : d.isFloating = false) {v : Num} (hv : v.Of d) :
    ∃ z, v = .int z := by
  obtain ⟨z, rfl, _⟩ := Num.of_integral hd hv
  exact ⟨z, rfl⟩

theorem staged_sum (d : Dtype) : Staged (sum d) (sum d.sumType) (Num.Of d) := by
  have hType := sumType_isFloating d
  rw [sum_sumType]
  cases hd : d.isFloating
  · rw [hd] at hType
    rw [sum, Dtype.zero, if_neg (by simp [hType])]
    exact staged_assign ((regroups_integral hType (by cases d <;> rfl) (sumStep_int hType)
      (Dtype.wrap_add_left (sumType_ne_bool d)) Int.add_comm Int.add_assoc Int.add_zero).mono
      (exists_int hd)) id
  · rw [hd] at hType
    rw [sum, Dtype.zero, if_pos hType]
    exact staged_assign ((regroups_floating (S := fun _ => True) (sumStep_fp hType) trivial
      (fun _ _ => trivial) FP.add_comm FP.add_assoc add_zero).mono fun _ => trivial)
      (exists_fp hType)

theorem staged_prod (d : Dtype) : Staged (prod d) (prod d.sumType) (Num.Of d) := by
  have hType := sumType_isFloating d
  rw [prod_sumType]
  cases hd : d.isFloating
  · rw [hd] at hType
    rw [prod, Dtype.one, if_neg (by simp [hType])]
    exact staged_assign ((regroups_integral hType (by cases d <;> rfl) (prodStep_int hType)
      (Dtype.wrap_mul_left (sumType_ne_bool d)) Int.mul_comm Int.mul_assoc Int.mul_one).mono
      (exists_int hd)) id
  · rw [hd] at hType
    rw [prod, Dtype.one, if_pos hType]
    exact staged_assign ((regroups_floating (S := fun _ => True) (prodStep_fp hType) trivial
      (fun _ _ => trivial) FP.mul_comm FP.mul_assoc mul_one_fp).mono fun _ => trivial)
      (exists_fp hType)

/-! ### Skipping NaN -/

/-- NaN or a finite number. -/
def Bounded (v : Num) : Prop := v.isNan = true ∨ ∃ q, v = .fp (.fin q)

/-- A step that skips NaN, over numbers that stay finite. -/
theorem regroups_skip {op : FP → FP → FP} {e : ℚ} {step : Num → Num → Num}
    (hStep : ∀ x v, step (.fp x) v = .fp (op x v.toFP))
    (hClosed : ∀ a b, ∃ q, op (.fin a) (.fin b) = .fin q)
    (hComm : ∀ x y, op x y = op y x) (hAssoc : ∀ x y z, op (op x y) z = op x (op y z))
    (hUnit : ∀ x, op x (.fin e) = x) :
    Regroups (fun b x => if x.isNan then b else step b x)
      (fun b x => if x.isNan then b else step b x) (.fp (.fin e))
      (fun b => ∃ x, b = .fp x ∧ x.isFinite = true) Bounded := by
  have hLaws := (regroups_floating (S := fun x => x.isFinite = true) hStep rfl
    (finite_closed hClosed) hComm hAssoc hUnit).mono
    (show ∀ {v : Num}, (∃ x, v = .fp x ∧ x.isFinite = true) → v.toFP.isFinite = true by
      rintro _ ⟨x, rfl, hx⟩
      exact hx)
  refine hLaws.replace (g := fun x => if x.isNan then .fp (.fin e) else x) ?_ ?_ ?_
  · rintro x (hx | ⟨q, rfl⟩)
    · exact ⟨_, if_pos hx, rfl⟩
    · exact ⟨_, rfl, rfl⟩
  · rintro _ x ⟨y, rfl, _⟩ _
    by_cases hx : x.isNan = true
    · rw [if_pos hx, if_pos hx, hStep]
      exact congrArg Num.fp (hUnit y).symm
    · rw [if_neg hx, if_neg hx]
  · rintro _ _ _ ⟨y, rfl, hy⟩
    have hNan : (Num.fp y).isNan = false := by cases y <;> simp_all [Num.isNan, FP.isNan, FP.isFinite]
    rw [if_neg (by simp [hNan])]

theorem staged_nanSum {d : Dtype} (hd : d.isFloating = true) :
    Staged (nanSum d) (nanSum d.sumType) Bounded := by
  have hType : d.sumType.isFloating = true := (sumType_isFloating d).trans hd
  have hStages : nanSum d.sumType =
      simple d.sumType d.sumType d.sumType.zero (nanSumStep d.sumType) fun _ => false := by
    rw [nanSum, sumType_sumType]
  rw [hStages, nanSum, Dtype.zero, if_pos hType]
  exact staged_assign (regroups_skip (sumStep_fp hType) (fun a b => ⟨a + b, rfl⟩) FP.add_comm
    FP.add_assoc add_zero) (exists_fp hType)

theorem staged_nanProd {d : Dtype} (hd : d.isFloating = true) :
    Staged (nanProd d) (nanProd d.sumType) Bounded := by
  have hType : d.sumType.isFloating = true := (sumType_isFloating d).trans hd
  have hStages : nanProd d.sumType =
      simple d.sumType d.sumType d.sumType.one (nanProdStep d.sumType) fun _ => false := by
    rw [nanProd, sumType_sumType]
  rw [hStages, nanProd, Dtype.one, if_pos hType]
  exact staged_assign (regroups_skip (prodStep_fp hType) (fun a b => ⟨a * b, rfl⟩) FP.mul_comm
    FP.mul_assoc mul_one_fp) (exists_fp hType)

/-! ## Means -/

theorem meanType_isFloating (d : Dtype) : d.meanType.isFloating = true := by cases d <;> rfl

theorem meanType_meanType (d : Dtype) : d.meanType.meanType = d.meanType := by cases d <;> rfl

/-- The sum of the elements of a list. -/
def sumFP (xs : List Num) : FP := (xs.map Num.toFP).sum

theorem onResult_mean (d : Dtype) : OnResult (mean d) (.fp (.fin 0)) (sumStep d.meanType)
    fun inv v => .fp (v.toFP.mul inv) := by
  have hType := meanType_isFloating d
  refine ⟨?_, fun _ _ _ => rfl, ?_, by simp [mean]⟩
  · rw [mean, Dtype.zero, if_pos hType]
  · intro u acc
    change Except.ok (Num.assign d.meanType _) = _
    rw [Num.assign_floating hType]
    cases acc.res <;> rfl

theorem foldl_sumStep {o : Dtype} (ho : o.isFloating = true) (xs : List Num) (x : FP) :
    xs.foldl (sumStep o) (.fp x) = .fp (x + sumFP xs) := by
  induction xs generalizing x with
  | nil => simp [sumFP]
  | cons v xs ih =>
    rw [List.foldl_cons, sumStep_fp ho, ih, sumFP, sumFP, List.map_cons, List.sum_cons, ← add_assoc]
    rfl

/-- The mean of a list is its sum times one over its length. -/
theorem value_mean (d : Dtype) (xs : List Num) :
    (mean d).value xs = .ok (.fp ((sumFP xs).mul (invNelem xs.length))) := by
  rw [(onResult_mean d).value, foldl_sumStep (meanType_isFloating d)]
  change Except.ok (Num.fp ((FP.fin 0 + sumFP xs).mul _)) = _
  rw [show FP.fin 0 + sumFP xs = sumFP xs from zero_add _]

/-- Multiplication by a number distributes over sums. -/
theorem add_mul_fin {q : ℚ} (hq : 0 < q) (x y : FP) :
    (x + y).mul (.fin q) = x.mul (.fin q) + y.mul (.fin q) := by
  change (x.add y).mul _ = (x.mul _).add (y.mul _)
  have hNeg : -q < 0 := neg_neg_of_pos hq
  cases x <;> cases y <;>
    simp [FP.add, FP.mul, FP.infOf_pos hq, FP.infOf_neg hNeg, add_mul]

theorem sumFP_flatten (lists : List (List Num)) : sumFP lists.flatten = (lists.map sumFP).sum := by
  induction lists with
  | nil => rfl
  | cons xs lists ih =>
    rw [List.flatten_cons, List.map_cons, List.sum_cons, ← ih]
    simp [sumFP]

theorem sum_map_mul {q : ℚ} (hq : 0 < q) (xs : List FP) :
    (xs.map fun x => x.mul (.fin q)).sum = xs.sum.mul (.fin q) := by
  induction xs with
  | nil => exact congrArg FP.fin (zero_mul q).symm
  | cons x xs ih => rw [List.map_cons, List.sum_cons, List.sum_cons, ih, add_mul_fin hq]

theorem invNelem_pos {n : Nat} (hn : 0 < n) : invNelem n = .fin (1 / n) := by
  simp [invNelem, FP.div, hn.ne']

theorem invNelem_mul {m n : Nat} (hm : 0 < m) (hn : 0 < n) :
    (invNelem m).mul (invNelem n) = invNelem (n * m) := by
  rw [invNelem_pos hm, invNelem_pos hn, invNelem_pos (Nat.mul_pos hn hm), FP.fin_mul_fin,
    Nat.cast_mul, one_div_mul_one_div_rev]

/-- The mean of means of lists of one length is the mean of all their elements. -/
theorem mean_flatten {lists : List (List Num)} {n : Nat} (hLen : ∀ xs ∈ lists, xs.length = n) :
    (lists.map fun xs => (sumFP xs).mul (invNelem n)).sum.mul (invNelem lists.length) =
      (sumFP lists.flatten).mul (invNelem lists.flatten.length) := by
  have hCount : lists.flatten.length = lists.length * n := by
    rw [List.length_flatten, List.map_congr_left hLen]
    simp
  rcases Nat.eq_zero_or_pos lists.length with hNone | hSome
  · rw [List.length_eq_zero_iff.mp hNone]
    rfl
  rcases Nat.eq_zero_or_pos n with rfl | hn
  · -- one over zero elements is infinite, and its product with the empty sum is NaN
    have hEmpty : lists.flatten = [] := List.length_eq_zero_iff.mp (by omega)
    have hEach : ∀ xs ∈ lists, (sumFP xs).mul (invNelem 0) = .nan := by
      intro xs hxs
      rw [List.length_eq_zero_iff.mp (hLen xs hxs)]
      rfl
    obtain ⟨xs, lists, rfl⟩ := List.exists_cons_of_length_pos hSome
    rw [hEmpty, List.map_cons, List.sum_cons, hEach xs List.mem_cons_self]
    change ((FP.nan.add _).mul _) = (FP.fin 0).mul (invNelem 0)
    rfl
  · have hPos : (0 : ℚ) < 1 / n := one_div_pos.mpr (Nat.cast_pos.mpr hn)
    rw [hCount, ← invNelem_mul hn hSome, ← FP.mul_assoc, sumFP_flatten, invNelem_pos hn,
      ← sum_map_mul hPos, List.map_map]
    rfl

theorem staged_mean (d : Dtype) : Staged (mean d) (mean d.meanType) (Num.Of d) where
  reduction _ _ _ := (onResult_mean d).reduction
  value {xs} _ := ⟨_, value_mean d xs, meanType_isFloating d⟩
  perm hPerm _ := by
    rw [value_mean, value_mean, hPerm.length_eq, sumFP, sumFP, List.Perm.sum_eq (hPerm.map _)]
  flatten {n lists vs} hLen _ hvs := by
    have hValues : vs = lists.map fun xs => .fp ((sumFP xs).mul (invNelem n)) := by
      rw [eq_map_of_value (value_mean d) hvs]
      refine List.map_congr_left fun xs hxs => ?_
      rw [hLen xs hxs]
    rw [value_mean, value_mean, ← mean_flatten hLen, hValues, sumFP, List.map_map, List.length_map]
    rfl

/-! ## All and any -/

/-- Setting the result to `v` at the elements that stop the loop. -/
theorem regroups_flag {v w : Num} {stops stops₂ : Num → Bool} (hv : stops₂ v = true)
    (hw : stops₂ w = false) :
    Regroups (fun b x => if stops x then v else b) (fun b x => if stops₂ x then v else b) w
      (fun b => b = v ∨ b = w) fun _ => True where
  mem_init := .inr rfl
  mem_step {b x} hb _ := by
    by_cases hx : stops x = true
    · exact .inl (if_pos hx)
    · simpa only [if_neg hx] using hb
  comm {b x y} _ _ _ := by
    by_cases hx : stops x = true <;> by_cases hy : stops y = true <;> simp [hx, hy]
  unit _ := by simp [hw]
  assoc {b c x} _ hc _ := by
    by_cases hx : stops x = true
    · simp [hx, hv]
    · simp [hx]

theorem foldl_flag {v w : Num} {stops : Num → Bool} (xs : List Num) :
    xs.foldl (fun b x => if stops x then v else b) w = if xs.any stops then v else w := by
  induction xs generalizing w with
  | nil => rfl
  | cons x xs ih =>
    rw [List.foldl_cons, ih, List.any_cons]
    by_cases hx : stops x = true <;> simp [hx]

theorem staged_all (d : Dtype) : Staged (all d) (all .bool) fun _ => True := by
  refine (onResult_simple ?_).staged (onResult_simple ?_)
    (@regroups_flag _ _ (allStops d) (allStops .bool) rfl rfl) ?_
  · intro b x y hx
    simp [hx]
  · intro b x y hx
    simp [hx]
  · rintro b (rfl | rfl) <;> exact ⟨rfl, rfl⟩

theorem staged_any (d : Dtype) : Staged (any d) (any .bool) fun _ => True := by
  refine (onResult_simple ?_).staged (onResult_simple ?_)
    (@regroups_flag _ _ (anyStops d) (anyStops .bool) rfl rfl) ?_
  · intro b x y hx
    simp [hx]
  · intro b x y hx
    simp [hx]
  · rintro b (rfl | rfl) <;> exact ⟨rfl, rfl⟩

end ReduceFunction

/-! ## The reductions of the axis-by-axis path -/

/-- Elements for which a reduction can be staged: a sum that skips NaN must not meet infinities,
whose sum it would skip in the next stage. -/
def ReduceFunc.Accepts (func : ReduceFunc) (d : Dtype) (v : Num) : Prop :=
  v.Of d ∧ (func = .nanSum ∨ func = .nanProd → ReduceFunction.Bounded v)

namespace ReduceFunction

theorem Staged.mono {f f₂ : ReduceFunction} {Q R : Num → Prop} (h : Staged f f₂ Q)
    (hR : ∀ {v}, R v → Q v) : Staged f f₂ R :=
  ⟨h.reduction, fun hxs => h.value fun x hx => hR (hxs x hx),
    fun hPerm hxs => h.perm hPerm fun x hx => hR (hxs x hx),
    fun hLen hxs => h.flatten hLen fun xs hxs' x hx => hR (hxs xs hxs' x hx)⟩

/-- What a stage takes for granted about the function of the next one. -/
structure NextStage (m : Machine) (func : ReduceFunc) (f f₂ : ReduceFunction) : Prop where
  choose : reduceFunction m func f.otype = .ok f₂
  itype : f₂.itype = f.otype
  otype : f₂.otype = f.otype

theorem nanReduction_eq_ok {g : Dtype → ReduceFunction} {d : Dtype} {f : ReduceFunction}
    (h : nanReduction g d = .ok f) : d.isFloating = true ∧ f = g d := by
  unfold nanReduction at h
  split at h
  · rename_i hd
    cases h
    exact ⟨hd, rfl⟩
  · cases h

theorem nanReduction_ok (g : Dtype → ReduceFunction) {d : Dtype} (hd : d.isFloating = true) :
    nanReduction g d = .ok (g d) := if_pos hd

theorem types_max (d : Dtype) : (max d).itype = d ∧ (max d).otype = d := by
  rw [max]
  split <;> exact ⟨rfl, rfl⟩

theorem types_min (d : Dtype) : (min d).itype = d ∧ (min d).otype = d := by
  rw [min]
  split <;> exact ⟨rfl, rfl⟩

theorem nextStage {m : Machine} {func : ReduceFunc} {g : Dtype → ReduceFunction} {d e : Dtype}
    (ho : (g d).otype = e) (hChoose : reduceFunction m func e = .ok (g e))
    (hItype : (g e).itype = e) (hOtype : (g e).otype = e) : NextStage m func (g d) (g e) :=
  ⟨by rw [ho, hChoose], by rw [ho, hItype], by rw [ho, hOtype]⟩

/-- Every reduction of the axis-by-axis path has a next stage of its own kind. -/
theorem exists_staged {m : Machine} {func : ReduceFunc} {d : Dtype} {f : ReduceFunction}
    (hMulti : func.isMulti = true) (hf : reduceFunction m func d = .ok f) :
    f.itype = d ∧ ∃ f₂, NextStage m func f f₂ ∧ Staged f f₂ (func.Accepts d) := by
  cases func
  case max =>
    cases hf
    obtain ⟨hi, ho⟩ := types_max d
    exact ⟨hi, max d, nextStage ho rfl hi ho, (staged_max d).mono And.left⟩
  case nanMax =>
    obtain ⟨hd, rfl⟩ := nanReduction_eq_ok hf
    exact ⟨rfl, nanMax d, nextStage rfl hf rfl rfl, (staged_nanMax hd).mono And.left⟩
  case min =>
    cases hf
    obtain ⟨hi, ho⟩ := types_min d
    exact ⟨hi, min d, nextStage ho rfl hi ho, (staged_min d).mono And.left⟩
  case nanMin =>
    obtain ⟨hd, rfl⟩ := nanReduction_eq_ok hf
    exact ⟨rfl, nanMin d, nextStage rfl hf rfl rfl, (staged_nanMin hd).mono And.left⟩
  case sum =>
    cases hf
    exact ⟨rfl, sum d.sumType, nextStage rfl rfl rfl (sumType_sumType d),
      (staged_sum d).mono And.left⟩
  case nanSum =>
    obtain ⟨hd, rfl⟩ := nanReduction_eq_ok hf
    exact ⟨rfl, nanSum d.sumType, nextStage rfl
      (nanReduction_ok nanSum ((sumType_isFloating d).trans hd)) rfl (sumType_sumType d),
      (staged_nanSum hd).mono fun hv => hv.2 (.inl rfl)⟩
  case prod =>
    cases hf
    exact ⟨rfl, prod d.sumType, nextStage rfl rfl rfl (sumType_sumType d),
      (staged_prod d).mono And.left⟩
  case nanProd =>
    obtain ⟨hd, rfl⟩ := nanReduction_eq_ok hf
    exact ⟨rfl, nanProd d.sumType, nextStage rfl
      (nanReduction_ok nanProd ((sumType_isFloating d).trans hd)) rfl (sumType_sumType d),
      (staged_nanProd hd).mono fun hv => hv.2 (.inr rfl)⟩
  case mean =>
    cases hf
    exact ⟨rfl, mean d.meanType, nextStage rfl rfl rfl (meanType_meanType d),
      (staged_mean d).mono And.left⟩
  case all =>
    cases hf
    exact ⟨rfl, all .bool, nextStage rfl rfl rfl rfl, (staged_all d).mono fun _ => trivial⟩
  case any =>
    cases hf
    exact ⟨rfl, any .bool, nextStage rfl rfl rfl rfl, (staged_any d).mono fun _ => trivial⟩
  all_goals cases hMulti

end ReduceFunction

end IronArray
