import IronArray.Reduce.Oneshot
import Mathlib.Data.Int.ConditionallyCompleteOrder
import Mathlib.Data.Multiset.Sort

/-!
# Medians

The one-shot reduction collects the elements that project onto an item of the result, sorts them
and takes the middle. For an even number of integers the two middle ones are added in the type of
the elements, promoted: `median_exact_iff` says that the result is the exact median exactly if that
sum has no wrap-around.
-/

namespace IronArray

open Grid CatArray ReduceFunction

/-! ## The middle of a multiset -/

/-- The sum of the two middle values of an even number of integers. -/
def middleSum (s : Multiset ℤ) : ℤ :=
  s.sort.getD (s.card / 2 - 1) 0 + s.sort.getD (s.card / 2) 0

/-- The middle value of an odd number of integers, or the mean of the two middle ones. -/
def exactMedian (s : Multiset ℤ) : ℚ :=
  if s.card % 2 = 0 then middleSum s / 2 else s.sort.getD (s.card / 2) 0

theorem sort_of_forall_eq {s : Multiset ℤ} {v : ℤ} (h : ∀ z ∈ s, z = v) :
    s.sort = List.replicate s.card v :=
  List.eq_replicate_iff.mpr ⟨Multiset.length_sort _, fun z hz => h z ((Multiset.mem_sort _).mp hz)⟩

/-- The integers that a variable of type `d` holds. -/
def Dtype.InRange (d : Dtype) (z : ℤ) : Prop := d.lower ≤ z ∧ z ≤ d.upper

theorem Dtype.wrap_eq_self_iff {d : Dtype} {z : ℤ} : d.wrap z = z ↔ d.InRange z :=
  ⟨fun h => h ▸ d.wrap_bounds z, fun h => wrap_of_bounds h.1 h.2⟩

theorem sort_ints (zs : List ℤ) : (zs.map Num.int).mergeSort (fun a b => !b.lt a) =
    (zs : Multiset ℤ).sort.map Num.int := by
  rw [Multiset.coe_sort]
  refine (List.map_mergeSort fun a _ b _ => ?_).symm
  rw [Num.lt, ← decide_not]
  exact decide_eq_decide.mpr Int.not_lt.symm

theorem promote_integral {d : Dtype} (hd : d.isFloating = false) :
    (promote d).isFloating = false := by
  cases d <;> first | rfl | cases hd

/-- The middle of integers, with the sum of the two middle ones as their type holds it. -/
theorem middle_ints {d : Dtype} (hd : d.isFloating = false) {zs : List ℤ} (hne : zs ≠ []) :
    middle d (zs.map .int) = .ok (.fp (.fin (
      if zs.length % 2 = 0 then ((promote d).wrap (middleSum zs) : ℚ) / 2
      else (zs : Multiset ℤ).sort.getD (zs.length / 2) 0))) := by
  have hLength := List.length_pos_iff.mpr hne
  have hSorted : (zs : Multiset ℤ).sort.length = zs.length := by simp
  have hAt : ∀ {i : Nat}, i < zs.length → ((zs : Multiset ℤ).sort.map Num.int)[i]? =
      some (.int ((zs : Multiset ℤ).sort.getD i 0)) := by
    intro i hi
    rw [List.getElem?_map, List.getElem?_eq_getElem (hSorted ▸ hi), Option.map_some,
      List.getD_eq_getElem _ _ (hSorted ▸ hi)]
  unfold middle
  simp only [sort_ints, List.length_map]
  split
  · rw [hAt (by omega), hAt (by omega)]
    split
    · rename_i hFirst hSecond
      obtain rfl := Option.some.inj hFirst
      obtain rfl := Option.some.inj hSecond
      simp only [Num.add, Num.assign_int (promote_integral hd), Num.toFP, FP.mul, middleSum,
        Multiset.coe_card]
      norm_num [div_eq_mul_inv]
    · rename_i hOther
      exact absurd rfl (hOther (zs.length - 1) _ _ (by omega) rfl)
  · rw [hAt (by omega)]
    rfl

/-- The code finds the exact median of integers if the sum of the two middle ones fits its type. -/
theorem middle_ints_iff {d : Dtype} (hd : d.isFloating = false) {zs : List ℤ} (hne : zs ≠ []) :
    middle d (zs.map .int) = .ok (.fp (.fin (exactMedian zs))) ↔
      zs.length % 2 = 1 ∨ (promote d).InRange (middleSum zs) := by
  rw [middle_ints hd hne, Except.ok.injEq, Num.fp.injEq, FP.fin.injEq, exactMedian,
    Multiset.coe_card, ← Dtype.wrap_eq_self_iff]
  by_cases hEven : zs.length % 2 = 0
  · rw [if_pos hEven, if_pos hEven, div_left_inj' two_ne_zero, Int.cast_inj]
    exact ⟨.inr, fun h => h.resolve_left (by omega)⟩
  · simp only [if_neg hEven, true_iff]
    left
    omega

/-! ## The elements of an item -/

/-- The integers that project onto `y` when the marked axes are removed. -/
def Container.slabInts (a : Container) (mask : List Bool) (y : List Nat) : Multiset ℤ :=
  ((Grid.slab mask a.dtshape.shape y).map fun x => (a.catarr.get x).toInt a.dtshape.dtype :
    List ℤ)

/-- The elements are collected in the order in which they are met. -/
theorem foldl_median (d : Dtype) (u : UserData) (vs : List Num) (acc : Acc) :
    vs.foldl ((median d).step u) acc = { acc with
      medians := acc.medians ++ vs
      nanNelems := acc.nanNelems + vs.countP Num.isNan
      notNanNelems := acc.notNanNelems + vs.countP fun v => !v.isNan } := by
  induction vs generalizing acc with
  | nil => simp
  | cons v vs ih =>
    rw [List.foldl_cons, ih]
    cases hNan : v.isNan <;> simp [median, hNan, Nat.add_assoc, Nat.add_comm 1]

theorem valuesAt_ints {a : Container} (hInt : a.dtshape.dtype.isFloating = false)
    (order : List (List Nat)) : a.valuesAt order =
      (order.map fun x => (a.catarr.get x).toInt a.dtshape.dtype).map .int := by
  simp [Container.valuesAt, Cell.num, hInt]

/-- The number of integers is odd, or the sum of the two middle ones fits the type in which they are
added. -/
def MedianFits (d : Dtype) (s : Multiset ℤ) : Prop :=
  s.card % 2 = 1 ∨ (promote d).InRange (middleSum s)

/-- The finish of the state that a traversal in any order leaves. -/
theorem finish_foldAt_iff {a : Container} (hInt : a.dtshape.dtype.isFloating = false)
    {mask : List Bool} {y : List Nat} (hne : Grid.slab mask a.dtshape.shape y ≠ []) (u : UserData)
    {order : List (List Nat)} (hPerm : order.Perm (Grid.slab mask a.dtshape.shape y)) :
    (median a.dtshape.dtype).finish u (a.foldAt (median a.dtshape.dtype) u order) =
        .ok (.fp (.fin (exactMedian (a.slabInts mask y)))) ↔
      MedianFits a.dtshape.dtype (a.slabInts mask y) := by
  have hInts : a.slabInts mask y =
      (order.map fun x => (a.catarr.get x).toInt a.dtshape.dtype : List ℤ) :=
    Multiset.coe_eq_coe.mpr (hPerm.map _).symm
  have hNone : (a.valuesAt order).countP Num.isNan = 0 := by
    rw [valuesAt_ints hInt, List.countP_eq_zero]
    intro v hv
    obtain ⟨z, _, rfl⟩ := List.mem_map.mp hv
    exact Bool.false_ne_true
  have hNonempty : (order.map fun x => (a.catarr.get x).toInt a.dtshape.dtype) ≠ [] := by
    intro hNil
    rw [List.map_eq_nil_iff] at hNil
    exact hne (List.Perm.nil_eq (hNil ▸ hPerm)).symm
  rw [foldAt_eq a rfl, foldl_median, hNone, MedianFits, hInts, Multiset.coe_card,
    ← middle_ints_iff hInt hNonempty, ← valuesAt_ints hInt]
  rfl

theorem middle_floating {d : Dtype} {vs : List Num} {v : Num} (h : middle d vs = .ok v) :
    ∃ x, v = .fp x := by
  unfold middle at h
  dsimp only at h
  split at h
  · split at h
    · exact ⟨_, (Except.ok.inj h).symm⟩
    · cases h
  · split at h
    · exact ⟨_, (Except.ok.inj h).symm⟩
    · cases h

theorem finish_median_floating {d : Dtype} {u : UserData} {acc : Acc} {v : Num}
    (h : (median d).finish u acc = .ok v) : ∃ x, v = .fp x := by
  by_cases hNan : acc.nanNelems = 0
  · exact middle_floating (h.symm.trans (if_pos hNan)).symm
  · exact ⟨.nan, (Except.ok.inj (h.symm.trans (if_neg hNan)))⟩

/-! ## The reduction -/

theorem blockCells_ok {f : ReduceFunction} {a c : Container} {axis : List Nat} {correction : FP}
    {aux : Option CatArray} (hIn : ∀ x ∈ a.catarr.axes, 0 < x.shape)
    (hOut : ∀ x ∈ c.catarr.axes, 0 < x.shape) (nchunk : Nat) (part : List Nat) (nblock : Nat) :
    ∃ cells, blockCells f a c axis correction aux nchunk part nblock = .ok cells := by
  unfold blockCells
  rw [shapeOfChunks_ok fun x hx => x.chunk_pos (hOut x hx),
    shapeOfChunks_ok fun x hx => x.chunk_pos (hIn x hx), shapeOfBlocks_ok hOut,
    shapeOfBlocks_ok hIn]
  exact ⟨_, rfl⟩

/-- For integers the one-shot reduction finds the exact median of the elements that project onto an
item exactly if their number is odd or the sum of the two middle ones fits its type: the finish
yields it from the state that the traversal leaves, and a call that succeeds stores it. -/
theorem median_exact_iff {a : Container} (ha : Plain a)
    (hInt : a.dtshape.dtype.isFloating = false) {axes : List Nat} (hNodup : axes.Nodup)
    (hRange : ∀ k ∈ axes, k < a.dtshape.ndim) {y : List Nat}
    (hy : InBox y (keep (reducedAxis a.dtshape.ndim axes) a.dtshape.shape))
    (hne : slab (reducedAxis a.dtshape.ndim axes) a.dtshape.shape y ≠ []) :
    (∀ c : Container, c.catarr.axes = keep (reducedAxis a.dtshape.ndim axes) a.catarr.axes →
      ∃ cells item acc, blockCells (median a.dtshape.dtype) a c axes (.fin 0) none
          (locate c.catarr.axes y).nchunk
          (partShape c.catarr.axes (locate c.catarr.axes y).nchunk)
          (locate c.catarr.axes y).nblock = .ok cells ∧
        cells[(locate c.catarr.axes y).nitem]? = some (item, acc) ∧
        ((median a.dtshape.dtype).finish item.userData acc =
            .ok (.fp (.fin (exactMedian (a.slabInts (reducedAxis a.dtshape.ndim axes) y)))) ↔
          MedianFits a.dtshape.dtype (a.slabInts (reducedAxis a.dtshape.ndim axes) y))) ∧
    ∀ E : Backend, E.Lawful → ∀ storage b,
      iarrayReduceMulti E a .median (ints axes) storage true (.fin 0) = .ok b →
      (b.elem y = .fp (.fin (exactMedian (a.slabInts (reducedAxis a.dtshape.ndim axes) y))) ↔
        MedianFits a.dtshape.dtype (a.slabInts (reducedAxis a.dtshape.ndim axes) y)) := by
  constructor
  · intro c hAxes
    have hy' : InBox y (shapeOf c.catarr.axes) := by
      rw [hAxes, shapeOf, ← keep_map]
      change InBox y (keep _ (shapeOf a.catarr.axes))
      rwa [show shapeOf a.catarr.axes = a.dtshape.shape from ha.fresh.shape]
    obtain ⟨x, hx⟩ := List.exists_mem_of_ne_nil _ hne
    have hIn : ∀ z ∈ a.catarr.axes, 0 < z.shape := by
      apply shape_pos_of_inBox (x := x)
      rw [show shapeOf a.catarr.axes = a.dtshape.shape from ha.fresh.shape]
      exact (mem_slab.mp hx).1
    obtain ⟨cells, hCells⟩ := @blockCells_ok (median a.dtshape.dtype) a c axes (.fin 0) none hIn
      (shape_pos_of_inBox hy') (locate c.catarr.axes y).nchunk
      (partShape c.catarr.axes (locate c.catarr.axes y).nchunk) (locate c.catarr.axes y).nblock
    obtain ⟨order, item, hPerm, hData, _, hState⟩ :=
      blockCells_item ha hAxes (fun _ h => by cases h) hy' hCells
    refine ⟨cells, item, _, hCells, hState, ?_⟩
    exact finish_foldAt_iff hInt hne item.userData hPerm
  · intro E hE storage b hCall
    obtain ⟨f, hf, hDtshape, mean, _, hElems⟩ := reduceMulti_oneshot hE ha hNodup hRange hCall
    cases hf
    obtain ⟨v, ⟨order, hPerm, hFinish⟩, hGet⟩ := hElems y (by rw [hDtshape]; exact hy)
    obtain ⟨x, rfl⟩ := finish_median_floating hFinish
    have hFloating : (median a.dtshape.dtype).otype.isFloating = true := by
      cases a.dtshape.dtype <;> rfl
    rw [← finish_foldAt_iff hInt hne _ hPerm, hFinish, Except.ok.injEq, Container.elem, hGet, hDtshape]
    change (Num.fp x).assign _ = _ ↔ _
    rw [Num.assign_floating hFloating]
    rfl

namespace MedianExample

/-- Two equal elements, in one block. -/
def pair (d : Dtype) (n : Nat) : Container :=
  Reference.plain d [.ofCuts 2 2 2] fun _ => .bits n

theorem plain_pair (d : Dtype) (n : Nat) : Plain (pair d n) :=
  Reference.plain_plain _ _ (by decide) (by decide)

end MedianExample

theorem middleSum_pair (v : ℤ) : middleSum ([v, v] : List ℤ) = v + v := by
  have hAll : ∀ z ∈ (([v, v] : List ℤ) : Multiset ℤ), z = v := by simp
  simp [middleSum, sort_of_forall_eq hAll, List.replicate]

/-- The median of two elements 7. -/
theorem median_exact_iff_pair :
    (∀ c : Container, c.catarr.axes = [] →
      ∃ cells item acc, blockCells (median .uint32) (MedianExample.pair .uint32 7) c [0] (.fin 0) none
          (locate c.catarr.axes []).nchunk (partShape c.catarr.axes (locate c.catarr.axes []).nchunk)
          (locate c.catarr.axes []).nblock = .ok cells ∧
        cells[(locate c.catarr.axes []).nitem]? = some (item, acc) ∧
        (median .uint32).finish item.userData acc = .ok (.fp (.fin 7))) ∧
    ∀ E : Backend, E.Lawful → ∀ storage b,
      iarrayReduceMulti E (MedianExample.pair .uint32 7) .median [0] storage true (.fin 0) = .ok b →
      b.elem [] = .fp (.fin 7) := by
  have hMedian : exactMedian ([7, 7] : List ℤ) = 7 := by
    rw [exactMedian, middleSum_pair]
    norm_num
  have hFits : MedianFits .uint32 ([7, 7] : List ℤ) := by
    refine .inr ?_
    rw [middleSum_pair]
    exact ⟨by decide, by decide⟩
  obtain ⟨hBlock, hCall⟩ := @median_exact_iff (MedianExample.pair .uint32 7)
    (MedianExample.plain_pair .uint32 7) rfl [0] (by decide) (by decide) [] .nil (by decide)
  constructor
  · intro c hc
    obtain ⟨cells, item, acc, hCells, hItem, hFinish⟩ := hBlock c hc
    refine ⟨cells, item, acc, hCells, hItem, ?_⟩
    rw [← hMedian]
    exact hFinish.mpr hFits
  · intro E hE storage b hb
    rw [← hMedian]
    exact (hCall E hE storage b hb).mpr hFits

/-- Of two elements 2³² − 1 the median is half of their sum modulo 2³². -/
theorem median_wraps :
    ∃ cells item acc, blockCells (median .uint32) (MedianExample.pair .uint32 4294967295)
        (Reference.plain .double [] fun _ => .bits 0) [0] (.fin 0) none 0 [] 0 = .ok cells ∧
      cells[0]? = some (item, acc) ∧
      (median .uint32).finish item.userData acc = .ok (.fp (.fin 2147483647)) ∧
      exactMedian ((MedianExample.pair .uint32 4294967295).slabInts [true] []) = 4294967295 := by
  refine ⟨_, _, _, rfl, rfl, ?_, ?_⟩
  · change middle .uint32 (([4294967295, 4294967295] : List ℤ).map .int) = _
    have hWrap : (promote .uint32).wrap (4294967295 + 4294967295) = 4294967294 := by decide
    rw [middle_ints rfl (List.cons_ne_nil _ _), middleSum_pair, hWrap]
    norm_num
  · change exactMedian ([4294967295, 4294967295] : List ℤ) = _
    rw [exactMedian, middleSum_pair]
    norm_num

end IronArray
