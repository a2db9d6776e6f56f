import IronArray.Views.Run

/-!
# Reading into larger buffers

`_iarray_get_slice_buffer` takes the shape of its buffer, which may be larger than the region.
`Known.readInto` is what callers inside the library rely on, for every container of a run.
-/

namespace IronArray

open Grid

variable {E : Backend} {c : Container} {A : NdArray Cell} {start stop : List Int}
  {s n m : List Nat}

/-- A transposed view reads the store untransposed into a new buffer of the transposed shape. Only
floating data can then be transposed. -/
theorem ShowsTransposed.getSliceBuffer_eq (buffer : Nat → Cell) {buflen : Int} (hE : E.Lawful)
    (h : ShowsTransposed c A) (hSel : Selects start stop A.shape s n) (hPos : ∀ k ∈ n, 0 < k)
    (hm : List.Forall₂ (· ≤ ·) n m) (hLen : (m.prod * c.dtshape.dtypeSize : Nat) ≤ buflen) :
    ∃ aux, _iarrayGetSliceBuffer E c start stop (ints m) buffer buflen =
        (if c.dtshape.dtype.isFloating
          then .ok (E.omatcopy (toInt32 (m.getD 1 0)) (toInt32 (m.getD 0 0)) aux buffer)
          else inaError .invalidDtype) ∧
      (∃ len : Int, E.getSliceBuffer c.catarr (ints s.reverse)
        (ints (addIdx s.reverse n.reverse)) E.malloc (ints m.reverse) len = .ok aux) ∧
      ∀ x, InBox x n.reverse → aux (flat m.reverse x) = A.transpose.get (addIdx s.reverse x) := by
  have hs : s.length = 2 := hSel.region.start_length.trans h.ndim
  have hn : n.length = 2 := hSel.region.length.trans h.ndim
  obtain ⟨m₀, m₁, rfl⟩ := List.length_eq_two.mp (hm.length_eq ▸ hn : m.length = 2)
  obtain ⟨n₀, n₁, rfl⟩ := List.length_eq_two.mp hn
  obtain ⟨s₀, s₁, rfl⟩ := List.length_eq_two.mp hs
  have hNdim : c.catarr.ndim = 2 := h.base.mask_length.symm
  have hSize : c.catarr.itemsize = c.dtshape.dtypeSize := h.base.itemsize
  have hProd : ([m₁, m₀] : List Nat).prod = [m₀, m₁].prod := by simp [Nat.mul_comm]
  have hShape : reversePrefix c.dtshape.ndim
      (scatterAdd (List.replicate c.catarr.ndim 1) c.index ((ints [m₀, m₁]).map (· - 1))) =
      ints [m₁, m₀] := by
    rw [h.scatter_reverse (by simp) (by simp [hNdim]), hNdim]
    simp
  have hBase := ShowsTransposed.selects_base hSel
  obtain ⟨h₀, hm⟩ := List.forall₂_cons.mp hm
  obtain ⟨h₁, _⟩ := List.forall₂_cons.mp hm
  have hFits : List.Forall₂ (· ≤ ·) [n₁, n₀] [m₁, m₀] := .cons h₁ (.cons h₀ .nil)
  have hPos' : ∀ k ∈ [n₁, n₀], 0 < k := fun k hk => hPos k (by simpa [or_comm] using hk)
  obtain ⟨aux, hAux, hGet⟩ := h.base.getSliceBufferInto E.malloc hE hBase hPos' hFits
    (Nat.cast_le.mpr (Nat.le_refl _))
  have hEq := h.base.getSliceBuffer_eq (E := E) (a := c.catarr) (m := [m₁, m₀]) E.malloc
    (([m₁, m₀] : List Nat).prod * c.dtshape.dtypeSize : Nat) hBase rfl
    c.containerViewed rfl
  have hRead := hEq.symm.trans hAux
  rw [show c.untransposed.dtshape.dtypeSize = c.dtshape.dtypeSize from rfl,
    if_neg (lt_irrefl _)] at hRead
  have hStart : addIdx [0, 0] (spread 0 [false, false] ([s₀, s₁] : List Nat).reverse) =
      [s₁, s₀] := by simp [spread]
  have hStop : addIdx [s₁, s₀] (spread 1 [false, false] ([n₀, n₁] : List Nat).reverse) =
      addIdx [s₁, s₀] [n₁, n₀] := rfl
  have hBuffer : spread 1 [false, false] [m₁, m₀] = [m₁, m₀] := rfl
  rw [hStart, hStop, hBuffer] at hRead
  have hSorted : ¬ (List.range c.dtshape.ndim).any fun i =>
      (c.storeStop stop).getD i 0 < (c.storeStart start).getD i 0 := by
    rw [h.storeStart hSel, h.storeStop hSel]
    simp only [List.any_eq_true, not_exists, not_and, decide_eq_true_eq, getD_ints]
    intro i _
    rw [getD_addIdx (by simp)]
    push_cast
    omega
  refine ⟨aux, ?_, ⟨_, hRead⟩, hGet⟩
  unfold _iarrayGetSliceBuffer
  rw [if_neg hSorted]
  simp only [h.transposed, if_true, hShape, prod_ints, hProd, hSize]
  rw [if_neg (by push_cast at hLen ⊢; omega), h.storeStart hSel, h.storeStop hSel]
  rw [hProd] at hRead
  exact congrArg (· >>= _) hRead

/-- A transposed view, whose buffer has lengths that fit an `int`. -/
theorem ShowsTransposed.getSliceBufferInto (buffer : Nat → Cell) {buflen : Int} (hE : E.Lawful)
    (h : ShowsTransposed c A) (hFloat : c.dtshape.dtype.isFloating)
    (hSel : Selects start stop A.shape s n) (hPos : ∀ k ∈ n, 0 < k)
    (hm : List.Forall₂ (· ≤ ·) n m) (hInt : ∀ k ∈ m, k < 2 ^ 31)
    (hLen : (m.prod * c.dtshape.dtypeSize : Nat) ≤ buflen) :
    ∃ out, _iarrayGetSliceBuffer E c start stop (ints m) buffer buflen = .ok out ∧
      ∀ x, InBox x n → out (flat m x) = A.get (addIdx s x) := by
  obtain ⟨aux, hRead, -, hGet⟩ := h.getSliceBuffer_eq buffer hE hSel hPos hm hLen
  rw [if_pos hFloat] at hRead
  have hn : n.length = 2 := hSel.region.length.trans h.ndim
  have hs : s.length = 2 := hSel.region.start_length.trans h.ndim
  obtain ⟨m₀, m₁, rfl⟩ := List.length_eq_two.mp (hm.length_eq ▸ hn : m.length = 2)
  obtain ⟨n₀, n₁, rfl⟩ := List.length_eq_two.mp hn
  obtain ⟨s₀, s₁, rfl⟩ := List.length_eq_two.mp hs
  obtain ⟨h₀, hm⟩ := List.forall₂_cons.mp hm
  obtain ⟨h₁, _⟩ := List.forall₂_cons.mp hm
  refine ⟨_, hRead, ?_⟩
  intro x hx
  obtain ⟨x₀, x, rfl, hx₀, hx⟩ := InBox.cons_iff.mp hx
  obtain ⟨x₁, x, rfl, hx₁, hx⟩ := InBox.cons_iff.mp hx
  cases hx
  simp only [List.getD_cons_zero, List.getD_cons_succ]
  rw [toInt32_natCast (hInt m₁ (by simp)), toInt32_natCast (hInt m₀ (by simp))]
  have hFlat : flat [m₀, m₁] [x₀, x₁] = x₀ * m₁ + x₁ := by simp
  have hValue := hGet [x₁, x₀] (by simpa using ⟨hx₁, hx₀⟩)
  have hFlat' : flat [m₁, m₀] [x₁, x₀] = x₁ * m₀ + x₀ := by simp
  rw [hFlat, hE.omatcopy m₁ m₀ aux buffer x₁ x₀ (hx₁.trans_le h₁) (hx₀.trans_le h₀), ← hFlat']
  exact hValue

/-- Every container of a run of view operations is read alike. A transposed one has to hold
floating data, and the lengths of its buffer have to fit an `int`. -/
theorem Known.readInto (buffer : Nat → Cell) {buflen : Int} (hE : E.Lawful) (h : Known c A)
    (hInt : c.transposed → c.dtshape.dtype.isFloating ∧ ∀ k ∈ m, k < 2 ^ 31)
    (hSel : Selects start stop A.shape s n) (hPos : ∀ k ∈ n, 0 < k)
    (hm : List.Forall₂ (· ≤ ·) n m) (hLen : (m.prod * c.dtshape.dtypeSize : Nat) ≤ buflen) :
    ∃ out, _iarrayGetSliceBuffer E c start stop (ints m) buffer buflen = .ok out ∧
      ∀ x, InBox x n → out (flat m x) = A.get (addIdx s x) := by
  cases hTransposed : c.transposed with
  | false =>
    obtain ⟨mask, off, ws, hShows⟩ := h.shows hTransposed
    exact hShows.getSliceBufferInto buffer hE hSel hPos hm hLen
  | true =>
    obtain ⟨hFloat, hInt⟩ := hInt hTransposed
    exact (h.showsTransposed hTransposed).getSliceBufferInto buffer hE hFloat hSel hPos hm hInt
      hLen

theorem Known.shape (h : Known c A) : c.dtshape.shape = A.shape := by
  cases h with
  | plain _ hSame => exact hSame.shape
  | view _ hShows => exact hShows.shape.trans hShows.shape_eq.symm
  | transposed hShows => exact hShows.shape

theorem Known.itemsize (h : Known c A) : c.catarr.itemsize = c.dtshape.dtypeSize := by
  cases h with
  | plain hPlain _ => exact hPlain.fresh.itemsize
  | view _ hShows => exact hShows.itemsize
  | transposed hShows => exact hShows.base.itemsize

/-- A transposed container of other than floating data is not read. -/
theorem Known.refused (buffer : Nat → Cell) {buflen : Int} (hE : E.Lawful) (h : Known c A)
    (hTransposed : c.transposed) (hInteger : ¬ c.dtshape.dtype.isFloating)
    (hSel : Selects start stop A.shape s n) (hPos : ∀ k ∈ n, 0 < k)
    (hm : List.Forall₂ (· ≤ ·) n m) (hLen : (m.prod * c.dtshape.dtypeSize : Nat) ≤ buflen) :
    _iarrayGetSliceBuffer E c start stop (ints m) buffer buflen = inaError .invalidDtype := by
  obtain ⟨_, hRead, -, -⟩ :=
    (h.showsTransposed hTransposed).getSliceBuffer_eq buffer hE hSel hPos hm hLen
  rw [hRead, if_neg hInteger]

end IronArray
