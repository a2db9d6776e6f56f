import IronArray.Linalg.Blas

/-!
# Two matrices block by block

The optimised products of two matrices multiply a block of the one by a block of the other and add
the result to a block of the product. `MatrixOperands` is what the blocks need to fit together,
`MatrixOperands.multiply` what one such step adds and `MatrixOperands.sum_walk` what all of them
do. A step adds nothing for a block that it leaves out, and it reads the other matrix under the type
of the one.
-/

namespace IronArray

open Grid Finset Headers

variable {R : Type} [Ring R] {value : Dtype → Cell → R} {B : Blas} {H : Headers}
  {a b : Container} {rows inner cols : Axis} {i j q t : Nat}

/-- The product of the items at offset `o` of chunk `q`, in row `i` of the one matrix and in
column `j` of the other. -/
def matrixTerm (value : Dtype → Cell → R) (a b : Container) (rows cols : Axis) (i j q o : Nat) :
    R :=
  value a.dtshape.dtype (a.catarr.padded [rows.pos i, (q, o)]) *
    value b.dtshape.dtype (b.catarr.padded [(q, o), cols.pos j])

/-- What a walk adds there: nothing in a block that it leaves out, otherwise the product with what
it sees of the other matrix under the type of the one. -/
def matrixWalked (value : Dtype → Cell → R) (a : Container) (rows inner : Axis)
    (skips : Nat → Nat → Bool) (seen : Nat → Nat → Cell) (i q o : Nat) : R :=
  if skips q (o / inner.blockshape) then 0
  else value a.dtshape.dtype (a.catarr.padded [rows.pos i, (q, o)]) *
    value a.dtshape.dtype (seen q o)

/-- Plain matrices, tiled alike along the dimension they share, the one of a floating type. -/
structure MatrixOperands (a b : Container) (rows inner cols : Axis) : Prop where
  left : Plain a
  right : Plain b
  leftAxes : a.catarr.axes = [rows, inner]
  rightAxes : b.catarr.axes = [inner, cols]
  floating : a.dtshape.dtype.isFloating

/-- The place of an element in its block of the product. -/
def matrixPlace (rows cols : Axis) (i j : Nat) : Nat :=
  rows.itemOf i * cols.blockshape + cols.itemOf j

theorem matrixPlace_lt (hi : i < rows.shape) (hj : j < cols.shape) :
    matrixPlace rows cols i j < rows.blockshape * cols.blockshape :=
  mul_add_lt (rows.itemOf_lt hi) (cols.itemOf_lt hj)

theorem locate_matrix (rows cols : Axis) (i j : Nat) : locate [rows, cols] [i, j] =
    ⟨rows.chunkOf i * cols.chunks + cols.chunkOf j, rows.blockOf i * cols.blocks + cols.blockOf j,
      matrixPlace rows cols i j⟩ := by
  simp [locate, blockshapeOf, matrixPlace]

theorem shortTiles_pair {x y : Axis} (hx : x.chunkshape < 2 ^ 31 ∧ x.blockshape < 2 ^ 31)
    (hy : y.chunkshape < 2 ^ 31 ∧ y.blockshape < 2 ^ 31) : ShortTiles [x, y] := by
  intro z hz
  rcases List.mem_pair.mp hz with rfl | rfl
  · exact hx
  · exact hy

/-- The tiles of a new matrix. -/
theorem axes_of_matrix {d : Dtype} {storage : Storage} {c : Container} {x y : Axis}
    (h : PlainOf ⟨d, [x.shape, y.shape]⟩ storage c)
    (hChunk : storage.chunkshape.getD 0 0 = x.chunkshape ∧
      storage.chunkshape.getD 1 0 = y.chunkshape)
    (hBlock : storage.blockshape.getD 0 0 = x.blockshape ∧
      storage.blockshape.getD 1 0 = y.blockshape)
    (hShort : ShortTiles [x, y]) : c.catarr.axes = [x, y] := by
  refine @PlainOf.axes_eq d storage c [x, y] h ?_ ?_ hShort
  · intro i hi
    rcases i with _ | _ | i
    · exact hChunk.1
    · exact hChunk.2
    · simp at hi
  · intro i hi
    rcases i with _ | _ | i
    · exact hBlock.1
    · exact hBlock.2
    · simp at hi

/-- An element of a matrix whose chunks have all been written. -/
theorem contents_matrix {c : Container} {block : Nat → Nat → List Cell} {x y : Axis}
    (hSized : c.catarr.Sized) (hPost : c.catarr.sc.postfilter = none)
    (hAxes : c.catarr.axes = [x, y])
    (hLen : ∀ q < x.chunks * y.chunks, ∀ t < x.blocks * y.blocks,
      (block q t).length = x.blockshape * y.blockshape) (hi : i < x.shape) (hj : j < y.shape) :
    (Container.contents { c with catarr := c.catarr.withChunks c.catarr.nchunks fun q =>
        (List.range (c.catarr.axes.map Axis.blocks).prod).flatMap (block q) }).get [i, j] =
      (block (x.chunkOf i * y.chunks + y.chunkOf j)
        (x.blockOf i * y.blocks + y.blockOf j)).getD (matrixPlace x y i j) (.bits 0) := by
  have hIn : InBox [i, j] c.catarr.shape := by simpa [CatArray.shape, hAxes] using ⟨hi, hj⟩
  rw [contents_withChunks hSized hPost (fun q hq t ht => ?_) hIn, hAxes, locate_matrix]
  simp only [CatArray.nchunks, CatArray.blockshape, blockshapeOf, hAxes, List.map_cons,
    List.map_nil, List.prod_cons, List.prod_nil, Nat.mul_one] at hq ht ⊢
  exact hLen q hq t ht

/-- Elements that are sums of an exact part and of padding. -/
theorem exact_iff {m n : Nat} {v s p : Nat → Nat → R}
    (h : ∀ i < m, ∀ j < n, v i j = s i j + p i j) :
    (∀ i < m, ∀ j < n, v i j = s i j) ↔ ∀ i < m, ∀ j < n, p i j = 0 := by
  constructor
  · intro hExact i hi j hj
    exact add_eq_left.mp ((h i hi j hj).symm.trans (hExact i hi j hj))
  · intro hPadding i hi j hj
    rw [h i hi j hj, hPadding i hi j hj, add_zero]

namespace MatrixOperands

theorem leftItems (h : MatrixOperands a b rows inner cols) :
    a.catarr.blockshape.prod = rows.blockshape * inner.blockshape := by
  simp [CatArray.blockshape, blockshapeOf, h.leftAxes]

theorem rightItems (h : MatrixOperands a b rows inner cols) :
    b.catarr.blockshape.prod = inner.blockshape * cols.blockshape := by
  simp [CatArray.blockshape, blockshapeOf, h.rightAxes]

theorem leftChunk_lt (h : MatrixOperands a b rows inner cols) (hi : i < rows.shape)
    (hq : q < inner.chunks) : rows.chunkOf i * inner.chunks + q < a.catarr.nchunks := by
  simp only [CatArray.nchunks, h.leftAxes, List.map_cons, List.map_nil, List.prod_cons,
    List.prod_nil, Nat.mul_one]
  exact mul_add_lt (Axis.chunkOf_lt hi) hq

theorem rightChunk_lt (h : MatrixOperands a b rows inner cols) (hj : j < cols.shape)
    (hq : q < inner.chunks) : q * cols.chunks + cols.chunkOf j < b.catarr.nchunks := by
  simp only [CatArray.nchunks, h.rightAxes, List.map_cons, List.map_nil, List.prod_cons,
    List.prod_nil, Nat.mul_one]
  exact mul_add_lt hq (Axis.chunkOf_lt hj)

theorem leftItem_lt (h : MatrixOperands a b rows inner cols) (hi : i < rows.shape) {l : Nat}
    (hl : l < inner.blockshape) :
    rows.itemOf i * inner.blockshape + l < a.catarr.blockshape.prod := by
  rw [h.leftItems]
  exact mul_add_lt (rows.itemOf_lt hi) hl

theorem rightItem_lt (h : MatrixOperands a b rows inner cols) (hj : j < cols.shape) {l : Nat}
    (hl : l < inner.blockshape) :
    l * cols.blockshape + cols.itemOf j < b.catarr.blockshape.prod := by
  rw [h.rightItems]
  exact mul_add_lt hl (cols.itemOf_lt hj)

/-- The stored item of the one matrix behind a term. -/
theorem left_padded (h : MatrixOperands a b rows inner cols) {l : Nat} (hl : l < inner.blockshape) :
    a.catarr.padded [rows.pos i, (q, t * inner.blockshape + l)] =
      a.catarr.sc.chunk (rows.chunkOf i * inner.chunks + q)
        ((rows.blockOf i * inner.blocks + t) * a.catarr.blockshape.prod +
          (rows.itemOf i * inner.blockshape + l)) := by
  rw [padded_matrix h.leftAxes, mul_add_div_of_lt hl, Nat.mul_add_mod_of_lt hl]
  rfl

/-- The stored item of the other. -/
theorem right_padded (h : MatrixOperands a b rows inner cols) {l : Nat}
    (hl : l < inner.blockshape) :
    b.catarr.padded [(q, t * inner.blockshape + l), cols.pos j] =
      b.catarr.sc.chunk (q * cols.chunks + cols.chunkOf j)
        ((t * cols.blocks + cols.blockOf j) * b.catarr.blockshape.prod +
          (l * cols.blockshape + cols.itemOf j)) := by
  rw [padded_matrix h.rightAxes, mul_add_div_of_lt hl, Nat.mul_add_mod_of_lt hl]
  rfl

theorem leftBlock_lt (h : MatrixOperands a b rows inner cols) (hi : i < rows.shape)
    (ht : t < inner.blocks) :
    rows.blockOf i * inner.blocks + t < (a.catarr.axes.map Axis.blocks).prod := by
  rw [h.leftAxes, List.map_cons, List.map_cons, List.map_nil, List.prod_cons, List.prod_cons,
    List.prod_nil, Nat.mul_one]
  exact mul_add_lt (rows.blockOf_lt hi) ht

theorem rightBlock_lt (h : MatrixOperands a b rows inner cols) (hj : j < cols.shape)
    (ht : t < inner.blocks) :
    t * cols.blocks + cols.blockOf j < (b.catarr.axes.map Axis.blocks).prod := by
  rw [h.rightAxes, List.map_cons, List.map_cons, List.map_nil, List.prod_cons, List.prod_cons,
    List.prod_nil, Nat.mul_one]
  exact mul_add_lt ht (cols.blockOf_lt hj)

/-- A term with a zero block of the one matrix. -/
theorem term_eq_zero_of_left (h : MatrixOperands a b rows inner cols) (hi : i < rows.shape)
    (hZero : ZeroBlock (fun c => value a.dtshape.dtype c = 0) a.catarr
      (rows.chunkOf i * inner.chunks + q) (rows.blockOf i * inner.blocks + t)) {l : Nat}
    (hl : l < inner.blockshape) :
    matrixTerm value a b rows cols i j q (t * inner.blockshape + l) = 0 := by
  rw [matrixTerm, h.left_padded hl, hZero _ (h.leftItem_lt hi hl), zero_mul]

/-- A term with a zero block of the other. -/
theorem term_eq_zero_of_right (h : MatrixOperands a b rows inner cols) (hj : j < cols.shape)
    (hZero : ZeroBlock (fun c => value b.dtshape.dtype c = 0) b.catarr
      (q * cols.chunks + cols.chunkOf j) (t * cols.blocks + cols.blockOf j)) {l : Nat}
    (hl : l < inner.blockshape) :
    matrixTerm value a b rows cols i j q (t * inner.blockshape + l) = 0 := by
  rw [matrixTerm, h.right_padded hl, hZero _ (h.rightItem_lt hj hl), mul_zero]

/-- Multiplying block `t` of chunk `q` in the row of the one matrix by the one in the column of
the other. -/
theorem multiply (h : MatrixOperands a b rows inner cols) (hB : B.Exact value) {m n k : Nat}
    {x y out : Nat → Cell} {skips : Nat → Nat → Bool} {seen : Nat → Nat → Cell}
    (hSkips : skips q t = false) (hm : rows.itemOf i < m) (hn : cols.itemOf j < n)
    (hn' : n ≤ cols.blockshape) (hk : k ≤ inner.blockshape)
    (hx : ∀ l < inner.blockshape, x (rows.itemOf i * inner.blockshape + l) =
      a.catarr.sc.chunk (rows.chunkOf i * inner.chunks + q)
        ((rows.blockOf i * inner.blocks + t) * a.catarr.blockshape.prod +
          (rows.itemOf i * inner.blockshape + l)))
    (hy : ∀ l < inner.blockshape, y (l * cols.blockshape + cols.itemOf j) =
      seen q (t * inner.blockshape + l)) :
    value a.dtshape.dtype (B.gemm a.dtshape.dtype m n k x inner.blockshape y cols.blockshape true
        out cols.blockshape (matrixPlace rows cols i j)) =
      value a.dtshape.dtype (out (matrixPlace rows cols i j)) +
        ∑ l ∈ range k,
          matrixWalked value a rows inner skips seen i q (t * inner.blockshape + l) := by
  rw [matrixPlace, hB.gemm true h.floating hk hn' hn' hm hn, if_pos rfl]
  congr 1
  refine sum_congr rfl fun l hl => ?_
  have hl' := (mem_range.mp hl).trans_le hk
  rw [matrixWalked, mul_add_div_of_lt hl', hSkips, if_neg Bool.false_ne_true, h.left_padded hl',
    hx l hl', hy l hl']

/-- The elements behind the terms inside the dimension that the matrices share. -/
theorem term_inside (h : MatrixOperands a b rows inner cols) (hi : i < rows.shape)
    (hj : j < cols.shape) {x : Nat} (hx : x < inner.shape) :
    matrixTerm value a b rows cols i j (x / inner.chunkshape) (x % inner.chunkshape) =
      value a.dtshape.dtype (a.contents.get [i, x]) *
        value b.dtshape.dtype (b.contents.get [x, j]) := by
  have hLeft : InBox [i, x] a.catarr.shape := by
    simpa [CatArray.shape, h.leftAxes] using ⟨hi, hx⟩
  have hRight : InBox [x, j] b.catarr.shape := by
    simpa [CatArray.shape, h.rightAxes] using ⟨hx, hj⟩
  have hGetA : a.contents.get [i, x] = _ :=
    get_eq_padded h.left.fresh.sized h.left.fresh.postfilter hLeft
  have hGetB : b.contents.get [x, j] = _ :=
    get_eq_padded h.right.fresh.sized h.right.fresh.postfilter hRight
  rw [hGetA, hGetB, h.leftAxes, h.rightAxes]
  rfl

/-- The walk over the chunks of the dimension that the matrices share. -/
theorem sum_walk (h : MatrixOperands a b rows inner cols) (hi : i < rows.shape)
    (hj : j < cols.shape) {w : Nat → Nat} (hw : ∀ q < inner.chunks, inner.part q ≤ w q)
    (f : Nat → Nat → R) :
    ∑ q ∈ range inner.chunks, ∑ o ∈ range (w q), f q o =
      ∑ x ∈ range inner.shape, value a.dtshape.dtype (a.contents.get [i, x]) *
        value b.dtshape.dtype (b.contents.get [x, j]) +
      inner.surplus w f (matrixTerm value a b rows cols i j) :=
  inner.sum_walk_surplus hw fun _ hx => h.term_inside hi hj hx

/-- A walk that sees the items of the other matrix and leaves out zero blocks only adds the
terms. -/
theorem walked_eq_term (h : MatrixOperands a b rows inner cols) (hi : i < rows.shape)
    (hj : j < cols.shape) {skips : Nat → Nat → Bool} {seen : Nat → Nat → Cell}
    (hSkips : skips q t = true →
      ZeroBlock (fun c => value a.dtshape.dtype c = 0) a.catarr
          (rows.chunkOf i * inner.chunks + q) (rows.blockOf i * inner.blocks + t) ∨
        ZeroBlock (fun c => value b.dtshape.dtype c = 0) b.catarr
          (q * cols.chunks + cols.chunkOf j) (t * cols.blocks + cols.blockOf j)) {l : Nat}
    (hl : l < inner.blockshape)
    (hSeen : skips q t = false → value a.dtshape.dtype (seen q (t * inner.blockshape + l)) =
      value b.dtshape.dtype (b.catarr.padded [(q, t * inner.blockshape + l), cols.pos j])) :
    matrixWalked value a rows inner skips seen i q (t * inner.blockshape + l) =
      matrixTerm value a b rows cols i j q (t * inner.blockshape + l) := by
  rw [matrixWalked, mul_add_div_of_lt hl]
  cases hSkip : skips q t with
  | true =>
    rw [if_pos rfl]
    rcases hSkips hSkip with hZero | hZero
    · exact (h.term_eq_zero_of_left hi hZero hl).symm
    · exact (h.term_eq_zero_of_right hj hZero hl).symm
  | false => rw [if_neg Bool.false_ne_true, hSeen hSkip, matrixTerm]

/-- Under its own type the other matrix is seen as it is. -/
theorem paddedAs_self (h : MatrixOperands a b rows inner cols) (hj : j < cols.shape) (m : Machine)
    (d : Dtype) {l : Nat} (hl : l < inner.blockshape) :
    b.catarr.paddedAs m d d [(q, t * inner.blockshape + l), cols.pos j] =
      b.catarr.padded [(q, t * inner.blockshape + l), cols.pos j] := by
  rw [paddedAs_matrix h.rightAxes, loadAt_aligned, h.right_padded hl, mul_add_div_of_lt hl,
    Nat.mul_add_mod_of_lt hl]
  exact chunkItems_storedItems (h.rightItem_lt hj hl)

end MatrixOperands

end IronArray
