import IronArray.Core.Reference
import IronArray.Views.Into

/-!
# Rectangles of a transposed matrix

A rectangle of a transposed matrix is read into a scratch buffer and transposed by
`mkl_?omatcopy`, which receives the lengths of the buffer as `int`. `transposedReads_iff`: every
element arrives at its place exactly if these lengths are still large enough for the rectangle.
-/

namespace IronArray

open Grid

/-! ## Lengths as `int` -/

/-- The lengths of a buffer of shape `m₀ × m₁` that `mkl_?omatcopy` receives hold the rectangle of
shape `n₀ × n₁`, and a length by which rows are counted is passed on unchanged. -/
def FitsInt (n₀ n₁ m₀ m₁ : Nat) : Prop :=
  (n₀ : Int) ≤ toInt32 m₀ ∧ (n₁ : Int) ≤ toInt32 m₁ ∧ (1 < n₁ → m₀ < 2 ^ 31) ∧
    (1 < n₀ → m₁ < 2 ^ 31)

instance (n₀ n₁ m₀ m₁ : Nat) : Decidable (FitsInt n₀ n₁ m₀ m₁) :=
  inferInstanceAs (Decidable (_ ∧ _ ∧ _ ∧ _))

/-- With `r` and `q` as the lengths that `mkl_?omatcopy` receives, the item that it moves to the
place of `(x₀, x₁)` in the buffer is the one from the place of `(x₁, x₀)` in the scratch buffer. -/
def Lands (r q m₀ m₁ x₀ x₁ : Nat) : Prop :=
  x₀ * m₁ + x₁ < r * q ∧ (x₀ * m₁ + x₁) % r * q + (x₀ * m₁ + x₁) / r = x₁ * m₀ + x₀

section Lengths

variable {n₀ n₁ m₀ m₁ r q : Nat}

/-- Lengths that are large enough bring every item to its place. -/
theorem FitsInt.lands (h : FitsInt n₀ n₁ m₀ m₁) (hr : toInt32 m₁ = r) (hq : toInt32 m₀ = q)
    {x₀ x₁ : Nat} (hx₀ : x₀ < n₀) (hx₁ : x₁ < n₁) : Lands r q m₀ m₁ x₀ x₁ := by
  obtain ⟨hRows, hCols, hScratch, hBuffer⟩ := h
  have hr₁ : x₁ < r := by omega
  have hq₀ : x₀ < q := by omega
  -- the place counts rows of length `r`
  have hPlace : x₀ * m₁ + x₁ = x₀ * r + x₁ := by
    rcases Nat.eq_zero_or_pos x₀ with rfl | hFirst
    · simp
    · have hLong := toInt32_natCast (hBuffer (by omega))
      obtain rfl : r = m₁ := by omega
      rfl
  have hSource : x₁ * q = x₁ * m₀ := by
    rcases Nat.eq_zero_or_pos x₁ with rfl | hFirst
    · simp
    · have hLong := toInt32_natCast (hScratch (by omega))
      obtain rfl : q = m₀ := by omega
      rfl
  rw [Lands, hPlace, Nat.mul_add_mod_of_lt hr₁, mul_add_div_of_lt hr₁, hSource]
  refine ⟨?_, rfl⟩
  calc x₀ * r + x₁ < (x₀ + 1) * r := by rw [Nat.add_mul, Nat.one_mul]; omega
    _ ≤ q * r := Nat.mul_le_mul_right r hq₀
    _ = r * q := Nat.mul_comm q r

theorem FitsInt.lengths (h : FitsInt n₀ n₁ m₀ m₁) :
    ∃ r q : Nat, toInt32 m₁ = r ∧ toInt32 m₀ = q := by
  obtain ⟨hRows, hCols, -, -⟩ := h
  obtain ⟨r, hr⟩ := Int.eq_ofNat_of_zero_le ((Int.natCast_nonneg n₁).trans hCols)
  obtain ⟨q, hq⟩ := Int.eq_ofNat_of_zero_le ((Int.natCast_nonneg n₀).trans hRows)
  exact ⟨r, q, hr, hq⟩

/-- Where every item comes to its place the lengths are large enough. -/
theorem FitsInt.of_lands (hr : toInt32 m₁ = r) (hq : toInt32 m₀ = q) (h₀ : 0 < n₀) (h₁ : 0 < n₁)
    (h : ∀ x₀ < n₀, ∀ x₁ < n₁, Lands r q m₀ m₁ x₀ x₁) : FitsInt n₀ n₁ m₀ m₁ := by
  have hSome := (h 0 h₀ 0 h₁).1
  have hrPos : 0 < r := Nat.pos_of_ne_zero fun hZero => by simp [hZero] at hSome
  have hqPos : 0 < q := Nat.pos_of_ne_zero fun hZero => by simp [hZero] at hSome
  have hrLe := toInt32_le m₁
  have hCols : n₁ ≤ r := by
    by_contra hShort
    obtain ⟨hInside, hFrom⟩ := h 0 h₀ r (by omega)
    rw [Nat.zero_mul, Nat.zero_add] at hInside hFrom
    rw [Nat.mod_self, Nat.div_self hrPos, Nat.zero_mul, Nat.zero_add, Nat.add_zero] at hFrom
    obtain rfl : r = 1 := Nat.eq_one_of_mul_eq_one_right hFrom.symm
    obtain rfl : m₀ = 1 := Nat.eq_one_of_mul_eq_one_left hFrom.symm
    have hOne := toInt32_natCast (n := 1) (by decide)
    omega
  have hRows : n₀ ≤ q := by
    by_contra hShort
    obtain ⟨hInside, -⟩ := h q (by omega) 0 h₁
    rw [Nat.add_zero, Nat.mul_comm] at hInside
    have := Nat.lt_of_mul_lt_mul_right hInside
    omega
  refine ⟨by omega, by omega, fun hSecond => ?_, fun hSecond => ?_⟩
  · obtain ⟨-, hFrom⟩ := h 0 h₀ 1 hSecond
    rw [Nat.zero_mul, Nat.zero_add, Nat.mod_eq_of_lt (hSecond.trans_le hCols),
      Nat.div_eq_of_lt (hSecond.trans_le hCols)] at hFrom
    have hSmall := toInt32_lt m₀
    omega
  · by_contra hLong
    have hLost := toInt32_of_le (Nat.not_lt.mp hLong)
    have hSmall := toInt32_lt m₁
    obtain ⟨-, hFrom⟩ := h 1 hSecond 0 h₁
    have hTwo : 2 ≤ (1 * m₁ + 0) / r := by
      rw [Nat.le_div_iff_mul_le hrPos]
      omega
    omega

end Lengths

/-! ## The rectangle -/

/-- What the libraries do not write into a buffer stays as it was. -/
structure Backend.Untouched (E : Backend) : Prop where
  getSliceBuffer : ∀ {a : CatArray} {s n m : List Nat} {buffer out : Nat → Cell} {buflen : Int},
    s.length = n.length → n ≠ [] → (∀ k ∈ n, 0 < k) → List.Forall₂ (· ≤ ·) n m →
    E.getSliceBuffer a (ints s) (ints (addIdx s n)) buffer (ints m) buflen = .ok out →
    ∀ k, (∀ x, InBox x n → flat m x ≠ k) → out k = buffer k
  omatcopy : ∀ (rows cols : Int) (src dst : Nat → Cell) (k : Nat),
    (rows ≤ 0 ∨ cols ≤ 0 ∨ rows * cols ≤ k) → E.omatcopy rows cols src dst k = dst k

/-- Every element of the rectangle of shape `n₀ × n₁` at `(s₀, s₁)` of the transposed matrix `t`
arrives at its place in a buffer of shape `m₀ × m₁`. -/
def TransposedReads (E : Backend) (a t : Container) (s₀ s₁ n₀ n₁ m₀ m₁ : Nat) : Prop :=
  ∀ (start stop : List Int) (buffer : Nat → Cell) (buflen : Int),
    Selects start stop t.dtshape.shape [s₀, s₁] [n₀, n₁] →
    (m₀ * m₁ * t.dtshape.dtypeSize : Nat) ≤ buflen →
    ∀ i < n₀, ∀ j < n₁, ∃ out,
      _iarrayGetSliceBuffer E t start stop (ints [m₀, m₁]) buffer buflen = .ok out ∧
        out (i * m₁ + j) = a.contents.get [s₁ + j, s₀ + i]

/-- The matrix with other elements. -/
def Container.refill (a : Container) (f : List Nat → Cell) : Container :=
  { a with catarr := .ofFn a.catarr.axes a.catarr.itemsize f }

section Rectangle

variable {E : Backend} {a t : Container} {s₀ s₁ n₀ n₁ m₀ m₁ : Nat}

theorem Plain.refill (h : Plain a) (f : List Nat → Cell) : Plain (a.refill f) :=
  h.setArray ⟨h.fresh.shape, h.fresh.storage, h.fresh.itemsize, ⟨h.fresh.sized.1, rfl⟩, rfl⟩

theorem Plain.refill_get (h : Plain a) (f : List Nat → Cell) {x : List Nat}
    (hx : InBox x a.dtshape.shape) : (a.refill f).contents.get x = f x := by
  rw [← h.fresh.shape] at hx
  exact get_of_cell (CatArray.cell_ofFn h.fresh.sized.1 hx)

theorem transpose_dtshape (h : iarrayLinalgTranspose E a = .ok t) :
    t.dtshape = ⟨a.dtshape.dtype, a.dtshape.shape.reverse⟩ := by
  obtain ⟨-, -, b, hb, rfl⟩ := transpose_ok h
  obtain ⟨_, _, rfl⟩ := viewNew_ok hb
  rfl

/-- Whether a matrix can be transposed does not depend on its elements. -/
theorem transpose_refill (h : iarrayLinalgTranspose E a = .ok t) (f : List Nat → Cell) :
    ∃ t', iarrayLinalgTranspose E (a.refill f) = .ok t' := by
  obtain ⟨hViewed, hNdim, b, hb, rfl⟩ := transpose_ok h
  have hPlain : ¬ (a.refill f).containerViewed.isSome := Option.not_isSome_iff_eq_none.mpr hViewed
  rw [iarrayLinalgTranspose, if_neg hPlain,
    if_neg (not_not.mpr (show (a.refill f).dtshape.ndim = 2 from hNdim))]
  have hSmall : (Dtshape.mk a.dtshape.dtype a.dtshape.shape.reverse).ndim ≤ dimensionMax := by
    by_contra hLarge
    rw [_iarrayViewNew, if_pos (Nat.lt_of_not_le hLarge)] at hb
    cases hb
  obtain ⟨array, hArray, rfl⟩ := viewNew_ok hb
  have hSame : _iarrayViewNew E (a.refill f) ⟨a.dtshape.dtype, a.dtshape.shape.reverse⟩
      (List.replicate a.dtshape.ndim 0) = _ := viewNew_eq _ hSmall hArray
  exact ⟨_, congrArg (· >>= _) hSame⟩

/-- An element of a rectangle of the transposed matrix is one of the elements that were replaced. -/
theorem Plain.refill_get_transposed (h : Plain a) (hView : iarrayLinalgTranspose E a = .ok t)
    (hRegion : Region [s₀, s₁] [n₀, n₁] t.dtshape.shape) (f : List Nat → Cell) {i j : Nat}
    (hi : i < n₀) (hj : j < n₁) :
    (a.refill f).contents.get [s₁ + j, s₀ + i] = f [s₁ + j, s₀ + i] := by
  apply h.refill_get
  have hIn := hRegion.inBox (x := [i, j]) (by simp [hi, hj])
  rw [transpose_dtshape hView] at hIn
  simpa [InBox] using List.rel_reverse hIn

/-- The items of the scratch buffer, and what `mkl_?omatcopy` is asked for. -/
theorem transposed_scratch (buffer : Nat → Cell) (hE : E.Lawful) (hPlain : Plain a)
    (hFloat : a.dtshape.dtype.isFloating) (hView : iarrayLinalgTranspose E a = .ok t)
    {start stop : List Int} {buflen : Int}
    (hSel : Selects start stop t.dtshape.shape [s₀, s₁] [n₀, n₁])
    (hn₀ : 0 < n₀) (hn₁ : 0 < n₁) (h₀ : n₀ ≤ m₀) (h₁ : n₁ ≤ m₁)
    (hLen : (m₀ * m₁ * t.dtshape.dtypeSize : Nat) ≤ buflen) :
    ∃ aux, _iarrayGetSliceBuffer E t start stop (ints [m₀, m₁]) buffer buflen =
        .ok (E.omatcopy (toInt32 m₁) (toInt32 m₀) aux buffer) ∧
      (E.Untouched → ∀ k, (∀ i < n₀, ∀ j < n₁, j * m₀ + i ≠ k) → aux k = E.malloc k) ∧
      ∀ i < n₀, ∀ j < n₁, aux (j * m₀ + i) = a.contents.get [s₁ + j, s₀ + i] := by
  have hShows := transpose_shows hE hPlain hView
  have hShape : t.dtshape.shape = a.contents.transpose.shape := hShows.shape
  rw [hShape] at hSel
  have hPos : ∀ k ∈ [n₀, n₁], 0 < k := by simp [hn₀, hn₁]
  have hFits : List.Forall₂ (· ≤ ·) [n₀, n₁] [m₀, m₁] := .cons h₀ (.cons h₁ .nil)
  have hBuffer : ([m₀, m₁].prod * t.dtshape.dtypeSize : Nat) ≤ buflen := by simpa using hLen
  obtain ⟨aux, hRead, ⟨len, hAux⟩, hGet⟩ :=
    hShows.getSliceBuffer_eq buffer hE hSel hPos hFits hBuffer
  have hType : t.dtshape.dtype.isFloating := by
    rw [transpose_dtshape hView]
    exact hFloat
  rw [if_pos hType] at hRead
  refine ⟨aux, hRead, fun hUntouched k hk => ?_, fun i hi j hj => ?_⟩
  · have hLengths : ([s₀, s₁] : List Nat).reverse.length = ([n₀, n₁] : List Nat).reverse.length := rfl
    apply hUntouched.getSliceBuffer hLengths (by simp)
      (fun k hk => hPos k (List.mem_reverse.mp hk)) (List.rel_reverse hFits) hAux
    intro x hx
    obtain ⟨j, x, rfl, hj, hx⟩ := InBox.cons_iff.mp hx
    obtain ⟨i, x, rfl, hi, hx⟩ := InBox.cons_iff.mp hx
    cases hx
    simpa using hk i hi j hj
  · have hValue := hGet [j, i] (by simpa using ⟨hj, hi⟩)
    simpa [NdArray.transpose] using hValue

/-- Where the transposed items come from, if `mkl_?omatcopy` writes the place at all. -/
theorem omatcopy_eq (hE : E.Lawful) {r q : Nat} (aux buffer : Nat → Cell) {k : Nat}
    (hk : k < r * q) : E.omatcopy r q aux buffer k = aux (k % r * q + k / r) := by
  have hr : 0 < r := Nat.pos_of_ne_zero fun hZero => by simp [hZero] at hk
  have hPlace := hE.omatcopy r q aux buffer (k % r) (k / r) (Nat.mod_lt k hr)
    (Nat.div_lt_of_lt_mul hk)
  rwa [Nat.div_add_mod'] at hPlace

/-- A place that does not keep what it held is one of those that `mkl_?omatcopy` writes. -/
theorem Backend.Untouched.written (hUntouched : E.Untouched) {rows cols : Int}
    {src dst : Nat → Cell} {k : Nat} (h : E.omatcopy rows cols src dst k ≠ dst k) :
    ∃ r q : Nat, rows = r ∧ cols = q ∧ k < r * q := by
  have hWritten : ¬ (rows ≤ 0 ∨ cols ≤ 0 ∨ rows * cols ≤ k) := by
    intro hOutside
    exact h (hUntouched.omatcopy rows cols src dst k hOutside)
  obtain ⟨hr, hq, hInside⟩ := by simpa only [not_or, not_le] using hWritten
  obtain ⟨r, rfl⟩ := Int.eq_ofNat_of_zero_le hr.le
  obtain ⟨q, rfl⟩ := Int.eq_ofNat_of_zero_le hq.le
  exact ⟨r, q, rfl, rfl, by exact_mod_cast hInside⟩

theorem FitsInt.transposedReads (hE : E.Lawful) (hPlain : Plain a)
    (hFloat : a.dtshape.dtype.isFloating) (hView : iarrayLinalgTranspose E a = .ok t)
    (h₀ : n₀ ≤ m₀) (h₁ : n₁ ≤ m₁) (h : 0 < n₀ → 0 < n₁ → FitsInt n₀ n₁ m₀ m₁) :
    TransposedReads E a t s₀ s₁ n₀ n₁ m₀ m₁ := by
  intro start stop buffer buflen hSel hLen i hi j hj
  have hn₀ : 0 < n₀ := Nat.zero_lt_of_lt hi
  have hn₁ : 0 < n₁ := Nat.zero_lt_of_lt hj
  have hFits := h hn₀ hn₁
  obtain ⟨aux, hRead, -, hGet⟩ :=
    transposed_scratch buffer hE hPlain hFloat hView hSel hn₀ hn₁ h₀ h₁ hLen
  refine ⟨_, hRead, ?_⟩
  obtain ⟨r, q, hr, hq⟩ := hFits.lengths
  obtain ⟨hInside, hFrom⟩ := hFits.lands hr hq hi hj
  rw [hr, hq]
  show E.omatcopy (r : Int) (q : Int) aux buffer (i * m₁ + j) = _
  rw [omatcopy_eq hE aux buffer hInside, hFrom]
  exact hGet i hi j hj

/-- Of a matrix with a single item other than zero, that item arrives only if it lands. -/
theorem lands_of_transposedReads (hE : E.Lawful) (hUntouched : E.Untouched) (hPlain : Plain a)
    (hFloat : a.dtshape.dtype.isFloating) (hView : iarrayLinalgTranspose E a = .ok t)
    (hRegion : Region [s₀, s₁] [n₀, n₁] t.dtshape.shape) (h₀ : n₀ ≤ m₀) (h₁ : n₁ ≤ m₁)
    (hReads : ∀ f t', iarrayLinalgTranspose E (a.refill f) = .ok t' →
      TransposedReads E (a.refill f) t' s₀ s₁ n₀ n₁ m₀ m₁)
    {i j : Nat} (hi : i < n₀) (hj : j < n₁) :
    ∃ r q : Nat, toInt32 m₁ = r ∧ toInt32 m₀ = q ∧ Lands r q m₀ m₁ i j := by
  have hn₀ : 0 < n₀ := Nat.zero_lt_of_lt hi
  have hn₁ : 0 < n₁ := Nat.zero_lt_of_lt hj
  -- an item other than zero and than what the scratch buffer holds at its source
  let source := (i * m₁ + j) % (toInt32 m₁).toNat * (toInt32 m₀).toNat +
    (i * m₁ + j) / (toInt32 m₁).toNat
  obtain ⟨item, hItem, hLeft⟩ : ∃ item : Cell, Cell.bits 0 ≠ item ∧ E.malloc source ≠ item := by
    by_cases hOne : E.malloc source = .bits 1
    · exact ⟨.bits 2, by decide, by rw [hOne]; decide⟩
    · exact ⟨.bits 1, by decide, hOne⟩
  let f : List Nat → Cell := fun x => if x = [s₁ + j, s₀ + i] then item else .bits 0
  obtain ⟨t', hView'⟩ := transpose_refill hView f
  have hShape : t'.dtshape = t.dtshape := by
    rw [transpose_dtshape hView', transpose_dtshape hView]
    rfl
  have hSel : Selects (ints [s₀, s₁]) (ints (addIdx [s₀, s₁] [n₀, n₁])) t'.dtshape.shape [s₀, s₁]
      [n₀, n₁] := by
    rw [hShape]
    exact selects_ints hRegion
  obtain ⟨aux, hRead, hOutside, hGet⟩ := transposed_scratch (fun _ => .bits 0) hE
    (hPlain.refill f) hFloat hView' hSel hn₀ hn₁ h₀ h₁ le_rfl
  obtain ⟨out, hOut, hValue⟩ := hReads f t' hView' _ _ (fun _ => .bits 0) _ hSel le_rfl i hi j hj
  have hElement : ∀ i' < n₀, ∀ j' < n₁, (a.refill f).contents.get [s₁ + j', s₀ + i'] =
      f [s₁ + j', s₀ + i'] :=
    fun i' hi' j' hj' => hPlain.refill_get_transposed hView hRegion f hi' hj'
  rw [hRead, Except.ok.injEq] at hOut
  rw [← hOut, hElement i hi j hj, show f [s₁ + j, s₀ + i] = item from if_pos rfl] at hValue
  have hMoved : E.omatcopy (toInt32 m₁) (toInt32 m₀) aux (fun _ => .bits 0) (i * m₁ + j) ≠
      .bits 0 := by
    rw [hValue]
    exact hItem.symm
  obtain ⟨r, q, hr, hq, hk⟩ := hUntouched.written hMoved
  refine ⟨r, q, hr, hq, hk, ?_⟩
  by_contra hElsewhere
  have hSource : source = (i * m₁ + j) % r * q + (i * m₁ + j) / r := by
    simp only [source, hr, hq, Int.toNat_natCast]
  rw [hr, hq, omatcopy_eq hE aux _ hk, ← hSource] at hValue
  rw [← hSource] at hElsewhere
  by_cases hFrom : ∀ i' < n₀, ∀ j' < n₁, j' * m₀ + i' ≠ source
  · rw [hOutside hUntouched source hFrom] at hValue
    exact absurd hValue hLeft
  · -- another element of the rectangle, which is zero
    obtain ⟨i', hi', j', hj', hEq⟩ : ∃ i' < n₀, ∃ j' < n₁, j' * m₀ + i' = source := by
      simpa using hFrom
    have hOther : [s₁ + j', s₀ + i'] ≠ [s₁ + j, s₀ + i] := by
      intro hSame
      obtain ⟨hj'', hi''⟩ : j' = j ∧ i' = i := by simpa using hSame
      exact hElsewhere (by rw [← hEq, hi'', hj''])
    rw [← hEq, hGet i' hi' j' hj', hElement i' hi' j' hj'] at hValue
    exact absurd ((if_neg hOther).symm.trans hValue) hItem

end Rectangle

/-- A rectangle of the transposed matrix arrives with every element at its place, whatever a matrix
of this type, shape and partition holds, exactly if it is empty or the lengths of the buffer are
still large enough as `int`s. -/
theorem transposedReads_iff {E : Backend} (hE : E.Lawful) (hUntouched : E.Untouched)
    {a₀ t₀ : Container} (hPlain : Plain a₀) (hFloat : a₀.dtshape.dtype.isFloating)
    (hView : iarrayLinalgTranspose E a₀ = .ok t₀) {s₀ s₁ n₀ n₁ m₀ m₁ : Nat}
    (hRegion : Region [s₀, s₁] [n₀, n₁] t₀.dtshape.shape) (h₀ : n₀ ≤ m₀) (h₁ : n₁ ≤ m₁) :
    (∀ a t, Plain a → a.dtshape = a₀.dtshape → a.storage = a₀.storage →
      iarrayLinalgTranspose E a = .ok t → TransposedReads E a t s₀ s₁ n₀ n₁ m₀ m₁) ↔
      (0 < n₀ → 0 < n₁ → FitsInt n₀ n₁ m₀ m₁) := by
  constructor
  · intro hReads hn₀ hn₁
    have hLands : ∀ i < n₀, ∀ j < n₁,
        ∃ r q : Nat, toInt32 m₁ = r ∧ toInt32 m₀ = q ∧ Lands r q m₀ m₁ i j := by
      intro i hi j hj
      refine lands_of_transposedReads hE hUntouched hPlain hFloat hView hRegion h₀ h₁ ?_ hi hj
      exact fun f t' => hReads _ t' (hPlain.refill f) rfl rfl
    obtain ⟨r, q, hr, hq, -⟩ := hLands 0 hn₀ 0 hn₁
    refine FitsInt.of_lands hr hq hn₀ hn₁ fun i hi j hj => ?_
    obtain ⟨r', q', hr', hq', hLand⟩ := hLands i hi j hj
    obtain rfl : r = r' := Int.ofNat_inj.mp (hr.symm.trans hr')
    obtain rfl : q = q' := Int.ofNat_inj.mp (hq.symm.trans hq')
    exact hLand
  · intro hFits a t ha hDtshape _ ht
    exact FitsInt.transposedReads hE ha (hDtshape ▸ hFloat) ht h₀ h₁ hFits

namespace RectangleExample

/-- Transpose as many items as there are, and write nothing else. -/
def omatcopy (rows cols : Int) (src dst : Nat → Cell) (k : Nat) : Cell :=
  if rows ≤ 0 ∨ cols ≤ 0 ∨ rows * cols ≤ k then dst k
  else Reference.omatcopy rows cols src dst k

def backend : Backend := { Reference.backend with omatcopy := omatcopy }

theorem lawful : backend.Lawful :=
  { Reference.lawful with
    omatcopy := by
      intro rows cols src dst i j hi hj
      have hInside : (j * rows + i : Nat) < rows * cols := by
        calc j * rows + i < (j + 1) * rows := by rw [Nat.add_mul, Nat.one_mul]; omega
          _ ≤ cols * rows := Nat.mul_le_mul_right rows hj
          _ = rows * cols := Nat.mul_comm cols rows
      have hWritten : ¬ ((rows : Int) ≤ 0 ∨ (cols : Int) ≤ 0 ∨
          (rows : Int) * cols ≤ (j * rows + i : Nat)) := by
        rw [← Nat.cast_mul, Nat.cast_le]
        omega
      show omatcopy rows cols src dst (j * rows + i) = _
      rw [omatcopy, if_neg hWritten]
      exact Reference.lawful.omatcopy rows cols src dst i j hi hj }

theorem untouched : backend.Untouched where
  getSliceBuffer := by
    intro a s n m buffer out buflen hLength hRank hPos hFits h k hk
    obtain ⟨_, _, h⟩ := Result.bind_eq_ok.mp h
    cases h
    have hBox : ¬ InBox (unflat m k) n := by
      intro hIn
      apply hk _ hIn
      cases hFits with
      | nil => exact absurd rfl hRank
      | @cons n₀ m₀ n m hFirst hRest =>
        rw [unflat_cons, inBox_cons] at hIn
        have hProd : 0 < m.prod :=
          (prod_pos_of_forall fun k hk => hPos k (List.mem_cons_of_mem _ hk)).trans_le
            (prod_le_of_forall₂ hRest)
        refine flat_unflat ?_
        rw [List.prod_cons]
        exact (Nat.div_lt_iff_lt_mul hProd).mp (hIn.1.trans_le hFirst)
    show (if InBox (unflat (Reference.starts (ints m)) k)
      (Reference.extents (ints s) (ints (addIdx s n))) then _ else buffer k) = buffer k
    rw [Reference.starts_ints, Reference.extents_ints hLength, if_neg hBox]
  omatcopy := by
    intro rows cols src dst k h
    exact if_pos h

/-- A matrix of one row. -/
def row : Container :=
  Reference.plain .double [.ofCuts 1 1 1,
    .ofCuts (2 ^ 31) 1024 1024] fun _ => .bits 1

def column : Container :=
  { viewOf backend.machine row ⟨.double, [2 ^ 31, 1]⟩ [0, 0]
      (.ofFn row.catarr.axes 8 fun _ => .bits 0) with transposed := true }

theorem plain_row : Plain row := Reference.plain_plain _ _ (by decide) (by decide)

theorem transpose_row : iarrayLinalgTranspose backend row = .ok column := rfl

end RectangleExample

open TransposedExample RectangleExample in
/-- The lower left corner of the transposed 2 × 3 matrix, in a buffer of shape 3 × 2. -/
theorem transposedReads_corner : TransposedReads backend matrix view 1 0 2 1 3 2 := by
  have hView : iarrayLinalgTranspose backend matrix = .ok view := rfl
  have hPlain : Plain matrix := Reference.plain_plain _ _ (by decide) (by decide)
  have hRegion : Region [1, 0] [2, 1] view.dtshape.shape := ⟨rfl, rfl, by decide⟩
  have hRows : 2 ≤ 3 := by decide
  have hCols : 1 ≤ 2 := by decide
  have hFits : FitsInt 2 1 3 2 := by decide
  have hReads := (transposedReads_iff lawful untouched hPlain rfl hView hRegion hRows hCols).mpr
    fun _ _ => hFits
  exact hReads matrix view hPlain rfl rfl hView

open RectangleExample in
/-- A transposed matrix of `2 ^ 31` rows is read whole, and its first element does not arrive:
`mkl_domatcopy` receives a negative number of columns. -/
theorem transposedReads_fails :
    Plain row ∧ iarrayLinalgTranspose backend row = .ok column ∧
      Region [0, 0] [2 ^ 31, 1] column.dtshape.shape ∧
      ¬ TransposedReads backend row column 0 0 (2 ^ 31) 1 (2 ^ 31) 1 := by
  have hRegion : Region [0, 0] [2 ^ 31, 1] column.dtshape.shape := ⟨rfl, rfl, by decide⟩
  refine ⟨plain_row, transpose_row, hRegion, fun hReads => ?_⟩
  have hSel := selects_ints hRegion
  obtain ⟨out, hOut, hValue⟩ := hReads _ _ (fun _ => .bits 0) _ hSel le_rfl 0 (by decide) 0 (by decide)
  obtain ⟨aux, hRead, -⟩ := transposed_scratch (fun _ => .bits 0) lawful plain_row rfl
    transpose_row hSel (by decide) (by decide) le_rfl le_rfl le_rfl
  rw [hRead, Except.ok.injEq] at hOut
  have hNone : toInt32 (1 : Nat) ≤ 0 ∨ toInt32 (2 ^ 31 : Nat) ≤ 0 ∨
      toInt32 (1 : Nat) * toInt32 (2 ^ 31 : Nat) ≤ (0 * 1 + 0 : Nat) := .inr (.inl (by decide))
  have hItem : row.contents.get [0 + 0, 0 + 0] = .bits 1 :=
    contents_plain (.cons (by decide) (.cons (by decide) .nil))
  rw [← hOut, untouched.omatcopy _ _ _ _ _ hNone, hItem] at hValue
  cases hValue

end IronArray
