import IronArray.Constructors.Element
import IronArray.Core.Number

/-!
# Constructors of numbers

`iarray_eye`, `iarray_tri`, `iarray_linspace` and `iarray_logspace` compute a `double` for each
element and convert it to the type of the array. There is no conversion to booleans: then the
function of the items fails, but nobody asks, and the array keeps what `malloc` has left in it
(`constructors_write`).
-/

namespace IronArray

open Grid CatArray

/-! ## Items -/

/-- A `double` as an element of a type. -/
def numberCell (m : Machine) (d : Dtype) (val : FP) : Cell :=
  if d = .double then .real val else m.convert .double d (.real val)

/-- The `switch` over the type at the end of an item function. -/
def storeNumber (m : Machine) (d : Dtype) (val : FP) : Except ErrorCode Cell :=
  if d = .bool then .error .invalidDtype else .ok (numberCell m d val)

section

variable (m : Machine) (d : Dtype)

/-- `iarray_constructor_eye_fn`. -/
def iarrayConstructorEyeFn : ConstructorItemFn := fun item =>
  storeNumber m d (if item.index.getD 0 0 = item.index.getD 1 0 then .fin 1 else .fin 0)

/-- `iarray_constructor_tri_fn`. -/
def iarrayConstructorTriFn (k : Int) : ConstructorItemFn := fun item =>
  storeNumber m d
    (if (item.index.getD 1 0 : Int) ≤ Dtype.int64.wrap (item.index.getD 0 0 + k) then .fin 1
      else .fin 0)

/-- `iarray_constructor_linspace_fn`. -/
def iarrayConstructorLinspaceFn (start step : FP) : ConstructorItemFn := fun item =>
  storeNumber m d (m.add (m.mul (m.round item.indexFlat) step) start)

/-- `iarray_constructor_logspace_fn`, with the function `pow` of the mathematical library. -/
def iarrayConstructorLogspaceFn (pow : FP → FP → FP) (start step base : FP) : ConstructorItemFn :=
  fun item => storeNumber m d (pow base (m.add (m.mul (m.round item.indexFlat) step) start))

end

/-- The distance between two elements. Their number is a 64-bit product. -/
def spaceStep (m : Machine) (shape : List Nat) (start stop : FP) : FP :=
  m.div (m.sub stop start) (m.sub (m.round (Dtype.int64.wrap shape.prod)) (.fin 1))

section

variable (E : Backend) (dtshape : Dtshape) (storage : Storage)

/-- `iarray_eye`. -/
def iarrayEye : Result Container :=
  if dtshape.ndim ≠ 2 then inaError .invalidArgument
  else iarrayConstructorElement E dtshape (iarrayConstructorEyeFn E.machine dtshape.dtype) storage

/-- `iarray_tri`. -/
def iarrayTri (k : Int) : Result Container :=
  if dtshape.ndim ≠ 2 then inaError .invalidArgument
  else iarrayConstructorElement E dtshape (iarrayConstructorTriFn E.machine dtshape.dtype k) storage

/-- `iarray_linspace`. -/
def iarrayLinspace (start stop : FP) : Result Container :=
  iarrayConstructorElement E dtshape (iarrayConstructorLinspaceFn E.machine dtshape.dtype start
    (spaceStep E.machine dtshape.shape start stop)) storage

/-- `iarray_logspace`. -/
def iarrayLogspace (pow : FP → FP → FP) (start stop base : FP) : Result Container :=
  iarrayConstructorElement E dtshape (iarrayConstructorLogspaceFn E.machine dtshape.dtype pow start
    (spaceStep E.machine dtshape.shape start stop) base) storage

end

/-! ## What is written -/

/-- The entries of a unit matrix. -/
def eyeNumber (x : List Nat) : FP := if x.getD 0 0 = x.getD 1 0 then .fin 1 else .fin 0

/-- The entries of a matrix with ones up to a diagonal, whose place is a 64-bit sum. -/
def triNumber (k : Int) (x : List Nat) : FP :=
  if (x.getD 1 0 : Int) ≤ Dtype.int64.wrap (x.getD 0 0 + k) then .fin 1 else .fin 0

/-- Equally spaced numbers. -/
def spaceNumber (m : Machine) (shape : List Nat) (start stop : FP) (k : Nat) : FP :=
  m.add (m.mul (m.round k) (spaceStep m shape start stop)) start

/-- An array of numbers that are given by the index and the row-major number of an element. -/
structure NumbersWritten (E : Backend) (d : Dtshape) (st : Storage) (F : List Nat → Nat → FP)
    (c : Container) : Prop where
  made : PlainOf d st c
  /-- Every element is the number for it, converted to the type. -/
  numbers : d.dtype ≠ .bool → ∀ x, InBox x d.shape →
    c.catarr.cell x = .ok (numberCell E.machine d.dtype (F x (flat d.shape x)))

section

variable {E : Backend} {dtshape : Dtshape} {storage : Storage} {c : Container}

/-- The element constructor on an item function without failures. -/
theorem constructorElement_cell (hE : E.Lawful) (hFits : storage.Fits) {f : List Nat → Nat → Cell}
    (h : iarrayConstructorElement E dtshape (fun item => .ok (f item.index item.indexFlat)) storage =
      .ok c) :
    PlainOf dtshape storage c ∧
      ∀ x, InBox x dtshape.shape → c.catarr.cell x = .ok (f x (flat dtshape.shape x)) := by
  obtain ⟨a, hEmpty, hRest⟩ := Result.bind_eq_ok.mp h
  obtain ⟨bl, hBl, hRest⟩ := Result.bind_eq_ok.mp hRest
  obtain ⟨ch, hCh, hRest⟩ := Result.bind_eq_ok.mp hRest
  obtain ⟨hPlain, rfl, rfl⟩ := iarrayEmpty_plain hE hEmpty
  have hPlaces := hFits.inPlace
  obtain ⟨block, hBlock, hLoop⟩ := constructorLoop_ok E hPlain hPlaces
    (fun item => f item.index item.indexFlat) hCh hBl
  rw [hLoop] at hRest
  cases hRest
  refine ⟨⟨hPlain.setArray (hPlain.fresh.withChunks _ _), rfl, rfl⟩, fun x hx => ?_⟩
  rw [← hPlain.fresh.shape] at hx
  obtain ⟨item, hItem, hIndex⟩ := exists_blockItem hPlain hPlaces hx
  have hc := nchunk_lt hx
  have hb := nblock_lt hx
  obtain ⟨-, hPlace, hFlat⟩ := mem_blockItems hPlain hPlaces hc hb hItem
  have hWritten := (hBlock _ hc _ hb).2 item hItem
  rw [hIndex] at hPlace hFlat
  rw [hPlace] at hWritten
  rw [CatArray.cell_withChunks hPlain.fresh.sized hPlain.fresh.postfilter
    (fun c hc k hk => (hBlock c hc k hk).1) hx, hPlace, List.getD_eq_getElem?_getD, hWritten, hIndex,
    hFlat, ← hPlain.fresh.shape]
  rfl

/-- A block is as before when its first item fails, and no failure is reported. -/
theorem prefilter_refused (e : ErrorCode) (array : ConstructorArrayInfo)
    (chunk : ConstructorChunkInfo) (nblock : Nat) :
    iarrayConstructorPrefilter E (iarrayConstructorElementFn fun _ => .error e) array chunk nblock =
      .ok ((List.range array.a.catarr.blockshape.prod).map E.malloc) := by
  unfold iarrayConstructorPrefilter
  cases constructorBlockInfo array.a.catarr.axes chunk nblock with
  | none => rfl
  | some block =>
    simp only [iarrayConstructorElementFn]
    cases array.items block with
    | nil => rfl
    | cons item items => rfl

/-- Whatever the item function does, a container that is returned is plain. -/
theorem constructorElement_plain (hE : E.Lawful) {itemFn : ConstructorItemFn}
    (h : iarrayConstructorElement E dtshape itemFn storage = .ok c) : PlainOf dtshape storage c := by
  obtain ⟨a, hEmpty, hRest⟩ := Result.bind_eq_ok.mp h
  obtain ⟨bl, hBl, hRest⟩ := Result.bind_eq_ok.mp hRest
  obtain ⟨ch, hCh, hRest⟩ := Result.bind_eq_ok.mp hRest
  obtain ⟨hPlain, rfl, rfl⟩ := iarrayEmpty_plain hE hEmpty
  obtain ⟨catarr, hLoop, hRest⟩ := Result.bind_eq_ok.mp hRest
  cases hRest
  obtain ⟨block, -, rfl⟩ := compressChunks_eq_ok.mp hLoop
  exact ⟨hPlain.setArray (hPlain.fresh.withChunks _ _), rfl, rfl⟩

theorem numbersWritten (hE : E.Lawful) (hFits : storage.Fits) {F : List Nat → Nat → FP}
    (h : iarrayConstructorElement E dtshape (fun item =>
      storeNumber E.machine dtshape.dtype (F item.index item.indexFlat)) storage = .ok c) :
    NumbersWritten E dtshape storage F c := by
  refine ⟨constructorElement_plain hE h, fun hBool => ?_⟩
  have hFn : (fun item : ConstructorItemInfo => storeNumber E.machine dtshape.dtype
      (F item.index item.indexFlat)) =
        fun item => .ok (numberCell E.machine dtshape.dtype (F item.index item.indexFlat)) :=
    funext fun _ => if_neg hBool
  rw [hFn] at h
  exact (constructorElement_cell hE hFits
    (f := fun x k => numberCell E.machine dtshape.dtype (F x k)) h).2

/-- The block constructor succeeds if the generator does on every block. -/
theorem constructorBlock_ok (hE : E.Lawful) {generatorFn : ConstructorGeneratorFn} {a : Container}
    (hEmpty : iarrayEmpty E dtshape storage = .ok a) (hFits : storage.Fits)
    (hChunk : ∀ k ∈ storage.chunkshape, 0 < k) (hBlock : ∀ k ∈ storage.blockshape, 0 < k)
    (hGenerator : ∀ c < (a.catarr.axes.map Axis.chunks).prod,
      ∀ k < (a.catarr.axes.map Axis.blocks).prod, ∃ out,
        iarrayConstructorPrefilter E generatorFn (constructorArrayInfo a)
          (constructorChunkInfo a.catarr.axes (a.catarr.axes.map Axis.chunks)
            (a.catarr.axes.map Axis.blocks) c) k = .ok out) :
    ∃ c, iarrayConstructorBlock E dtshape generatorFn storage = .ok c := by
  obtain ⟨hPlain, -, rfl⟩ := iarrayEmpty_plain hE hEmpty
  have hCh : shapeOfChunks a.catarr.axes = .ok (a.catarr.axes.map Axis.chunks) := by
    refine shapeOfChunks_ok fun x hx => hChunk _ ?_
    rw [← hPlain.chunkshape hFits.chunkshape]
    exact List.mem_map_of_mem hx
  obtain ⟨bl, hBl⟩ := @shapeOfBlocks_succeeds a.catarr.axes fun x hx => by
    refine hBlock _ ?_
    rw [← hPlain.blockshape hFits.blockshape]
    exact List.mem_map_of_mem hx
  have hLoop : ∃ b, (List.range a.catarr.nchunks).foldlM (fun b nchunk => do
      let chunk ← a.catarr.compress (iarrayConstructorPrefilter E generatorFn
        (constructorArrayInfo a)
        (constructorChunkInfo a.catarr.axes (a.catarr.axes.map Axis.chunks) bl nchunk))
      pure (b.updateChunk nchunk (chunkItems chunk))) a.catarr = .ok b := by
    rcases Nat.eq_zero_or_pos a.catarr.nchunks with hNone | hSome
    · rw [hNone]
      exact ⟨_, rfl⟩
    · have hShape := @CatArray.shape_pos_of_nchunks a.catarr.axes 0 hSome
      rw [shapeOfBlocks_ok hShape, Except.ok.injEq] at hBl
      subst hBl
      have hEach : ∀ c k : Nat, ∃ out : List Cell, c < a.catarr.nchunks →
          k < (a.catarr.axes.map Axis.blocks).prod →
          iarrayConstructorPrefilter E generatorFn (constructorArrayInfo a)
            (constructorChunkInfo a.catarr.axes (a.catarr.axes.map Axis.chunks)
              (a.catarr.axes.map Axis.blocks) c) k = .ok out := by
        intro c k
        by_cases h : c < a.catarr.nchunks ∧ k < (a.catarr.axes.map Axis.blocks).prod
        · obtain ⟨out, hOut⟩ := hGenerator c h.1 k h.2
          exact ⟨out, fun _ _ => hOut⟩
        · exact ⟨[], fun hc hk => absurd ⟨hc, hk⟩ h⟩
      choose block hBlock using hEach
      exact ⟨_, compressChunks_eq_ok.mpr ⟨block, fun c hc k hk => hBlock c k hc hk, rfl⟩⟩
  obtain ⟨b, hLoop⟩ := hLoop
  refine ⟨{ a with catarr := b }, ?_⟩
  rw [iarrayConstructorBlock, hEmpty, Result.ok_bind, hBl, Result.ok_bind, hCh, Result.ok_bind,
    hLoop]
  rfl

/-- The constructors succeed on every array that can be made in chunks and blocks of positive
lengths, whatever its type is. -/
theorem numbers_ok (hE : E.Lawful) {F : List Nat → Nat → FP} {a : Container}
    (hEmpty : iarrayEmpty E dtshape storage = .ok a) (hFits : storage.Fits)
    (hChunk : ∀ k ∈ storage.chunkshape, 0 < k) (hBlock : ∀ k ∈ storage.blockshape, 0 < k) :
    ∃ c, iarrayConstructorElement E dtshape (fun item =>
      storeNumber E.machine dtshape.dtype (F item.index item.indexFlat)) storage = .ok c := by
  have hMade := iarrayEmpty_plain hE hEmpty
  refine constructorBlock_ok hE hEmpty hFits hChunk hBlock fun c hc k hk => ?_
  by_cases hBool : dtshape.dtype = .bool
  · have hFn : (fun item : ConstructorItemInfo => storeNumber E.machine dtshape.dtype
        (F item.index item.indexFlat)) = fun _ => .error .invalidDtype :=
      funext fun _ => if_pos hBool
    rw [hFn]
    exact ⟨_, prefilter_refused _ _ _ _⟩
  · have hFn : (fun item : ConstructorItemInfo => storeNumber E.machine dtshape.dtype
        (F item.index item.indexFlat)) =
          fun item => .ok (numberCell E.machine dtshape.dtype (F item.index item.indexFlat)) :=
      funext fun _ => if_neg hBool
    rw [hFn]
    obtain ⟨out, hOut, -⟩ := prefilter_ok E hMade.plain (hMade.storage ▸ hFits).inPlace
      (fun item => numberCell E.machine dtshape.dtype (F item.index item.indexFlat)) hc hk
    exact ⟨out, hOut⟩

theorem iarrayEye_written (hE : E.Lawful) (hFits : storage.Fits)
    (h : iarrayEye E dtshape storage = .ok c) :
    NumbersWritten E dtshape storage (fun x _ => eyeNumber x) c := by
  unfold iarrayEye at h
  split at h
  · cases h
  · exact numbersWritten hE hFits (F := fun x _ => eyeNumber x) h

theorem iarrayTri_written (hE : E.Lawful) (hFits : storage.Fits) {k : Int}
    (h : iarrayTri E dtshape storage k = .ok c) :
    NumbersWritten E dtshape storage (fun x _ => triNumber k x) c := by
  unfold iarrayTri at h
  split at h
  · cases h
  · exact numbersWritten hE hFits (F := fun x _ => triNumber k x) h

theorem iarrayLinspace_written (hE : E.Lawful) (hFits : storage.Fits) {start stop : FP}
    (h : iarrayLinspace E dtshape storage start stop = .ok c) :
    NumbersWritten E dtshape storage (fun _ => spaceNumber E.machine dtshape.shape start stop) c :=
  numbersWritten hE hFits (F := fun _ => spaceNumber E.machine dtshape.shape start stop) h

theorem iarrayLogspace_written (hE : E.Lawful) (hFits : storage.Fits) {pow : FP → FP → FP}
    {start stop base : FP}
    (h : iarrayLogspace E dtshape storage pow start stop base = .ok c) :
    NumbersWritten E dtshape storage
      (fun _ k => pow base (spaceNumber E.machine dtshape.shape start stop k)) c :=
  numbersWritten hE hFits (F := fun _ k => pow base
    (spaceNumber E.machine dtshape.shape start stop k)) h

/-- Only matrices pass the check of the rank. -/
theorem matrix_ok_iff {r : Result Container} (h : ∃ c, r = .ok c) :
    (∃ c, (if dtshape.ndim ≠ 2 then inaError .invalidArgument else r) = .ok c) ↔
      dtshape.ndim = 2 := by
  by_cases hNdim : dtshape.ndim = 2
  · rw [if_neg (not_not.mpr hNdim)]
    exact iff_of_true h hNdim
  · rw [if_pos hNdim]
    refine iff_of_false ?_ hNdim
    rintro ⟨c, hc⟩
    cases hc

end

/-- The four constructors write the numbers of their formulas, computed in doubles, into arrays of
every type but that of booleans, in any partition into tiles whose lengths an `int32_t` holds.
Arrays of booleans are made as well, although nothing is written. -/
theorem constructors_write {E : Backend} (hE : E.Lawful) (dtshape : Dtshape) {storage : Storage}
    (hFits : storage.Fits) (pow : FP → FP → FP) (start stop base : FP) (k : Int) :
    (∀ c, iarrayEye E dtshape storage = .ok c →
      NumbersWritten E dtshape storage (fun x _ => eyeNumber x) c) ∧
    (∀ c, iarrayTri E dtshape storage k = .ok c →
      NumbersWritten E dtshape storage (fun x _ => triNumber k x) c) ∧
    (∀ c, iarrayLinspace E dtshape storage start stop = .ok c →
      NumbersWritten E dtshape storage
        (fun _ => spaceNumber E.machine dtshape.shape start stop) c) ∧
    (∀ c, iarrayLogspace E dtshape storage pow start stop base = .ok c →
      NumbersWritten E dtshape storage
        (fun _ i => pow base (spaceNumber E.machine dtshape.shape start stop i)) c) ∧
    ∀ a, iarrayEmpty E dtshape storage = .ok a → (∀ n ∈ storage.chunkshape, 0 < n) →
      (∀ n ∈ storage.blockshape, 0 < n) →
      ((∃ c, iarrayEye E dtshape storage = .ok c) ↔ dtshape.ndim = 2) ∧
      ((∃ c, iarrayTri E dtshape storage k = .ok c) ↔ dtshape.ndim = 2) ∧
      (∃ c, iarrayLinspace E dtshape storage start stop = .ok c) ∧
      ∃ c, iarrayLogspace E dtshape storage pow start stop base = .ok c := by
  refine ⟨fun c => iarrayEye_written hE hFits, fun c => iarrayTri_written hE hFits,
    fun c => iarrayLinspace_written hE hFits, fun c => iarrayLogspace_written hE hFits,
    fun a hEmpty hChunk hBlock => ⟨?_, ?_, ?_, ?_⟩⟩
  · exact matrix_ok_iff (numbers_ok hE (F := fun x _ => eyeNumber x) hEmpty hFits hChunk hBlock)
  · exact matrix_ok_iff (numbers_ok hE (F := fun x _ => triNumber k x) hEmpty hFits hChunk hBlock)
  · exact numbers_ok hE (F := fun _ => spaceNumber E.machine dtshape.shape start stop) hEmpty hFits
      hChunk hBlock
  · exact numbers_ok hE
      (F := fun _ i => pow base (spaceNumber E.machine dtshape.shape start stop i)) hEmpty hFits
      hChunk hBlock

/-- A unit matrix of doubles, and one of booleans. -/
theorem constructors_write_eye :
    (∃ c, iarrayEye Reference.backend ⟨.double, [3, 4]⟩ ⟨[2, 3], [2, 2]⟩ = .ok c ∧
      c.catarr.cell [2, 2] = .ok (.real (.fin 1)) ∧ c.catarr.cell [2, 3] = .ok (.real (.fin 0))) ∧
    ∃ c, iarrayEye Reference.backend ⟨.bool, [3, 4]⟩ ⟨[2, 3], [2, 2]⟩ = .ok c := by
  have hFits : Storage.Fits ⟨[2, 3], [2, 2]⟩ := by decide
  constructor
  · obtain ⟨hEye, -, -, -, hMade⟩ := constructors_write Reference.lawful ⟨.double, [3, 4]⟩ hFits
      (fun _ x => x) .nan .nan .nan 0
    obtain ⟨c, hc⟩ := (hMade _ rfl (by decide) (by decide)).1.mpr rfl
    have hNumbers := (hEye c hc).numbers (by decide)
    exact ⟨c, hc, hNumbers [2, 2] (by decide), hNumbers [2, 3] (by decide)⟩
  · obtain ⟨-, -, -, -, hMade⟩ := constructors_write Reference.lawful ⟨.bool, [3, 4]⟩ hFits
      (fun _ x => x) .nan .nan .nan 0
    exact (hMade _ rfl (by decide) (by decide)).1.mpr rfl

/-! ## Equally spaced numbers -/

theorem wrap_size {n : Nat} (h : n < 2 ^ 63) : ((Dtype.int64.wrap n : Int) : ℚ) = n := by
  have hWrap : Dtype.int64.wrap n = n := by
    apply Dtype.wrap_of_bounds
    · show (-(9223372036854775808 : Nat) : Int) ≤ n
      omega
    · show (n : Int) ≤ (9223372036854775808 : Nat) - 1
      omega
  rw [hWrap, Int.cast_natCast]

theorem spaceNumber_eq {m : Machine} (hExact : m.Exact) {shape : List Nat} (h : 1 < shape.prod)
    (hSize : shape.prod < 2 ^ 63) (start stop : ℚ) (k : Nat) :
    spaceNumber m shape (.fin start) (.fin stop) k =
      .fin (start + k * ((stop - start) / (shape.prod - 1 : Nat))) := by
  have hCast : ((shape.prod - 1 : Nat) : ℚ) = shape.prod - 1 := by
    rw [Nat.cast_sub h.le, Nat.cast_one]
  have hNe : (shape.prod : ℚ) + -1 * 1 ≠ 0 := by
    have hOne : (1 : ℚ) < shape.prod := by exact_mod_cast h
    linarith
  have hStep : spaceStep m shape (.fin start) (.fin stop) =
      .fin ((stop - start) / (shape.prod - 1 : Nat)) := by
    rw [hCast, spaceStep, wrap_size hSize]
    simp only [Machine.div, Machine.sub, hExact.rounded, hExact (shape.prod : ℚ)]
    show (if (shape.prod : ℚ) + -1 * 1 = 0 then _ else _) = _
    rw [if_neg hNe]
    congr 2 <;> ring
  rw [spaceNumber, hStep]
  simp only [Machine.add, Machine.mul, hExact.rounded, hExact (k : ℚ)]
  show FP.fin _ = _
  rw [add_comm]

/-- With one element the distance is a quotient by zero. -/
theorem spaceNumber_one {m : Machine} (hExact : m.Exact) {shape : List Nat} (h : shape.prod = 1)
    (start stop : ℚ) : spaceNumber m shape (.fin start) (.fin stop) 0 = .nan := by
  have hStep : spaceStep m shape (.fin start) (.fin stop) = FP.infOf (stop + -1 * start) := by
    rw [spaceStep, wrap_size (h.trans_lt (by norm_num)), h]
    simp only [Machine.div, Machine.sub, hExact.rounded, hExact ((1 : Nat) : ℚ)]
    show (if ((1 : Nat) : ℚ) + -1 * 1 = 0 then _ else _) = _
    rw [if_pos (by norm_num)]
  rw [spaceNumber, hStep]
  simp only [Machine.add, Machine.mul, hExact.rounded, hExact ((0 : Nat) : ℚ)]
  unfold FP.infOf
  split
  · rfl
  · split
    · rfl
    · rfl

/-- Without rounding, the numbers of `iarray_linspace` go from the first to the last one in equal
steps, unless there is only one: that is no number. -/
theorem iarrayLinspace_spaced {E : Backend} (hE : E.Lawful) (hExact : E.machine.Exact)
    {shape : List Nat} {storage : Storage} (hFits : storage.Fits) (hSize : shape.prod < 2 ^ 63)
    {start stop : ℚ} {c : Container}
    (h : iarrayLinspace E ⟨.double, shape⟩ storage (.fin start) (.fin stop) = .ok c) :
    (1 < shape.prod →
      (∀ x, InBox x shape → c.catarr.cell x = .ok (.real (.fin
        (start + flat shape x * ((stop - start) / (shape.prod - 1 : Nat)))))) ∧
      c.catarr.cell (unflat shape 0) = .ok (.real (.fin start)) ∧
      c.catarr.cell (unflat shape (shape.prod - 1)) = .ok (.real (.fin stop))) ∧
    (shape.prod = 1 → ∀ x, InBox x shape → c.catarr.cell x = .ok (.real .nan)) := by
  have hNumbers : ∀ x, InBox x shape → c.catarr.cell x =
      .ok (.real (spaceNumber E.machine shape (.fin start) (.fin stop) (flat shape x))) :=
    (iarrayLinspace_written hE hFits h).numbers (by decide : Dtype.double ≠ .bool)
  constructor
  · intro hMany
    have hEach : ∀ x, InBox x shape → c.catarr.cell x = .ok (.real (.fin
        (start + flat shape x * ((stop - start) / (shape.prod - 1 : Nat))))) := by
      intro x hx
      rw [hNumbers x hx, spaceNumber_eq hExact hMany hSize]
    have hPos : ((shape.prod - 1 : Nat) : ℚ) ≠ 0 := by
      rw [Nat.cast_ne_zero]
      omega
    refine ⟨hEach, ?_, ?_⟩
    · have hFirst : 0 < shape.prod := by omega
      rw [hEach _ (inBox_unflat hFirst), flat_unflat hFirst]
      norm_num
    · have hLast : shape.prod - 1 < shape.prod := by omega
      rw [hEach _ (inBox_unflat hLast), flat_unflat hLast, mul_div_cancel₀ _ hPos, add_sub_cancel]
  · intro hOne x hx
    have hZero : flat shape x = 0 := by
      have hLess := flat_lt hx
      omega
    rw [hNumbers x hx, hZero, spaceNumber_one hExact hOne]

/-- From 0 to 10 in a matrix, and one element. -/
theorem iarrayLinspace_spaced_matrix :
    (∃ c, iarrayLinspace Reference.backend ⟨.double, [2, 3]⟩ ⟨[1, 2], [1, 1]⟩ (.fin 0) (.fin 10) =
      .ok c ∧ c.catarr.cell [1, 0] = .ok (.real (.fin 6)) ∧
        c.catarr.cell [1, 2] = .ok (.real (.fin 10))) ∧
    ∃ c, iarrayLinspace Reference.backend ⟨.double, [1]⟩ ⟨[1], [1]⟩ (.fin 0) (.fin 10) = .ok c ∧
      c.catarr.cell [0] = .ok (.real .nan) := by
  constructor
  · obtain ⟨c, hc⟩ := numbers_ok Reference.lawful
      (F := fun _ => spaceNumber Reference.backend.machine [2, 3] (.fin 0) (.fin 10))
      (show iarrayEmpty Reference.backend ⟨.double, [2, 3]⟩ ⟨[1, 2], [1, 1]⟩ = .ok _ from rfl)
      (by decide) (by decide) (by decide)
    have hSpaced := iarrayLinspace_spaced Reference.lawful (fun _ => rfl) (by decide) (by decide) hc
    obtain ⟨hEach, -, hLast⟩ := hSpaced.1 (by decide)
    refine ⟨c, hc, ?_, hLast⟩
    rw [hEach [1, 0] (by decide)]
    norm_num
  · obtain ⟨c, hc⟩ := numbers_ok Reference.lawful
      (F := fun _ => spaceNumber Reference.backend.machine [1] (.fin 0) (.fin 10))
      (show iarrayEmpty Reference.backend ⟨.double, [1]⟩ ⟨[1], [1]⟩ = .ok _ from rfl)
      (by decide) (by decide) (by decide)
    have hSpaced := iarrayLinspace_spaced Reference.lawful (fun _ => rfl) (by decide) (by decide) hc
    exact ⟨c, hc, hSpaced.2 rfl [0] (by decide)⟩

end IronArray
