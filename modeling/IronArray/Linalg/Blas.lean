import IronArray.Core.Chunks
import IronArray.Grid.Sums
import IronArray.Linalg.Headers
import IronArray.Views.Operations

/-!
# Products of blocks

MKL multiplies the buffers it is given; `Blas.Exact` is what the linear algebra relies on, with
the numbers that elements stand for in any ring. The optimised products read the stored blocks of
their operands, padding included, and leave out those whose headers say that they are zero.
-/

namespace IronArray

open Grid Finset

/-! ## Libraries -/

structure Blas where
  /-- `cblas_dgemm` and `cblas_sgemm`, row-major, untransposed and with `alpha` one: m, n, k, the
  matrices with their leading dimensions, and whether `beta` is one or zero. -/
  gemm : Dtype → Int → Int → Int → (Nat → Cell) → Int → (Nat → Cell) → Int → Bool →
    (Nat → Cell) → Int → Nat → Cell
  /-- `cblas_dgemv` and `cblas_sgemv`: m, n, the matrix with its leading dimension, the vector,
  whether `beta` is one or zero, and the result. -/
  gemv : Dtype → Int → Int → (Nat → Cell) → Int → (Nat → Cell) → Bool → (Nat → Cell) →
    Nat → Cell

/-- The products are exact for the numbers that the elements stand for. -/
structure Blas.Exact {R : Type} [Ring R] (B : Blas) (value : Dtype → Cell → R) : Prop where
  gemm : ∀ {d : Dtype} {m n k lda ldb ldc : Nat} {a b c : Nat → Cell} {i j : Nat} (beta : Bool),
    d.isFloating → k ≤ lda → n ≤ ldb → n ≤ ldc → i < m → j < n →
    value d (B.gemm d m n k a lda b ldb beta c ldc (i * ldc + j)) =
      (if beta then value d (c (i * ldc + j)) else 0) +
        ∑ l ∈ range k, value d (a (i * lda + l)) * value d (b (l * ldb + j))
  gemv : ∀ {d : Dtype} {m n lda : Nat} {a x y : Nat → Cell} {i : Nat} (beta : Bool),
    d.isFloating → n ≤ lda → i < m →
    value d (B.gemv d m n a lda x beta y i) =
      (if beta then value d (y i) else 0) +
        ∑ l ∈ range n, value d (a (i * lda + l)) * value d (x l)
  zero : ∀ d : Dtype, d.isFloating → value d (.bits 0) = 0

/-! ## Stored blocks -/

/-- `blosc2_schunk_get_lazychunk`. -/
def getLazychunk (a : CatArray) (nchunk : Nat) : Result Unit :=
  if nchunk < a.nchunks then .ok () else inaError .bloscFailed

/-- The `blosc2_getitem_ctx` that reads one block, through a context without postfilter. -/
def readBlock (a : CatArray) (nchunk nblock : Nat) : Result (List Cell) :=
  { a.sc with postfilter := none }.getitem nchunk (nblock * a.blockshape.prod) a.blockshape.prod
    (a.blockshape.prod * a.itemsize)

/-- The first `count` items of a buffer of type `src`, as MKL sees them under the type `dst`. -/
def operand (m : Machine) (src dst : Dtype) (items : List Cell) (count : Nat) :
    Result (Nat → Cell) :=
  if items.length * src.size < count * dst.size then crash .outOfBounds
  else .ok fun k => loadAt m src (chunkItems items) (k * dst.size) dst

/-- The stored items of a block. -/
def storedItems (a : CatArray) (nchunk nblock : Nat) : List Cell :=
  (List.range a.blockshape.prod).map fun j => a.sc.chunk nchunk (nblock * a.blockshape.prod + j)

/-- The item at offset `p.2` of chunk `p.1` along every axis. Offsets behind the part of the chunk
inside the array are padding. -/
def CatArray.padded (a : CatArray) (ps : List (Nat × Nat)) : Cell :=
  a.sc.chunk (flat (a.axes.map Axis.chunks) (ps.map Prod.fst))
    (flat (a.axes.map Axis.blocks) (List.zipWith (fun x p => p.2 / x.blockshape) a.axes ps) *
        a.blockshape.prod +
      flat a.blockshape (List.zipWith (fun x p => p.2 % x.blockshape) a.axes ps))

/-- The same item where its block is read under another type. -/
def CatArray.paddedAs (m : Machine) (src dst : Dtype) (a : CatArray) (ps : List (Nat × Nat)) :
    Cell :=
  loadAt m src (chunkItems (storedItems a (flat (a.axes.map Axis.chunks) (ps.map Prod.fst))
      (flat (a.axes.map Axis.blocks) (List.zipWith (fun x p => p.2 / x.blockshape) a.axes ps))))
    (flat a.blockshape (List.zipWith (fun x p => p.2 % x.blockshape) a.axes ps) * dst.size) dst

theorem mul_add_lt {n m x y : Nat} (hx : x < n) (hy : y < m) : x * m + y < n * m := by
  calc x * m + y < (x + 1) * m := by
        rw [Nat.add_one_mul]
        omega
    _ ≤ n * m := Nat.mul_le_mul_right _ hx

theorem zipWith_zipWith_same {α β γ δ : Type} (f : α → γ → δ) (g : α → β → γ) (as : List α)
    (bs : List β) : List.zipWith f as (List.zipWith g as bs) =
      List.zipWith (fun a b => f a (g a b)) as bs := by
  induction as generalizing bs with
  | nil => rfl
  | cons a as ih => cases bs <;> simp [ih]

/-- An element of an array whose blocks are read as they are stored. -/
theorem get_eq_padded {a : CatArray} (hSized : a.Sized) (hPost : a.sc.postfilter = none)
    {x : List Nat} (hx : InBox x a.shape) :
    a.get x = a.padded (List.zipWith Axis.pos a.axes x) := by
  have hChunks : (List.zipWith Axis.pos a.axes x).map Prod.fst =
      List.zipWith Axis.chunkOf a.axes x := List.map_zipWith
  rw [CatArray.get, CatArray.cell_stored hSized hPost hx, CatArray.padded, hChunks]
  rw [zipWith_zipWith_same, zipWith_zipWith_same]
  rfl

@[simp] theorem length_storedItems (a : CatArray) (nchunk nblock : Nat) :
    (storedItems a nchunk nblock).length = a.blockshape.prod := by
  rw [storedItems, List.length_map, List.length_range]

theorem chunkItems_storedItems {a : CatArray} {nchunk nblock k : Nat}
    (hk : k < a.blockshape.prod) : chunkItems (storedItems a nchunk nblock) k =
      a.sc.chunk nchunk (nblock * a.blockshape.prod + k) := by
  rw [chunkItems, List.getD_eq_getElem _ _ (by rwa [length_storedItems])]
  simp [storedItems]

theorem readBlock_ok {a : CatArray} (hSized : a.Sized) (nchunk nblock : Nat) :
    readBlock a nchunk nblock = .ok (storedItems a nchunk nblock) := by
  have hBlock : SChunk.block { a.sc with postfilter := none } nchunk nblock =
      .ok (SChunk.rawBlock { a.sc with postfilter := none } nchunk nblock) := rfl
  have hSize : SChunk.blockitems { a.sc with postfilter := none } *
      SChunk.typesize { a.sc with postfilter := none } ≤ a.blockshape.prod * a.itemsize := by
    rw [← hSized.blockitems]
    rfl
  have hRaw := SChunk.getitem_block hBlock (by simp [SChunk.rawBlock]) hSize
  rw [readBlock]
  have hItems : SChunk.blockitems { a.sc with postfilter := none } = a.blockshape.prod :=
    hSized.blockitems
  rw [hItems] at hRaw
  rw [hRaw, SChunk.rawBlock, hItems, storedItems]

theorem operand_eq_ok {m : Machine} {src dst : Dtype} {items : List Cell} {count : Nat}
    {y : Nat → Cell} (h : operand m src dst items count = .ok y) :
    y = fun k => loadAt m src (chunkItems items) (k * dst.size) dst := by
  unfold operand at h
  split at h
  · cases h
  · exact (Except.ok.inj h).symm

theorem shape_pos_of_lt_chunks {x : Axis} {q : Nat} (hq : q < x.chunks) : 0 < x.shape := by
  rcases Nat.eq_zero_or_pos x.shape with hEmpty | hPos
  · rw [Axis.chunks, hEmpty, numTiles_zero] at hq
    omega
  · exact hPos

theorem padded_matrix {a : CatArray} {rows cols : Axis} (h : a.axes = [rows, cols])
    (p q : Nat × Nat) : a.padded [p, q] =
      a.sc.chunk (p.1 * cols.chunks + q.1)
        ((p.2 / rows.blockshape * cols.blocks + q.2 / cols.blockshape) * a.blockshape.prod +
          (p.2 % rows.blockshape * cols.blockshape + q.2 % cols.blockshape)) := by
  simp [CatArray.padded, CatArray.blockshape, blockshapeOf, h]

theorem padded_vector {a : CatArray} {cols : Axis} (h : a.axes = [cols]) (q : Nat × Nat) :
    a.padded [q] = a.sc.chunk q.1
      (q.2 / cols.blockshape * a.blockshape.prod + q.2 % cols.blockshape) := by
  simp [CatArray.padded, CatArray.blockshape, blockshapeOf, h]

theorem paddedAs_matrix {m : Machine} {src dst : Dtype} {a : CatArray} {rows cols : Axis}
    (h : a.axes = [rows, cols]) (p q : Nat × Nat) : a.paddedAs m src dst [p, q] =
      loadAt m src (chunkItems (storedItems a (p.1 * cols.chunks + q.1)
          (p.2 / rows.blockshape * cols.blocks + q.2 / cols.blockshape)))
        ((p.2 % rows.blockshape * cols.blockshape + q.2 % cols.blockshape) * dst.size) dst := by
  simp [CatArray.paddedAs, CatArray.blockshape, blockshapeOf, h]

theorem paddedAs_vector {m : Machine} {src dst : Dtype} {a : CatArray} {cols : Axis}
    (h : a.axes = [cols]) (q : Nat × Nat) : a.paddedAs m src dst [q] =
      loadAt m src (chunkItems (storedItems a q.1 (q.2 / cols.blockshape)))
        (q.2 % cols.blockshape * dst.size) dst := by
  simp [CatArray.paddedAs, CatArray.blockshape, blockshapeOf, h]

theorem getD_lt {ns : List Nat} {bound : Nat} (h : ∀ n ∈ ns, n < bound + 1) (i : Nat) :
    ns.getD i 0 < bound + 1 := by
  rw [List.getD_eq_getElem?_getD]
  cases hGet : ns[i]? with
  | none => exact Nat.succ_pos _
  | some n => exact h n (List.mem_of_getElem? hGet)

/-- The tiles of a new container are those that the storage has been compared with. -/
theorem PlainOf.axes_eq {d : Dtype} {storage : Storage} {c : Container} {xs : List Axis}
    (h : PlainOf ⟨d, shapeOf xs⟩ storage c)
    (hChunk : ∀ i < xs.length, storage.chunkshape.getD i 0 = (chunkshapeOf xs).getD i 0)
    (hBlock : ∀ i < xs.length, storage.blockshape.getD i 0 = (blockshapeOf xs).getD i 0)
    (hShort : ShortTiles xs) :
    c.catarr.axes = xs := by
  have hFresh := h.plain.fresh
  rw [h.dtshape, h.storage] at hFresh
  have hShape : shapeOf c.catarr.axes = shapeOf xs := hFresh.shape
  have hLen : c.catarr.axes.length = xs.length := by
    rw [← length_shapeOf, hShape, length_shapeOf]
  refine axes_ext hShape ?_ ?_
  · refine ext_getD (by simp [chunkshapeOf, hLen]) fun i hi => ?_
    have hStored := hFresh.getD_chunkshape i
    rw [hChunk i (by simpa [chunkshapeOf] using hi),
      toInt32_natCast (getD_lt hShort.fits.chunkshape i)]
      at hStored
    exact Int.ofNat.inj hStored
  · refine ext_getD (by simp [blockshapeOf, hLen]) fun i hi => ?_
    have hStored := hFresh.getD_blockshape i
    rw [hBlock i (by simpa [blockshapeOf] using hi),
      toInt32_natCast (getD_lt hShort.fits.blockshape i)]
      at hStored
    exact Int.ofNat.inj hStored

/-- An element of a container whose chunks have all been written. -/
theorem contents_withChunks {c : Container} {block : Nat → Nat → List Cell}
    (hSized : c.catarr.Sized) (hPost : c.catarr.sc.postfilter = none)
    (hLen : ∀ q < c.catarr.nchunks, ∀ t < (c.catarr.axes.map Axis.blocks).prod,
      (block q t).length = c.catarr.blockshape.prod) {x : List Nat}
    (hx : InBox x c.catarr.shape) :
    (Container.contents { c with catarr := c.catarr.withChunks c.catarr.nchunks fun q =>
        (List.range (c.catarr.axes.map Axis.blocks).prod).flatMap (block q) }).get x =
      (block (locate c.catarr.axes x).nchunk (locate c.catarr.axes x).nblock).getD
        (locate c.catarr.axes x).nitem (.bits 0) := by
  have hCell := CatArray.cell_withChunks hSized hPost hLen hx
  simp only [Container.contents, CatArray.get, hCell]

theorem contents_vector {c : Container} {block : Nat → Nat → List Cell} {x : Axis} {i : Nat}
    (hSized : c.catarr.Sized) (hPost : c.catarr.sc.postfilter = none) (hAxes : c.catarr.axes = [x])
    (hLen : ∀ q < x.chunks, ∀ t < x.blocks, (block q t).length = x.blockshape)
    (hi : i < x.shape) :
    (Container.contents { c with catarr := c.catarr.withChunks c.catarr.nchunks fun q =>
        (List.range (c.catarr.axes.map Axis.blocks).prod).flatMap (block q) }).get [i] =
      (block (x.chunkOf i) (x.blockOf i)).getD (x.itemOf i) (.bits 0) := by
  have hIn : InBox [i] c.catarr.shape := by simpa [CatArray.shape, hAxes] using hi
  have hLocate : locate [x] [i] = ⟨x.chunkOf i, x.blockOf i, x.itemOf i⟩ := by
    simp [locate, blockshapeOf]
  rw [contents_withChunks hSized hPost (fun q hq t ht => ?_) hIn, hAxes, hLocate]
  simp only [CatArray.nchunks, CatArray.blockshape, blockshapeOf, hAxes, List.map_cons,
    List.map_nil, List.prod_cons, List.prod_nil, Nat.mul_one] at hq ht ⊢
  exact hLen q hq t ht

/-! ## Steps that add to a buffer -/

section

variable {R : Type} [Ring R] {val : Cell → R} {p : Nat}

/-- A step that succeeds adds `v` to what the buffer holds at place `p`. -/
def Adds (val : Cell → R) (p : Nat) (step : (Nat → Cell) → Result (Nat → Cell)) (v : R) : Prop :=
  ∀ out out', step out = .ok out' → val (out' p) = val (out p) + v

/-- A step that leaves the buffer as it is. -/
theorem Adds.nothing : Adds val p (fun out => .ok out) (0 : R) := by
  intro out out' h
  cases h
  exact (add_zero _).symm

/-- A loop adds what its steps add, by induction on the number of steps. -/
theorem Adds.loop {n : Nat} {step : Nat → (Nat → Cell) → Result (Nat → Cell)} {v : Nat → R}
    (h : ∀ t < n, Adds val p (step t) (v t)) :
    Adds val p (fun out => (List.range n).foldlM (fun o t => step t o) out)
      (∑ t ∈ range n, v t) := by
  intro out out' hLoop
  induction n generalizing out' with
  | zero =>
    cases hLoop
    simp
  | succ n ih =>
    dsimp only at hLoop
    rw [List.range_succ, List.foldlM_append] at hLoop
    obtain ⟨out₁, hInit, hLast⟩ := Result.bind_eq_ok.mp hLoop
    obtain ⟨out₂, hStep, hEnd⟩ := Result.bind_eq_ok.mp hLast
    cases hEnd
    rw [h n (Nat.lt_succ_self n) out₁ out' hStep,
      ih (fun t ht => h t (ht.trans_le n.le_succ)) out₁ hInit,
      sum_range_succ, add_assoc]

end

/-! ## Products over the rationals -/

namespace Reference

/-- The number of an element; every pattern of zeros is zero. -/
def number (_ : Dtype) : Cell → ℚ
  | .real (.fin q) => q
  | _ => 0

def blas : Blas where
  gemm d m n k a lda b ldb beta c ldc p :=
    if p / ldc.toNat < m.toNat ∧ p % ldc.toNat < n.toNat then
      .real (.fin ((if beta then number d (c p) else 0) +
        ∑ l ∈ range k.toNat, number d (a (p / ldc.toNat * lda.toNat + l)) *
          number d (b (l * ldb.toNat + p % ldc.toNat))))
    else c p
  gemv d m n a lda x beta y i :=
    if i < m.toNat then
      .real (.fin ((if beta then number d (y i) else 0) +
        ∑ l ∈ range n.toNat, number d (a (i * lda.toNat + l)) * number d (x l)))
    else y i

theorem blas_exact : blas.Exact number where
  gemm := by
    intro d m n k lda ldb ldc a b c i j beta _ _ _ hn hi hj
    have hCol : j < ldc := by omega
    simp only [blas, Int.toNat_natCast, mul_add_div_of_lt hCol, Nat.mul_add_mod_of_lt hCol]
    rw [if_pos ⟨hi, hj⟩, number]
  gemv := by
    intro d m n lda a x y i beta _ _ hi
    simp only [blas, Int.toNat_natCast]
    rw [if_pos hi, number]
  zero _ _ := rfl

/-- Chunks that are stored as they are. -/
def rawBytes (i : Int) : UInt8 := if i = chunkFlags then 0x02 else 0

def rawHeaders : Headers := ⟨fun _ _ => rawBytes⟩

/-- A chunk in memory: one stream for each block, of size zero where the flag says so, behind one
filter. The starts of the blocks lie in front of the streams. -/
def runBytes (filter : UInt8) (zero : Nat → Bool) (i : Int) : UInt8 :=
  if i = chunkFilterCodes then filter
  else if i < extendedHeaderLength then 0
  else if i < 0x100 then
    let start := i - extendedHeaderLength
    if start % 4 = 0 then .ofNat start.toNat else if start % 4 = 1 then 1 else 0
  else
    let stream := i - 0x100
    if stream % 4 = 0 ∧ zero (stream / 4).toNat = false then 1 else 0

/-- Headers of chunks whose blocks of zeros are streams of size zero. -/
def runHeaders : Headers where
  bytes sc nchunk := runBytes 0 fun nblock =>
    (List.range sc.blockitems).all fun k => sc.chunk nchunk (nblock * sc.blockitems + k) = .bits 0

/-- The same behind the delta filter: every block but the first is stored as its difference from the
first one. -/
def deltaHeaders : Headers where
  bytes sc nchunk := runBytes bloscDelta fun nblock =>
    (List.range sc.blockitems).all fun k =>
      sc.chunk nchunk (nblock * sc.blockitems + k) = if nblock = 0 then .bits 0 else sc.chunk nchunk k

theorem runBytes_ne_delta (zero : Nat → Bool) {i : Nat} (hi : i < maxFilters) :
    runBytes 0 zero (chunkFilterCodes + i) ≠ bloscDelta := by
  have hHeader : chunkFilterCodes + (i : Int) < extendedHeaderLength := by
    simp only [chunkFilterCodes, extendedHeaderLength, maxFilters] at hi ⊢
    omega
  rw [runBytes, if_pos hHeader]
  split
  · decide
  · decide

theorem runHeaders_noDelta (a : CatArray) : runHeaders.NoDelta a := by
  intro nchunk _ i hi
  unfold runHeaders
  dsimp only
  exact runBytes_ne_delta _ hi

/-- What is left to check of a few blocks. -/
theorem runHeaders_documents {zero : Cell → Prop} {a : CatArray}
    (h : ∀ nchunk < a.nchunks, ∀ nblock < (a.axes.map Axis.blocks).prod,
      cdataIsZeros (runHeaders.bytes a.sc nchunk) nblock = true →
        ∀ k < a.blockshape.prod, zero (a.sc.chunk nchunk (nblock * a.blockshape.prod + k))) :
    runHeaders.Documents zero a where
  special _ _ h := absurd h (show ¬ (0 : UInt8) >>> 4 &&& specialMask = specialZero by decide)
  trailer _ _ h := absurd h (show ¬ ((0 : UInt8) &&& 0x08 != 0) = true by decide)
  streams nchunk hq _ _ _ _ := h nchunk hq

end Reference

end IronArray
