import IronArray.Core.Limits
import IronArray.Linalg.Gemm
import IronArray.Linalg.Gemv
import IronArray.Linalg.Product

/-!
# What the products check of their operands

`iarray_linalg_matmul` compares ranks, shapes and data types but never asks for a floating type;
`iarray_opt_gemm` and `iarray_opt_gemv` compare the chunks and the blocks and neither the shapes nor
the data types. `matrixProducts_validate` says when an operand that does not fit is refused anyway.
-/

namespace IronArray

open Grid

/-! ## Calls that are refused -/

namespace Result

variable {α β σ : Type}

theorem not_refused_ok (a : α) : ¬ Refused (Except.ok a : Result α) := nofun

theorem not_refused_crash (u : Undefined) : ¬ Refused (crash u : Result α) := nofun

/-- What is undefined is not refused. -/
theorem not_refused_of_crash {r : Result α} (h : ∃ u, r = crash u) : ¬ Refused r := by
  obtain ⟨u, rfl⟩ := h
  exact not_refused_crash u

theorem crash_bind {x : Result α} (h : ∃ u, x = crash u) (f : α → Result β) :
    ∃ u, x >>= f = crash u := by
  obtain ⟨u, rfl⟩ := h
  exact ⟨u, rfl⟩

/-- A step that is not refused, and then one that is undefined. -/
theorem crash_of_not_refused {x : Result α} {f : α → Result β} (hx : ¬ Refused x)
    (hf : ∀ a, ∃ u, f a = crash u) : ∃ u, x >>= f = crash u := by
  cases x with
  | ok a => exact hf a
  | error e =>
    cases e with
    | code e => exact absurd ⟨e, rfl⟩ hx
    | undefined u => exact ⟨u, rfl⟩

theorem not_refused_bind {x : Result α} {f : α → Result β} (hx : ¬ Refused x)
    (hf : ∀ a, x = .ok a → ¬ Refused (f a)) : ¬ Refused (x >>= f) := by
  cases x with
  | ok a => exact hf a rfl
  | error e =>
    cases e with
    | code e => exact absurd ⟨e, rfl⟩ hx
    | undefined u => exact not_refused_crash u

theorem not_refused_foldlM {f : σ → α → Result σ} {xs : List α}
    (h : ∀ x ∈ xs, ∀ s, ¬ Refused (f s x)) (s : σ) : ¬ Refused (xs.foldlM f s) := by
  induction xs generalizing s with
  | nil => exact not_refused_ok s
  | cons x xs ih =>
    rw [List.foldlM_cons]
    exact not_refused_bind (h x List.mem_cons_self s) fun s' _ =>
      ih (fun y hy => h y (List.mem_cons_of_mem _ hy)) s'

theorem not_refused_mapM {f : α → Result β} {xs : List α} (h : ∀ x ∈ xs, ¬ Refused (f x)) :
    ¬ Refused (xs.mapM f) := by
  induction xs with
  | nil => exact not_refused_ok []
  | cons x xs ih =>
    rw [List.mapM_cons]
    refine not_refused_bind (h x List.mem_cons_self) fun y _ => ?_
    exact not_refused_bind (ih fun z hz => h z (List.mem_cons_of_mem _ hz)) fun ys _ =>
      not_refused_ok (y :: ys)

theorem foldlM_succeeds {f : σ → α → Result σ} {xs : List α}
    (h : ∀ x ∈ xs, ∀ s, ∃ s', f s x = .ok s') (s : σ) : ∃ s', xs.foldlM f s = .ok s' := by
  induction xs generalizing s with
  | nil => exact ⟨s, rfl⟩
  | cons x xs ih =>
    obtain ⟨s', hs'⟩ := h x List.mem_cons_self s
    rw [List.foldlM_cons, hs', ok_bind]
    exact ih (fun y hy => h y (List.mem_cons_of_mem _ hy)) s'

theorem range_split {n k : Nat} (hk : k < n) :
    ∃ rest, List.range n = List.range k ++ k :: rest := by
  obtain ⟨m, rfl⟩ := Nat.exists_eq_add_of_lt hk
  refine ⟨(List.range m).map fun i => k + 1 + i, ?_⟩
  rw [show k + m + 1 = k + 1 + m by omega, List.range_add, List.range_succ, List.append_assoc]
  rfl

/-- A loop whose steps succeed until one is refused. -/
theorem refused_foldlM {f : σ → Nat → Result σ} {n k : Nat} (hk : k < n)
    (hBefore : ∀ i < k, ∀ s, ∃ s', f s i = .ok s') (hAt : ∀ s, Refused (f s k)) (s : σ) :
    Refused ((List.range n).foldlM f s) := by
  obtain ⟨rest, hSplit⟩ := range_split hk
  obtain ⟨s', hs'⟩ := foldlM_succeeds (fun i hi => hBefore i (List.mem_range.mp hi)) s
  rw [hSplit, List.foldlM_append, hs', ok_bind, List.foldlM_cons]
  exact refused_bind (hAt s') _

/-- A loop whose steps are not refused until one is undefined. -/
theorem crash_foldlM {f : σ → Nat → Result σ} {n k : Nat} (hk : k < n)
    (hBefore : ∀ i < k, ∀ s, ¬ Refused (f s i)) (hAt : ∀ s, ∃ u, f s k = crash u) (s : σ) :
    ∃ u, (List.range n).foldlM f s = crash u := by
  obtain ⟨rest, hSplit⟩ := range_split hk
  rw [hSplit, List.foldlM_append]
  refine crash_of_not_refused
    (not_refused_foldlM (fun i hi => hBefore i (List.mem_range.mp hi)) s) fun s' => ?_
  rw [List.foldlM_cons]
  exact crash_bind (hAt s') _

end Result

/-! ## Calls with a guard -/

/-- A call that succeeds where `P` holds and is undefined elsewhere. -/
def Guarded {α : Type} (P : Prop) (r : Result α) : Prop :=
  (P → ∃ a, r = .ok a) ∧ (¬ P → ∃ u, r = crash u)

namespace Guarded

variable {α β σ : Type} {P : Prop} {r : Result α}

theorem of_ok (hP : P) (a : α) : Guarded P (.ok a) := ⟨fun _ => ⟨a, rfl⟩, fun h => absurd hP h⟩

theorem of_crash (hP : ¬ P) (u : Undefined) : Guarded P (crash u : Result α) :=
  ⟨fun h => absurd h hP, fun _ => ⟨u, rfl⟩⟩

theorem not_refused (h : Guarded P r) : ¬ Refused r := by
  by_cases hP : P
  · obtain ⟨a, rfl⟩ := h.1 hP
    exact Result.not_refused_ok a
  · exact Result.not_refused_of_crash (h.2 hP)

theorem congr {Q : Prop} (h : Guarded P r) (hPQ : P ↔ Q) : Guarded Q r := propext hPQ ▸ h

theorem bind (h : Guarded P r) {f : α → Result β} (hf : ∀ a, ∃ b, f a = .ok b) :
    Guarded P (r >>= f) := by
  refine ⟨fun hP => ?_, fun hP => Result.crash_bind (h.2 hP) f⟩
  obtain ⟨a, rfl⟩ := h.1 hP
  exact hf a

theorem foldlM {f : σ → Nat → Result σ} {n : Nat} {P : Nat → Prop}
    (h : ∀ t < n, ∀ s, Guarded (P t) (f s t)) (s : σ) :
    Guarded (∀ t < n, P t) ((List.range n).foldlM f s) := by
  refine ⟨fun hAll => Result.foldlM_succeeds (fun t ht s => ?_) s, fun hNot => ?_⟩
  · have hLt := List.mem_range.mp ht
    exact (h t hLt s).1 (hAll t hLt)
  · push Not at hNot
    obtain ⟨t, ht, hStop⟩ := hNot
    exact Result.crash_foldlM ht (fun i hi s => (h i (hi.trans ht) s).not_refused)
      (fun s => (h t ht s).2 hStop) s

/-- A walk of `n` steps with a guard of which only `k` can be taken: it is refused exactly when it
gets to step `k`, and otherwise it has a guard. -/
theorem refused_foldlM_iff {f : σ → Nat → Result σ} {n k : Nat} {P : Nat → Prop}
    (h : ∀ t < n, t < k → ∀ s, Guarded (P t) (f s t)) (hEnd : ∀ s, Refused (f s k)) (s : σ) :
    (Refused ((List.range n).foldlM f s) ↔ k < n ∧ ∀ t < k, P t) ∧
      (k < n → ¬ Refused ((List.range n).foldlM f s) →
        ∃ u, (List.range n).foldlM f s = crash u) := by
  rcases Nat.lt_or_ge k n with hShort | hEnough
  swap
  · have hNone := (foldlM (fun t ht s => h t ht (ht.trans_le hEnough) s) s).not_refused
    exact ⟨⟨fun hRefused => absurd hRefused hNone, fun hStays => absurd hStays.1 (by omega)⟩,
      fun hLt => absurd hLt (by omega)⟩
  have hSteps : ∀ t < k, ∀ s, Guarded (P t) (f s t) := fun t ht => h t (ht.trans hShort) ht
  have hCrash : ¬ (∀ t < k, P t) → ∃ u, (List.range n).foldlM f s = crash u := by
    intro hNot
    push Not at hNot
    obtain ⟨t, ht, hStop⟩ := hNot
    exact Result.crash_foldlM (ht.trans hShort)
      (fun i hi s => (hSteps i (hi.trans ht) s).not_refused) (fun s => (hSteps t ht s).2 hStop) s
  have hRefused : (∀ t < k, P t) → Refused ((List.range n).foldlM f s) := fun hAll =>
    Result.refused_foldlM hShort (fun t ht s => (hSteps t ht s).1 (hAll t ht)) hEnd s
  refine ⟨⟨fun hStops => ⟨hShort, ?_⟩, fun hStays => hRefused hStays.2⟩, fun _ hNone =>
    hCrash fun hAll => hNone (hRefused hAll)⟩
  by_contra hNot
  exact Result.not_refused_of_crash (hCrash hNot) hStops

end Guarded

theorem not_refused_idiv (a b : Nat) : ¬ Refused (idiv a b) := by
  unfold idiv
  split
  · exact Result.not_refused_crash _
  · exact Result.not_refused_ok _

namespace CatArray

variable {a : CatArray} {prefilter : Nat → Result (List Cell)}

/-- The compression fails when its first block does. -/
theorem refused_compress (hPos : 0 < (a.axes.map Axis.extchunkshape).prod / a.blockshape.prod)
    (h : Refused (prefilter 0)) : Refused (a.compress prefilter) := by
  obtain ⟨e, he⟩ := h
  obtain ⟨n, hn⟩ := Nat.exists_eq_succ_of_ne_zero hPos.ne'
  have hBlocks : (List.range ((a.axes.map Axis.extchunkshape).prod / a.blockshape.prod)).mapM
      prefilter = .error (.code e) := by
    rw [hn, List.range_succ_eq_map, List.mapM_cons, he]
    rfl
  rw [compress, hBlocks]
  exact ⟨_, rfl⟩

/-- The compression is undefined when its first block is. -/
theorem crash_compress (hPos : 0 < (a.axes.map Axis.extchunkshape).prod / a.blockshape.prod)
    (h : ∃ u, prefilter 0 = crash u) : ∃ u, a.compress prefilter = crash u := by
  obtain ⟨u, hu⟩ := h
  obtain ⟨n, hn⟩ := Nat.exists_eq_succ_of_ne_zero hPos.ne'
  have hBlocks : (List.range ((a.axes.map Axis.extchunkshape).prod / a.blockshape.prod)).mapM
      prefilter = .error (.undefined u) := by
    rw [hn, List.range_succ_eq_map, List.mapM_cons, hu]
    rfl
  rw [compress, hBlocks]
  exact ⟨_, rfl⟩

theorem not_refused_compress (h : ∀ t, ¬ Refused (prefilter t)) :
    ¬ Refused (a.compress prefilter) := by
  have hBlocks := Result.not_refused_mapM fun t (_ : t ∈ List.range
    ((a.axes.map Axis.extchunkshape).prod / a.blockshape.prod)) => h t
  unfold compress
  split
  · exact Result.not_refused_ok _
  · rename_i e hEq
    exact absurd ⟨e, hEq⟩ hBlocks
  · exact Result.not_refused_crash _

section Loop

variable {prefilter : Nat → Nat → Result (List Cell)} {n : Nat}

/-- A loop over the chunks is refused exactly when the first block is, where no block is refused
behind a first one that succeeds. -/
theorem refused_chunks_iff (hn : 0 < n) (hPos : ∀ x ∈ a.axes, 0 < x.shape)
    (hFirst : ¬ Refused (prefilter 0 0) →
      (∃ u, prefilter 0 0 = crash u) ∨ ∀ q < n, ∀ t, ¬ Refused (prefilter q t)) :
    Refused ((List.range n).foldlM (fun c q => do
      let chunk ← a.compress (prefilter q)
      pure (c.updateChunk q (chunkItems chunk))) a) ↔ Refused (prefilter 0 0) := by
  have hBlocks : 0 < (a.axes.map Axis.extchunkshape).prod / a.blockshape.prod := by
    rw [blockshape, prod_extchunkshape hPos]
    exact (nchunks_pos hPos).2
  refine ⟨fun h => ?_, fun hBlock => ?_⟩
  · by_contra hBlock
    rcases hFirst hBlock with hCrash | hNone
    · refine Result.not_refused_of_crash (Result.crash_foldlM hn (by omega) (fun c => ?_) a) h
      exact Result.crash_bind (crash_compress hBlocks hCrash) _
    · refine Result.not_refused_foldlM (fun q hq c => ?_) a h
      exact Result.not_refused_bind (not_refused_compress (hNone q (List.mem_range.mp hq)))
        fun _ _ => Result.not_refused_ok _
  · refine Result.refused_foldlM hn (by omega) (fun c => ?_) _
    exact Result.refused_bind (refused_compress hBlocks hBlock) _

end Loop

end CatArray

/-! ## What a product asks for -/

/-- Operands that can be multiplied. -/
structure Multipliable (rank : Nat → Prop) (a b : Container) : Prop where
  left : a.dtshape.ndim = 2
  right : rank b.dtshape.ndim
  shape : a.dtshape.shape.getD 1 0 = b.dtshape.shape.getD 0 0
  dtype : b.dtshape.dtype = a.dtshape.dtype
  floating : a.dtshape.dtype.isFloating

/-- The operands fit, or the call is refused. -/
def Validates (fits : Prop) (r : Result Container) : Prop := fits ∨ Refused r

/-- The checks of `iarray_linalg_matmul` pass. -/
structure MatmulAccepts (a b : Container) (storage : Storage) : Prop where
  left : a.dtshape.ndim = 2
  right : b.dtshape.ndim = 1 ∨ b.dtshape.ndim = 2
  shape : a.dtshape.shape.getD 1 0 = b.dtshape.shape.getD 0 0
  dtype : a.dtshape.dtype = b.dtshape.dtype
  chunkshape : ∀ i < (matmulDtshape a b).ndim,
    storage.chunkshape.getD i 0 ≤ (matmulDtshape a b).shape.getD i 0

/-- The checks of `iarray_opt_gemm` pass, with the axes that they have compared. -/
structure OptGemmAccepts (a b : Container) (storage : Storage) (rows inner inner' cols : Axis) :
    Prop where
  left : a.catarr.axes = [rows, inner]
  right : b.catarr.axes = [inner', cols]
  rowsChunk : rows.chunkshape = storage.chunkshape.getD 0 0
  innerChunk : inner.chunkshape = inner'.chunkshape
  colsChunk : cols.chunkshape = storage.chunkshape.getD 1 0
  rowsBlock : rows.blockshape = storage.blockshape.getD 0 0
  innerBlock : inner.blockshape = inner'.blockshape
  colsBlock : cols.blockshape = storage.blockshape.getD 1 0

/-- The checks of `iarray_opt_gemv` pass. -/
structure OptGemvAccepts (a b : Container) (storage : Storage) (rows cols inner : Axis) : Prop where
  left : a.catarr.axes = [rows, cols]
  right : b.catarr.axes = [inner]
  rowsChunk : rows.chunkshape = storage.chunkshape.getD 0 0
  colsChunk : cols.chunkshape = inner.chunkshape
  rowsBlock : rows.blockshape = storage.blockshape.getD 0 0
  colsBlock : cols.blockshape = inner.blockshape

section

variable {E : Backend} {B : Blas} {H : Headers} {a b : Container} {storage : Storage}
  {rows cols inner inner' : Axis}

theorem matmul_refused_of_checks (h : ¬ MatmulAccepts a b storage) :
    Refused (iarrayLinalgMatmul E B a b storage) := by
  unfold iarrayLinalgMatmul
  split
  · exact ⟨_, rfl⟩
  rename_i hNdim
  split
  · exact ⟨_, rfl⟩
  rename_i hShape
  split
  · exact ⟨_, rfl⟩
  rename_i hDtype
  split
  · exact ⟨_, rfl⟩
  rename_i hChunk
  refine absurd ⟨by omega, by omega, not_not.mp hShape, not_not.mp hDtype, fun i hi => ?_⟩ h
  simp only [List.any_eq_true, List.mem_range, decide_eq_true_eq, not_exists, not_and,
    Nat.not_lt] at hChunk
  exact hChunk i hi

theorem matmul_eq_of_checks (h : MatmulAccepts a b storage) :
    iarrayLinalgMatmul E B a b storage = (do
      let c ← iarrayEmpty E (matmulDtshape a b) storage
      let catarr ← matmulArray E B a b c
      pure { c with catarr := catarr }) := by
  have hChunk : ¬ ((List.range (matmulDtshape a b).ndim).any fun i =>
      (matmulDtshape a b).shape.getD i 0 < storage.chunkshape.getD i 0) = true := by
    simp only [List.any_eq_true, List.mem_range, decide_eq_true_eq, not_exists, not_and,
      Nat.not_lt]
    exact h.chunkshape
  have hNdim : ¬ (a.dtshape.ndim ≠ 2 ∨ (b.dtshape.ndim ≠ 1 ∧ b.dtshape.ndim ≠ 2)) := by
    have := h.left
    have := h.right
    omega
  rw [iarrayLinalgMatmul, if_neg hNdim, if_neg (not_not.mpr h.shape),
    if_neg (not_not.mpr h.dtype), if_neg hChunk]

theorem optGemm_refused_of_checks
    (h : ∀ rows inner inner' cols, ¬ OptGemmAccepts a b storage rows inner inner' cols) :
    Refused (iarrayOptGemm E B H a b storage) := by
  unfold iarrayOptGemm
  split
  · rename_i rows inner inner' cols hA hB
    split_ifs with h₁ h₂ h₃ h₄ h₅ h₆
    · exact ⟨_, rfl⟩
    · exact ⟨_, rfl⟩
    · exact ⟨_, rfl⟩
    · exact ⟨_, rfl⟩
    · exact ⟨_, rfl⟩
    · exact ⟨_, rfl⟩
    · exact absurd ⟨hA, hB, not_not.mp h₁, not_not.mp h₂, not_not.mp h₃, not_not.mp h₄,
        not_not.mp h₅, not_not.mp h₆⟩ (h rows inner inner' cols)
  · exact ⟨_, rfl⟩

theorem OptGemmAccepts.unique {rows₁ inner₁ inner₂ cols₁ : Axis}
    (h : OptGemmAccepts a b storage rows inner inner' cols)
    (h' : OptGemmAccepts a b storage rows₁ inner₁ inner₂ cols₁) :
    rows = rows₁ ∧ inner = inner₁ ∧ inner' = inner₂ ∧ cols = cols₁ := by
  simpa [and_assoc] using And.intro (h.left.symm.trans h'.left) (h.right.symm.trans h'.right)

theorem OptGemvAccepts.unique {rows' cols' inner' : Axis}
    (h : OptGemvAccepts a b storage rows cols inner)
    (h' : OptGemvAccepts a b storage rows' cols' inner') :
    rows = rows' ∧ cols = cols' ∧ inner = inner' := by
  simpa [and_assoc] using And.intro (h.left.symm.trans h'.left) (h.right.symm.trans h'.right)

theorem optGemm_eq_of_checks (h : OptGemmAccepts a b storage rows inner inner' cols) :
    iarrayOptGemm E B H a b storage = (do
      let c ← iarrayEmpty E
        ⟨a.dtshape.dtype, [a.dtshape.shape.getD 0 0, b.dtshape.shape.getD 1 0]⟩ storage
      let catarr ← optGemmChunks E B H a b rows inner cols c.catarr
      pure { c with catarr := catarr }) := by
  simp only [iarrayOptGemm, h.left, h.right, h.rowsChunk, h.innerChunk, h.colsChunk, h.rowsBlock,
    h.innerBlock, h.colsBlock, ne_eq, not_true_eq_false, if_false]

theorem optGemv_refused_of_checks
    (h : ∀ rows cols inner, ¬ OptGemvAccepts a b storage rows cols inner) :
    Refused (iarrayOptGemv E B H a b storage) := by
  unfold iarrayOptGemv
  split
  · rename_i rows cols inner hA hB
    split_ifs with h₁ h₂ h₃ h₄
    · exact ⟨_, rfl⟩
    · exact ⟨_, rfl⟩
    · exact ⟨_, rfl⟩
    · exact ⟨_, rfl⟩
    · exact absurd ⟨hA, hB, not_not.mp h₁, not_not.mp h₂, not_not.mp h₃, not_not.mp h₄⟩
        (h rows cols inner)
  · exact ⟨_, rfl⟩

theorem optGemv_eq_of_checks (h : OptGemvAccepts a b storage rows cols inner) :
    iarrayOptGemv E B H a b storage = (do
      let c ← iarrayEmpty E ⟨a.dtshape.dtype, [a.dtshape.shape.getD 0 0]⟩ storage
      let catarr ← optGemvChunks E B H a b rows cols c.catarr
      pure { c with catarr := catarr }) := by
  simp only [iarrayOptGemv, h.left, h.right, h.rowsChunk, h.colsChunk, h.rowsBlock, h.colsBlock,
    ne_eq, not_true_eq_false, if_false]

end

/-! ## Operands -/

/-- Operands with elements that view operations reach from plain containers. -/
structure RunOperands (E : Backend) (a b : Container) : Prop where
  left : ∃ A, Run E a A
  right : ∃ A, Run E b A
  leftPos : ∀ n ∈ a.dtshape.shape, 0 < n
  rightPos : ∀ n ∈ b.dtshape.shape, 0 < n

theorem Known.sized {a : Container} {A : NdArray Cell} (h : Known a A) : a.catarr.Sized := by
  cases h with
  | plain hPlain _ => exact hPlain.fresh.sized
  | view _ hShows => exact hShows.sized
  | transposed hShows => exact hShows.base.sized

/-- The array of an operand has elements. -/
theorem sized_of_run {E : Backend} {a : Container} (hE : E.Lawful) (h : ∃ A, Run E a A)
    (hPos : ∀ n ∈ a.dtshape.shape, 0 < n) :
    a.catarr.Sized ∧ ∀ x ∈ a.catarr.axes, 0 < x.shape := by
  obtain ⟨A, hRun⟩ := h
  have hKnown := hRun.known hE
  exact ⟨hKnown.sized, hKnown.axes_pos (hKnown.shape ▸ hPos)⟩

/-- `count` items of the type of `a` lie inside a block of `b`. -/
def BlockHolds (a b : Container) (count : Nat) : Prop :=
  count * a.dtshape.dtype.size ≤ b.catarr.blockshape.prod * b.dtshape.dtype.size

theorem operand_guarded (m : Machine) {a b : Container} (q t count : Nat) :
    Guarded (BlockHolds a b count) (operand m b.dtshape.dtype a.dtshape.dtype
      (storedItems b.catarr q t) count) := by
  rw [operand, length_storedItems]
  split
  · rename_i hOver
    exact .of_crash (Nat.not_le.mpr hOver) _
  · rename_i hInside
    exact .of_ok (Nat.not_lt.mp hInside) _

theorem refused_bind_pure {α β : Type} {x : Result α} {g : α → β} :
    Refused (x >>= fun a => pure (g a)) ↔ Refused x := by
  refine ⟨fun h => ?_, fun h => Result.refused_bind h _⟩
  by_contra hNot
  exact Result.not_refused_bind hNot (fun a _ => Result.not_refused_ok (g a)) h

/-- A product whose prefilter wants a floating type and walks along the shared axis, `n` chunks of
the one operand and `k` of the other. -/
theorem refused_product_iff {σ : Type} {c : CatArray} {nchunks n k : Nat} {floating : Prop}
    {prefilter : Nat → Nat → Result (List Cell)} {f : Nat → Nat → σ → Nat → Result σ} {start : σ}
    {g : σ → List Cell} {P : Nat → Nat → Nat → Prop} (hChunks : 0 < nchunks)
    (hPos : ∀ x ∈ c.axes, 0 < x.shape) (hInteger : ¬ floating → Refused (prefilter 0 0))
    (hFloat : floating → ∀ q t, prefilter q t =
      (List.range n).foldlM (f q t) start >>= fun out => pure (g out))
    (hStep : ∀ q < nchunks, ∀ t, ∀ i < n, i < k → ∀ s, Guarded (P q t i) (f q t s i))
    (hEnd : ∀ q t s, Refused (f q t s k)) :
    Refused ((List.range nchunks).foldlM (fun cc q => do
      let chunk ← c.compress (prefilter q)
      pure (cc.updateChunk q (chunkItems chunk))) c) ↔
      ¬ floating ∨ (k < n ∧ ∀ i < k, P 0 0 i) := by
  by_cases hType : floating
  swap
  · have hBlock := hInteger hType
    rw [CatArray.refused_chunks_iff hChunks hPos fun hNot => absurd hBlock hNot]
    exact ⟨fun _ => .inl hType, fun _ => hBlock⟩
  obtain ⟨hIff, hCrash⟩ := Guarded.refused_foldlM_iff (fun i hi hi' s =>
    hStep 0 hChunks 0 i hi hi' s) (hEnd 0 0) start
  rw [CatArray.refused_chunks_iff hChunks hPos, hFloat hType, refused_bind_pure, hIff]
  · simp [hType]
  · intro hFirst
    rw [hFloat hType, refused_bind_pure] at hFirst
    rcases Nat.lt_or_ge k n with hShort | hEnough
    · rw [hFloat hType]
      exact .inl (Result.crash_bind (hCrash hShort hFirst) _)
    · refine .inr fun q hq t => ?_
      rw [hFloat hType, refused_bind_pure]
      exact (Guarded.foldlM (fun i hi s =>
        hStep q hq t i hi (hi.trans_le hEnough) s) start).not_refused

/-! ## The optimised product of two matrices -/

/-- Operands without empty axes that pass the checks, and the array for their product. -/
structure OptGemmRun (a b : Container) (storage : Storage) (rows inner inner' cols : Axis)
    (c : Container) : Prop where
  accepts : OptGemmAccepts a b storage rows inner inner' cols
  left : a.catarr.Sized
  right : b.catarr.Sized
  leftPos : ∀ x ∈ a.catarr.axes, 0 < x.shape
  rightPos : ∀ x ∈ b.catarr.axes, 0 < x.shape
  result : ∀ x ∈ c.catarr.axes, 0 < x.shape

/-- The parameters of the prefilter for chunk `q` of the result. -/
def gemmParams (a b : Container) (rows inner cols : Axis) (q : Nat) : GemmParams :=
  ⟨a, b, rows, inner, cols, (q / cols.chunks, q % cols.chunks), rows.chunks, inner.chunks,
    cols.chunks, inner.blocks, cols.blocks⟩

theorem gemmPrefilter_floating (E : Backend) (B : Blas) (H : Headers) {a b : Container}
    {rows inner cols : Axis} (q t : Nat) (hFloat : a.dtshape.dtype.isFloating) :
    gemmPrefilter E B H (gemmParams a b rows inner cols q) t = (do
      let out ← (List.range inner.chunks).foldlM
        (gemmChunkStep E B H (gemmParams a b rows inner cols q) t) fun _ => .bits 0
      pure ((List.range (rows.blockshape * cols.blockshape)).map out)) :=
  if_pos hFloat

/-- Two blocks are left out, or the one of `b` holds what MKL reads of it. -/
def GemmBlockStays (H : Headers) (params : GemmParams) (cIblock : Nat × Nat) (kNchunk kNblock : Nat) :
    Prop :=
  H.blockIsZeros params.a.catarr.sc (params.cIchunk.1 * params.kChunksShape + kNchunk)
    (cIblock.1 * params.kBlocksShape + kNblock) = false →
  H.blockIsZeros params.b.catarr.sc (kNchunk * params.nChunksShape + params.cIchunk.2)
    (kNblock * params.nBlocksShape + cIblock.2) = false →
  ∀ m k n, paddedBlockshape params.rows params.mChunksShape params.cIchunk.1 cIblock.1 = some m →
    paddedBlockshape params.inner params.kChunksShape kNchunk kNblock = some k →
    paddedBlockshape params.cols params.nChunksShape params.cIchunk.2 cIblock.2 = some n →
    BlockHolds params.a params.b ((k - 1) * params.cols.blockshape + n)

/-- Two chunks are left out, or all of their blocks stay. -/
def GemmChunkStays (H : Headers) (params : GemmParams) (cNblock kNchunk : Nat) : Prop :=
  H.chunkIsZeros params.b.catarr.sc (kNchunk * params.nChunksShape + params.cIchunk.2) = false →
  H.chunkIsZeros params.a.catarr.sc (params.cIchunk.1 * params.kChunksShape + kNchunk) = false →
  ∀ t < params.kBlocksShape, GemmBlockStays H params
    (cNblock / params.nBlocksShape, cNblock % params.nBlocksShape) kNchunk t

/-- The prefilter gives up: the type is no floating one, or the chunks of `b` end before those of
`a` and the walk for the first block of the result gets there. -/
def OptGemmStops (H : Headers) (a b : Container) (rows inner inner' cols : Axis) : Prop :=
  ¬ a.dtshape.dtype.isFloating ∨ (inner'.chunks < inner.chunks ∧
    ∀ q < inner'.chunks, GemmChunkStays H (gemmParams a b rows inner cols 0) 0 q)

namespace OptGemmRun

variable {E : Backend} {B : Blas} {H : Headers} {a b c : Container} {storage : Storage}
  {rows inner inner' cols : Axis} {p q t : Nat}

theorem pos (h : OptGemmRun a b storage rows inner inner' cols c) :
    0 < rows.shape ∧ 0 < inner.shape ∧ 0 < inner'.shape ∧ 0 < cols.shape := by
  have hA := h.leftPos
  have hB := h.rightPos
  rw [h.accepts.left] at hA
  rw [h.accepts.right] at hB
  exact ⟨hA _ (by simp), hA _ (by simp), hB _ (by simp), hB _ (by simp)⟩

theorem chunks_eq (h : OptGemmRun a b storage rows inner inner' cols c) :
    optGemmChunks E B H a b rows inner cols c.catarr =
      (List.range (rows.chunks * cols.chunks)).foldlM (fun cc q => do
        let chunk ← c.catarr.compress (gemmPrefilter E B H (gemmParams a b rows inner cols q))
        pure (cc.updateChunk q (chunkItems chunk))) c.catarr := by
  obtain ⟨hRows, hInner, -, hCols⟩ := h.pos
  simp only [optGemmChunks, idiv_extshape (rows.chunk_pos hRows),
    idiv_extshape (inner.chunk_pos hInner), idiv_extshape (cols.chunk_pos hCols),
    idiv_extchunkshape hInner, idiv_extchunkshape hCols, Result.ok_bind]
  rfl

theorem getLeft (h : OptGemmRun a b storage rows inner inner' cols c) (hp : p < rows.chunks)
    (hq : q < inner.chunks) : getLazychunk a.catarr (p * inner.chunks + q) = .ok () := by
  refine if_pos ?_
  simpa [CatArray.nchunks, h.accepts.left] using mul_add_lt hp hq

theorem getRight (h : OptGemmRun a b storage rows inner inner' cols c) (hq : q < inner'.chunks)
    (hp : p < cols.chunks) : getLazychunk b.catarr (q * cols.chunks + p) = .ok () := by
  refine if_pos ?_
  simpa [CatArray.nchunks, h.accepts.right] using mul_add_lt hq hp

/-- Behind the chunks of `b` there is none to be read. -/
theorem refused_behind (h : OptGemmRun a b storage rows inner inner' cols c) (p t : Nat)
    (out : Nat → Cell) :
    Refused (gemmChunkStep E B H (gemmParams a b rows inner cols p) t out inner'.chunks) := by
  have hMissing : getLazychunk b.catarr (inner'.chunks * cols.chunks + p % cols.chunks) =
      inaError .bloscFailed := by
    refine if_neg ?_
    simp [CatArray.nchunks, h.accepts.right]
  unfold gemmChunkStep gemmParams
  simp only [hMissing]
  exact ⟨_, rfl⟩

theorem blockStep_guarded (h : OptGemmRun a b storage rows inner inner' cols c) (p : Nat)
    (cIblock : Nat × Nat) (q : Nat) (out : Nat → Cell) (t : Nat) :
    Guarded (GemmBlockStays H (gemmParams a b rows inner cols p) cIblock q t)
      (gemmBlockStep E B H (gemmParams a b rows inner cols p) cIblock q out t) := by
  unfold gemmBlockStep GemmBlockStays gemmParams
  dsimp only
  split
  · rename_i hFlag
    exact .of_ok (by simp [hFlag]) _
  rename_i hLeft
  split
  · rename_i hFlag
    exact .of_ok (by simp [hFlag]) _
  rename_i hRight
  split
  · rename_i m k n hm hk hn
    rw [readBlock_ok h.left, readBlock_ok h.right, Result.ok_bind, Result.ok_bind]
    refine Guarded.congr ((operand_guarded _ _ _ _).bind fun _ => ⟨_, rfl⟩) ?_
    simp [hLeft, hRight, hm, hk, hn]
  · rename_i hNone
    exact .of_ok (fun _ _ m k n hm hk hn => absurd hn (hNone m k n hm hk)) _

theorem chunkStep_guarded (h : OptGemmRun a b storage rows inner inner' cols c)
    (hp : p < rows.chunks * cols.chunks) (t : Nat) (hq : q < inner.chunks) (hq' : q < inner'.chunks)
    (out : Nat → Cell) :
    Guarded (GemmChunkStays H (gemmParams a b rows inner cols p) t q)
      (gemmChunkStep E B H (gemmParams a b rows inner cols p) t out q) := by
  have hCol := chunks_pos h.pos.2.2.2
  have hLeft := h.getLeft ((Nat.div_lt_iff_lt_mul hCol).mpr hp) hq
  have hRight := h.getRight hq' (Nat.mod_lt p hCol)
  have hBlocks : ¬ cols.blocks = 0 := (blocks_pos h.pos.2.2.2).ne'
  unfold gemmChunkStep GemmChunkStays gemmParams
  simp only [hLeft, hRight, Result.ok_bind]
  by_cases hZeroB : H.chunkIsZeros b.catarr.sc (q * cols.chunks + p % cols.chunks) = true
  · rw [if_pos hZeroB]
    exact .of_ok (by simp [hZeroB]) _
  by_cases hZeroA : H.chunkIsZeros a.catarr.sc (p / cols.chunks * inner.chunks + q) = true
  · rw [if_neg hZeroB, if_pos hZeroA]
    exact .of_ok (by simp [hZeroA]) _
  rw [if_neg hZeroB, if_neg hZeroA, idiv, if_neg hBlocks, Result.ok_bind]
  refine Guarded.congr (.foldlM (fun t' _ s => h.blockStep_guarded p _ q s t') out) ?_
  simp [hZeroA, hZeroB, gemmParams]

/-- The product is refused exactly when its prefilter gives up. -/
theorem refused_iff (h : OptGemmRun a b storage rows inner inner' cols c) :
    Refused (optGemmChunks E B H a b rows inner cols c.catarr) ↔
      OptGemmStops H a b rows inner inner' cols := by
  obtain ⟨hRows, -, -, hCols⟩ := h.pos
  have hChunks : 0 < rows.chunks * cols.chunks := Nat.mul_pos (chunks_pos hRows) (chunks_pos hCols)
  rw [h.chunks_eq]
  exact refused_product_iff hChunks h.result (fun hInteger => ⟨_, if_neg hInteger⟩)
    (fun hFloat q t => gemmPrefilter_floating E B H q t hFloat)
    (fun q hq t i hi hi' out => h.chunkStep_guarded hq t hi hi' out) h.refused_behind

end OptGemmRun

/-! ## The optimised product of a matrix and a vector -/

/-- Operands without empty axes that pass the checks, and the array for their product. -/
structure OptGemvRun (a b : Container) (storage : Storage) (rows cols inner : Axis)
    (c : Container) : Prop where
  accepts : OptGemvAccepts a b storage rows cols inner
  left : a.catarr.Sized
  right : b.catarr.Sized
  leftPos : ∀ x ∈ a.catarr.axes, 0 < x.shape
  result : ∀ x ∈ c.catarr.axes, 0 < x.shape

/-- The parameters of the prefilter for chunk `q` of the result. -/
def gemvParams (a b : Container) (rows cols : Axis) (q : Nat) : GemvParams :=
  ⟨a, b, rows, cols, q, cols.chunks, cols.blocks⟩

theorem optGemvPrefilter_floating (E : Backend) (B : Blas) (H : Headers) {a b : Container}
    {rows cols : Axis} (q t : Nat) (hFloat : a.dtshape.dtype.isFloating) :
    optGemvPrefilter E B H (gemvParams a b rows cols q) t = (do
      let out ← (List.range cols.chunks).foldlM
        (gemvChunkStep E B H (gemvParams a b rows cols q) t) fun _ => .bits 0
      pure ((List.range rows.blockshape).map out)) :=
  if_pos hFloat

/-- Two blocks are left out, or the one of `b` holds what MKL reads of it. -/
def GemvBlockStays (H : Headers) (params : GemvParams) (cNblock bNchunk bNblock : Nat) : Prop :=
  H.blockIsZeros params.a.catarr.sc (params.cNchunk * params.chunksShape + bNchunk)
    (cNblock * params.blocksShape + bNblock) = false →
  H.blockIsZeros params.b.catarr.sc bNchunk bNblock = false →
  ∀ m n, currentBlockshape params.rows params.cNchunk cNblock = some m →
    currentBlockshape params.cols bNchunk bNblock = some n → BlockHolds params.a params.b n

/-- Two chunks are left out, or all of their blocks stay. -/
def GemvChunkStays (H : Headers) (params : GemvParams) (cNblock bNchunk : Nat) : Prop :=
  H.chunkIsZeros params.b.catarr.sc bNchunk = false →
  H.chunkIsZeros params.a.catarr.sc (params.cNchunk * params.chunksShape + bNchunk) = false →
  ∀ t < params.blocksShape, GemvBlockStays H params cNblock bNchunk t

/-- The prefilter gives up: the type is no floating one, or the chunks of `b` end before those of
`a` and the walk for the first block of the result gets there. -/
def OptGemvStops (H : Headers) (a b : Container) (rows cols inner : Axis) : Prop :=
  ¬ a.dtshape.dtype.isFloating ∨ (inner.chunks < cols.chunks ∧
    ∀ q < inner.chunks, GemvChunkStays H (gemvParams a b rows cols 0) 0 q)

namespace OptGemvRun

variable {E : Backend} {B : Blas} {H : Headers} {a b c : Container} {storage : Storage}
  {rows cols inner : Axis} {p q t : Nat}

theorem pos (h : OptGemvRun a b storage rows cols inner c) :
    0 < rows.shape ∧ 0 < cols.shape := by
  have hA := h.leftPos
  rw [h.accepts.left] at hA
  exact ⟨hA _ (by simp), hA _ (by simp)⟩

theorem chunks_eq (h : OptGemvRun a b storage rows cols inner c) :
    optGemvChunks E B H a b rows cols c.catarr =
      (List.range rows.chunks).foldlM (fun cc q => do
        let chunk ← c.catarr.compress (optGemvPrefilter E B H (gemvParams a b rows cols q))
        pure (cc.updateChunk q (chunkItems chunk))) c.catarr := by
  obtain ⟨hRows, hCols⟩ := h.pos
  simp only [optGemvChunks, idiv_extshape (rows.chunk_pos hRows),
    idiv_extshape (cols.chunk_pos hCols), idiv_extchunkshape hRows, idiv_extchunkshape hCols,
    Result.ok_bind]
  rfl

theorem getLeft (h : OptGemvRun a b storage rows cols inner c) (hp : p < rows.chunks)
    (hq : q < cols.chunks) : getLazychunk a.catarr (p * cols.chunks + q) = .ok () := by
  refine if_pos ?_
  simpa [CatArray.nchunks, h.accepts.left] using mul_add_lt hp hq

theorem getRight (h : OptGemvRun a b storage rows cols inner c) (hq : q < inner.chunks) :
    getLazychunk b.catarr q = .ok () := by
  refine if_pos ?_
  simpa [CatArray.nchunks, h.accepts.right] using hq

/-- Behind the chunks of `b` there is none to be read. -/
theorem refused_behind (h : OptGemvRun a b storage rows cols inner c) (p t : Nat)
    (out : Nat → Cell) :
    Refused (gemvChunkStep E B H (gemvParams a b rows cols p) t out inner.chunks) := by
  have hMissing : getLazychunk b.catarr inner.chunks = inaError .bloscFailed := by
    refine if_neg ?_
    simp [CatArray.nchunks, h.accepts.right]
  unfold gemvChunkStep gemvParams
  simp only [hMissing]
  exact ⟨_, rfl⟩

theorem blockStep_guarded (h : OptGemvRun a b storage rows cols inner c) (p ib q : Nat)
    (out : Nat → Cell) (t : Nat) :
    Guarded (GemvBlockStays H (gemvParams a b rows cols p) ib q t)
      (gemvBlockStep E B H (gemvParams a b rows cols p) ib q out t) := by
  unfold gemvBlockStep GemvBlockStays gemvParams
  dsimp only
  split
  · rename_i hFlag
    exact .of_ok (by simp [hFlag]) _
  rename_i hLeft
  split
  · rename_i hFlag
    exact .of_ok (by simp [hFlag]) _
  rename_i hRight
  split
  · rename_i m n hm hn
    rw [readBlock_ok h.left, readBlock_ok h.right, Result.ok_bind, Result.ok_bind]
    refine Guarded.congr ((operand_guarded _ _ _ _).bind fun _ => ⟨_, rfl⟩) ?_
    simp [hLeft, hRight, hm, hn]
  · rename_i hNone
    exact .of_ok (fun _ _ m n hm hn => absurd hn (hNone m n hm)) _

theorem chunkStep_guarded (h : OptGemvRun a b storage rows cols inner c) (hp : p < rows.chunks)
    (t : Nat) (hq : q < cols.chunks) (hq' : q < inner.chunks) (out : Nat → Cell) :
    Guarded (GemvChunkStays H (gemvParams a b rows cols p) t q)
      (gemvChunkStep E B H (gemvParams a b rows cols p) t out q) := by
  have hLeft := h.getLeft hp hq
  have hRight := h.getRight hq'
  unfold gemvChunkStep GemvChunkStays gemvParams
  simp only [hLeft, hRight, Result.ok_bind]
  by_cases hZeroB : H.chunkIsZeros b.catarr.sc q = true
  · rw [if_pos hZeroB]
    exact .of_ok (by simp [hZeroB]) _
  by_cases hZeroA : H.chunkIsZeros a.catarr.sc (p * cols.chunks + q) = true
  · rw [if_neg hZeroB, if_pos hZeroA]
    exact .of_ok (by simp [hZeroA]) _
  rw [if_neg hZeroB, if_neg hZeroA]
  refine Guarded.congr (.foldlM (fun t' _ s => h.blockStep_guarded p t q s t') out) ?_
  simp [hZeroA, hZeroB, gemvParams]

/-- The product is refused exactly when its prefilter gives up. -/
theorem refused_iff (h : OptGemvRun a b storage rows cols inner c) :
    Refused (optGemvChunks E B H a b rows cols c.catarr) ↔ OptGemvStops H a b rows cols inner := by
  rw [h.chunks_eq]
  exact refused_product_iff (chunks_pos h.pos.1) h.result (fun hInteger => ⟨_, if_neg hInteger⟩)
    (fun hFloat q t => optGemvPrefilter_floating E B H q t hFloat)
    (fun q hq t i hi hi' out => h.chunkStep_guarded hq t hi hi' out) h.refused_behind

end OptGemvRun

/-! ## The product through panels -/

/-- Operands without empty axes that pass the checks, and the array for their product. -/
structure MatmulRun (a b : Container) (storage : Storage) (c : Container) (A A' : NdArray Cell) :
    Prop where
  accepts : MatmulAccepts a b storage
  left : Known a A
  right : Known b A'
  leftPos : ∀ n ∈ a.dtshape.shape, 0 < n
  rightPos : ∀ n ∈ b.dtshape.shape, 0 < n
  result : PlainOf (matmulDtshape a b) storage c

theorem not_refused_prefilterBlockInfo (c : CatArray) (nblock : Nat) :
    ¬ Refused (prefilterBlockInfo c nblock) := by
  refine Result.not_refused_bind (Result.not_refused_mapM fun _ _ => not_refused_idiv _ _)
    fun _ _ => ?_
  exact Result.not_refused_bind (not_refused_idiv _ _) fun _ _ => Result.not_refused_ok _

theorem not_refused_ignoreCode (buffer : Nat → Cell) (result : Result (Nat → Cell)) :
    ¬ Refused (ignoreCode buffer result) := by
  unfold ignoreCode
  split
  · exact Result.not_refused_ok _
  · exact Result.not_refused_ok _
  · exact Result.not_refused_crash _

theorem not_refused_cacheColumn (E : Backend) (b c : Container) (y : Axis)
    (elemIndex chunkShape : List Nat) (chunkIndex : Nat) (state : GemmState) :
    ¬ Refused (cacheColumn E b c y elemIndex chunkShape chunkIndex state) := by
  unfold cacheColumn
  dsimp only
  split
  · exact Result.not_refused_ok _
  · refine Result.not_refused_bind (not_refused_ignoreCode _ _) fun _ _ => ?_
    refine Result.not_refused_bind ?_ fun _ _ => Result.not_refused_ok _
    refine Result.not_refused_bind (not_refused_idiv _ _) fun _ _ => ?_
    split
    · exact Result.not_refused_crash _
    · exact Result.not_refused_ok _

/-- A vector is read whole. -/
theorem Known.readVector {E : Backend} {b : Container} {A : NdArray Cell} {k ext : Nat}
    (hE : E.Lawful) (h : Known b A) (hShape : b.dtshape.shape = [k]) (hk : 0 < k) (hExt : k ≤ ext)
    (buffer : Nat → Cell) :
    ∃ cache, _iarrayGetSliceBuffer E b (ints [0]) (ints [k]) (ints [ext]) buffer
      (ext * b.catarr.itemsize : Nat) = .ok cache := by
  have hA : A.shape = [k] := h.shape.symm.trans hShape
  have hTransposed : ¬ b.transposed = true := by
    intro hTransposed
    have hNdim := (h.showsTransposed hTransposed).ndim
    rw [hA] at hNdim
    exact absurd hNdim (by simp)
  have hRegion : Region [0] [k] A.shape := by
    rw [hA]
    exact ⟨rfl, rfl, .cons (Nat.zero_add k).le .nil⟩
  have hSel := selects_ints hRegion
  rw [show addIdx [0] [k] = [k] by simp] at hSel
  have hLen : (([ext].prod * b.dtshape.dtypeSize : Nat) : Int) ≤
      (ext * b.catarr.itemsize : Nat) := by
    rw [h.itemsize]
    simp
  obtain ⟨cache, hRead, -⟩ := h.readInto buffer hE (fun hT => absurd hT hTransposed) hSel
    (by simpa using hk) (.cons hExt .nil) hLen
  exact ⟨cache, hRead⟩

/-- A vector that is longer than its buffer is not read. -/
theorem Known.vector_refused {E : Backend} {b : Container} {A : NdArray Cell} {k ext : Nat}
    (hSmall : E.RefusesSmall) (h : Known b A) (hShape : b.dtshape.shape = [k]) (hExt : ext < k)
    (buffer : Nat → Cell) :
    Refused (_iarrayGetSliceBuffer E b (ints [0]) (ints [k]) (ints [ext]) buffer
      (ext * b.catarr.itemsize : Nat)) := by
  have hA : A.shape = [k] := h.shape.symm.trans hShape
  have hTransposed : b.transposed = false := by
    cases hTransposed : b.transposed with
    | false => rfl
    | true =>
      have hNdim := (h.showsTransposed hTransposed).ndim
      rw [hA] at hNdim
      exact absurd hNdim (by simp)
  obtain ⟨mask, off, ws, hShows⟩ := h.shows hTransposed
  have hRegion : Region [0] [k] A.shape := by
    rw [hA]
    exact ⟨rfl, rfl, .cons (Nat.zero_add k).le .nil⟩
  have hSel := selects_ints hRegion
  rw [show addIdx [0] [k] = [k] by simp] at hSel
  have hCount : mask.count false = 1 := by rw [← hShows.shape_length, hA]; rfl
  have hEq := hShows.getSliceBuffer_eq (E := E) (m := [ext]) buffer
    (ext * b.catarr.itemsize : Nat) hSel hCount.symm b.containerViewed (a := b.catarr) rfl
  have hLen : ¬ ((ext * b.catarr.itemsize : Nat) : Int) <
      (([ext] : List Nat).prod * b.dtshape.dtypeSize : Nat) := by
    rw [h.itemsize]
    simp
  rw [if_neg hLen] at hEq
  have hStore := hShows.storeRegion hSel.region
  refine hEq ▸ hSmall (hStore.start_length.trans hStore.length.symm) fun hFits => ?_
  have hKeep := @forall₂_keep _ mask _ _ hFits
  rw [@keep_spread Nat 1 mask [k] hCount.symm, @keep_spread Nat 1 mask [ext] hCount.symm] at hKeep
  have hLe := (List.forall₂_cons.mp hKeep).1
  omega

/-- The panel of `b` is read or its code is dropped. -/
theorem Known.columns_ignored {E : Backend} {b : Container} {A : NdArray Cell} {y : Axis} {k q : Nat}
    (hE : E.Lawful) (h : Known b A) (hShape : b.dtshape.shape = [k, y.shape])
    (hInteger : ¬ b.dtshape.dtype.isFloating) (hk : 0 < k) (hq : q < y.chunks)
    (buffer : Nat → Cell) :
    ∃ aux, ignoreCode buffer (_iarrayGetSliceBuffer E b (ints [0, q * y.chunkshape])
      (ints [k, q * y.chunkshape + y.part q]) (ints [k, y.extchunkshape]) buffer
      (k * y.extchunkshape * b.dtshape.dtypeSize : Nat)) = .ok aux := by
  have hA : A.shape = [k, y.shape] := h.shape.symm.trans hShape
  have hRegion : Region [0, q * y.chunkshape] [k, y.part q] A.shape := by
    rw [hA]
    exact ⟨rfl, rfl, .cons (Nat.zero_add k).le (.cons (part_inside hq) .nil)⟩
  have hSel := selects_ints hRegion
  rw [show addIdx [0, q * y.chunkshape] [k, y.part q] = [k, q * y.chunkshape + y.part q] by
    simp] at hSel
  have hPos : ∀ n ∈ [k, y.part q], 0 < n := by simpa using ⟨hk, part_pos hq⟩
  have hFits : List.Forall₂ (· ≤ ·) [k, y.part q] [k, y.extchunkshape] :=
    .cons (Nat.le_refl _) (.cons (part_le_ext hq) .nil)
  have hLen : (([k, y.extchunkshape].prod * b.dtshape.dtypeSize : Nat) : Int) ≤
      (k * y.extchunkshape * b.dtshape.dtypeSize : Nat) := by simp
  by_cases hTransposed : b.transposed = true
  · rw [h.refused buffer hE hTransposed hInteger hSel hPos hFits hLen]
    exact ⟨buffer, rfl⟩
  · obtain ⟨aux, hRead, -⟩ := h.readInto buffer hE (fun hT => absurd hT hTransposed) hSel hPos hFits
      hLen
    rw [hRead]
    exact ⟨aux, rfl⟩

/-- The rows of a transposed matrix of other than floating data are not read. -/
theorem Known.rows_refused {E : Backend} {a : Container} {A : NdArray Cell} {x : Axis} {k q : Nat}
    (hE : E.Lawful) (h : Known a A) (hShape : a.dtshape.shape = [x.shape, k])
    (hTransposed : a.transposed) (hInteger : ¬ a.dtshape.dtype.isFloating) (hk : 0 < k)
    (hq : q < x.chunks) (buffer : Nat → Cell) :
    _iarrayGetSliceBuffer E a (ints [q * x.chunkshape, 0])
      (ints [q * x.chunkshape + x.part q, k]) (ints [x.extchunkshape, k]) buffer
      (x.extchunkshape * k * a.dtshape.dtypeSize : Nat) = inaError .invalidDtype := by
  have hA : A.shape = [x.shape, k] := h.shape.symm.trans hShape
  have hRegion : Region [q * x.chunkshape, 0] [x.part q, k] A.shape := by
    rw [hA]
    exact ⟨rfl, rfl, .cons (part_inside hq) (.cons (Nat.zero_add k).le .nil)⟩
  have hSel := selects_ints hRegion
  rw [show addIdx [q * x.chunkshape, 0] [x.part q, k] = [q * x.chunkshape + x.part q, k] by
    simp] at hSel
  exact h.refused buffer hE hTransposed hInteger hSel (by simpa using ⟨part_pos hq, hk⟩)
    (.cons (part_le_ext hq) (.cons (Nat.le_refl _) .nil)) (by simp)

namespace MatmulRun

variable {E : Backend} {B : Blas} {a b c : Container} {storage : Storage} {A A' : NdArray Cell}
  {x y : Axis} {m k n q : Nat}

theorem shape (h : MatmulRun a b storage c A A') :
    ∃ m k, a.dtshape.shape = [m, k] ∧ 0 < m ∧ 0 < k := by
  obtain ⟨m, k, hShape⟩ := List.length_eq_two.mp h.accepts.left
  have hPos := h.leftPos
  rw [hShape] at hPos
  exact ⟨m, k, hShape, hPos m (by simp), hPos k (by simp)⟩

theorem itemsize (h : MatmulRun a b storage c A A') :
    c.catarr.itemsize = a.dtshape.dtypeSize ∧ c.catarr.itemsize = b.dtshape.dtypeSize := by
  rw [h.result.plain.fresh.itemsize, h.result.dtshape]
  exact ⟨rfl, congrArg Dtype.size h.accepts.dtype⟩

/-- The geometry of the product of two matrices. -/
theorem matrix (h : MatmulRun a b storage c A A') (hRank : b.dtshape.ndim = 2) :
    ∃ x y k, c.catarr.axes = [x, y] ∧ a.dtshape.shape = [x.shape, k] ∧
      b.dtshape.shape = [k, y.shape] ∧ 0 < x.shape ∧ 0 < k ∧ 0 < y.shape := by
  obtain ⟨m, k, hA, hm, hk⟩ := h.shape
  obtain ⟨k', n, hB⟩ := List.length_eq_two.mp hRank
  have hn : 0 < n := h.rightPos n (by simp [hB])
  obtain rfl : k = k' := by simpa [hA, hB] using h.accepts.shape
  have hShape := h.result.plain.fresh.shape
  rw [h.result.dtshape, matmulDtshape, hRank, hA, hB] at hShape
  obtain ⟨x, y, hAxes⟩ := List.length_eq_two.mp
    ((length_shapeOf c.catarr.axes).symm.trans (congrArg List.length hShape))
  rw [CatArray.shape, hAxes] at hShape
  simp only [shapeOf_cons, shapeOf_nil] at hShape
  obtain ⟨rfl, rfl⟩ : x.shape = m ∧ y.shape = n := by simpa using hShape
  exact ⟨x, y, k, hAxes, hA, hB, hm, hk, hn⟩

/-- The geometry of the product of a matrix and a vector. -/
theorem vector (h : MatmulRun a b storage c A A') (hRank : b.dtshape.ndim = 1) :
    ∃ x inner rest k, c.catarr.axes = [x] ∧ b.catarr.axes = inner :: rest ∧
      a.dtshape.shape = [x.shape, k] ∧ b.dtshape.shape = [k] ∧ 0 < x.shape ∧ 0 < k := by
  obtain ⟨m, k, hA, hm, hk⟩ := h.shape
  obtain ⟨k', hB⟩ := List.length_eq_one_iff.mp hRank
  obtain rfl : k = k' := by simpa [hA, hB] using h.accepts.shape
  have hShape := h.result.plain.fresh.shape
  rw [h.result.dtshape, matmulDtshape, hRank, hA] at hShape
  obtain ⟨x, hAxes⟩ := List.length_eq_one_iff.mp
    ((length_shapeOf c.catarr.axes).symm.trans (congrArg List.length hShape))
  rw [CatArray.shape, hAxes] at hShape
  simp only [shapeOf_cons, shapeOf_nil] at hShape
  obtain rfl : x.shape = m := by simpa using hShape
  have hNdim := h.right.ndim_le
  rw [← h.right.shape, hB] at hNdim
  obtain ⟨inner, rest, hAxesB⟩ := List.exists_cons_of_length_pos hNdim
  exact ⟨x, inner, rest, k, hAxes, hAxesB, hA, hB, hm, hk⟩

/-- The loop of the product of two matrices. -/
theorem gemmBlosc_eq (hAxes : c.catarr.axes = [x, y]) (hx : 0 < x.shape) (hy : 0 < y.shape) :
    gemmBlosc E B a b c = ((List.range (x.chunks * y.chunks)).foldlM
      (gemmBloscStep E B a b c x y x.chunks y.chunks) ⟨-1, E.malloc, E.malloc, fun _ => 0, c.catarr⟩
      >>= fun state => pure (state.c.reorderOffsets state.chunkOrder)) := by
  have hChunks : idiv (c.catarr.axes.map Axis.extshape).prod c.catarr.chunkshape.prod =
      .ok (x.chunks * y.chunks) := by
    have hPos : ∀ z ∈ c.catarr.axes, 0 < z.chunkshape := by
      rw [hAxes]
      simpa using ⟨x.chunk_pos hx, y.chunk_pos hy⟩
    rw [CatArray.chunkshape, CatArray.prod_extshape hPos, hAxes]
    simp
  rw [gemmBlosc, hAxes]
  rw [hAxes] at hChunks
  simp only [idiv_extshape (x.chunk_pos hx), idiv_extshape (y.chunk_pos hy), hChunks, Result.ok_bind]

theorem gemmBloscStep_eq (hAxes : c.catarr.axes = [x, y]) (hA : a.dtshape.shape = [x.shape, k])
    (state : GemmState) (q : Nat) :
    gemmBloscStep E B a b c x y x.chunks y.chunks state q = (do
      let cached ← cacheColumn E b c y [q % x.chunks * x.chunkshape, q / x.chunks * y.chunkshape]
        [x.part (q % x.chunks), y.part (q / x.chunks)] (q / x.chunks) state
      let cacheA ← _iarrayGetSliceBuffer E a (ints [q % x.chunks * x.chunkshape, 0])
        (ints [q % x.chunks * x.chunkshape + x.part (q % x.chunks), k]) (ints [x.extchunkshape, k])
        cached.cacheA (x.extchunkshape * k * c.catarr.itemsize : Nat)
      let chunk ← c.catarr.compress (gemmBloscPrefilter E B ⟨a, b, c, cacheA, cached.cacheB⟩)
      pure { cached with
        cacheA := cacheA
        chunkOrder := Function.update cached.chunkOrder
          (q / x.chunks + q % x.chunks * y.chunks) q
        c := cached.c.updateChunk q (chunkItems chunk) }) := by
  have hElem : List.zipWith (· * ·) [q % x.chunks, q / x.chunks] c.catarr.chunkshape =
      [q % x.chunks * x.chunkshape, q / x.chunks * y.chunkshape] := by
    simp [CatArray.chunkshape, chunkshapeOf, hAxes]
  have hPart : chunkShapeAt c.catarr.axes [q % x.chunks, q / x.chunks] =
      [x.part (q % x.chunks), y.part (q / x.chunks)] := by
    rw [hAxes]
    rfl
  unfold gemmBloscStep
  dsimp only
  rw [hElem, hPart, hA]
  rfl

/-- The panel of `b` is cached when the counter of its rows fits an `int`, and caching it for the
first time is undefined otherwise. -/
theorem cacheColumn_guarded (hE : E.Lawful) (h : MatmulRun a b storage c A A')
    (hInteger : ¬ a.dtshape.dtype.isFloating) (hB : b.dtshape.shape = [k, y.shape]) (hk : 0 < k)
    (hq : q < y.chunks) (state : GemmState) (start part : List Nat)
    (hStart : start.getD 1 0 = q * y.chunkshape) (hPart : part.getD 1 0 = y.part q)
    (hNew : state.chunkRow ≠ q) :
    Guarded (k < 2 ^ 31) (cacheColumn E b c y start part q state) := by
  obtain ⟨aux, hAux⟩ := h.right.columns_ignored hE hB (h.accepts.dtype ▸ hInteger) hk hq
    state.cacheA
  have hBlock := y.block_pos (shape_pos_of_lt_chunks hq)
  have hLength : b.dtshape.shape.getD 0 0 = k := by rw [hB]; rfl
  unfold cacheColumn
  simp only [if_neg hNew, hStart, hPart, hLength, h.itemsize.2, hAux, Result.ok_bind,
    gemmRepartCaches, idiv, if_neg hBlock.ne']
  split
  · rename_i hLong
    exact .of_crash (Nat.not_lt.mpr hLong) _
  · rename_i hShort
    exact .of_ok (Nat.not_le.mp hShort) _

/-- The product of two matrices of other than floating data is refused exactly when the left one is
a transposed view, and the counter of its columns does not overflow before. -/
theorem refused_gemm_iff (hE : E.Lawful) (h : MatmulRun a b storage c A A')
    (hInteger : ¬ a.dtshape.dtype.isFloating) (hRank : b.dtshape.ndim = 2) :
    Refused (gemmBlosc E B a b c) ↔ a.transposed ∧ a.dtshape.shape.getD 1 0 < 2 ^ 31 := by
  obtain ⟨x, y, k, hAxes, hA, hB, hx, hk, hy⟩ := h.matrix hRank
  have hLength : a.dtshape.shape.getD 1 0 = k := by rw [hA]; rfl
  have hChunks : 0 < x.chunks * y.chunks := Nat.mul_pos (chunks_pos hx) (chunks_pos hy)
  rw [gemmBlosc_eq hAxes hx hy, refused_bind_pure, hLength]
  by_cases hTransposed : a.transposed = true
  swap
  · refine ⟨fun hRefused => absurd hRefused ?_, fun hStops => absurd hStops.1 hTransposed⟩
    refine Result.not_refused_foldlM (fun q hq state => ?_) _
    rw [gemmBloscStep_eq hAxes hA]
    refine Result.not_refused_bind (not_refused_cacheColumn _ _ _ _ _ _ _ _) fun cached _ => ?_
    obtain ⟨cacheA, hRead, -⟩ := h.left.readRows hE hA (fun hT => absurd hT hTransposed) hk
      (Nat.mod_lt q (chunks_pos hx)) cached.cacheA
    rw [h.itemsize.1, hRead, Result.ok_bind]
    refine Result.not_refused_bind (CatArray.not_refused_compress fun t => ?_)
      fun _ _ => Result.not_refused_ok _
    exact Result.not_refused_bind (not_refused_prefilterBlockInfo _ _) fun _ _ =>
      Result.not_refused_ok _
  obtain ⟨rest, hSplit⟩ := Result.range_split hChunks
  have hFirst := h.cacheColumn_guarded hE hInteger hB hk (chunks_pos hy)
    ⟨-1, E.malloc, E.malloc, fun _ => 0, c.catarr⟩ [0 % x.chunks * x.chunkshape, 0 * y.chunkshape]
    [x.part (0 % x.chunks), y.part 0] rfl rfl (show (-1 : Int) ≠ (0 : Nat) by decide)
  rw [hSplit, List.range_zero, List.nil_append, List.foldlM_cons, gemmBloscStep_eq hAxes hA,
    Nat.zero_div]
  refine ⟨fun hRefused => ⟨hTransposed, ?_⟩, fun hStops => ?_⟩
  · by_contra hLong
    exact Result.not_refused_of_crash
      (Result.crash_bind (Result.crash_bind (hFirst.2 hLong) _) _) hRefused
  · obtain ⟨cached, hCached⟩ := hFirst.1 hStops.2
    refine Result.refused_bind ?_ _
    rw [hCached, Result.ok_bind, h.itemsize.1, h.left.rows_refused hE hA hTransposed hInteger hk
      (Nat.mod_lt 0 (chunks_pos hx))]
    exact ⟨_, rfl⟩

/-- The product of a matrix and a vector of other than floating data is refused exactly when the
matrix is a transposed view or the vector does not fit the first axis of its array. -/
theorem refused_gemv_iff (hE : E.Lawful) (hSmall : E.RefusesSmall)
    (h : MatmulRun a b storage c A A') (hInteger : ¬ a.dtshape.dtype.isFloating)
    (hRank : b.dtshape.ndim = 1) :
    Refused (gemvBlosc E B a b c) ↔ a.transposed ∨
      (b.catarr.axes.map Axis.extshape).getD 0 0 < b.dtshape.shape.getD 0 0 := by
  obtain ⟨x, inner, rest, k, hAxes, hAxesB, hA, hB, hx, hk⟩ := h.vector hRank
  have hLength : b.dtshape.shape.getD 0 0 = k := by rw [hB]; rfl
  have hFirst : (b.catarr.axes.map Axis.extshape).getD 0 0 = inner.extshape := by rw [hAxesB]; rfl
  have hChunks : idiv (c.catarr.axes.map Axis.extshape).prod c.catarr.chunkshape.prod =
      .ok x.chunks := by
    have hPos : ∀ z ∈ c.catarr.axes, 0 < z.chunkshape := by
      rw [hAxes]
      simpa using x.chunk_pos hx
    rw [CatArray.chunkshape, CatArray.prod_extshape hPos, hAxes]
    simp
  rw [hFirst, hLength, gemvBlosc, hAxes, hAxesB]
  dsimp only
  rw [← hAxes, hLength]
  rcases Nat.lt_or_ge inner.extshape k with hShort | hEnough
  · exact ⟨fun _ => .inr hShort, fun _ =>
      Result.refused_bind (h.right.vector_refused hSmall hB hShort E.malloc) _⟩
  obtain ⟨cacheB, hVector⟩ := h.right.readVector hE hB hk hEnough E.malloc
  have hOther : ¬ inner.extshape < k := Nat.not_lt.mpr hEnough
  rw [hVector, Result.ok_bind, hChunks, Result.ok_bind, refused_bind_pure, or_iff_left hOther]
  have hPart : ∀ q, (chunkShapeAt c.catarr.axes [q]).getD 0 0 = x.part q := by
    intro q
    rw [hAxes]
    rfl
  have hInner : a.dtshape.shape.getD 1 0 = k := by rw [hA]; rfl
  by_cases hTransposed : a.transposed = true
  · refine ⟨fun _ => hTransposed, fun _ => ?_⟩
    refine Result.refused_foldlM (chunks_pos hx) (by omega) (fun state => ?_) _
    unfold gemvBloscStep
    simp only [hPart, hInner, h.itemsize.1, h.left.rows_refused hE hA hTransposed hInteger hk
      (chunks_pos hx) state.cacheA]
    exact ⟨_, rfl⟩
  · refine ⟨fun hRefused => absurd hRefused ?_, fun hStops => absurd hStops hTransposed⟩
    refine Result.not_refused_foldlM (fun q hq state => ?_) _
    obtain ⟨cacheA, hRead, -⟩ := h.left.readRows hE hA (fun hT => absurd hT hTransposed) hk
      (List.mem_range.mp hq) state.cacheA
    unfold gemvBloscStep
    simp only [hPart, hInner, h.itemsize.1, hRead, Result.ok_bind]
    refine Result.not_refused_bind (CatArray.not_refused_compress fun t => ?_)
      fun _ _ => Result.not_refused_ok _
    exact Result.not_refused_bind (not_refused_prefilterBlockInfo _ _) fun _ _ =>
      Result.not_refused_ok _

end MatmulRun

/-! ## When the products validate -/

def optGemmDtshape (a b : Container) : Dtshape :=
  ⟨a.dtshape.dtype, [a.dtshape.shape.getD 0 0, b.dtshape.shape.getD 1 0]⟩

def optGemvDtshape (a : Container) : Dtshape := ⟨a.dtshape.dtype, [a.dtshape.shape.getD 0 0]⟩

/-- Where a product validates: the operands fit, a check refuses them, the result cannot be made,
or what follows gives up. -/
def ProductValidates (fits accepts : Prop) (made : Result Container) (stops : Prop) : Prop :=
  fits ∨ ¬ accepts ∨ Refused made ∨ (stops ∧ ∃ c, made = .ok c)

/-- The operands of `iarray_linalg_matmul` cannot be read: the matrix is a transposed view of other
than floating data, or the vector does not fit the first axis of its array. -/
def MatmulStops (a b : Container) : Prop :=
  ¬ a.dtshape.dtype.isFloating ∧
    ((b.dtshape.ndim = 2 ∧ a.transposed ∧ a.dtshape.shape.getD 1 0 < 2 ^ 31) ∨
      (b.dtshape.ndim = 1 ∧ (a.transposed ∨
        (b.catarr.axes.map Axis.extshape).getD 0 0 < b.dtshape.shape.getD 0 0)))

def MatmulValidates (E : Backend) (a b : Container) (storage : Storage) : Prop :=
  ProductValidates (Multipliable (fun n => n = 1 ∨ n = 2) a b) (MatmulAccepts a b storage)
    (iarrayEmpty E (matmulDtshape a b) storage) (RunOperands E a b ∧ MatmulStops a b)

def OptGemmValidates (E : Backend) (H : Headers) (a b : Container) (storage : Storage) : Prop :=
  ProductValidates (Multipliable (· = 2) a b)
    (∃ rows inner inner' cols, OptGemmAccepts a b storage rows inner inner' cols)
    (iarrayEmpty E (optGemmDtshape a b) storage)
    (RunOperands E a b ∧ (a.dtshape.ndim = 2 ∧ b.dtshape.ndim = 2) ∧ ∃ rows inner inner' cols,
      OptGemmAccepts a b storage rows inner inner' cols ∧ OptGemmStops H a b rows inner inner' cols)

def OptGemvValidates (E : Backend) (H : Headers) (a b : Container) (storage : Storage) : Prop :=
  ProductValidates (Multipliable (· = 1) a b)
    (∃ rows cols inner, OptGemvAccepts a b storage rows cols inner)
    (iarrayEmpty E (optGemvDtshape a) storage)
    (RunOperands E a b ∧ a.dtshape.ndim = 2 ∧ ∃ rows cols inner,
      OptGemvAccepts a b storage rows cols inner ∧ OptGemvStops H a b rows cols inner)

section

variable {E : Backend} {B : Blas} {H : Headers} {a b c : Container} {storage : Storage}
  {rows cols inner inner' : Axis}

/-- A product that makes its result and fills it. -/
theorem validates_of {fits accepts stops : Prop} {made r : Result Container}
    {fill : Container → Result CatArray} (hChecks : ¬ accepts → Refused r)
    (hEq : accepts → r = made >>= fun c => fill c >>= fun catarr => pure { c with catarr := catarr })
    (hStops : accepts → stops → ∀ c, made = .ok c → Refused (fill c))
    (h : ProductValidates fits accepts made stops) : Validates fits r := by
  by_cases hAccepts : accepts
  swap
  · exact .inr (hChecks hAccepts)
  rcases h with hFits | hNot | hRefused | ⟨hStop, c, hc⟩
  · exact .inl hFits
  · exact absurd hAccepts hNot
  · rw [hEq hAccepts]
    exact .inr (Result.refused_bind hRefused _)
  · rw [hEq hAccepts, hc, Result.ok_bind]
    exact .inr (Result.refused_bind (hStops hAccepts hStop c hc) _)

theorem productValidates_of {fits accepts stops : Prop} {made r : Result Container}
    {fill : Container → Result CatArray}
    (hEq : accepts → r = made >>= fun c => fill c >>= fun catarr => pure { c with catarr := catarr })
    (hStops : accepts → ∀ c, made = .ok c → Refused (fill c) → stops)
    (h : Validates fits r) : ProductValidates fits accepts made stops := by
  rcases h with hFits | hRefused
  · exact .inl hFits
  by_cases hAccepts : accepts
  swap
  · exact .inr (.inl hAccepts)
  by_cases hMade : Refused made
  · exact .inr (.inr (.inl hMade))
  rw [hEq hAccepts] at hRefused
  by_contra hNot
  refine Result.not_refused_bind hMade (fun c hc => ?_) hRefused
  refine Result.not_refused_bind (fun hFill => hNot ?_) fun _ _ => Result.not_refused_ok _
  exact .inr (.inr (.inr ⟨hStops hAccepts c hc hFill, c, hc⟩))

/-- The lengths of a new array are those that it was made with. -/
theorem made_pos {d : Dtshape} (hE : E.Lawful) (hPos : ∀ n ∈ d.shape, 0 < n)
    (hc : iarrayEmpty E d storage = .ok c) : ∀ x ∈ c.catarr.axes, 0 < x.shape := by
  intro x hx
  have hPlain := iarrayEmpty_plain hE hc
  have hShape := hPlain.plain.fresh.shape
  rw [hPlain.dtshape] at hShape
  exact hPos _ (hShape ▸ List.mem_map_of_mem hx)

theorem OptGemmAccepts.run (hE : E.Lawful) (h : OptGemmAccepts a b storage rows inner inner' cols)
    (hRun : RunOperands E a b) (hRank : a.dtshape.ndim = 2 ∧ b.dtshape.ndim = 2)
    (hc : iarrayEmpty E (optGemmDtshape a b) storage = .ok c) :
    OptGemmRun a b storage rows inner inner' cols c := by
  obtain ⟨hLeft, hLeftPos⟩ := sized_of_run hE hRun.left hRun.leftPos
  obtain ⟨hRight, hRightPos⟩ := sized_of_run hE hRun.right hRun.rightPos
  refine ⟨h, hLeft, hRight, hLeftPos, hRightPos, made_pos hE ?_ hc⟩
  obtain ⟨m, k, hA⟩ := List.length_eq_two.mp hRank.1
  obtain ⟨k', l, hB⟩ := List.length_eq_two.mp hRank.2
  have hm := hRun.leftPos m (by simp [hA])
  have hl := hRun.rightPos l (by simp [hB])
  simpa [optGemmDtshape, hA, hB] using ⟨hm, hl⟩

theorem OptGemvAccepts.run (hE : E.Lawful) (h : OptGemvAccepts a b storage rows cols inner)
    (hRun : RunOperands E a b) (hRank : a.dtshape.ndim = 2)
    (hc : iarrayEmpty E (optGemvDtshape a) storage = .ok c) :
    OptGemvRun a b storage rows cols inner c := by
  obtain ⟨hLeft, hLeftPos⟩ := sized_of_run hE hRun.left hRun.leftPos
  obtain ⟨hRight, -⟩ := sized_of_run hE hRun.right hRun.rightPos
  refine ⟨h, hLeft, hRight, hLeftPos, made_pos hE ?_ hc⟩
  obtain ⟨m, k, hA⟩ := List.length_eq_two.mp hRank
  have hm := hRun.leftPos m (by simp [hA])
  simpa [optGemvDtshape, hA] using hm

/-- What the product through panels does with operands that its checks let pass. -/
theorem matmulArray_refused_iff (hE : E.Lawful) (hSmall : E.RefusesSmall)
    (hAccepts : MatmulAccepts a b storage) (hRun : RunOperands E a b)
    (hInteger : ¬ a.dtshape.dtype.isFloating)
    (hc : iarrayEmpty E (matmulDtshape a b) storage = .ok c) :
    Refused (matmulArray E B a b c) ↔ MatmulStops a b := by
  obtain ⟨A, hLeft⟩ := hRun.left
  obtain ⟨A', hRight⟩ := hRun.right
  have hMatmul : MatmulRun a b storage c A A' := ⟨hAccepts, hLeft.known hE, hRight.known hE,
    hRun.leftPos, hRun.rightPos, iarrayEmpty_plain hE hc⟩
  rcases hAccepts.right with hRank | hRank
  · rw [matmulArray, if_neg (by omega), hMatmul.refused_gemv_iff hE hSmall hInteger hRank]
    simp [MatmulStops, hRank, hInteger]
  · rw [matmulArray, if_pos hRank, hMatmul.refused_gemm_iff hE hInteger hRank]
    simp [MatmulStops, hRank, hInteger]

theorem matmul_validates (hE : E.Lawful) (hSmall : E.RefusesSmall)
    (h : MatmulValidates E a b storage) :
    Validates (Multipliable (fun n => n = 1 ∨ n = 2) a b) (iarrayLinalgMatmul E B a b storage) :=
  validates_of matmul_refused_of_checks matmul_eq_of_checks (fun hAccepts hStops _ hc =>
    (matmulArray_refused_iff hE hSmall hAccepts hStops.1 hStops.2.1 hc).mpr hStops.2) h

theorem matmulValidates_of (hE : E.Lawful) (hSmall : E.RefusesSmall) (hRun : RunOperands E a b)
    (h : Validates (Multipliable (fun n => n = 1 ∨ n = 2) a b)
      (iarrayLinalgMatmul E B a b storage)) : MatmulValidates E a b storage := by
  by_cases hAccepts : MatmulAccepts a b storage
  swap
  · exact .inr (.inl hAccepts)
  by_cases hFloat : a.dtshape.dtype.isFloating
  · exact .inl ⟨hAccepts.left, hAccepts.right, hAccepts.shape, hAccepts.dtype.symm, hFloat⟩
  · exact productValidates_of matmul_eq_of_checks (fun hAccepts c hc hRefused =>
      ⟨hRun, (matmulArray_refused_iff hE hSmall hAccepts hRun hFloat hc).mp hRefused⟩) h

theorem optGemm_validates (hE : E.Lawful) (h : OptGemmValidates E H a b storage) :
    Validates (Multipliable (· = 2) a b) (iarrayOptGemm E B H a b storage) := by
  by_cases hAny : ∃ rows inner inner' cols, OptGemmAccepts a b storage rows inner inner' cols
  swap
  · exact .inr (optGemm_refused_of_checks (by simpa using hAny))
  obtain ⟨rows, inner, inner', cols, hAccepts⟩ := hAny
  refine validates_of (fun hNot => absurd ⟨rows, inner, inner', cols, hAccepts⟩ hNot)
    (fun _ => optGemm_eq_of_checks hAccepts) ?_ h
  rintro - ⟨hRun, hRank, rows₁, inner₁, inner₂, cols₁, hAccepts', hStops⟩ c hc
  obtain ⟨rfl, rfl, rfl, rfl⟩ := hAccepts.unique hAccepts'
  exact (hAccepts.run hE hRun hRank hc).refused_iff.mpr hStops

theorem optGemmValidates_of (hE : E.Lawful) (hRun : RunOperands E a b)
    (hA : a.dtshape.ndim = a.catarr.ndim) (hB : b.dtshape.ndim = b.catarr.ndim)
    (h : Validates (Multipliable (· = 2) a b) (iarrayOptGemm E B H a b storage)) :
    OptGemmValidates E H a b storage := by
  by_cases hAny : ∃ rows inner inner' cols, OptGemmAccepts a b storage rows inner inner' cols
  swap
  · exact .inr (.inl hAny)
  obtain ⟨rows, inner, inner', cols, hAccepts⟩ := hAny
  have hRank : a.dtshape.ndim = 2 ∧ b.dtshape.ndim = 2 := by
    rw [hA, hB, CatArray.ndim, CatArray.ndim, hAccepts.left, hAccepts.right]
    exact ⟨rfl, rfl⟩
  exact productValidates_of (fun _ => optGemm_eq_of_checks hAccepts) (fun _ c hc hRefused =>
    ⟨hRun, hRank, rows, inner, inner', cols, hAccepts,
      (hAccepts.run hE hRun hRank hc).refused_iff.mp hRefused⟩) h

theorem optGemv_validates (hE : E.Lawful) (h : OptGemvValidates E H a b storage) :
    Validates (Multipliable (· = 1) a b) (iarrayOptGemv E B H a b storage) := by
  by_cases hAny : ∃ rows cols inner, OptGemvAccepts a b storage rows cols inner
  swap
  · exact .inr (optGemv_refused_of_checks (by simpa using hAny))
  obtain ⟨rows, cols, inner, hAccepts⟩ := hAny
  refine validates_of (fun hNot => absurd ⟨rows, cols, inner, hAccepts⟩ hNot)
    (fun _ => optGemv_eq_of_checks hAccepts) ?_ h
  rintro - ⟨hRun, hRank, rows', cols', inner', hAccepts', hStops⟩ c hc
  obtain ⟨rfl, rfl, rfl⟩ := hAccepts.unique hAccepts'
  exact (hAccepts.run hE hRun hRank hc).refused_iff.mpr hStops

theorem optGemvValidates_of (hE : E.Lawful) (hRun : RunOperands E a b)
    (hA : a.dtshape.ndim = a.catarr.ndim)
    (h : Validates (Multipliable (· = 1) a b) (iarrayOptGemv E B H a b storage)) :
    OptGemvValidates E H a b storage := by
  by_cases hAny : ∃ rows cols inner, OptGemvAccepts a b storage rows cols inner
  swap
  · exact .inr (.inl hAny)
  obtain ⟨rows, cols, inner, hAccepts⟩ := hAny
  have hRank : a.dtshape.ndim = 2 := by
    rw [hA, CatArray.ndim, hAccepts.left]
    rfl
  exact productValidates_of (fun _ => optGemv_eq_of_checks hAccepts) (fun _ c hc hRefused =>
    ⟨hRun, hRank, rows, cols, inner, hAccepts,
      (hAccepts.run hE hRun hRank hc).refused_iff.mp hRefused⟩) h

/-- These operands are multiplied rightly or refused, and of the operands with elements that view
operations reach no others are; the optimised products take operands that are not squeezed. -/
theorem matrixProducts_validate (hE : E.Lawful) (hSmall : E.RefusesSmall) (a b : Container)
    (storage : Storage) :
    ((MatmulValidates E a b storage →
        Validates (Multipliable (fun n => n = 1 ∨ n = 2) a b)
          (iarrayLinalgMatmul E B a b storage)) ∧
      (OptGemmValidates E H a b storage →
        Validates (Multipliable (· = 2) a b) (iarrayOptGemm E B H a b storage)) ∧
      (OptGemvValidates E H a b storage →
        Validates (Multipliable (· = 1) a b) (iarrayOptGemv E B H a b storage))) ∧
    (RunOperands E a b →
      (Validates (Multipliable (fun n => n = 1 ∨ n = 2) a b)
          (iarrayLinalgMatmul E B a b storage) → MatmulValidates E a b storage) ∧
      (a.dtshape.ndim = a.catarr.ndim → b.dtshape.ndim = b.catarr.ndim →
        Validates (Multipliable (· = 2) a b) (iarrayOptGemm E B H a b storage) →
          OptGemmValidates E H a b storage) ∧
      (a.dtshape.ndim = a.catarr.ndim →
        Validates (Multipliable (· = 1) a b) (iarrayOptGemv E B H a b storage) →
          OptGemvValidates E H a b storage)) :=
  ⟨⟨matmul_validates hE hSmall, optGemm_validates hE, optGemv_validates hE⟩, fun hRun =>
    ⟨matmulValidates_of hE hSmall hRun, optGemmValidates_of hE hRun, optGemvValidates_of hE hRun⟩⟩

end

namespace ValidateExample

def tiled (n : Nat) : Axis := ⟨n, 2, 2, by simp, by simp⟩

def zeros (d : Dtype) (shape : List Nat) : Container :=
  Reference.plain d (shape.map tiled) fun _ => .bits 0

def square : Storage := ⟨[2, 2], [2, 2]⟩

/-- The transposed matrix of integers. -/
def view : Container :=
  { viewOf Reference.bounded.machine (zeros .int32 [2, 2]) ⟨.int32, [2, 2]⟩ [0, 0]
      (.ofFn [tiled 2, tiled 2] 4 fun _ => .bits 0) with transposed := true }

theorem run_zeros : Run Reference.bounded (zeros .int32 [2, 2]) (zeros .int32 [2, 2]).contents :=
  .plain (Reference.plain_plain _ _ (by decide) (by decide))

theorem transpose_zeros :
    iarrayLinalgTranspose Reference.bounded (zeros .int32 [2, 2]) = .ok view := rfl

theorem operands_zeros : RunOperands Reference.bounded (zeros .int32 [2, 2]) (zeros .int32 [2, 2]) :=
  ⟨⟨_, run_zeros⟩, ⟨_, run_zeros⟩, by decide, by decide⟩

theorem operands_view : RunOperands Reference.bounded view (zeros .int32 [2, 2]) :=
  ⟨⟨_, .transpose run_zeros transpose_zeros⟩, ⟨_, run_zeros⟩, by decide, by decide⟩

end ValidateExample

open ValidateExample in
/-- A matrix of integers is no operand of the product through panels, which refuses its transpose.
The optimised product refuses the matrix, too. -/
theorem matrixProducts_validate_int :
    ¬ Validates (Multipliable (fun n => n = 1 ∨ n = 2) (zeros .int32 [2, 2]) (zeros .int32 [2, 2]))
      (iarrayLinalgMatmul Reference.bounded Reference.blas (zeros .int32 [2, 2])
        (zeros .int32 [2, 2]) square) ∧
    Validates (Multipliable (fun n => n = 1 ∨ n = 2) view (zeros .int32 [2, 2]))
      (iarrayLinalgMatmul Reference.bounded Reference.blas view (zeros .int32 [2, 2]) square) ∧
    Validates (Multipliable (· = 2) (zeros .int32 [2, 2]) (zeros .int32 [2, 2]))
      (iarrayOptGemm Reference.bounded Reference.blas Reference.rawHeaders (zeros .int32 [2, 2])
        (zeros .int32 [2, 2]) square) := by
  obtain ⟨⟨-, hGemm, -⟩, hBack⟩ := matrixProducts_validate (B := Reference.blas)
    (H := Reference.rawHeaders) Reference.bounded_lawful @Reference.bounded_refusesSmall
    (zeros .int32 [2, 2]) (zeros .int32 [2, 2]) square
  obtain ⟨⟨hMatmul, -, -⟩, -⟩ := matrixProducts_validate (B := Reference.blas)
    (H := Reference.rawHeaders) Reference.bounded_lawful @Reference.bounded_refusesSmall view
    (zeros .int32 [2, 2]) square
  refine ⟨fun h => ?_, hMatmul ?_, hGemm ?_⟩
  · rcases (hBack operands_zeros).1 h with hFits | hNot | hRefused | ⟨⟨-, hStops⟩, -⟩
    · exact absurd hFits.floating (by decide)
    · exact hNot ⟨rfl, .inr rfl, rfl, rfl, by decide⟩
    · obtain ⟨e, he⟩ := hRefused
      cases he
    · rcases hStops.2 with hGemm | hGemv
      · exact absurd hGemm.2.1 (by decide)
      · exact absurd hGemv.1 (by decide)
  · exact .inr (.inr (.inr ⟨⟨operands_view, by decide, .inl ⟨rfl, rfl, by decide⟩⟩, _, rfl⟩))
  · exact .inr (.inr (.inr ⟨⟨operands_zeros, ⟨rfl, rfl⟩, tiled 2, tiled 2, tiled 2, tiled 2,
      ⟨rfl, rfl, rfl, rfl, rfl, rfl, rfl, rfl⟩, .inl (by decide)⟩, _, rfl⟩))

open ValidateExample in
/-- Each product accepts operands that cannot be multiplied: integers, and inner axes of three and
of four elements. -/
theorem matrixProducts_accept :
    ¬ Validates (Multipliable (fun n => n = 1 ∨ n = 2) (zeros .int32 [2, 2]) (zeros .int32 [2, 2]))
      (iarrayLinalgMatmul Reference.backend Reference.blas (zeros .int32 [2, 2])
        (zeros .int32 [2, 2]) square) ∧
    ¬ Validates (Multipliable (· = 2) (zeros .double [2, 3]) (zeros .double [4, 2]))
      (iarrayOptGemm Reference.backend Reference.blas Reference.rawHeaders (zeros .double [2, 3])
        (zeros .double [4, 2]) square) ∧
    ¬ Validates (Multipliable (· = 1) (zeros .double [2, 3]) (zeros .double [4]))
      (iarrayOptGemv Reference.backend Reference.blas Reference.rawHeaders (zeros .double [2, 3])
        (zeros .double [4]) ⟨[2], [2]⟩) := by
  have hResult : ∀ {r : Result Container}, Except.isOk r = true → ¬ Refused r := by
    rintro r hOk ⟨e, rfl⟩
    cases hOk
  refine ⟨?_, ?_, ?_⟩
  · rintro (hFits | hRefused)
    · exact absurd hFits.floating (by decide)
    · exact hResult (by decide +kernel) hRefused
  · rintro (hFits | hRefused)
    · exact absurd hFits.shape (by decide)
    · exact hResult (by decide +kernel) hRefused
  · rintro (hFits | hRefused)
    · exact absurd hFits.shape (by decide)
    · exact hResult (by decide +kernel) hRefused

end IronArray
