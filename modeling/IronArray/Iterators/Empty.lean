import IronArray.Containers.Regions
import IronArray.Iterators.Alike
import IronArray.Iterators.Read

/-!
# Iterators over arrays without elements or without axes

Every loop over an iterator ends: as soon as the rounds cover what is left, more rounds change
nothing. Both read iterators and the element write iterator have no undefined behaviour and hand out
nothing of an empty array; the block write iterator divides by the number of blocks along an empty
axis, and without an axis it writes before its arrays (`new_without_elements`).
-/

namespace IronArray

open Grid

/-! ## The loops end -/

/-- From `rounds` on the number of rounds is of no importance. -/
def Ends {ρ : Type} (run : Nat → ρ) (rounds : Nat) : Prop := ∀ extra, run (rounds + extra) = run rounds

section Loops

variable {E : Backend}

theorem IterReadBlock.next_counts {itr itr' : IterReadBlock} {buffer : Nat → Cell} {bufsize : Nat}
    {value : IterValue} (h : itr.next E buffer bufsize = .ok (itr', value)) :
    itr'.nblock = itr.nblock + 1 ∧ itr'.totalBlocks = itr.totalBlocks := by
  rw [IterReadBlock.next_eq] at h
  obtain ⟨used, hUsed, h⟩ := Result.bind_eq_ok.mp h
  obtain ⟨block, -, h⟩ := Result.bind_eq_ok.mp h
  cases h
  unfold IterReadBlock.useBuffer at hUsed
  split at hUsed
  · cases hUsed
    exact ⟨rfl, rfl⟩
  · split at hUsed
    · cases hUsed
    · cases hUsed
      exact ⟨rfl, rfl⟩

theorem readLoop_ends {buffer : Nat → Nat → Cell} {bufsize rounds : Nat} {itr : IterReadBlock}
    {log : List IterValue} (h : itr.totalBlocks ≤ itr.nblock + rounds) :
    Ends (fun n => readLoop E buffer bufsize n itr log) rounds := by
  intro extra
  induction rounds generalizing itr log with
  | zero =>
    have hEnd : ¬ itr.hasNext := by
      rw [IterReadBlock.hasNext, decide_eq_true_eq]
      omega
    cases extra with
    | zero => rfl
    | succ extra =>
      show readLoop E buffer bufsize (0 + extra + 1) itr log = readLoop E buffer bufsize 0 itr log
      rw [readLoop, if_neg hEnd, readLoop, if_neg hEnd]
  | succ rounds ih =>
    show readLoop E buffer bufsize (rounds + 1 + extra) itr log =
      readLoop E buffer bufsize (rounds + 1) itr log
    rw [Nat.add_right_comm, readLoop, readLoop]
    split
    · cases hNext : itr.next E (buffer itr.nblock) bufsize with
      | error e => rfl
      | ok r =>
        have hCounts := IterReadBlock.next_counts hNext
        rw [Result.ok_bind, Result.ok_bind]
        exact ih (by omega)
    · rfl

theorem IterWriteBlock.hasNext_counts {itr itr' : IterWriteBlock} {more : Bool}
    (h : itr.hasNext E = .ok (itr', more)) :
    itr'.nblock = itr.nblock ∧ itr'.totalBlocks = itr.totalBlocks ∧
      (more = true → itr.nblock < itr.totalBlocks) := by
  unfold IterWriteBlock.hasNext at h
  split at h
  · split at h
    · rename_i hStore
      cases h
      exact ⟨(store_counts hStore).1, (store_counts hStore).2, nofun⟩
    · cases h
      exact ⟨rfl, rfl, nofun⟩
    · cases h
  · cases h
    exact ⟨rfl, rfl, of_decide_eq_true⟩

/-- A body that moves to the next block ends its loop. -/
theorem writeLoop_ends {σ : Type} {cond : σ → Bool}
    {body : IterWriteBlock → σ → Result (IterWriteBlock × σ)}
    (hBody : ∀ {itr itr' s s'}, body itr s = .ok (itr', s') →
      itr'.nblock = itr.nblock + 1 ∧ itr'.totalBlocks = itr.totalBlocks)
    {rounds : Nat} {itr : IterWriteBlock} {s : σ} (h : itr.totalBlocks ≤ itr.nblock + rounds) :
    Ends (fun n => writeLoop E cond body n itr s) rounds := by
  intro extra
  induction rounds generalizing itr s with
  | zero =>
    cases extra with
    | zero => rfl
    | succ extra =>
      show writeLoop E cond body (0 + extra + 1) itr s = writeLoop E cond body 0 itr s
      rw [writeLoop, writeLoop]
      cases hMore : itr.hasNext E with
      | error e => rfl
      | ok r =>
        obtain ⟨itr₁, more⟩ := r
        obtain ⟨-, -, hLess⟩ := IterWriteBlock.hasNext_counts hMore
        cases more with
        | false => rfl
        | true => exact absurd (hLess rfl) (by omega)
  | succ rounds ih =>
    show writeLoop E cond body (rounds + 1 + extra) itr s = writeLoop E cond body (rounds + 1) itr s
    rw [Nat.add_right_comm, writeLoop, writeLoop]
    cases hMore : itr.hasNext E with
    | error e => rfl
    | ok r =>
      obtain ⟨itr₁, more⟩ := r
      obtain ⟨hNblock, hTotal, -⟩ := IterWriteBlock.hasNext_counts hMore
      rw [Result.ok_bind, Result.ok_bind]
      show (if _ then _ else _) = if _ then _ else _
      split
      · cases hRound : body itr₁ s with
        | error e => rfl
        | ok r =>
          obtain ⟨itr₂, s₂⟩ := r
          have hCounts := hBody hRound
          show writeLoop E cond body (rounds + extra) itr₂ s₂ = writeLoop E cond body rounds itr₂ s₂
          exact ih (by omega)
      · rfl

theorem BlockWriter.round_counts {w : BlockWriter} {itr itr' : IterWriteBlock}
    {log log' : List Offer} (h : w.round E itr log = .ok (itr', log')) :
    itr'.nblock = itr.nblock + 1 ∧ itr'.totalBlocks = itr.totalBlocks := by
  obtain ⟨⟨itr₁, value⟩, hNext, h⟩ := Result.bind_eq_ok.mp h
  cases h
  exact @IterWriteBlock.next_counts E itr itr₁ _ _ value hNext

theorem IterRead.next_counts {itr itr' : IterRead} (h : itr.next E = .ok itr') :
    itr'.nelem = itr.nelem + 1 ∧ itr'.contSize = itr.contSize := by
  obtain ⟨moved, hMoved, h⟩ := Result.bind_eq_ok.mp h
  have hCounts : moved.nelem = itr.nelem ∧ moved.contSize = itr.contSize := by
    unfold advance at hMoved
    split at hMoved
    · obtain ⟨aux, -, hMoved⟩ := Result.bind_eq_ok.mp hMoved
      split at hMoved
      · cases hMoved
      · obtain ⟨chunk, -, hMoved⟩ := Result.bind_eq_ok.mp hMoved
        cases hMoved
        exact ⟨rfl, rfl⟩
    · cases hMoved
      exact ⟨rfl, rfl⟩
  split at h
  · cases h
  · cases h
    exact ⟨congrArg (· + 1) hCounts.1, hCounts.2⟩

theorem readElementsLoop_ends {rounds : Nat} {itr : IterRead} {log : List Visit}
    (h : itr.contSize ≤ itr.nelem + rounds) : Ends (fun n => readElementsLoop E n itr log) rounds := by
  intro extra
  induction rounds generalizing itr log with
  | zero =>
    have hEnd : ¬ itr.hasNext := by
      rw [IterRead.hasNext, decide_eq_true_eq]
      omega
    cases extra with
    | zero => rfl
    | succ extra =>
      show readElementsLoop E (0 + extra + 1) itr log = readElementsLoop E 0 itr log
      rw [readElementsLoop, if_neg hEnd, readElementsLoop, if_neg hEnd]
  | succ rounds ih =>
    show readElementsLoop E (rounds + 1 + extra) itr log = readElementsLoop E (rounds + 1) itr log
    rw [Nat.add_right_comm, readElementsLoop, readElementsLoop]
    split
    · cases hNext : itr.next E with
      | error e => rfl
      | ok itr₁ =>
        have hCounts := IterRead.next_counts hNext
        rw [Result.ok_bind, Result.ok_bind]
        exact ih (by omega)
    · rfl

namespace IterWrite

variable {itr itr' : IterWrite} {Inv : Container → Prop}

theorem store_keeps (hInv : StoreStable E Inv) (hCont : Inv itr.container)
    (h : itr.store E = .ok itr') : Inv itr'.container ∧ itr'.nelem = itr.nelem := by
  unfold store at h
  split at h
  · cases h
  · simp only at h
    split at h
    · rename_i catarr hSet
      cases h
      exact ⟨hInv.setSliceBuffer hCont hSet, rfl⟩
    · cases h
    · cases h

theorem hasNext_keeps (hInv : StoreStable E Inv) (hCont : Inv itr.container) {more : Bool}
    (h : itr.hasNext E = .ok (itr', more)) : Inv itr'.container ∧ itr'.nelem = itr.nelem ∧
      (more = true → itr.nelem < itr.container.catarr.shape.prod) := by
  unfold hasNext at h
  split at h
  · obtain ⟨stored, hStore, h⟩ := Result.bind_eq_ok.mp h
    cases h
    exact ⟨(store_keeps hInv hCont hStore).1, (store_keeps hInv hCont hStore).2, nofun⟩
  · cases h
    exact ⟨hCont, rfl, of_decide_eq_true⟩

theorem next_keeps (hInv : StoreStable E Inv) (hCont : Inv itr.container)
    (h : itr.next E = .ok itr') : Inv itr'.container ∧ itr'.nelem = itr.nelem + 1 := by
  obtain ⟨moved, hMoved, h⟩ := Result.bind_eq_ok.mp h
  have hKept : Inv moved.container ∧ moved.nelem = itr.nelem := by
    unfold advance at hMoved
    split at hMoved
    · obtain ⟨stored, hStore, hMoved⟩ := Result.bind_eq_ok.mp hMoved
      have hStored := store_keeps hInv hCont hStore
      obtain ⟨counts, -, hMoved⟩ := Result.bind_eq_ok.mp hMoved
      split at hMoved
      · cases hMoved
      · cases hMoved
        exact hStored
    · split at hMoved
      · cases hMoved
        exact ⟨hCont, rfl⟩
      · cases hMoved
        exact ⟨hCont, rfl⟩
  split at h
  · cases h
  · cases h
    exact ⟨hKept.1, congrArg (· + 1) hKept.2⟩

theorem put_keeps {x : Cell} (h : itr.put x = .ok itr') :
    itr'.container = itr.container ∧ itr'.nelem = itr.nelem := by
  unfold put at h
  split at h
  · cases h
  · cases h
    exact ⟨rfl, rfl⟩

end IterWrite

theorem writeElementsLoop_ends (hE : E.Lawful) {c : Container}
    {f : List (Visit × Cell) → Visit → Cell} {rounds : Nat} {itr : IterWrite}
    {log : List (Visit × Cell)} (hCont : PlainOf c.dtshape c.storage itr.container)
    (h : c.dtshape.shape.prod ≤ itr.nelem + rounds) :
    Ends (fun n => writeElementsLoop E f n itr log) rounds := by
  have hInv := PlainOf.stable hE c.dtshape c.storage
  intro extra
  induction rounds generalizing itr log with
  | zero =>
    cases extra with
    | zero => rfl
    | succ extra =>
      show writeElementsLoop E f (0 + extra + 1) itr log = writeElementsLoop E f 0 itr log
      rw [writeElementsLoop, writeElementsLoop]
      cases hMore : itr.hasNext E with
      | error e => rfl
      | ok r =>
        obtain ⟨itr₁, more⟩ := r
        obtain ⟨-, -, hLess⟩ := IterWrite.hasNext_keeps hInv hCont hMore
        have hShape : itr.container.catarr.shape = c.dtshape.shape :=
          hCont.plain.fresh.shape.trans (congrArg _ hCont.dtshape)
        rw [hShape] at hLess
        cases more with
        | false => rfl
        | true => exact absurd (hLess rfl) (by omega)
  | succ rounds ih =>
    show writeElementsLoop E f (rounds + 1 + extra) itr log =
      writeElementsLoop E f (rounds + 1) itr log
    rw [Nat.add_right_comm, writeElementsLoop, writeElementsLoop]
    cases hMore : itr.hasNext E with
    | error e => rfl
    | ok r =>
      obtain ⟨itr₁, more⟩ := r
      obtain ⟨hCont₁, hNelem, -⟩ := IterWrite.hasNext_keeps hInv hCont hMore
      rw [Result.ok_bind, Result.ok_bind]
      show (if more = true then _ else _) = if more = true then _ else _
      split
      · cases hNext : itr₁.next E with
        | error e => rfl
        | ok itr₂ =>
          obtain ⟨hCont₂, hNelem₂⟩ := IterWrite.next_keeps hInv hCont₁ hNext
          show (itr₂.put _ >>= _) = (itr₂.put _ >>= _)
          cases hPut : itr₂.put (f log ⟨itr₂.elemIndex, itr₂.elemFlatIndex⟩) with
          | error e => rfl
          | ok itr₃ =>
            obtain ⟨hSame, hNelem₃⟩ := IterWrite.put_keeps hPut
            exact ih (hSame ▸ hCont₂) (by omega)
      · rfl

end Loops

/-! ## Runs -/

/-- A run that has no undefined behaviour and hands out nothing of an empty array. -/
structure SafeRun {α : Type} (shape : List Nat) (run : Result (List α)) : Prop where
  defined : ∀ u, run ≠ crash u
  nothing : 0 ∈ shape → ∀ log, run = .ok log → log = []

namespace SafeRun

variable {α : Type} {shape : List Nat} {run : Result (List α)}

theorem of_ok {log : List α} (h : run = .ok log) (hNothing : 0 ∈ shape → log = []) :
    SafeRun shape run where
  defined := Result.ne_crash_of_ok h
  nothing hZero log' hRun := by
    cases h.symm.trans hRun
    exact hNothing hZero

theorem of_refused {e : ErrorCode} (h : run = inaError e) : SafeRun shape run where
  defined := Result.ne_crash_of_refused ⟨e, h⟩
  nothing _ log hRun := by
    rw [h] at hRun
    cases hRun

end SafeRun

section SafeRun

variable {E : Backend} {c : Container}

/-- The block read iterator over blocks with items. -/
theorem readBlocks_safe (hE : E.Lawful) (hPlain : Plain c) {bs : List Nat}
    (hLen : bs.length = c.dtshape.ndim) (hPos : ∀ d ∈ bs, 0 < d) (padding external : Bool)
    (buffer : Nat → Nat → Cell) (bufsize : Nat) :
    SafeRun c.dtshape.shape (readBlocks E c bs padding external buffer bufsize) := by
  have hKnown : Known c c.contents := .plain hPlain (.refl _)
  have hLength : c.contents.shape.length = bs.length := hLen.symm
  obtain ⟨itr, hReading, hFirst, hRun⟩ :=
    readBlocks_eq (E := E) hKnown hLength hPos padding external buffer bufsize
  have hReadable : c.Readable bs := fun hT =>
    absurd hT hPlain.not_transposed
  by_cases hHold : external → bs.prod * c.catarr.itemsize + E.maxOverhead ≤ bufsize
  · have hNone : ([] : List IterValue).length = itr.nblock := hFirst.symm
    obtain ⟨log, hLoop, hCount, -⟩ := readLoop_ok hE hKnown hLength hPos hReadable hHold buffer
      hReading hNone nofun (by rw [hFirst, Nat.zero_add])
    refine .of_ok (hRun.trans hLoop) fun hZero => ?_
    exact List.length_eq_zero_iff.mp (hCount.trans (tileCounts_zero hLength hZero))
  · -- buffers of the user that are too small are refused with the first block
    obtain ⟨rfl, hSmall⟩ := Classical.not_imp.mp hHold
    rcases Nat.eq_zero_or_pos (tileCounts c.contents.shape bs).prod with hNo | hSome
    · rw [hNo, readLoop, if_neg] at hRun
      · exact .of_ok hRun fun _ => rfl
      · rw [IterReadBlock.hasNext, hReading.total, hNo]
        simp
    · obtain ⟨rounds, hRounds⟩ := Nat.exists_eq_add_one_of_ne_zero hSome.ne'
      have hMore : itr.hasNext := by
        rw [IterReadBlock.hasNext, hReading.total, hFirst, decide_eq_true_eq]
        exact hSome
      have hUse : itr.useBuffer E (buffer itr.nblock) bufsize = inaError .tooSmallBuffer := by
        rw [IterReadBlock.useBuffer, hReading.external, hReading.blockShape, hReading.cont]
        exact if_pos (Nat.not_le.mp hSmall)
      rw [hRounds, readLoop, if_pos hMore, IterReadBlock.next_eq, hUse] at hRun
      exact .of_refused hRun

theorem readElements_safe (hE : E.Lawful) (hPlain : Plain c) :
    SafeRun c.dtshape.shape (readElements E c) := by
  by_cases hZero : 0 ∈ c.dtshape.shape
  · have hNone : c.dtshape.shape.prod = 0 := List.prod_eq_zero hZero
    have hRun : readElements E c = .ok [] := by
      rw [readElements, hNone, readElementsLoop, if_neg]
      · rfl
      · rw [IterRead.hasNext, decide_eq_true_eq]
        exact Nat.not_lt.mpr hNone.le
    exact .of_ok hRun fun _ => rfl
  · have hPos := hPlain.axes_pos fun n hn => Nat.pos_of_ne_zero fun h => hZero (h ▸ hn)
    exact .of_ok (readElements_ok hE hPlain hPos) fun h => absurd h hZero

/-- From any element the write iterator gets to another one. -/
theorem AtPlace.advance_ok (hE : E.Lawful) (hPlain : Plain c)
    (hPos : ∀ x ∈ c.catarr.axes, 0 < x.shape) {k j : Nat} {itr : IterWrite}
    (h : AtPlace c.catarr.axes k j itr) (hCont : PlainOf c.dtshape c.storage itr.container) :
    ∃ k' j' itr', itr.advance E = .ok itr' ∧ AtPlace c.catarr.axes k' j' itr' ∧
      PlainOf c.dtshape c.storage itr'.container := by
  rw [IterWrite.advance, h.nelemBlock, h.size]
  by_cases hLast : j + 1 = chunkLen c.catarr.axes k
  · obtain ⟨a, hStore, hStored, -⟩ := h.store_ok hE hPlain hPos hCont
    obtain ⟨itr', hNext, hPlace, hSame, -⟩ := @IterWrite.nextBlock_ok c
      { itr with container := { itr.container with catarr := a } } hPos (hStored.same_axes hPlain)
    rw [if_pos hLast, hStore, Result.ok_bind, hNext]
    exact ⟨_, 0, itr', rfl, hPlace, hSame ▸ hStored⟩
  · rw [if_neg hLast]
    split
    · have hPlace := h.place
      exact ⟨k, j + 1, _, rfl, ⟨h.piece, by omega, h.nblock, rfl, h.index, h.shape, rfl⟩, hCont⟩
    · exact ⟨k, j, itr, rfl, h, hCont⟩

theorem writeElementsLoop_defined (hE : E.Lawful) (hPlain : Plain c)
    (hPos : ∀ x ∈ c.catarr.axes, 0 < x.shape) (f : List (Visit × Cell) → Visit → Cell)
    (rounds : Nat) {k j : Nat} {itr : IterWrite} {log : List (Visit × Cell)}
    (h : AtPlace c.catarr.axes k j itr) (hCont : PlainOf c.dtshape c.storage itr.container) :
    ∃ r, writeElementsLoop E f rounds itr log = .ok r := by
  induction rounds generalizing k j itr log with
  | zero =>
    rw [writeElementsLoop, IterWrite.hasNext]
    split
    · obtain ⟨a, hStore, -⟩ := h.store_ok hE hPlain hPos hCont
      rw [hStore]
      exact ⟨_, rfl⟩
    · rw [Result.ok_bind]
      by_cases hMore : itr.nelem < itr.container.catarr.shape.prod
      · exact ⟨_, if_pos (decide_eq_true hMore)⟩
      · exact ⟨_, if_neg (by simpa using hMore)⟩
  | succ rounds ih =>
    rw [writeElementsLoop, IterWrite.hasNext]
    split
    · obtain ⟨a, hStore, -⟩ := h.store_ok hE hPlain hPos hCont
      rw [hStore]
      exact ⟨_, rfl⟩
    · rw [Result.ok_bind]
      by_cases hMore : itr.nelem < itr.container.catarr.shape.prod
      · simp only [hMore, decide_true, if_true]
        obtain ⟨k', j', itr₁, hAdvance, hPlace, hCont₁⟩ := h.advance_ok hE hPlain hPos hCont
        rw [hPlace.next_eq hPlain hPos hCont₁ hAdvance]
        have hMoved : AtPlace c.catarr.axes k' j' itr₁ := hPlace
        exact ih ⟨hMoved.piece, hMoved.place, hMoved.nblock, hMoved.nelemBlock, hMoved.index,
          hMoved.shape, hMoved.size⟩ hCont₁
      · exact ⟨_, if_neg (by simpa using hMore)⟩

theorem IterWrite.store_of_set {itr : IterWrite} {a : CatArray}
    (hRank : ¬ itr.container.dtshape.ndim < itr.container.catarr.ndim)
    (hSet : E.setSliceBuffer itr.container.catarr itr.chunk itr.curBlockShape
      (itr.curBlockSize * itr.container.catarr.itemsize)
      (List.zipWith (· * ·) itr.curBlockIndex itr.container.catarr.chunkshape)
      (List.zipWith (· + ·) (List.zipWith (· * ·) itr.curBlockIndex
        itr.container.catarr.chunkshape) itr.curBlockShape) = .ok a) :
    itr.store E = .ok { itr with container := { itr.container with catarr := a } } := by
  rw [store, if_neg hRank]
  simp only [hSet]

/-- Nothing is stored of the buffer of an empty array. -/
theorem IterWrite.hasNext_empty (hEmpty : E.EmptyRegions) (hPlain : Plain c)
    (hZero : 0 ∈ c.dtshape.shape) :
    ∃ itr, (iarrayIterWriteNew c).hasNext E = .ok (itr, false) := by
  have hShape : c.catarr.shape = c.dtshape.shape := hPlain.fresh.shape
  have hNone : (iarrayIterWriteNew c).container.catarr.shape.prod = 0 :=
    (congrArg List.prod hShape).trans (List.prod_eq_zero hZero)
  have hRank : ¬ c.dtshape.ndim < c.catarr.ndim := by
    rw [hPlain.catarr_ndim]
    exact lt_irrefl _
  have hMin : (iarrayIterWriteNew c).curBlockShape =
      List.zipWith min c.catarr.chunkshape c.catarr.shape := by
    show List.zipWith _ _ _ = _
    congr 1
    funext d n
    split <;> omega
  have hLen : c.catarr.chunkshape.length = c.catarr.shape.length := by
    simp [CatArray.chunkshape, CatArray.shape, chunkshapeOf, shapeOf]
  have hStart : List.zipWith (· * ·) (List.replicate c.catarr.ndim 0) c.catarr.chunkshape =
      List.replicate c.catarr.ndim 0 := by
    refine List.ext_getElem (by simp [CatArray.chunkshape, chunkshapeOf, CatArray.ndim]) ?_
    intro i h₁ h₂
    simp
  have hSides : List.Forall₂ (· ≤ ·) (List.zipWith min c.catarr.chunkshape c.catarr.shape)
      c.catarr.shape := by
    refine List.forall₂_iff_get.mpr ⟨by simp [hLen], fun i h₁ h₂ => ?_⟩
    simp
  have hRegion : Region (List.replicate c.catarr.ndim 0)
      (List.zipWith min c.catarr.chunkshape c.catarr.shape) c.catarr.shape := by
    refine ⟨by simp [CatArray.ndim, CatArray.shape], by simp [hLen], ?_⟩
    rwa [addIdx_replicate_zero (by simp [hLen, CatArray.ndim, CatArray.shape])]
  have hSide : 0 ∈ List.zipWith min c.catarr.chunkshape c.catarr.shape := by
    rw [← hShape] at hZero
    obtain ⟨i, hi, hi0⟩ := List.getElem_of_mem hZero
    refine List.mem_iff_getElem.mpr ⟨i, by simpa [hLen] using hi, ?_⟩
    simp [hi0]
  obtain ⟨b, hSet, -⟩ := hEmpty.setSliceBuffer (iarrayIterWriteNew c).chunk
    ((iarrayIterWriteNew c).curBlockSize * c.catarr.itemsize) hPlain.fresh.sized
    hPlain.fresh.postfilter hRegion hSide
  have hCall : E.setSliceBuffer c.catarr (iarrayIterWriteNew c).chunk
      (iarrayIterWriteNew c).curBlockShape
      ((iarrayIterWriteNew c).curBlockSize * c.catarr.itemsize)
      (List.zipWith (· * ·) (List.replicate c.catarr.ndim 0) c.catarr.chunkshape)
      (List.zipWith (· + ·) (List.zipWith (· * ·) (List.replicate c.catarr.ndim 0)
        c.catarr.chunkshape) (iarrayIterWriteNew c).curBlockShape) = .ok b := by
    rw [hStart, hMin]
    exact hSet
  have hStore := @IterWrite.store_of_set E (iarrayIterWriteNew c) b hRank hCall
  have hDone : (iarrayIterWriteNew c).nelem =
      (iarrayIterWriteNew c).container.catarr.shape.prod := hNone.symm
  refine ⟨{ iarrayIterWriteNew c with container := { c with catarr := b } }, ?_⟩
  rw [IterWrite.hasNext, if_pos hDone, hStore]
  rfl

theorem writeElements_filled (hE : E.Lawful) (hPlain : Plain c) (hZero : 0 ∉ c.dtshape.shape)
    (f : List (Visit × Cell) → Visit → Cell) :
    SafeRun c.dtshape.shape ((writeElements E f c).map Prod.snd) := by
  have hPos := hPlain.axes_pos fun n hn => Nat.pos_of_ne_zero fun h => hZero (h ▸ hn)
  have hLoop : ∃ r, writeElementsLoop E f c.catarr.shape.prod (iarrayIterWriteNew c) [] = .ok r :=
    writeElementsLoop_defined hE hPlain hPos f _ (new_atPlace hPos) ⟨hPlain, rfl, rfl⟩
  obtain ⟨⟨itr, log⟩, hLoop⟩ := hLoop
  have hRun : (writeElements E f c).map Prod.snd = .ok log := by
    rw [writeElements, hLoop]
    rfl
  exact .of_ok hRun fun h => absurd h hZero

theorem writeElements_safe (hE : E.Lawful) (hEmpty : E.EmptyRegions) (hPlain : Plain c)
    (f : List (Visit × Cell) → Visit → Cell) :
    SafeRun c.dtshape.shape ((writeElements E f c).map Prod.snd) := by
  by_cases hZero : 0 ∈ c.dtshape.shape
  · obtain ⟨itr, hMore⟩ := IterWrite.hasNext_empty hEmpty hPlain hZero
    have hNone : c.catarr.shape.prod = 0 := by
      rw [show c.catarr.shape = c.dtshape.shape from hPlain.fresh.shape]
      exact List.prod_eq_zero hZero
    have hRun : (writeElements E f c).map Prod.snd = .ok [] := by
      rw [writeElements, hNone, writeElementsLoop, hMore]
      rfl
    exact .of_ok hRun fun _ => rfl
  · exact writeElements_filled hE hPlain hZero f

end SafeRun

/-! ## Writing blocks -/

section Write

variable {E : Backend} {c : Container}

/-- A loop whose steps succeed or run into one kind of undefined behaviour, one of them into that. -/
theorem Result.mapM_crash {α β : Type} {xs : List α} {f : α → Result β} {u : Undefined}
    (h : ∀ a ∈ xs, (∃ b, f a = .ok b) ∨ f a = crash u) (hSome : ∃ a ∈ xs, f a = crash u) :
    xs.mapM f = crash u := by
  induction xs with
  | nil =>
    obtain ⟨a, ha, -⟩ := hSome
    cases ha
  | cons a xs ih =>
    rw [List.mapM_cons]
    rcases h a List.mem_cons_self with ⟨b, hb⟩ | hCrash
    · obtain ⟨x, hx, hCrash⟩ := hSome
      rcases List.mem_cons.mp hx with rfl | hx
      · cases hb.symm.trans hCrash
      · rw [hb, ok_bind, ih (fun y hy => h y (List.mem_cons_of_mem _ hy)) ⟨x, hx, hCrash⟩]
        rfl
    · rw [hCrash]
      rfl

theorem contEshape_crash {axes : List Axis} {bs : List Nat} (hLen : axes.length = bs.length)
    (h : 0 ∈ bs) : contEshape axes bs = crash .divisionByZero := by
  have hStep : ∀ p : Axis × Nat, p.2 = 0 →
      (iterBlocks p.1.extshape p.2 >>= fun n => pure (n * p.2)) =
        (crash .divisionByZero : Result Nat) := by
    intro p hZero
    rw [iterBlocks, if_pos hZero]
    rfl
  apply Result.mapM_crash
  · intro p _
    by_cases hZero : p.2 = 0
    · exact .inr (hStep p hZero)
    · left
      show ∃ b, (iterBlocks p.1.extshape p.2 >>= fun n => pure (n * p.2)) = .ok b
      rw [iterBlocks, if_neg hZero]
      exact ⟨_, rfl⟩
  · obtain ⟨i, hi, hZero⟩ := List.getElem_of_mem h
    have hPair : i < (List.zip axes bs).length := by
      rw [List.length_zip, hLen, Nat.min_self]
      exact hi
    refine ⟨_, List.getElem_mem hPair, hStep _ ?_⟩
    rw [List.getElem_zip]
    exact hZero

theorem contEshape_tiles {axes : List Axis} {bs : List Nat} (hPos : ∀ d ∈ bs, 0 < d) :
    contEshape axes bs =
      .ok ((List.zip axes bs).map fun p => numTiles p.1.extshape p.2 * p.2) := by
  refine Result.mapM_ok _ _ _ fun p hp => ?_
  rw [iterBlocks_eq (hPos _ (List.of_mem_zip hp).2)]
  rfl

/-- The number of blocks along an empty axis is zero. -/
theorem zero_mem_counts {axes : List Axis} {bs : List Nat} (hLen : axes.length = bs.length)
    {x : Axis} (hx : x ∈ axes) (hShape : x.shape = 0) :
    0 ∈ List.zipWith (· / ·) ((List.zip axes bs).map fun p => numTiles p.1.extshape p.2 * p.2)
      bs := by
  obtain ⟨i, hi, rfl⟩ := List.getElem_of_mem hx
  have hExt : axes[i].extshape = 0 := by
    rw [Axis.extshape, Axis.chunks, hShape, numTiles_zero, Nat.zero_mul]
  refine List.mem_iff_getElem.mpr ⟨i, by simp [← hLen, hi], ?_⟩
  rw [List.getElem_zipWith, List.getElem_map, List.getElem_zip]
  simp only [hExt, numTiles_zero, Nat.zero_mul, Nat.zero_div]

/-- Along an empty axis the iterator divides by the number of blocks, or by their length. -/
theorem new_without_elements {external : Bool} (hPlain : Plain c) (hZero : 0 ∈ c.dtshape.shape) :
    iarrayIterWriteBlockNew E c c.storage.chunkshape external = crash .divisionByZero := by
  have hViewed : ¬ c.containerViewed.isSome := by
    rw [hPlain.containerViewed]
    exact Bool.false_ne_true
  have hLen : c.catarr.axes.length = c.storage.chunkshape.length := by
    rw [length_stored hPlain.fresh.chunkshape, CatArray.chunkshape, chunkshapeOf, List.length_map]
  rw [iarrayIterWriteBlockNew, if_neg hViewed, if_neg (not_not.mpr rfl)]
  by_cases hChunk : 0 ∈ c.storage.chunkshape
  · rw [contEshape_crash hLen hChunk]
    rfl
  · have hPos : ∀ d ∈ c.storage.chunkshape, 0 < d := fun d hd =>
      Nat.pos_of_ne_zero fun h => hChunk (h ▸ hd)
    obtain ⟨x, hx, hShape⟩ : ∃ x ∈ c.catarr.axes, x.shape = 0 := by
      have hAxes : shapeOf c.catarr.axes = c.dtshape.shape := hPlain.fresh.shape
      rw [← hAxes] at hZero
      exact List.mem_map.mp hZero
    have hCounts := zero_mem_counts hLen hx hShape
    rw [contEshape_tiles hPos, Result.ok_bind, idiv, if_neg (prod_pos_of_forall hPos).ne',
      Result.ok_bind, IterWriteBlock.seek, IterWriteBlock.blockIndex,
      if_neg (List.ne_nil_of_mem hCounts), if_pos hCounts]
    rfl

/-! ## Storages with chunks of any length -/

/-- `caterva_set_slice_buffer` succeeds or refuses, for every region. -/
def Backend.Answers (E : Backend) : Prop :=
  ∀ a buffer shape buflen start stop u, E.setSliceBuffer a buffer shape buflen start stop ≠ crash u

namespace IterWriteBlock

/-- Along each axis the iterator counts a block. -/
structure Counts (itr : IterWriteBlock) : Prop where
  some : List.zipWith (· / ·) itr.contEshape itr.blockShape ≠ []
  pos : 0 ∉ List.zipWith (· / ·) itr.contEshape itr.blockShape

section Answers

variable {itr : IterWriteBlock}

theorem Counts.written (h : itr.Counts) (block : Nat → Cell) (compressed : Bool) :
    Counts { itr with block := block, compressedChunkBuffer := compressed } :=
  ⟨h.some, h.pos⟩

theorem store_answers (hAnswers : E.Answers) (itr : IterWriteBlock) :
    (∃ a, itr.store E = .ok (itr.setArray a)) ∨ itr.store E = inaError .bloscFailed := by
  rw [store]
  split
  · exact .inl ⟨_, rfl⟩
  · dsimp only
    split
    · exact .inl ⟨_, rfl⟩
    · exact .inr rfl
    · rename_i hCrash
      exact absurd hCrash (hAnswers _ _ _ _ _ _ _)

theorem leave_answers (hAnswers : E.Answers) (itr : IterWriteBlock) :
    (∃ a, itr.leave E = .ok (itr.setArray a)) ∨ itr.leave E = inaError .bloscFailed := by
  rw [leave]
  split
  · exact .inl ⟨itr.cont.catarr, by rw [setArray_self]⟩
  · exact store_answers hAnswers itr

theorem useBuffer_answers (itr : IterWriteBlock) (buffer : Nat → Cell) (bufsize : Nat) :
    (∃ block, itr.useBuffer E buffer bufsize = .ok { itr with block := block }) ∨
      itr.useBuffer E buffer bufsize = inaError .tooSmallBuffer := by
  rw [useBuffer]
  split
  · exact .inl ⟨itr.block, rfl⟩
  · split
    · exact .inr rfl
    · exact .inl ⟨buffer, rfl⟩

/-- No block number lets the iterator divide by zero. -/
theorem Counts.seek_ok (h : itr.Counts) (nblock : Nat) :
    ∃ itr', itr.seek nblock = .ok itr' ∧ itr'.Counts := by
  rw [seek, blockIndex, if_neg h.some, if_neg h.pos]
  exact ⟨_, rfl, h.some, h.pos⟩

/-- The iterator moves on or refuses, and goes on counting blocks. -/
theorem Counts.next_answers (hAnswers : E.Answers) (h : itr.Counts) (buffer : Nat → Cell)
    (bufsize : Nat) : Refused (itr.next E buffer bufsize) ∨
      ∃ itr' value, itr.next E buffer bufsize = .ok (itr', value) ∧ itr'.Counts := by
  rw [next]
  rcases leave_answers hAnswers itr with ⟨a, hLeave⟩ | hLeave
  swap
  · rw [hLeave]
    exact .inl ⟨_, rfl⟩
  rw [hLeave, Result.ok_bind]
  rcases (itr.setArray a).useBuffer_answers buffer bufsize with ⟨block, hUse⟩ | hUse
  swap
  · rw [hUse]
    exact .inl ⟨_, rfl⟩
  have hUsed : Counts { itr.setArray a with block := block } := ⟨h.some, h.pos⟩
  obtain ⟨itr', hSeek, hCounts⟩ := hUsed.seek_ok itr.nblock
  rw [hUse, Result.ok_bind]
  refine .inr ⟨_, _, congrArg (· >>= _) hSeek, ⟨hCounts.some, hCounts.pos⟩⟩

theorem Counts.hasNext_answers (hAnswers : E.Answers) (h : itr.Counts) :
    ∃ itr' more, itr.hasNext E = .ok (itr', more) ∧ itr'.Counts := by
  rw [hasNext]
  split
  · rcases store_answers hAnswers itr with ⟨a, hStore⟩ | hStore
    · rw [hStore]
      exact ⟨_, _, rfl, h.some, h.pos⟩
    · rw [hStore]
      exact ⟨_, _, rfl, h⟩
  · exact ⟨_, _, rfl, h⟩

end Answers

end IterWriteBlock

/-- Over a container with elements the iterator counts blocks, whatever the lengths of the storage
are. -/
theorem new_counts (hPlain : Plain c) (hRank : c.dtshape.ndim ≠ 0)
    (hPos : ∀ x ∈ c.catarr.axes, 0 < x.shape) (external : Bool) :
    ∃ itr, iarrayIterWriteBlockNew E c c.storage.chunkshape external = .ok itr ∧
      itr.Counts := by
  have hViewed : ¬ c.containerViewed.isSome := by
    rw [hPlain.containerViewed]
    exact Bool.false_ne_true
  have hChunks := stored_pos hPlain.fresh.chunkshape (chunkshapeOf_pos hPos)
  have hLen : c.catarr.axes.length = c.storage.chunkshape.length := by
    rw [length_stored hPlain.fresh.chunkshape, CatArray.chunkshape, chunkshapeOf, List.length_map]
  rw [iarrayIterWriteBlockNew, if_neg hViewed, if_neg (not_not.mpr rfl), contEshape_tiles hChunks,
    Result.ok_bind, idiv, if_neg (prod_pos_of_forall hChunks).ne', Result.ok_bind]
  refine IterWriteBlock.Counts.seek_ok ⟨?_, ?_⟩ 0
  · intro hNil
    refine hRank (hPlain.axes_eq_nil_iff.mp (List.length_eq_zero_iff.mp ?_))
    simpa [← hLen] using congrArg List.length hNil
  · intro hZero
    obtain ⟨i, hi, hZero⟩ := List.getElem_of_mem hZero
    rw [List.getElem_zipWith, List.getElem_map, List.getElem_zip] at hZero
    have hAxis : i < c.catarr.axes.length := by
      rw [hLen]
      exact (List.length_zipWith ▸ hi).trans_le (Nat.min_le_right _ _)
    have hBlock := hChunks _ (List.getElem_mem (hLen ▸ hAxis))
    have hShape := hPos _ (List.getElem_mem hAxis)
    have hExt : 0 < c.catarr.axes[i].extshape :=
      Nat.mul_pos (chunks_pos hShape) (c.catarr.axes[i].chunk_pos hShape)
    have hSome : 0 < numTiles c.catarr.axes[i].extshape c.storage.chunkshape[i] :=
      (lt_numTiles_iff hBlock).mpr (by rwa [Nat.zero_mul])
    rw [Nat.mul_div_cancel _ hBlock] at hZero
    exact hSome.ne' hZero

/-- Where Caterva answers, no writer brings the iterator to undefined behaviour. -/
theorem writeLoop_answers (hAnswers : E.Answers) (w : BlockWriter) (rounds : Nat)
    {itr : IterWriteBlock} (h : itr.Counts) (log : List Offer) (u : Undefined) :
    writeLoop E (fun _ => true) (w.round E) rounds itr log ≠ crash u := by
  induction rounds generalizing itr log with
  | zero =>
    obtain ⟨itr₁, more, hMore, -⟩ := h.hasNext_answers hAnswers
    rw [writeLoop, hMore]
    cases more with
    | false => exact Result.ne_crash_of_ok rfl u
    | true => exact Result.ne_crash_of_ok rfl u
  | succ rounds ih =>
    obtain ⟨itr₁, more, hMore, h₁⟩ := h.hasNext_answers hAnswers
    rw [writeLoop, hMore]
    cases more with
    | false => exact Result.ne_crash_of_ok rfl u
    | true =>
      show (w.round E itr₁ log >>= _) ≠ _
      rw [BlockWriter.round]
      rcases h₁.next_answers hAnswers (w.buffers.buffer itr₁.nblock) w.buffers.bufsize with
        ⟨e, hNext⟩ | ⟨itr₂, value, hNext, h₂⟩
      · rw [hNext]
        exact Result.ne_crash_of_refused ⟨e, rfl⟩ u
      · rw [hNext]
        exact ih (h₂.written _ _) _

theorem writeBlocks_answers (hAnswers : E.Answers) (hPlain : Plain c) (hRank : c.dtshape.ndim ≠ 0)
    (hPos : ∀ n ∈ c.dtshape.shape, 0 < n) (w : BlockWriter) :
    SafeRun c.dtshape.shape ((w.run E c).map Prod.snd) where
  defined u := by
    obtain ⟨itr, hNew, hCounts⟩ :=
      new_counts (E := E) hPlain hRank (hPlain.axes_pos hPos) w.buffers.external
    have hLoop := writeLoop_answers hAnswers w itr.totalBlocks hCounts []
    rw [BlockWriter.run, hNew, Result.ok_bind]
    cases hRun : writeLoop E (fun _ => true) (w.round E) itr.totalBlocks itr [] with
    | ok p => exact Result.ne_crash_of_ok rfl u
    | error e =>
      intro hCrash
      have hKind : e = .undefined u := Except.error.inj hCrash
      exact hLoop u (hRun.trans (congrArg Except.error hKind))
  nothing hZero := absurd hZero fun h => (hPos 0 h).false

end Write

end IronArray
