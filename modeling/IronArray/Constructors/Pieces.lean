import IronArray.Constructors.Split
import IronArray.Views.Run

/-!
# Joining arbitrary pieces

`iarray_concatenate` compares the destination with the first source only, and then moves one
compressed chunk out of every source. `concatenate_joins_iff` says for which sources the call
either is refused or puts the elements of source `i` into chunk `i` of the result.
-/

namespace IronArray

open Grid

/-! ## Places in a chunk -/

/-- Where the item with index `x` of a chunk lies, block after block. -/
def chunkPlace (ds bs x : List Nat) : Nat :=
  flat (tileCounts ds bs) (tileOf bs x) * bs.prod + flat bs (List.zipWith (· % ·) x bs)

theorem positions_in_chunk {as : List Axis} {t x : List Nat} (ht : t.length = as.length)
    (hx : InBox x (chunkshapeOf as)) :
    List.zipWith Axis.blockOf as (addIdx (tileStart (chunkshapeOf as) t) x) =
        tileOf (blockshapeOf as) x ∧
      List.zipWith Axis.itemOf as (addIdx (tileStart (chunkshapeOf as) t) x) =
        List.zipWith (· % ·) x (blockshapeOf as) := by
  induction as generalizing t x with
  | nil =>
    cases hx
    exact ⟨rfl, rfl⟩
  | cons a as ih =>
    obtain ⟨i, t, rfl⟩ := List.exists_cons_of_length_eq_add_one ht
    obtain ⟨j, x, rfl, hj, hx⟩ := InBox.cons_iff.mp hx
    obtain ⟨hBlock, hItem⟩ := ih (t := t) (by simpa using ht) hx
    have hMod : (i * a.chunkshape + j) % a.chunkshape = j := Nat.mul_add_mod_of_lt hj
    constructor
    · simp only [chunkshapeOf, blockshapeOf, List.map_cons, tileStart_cons, addIdx_cons,
        List.zipWith_cons_cons, tileOf_cons, Axis.blockOf, hMod, List.cons.injEq, true_and]
      exact hBlock
    · simp only [chunkshapeOf, blockshapeOf, List.map_cons, tileStart_cons, addIdx_cons,
        List.zipWith_cons_cons, Axis.itemOf, hMod, List.cons.injEq, true_and]
      exact hItem

/-- The place of an index of a chunk does not depend on the chunk. -/
theorem locate_place {as : List Axis} {t x : List Nat} (ht : t.length = as.length)
    (hx : InBox x (chunkshapeOf as)) :
    (locate as (addIdx (tileStart (chunkshapeOf as) t) x)).nblock * (blockshapeOf as).prod +
      (locate as (addIdx (tileStart (chunkshapeOf as) t) x)).nitem =
        chunkPlace (chunkshapeOf as) (blockshapeOf as) x := by
  obtain ⟨hBlock, hItem⟩ := positions_in_chunk ht hx
  rw [locate, chunkPlace, hBlock, hItem, tileCounts_blocks]

theorem tileStart_zeros (ds : List Nat) :
    tileStart ds (List.replicate ds.length 0) = List.replicate ds.length 0 := by
  induction ds with
  | nil => rfl
  | cons d ds ih =>
    rw [List.length_cons, List.replicate_succ, tileStart_cons, Nat.zero_mul, ih]

/-! ## Sources and their result -/

/-- The type, the rank and the partition of the destination. -/
structure SameParts (dtshape : Dtshape) (storage : Storage) (s : Container) : Prop where
  dtype : s.dtshape.dtype = dtshape.dtype
  ndim : s.dtshape.ndim = dtshape.ndim
  chunkshape : ∀ i < dtshape.ndim, s.storage.chunkshape.getD i 0 = storage.chunkshape.getD i 0
  blockshape : ∀ i < dtshape.ndim, s.storage.blockshape.getD i 0 = storage.blockshape.getD i 0

/-- The lengths that Caterva receives. -/
def storedLengths (ns : List Nat) : List Nat := ns.map fun n : Nat => (toInt32 n).toNat

theorem storedLengths_eq {bs ns : List Nat} (h : ints bs = ns.map fun n : Nat => toInt32 n) :
    bs = storedLengths ns := by
  have hStored : storedLengths ns = (ns.map fun n : Nat => toInt32 n).map Int.toNat := by
    rw [storedLengths, List.map_map, Function.comp_def]
  rw [hStored, ← h, ints, List.map_map]
  exact (List.map_id bs).symm

section Pieces

variable (dtshape : Dtshape) (storage : Storage)

/-- `src_len`. -/
def pieceCount : Nat := (tileCounts dtshape.shape storage.chunkshape).prod

/-- The start of chunk `i` of the destination. -/
def pieceStart (i : Nat) : List Nat :=
  tileStart (storedLengths storage.chunkshape)
    (unflat (tileCounts dtshape.shape (storedLengths storage.chunkshape)) i)

/-- The shape of the part of chunk `i` inside the destination. -/
def pieceExtent (i : Nat) : List Nat :=
  tileShape dtshape.shape (storedLengths storage.chunkshape)
    (unflat (tileCounts dtshape.shape (storedLengths storage.chunkshape)) i)

/-- The place of an item in a chunk of the destination. -/
def piecePlace (x : List Nat) : Nat :=
  chunkPlace (storedLengths storage.chunkshape) (storedLengths storage.blockshape) x

/-- Every consumed source matches the destination and is a single chunk, and chunk `i` of the
result holds the elements of source `i`. -/
def Joined (sources : List (Container × NdArray Cell)) (c : Container) : Prop :=
  PlainOf dtshape storage c ∧ ∀ i < pieceCount dtshape storage,
    ∃ s A, sources[i]? = some (s, A) ∧ SameParts dtshape storage s ∧ s.catarr.nchunks = 1 ∧
      ∀ x, InBox x (pieceExtent dtshape storage i) → InBox x A.shape ∧
        c.catarr.cell (addIdx (pieceStart dtshape storage i) x) = .ok (A.get x)

/-- The call is refused, or it joins its sources. -/
def Concatenates (E : Backend) (sources : List (Container × NdArray Cell)) : Prop :=
  Refused (iarrayConcatenate E (sources.map Prod.fst) dtshape storage) ∨
    ∃ c, iarrayConcatenate E (sources.map Prod.fst) dtshape storage = .ok c ∧
      Joined dtshape storage sources c

/-- A source that can be chunk `i`: of a view, the chunk in its own store has to hold its
elements. -/
structure Fits (i : Nat) (s : Container) (A : NdArray Cell) : Prop where
  parts : SameParts dtshape storage s
  single : s.catarr.nchunks = 1
  covers : ∀ x, InBox x (pieceExtent dtshape storage i) → InBox x A.shape
  own : s.containerViewed = none ∨ ∀ x, InBox x (pieceExtent dtshape storage i) →
    s.catarr.sc.chunk 0 (piecePlace storage x) = A.get x

/-- The loop stops at source `i`, which has no chunk. -/
def StopsAt (sources : List (Container × NdArray Cell)) (i : Nat) : Prop :=
  (∃ s A, sources[i]? = some (s, A) ∧ s.catarr.nchunks = 0) ∧
    ∀ j < i, ∃ s A, sources[j]? = some (s, A) ∧ s.catarr.nchunks ≠ 0

/-- The sources with which the call does what it should: there is a first one, and if it matches
the destination, there is no empty chunk length, and if Caterva makes the destination, all sources
fit or the loop stops at one without a chunk. -/
def Joins (E : Backend) (sources : List (Container × NdArray Cell)) : Prop :=
  (dtshape.ndim ≠ 0 → sources ≠ []) ∧
    ((dtshape.ndim = 0 ∨ ∃ s A, sources[0]? = some (s, A) ∧ SameParts dtshape storage s) →
      (∀ p ∈ List.zip dtshape.shape storage.chunkshape, 0 < p.2) ∧
        ((∃ c, iarrayEmpty E dtshape storage = .ok c) →
          (∀ i < pieceCount dtshape storage, ∃ s A, sources[i]? = some (s, A) ∧
            Fits dtshape storage i s A) ∨
          ∃ i < pieceCount dtshape storage, StopsAt sources i))

end Pieces

/-- `caterva_empty` returns a code where it does not make an array. -/
def Backend.EmptyReturns (E : Backend) : Prop :=
  ∀ itemsize shape st u, E.empty itemsize shape st ≠ crash u

variable {E : Backend} {dtshape : Dtshape} {storage : Storage}
  {sources : List (Container × NdArray Cell)}

/-! ## The checks -/

theorem checkPiece_cases {src : List Container} {piece : Container}
    (hFirst : pieceAt src 0 = .ok piece) (i : Nat) :
    Refused (checkPiece src dtshape storage i) ∨
      (checkPiece src dtshape storage i = .ok () ∧
        piece.storage.chunkshape.getD i 0 = storage.chunkshape.getD i 0 ∧
        piece.storage.blockshape.getD i 0 = storage.blockshape.getD i 0 ∧
        piece.dtshape.ndim = dtshape.ndim ∧ piece.dtshape.dtype = dtshape.dtype) := by
  rw [checkPiece, hFirst, Result.ok_bind]
  split
  next => exact .inl ⟨_, rfl⟩
  next hChunk =>
    split
    next => exact .inl ⟨_, rfl⟩
    next hBlock =>
      split
      next => exact .inl ⟨_, rfl⟩
      next hNdim =>
        split
        next => exact .inl ⟨_, rfl⟩
        next hDtype =>
          exact .inr ⟨rfl, (not_not.mp hChunk).symm, (not_not.mp hBlock).symm,
            (not_not.mp hNdim).symm, (not_not.mp hDtype).symm⟩

theorem checkPiece_same {src : List Container} {piece : Container}
    (hFirst : pieceAt src 0 = .ok piece) (h : SameParts dtshape storage piece) {i : Nat}
    (hi : i < dtshape.ndim) : checkPiece src dtshape storage i = .ok () := by
  rw [checkPiece, hFirst, Result.ok_bind, if_neg (not_not.mpr (h.chunkshape i hi).symm),
    if_neg (not_not.mpr (h.blockshape i hi).symm), if_neg (not_not.mpr h.ndim.symm),
    if_neg (not_not.mpr h.dtype.symm)]
  rfl

/-- The first source passes the checks exactly when it matches the destination. -/
theorem checks_cases {src : List Container} {piece : Container}
    (hFirst : pieceAt src 0 = .ok piece) (hNdim : dtshape.ndim ≠ 0) :
    (SameParts dtshape storage piece ∧
        forM (List.range dtshape.ndim) (checkPiece src dtshape storage) = .ok ()) ∨
      (¬ SameParts dtshape storage piece ∧
        Refused (forM (List.range dtshape.ndim) (checkPiece src dtshape storage))) := by
  by_cases hSame : SameParts dtshape storage piece
  · left
    exact ⟨hSame, Result.forM_ok fun i hi => checkPiece_same hFirst hSame (List.mem_range.mp hi)⟩
  · right
    refine ⟨hSame, ?_⟩
    have hSteps : ∀ i ∈ List.range dtshape.ndim, Refused (checkPiece src dtshape storage i) ∨
        checkPiece src dtshape storage i = .ok () :=
      fun i _ => (checkPiece_cases hFirst i).imp_right And.left
    rcases Result.forM_refused_or hSteps with hRefused | ⟨_, hOk⟩
    · exact hRefused
    · exfalso
      have hCases : ∀ i, Refused (checkPiece src dtshape storage i) ∨ _ :=
        fun i => checkPiece_cases hFirst i
      have hAxis : ∀ i < dtshape.ndim, _ := fun i hi => (hCases i).resolve_left (by
        rintro ⟨e, he⟩
        rw [hOk i (List.mem_range.mpr hi)] at he
        cases he)
      obtain ⟨_, _, _, hRank, hDtype⟩ := hAxis 0 (Nat.pos_of_ne_zero hNdim)
      exact hSame ⟨hDtype, hRank, fun i hi => (hAxis i hi).2.1, fun i hi => (hAxis i hi).2.2.1⟩

/-! ## The counts -/

theorem counts_ok (h : ∀ p ∈ List.zip dtshape.shape storage.chunkshape, 0 < p.2) :
    ((List.zip dtshape.shape storage.chunkshape).mapM fun p => iterBlocks p.1 p.2) =
      .ok (tileCounts dtshape.shape storage.chunkshape) := by
  rw [Result.mapM_ok _ _ (fun p => numTiles p.1 p.2) fun p hp => iterBlocks_eq (h p hp)]
  congr 1
  exact List.map_uncurry_zip_eq_zipWith (f := numTiles)

theorem counts_crash (h : ¬ ∀ p ∈ List.zip dtshape.shape storage.chunkshape, 0 < p.2) :
    ((List.zip dtshape.shape storage.chunkshape).mapM fun p => iterBlocks p.1 p.2) =
      crash .divisionByZero := by
  generalize List.zip dtshape.shape storage.chunkshape = ps at h ⊢
  induction ps with
  | nil => exact absurd (by simp) h
  | cons p ps ih =>
    rw [List.mapM_cons]
    by_cases hp : 0 < p.2
    · rw [iterBlocks_eq hp, Result.ok_bind, ih fun hAll => h (List.forall_mem_cons.mpr ⟨hp, hAll⟩)]
      rfl
    · rw [iterBlocks, if_pos (by omega)]
      rfl

/-! ## The loop over the sources -/

/-- A loop fails where its first failing step does. -/
theorem foldlM_fails {a : CatArray} {chunk : Nat → Result (Nat → Cell)}
    {items : Nat → Nat → Cell} {n i : Nat} {f : Failure} (hi : i < n)
    (hOk : ∀ j < i, chunk j = .ok (items j)) (hFail : chunk i = .error f) :
    (List.range n).foldlM (fun b nchunk => do
      let chunk ← chunk nchunk
      pure (b.updateChunk nchunk chunk)) a = .error f := by
  obtain ⟨k, rfl⟩ := Nat.exists_eq_add_of_lt hi
  rw [Nat.add_assoc, List.range_add, List.foldlM_append, CatArray.foldlM_withItems hOk,
    Result.ok_bind, Nat.add_comm k 1, List.range_add, List.map_append, List.foldlM_append]
  simp only [List.range_one, List.map_cons, List.map_nil, List.foldlM_cons, Nat.add_zero, hFail]
  rfl

theorem pieceChunk_source {s : Container} {A : NdArray Cell} {i : Nat}
    (h : sources[i]? = some (s, A)) :
    pieceChunk (sources.map Prod.fst) i = s.catarr.getChunk 0 := by
  rw [pieceChunk, pieceAt, List.getElem?_map, h]
  rfl

theorem pieceChunk_none {i : Nat} (h : sources[i]? = none) :
    pieceChunk (sources.map Prod.fst) i = crash .outOfBounds := by
  rw [pieceChunk, pieceAt, List.getElem?_map, h]
  rfl

/-- Source `i` is there and has a chunk. -/
def HasChunk (sources : List (Container × NdArray Cell)) (i : Nat) : Prop :=
  ∃ s A, sources[i]? = some (s, A) ∧ s.catarr.nchunks ≠ 0

/-- The stored items of the first chunk of source `i`. -/
def sourceItems (sources : List (Container × NdArray Cell)) (i : Nat) : Nat → Cell :=
  match sources[i]? with
  | some s => s.1.catarr.sc.chunk 0
  | none => fun _ => .bits 0

theorem HasChunk.pieceChunk {i : Nat} (h : HasChunk sources i) :
    pieceChunk (sources.map Prod.fst) i = .ok (sourceItems sources i) := by
  obtain ⟨s, A, hs, hChunk⟩ := h
  rw [pieceChunk_source hs, CatArray.getChunk, if_pos (Nat.pos_of_ne_zero hChunk), sourceItems, hs]

/-- The loop moves every chunk, stops at a source without a chunk, or runs past the sources. -/
theorem loop_cases (a : CatArray) (n : Nat) :
    let loop : Result CatArray := (List.range n).foldlM (fun b i => do
      let chunk ← pieceChunk (sources.map Prod.fst) i
      pure (b.updateChunk i chunk)) a
    ((∀ i < n, HasChunk sources i) ∧ loop = .ok (a.withItems n (sourceItems sources))) ∨
      ((∃ i < n, StopsAt sources i) ∧ Refused loop) ∨
      ((¬ ∀ i < n, HasChunk sources i) ∧ (¬ ∃ i < n, StopsAt sources i) ∧
        loop = crash .outOfBounds) := by
  dsimp only
  by_cases hAll : ∀ i < n, HasChunk sources i
  · exact .inl ⟨hAll, CatArray.foldlM_withItems fun i hi => (hAll i hi).pieceChunk⟩
  · right
    classical
    have hSome : ∃ i, i < n ∧ ¬ HasChunk sources i := by
      by_contra hNone
      push Not at hNone
      exact hAll hNone
    obtain ⟨hi, hFirst⟩ := Nat.find_spec hSome
    have hBefore : ∀ j < Nat.find hSome, HasChunk sources j := by
      intro j hj
      by_contra hNone
      exact Nat.find_min hSome hj ⟨by omega, hNone⟩
    rcases hGet : sources[Nat.find hSome]? with _ | ⟨s, A⟩
    · right
      refine ⟨hAll, ?_, foldlM_fails hi (fun j hj => (hBefore j hj).pieceChunk)
        (pieceChunk_none hGet)⟩
      rintro ⟨i, hin, ⟨⟨s, A, hs, hZero⟩, hOthers⟩⟩
      rcases Nat.lt_trichotomy i (Nat.find hSome) with hLt | rfl | hGt
      · obtain ⟨s', A', hs', hChunk⟩ := hBefore i hLt
        rw [hs] at hs'
        cases hs'
        exact hChunk hZero
      · rw [hGet] at hs
        cases hs
      · obtain ⟨s', A', hs', _⟩ := hOthers _ hGt
        rw [hGet] at hs'
        cases hs'
    · left
      have hZero : s.catarr.nchunks = 0 := by
        by_contra hChunk
        exact hFirst ⟨s, A, hGet, hChunk⟩
      refine ⟨⟨_, hi, ⟨s, A, hGet, hZero⟩, hBefore⟩, .bloscFailed, ?_⟩
      apply foldlM_fails hi (fun j hj => (hBefore j hj).pieceChunk)
      rw [pieceChunk_source hGet, CatArray.getChunk, if_neg (by omega)]
      rfl

/-! ## What the chunks hold -/

/-- The item of chunk `q` at the index `x` of the chunk. -/
def CatArray.chunkItem (a : CatArray) (q : Nat) (x : List Nat) : Cell :=
  a.sc.chunk q (chunkPlace a.chunkshape a.blockshape x)

/-- The elements of the array lie in the part of their chunk that is inside. -/
theorem CatArray.cell_chunkItem {a : CatArray} (hSized : a.Sized) (hPost : a.sc.postfilter = none)
    {q : Nat} (hq : q < a.nchunks) {x : List Nat} (hx : InBox x (chunkExtent a.axes q)) :
    a.cell (addIdx (chunkStart a.axes q) x) = .ok (a.chunkItem q x) := by
  have hLength : (unflat (a.axes.map Axis.chunks) q).length = a.axes.length := by
    rw [unflat_length, List.length_map]
  have hIn : InBox x (chunkshapeOf a.axes) :=
    inBox_of_tileShape (length_chunkshapeOf _) (by rw [hLength, chunkshapeOf, List.length_map]) hx
  have hRegion := region_chunk (shape_pos_of_nchunks hq) hq
  have hPlace : (locate a.axes (addIdx (chunkStart a.axes q) x)).nblock *
      (blockshapeOf a.axes).prod + (locate a.axes (addIdx (chunkStart a.axes q) x)).nitem =
        chunkPlace (chunkshapeOf a.axes) (blockshapeOf a.axes) x := locate_place hLength hIn
  rw [cell_stored hSized hPost (hRegion.inBox hx), blockshape, nchunk_addIdx hq hx, hPlace]
  rfl

/-- Longer tiles are no more. -/
theorem prod_tileCounts_le {ns ds es : List Nat} (hLe : List.Forall₂ (· ≤ ·) ds es)
    (hPos : ∀ p ∈ List.zip ns ds, 0 < p.1 → 0 < p.2) :
    (tileCounts ns es).prod ≤ (tileCounts ns ds).prod := by
  induction ns generalizing ds es with
  | nil => simp [tileCounts]
  | cons n ns ih =>
    cases hLe with
    | nil => simp [tileCounts]
    | @cons d e ds es hHead hTail =>
      obtain ⟨hFirst, hRest⟩ := List.forall_mem_cons.mp hPos
      simp only [tileCounts, List.zipWith_cons_cons, List.prod_cons]
      refine Nat.mul_le_mul ?_ (ih hTail hRest)
      rcases Nat.eq_zero_or_pos n with rfl | hn
      · rw [numTiles_zero]
        exact Nat.zero_le _
      · have hd := hFirst hn
        by_contra hMore
        have hInside := (lt_numTiles_iff (hd.trans_le hHead)).mp (Nat.lt_of_not_le hMore)
        have hOther := (lt_numTiles_iff (n := n) hd).mpr
          ((Nat.mul_le_mul_left _ hHead).trans_lt hInside)
        exact absurd hOther (lt_irrefl _)

section Made

variable {a : CatArray} {itemsize : Nat}
  (hFresh : Fresh a itemsize dtshape.shape (iarrayCreateCatervaStorage storage))
include hFresh

theorem chunkshapeOf_made : chunkshapeOf a.axes = storedLengths storage.chunkshape :=
  storedLengths_eq hFresh.chunkshape

theorem blockshapeOf_made : blockshapeOf a.axes = storedLengths storage.blockshape :=
  storedLengths_eq hFresh.blockshape

/-- The destination has a chunk for every source that is consumed. -/
theorem pieceCount_le : pieceCount dtshape storage ≤ a.nchunks := by
  have hShape : shapeOf a.axes = dtshape.shape := hFresh.shape
  rw [pieceCount, CatArray.nchunks, ← tileCounts_chunks, ← hShape]
  refine prod_tileCounts_le (stored_le hFresh.chunkshape) ?_
  have hZip : List.zip (shapeOf a.axes) (chunkshapeOf a.axes) =
      a.axes.map fun x => (x.shape, x.chunkshape) := List.zip_map'
  rw [hZip]
  exact List.forall_mem_map.mpr fun x _ => x.chunk_pos

/-- An array, read at an index of chunk `i`. -/
theorem cell_of_chunk {i : Nat} (hi : i < pieceCount dtshape storage) {x : List Nat}
    (hx : InBox x (pieceExtent dtshape storage i)) :
    a.cell (addIdx (pieceStart dtshape storage i) x) = .ok (a.sc.chunk i (piecePlace storage x)) := by
  have hShape : shapeOf a.axes = dtshape.shape := hFresh.shape
  have hChunk := chunkshapeOf_made hFresh
  have hCounts : tileCounts dtshape.shape (storedLengths storage.chunkshape) =
      a.axes.map Axis.chunks := by
    rw [← hShape, ← hChunk, tileCounts_chunks]
  rw [pieceExtent, hCounts, ← hShape, ← hChunk] at hx
  rw [pieceStart, hCounts, piecePlace, ← hChunk, ← blockshapeOf_made hFresh]
  exact CatArray.cell_chunkItem hFresh.sized hFresh.postfilter (hi.trans_le (pieceCount_le hFresh)) hx

end Made

/-- The elements of a source that is not a view lie in its store. -/
theorem Run.stored (hE : E.Lawful) {s : Container} {A : NdArray Cell} (hRun : Run E s A)
    (hView : s.containerViewed = none) (hParts : SameParts dtshape storage s)
    (hChunk : storage.chunkshape.length = dtshape.ndim)
    (hBlock : storage.blockshape.length = dtshape.ndim) (hSingle : s.catarr.nchunks = 1)
    {x : List Nat} (hx : InBox x A.shape) (hIn : InBox x (storedLengths storage.chunkshape)) :
    s.catarr.sc.chunk 0 (piecePlace storage x) = A.get x := by
  have hPlain : Plain s ∧ s.contents.Same A := by
    cases hRun.known hE with
    | plain hPlain hSame => exact ⟨hPlain, hSame⟩
    | view hViewed _ => exact absurd hViewed (by simp [hView])
    | transposed hShows => exact absurd hShows.viewed (by simp [hView])
  obtain ⟨hPlain, hSame⟩ := hPlain
  have hNdim : s.catarr.axes.length = dtshape.ndim := hPlain.catarr_ndim.trans hParts.ndim
  have hSameChunk : s.storage.chunkshape = storage.chunkshape := by
    refine ext_getD ?_ fun i hi => hParts.chunkshape i (hChunk ▸ hi)
    rw [length_stored hPlain.fresh.chunkshape, CatArray.chunkshape, chunkshapeOf, List.length_map,
      hNdim, hChunk]
  have hSameBlock : s.storage.blockshape = storage.blockshape := by
    refine ext_getD ?_ fun i hi => hParts.blockshape i (hBlock ▸ hi)
    rw [length_stored hPlain.fresh.blockshape, CatArray.blockshape, blockshapeOf, List.length_map,
      hNdim, hBlock]
  have hChunks : chunkshapeOf s.catarr.axes = storedLengths storage.chunkshape := by
    rw [← hSameChunk]
    exact storedLengths_eq hPlain.fresh.chunkshape
  have hBlocks : blockshapeOf s.catarr.axes = storedLengths storage.blockshape := by
    rw [← hSameBlock]
    exact storedLengths_eq hPlain.fresh.blockshape
  have hEq : s.dtshape.shape = A.shape := hSame.shape
  have hShape : InBox x s.catarr.shape := by
    rw [hPlain.fresh.shape, hEq]
    exact hx
  have hFirst : (locate s.catarr.axes x).nchunk = 0 := by
    have := nchunk_lt hShape
    rw [CatArray.nchunks] at hSingle
    omega
  have hZeros := locate_place (t := List.replicate (chunkshapeOf s.catarr.axes).length 0)
    (by rw [List.length_replicate, chunkshapeOf, List.length_map]) (hChunks.symm ▸ hIn)
  rw [tileStart_zeros, addIdx_replicate_zero (by rw [hChunks, hIn.length_eq])] at hZeros
  have hCell := CatArray.cell_stored hPlain.fresh.sized hPlain.fresh.postfilter hShape
  rw [CatArray.blockshape, hFirst, hZeros, hChunks, hBlocks] at hCell
  have hGet : s.catarr.get x = A.get x :=
    hSame.get x (by rw [Container.contents, ← hPlain.fresh.shape]; exact hShape)
  rw [← hGet, CatArray.get, hCell]
  rfl

/-! ## The call -/

theorem concatenate_eq {c : Container}
    (hChecks : forM (List.range dtshape.ndim)
      (checkPiece (sources.map Prod.fst) dtshape storage) = .ok ())
    (hPos : ∀ p ∈ List.zip dtshape.shape storage.chunkshape, 0 < p.2)
    (hEmpty : iarrayEmpty E dtshape storage = .ok c) :
    iarrayConcatenate E (sources.map Prod.fst) dtshape storage =
      ((List.range (pieceCount dtshape storage)).foldlM (fun (b : CatArray) i => do
        let chunk ← pieceChunk (sources.map Prod.fst) i
        pure (b.updateChunk i chunk)) c.catarr).map fun a => { c with catarr := a } := by
  rw [iarrayConcatenate, hChecks, Result.ok_bind, counts_ok hPos, Result.ok_bind, hEmpty,
    Result.ok_bind]
  rfl

/-- The result of the loop joins its sources exactly when all of them fit. -/
theorem joined_iff (hE : E.Lawful) (hSources : ∀ s A, (s, A) ∈ sources → Run E s A) {c : Container}
    (hEmpty : iarrayEmpty E dtshape storage = .ok c) :
    Joined dtshape storage sources { c with
      catarr := c.catarr.withItems (pieceCount dtshape storage) (sourceItems sources) } ↔
      ∀ i < pieceCount dtshape storage, ∃ s A, sources[i]? = some (s, A) ∧
        Fits dtshape storage i s A := by
  have hPlain := iarrayEmpty_plain hE hEmpty
  have hFresh : Fresh c.catarr dtshape.dtypeSize dtshape.shape
      (iarrayCreateCatervaStorage storage) := by
    have h := hPlain.plain.fresh
    rwa [hPlain.dtshape, hPlain.storage] at h
  have hMoved := hFresh.withItems (pieceCount dtshape storage) (sourceItems sources)
  have hRank : c.catarr.axes.length = dtshape.ndim := by
    rw [Dtshape.ndim, ← hFresh.shape, CatArray.shape, length_shapeOf]
  have hChunk : storage.chunkshape.length = dtshape.ndim := by
    rw [length_stored hFresh.chunkshape, CatArray.chunkshape, chunkshapeOf, List.length_map, hRank]
  have hBlock : storage.blockshape.length = dtshape.ndim := by
    rw [length_stored hFresh.blockshape, CatArray.blockshape, blockshapeOf, List.length_map, hRank]
  have hCell : ∀ i < pieceCount dtshape storage, ∀ s A, sources[i]? = some (s, A) →
      ∀ x, InBox x (pieceExtent dtshape storage i) →
        (c.catarr.withItems (pieceCount dtshape storage) (sourceItems sources)).cell
          (addIdx (pieceStart dtshape storage i) x) =
        .ok (s.catarr.sc.chunk 0 (piecePlace storage x)) := by
    intro i hi s A hs x hx
    rw [cell_of_chunk hMoved hi hx]
    simp only [CatArray.withItems, if_pos hi, sourceItems, hs]
  constructor
  · rintro ⟨_, hJoined⟩ i hi
    obtain ⟨s, A, hs, hParts, hSingle, hElements⟩ := hJoined i hi
    refine ⟨s, A, hs, hParts, hSingle, fun x hx => (hElements x hx).1, .inr fun x hx => ?_⟩
    have hGet := (hElements x hx).2
    rw [hCell i hi s A hs x hx] at hGet
    exact Except.ok.inj hGet
  · intro hFits
    refine ⟨⟨?_, hPlain.dtshape, hPlain.storage⟩, ?_⟩
    · apply hPlain.plain.setArray
      rw [hPlain.dtshape, hPlain.storage]
      exact hMoved
    · intro i hi
      obtain ⟨s, A, hs, hFit⟩ := hFits i hi
      refine ⟨s, A, hs, hFit.parts, hFit.single, fun x hx => ⟨hFit.covers x hx, ?_⟩⟩
      rw [hCell i hi s A hs x hx]
      rcases hFit.own with hView | hOwn
      · congr 1
        apply (hSources s A (List.mem_of_getElem? hs)).stored hE hView hFit.parts hChunk hBlock
          hFit.single (hFit.covers x hx)
        have hLength : (storedLengths storage.chunkshape).length = dtshape.shape.length := by
          rw [storedLengths, List.length_map, hChunk]
          rfl
        refine inBox_of_tileShape hLength.symm ?_ hx
        rw [unflat_length, length_tileCounts hLength.symm, hLength]
      · rw [hOwn x hx]

theorem not_concatenates {u : Undefined}
    (h : iarrayConcatenate E (sources.map Prod.fst) dtshape storage = crash u) :
    ¬ Concatenates dtshape storage E sources := by
  rintro (⟨e, he⟩ | ⟨c, hc, _⟩)
  · rw [h] at he
    cases he
  · rw [h] at hc
    cases hc

theorem emptyReturns_container (hReturns : E.EmptyReturns) (u : Undefined) :
    iarrayEmpty E dtshape storage ≠ crash u := by
  intro h
  rw [iarrayEmpty, iarrayContainerNew] at h
  split at h
  next => cases h
  next =>
    rw [Result.ok_bind] at h
    rcases hMake : E.empty dtshape.dtypeSize dtshape.shape (iarrayCreateCatervaStorage storage) with
      (e | v) | a
    · rw [hMake] at h
      cases h
    · exact hReturns _ _ _ v hMake
    · rw [hMake] at h
      cases h

/-- Behind the checks. -/
theorem concatenates_checked (hE : E.Lawful) (hReturns : E.EmptyReturns)
    (hSources : ∀ s A, (s, A) ∈ sources → Run E s A)
    (hChecks : forM (List.range dtshape.ndim)
      (checkPiece (sources.map Prod.fst) dtshape storage) = .ok ()) :
    Concatenates dtshape storage E sources ↔
      (∀ p ∈ List.zip dtshape.shape storage.chunkshape, 0 < p.2) ∧
        ((∃ c, iarrayEmpty E dtshape storage = .ok c) →
          (∀ i < pieceCount dtshape storage, ∃ s A, sources[i]? = some (s, A) ∧
            Fits dtshape storage i s A) ∨
          ∃ i < pieceCount dtshape storage, StopsAt sources i) := by
  by_cases hPos : ∀ p ∈ List.zip dtshape.shape storage.chunkshape, 0 < p.2
  · rw [and_iff_right hPos]
    rcases hEmpty : iarrayEmpty E dtshape storage with (e | u) | c
    · have hRefused : Refused (iarrayConcatenate E (sources.map Prod.fst) dtshape storage) := by
        rw [iarrayConcatenate, hChecks, Result.ok_bind, counts_ok hPos, Result.ok_bind, hEmpty]
        exact ⟨e, rfl⟩
      refine iff_of_true (.inl hRefused) ?_
      rintro ⟨_, hOk⟩
      cases hOk
    · exact absurd hEmpty (emptyReturns_container hReturns u)
    · have hRun := concatenate_eq hChecks hPos hEmpty
      rw [forall_prop_of_true ⟨c, rfl⟩]
      rcases @loop_cases sources c.catarr (pieceCount dtshape storage) with
        ⟨hAll, hLoop⟩ | ⟨hStop, hLoop⟩ | ⟨hSome, hStop, hLoop⟩
      · rw [hLoop] at hRun
        have hNoStop : ¬ ∃ i < pieceCount dtshape storage, StopsAt sources i := by
          rintro ⟨i, hi, ⟨s, A, hs, hZero⟩, _⟩
          obtain ⟨s', A', hs', hChunk⟩ := hAll i hi
          rw [hs] at hs'
          cases hs'
          exact hChunk hZero
        rw [or_iff_left hNoStop, ← joined_iff hE hSources hEmpty]
        constructor
        · rintro (⟨e, he⟩ | ⟨r, hr, hJoined⟩)
          · rw [hRun] at he
            cases he
          · rw [hRun] at hr
            cases hr
            exact hJoined
        · exact fun hJoined => .inr ⟨_, hRun, hJoined⟩
      · obtain ⟨e, he⟩ := hLoop
        rw [he] at hRun
        exact iff_of_true (.inl ⟨e, hRun⟩) (.inr hStop)
      · rw [hLoop] at hRun
        refine iff_of_false (not_concatenates hRun) ?_
        rintro (hFits | hStops)
        · apply hSome
          intro i hi
          obtain ⟨s, A, hs, hFit⟩ := hFits i hi
          exact ⟨s, A, hs, by rw [hFit.single]; exact one_ne_zero⟩
        · exact hStop hStops
  · refine iff_of_false (not_concatenates (u := .divisionByZero) ?_) fun h => hPos h.1
    rw [iarrayConcatenate, hChecks, Result.ok_bind, counts_crash hPos]
    rfl

/-- Concatenation is refused or joins its sources exactly under `Joins`. -/
theorem concatenate_joins_iff (hE : E.Lawful) (hReturns : E.EmptyReturns)
    (hSources : ∀ s A, (s, A) ∈ sources → Run E s A) (dtshape : Dtshape) (storage : Storage) :
    Concatenates dtshape storage E sources ↔ Joins dtshape storage E sources := by
  by_cases hNdim : dtshape.ndim = 0
  · have hChecks : forM (List.range dtshape.ndim)
        (checkPiece (sources.map Prod.fst) dtshape storage) = .ok () := by
      rw [hNdim]
      rfl
    rw [concatenates_checked hE hReturns hSources hChecks, Joins,
      and_iff_right fun h => absurd hNdim h]
    exact ⟨fun h _ => h, fun h => h (.inl hNdim)⟩
  · rcases sources with _ | ⟨⟨s, A⟩, rest⟩
    · refine iff_of_false (not_concatenates (concatenate_of_no_chunks hNdim)) ?_
      exact fun h => h.1 hNdim rfl
    · have hFirst : pieceAt (((s, A) :: rest).map Prod.fst) 0 = .ok s := rfl
      have hMatch : (dtshape.ndim = 0 ∨ ∃ s' A', ((s, A) :: rest)[0]? = some (s', A') ∧
          SameParts dtshape storage s') ↔ SameParts dtshape storage s := by
        rw [or_iff_right hNdim]
        constructor
        · rintro ⟨s', A', hs, hSame⟩
          cases hs
          exact hSame
        · exact fun hSame => ⟨s, A, rfl, hSame⟩
      rw [Joins, and_iff_right fun _ => List.cons_ne_nil _ _, hMatch]
      rcases checks_cases hFirst hNdim with ⟨hSame, hChecks⟩ | ⟨hSame, hRefused⟩
      · rw [concatenates_checked hE hReturns hSources hChecks, forall_prop_of_true hSame]
      · refine iff_of_true (.inl ?_) fun h => absurd h hSame
        rw [iarrayConcatenate]
        exact Result.refused_bind hRefused _

namespace PieceExample

/-- A 2 by 2 matrix in a single chunk. -/
def rows : Container :=
  Reference.plain .int32 [.ofCuts 2 2 1, .ofCuts 2 2 2]
    fun x => .bits (flat [2, 2] x)

/-- The same matrix in other blocks. -/
def columns : Container :=
  Reference.plain .int32 [.ofCuts 2 2 2, .ofCuts 2 2 1]
    fun x => .bits (flat [2, 2] x)

theorem run_rows : Run Reference.backend rows rows.contents :=
  .plain (Reference.plain_plain _ _ (by decide) (by decide))

theorem run_columns : Run Reference.backend columns columns.contents :=
  .plain (Reference.plain_plain _ _ (by decide) (by decide))

def target : Dtshape := ⟨.int32, [4, 2]⟩

theorem fits_rows (i : Nat) (hi : i < 2) : Fits target rows.storage i rows rows.contents := by
  refine ⟨⟨rfl, rfl, fun _ _ => rfl, fun _ _ => rfl⟩, rfl, ?_, .inl rfl⟩
  intro x hx
  have hExtent : pieceExtent target rows.storage i = [2, 2] := by
    obtain rfl | rfl : i = 0 ∨ i = 1 := by omega
    · decide
    · decide
  rw [hExtent] at hx
  exact hx

end PieceExample

theorem emptyReturns_reference : Reference.backend.EmptyReturns := by
  intro itemsize shape st u h
  change Reference.create itemsize shape st (fun _ => .bits 0) = crash u at h
  unfold Reference.create at h
  split at h
  · split at h
    · cases h
    · cases h
  · cases h

theorem concatenate_joins_rows :
    Concatenates PieceExample.target PieceExample.rows.storage Reference.backend
      [(PieceExample.rows, PieceExample.rows.contents),
        (PieceExample.rows, PieceExample.rows.contents)] := by
  refine (concatenate_joins_iff Reference.lawful emptyReturns_reference ?_ _ _).mpr ⟨nofun, ?_⟩
  · intro s A h
    obtain ⟨rfl, rfl⟩ : s = PieceExample.rows ∧ A = PieceExample.rows.contents := by
      simpa using h
    exact PieceExample.run_rows
  · refine fun _ => ⟨by decide, fun _ => .inl fun i hi => ?_⟩
    have hCount : i < 2 := hi
    refine ⟨PieceExample.rows, PieceExample.rows.contents, ?_, PieceExample.fits_rows i hCount⟩
    obtain rfl | rfl : i = 0 ∨ i = 1 := by omega
    · rfl
    · rfl

/-- The second source lies in other blocks: the call succeeds and mixes its elements up. -/
theorem concatenate_joins_fails :
    ∃ c, iarrayConcatenate Reference.backend [PieceExample.rows, PieceExample.columns]
        PieceExample.target PieceExample.rows.storage = .ok c ∧
      c.catarr.cell [2, 1] = .ok (.bits 2) ∧ PieceExample.columns.catarr.cell [0, 1] = .ok (.bits 1) ∧
      ¬ ∀ (sources : List (Container × NdArray Cell)) (dtshape : Dtshape) (storage : Storage),
        (∀ s A, (s, A) ∈ sources → Run Reference.backend s A) →
        Concatenates dtshape storage Reference.backend sources := by
  refine ⟨_, rfl, by decide, by decide, fun hAll => ?_⟩
  have hRun : ∀ s A, (s, A) ∈ [(PieceExample.rows, PieceExample.rows.contents),
      (PieceExample.columns, PieceExample.columns.contents)] → Run Reference.backend s A := by
    intro s A h
    rcases List.mem_pair.mp h with h | h
    · cases h
      exact PieceExample.run_rows
    · cases h
      exact PieceExample.run_columns
  rcases hAll _ PieceExample.target PieceExample.rows.storage hRun with ⟨e, he⟩ | ⟨c, _, _, hJoined⟩
  · cases he
  · obtain ⟨s, A, hs, hParts, _⟩ := hJoined 1 (by decide)
    cases hs
    exact absurd (hParts.blockshape 0 (by decide)) (by decide)

end IronArray
